import BuxnJit.Foundations.HintedSearch
import BuxnJit.Lir.Machine

/-!
# Debug symbols

The symbol table that both debug hooks look recorded addresses up in, and `buxn_dbg_find_symbol`.
With the opcode symbols in the order of their addresses the hint never changes an answer, whatever
addresses were looked up before (`search_hint`).
-/

namespace BuxnJit

open Foundations

/-- The types of symbols; the search only tells opcodes from the others. -/
inductive SymType
  | opcode
  | other (k : ℕ)
  deriving DecidableEq

/-- `buxn_dbg_sym_t`. The name of the source file is a string in memory. -/
structure Sym where
  type : SymType
  addrMin : Short
  addrMax : Short
  filename : Word
  line : BitVec 32
  col : BitVec 32
  deriving DecidableEq

/-- The symbol is that of an opcode, and its range contains the address. -/
def Sym.Covers (a : Short) (s : Sym) : Prop := s.type = .opcode ∧ s.addrMin ≤ a ∧ a ≤ s.addrMax

instance (a : Short) (s : Sym) : Decidable (s.Covers a) := inferInstanceAs (Decidable (_ ∧ _ ∧ _))

/-- What the loops of `buxn_dbg_find_symbol` make of a symbol. -/
def Sym.judge (a : Short) (s : Sym) : Verdict :=
  if s.type ≠ .opcode then .skip
  else if s.addrMin ≤ a ∧ a ≤ s.addrMax then .hit
  else if s.addrMin > a then .stop
  else .skip

abbrev Symtab := List Sym

namespace Symtab

/-- `buxn_dbg_find_symbol`: the symbol, or NULL, and the hint that is left. Without a hint the search
is that from 0. -/
def findSymbol (t : Symtab) (a : Short) (hint : ℕ) : Option Sym × ℕ := hinted (Sym.judge a) t hint

/-- Opcode symbols are sorted by `addr_min`, and their ranges are disjoint. -/
def Sorted (t : Symtab) : Prop :=
  t.Pairwise fun s s' => s.type = .opcode → s'.type = .opcode →
    s.addrMin ≤ s'.addrMin ∧ ∀ a, ¬(s.Covers a ∧ s'.Covers a)

/-- Lookups through one hint: their answers, and the hint after each. -/
def findAll (t : Symtab) : ℕ → List Short → List (Option Sym × ℕ)
  | _, [] => []
  | hint, a :: as => t.findSymbol a hint :: t.findAll (t.findSymbol a hint).2 as

variable {t : Symtab} {a : Short} {hint : ℕ}

theorem judge_eq_hit {s : Sym} : s.judge a = .hit ↔ s.Covers a := by
  unfold Sym.judge Sym.Covers
  by_cases hs : s.type = .opcode
  · by_cases ha : s.addrMin ≤ a ∧ a ≤ s.addrMax
    · simp [hs, ha]
    · by_cases hmin : s.addrMin > a <;> simp [hs, ha, hmin]
  · simp [hs]

theorem Sorted.hitsFirst (h : t.Sorted) (a : Short) : HitsFirst (Sym.judge a) t := by
  refine h.imp ?_
  intro s s' hss' hhit
  obtain ⟨hop', hmin', hmax'⟩ := judge_eq_hit.mp hhit
  by_cases hop : s.type = .opcode
  · obtain ⟨hle, hdisj⟩ := hss' hop hop'
    have hmin : s.addrMin ≤ a := BitVec.le_trans hle hmin'
    have hmiss : ¬(s.addrMin ≤ a ∧ a ≤ s.addrMax) := by
      intro hin
      exact hdisj a ⟨⟨hop, hin⟩, ⟨hop', hmin', hmax'⟩⟩
    have hstop : ¬s.addrMin > a := BitVec.not_lt.mpr hmin
    simp [Sym.judge, hop, hmiss, hstop]
  · simp [Sym.judge, hop]

/-- In any table, what is found covers the address. -/
theorem covers_of_findSymbol {s : Sym} (h : (t.findSymbol a hint).1 = some s) :
    s ∈ t ∧ s.Covers a := by
  obtain ⟨hmem, hhit⟩ := mem_of_hinted h
  exact ⟨hmem, judge_eq_hit.mp hhit⟩

theorem findSymbol_none (h : ∀ s ∈ t, ¬s.Covers a) (hint : ℕ) : (t.findSymbol a hint).1 = none :=
  hinted_none (fun s hs hhit => h s hs (judge_eq_hit.mp hhit)) hint

/-- **A lookup** finds the symbol that covers the address, wherever it starts. -/
theorem Sorted.findSymbol (h : t.Sorted) {i : ℕ} {s : Sym} (hs : t[i]? = some s) (ha : s.Covers a)
    (hint : ℕ) : t.findSymbol a hint = (some s, i) := by
  obtain ⟨hi, rfl⟩ := List.getElem?_eq_some_iff.mp hs
  have hsplit : t.take i ++ t[i] :: t.drop (i + 1) = t := by
    rw [List.getElem_cons_drop, List.take_append_drop]
  have horder := h.hitsFirst a
  rw [← hsplit] at horder
  have hfound := hinted_hit horder (judge_eq_hit.mpr ha) hint
  rw [hsplit, List.length_take_of_le hi.le] at hfound
  exact hfound

/-- What a lookup should answer: the one symbol that covers the address, and NULL if there is none. -/
structure Answers (t : Symtab) (a : Short) (r : Option Sym × ℕ) : Prop where
  found : ∀ s, r.1 = some s ↔ s ∈ t ∧ s.Covers a
  unique : ∀ (i j : ℕ) (s s' : Sym), t[i]? = some s → t[j]? = some s' → s.Covers a →
    s'.Covers a → i = j
  missing : r.1 = none ↔ ∀ s ∈ t, ¬s.Covers a
  unhinted : r.1 = (t.findSymbol a 0).1
  hint_le : r.2 ≤ t.length

theorem Sorted.answers (h : t.Sorted) (hhint : hint ≤ t.length) (a : Short) :
    t.Answers a (t.findSymbol a hint) := by
  have hfound : ∀ hint s, (t.findSymbol a hint).1 = some s ↔ s ∈ t ∧ s.Covers a := by
    intro hint s
    constructor
    · exact covers_of_findSymbol
    · rintro ⟨hmem, hs⟩
      obtain ⟨i, hi⟩ := List.mem_iff_getElem?.mp hmem
      rw [h.findSymbol hi hs]
  refine ⟨hfound hint, ?_, ?_, ?_, hinted_le hhint⟩
  · intro i j s s' hi hj hs hs'
    have heq := (h.findSymbol hi hs 0).symm.trans (h.findSymbol hj hs' 0)
    exact congrArg Prod.snd heq
  · constructor
    · intro hnone s hmem hs
      rw [(hfound hint s).mpr ⟨hmem, hs⟩] at hnone
      cases hnone
    · exact fun hmiss => findSymbol_none hmiss hint
  · apply Option.ext
    intro s
    rw [hfound hint, hfound 0]

/-- **The hint never changes an answer.** Through one hint that starts at 0, every lookup of a
sequence answers as it should, and leaves the hint within the table. -/
theorem search_hint (t : Symtab) (h : t.Sorted) (as : List Short) :
    List.Forall₂ (fun a r => t.Answers a r) as (t.findAll 0 as) := by
  have hall : ∀ hint, hint ≤ t.length → List.Forall₂ (fun a r => t.Answers a r) as
      (t.findAll hint as) := by
    induction as with
    | nil => exact fun _ _ => .nil
    | cons a as ih =>
      intro hint hhint
      have hanswers := h.answers hhint a
      exact .cons hanswers (ih _ hanswers.hint_le)
  exact hall 0 (Nat.zero_le _)

/-- Two opcodes with a label between them, looked up back and forth, and beside them. -/
theorem search_hint_sample :
    let t : Symtab := [⟨.opcode, 0x100, 0x101, 0, 1, 1⟩, ⟨.other 0, 0x200, 0x200, 0, 2, 1⟩,
      ⟨.opcode, 0x102, 0x102, 0, 3, 1⟩]
    List.Forall₂ (fun a r => t.Answers a r) [0x102, 0x100, 0x300, 0x101]
      (t.findAll 0 [0x102, 0x100, 0x300, 0x101]) := by
  intro t
  refine search_hint t ?_ _
  simp only [t, Sorted, List.pairwise_cons, List.mem_cons, List.not_mem_nil, or_false]
  refine ⟨?_, ?_, ?_, .nil⟩
  · rintro s (rfl | rfl) - hop
    · cases hop
    · refine ⟨by decide, fun a => ?_⟩
      simp only [Sym.Covers]
      bv_omega
  · rintro s rfl hop
    cases hop
  · rintro s ⟨⟩

end Symtab

end BuxnJit
