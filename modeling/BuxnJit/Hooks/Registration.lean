import BuxnJit.Foundations.LinkedList
import Mathlib.Data.List.Infix
import Mathlib.Data.Bool.Basic

/-!
# Registration with the debugger

The list that `__jit_debug_descriptor` heads, as `buxn_jit_gdb_end_block` and
`buxn_jit_cleanup_gdb_hook` change it. A cleanup unlinks the entries of its hook but never moves
`first_entry`: the list stays well formed exactly if no hook is cleaned up that registered the
entry at its head (`wellFormed_iff_headKept`).
-/

namespace BuxnJit

open Foundations

namespace Gdb

abbrev HookId := ℕ

/-- A `jit_code_entry`, with the block that it is part of. -/
abbrev CodeEntry := ℕ

/-- The state that the hooks share, and their own lists of blocks, the latest first. -/
structure Registry where
  entries : CodeEntry → Links CodeEntry
  firstEntry : Option CodeEntry
  blocks : HookId → List CodeEntry
  numEntries : ℕ
  cleaned : HookId → Bool

namespace Registry

def init : Registry where
  entries _ := ⟨none, none⟩
  firstEntry := none
  blocks _ := []
  numEntries := 0
  cleaned _ := false

/-- The registration at the end of `buxn_jit_gdb_end_block`. -/
def endBlock (h : HookId) (r : Registry) : Registry :=
  let e := r.numEntries
  { r with
    entries := setPrevOf r.firstEntry (some e) (Function.update r.entries e ⟨r.firstEntry, none⟩)
    firstEntry := some e
    blocks := Function.update r.blocks h (e :: r.blocks h)
    numEntries := e + 1 }

/-- The body of the loop of `buxn_jit_cleanup_gdb_hook`. -/
def unlink (e : CodeEntry) (mem : CodeEntry → Links CodeEntry) : CodeEntry → Links CodeEntry :=
  let mem := setPrevOf (mem e).next (mem e).prev mem
  setNextOf (mem e).prev (mem e).next mem

/-- `buxn_jit_cleanup_gdb_hook`. -/
def cleanup (h : HookId) (r : Registry) : Registry :=
  { r with
    entries := (r.blocks h).foldl (fun mem e => unlink e mem) r.entries
    cleaned := Function.update r.cleaned h true }

end Registry

inductive Event
  | endBlock (h : HookId)
  | cleanup (h : HookId)
  deriving DecidableEq

def Event.hook : Event → HookId
  | endBlock h | cleanup h => h

def Registry.step (r : Registry) : Event → Registry
  | .endBlock h => r.endBlock h
  | .cleanup h => r.cleanup h

/-- The state after some events. -/
def Registry.after (es : List Event) : Registry := es.foldl Registry.step .init

/-- A hook does nothing once it is cleaned up. -/
def Orderly (es : List Event) : Prop :=
  es.Pairwise fun a b => ∀ h, a = .cleanup h → b.hook ≠ h

instance (es : List Event) : Decidable (Orderly es) :=
  have (a b : Event) : Decidable (∀ h, a = .cleanup h → b.hook ≠ h) :=
    match a with
    | .endBlock _ => .isTrue nofun
    | .cleanup h => decidable_of_iff (b.hook ≠ h) (by simp)
  inferInstanceAs (Decidable (es.Pairwise _))

/-- The entries of the hooks that are not cleaned up yet are a doubly linked list. -/
def Registry.WellFormed (r : Registry) : Prop :=
  ∃ xs, Listed r.entries r.firstEntry xs ∧
    ∀ e, e ∈ xs ↔ ∃ h, r.cleaned h = false ∧ e ∈ r.blocks h

/-- The hook did not register the entry at the head. -/
def Registry.HeadKept (h : HookId) (r : Registry) : Prop :=
  ∀ e ∈ r.blocks h, r.firstEntry ≠ some e

namespace Registry

variable {r : Registry} {h : HookId}

/-- Every entry belongs to one hook. -/
structure Owned (r : Registry) : Prop where
  lt : ∀ h, ∀ e ∈ r.blocks h, e < r.numEntries
  nodup : ∀ h, (r.blocks h).Nodup
  unique : ∀ h h' e, e ∈ r.blocks h → e ∈ r.blocks h' → h = h'

theorem Owned.step (hr : r.Owned) (e : Event) : (r.step e).Owned := by
  cases e with
  | cleanup h => exact ⟨hr.lt, hr.nodup, hr.unique⟩
  | endBlock h =>
    have hblocks : ∀ h' x, x ∈ (r.endBlock h).blocks h' ↔
        h' = h ∧ x = r.numEntries ∨ x ∈ r.blocks h' := by
      intro h' x
      by_cases hh : h' = h
      · subst hh
        simp [endBlock]
      · simp [endBlock, hh]
    have hnew : ∀ h', r.numEntries ∉ r.blocks h' := fun h' hx => (hr.lt h' _ hx).false
    refine ⟨fun h' x hx => ?_, fun h' => ?_, fun h₁ h₂ x h₁x h₂x => ?_⟩
    · rcases (hblocks h' x).mp hx with ⟨-, rfl⟩ | hx
      · exact Nat.lt_succ_self _
      · exact (hr.lt h' x hx).trans (Nat.lt_succ_self _)
    · by_cases hh : h' = h
      · subst hh
        simpa [Registry.step, endBlock] using ⟨hnew h', hr.nodup h'⟩
      · simpa [Registry.step, endBlock, hh] using hr.nodup h'
    · rcases (hblocks h₁ x).mp h₁x with ⟨hh₁, hx⟩ | hold₁
      · rcases (hblocks h₂ x).mp h₂x with ⟨hh₂, -⟩ | hold₂
        · exact hh₁.trans hh₂.symm
        · exact absurd (hx ▸ hold₂) (hnew h₂)
      · rcases (hblocks h₂ x).mp h₂x with ⟨-, hx⟩ | hold₂
        · exact absurd (hx ▸ hold₁) (hnew h₁)
        · exact hr.unique h₁ h₂ x hold₁ hold₂

theorem owned_init : Owned .init := ⟨by simp [init], by simp [init], by simp [init]⟩

/-- **A registration** puts its entry at the head. -/
theorem WellFormed.endBlock (hr : r.WellFormed) (ho : r.Owned) (hh : r.cleaned h = false) :
    (r.endBlock h).WellFormed := by
  obtain ⟨xs, hlist, hmem⟩ := hr
  have hnew : r.numEntries ∉ xs := fun hx => by
    obtain ⟨h', -, hx⟩ := (hmem _).mp hx
    exact (ho.lt h' _ hx).false
  refine ⟨r.numEntries :: xs, hlist.insert hnew, fun e => ?_⟩
  rw [List.mem_cons, hmem]
  constructor
  · rintro (rfl | ⟨h', hh', he⟩)
    · exact ⟨h, hh, by simp [Registry.endBlock]⟩
    · refine ⟨h', hh', ?_⟩
      by_cases heq : h' = h
      · subst heq
        simp [Registry.endBlock, he]
      · simpa [Registry.endBlock, heq] using he
  · rintro ⟨h', hh', he⟩
    by_cases heq : h' = h
    · subst heq
      rcases List.mem_cons.mp (by simpa [Registry.endBlock] using he) with rfl | he
      · exact .inl rfl
      · exact .inr ⟨h', hh', he⟩
    · exact .inr ⟨h', hh', by simpa [Registry.endBlock, heq] using he⟩

/-- The loop of a cleanup takes the entries of the hook out of the list, if the head is none of
them. -/
theorem listed_unlink {mem : CodeEntry → Links CodeEntry} {first : Option CodeEntry}
    {xs es : List CodeEntry} (hlist : Listed mem first xs) (hes : ∀ e ∈ es, e ∈ xs)
    (hnodup : es.Nodup) (hfirst : ∀ e ∈ es, first ≠ some e) :
    ∃ ys, Listed (es.foldl (fun mem e => unlink e mem) mem) first ys ∧
      ∀ e, e ∈ ys ↔ e ∈ xs ∧ e ∉ es := by
  induction es generalizing mem xs with
  | nil => exact ⟨xs, hlist, fun e => by simp⟩
  | cons e es ih =>
    obtain ⟨A, a, B, rfl, hself⟩ :=
      hlist.exists_before (hes e List.mem_cons_self) (hfirst e List.mem_cons_self)
    have heq : unlink e mem =
        setNextOf (mem e).prev (mem e).next (setPrevOf (mem e).next (mem e).prev mem) := by
      have hkeep : setPrevOf (mem e).next (mem e).prev mem e = mem e := by
        cases hnext : (mem e).next with
        | none => rfl
        | some y => exact Function.update_of_ne (fun he : e = y => hself (he ▸ hnext)) _ _
      simp only [unlink, hkeep]
    obtain ⟨hnotMem, hnodup⟩ := List.nodup_cons.mp hnodup
    have hrest : ∀ x, x ∈ A ++ a :: B ↔ x ∈ A ++ a :: e :: B ∧ x ≠ e := by
      have hne := hlist.nodup
      intro x
      constructor
      · intro hx
        refine ⟨by simp at hx ⊢; tauto, ?_⟩
        rintro rfl
        simp [List.nodup_append] at hne hx
        grind
      · rintro ⟨hx, hxe⟩
        simp at hx ⊢
        tauto
    obtain ⟨ys, hys, hmem⟩ := ih (heq ▸ hlist.unlink)
      (fun x hx => (hrest x).mpr ⟨hes x (List.mem_cons_of_mem e hx), fun he => hnotMem (he ▸ hx)⟩)
      hnodup (fun x hx => hfirst x (List.mem_cons_of_mem e hx))
    refine ⟨ys, hys, fun x => ?_⟩
    rw [hmem, hrest, List.mem_cons, not_or, and_assoc]

/-- **A cleanup** that keeps the head. -/
theorem WellFormed.cleanup (hr : r.WellFormed) (ho : r.Owned) (hh : r.cleaned h = false)
    (hkept : r.HeadKept h) : (r.cleanup h).WellFormed := by
  obtain ⟨xs, hlist, hmem⟩ := hr
  obtain ⟨ys, hys, hys'⟩ := listed_unlink hlist (fun e he => (hmem e).mpr ⟨h, hh, he⟩)
    (ho.nodup h) hkept
  refine ⟨ys, hys, fun e => ?_⟩
  rw [hys', hmem]
  constructor
  · rintro ⟨⟨h', hh', he⟩, hout⟩
    have hne : h' ≠ h := by
      rintro rfl
      exact hout he
    exact ⟨h', by simpa [Registry.cleanup, hne] using hh', he⟩
  · rintro ⟨h', hh', he⟩
    have hne : h' ≠ h := by
      rintro rfl
      simp [Registry.cleanup] at hh'
    refine ⟨⟨h', by simpa [Registry.cleanup, hne] using hh', he⟩, fun hin => ?_⟩
    exact hne (ho.unique h' h e he hin)

/-- **A cleanup** that frees the entry at the head leaves `first_entry` on it. -/
theorem headKept_of_wellFormed (ho : r.Owned) (hr : (r.cleanup h).WellFormed) : r.HeadKept h := by
  intro e he hfirst
  obtain ⟨xs, hlist, hmem⟩ := hr
  obtain ⟨l, hl⟩ := hlist.linked
  obtain ⟨h', hh', he'⟩ := (hmem e).mp (hl.mem_of_first hfirst)
  obtain rfl := ho.unique h' h e he' he
  simp [Registry.cleanup] at hh'

theorem wellFormed_init : WellFormed .init := by
  refine ⟨[], ⟨⟨none, .nil none none⟩, List.nodup_nil⟩, fun e => ?_⟩
  simp [init]

theorem after_concat (es : List Event) (e : Event) : after (es ++ [e]) = (after es).step e := by
  simp [after]

theorem owned_after (es : List Event) : (after es).Owned := by
  induction es using List.reverseRecOn with
  | nil => exact owned_init
  | append_singleton es e ih => exact after_concat es e ▸ ih.step e

theorem cleaned_after (es : List Event) (h : HookId) :
    (after es).cleaned h = true ↔ .cleanup h ∈ es := by
  induction es using List.reverseRecOn with
  | nil => simp [after, init]
  | append_singleton es e ih =>
    rw [after_concat, List.mem_append, ← ih]
    cases e with
    | endBlock h' => simp [step, endBlock]
    | cleanup h' =>
      by_cases hh : h = h' <;> simp [step, cleanup, hh]

end Registry

open Registry

/-- **The list of registered entries** stays well formed exactly as long as no hook is cleaned up
that registered the entry at its head. -/
theorem wellFormed_iff_headKept (es : List Event) (hes : Orderly es) :
    (∀ pre, pre <+: es → (after pre).WellFormed) ↔
      ∀ pre h, pre ++ [.cleanup h] <+: es → (after pre).HeadKept h := by
  constructor
  · intro hwf pre h hpre
    refine headKept_of_wellFormed (owned_after pre) ?_
    have hlast := hwf _ hpre
    rwa [after_concat] at hlast
  · intro hkept pre
    induction pre using List.reverseRecOn with
    | nil => exact fun _ => wellFormed_init
    | append_singleton pre e ih =>
      intro hpre
      have hwf := ih ((List.prefix_append pre [e]).trans hpre)
      have horderly : Orderly (pre ++ [e]) := hes.sublist hpre.sublist
      have hopen : (after pre).cleaned e.hook = false := by
        rw [← Bool.not_eq_true, cleaned_after]
        intro hmem
        exact (List.pairwise_append.mp horderly).2.2 _ hmem e (by simp) _ rfl rfl
      rw [after_concat]
      cases e with
      | endBlock h => exact hwf.endBlock (owned_after pre) hopen
      | cleanup h => exact hwf.cleanup (owned_after pre) hopen (hkept pre h hpre)

/-- One hook registers one block and is cleaned up: `first_entry` is still the block's entry. -/
theorem cleanup_not_wellFormed : Orderly [.endBlock 0, .cleanup 0] ∧
    (after [.endBlock 0, .cleanup 0]).firstEntry = some 0 ∧
      ¬(after [.endBlock 0, .cleanup 0]).WellFormed := by
  refine ⟨by decide, rfl, fun h => ?_⟩
  exact headKept_of_wellFormed (owned_after [.endBlock 0]) h 0 (by decide) rfl

theorem wellFormed_iff_headKept_two :
    (∀ pre, pre <+: [.endBlock 0, .endBlock 1, .endBlock 0, .cleanup 1] → (after pre).WellFormed) ↔
      ∀ pre h, pre ++ [.cleanup h] <+: [.endBlock 0, .endBlock 1, .endBlock 0, .cleanup 1] →
        (after pre).HeadKept h :=
  wellFormed_iff_headKept [.endBlock 0, .endBlock 1, .endBlock 0, .cleanup 1] (by decide)

end Gdb

end BuxnJit
