import BuxnJit.Foundations.Mixing
import BuxnJit.Jit.BlockMap

/-!
# The depth of the block map

All keys below a node of the trie share the hash digits on the way to it, and none of them is the
key of a node on this way (`Placed`). As the hash is injective, the 16 digits of two bits tell all
keys apart, so that no way is longer than 17 nodes (`lookup_bounded`).
-/

namespace BuxnJit

open Foundations

/-! ## The hash -/

theorem prospector32_injective : Function.Injective prospector32 := by
  have hshift (n : ℕ) (hn : 0 < n) := xorShift_injective (w := 32) hn
  have hfirst := mul_injective (show 0x2c1b3c6d#32 * 0x64ea2d65#32 = 1#32 by decide)
  have hsecond := mul_injective (show 0x297a2d39#32 * 0x0cf0b109#32 = 1#32 by decide)
  exact (hshift 15 (by decide)).comp (hsecond.comp ((hshift 12 (by decide)).comp
    (hfirst.comp (hshift 15 (by decide)))))

/-- The hash of an address. -/
def addrHash (pc : Short) : BitVec 32 := prospector32 (pc.setWidth 32)

theorem addrHash_injective : Function.Injective addrHash := by
  intro pc pc' h
  have hwide : pc.setWidth 32 = pc'.setWidth 32 := prospector32_injective h
  have hnarrow := congrArg (BitVec.setWidth 16) hwide
  rwa [BitVec.setWidth_setWidth_of_le _ (by decide), BitVec.setWidth_setWidth_of_le _ (by decide),
    BitVec.setWidth_eq, BitVec.setWidth_eq] at hnarrow

namespace Trie

/-- The keys that `BHAMT_SEARCH` compares with the one it searches. -/
def visited (key : Short) : BitVec 32 → Trie → List Short
  | _, null => []
  | hash, node _ k cs =>
    if k = key then [k] else k :: (cs (hash.setWidth 2)).visited key (hash >>> 2)

/-- The trie below a way of digits. -/
def descend : List (BitVec 2) → Trie → Trie
  | [], t => t
  | _ :: _, null => null
  | c :: path, node _ _ cs => (cs c).descend path

/-- A search visits nodes on one way only. -/
theorem length_visited_le {n : ℕ} {t : Trie}
    (h : ∀ path : List (BitVec 2), path.length = n → t.descend path = null) (key : Short)
    (hash : BitVec 32) : (t.visited key hash).length ≤ n := by
  induction t generalizing n hash with
  | null => exact Nat.zero_le n
  | node b k cs ih =>
    cases n with
    | zero => exact absurd (h [] rfl) (by simp [descend])
    | succ n =>
      rw [visited]
      split
      · exact Nat.succ_le_succ (Nat.zero_le n)
      · apply Nat.succ_le_succ
        apply ih
        intro path hpath
        exact h (hash.setWidth 2 :: path) (congrArg Nat.succ hpath)

/-- A search succeeds if it visits its key. -/
theorem search_isSome_iff (key : Short) (hash : BitVec 32) (t : Trie) :
    (t.search key hash).isSome ↔ key ∈ t.visited key hash := by
  induction t generalizing hash with
  | null => simp [search, visited]
  | node b k cs ih =>
    rw [search, visited]
    split
    next hk => simp [hk]
    next hk => simp [ih, Ne.symm hk]

/-! ## Where keys are placed -/

/-- The keys of the nodes are in `S`, which is divided among the children of every node by the
digit `d` of the hash, without the key of the node. -/
def Placed (hash : Short → BitVec 32) : Set Short → ℕ → Trie → Prop
  | _, _, null => True
  | S, d, node _ k cs => k ∈ S ∧
    ∀ c, (cs c).Placed hash {k' | k' ∈ S ∧ k' ≠ k ∧ digit 2 d (hash k') = c} (d + 1)

variable {hash : Short → BitVec 32} {S : Set Short} {d : ℕ} {t : Trie}

/-- **An insertion** follows the digits of its key. -/
theorem Placed.insert (h : t.Placed hash S d) (b : BlockId) {key : Short} (hkey : key ∈ S) :
    (t.insert b key (hash key >>> (2 * d))).Placed hash S d := by
  induction t generalizing S d with
  | null => exact ⟨hkey, fun c => trivial⟩
  | node b' k cs ih =>
    obtain ⟨hk, hcs⟩ := h
    rw [Trie.insert]
    split
    · exact ⟨hk, hcs⟩
    next hne =>
      refine ⟨hk, fun c => ?_⟩
      by_cases hc : c = digit 2 d (hash key)
      · subst hc
        have hmem : key ∈ {k' | k' ∈ S ∧ k' ≠ k ∧ digit 2 d (hash k') = digit 2 d (hash key)} :=
          ⟨hkey, Ne.symm hne, rfl⟩
        have hchild := ih _ (hcs (digit 2 d (hash key))) hmem
        rw [← BitVec.shiftRight_add]
        simpa [digit, Nat.mul_succ] using hchild
      · have hcs' := hcs c
        rwa [Function.update_of_ne (show c ≠ (hash key >>> (2 * d)).setWidth 2 from hc)]

/-- **Ways are short**: below `d` digits that all keys share there are at most `n - d` more nodes,
if `n` digits tell keys apart. -/
theorem Placed.descend {n : ℕ} (hn : ∀ k k', (∀ i < n, digit 2 i (hash k) = digit 2 i (hash k')) →
      k = k') (h : t.Placed hash S d) (hd : d ≤ n)
    (hshare : ∀ k ∈ S, ∀ k' ∈ S, ∀ i < d, digit 2 i (hash k) = digit 2 i (hash k'))
    {path : List (BitVec 2)} (hpath : path.length + d = n + 1) : t.descend path = null := by
  induction path generalizing t S d with
  | nil =>
    simp only [List.length_nil] at hpath
    omega
  | cons c path ih =>
    cases t with
    | null => rfl
    | node b k cs =>
      obtain ⟨hk, hcs⟩ := h
      rw [List.length_cons] at hpath
      rw [Trie.descend]
      by_cases hlast : d = n
      · -- all digits are used up: no other key is left
        obtain rfl : path = [] := List.eq_nil_of_length_eq_zero (by omega)
        rw [Trie.descend]
        have hchild := hcs c
        cases hc : cs c with
        | null => rfl
        | node b' k' cs' =>
          rw [hc] at hchild
          obtain ⟨⟨hk', hne, -⟩, -⟩ := hchild
          exact absurd (hn k' k fun i hi => hshare k' hk' k hk i (by omega)) hne
      · refine ih (hcs c) (by omega) ?_ (by omega)
        rintro k₁ ⟨hk₁, -, hc₁⟩ k₂ ⟨hk₂, -, hc₂⟩ i hi
        obtain hi | rfl := Nat.lt_succ_iff_lt_or_eq.mp hi
        · exact hshare k₁ hk₁ k₂ hk₂ i hi
        · exact hc₁.trans hc₂.symm

end Trie

/-! ## Requests -/

namespace Jit

theorem placed_queueAll {j : Jit} (h : j.root.Placed addrHash Set.univ 0) (pcs : List Short) :
    (j.queueAll pcs).root.Placed addrHash Set.univ 0 := by
  induction pcs generalizing j with
  | nil => exact h
  | cons pc pcs ih =>
    refine ih (j := (j.queueBlock pc).2) ?_
    cases hpc : j.lookup pc with
    | some b => rwa [queueBlock_old hpc]
    | none =>
      rw [(queueBlock_new hpc).2.1]
      exact h.insert j.numBlocks (Set.mem_univ pc)

/-- **The depth of the block map.** The hash is injective on words, so that the 16 digits of two
bits that `BHAMT_SEARCH` consumes tell any two addresses apart. After any requests every way of 17
digits has left the trie: where the hash is used up, a node has no children, and no search visits
more than 17 nodes. -/
theorem lookup_bounded (m : Short → Byte) (pcs : List Short) :
    Function.Injective prospector32 ∧
    (∀ pc pc' : Short, pc ≠ pc' → ∃ i < 16, digit 2 i (addrHash pc) ≠ digit 2 i (addrHash pc')) ∧
    (∀ path : List (BitVec 2), path.length = 17 →
      ((Jit.init m).queueAll pcs).root.descend path = .null) ∧
    ∀ key, (((Jit.init m).queueAll pcs).root.visited key (addrHash key)).length ≤ 17 := by
  have hdigits : ∀ pc pc' : Short,
      (∀ i < 16, digit 2 i (addrHash pc) = digit 2 i (addrHash pc')) → pc = pc' :=
    fun pc pc' h => addrHash_injective (eq_of_digits (by decide) (by decide) h)
  have hplaced : ((Jit.init m).queueAll pcs).root.Placed addrHash Set.univ 0 :=
    placed_queueAll (j := Jit.init m) trivial pcs
  have hdescend : ∀ path : List (BitVec 2), path.length = 17 →
      ((Jit.init m).queueAll pcs).root.descend path = .null :=
    fun path hpath => hplaced.descend hdigits (Nat.zero_le 16) (by simp) hpath
  refine ⟨prospector32_injective, fun pc pc' hne => ?_, hdescend, fun key => ?_⟩
  · exact exists_digit_ne (by decide) (by decide) fun he => hne (addrHash_injective he)
  · exact Trie.length_visited_le hdescend key _

end Jit

end BuxnJit
