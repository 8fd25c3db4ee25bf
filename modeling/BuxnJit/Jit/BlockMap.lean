import BuxnJit.Jit.Compile
import Mathlib.Data.Finset.Card
import Mathlib.Data.Finset.Insert

/-!
# The block map

The trie that `buxn_jit_queue_block` searches and grows is a finite map (`search_insert`), and the
list of all blocks, which `buxn_jit_cleanup` walks, has each of them once. Both are shown for every
sequence of requests (`queueAll_mapped`).
-/

namespace BuxnJit

namespace Trie

/-- **Insertion.** Where the search for a key fails, inserting it changes the search for no other
key. The hashes are those left at the depth of the node. -/
theorem search_insert {b : BlockId} {key key' : Short} (hash : Short → BitVec 32) (t : Trie) (n : ℕ)
    (h : t.search key (hash key >>> n) = none) :
    (t.insert b key (hash key >>> n)).search key' (hash key' >>> n) =
      if key' = key then some b else t.search key' (hash key' >>> n) := by
  induction t generalizing n with
  | null => simp [insert, search, eq_comm]
  | node b' k cs ih =>
    rw [search] at h
    split at h
    · cases h
    next hk =>
      rw [insert, if_neg hk, search, search]
      by_cases hk' : k = key'
      · rw [if_pos hk', if_pos hk', if_neg fun he => hk (hk'.trans he)]
      · rw [if_neg hk', if_neg hk']
        by_cases hd : (hash key' >>> n).setWidth 2 = (hash key >>> n).setWidth 2
        · rw [hd, Function.update_self]
          simp only [← BitVec.shiftRight_add] at h ⊢
          exact ih _ (n + 2) h
        · rw [Function.update_of_ne hd, if_neg fun he => hd (by rw [he])]

end Trie

/-! ## Requests -/

namespace Jit

/-- The block of an address, if it was requested. -/
def lookup (j : Jit) (pc : Short) : Option BlockId := j.root.search pc (prospector32 (pc.setWidth 32))

/-- A list of blocks that starts with `first` and is linked through `next`. -/
inductive Linked (blocks : BlockId → Block) : Option BlockId → List BlockId → Prop
  | nil : Linked blocks none []
  | cons (b : BlockId) {bs : List BlockId} (h : Linked blocks (blocks b).next bs) :
    Linked blocks (some b) (b :: bs)

/-- The map and the list of the blocks that were requested for `keys`, one for each. -/
structure Mapped (keys : Finset Short) (j : Jit) : Prop where
  numBlocks : j.numBlocks = keys.card
  found : ∀ pc, pc ∈ keys ↔ ∃ b, j.lookup pc = some b
  key : ∀ pc b, j.lookup pc = some b → b < j.numBlocks ∧ (j.blocks b).key = pc
  block : ∀ b < j.numBlocks, j.lookup (j.blocks b).key = some b
  list : Linked j.blocks j.first (List.range j.numBlocks).reverse

/-- `buxn_jit_queue_block` for one address after the other. -/
def queueAll (pcs : List Short) (j : Jit) : Jit := pcs.foldl (fun j pc => (j.queueBlock pc).2) j

section

variable {j : Jit} {pc : Short}

/-- What an entry allocation leaves alone. -/
theorem allocEntry_frame (j : Jit) : j.allocEntry.2.root = j.root ∧ j.allocEntry.2.first = j.first ∧
    j.allocEntry.2.blocks = j.blocks ∧ j.allocEntry.2.numBlocks = j.numBlocks := by
  unfold allocEntry dequeue
  cases j.heads .pool <;> exact ⟨rfl, rfl, rfl, rfl⟩

theorem queueBlock_old {b : BlockId} (h : j.lookup pc = some b) : j.queueBlock pc = (b, j) := by
  rw [queueBlock]
  rw [lookup] at h
  simp only [h]

/-- The fields of the map after a request for a new address. -/
theorem queueBlock_new (h : j.lookup pc = none) : (j.queueBlock pc).1 = j.numBlocks ∧
    (j.queueBlock pc).2.root = j.root.insert j.numBlocks pc (prospector32 (pc.setWidth 32)) ∧
    (j.queueBlock pc).2.first = some j.numBlocks ∧
    (j.queueBlock pc).2.blocks = Function.update j.blocks j.numBlocks ⟨pc, 0, 0, 0, 0, j.first⟩ ∧
    (j.queueBlock pc).2.numBlocks = j.numBlocks + 1 := by
  rw [queueBlock]
  rw [lookup] at h
  simp only [h]
  refine ⟨trivial, ?_, ?_, ?_, ?_⟩ <;>
    simp [enqueue, setEntry, setBlock, allocEntry_frame]

theorem lookup_queueBlock (h : j.lookup pc = none) (pc' : Short) :
    (j.queueBlock pc).2.lookup pc' = if pc' = pc then some j.numBlocks else j.lookup pc' := by
  rw [lookup, (queueBlock_new h).2.1]
  exact Trie.search_insert (fun k => prospector32 (k.setWidth 32)) j.root 0 h

/-- A request returns the block that is found afterwards, and later requests leave it. -/
theorem lookup_queueBlock_self (j : Jit) (pc : Short) :
    (j.queueBlock pc).2.lookup pc = some (j.queueBlock pc).1 := by
  cases h : j.lookup pc with
  | some b => rw [queueBlock_old h, h]
  | none => rw [lookup_queueBlock h, if_pos rfl, (queueBlock_new h).1]

theorem lookup_queueAll {b : BlockId} (pcs : List Short) (h : j.lookup pc = some b) :
    (j.queueAll pcs).lookup pc = some b := by
  induction pcs generalizing j with
  | nil => exact h
  | cons pc' pcs ih =>
    refine ih (j := (j.queueBlock pc').2) ?_
    cases hnew : j.lookup pc' with
    | some b' => rwa [queueBlock_old hnew]
    | none =>
      rw [lookup_queueBlock hnew, if_neg, h]
      rintro rfl
      simp [h] at hnew

theorem Linked.congr {blocks blocks' : BlockId → Block} {first : Option BlockId}
    {bs : List BlockId} (h : Linked blocks first bs)
    (hnext : ∀ b ∈ bs, (blocks' b).next = (blocks b).next) : Linked blocks' first bs := by
  induction h with
  | nil => exact .nil
  | cons b _ ih =>
    refine .cons b ?_
    rw [hnext b List.mem_cons_self]
    exact ih fun b' hb' => hnext b' (List.mem_cons_of_mem b hb')

/-- **One request.** -/
theorem Mapped.queueBlock {keys : Finset Short} (hj : Mapped keys j) (pc : Short) :
    Mapped (insert pc keys) (j.queueBlock pc).2 := by
  cases h : j.lookup pc with
  | some b =>
    have hmem : pc ∈ keys := (hj.found pc).mpr ⟨b, h⟩
    rw [queueBlock_old h, Finset.insert_eq_of_mem hmem]
    exact hj
  | none =>
    have hmem : pc ∉ keys := fun hpc => by
      obtain ⟨b, hb⟩ := (hj.found pc).mp hpc
      simp [h] at hb
    obtain ⟨-, -, hfirst, hblocks, hnum⟩ := queueBlock_new h
    refine ⟨?_, fun pc' => ?_, fun pc' b hb => ?_, fun b hb => ?_, ?_⟩
    · rw [hnum, Finset.card_insert_of_notMem hmem, hj.numBlocks]
    · rw [lookup_queueBlock h, Finset.mem_insert, hj.found pc']
      by_cases hpc : pc' = pc
      · simp [hpc]
      · simp [hpc]
    · rw [lookup_queueBlock h] at hb
      rw [hnum, hblocks]
      split at hb
      next hpc =>
        obtain rfl := Option.some_inj.mp hb
        simp [hpc]
      next hpc =>
        obtain ⟨hlt, hkey⟩ := hj.key pc' b hb
        exact ⟨hlt.trans (Nat.lt_succ_self _), by rwa [Function.update_of_ne hlt.ne]⟩
    · rw [hnum] at hb
      rw [hblocks, lookup_queueBlock h]
      rcases Nat.lt_succ_iff_lt_or_eq.mp hb with hlt | rfl
      · rw [Function.update_of_ne hlt.ne, if_neg, hj.block b hlt]
        intro hkey
        have hold := hj.block b hlt
        simp [hkey, h] at hold
      · simp
    · rw [hfirst, hblocks, hnum, List.range_succ, List.reverse_append]
      refine .cons _ ?_
      rw [Function.update_self]
      refine hj.list.congr fun b hb => ?_
      have hlt : b < j.numBlocks := by simpa using hb
      rw [Function.update_of_ne hlt.ne]

theorem mapped_init (m : Short → Byte) : Mapped ∅ (Jit.init m) where
  numBlocks := rfl
  found pc := by simp [lookup, Jit.init, Trie.search]
  key pc b h := by cases h
  block b hb := absurd hb (Nat.not_lt_zero b)
  list := .nil

/-- **Any number of requests.** -/
theorem mapped_queueAll (m : Short → Byte) (pcs : List Short) :
    Mapped pcs.toFinset ((Jit.init m).queueAll pcs) := by
  have h : ∀ (keys : Finset Short) (j : Jit), Mapped keys j →
      Mapped (keys ∪ pcs.toFinset) (j.queueAll pcs) := by
    induction pcs with
    | nil => exact fun keys j hj => by simpa [queueAll] using hj
    | cons pc pcs ih =>
      intro keys j hj
      have hrest := ih _ _ (hj.queueBlock pc)
      rwa [Finset.insert_union, ← Finset.union_insert, ← List.toFinset_cons] at hrest
  simpa using h ∅ _ (mapped_init m)

/-! ## Freeing the functions -/

theorem freed_of_linked {first : Option BlockId} {bs : List BlockId}
    (h : Linked j.blocks first bs) {n : ℕ} (hn : bs.length < n) :
    j.freed n first = bs.filter fun b => (j.blocks b).fn ≠ 0 := by
  induction h generalizing n with
  | nil => cases n <;> rfl
  | @cons b bs _ ih =>
    obtain ⟨n, rfl⟩ := Nat.exists_eq_add_one_of_ne_zero (Nat.ne_zero_of_lt hn)
    have hlen : bs.length < n := by simpa using hn
    rw [freed, ih hlen]
    rw [List.filter_cons]
    by_cases hfn : (j.blocks b).fn = 0#64 <;> simp [hfn]

theorem Mapped.cleanup {keys : Finset Short} (hj : Mapped keys j) (fns : BlockId → Word) :
    ({ j with blocks := fun b => { j.blocks b with fn := fns b } } : Jit).cleanup =
      (List.range j.numBlocks).reverse.filter fun b => fns b ≠ 0 := by
  have hlist : Linked (fun b => { j.blocks b with fn := fns b }) j.first
      (List.range j.numBlocks).reverse := hj.list.congr fun _ _ => rfl
  exact freed_of_linked (j := { j with blocks := _ }) hlist (by simp)

end

/-- **The block map is a finite map.** After any requests the addresses requested, and no others,
are found, and there is one block for each. A request for one of them returns its block and changes
nothing. A request for a new address adds a new block with that key, and every other address is
found as before. Blocks stay where they are, and whichever of them get functions, each of these is
freed once. -/
theorem block_map (m : Short → Byte) (pcs : List Short) :
    let j := (Jit.init m).queueAll pcs
    j.numBlocks = pcs.toFinset.card ∧
    (∀ pc ∈ pcs, ∃ b, j.lookup pc = some b ∧ (j.blocks b).key = pc ∧ j.queueBlock pc = (b, j) ∧
      ∀ more, (j.queueAll more).lookup pc = some b) ∧
    (∀ pc ∉ pcs, (∀ pc' ∈ pcs, j.lookup pc' ≠ some (j.queueBlock pc).1) ∧
      (j.queueBlock pc).2.numBlocks = j.numBlocks + 1 ∧
      ((j.queueBlock pc).2.blocks (j.queueBlock pc).1).key = pc ∧
      ∀ pc', (j.queueBlock pc).2.lookup pc' =
        if pc' = pc then some (j.queueBlock pc).1 else j.lookup pc') ∧
    (∃ bs : List BlockId, Linked j.blocks j.first bs ∧ bs.Nodup ∧
      ∀ b, b ∈ bs ↔ ∃ pc ∈ pcs, j.lookup pc = some b) ∧
    ∀ fns : BlockId → Word,
      let freed := ({ j with blocks := fun b => { j.blocks b with fn := fns b } } : Jit).cleanup
      freed.Nodup ∧ ∀ b, b ∈ freed ↔ (∃ pc ∈ pcs, j.lookup pc = some b) ∧ fns b ≠ 0 := by
  intro j
  have hj : Mapped pcs.toFinset j := mapped_queueAll m pcs
  have hfound : ∀ pc, pc ∈ pcs ↔ ∃ b, j.lookup pc = some b := fun pc => by
    rw [← hj.found, List.mem_toFinset]
  have hblock : ∀ b, b < j.numBlocks ↔ ∃ pc ∈ pcs, j.lookup pc = some b := by
    intro b
    refine ⟨fun hb => ⟨_, (hfound _).mpr ⟨b, hj.block b hb⟩, hj.block b hb⟩, ?_⟩
    rintro ⟨pc, -, hpc⟩
    exact (hj.key pc b hpc).1
  have hnodup : (List.range j.numBlocks).reverse.Nodup :=
    List.nodup_reverse.mpr List.nodup_range
  refine ⟨hj.numBlocks, fun pc hpc => ?_, fun pc hpc => ?_,
    ⟨_, hj.list, hnodup, fun b => ?_⟩, fun fns => ?_⟩
  · obtain ⟨b, hb⟩ := (hfound pc).mp hpc
    exact ⟨b, hb, (hj.key pc b hb).2, queueBlock_old hb, fun more => lookup_queueAll more hb⟩
  · have hnew : j.lookup pc = none := by
      rw [Option.eq_none_iff_forall_ne_some]
      exact fun b hb => hpc ((hfound pc).mpr ⟨b, hb⟩)
    obtain ⟨hid, -, -, hblocks, hnum⟩ := queueBlock_new hnew
    refine ⟨fun pc' _ hpc' => ?_, hnum, ?_, fun pc' => ?_⟩
    · rw [hid] at hpc'
      exact absurd (hj.key pc' _ hpc').1 (Nat.lt_irrefl _)
    · rw [hblocks, hid, Function.update_self]
    · rw [lookup_queueBlock hnew, hid]
  · rw [List.mem_reverse, List.mem_range]
    exact hblock b
  · rw [hj.cleanup fns]
    refine ⟨hnodup.filter _, fun b => ?_⟩
    rw [List.mem_filter, List.mem_reverse, List.mem_range, hblock]
    simp

end Jit

end BuxnJit
