import BuxnJit.Foundations.Arena
import BuxnJit.Jit.BlockMap

/-!
# The queues as lists

The entries of the queues and the pool are the nodes of an arena. `Stores j busy items` abstracts
from it: every entry is in one queue, in the pool or among the `busy` ones, and `items q` is what
the entries of the queue `q` stand for, in order.
-/

namespace BuxnJit

open Foundations

/-- What an entry stands for while it is in a queue. -/
inductive Item
  | compile (block : BlockId) (compiler : CompilerId) (payload : Payload)
  | link (type : LinkType) (payload : Payload) (block : BlockId)
  | cleanup (compiler : CompilerId)
  | free

def Entry.item (x : Entry) : Queue → Item
  | .compile => .compile x.block x.compiler x.payload
  | .link => .link x.linkType x.payload x.block
  | .cleanup => .cleanup x.compiler
  | .pool => .free

namespace Jit

/-- The entries as an arena. -/
def arena (j : Jit) : Arena Queue := ⟨fun e => (j.entries e).next, j.heads, j.numEntries⟩

/-- Every entry is in one place, and the queues hold `items`. -/
def Stores (j : Jit) (busy : List EntryId) (items : Queue → List Item) : Prop :=
  ∃ L, j.arena.Holds L ∧ L none = busy ∧
    ∀ q ≠ .pool, (L (some q)).map (fun e => (j.entries e).item q) = items q

theorem dequeue_arena (j : Jit) (q : Queue) :
    (j.dequeue q).1 = (j.arena.pop q).1 ∧ (j.dequeue q).2.arena = (j.arena.pop q).2 ∧
      (j.dequeue q).2 = { j with heads := (j.arena.pop q).2.heads } := by
  unfold dequeue Arena.pop
  simp only [arena]
  cases j.heads q <;> exact ⟨rfl, rfl, rfl⟩

theorem allocEntry_arena (j : Jit) :
    j.allocEntry.1 = (j.arena.alloc .pool).1 ∧ j.allocEntry.2.arena = (j.arena.alloc .pool).2 ∧
      j.allocEntry.2 = { j with
        heads := (j.arena.alloc .pool).2.heads
        numEntries := (j.arena.alloc .pool).2.size } := by
  unfold allocEntry dequeue Arena.alloc Arena.pop
  simp only [arena]
  cases j.heads .pool <;> exact ⟨rfl, rfl, rfl⟩

theorem enqueue_arena (j : Jit) (q : Queue) (e : EntryId) :
    (j.enqueue q e).arena = j.arena.push q e := by
  simp only [arena, enqueue, setEntry, Arena.push, Arena.mk.injEq, and_true]
  funext e'
  by_cases he : e' = e
  · subst he
    simp
  · simp [he]

theorem setEntry_arena (j : Jit) {e : EntryId} {x : Entry} (hx : x.next = (j.entries e).next) :
    (j.setEntry e x).arena = j.arena := by
  simp only [arena, setEntry, Arena.mk.injEq, and_true]
  funext e'
  by_cases he : e' = e
  · subst he
    simpa using hx
  · simp [he]

theorem enqueue_item (j : Jit) (q q' : Queue) (e e' : EntryId) :
    ((j.enqueue q e).entries e').item q' = (j.entries e').item q' := by
  by_cases he : e' = e
  · subst he
    cases q' <;> simp [enqueue, setEntry, Entry.item]
  · simp [enqueue, setEntry, he]

namespace Stores

variable {j j' : Jit} {busy : List EntryId} {items items' : Queue → List Item} {e : EntryId}

theorem congr (h : j.Stores busy items) (hentries : j'.entries = j.entries)
    (hheads : j'.heads = j.heads) (hnum : j'.numEntries = j.numEntries)
    (hitems : ∀ q ≠ .pool, items' q = items q) : j'.Stores busy items' := by
  obtain ⟨L, hL, hbusy, hmap⟩ := h
  refine ⟨L, ?_, hbusy, fun q hq => ?_⟩
  · rwa [arena, hentries, hheads, hnum]
  · rw [hentries, hitems q hq, hmap q hq]

theorem dequeue_nil (h : j.Stores busy items) {q : Queue} (hq : q ≠ .pool) (hi : items q = []) :
    j.dequeue q = (none, j) := by
  obtain ⟨L, hL, -, hmap⟩ := h
  have hnil : L (some q) = [] := List.map_eq_nil_iff.mp ((hmap q hq).trans hi)
  obtain ⟨h₁, -, h₃⟩ := j.dequeue_arena q
  rw [hL.pop_nil hnil] at h₁ h₃
  exact Prod.ext h₁ h₃

/-- **Dequeuing.** -/
theorem dequeue (h : j.Stores busy items) {q : Queue} (hq : q ≠ .pool) {i : Item} {is : List Item}
    (hi : items q = i :: is) : ∃ e, (j.dequeue q).1 = some e ∧ (j.entries e).item q = i ∧
      (j.dequeue q).2.Stores (e :: busy) (Function.update items q is) := by
  obtain ⟨L, hL, hbusy, hmap⟩ := h
  cases hcons : L (some q) with
  | nil =>
    have hnil := hmap q hq
    rw [hcons, hi] at hnil
    cases hnil
  | cons e es =>
    obtain ⟨h₁, h₂, h₃⟩ := j.dequeue_arena q
    obtain ⟨hpop, hholds⟩ := hL.pop hcons
    have hmapq := hmap q hq
    rw [hcons, hi, List.map_cons, List.cons.injEq] at hmapq
    refine ⟨e, h₁.trans hpop, hmapq.1, Arena.moved L (some q) none e es, ?_, ?_, ?_⟩
    · rw [h₂]
      exact hholds
    · rw [Arena.moved_self, hbusy]
    · intro q' hq'
      rw [h₃]
      by_cases he : q' = q
      · subst he
        rw [Arena.moved_from (by simp), Function.update_self]
        exact hmapq.2
      · rw [Arena.moved_of_ne (by simpa using he) (by simp), Function.update_of_ne he]
        exact hmap q' hq'

/-- **Putting the entry back that was taken last.** -/
theorem enqueue (h : j.Stores (e :: busy) items) (q : Queue) :
    (j.enqueue q e).Stores busy (Function.update items q ((j.entries e).item q :: items q)) := by
  obtain ⟨L, hL, hbusy, hmap⟩ := h
  refine ⟨Arena.moved L none (some q) e busy, ?_, ?_, fun q' hq' => ?_⟩
  · rw [enqueue_arena]
    exact hL.push hbusy q
  · exact Arena.moved_from (by simp)
  · simp only [enqueue_item]
    by_cases he : q' = q
    · subst he
      rw [Arena.moved_self, Function.update_self, List.map_cons, hmap q' hq']
    · rw [Arena.moved_of_ne (by simp) (by simpa using he), Function.update_of_ne he]
      exact hmap q' hq'

/-- **Allocating an entry.** -/
theorem allocEntry (h : j.Stores busy items) :
    j.allocEntry.2.Stores (j.allocEntry.1 :: busy) items := by
  obtain ⟨L, hL, hbusy, hmap⟩ := h
  obtain ⟨h₁, h₂, h₃⟩ := j.allocEntry_arena
  obtain ⟨free, hholds⟩ := hL.alloc .pool
  refine ⟨_, h₂ ▸ hholds, ?_, fun q hq => ?_⟩
  · rw [Function.update_self, hbusy, h₁]
  · rw [h₃, Function.update_of_ne (by simp), Function.update_of_ne (by simpa using hq)]
    exact hmap q hq

/-- **Filling in the entry that was taken last.** -/
theorem setEntry (h : j.Stores (e :: busy) items) {x : Entry}
    (hx : x.next = (j.entries e).next) : (j.setEntry e x).Stores (e :: busy) items := by
  obtain ⟨L, hL, hbusy, hmap⟩ := h
  refine ⟨L, (j.setEntry_arena hx).symm ▸ hL, hbusy, fun q hq => ?_⟩
  rw [← hmap q hq]
  refine List.map_congr_left fun e' he' => ?_
  have hne : e' ≠ e := by
    rintro rfl
    have hin : e' ∈ L none := hbusy ▸ List.mem_cons_self
    exact absurd (hL.disjoint _ _ _ he' hin) (by simp)
  simp [Jit.setEntry, hne]

theorem not_mem (h : j.Stores (e :: busy) items) : e ∉ busy := by
  obtain ⟨L, hL, hbusy, -⟩ := h
  have hnodup := hL.nodup none
  rw [hbusy, List.nodup_cons] at hnodup
  exact hnodup.1

end Stores

/-! ## Requests -/

/-- What the queues hold after a request for a block. -/
def asked (j : Jit) (pc : Short) (items : Queue → List Item) : Queue → List Item :=
  match j.lookup pc with
  | some _ => items
  | none => Function.update
    (Function.update items .compile (.compile j.numBlocks j.numCompilers (.pc pc) :: items .compile))
    .cleanup (.cleanup j.numCompilers :: items .cleanup)

@[simp] theorem allocEntry_entries (j : Jit) : j.allocEntry.2.entries = j.entries := by
  rw [j.allocEntry_arena.2.2]

theorem enqueue_entries_of_ne (j : Jit) (q : Queue) {e e' : EntryId} (h : e' ≠ e) :
    (j.enqueue q e).entries e' = j.entries e' := by
  simp [enqueue, setEntry, h]

theorem setEntry_entries_of_ne (j : Jit) {e e' : EntryId} (x : Entry) (h : e' ≠ e) :
    (j.setEntry e x).entries e' = j.entries e' := Function.update_of_ne h ..

@[simp] theorem setEntry_entries_self (j : Jit) (e : EntryId) (x : Entry) :
    (j.setEntry e x).entries e = x := Function.update_self ..

/-- Fill in a new entry, and queue it. -/
def queueEntry (q : Queue) (f : Entry → Entry) (j : Jit) : Jit :=
  (j.allocEntry.2.setEntry j.allocEntry.1 (f (j.allocEntry.2.entries j.allocEntry.1))).enqueue q
    j.allocEntry.1

/-- The block map with a new block, and its compiler. -/
def addBlock (pc : Short) (j : Jit) : Jit :=
  { j.setBlock j.numBlocks ⟨pc, 0, 0, 0, 0, j.first⟩ with
    root := j.root.insert j.numBlocks pc (prospector32 (pc.setWidth 32))
    first := some j.numBlocks
    numBlocks := j.numBlocks + 1
    numCompilers := j.numCompilers + 1 }

theorem queueBlock_eq {j : Jit} {pc : Short} (h : j.lookup pc = none) :
    (j.queueBlock pc).2 = (((j.addBlock pc).queueEntry .compile fun x =>
      { x with block := j.numBlocks, compiler := j.numCompilers, payload := .pc pc }).queueEntry
        .cleanup fun x => { x with compiler := j.numCompilers }) := by
  rw [queueBlock]
  rw [lookup] at h
  simp only [h]
  rfl

/-- `linkEntry` before it asks for the block of the target. -/
def startLink (t : LinkType) (j : Jit) : Jit :=
  j.allocEntry.2.setEntry j.allocEntry.1 { j.allocEntry.2.entries j.allocEntry.1 with linkType := t }

theorem linkEntry_eq (j : Jit) (t : LinkType) (jump : JumpRef) (target : Short) :
    j.linkEntry t jump target = (((j.startLink t).queueBlock target).2.setEntry j.allocEntry.1
      { ((j.startLink t).queueBlock target).2.entries j.allocEntry.1 with
        block := ((j.startLink t).queueBlock target).1
        compiler := jump.compiler
        payload := .jump jump }).enqueue .link j.allocEntry.1 := rfl

theorem startLink_frame (j : Jit) (t : LinkType) : (j.startLink t).root = j.root ∧
    (j.startLink t).first = j.first ∧ (j.startLink t).blocks = j.blocks ∧
    (j.startLink t).numBlocks = j.numBlocks ∧ (j.startLink t).numCompilers = j.numCompilers ∧
    (j.startLink t).events = j.events ∧ (j.startLink t).memory = j.memory := by
  rw [startLink, j.allocEntry_arena.2.2]
  exact ⟨rfl, rfl, rfl, rfl, rfl, rfl, rfl⟩

namespace Stores

variable {j j' : Jit} {busy : List EntryId} {items items' : Queue → List Item} {e : EntryId}

/-- Queueing a new entry, which leaves the entries in use alone. -/
theorem queueEntry (h : j.Stores busy items) (q : Queue) {f : Entry → Entry}
    (hf : ∀ x, (f x).next = x.next) :
    (j.queueEntry q f).Stores busy
        (Function.update items q ((f (j.entries j.allocEntry.1)).item q :: items q)) ∧
      ∀ e ∈ busy, (j.queueEntry q f).entries e = j.entries e := by
  have halloc := h.allocEntry
  have hset := halloc.setEntry (x := f (j.allocEntry.2.entries j.allocEntry.1)) (hf _)
  have hput := hset.enqueue q
  rw [setEntry_entries_self, allocEntry_entries] at hput
  rw [Jit.queueEntry, allocEntry_entries]
  refine ⟨hput, fun e he => ?_⟩
  have hne : e ≠ j.allocEntry.1 := by
    rintro rfl
    exact halloc.not_mem he
  rw [enqueue_entries_of_ne _ _ hne, setEntry_entries_of_ne _ _ hne, allocEntry_entries]

/-- **A request for a block** queues it for compilation if it is new, and its compiler for
cleanup. -/
theorem queueBlock (h : j.Stores busy items) (pc : Short) :
    (j.queueBlock pc).2.Stores busy (j.asked pc items) ∧
      ∀ e ∈ busy, (j.queueBlock pc).2.entries e = j.entries e := by
  unfold asked
  cases hnew : j.lookup pc with
  | some b =>
    rw [queueBlock_old hnew]
    exact ⟨h, fun _ _ => rfl⟩
  | none =>
    have h₀ : (j.addBlock pc).Stores busy items := h.congr rfl rfl rfl fun _ _ => rfl
    obtain ⟨h₁, hframe₁⟩ := h₀.queueEntry .compile
      (f := fun x => { x with block := j.numBlocks, compiler := j.numCompilers, payload := .pc pc })
      fun _ => rfl
    obtain ⟨h₂, hframe₂⟩ := h₁.queueEntry .cleanup (f := fun x => { x with compiler := j.numCompilers })
      fun _ => rfl
    rw [queueBlock_eq hnew]
    refine ⟨h₂, fun e he => ?_⟩
    rw [hframe₂ e he, hframe₁ e he]
    rfl

/-- The entry of a link while the block of its target is asked for. -/
theorem startLink (h : j.Stores busy items) (t : LinkType) :
    (j.startLink t).Stores (j.allocEntry.1 :: busy) items := h.allocEntry.setEntry rfl

end Stores

end Jit

end BuxnJit
