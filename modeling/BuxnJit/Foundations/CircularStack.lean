import Mathlib.Algebra.Group.Basic
import Mathlib.Data.List.Induction
import Mathlib.Data.Int.Cast.Lemmas
import Mathlib.Logic.Function.Basic

/-!
# Circular stacks and deferred writes

A `CStack ι α` is a stack whose cells are indexed by a group `ι`, so that its pointer wraps
around; besides the data it remembers which cells are stale (popped, and not pushed again).

`Deferred data base pending c` is the abstraction relation of a stack implemented by a write-back
buffer: `data` and `base` are the memory and the pointer as they have been written so far, `pending`
lists the values that were pushed and are not written yet, and `c` is the stack they stand for.
Pushing appends to `pending` (`Deferred.push`), popping removes its last value or reads the memory
(`Deferred.drop`, `Deferred.dropWritten`), and moving the first pending value to memory changes
nothing (`Deferred.writeBack`). `Ahead` is the relation of a reader that moves down through the cells
without popping them, and has some of their values at hand.
-/

namespace Foundations

variable {ι α : Type} [AddCommGroupWithOne ι] [DecidableEq ι]

/-- A stack over circular memory. `top` is the first free cell. -/
structure CStack (ι α : Type) where
  data : ι → α
  top : ι
  stale : ι → Bool

namespace CStack

def push (x : α) (c : CStack ι α) : CStack ι α where
  data := Function.update c.data c.top x
  top := c.top + 1
  stale := Function.update c.stale c.top false

def drop (c : CStack ι α) : CStack ι α where
  data := c.data
  top := c.top - 1
  stale := Function.update c.stale (c.top - 1) true

@[simp] theorem push_top (x : α) (c : CStack ι α) : (c.push x).top = c.top + 1 := rfl

@[simp] theorem drop_top (c : CStack ι α) : c.drop.top = c.top - 1 := rfl

@[simp] theorem drop_data (c : CStack ι α) : c.drop.data = c.data := rfl

end CStack

/-! ## Writing a list of values -/

/-- The memory after writing the values one after the other from cell `i` on. -/
def writeAll (data : ι → α) (i : ι) : List α → ι → α
  | [] => data
  | x :: xs => writeAll (Function.update data i x) (i + 1) xs

@[simp] theorem writeAll_nil (data : ι → α) (i : ι) : writeAll data i [] = data := rfl

theorem writeAll_append (data : ι → α) (i : ι) (xs ys : List α) :
    writeAll data i (xs ++ ys) = writeAll (writeAll data i xs) (i + xs.length) ys := by
  induction xs generalizing data i with
  | nil => simp
  | cons x xs ih =>
    simp only [List.cons_append, writeAll, ih, List.length_cons, Nat.cast_add, Nat.cast_one,
      add_assoc, add_comm (1 : ι)]

theorem writeAll_concat (data : ι → α) (i : ι) (xs : List α) (x : α) :
    writeAll data i (xs ++ [x]) = Function.update (writeAll data i xs) (i + xs.length) x := by
  rw [writeAll_append]
  rfl

/-- The cells from `q` on hold the values `xs`. -/
def Reads (data : ι → α) (q : ι) (xs : List α) : Prop :=
  ∀ k (hk : k < xs.length), data (q + k) = xs[k]

/-- What was written can be read, as long as the writes do not wrap around onto themselves. -/
theorem reads_writeAll {N : ℕ} (hN : ∀ k : ℕ, 0 < k → k < N → (k : ι) ≠ 0) (data : ι → α)
    (q : ι) {xs : List α} (hxs : xs.length ≤ N) : Reads (writeAll data q xs) q xs := by
  induction xs using List.reverseRecOn with
  | nil => exact fun k hk => absurd hk (by simp)
  | append_singleton xs x ih =>
    simp only [List.length_append, List.length_singleton] at hxs
    intro k hk
    rw [writeAll_concat]
    rcases Nat.lt_or_ge k xs.length with hlt | hge
    · have hne : q + (k : ι) ≠ q + (xs.length : ι) := by
        intro he
        refine hN (xs.length - k) (by omega) (by omega) ?_
        rw [Nat.cast_sub (Nat.le_of_lt hlt), ← add_left_cancel he, sub_self]
      rw [Function.update_of_ne hne, List.getElem_append_left hlt]
      exact ih (by omega) k hlt
    · obtain rfl : k = xs.length := by
        simp only [List.length_append, List.length_singleton] at hk
        omega
      simp

/-! ## The write-back buffer -/

/-- The memory `data`, written up to `base`, and the values still to be written stand for the
stack `c`. Nothing is said of stale cells. -/
structure Deferred (data : ι → α) (base : ι) (pending : List α) (c : CStack ι α) : Prop where
  top : c.top = base + pending.length
  data : ∀ i, c.stale i = false → writeAll data base pending i = c.data i

namespace Deferred

variable {data : ι → α} {base : ι} {pending : List α} {c : CStack ι α} {x : α}

theorem push (h : Deferred data base pending c) (x : α) :
    Deferred data base (pending ++ [x]) (c.push x) where
  top := by simp [h.top, add_assoc]
  data i hi := by
    rw [writeAll_concat, ← h.top]
    by_cases he : i = c.top
    · simp [CStack.push, he]
    · simp only [CStack.push, Function.update_of_ne he] at hi ⊢
      exact h.data i hi

theorem drop (h : Deferred data base (pending ++ [x]) c) : Deferred data base pending c.drop := by
  have htop : c.top - 1 = base + pending.length := by
    rw [h.top, List.length_append, Nat.cast_add, ← add_assoc, List.length_singleton, Nat.cast_one,
      add_sub_cancel_right]
  refine ⟨htop, fun i hi => ?_⟩
  by_cases he : i = c.top - 1
  · simp [CStack.drop, he] at hi
  · simp only [CStack.drop, Function.update_of_ne he] at hi ⊢
    rw [← h.data i hi, writeAll_concat, Function.update_of_ne (by rwa [htop] at he)]

/-- The last pending value is the top of the stack. -/
theorem peek (h : Deferred data base (pending ++ [x]) c) (hl : c.stale (c.top - 1) = false) :
    c.data (c.top - 1) = x := by
  have htop : c.top - 1 = base + pending.length := by
    rw [h.top, List.length_append, Nat.cast_add, ← add_assoc, List.length_singleton, Nat.cast_one,
      add_sub_cancel_right]
  rw [← h.data _ hl, writeAll_concat, htop, Function.update_self]

theorem dropWritten (h : Deferred data base [] c) : Deferred data (base - 1) [] c.drop := by
  have htop : c.top = base := by simpa using h.top
  refine ⟨by simp [htop], fun i hi => ?_⟩
  by_cases he : i = c.top - 1
  · simp [CStack.drop, he] at hi
  · simp only [CStack.drop, Function.update_of_ne he] at hi
    exact h.data i hi

/-- With nothing pending the top of the stack is read from memory. -/
theorem peekWritten (h : Deferred data base [] c) (hl : c.stale (c.top - 1) = false) :
    c.data (c.top - 1) = data (base - 1) := by
  have htop : c.top = base := by simpa using h.top
  rw [← h.data _ hl, htop]
  rfl

/-- **Write-back.** Moving the first pending values to memory does not change the stack. -/
theorem writeBack {xs : List α} (h : Deferred data base (xs ++ pending) c) :
    Deferred (writeAll data base xs) (base + xs.length) pending c where
  top := by
    rw [h.top]
    simp [add_assoc]
  data i hi := by rw [← h.data i hi, writeAll_append]

end Deferred

/-! ## Reading ahead -/

/-- The values `cached` are those of the cells from `base` up to `p`, as far as these are not
stale: a reader at `p` need not look them up. -/
structure Ahead (base : ι) (cached : List α) (c : CStack ι α) (p : ι) : Prop where
  pos : p = base + cached.length
  reads : ∀ k (hk : k < cached.length), c.stale (base + k) = false → cached[k] = c.data (base + k)

namespace Ahead

variable {base p : ι} {cached : List α} {c : CStack ι α} {x : α}

omit [DecidableEq ι] in
theorem pos_concat (h : Ahead base (cached ++ [x]) c p) : p - 1 = base + cached.length := by
  rw [h.pos, List.length_append, Nat.cast_add, ← add_assoc, List.length_singleton, Nat.cast_one,
    add_sub_cancel_right]

omit [DecidableEq ι] in
/-- The last value is read. -/
theorem peek (h : Ahead base (cached ++ [x]) c p) (hl : c.stale (p - 1) = false) :
    c.data (p - 1) = x := by
  rw [h.pos_concat] at hl ⊢
  have hread := h.reads cached.length (by simp) hl
  simpa using hread.symm

omit [DecidableEq ι] in
theorem drop (h : Ahead base (cached ++ [x]) c p) : Ahead base cached c (p - 1) where
  pos := h.pos_concat
  reads k hk hl := by
    rw [← h.reads k (by simp; omega) hl, List.getElem_append_left hk]

omit [DecidableEq ι] in
theorem dropWritten (h : Ahead base [] c p) : Ahead (base - 1) [] c (p - 1) where
  pos := by simp [h.pos]
  reads k hk := absurd hk (Nat.not_lt_zero k)

end Ahead

/-- The values still to be written, as those of the cells below the top. -/
theorem Deferred.ahead {data : ι → α} {base : ι} {pending : List α} {c : CStack ι α} {N : ℕ}
    (hN : ∀ k : ℕ, 0 < k → k < N → (k : ι) ≠ 0) (h : Deferred data base pending c)
    (hlen : pending.length ≤ N) : Ahead base pending c c.top where
  pos := h.top
  reads k hk hl := by
    rw [← h.data _ hl]
    exact (reads_writeAll hN data base hlen k hk).symm

end Foundations
