import Mathlib.Data.List.Perm.Subperm
import Mathlib.Logic.Function.Basic

/-!
# Lists that share their nodes

Nodes are numbered in the order of their allocation and linked through one field of their own. An
arena has the links and the heads of the lists, which are named by a type `κ`; a node is taken from
a list, used, and put back into the same or another one.

`Holds a L` says that every node is in exactly one place: `L (some q)` are the nodes of the list
`q`, in order, and `L none` those in use, the latest first. Taking a node (`Holds.pop`,
`Holds.alloc`) and putting back the one taken last (`Holds.push`) keep it.
-/

namespace Foundations

/-- The list of nodes that starts at a head. -/
inductive Chain (next : ℕ → Option ℕ) : Option ℕ → List ℕ → Prop
  | nil : Chain next none []
  | cons (x : ℕ) {xs : List ℕ} (h : Chain next (next x) xs) : Chain next (some x) (x :: xs)

theorem Chain.congr {next next' : ℕ → Option ℕ} {head : Option ℕ} {xs : List ℕ}
    (h : Chain next head xs) (hnext : ∀ x ∈ xs, next' x = next x) : Chain next' head xs := by
  induction h with
  | nil => exact .nil
  | cons x _ ih =>
    apply Chain.cons
    rw [hnext x List.mem_cons_self]
    exact ih fun y hy => hnext y (List.mem_cons_of_mem x hy)

theorem Chain.head_eq {next : ℕ → Option ℕ} {head : Option ℕ} {xs : List ℕ}
    (h : Chain next head xs) : head = xs.head? := by
  cases h <;> rfl

/-- **Appending** a node: the last one so far, if there is one, now leads to it. -/
theorem Chain.concat {next next' : ℕ → Option ℕ} {head : Option ℕ} {xs : List ℕ} {x : ℕ}
    (h : Chain next head xs) (hx : next' x = none)
    (hlast : ∀ l, xs.getLast? = some l → next' l = some x)
    (hother : ∀ y ∈ xs.dropLast, next' y = next y) :
    Chain next' (head.or (some x)) (xs ++ [x]) := by
  induction h with
  | nil => exact .cons x (hx ▸ .nil)
  | @cons y ys htail ih =>
    apply Chain.cons
    cases ys with
    | nil =>
      rw [hlast y rfl]
      exact .cons x (hx ▸ .nil)
    | cons z zs =>
      have hrest := ih (fun l hl => hlast l (by simpa using hl))
        (fun w hw => hother w (by simp [hw]))
      have hnext : next' y = next y := hother y (by simp)
      have hsome : next y = some z := htail.head_eq
      rw [hnext, hsome]
      rwa [hsome] at hrest

structure Arena (κ : Type) where
  next : ℕ → Option ℕ
  heads : κ → Option ℕ
  size : ℕ

namespace Arena

variable {κ : Type} [DecidableEq κ]

/-- Take the first node of a list. -/
def pop (q : κ) (a : Arena κ) : Option ℕ × Arena κ :=
  match a.heads q with
  | none => (none, a)
  | some x => (some x, { a with heads := Function.update a.heads q (a.next x) })

/-- Make a node the first of a list. -/
def push (q : κ) (x : ℕ) (a : Arena κ) : Arena κ :=
  { a with next := Function.update a.next x (a.heads q), heads := Function.update a.heads q (some x) }

/-- Take a node from the list of free ones, or make one. -/
def alloc (q : κ) (a : Arena κ) : ℕ × Arena κ :=
  match a.pop q with
  | (some x, a) => (x, a)
  | (none, a) => (a.size, { a with size := a.size + 1 })

/-- Every node is in exactly one of the lists or in use. -/
structure Holds (a : Arena κ) (L : Option κ → List ℕ) : Prop where
  chain : ∀ q, Chain a.next (a.heads q) (L (some q))
  nodup : ∀ p, (L p).Nodup
  disjoint : ∀ p p' x, x ∈ L p → x ∈ L p' → p = p'
  cover : ∀ x, x < a.size ↔ ∃ p, x ∈ L p

/-- The places once the node `x` has gone from the front of `p`, with `xs` behind it, to the front
of `p'`. -/
def moved (L : Option κ → List ℕ) (p p' : Option κ) (x : ℕ) (xs : List ℕ) : Option κ → List ℕ :=
  Function.update (Function.update L p xs) p' (x :: L p')

section Moved

variable {L : Option κ → List ℕ} {p p' : Option κ} {x : ℕ} {xs : List ℕ}

@[simp] theorem moved_self : moved L p p' x xs p' = x :: L p' := Function.update_self ..

theorem moved_from (hp : p ≠ p') : moved L p p' x xs p = xs := by
  rw [moved, Function.update_of_ne hp, Function.update_self]

theorem moved_of_ne {p'' : Option κ} (h : p'' ≠ p) (h' : p'' ≠ p') :
    moved L p p' x xs p'' = L p'' := by
  rw [moved, Function.update_of_ne h', Function.update_of_ne h]

end Moved

namespace Holds

variable {a a' : Arena κ} {L : Option κ → List ℕ} {p p' : Option κ} {q : κ} {x : ℕ} {xs : List ℕ}

theorem mem_moved (h : a.Holds L) (hx : L p = x :: xs) (hp : p ≠ p') (y : ℕ) (p'' : Option κ) :
    y ∈ moved L p p' x xs p'' ↔ if y = x then p'' = p' else y ∈ L p'' := by
  have hmem : x ∈ L p := hx ▸ List.mem_cons_self
  have hnodup := h.nodup p
  rw [hx, List.nodup_cons] at hnodup
  by_cases h' : p'' = p'
  · subst h'
    by_cases hy : y = x <;> simp [hy]
  by_cases hfrom : p'' = p
  · subst hfrom
    rw [moved_from hp, hx]
    by_cases hy : y = x
    · simpa [hy, h'] using hnodup.1
    · simp [hy]
  · rw [moved_of_ne hfrom h']
    by_cases hy : y = x
    · subst hy
      simpa [h'] using fun hy => hfrom (h.disjoint _ _ _ hy hmem)
    · simp [hy]

/-- **Moving a node** keeps every node in one place. -/
theorem moved (h : a.Holds L) (hx : L p = x :: xs) (hp : p ≠ p') (hsize : a'.size = a.size)
    (hchain : ∀ q, Chain a'.next (a'.heads q) (moved L p p' x xs (some q))) :
    a'.Holds (moved L p p' x xs) := by
  have hmem := h.mem_moved hx hp
  have hnodup := h.nodup p
  rw [hx, List.nodup_cons] at hnodup
  refine ⟨hchain, fun r => ?_, fun r r' y hy hy' => ?_, fun y => ?_⟩
  · by_cases h' : r = p'
    · subst h'
      rw [moved_self, List.nodup_cons]
      refine ⟨fun hxr => hp ?_, h.nodup r⟩
      exact h.disjoint p r x (hx ▸ List.mem_cons_self) hxr
    by_cases hr : r = p
    · subst hr
      rw [moved_from hp]
      exact hnodup.2
    · rw [moved_of_ne hr h']
      exact h.nodup r
  · rw [hmem] at hy hy'
    split at hy
    next he =>
      rw [if_pos he] at hy'
      exact hy.trans hy'.symm
    next he =>
      rw [if_neg he] at hy'
      exact h.disjoint r r' y hy hy'
  · rw [hsize, h.cover y]
    simp only [hmem]
    by_cases hy : y = x
    · subst hy
      exact iff_of_true ⟨p, hx ▸ List.mem_cons_self⟩ ⟨p', by simp⟩
    · simp [hy]

theorem heads_eq (h : a.Holds L) (q : κ) : a.heads q = (L (some q)).head? := (h.chain q).head_eq

theorem pop_nil (h : a.Holds L) (hq : L (some q) = []) : a.pop q = (none, a) := by
  have hhead := h.heads_eq q
  rw [hq] at hhead
  rw [Arena.pop, hhead]
  rfl

/-- **Taking a node.** -/
theorem pop (h : a.Holds L) (hq : L (some q) = x :: xs) :
    (a.pop q).1 = some x ∧ (a.pop q).2.Holds (Arena.moved L (some q) none x xs) := by
  have hhead := h.heads_eq q
  rw [hq] at hhead
  have hchain := h.chain q
  rw [hq, hhead] at hchain
  obtain ⟨hpop, hpop'⟩ : (a.pop q).1 = some x ∧
      (a.pop q).2 = { a with heads := Function.update a.heads q (a.next x) } := by
    rw [Arena.pop, hhead]
    exact ⟨rfl, rfl⟩
  refine ⟨hpop, h.moved hq (by simp) (by rw [hpop']) fun r => ?_⟩
  rw [hpop']
  by_cases hr : r = q
  · subst hr
    simp only [Function.update_self]
    rw [moved_from (by simp)]
    cases hchain with
    | cons _ htail => exact htail
  · simp only [Function.update_of_ne hr]
    rw [moved_of_ne (by simpa using hr) (by simp)]
    exact h.chain r

/-- **Putting back the node that was taken last.** -/
theorem push (h : a.Holds L) (hx : L none = x :: xs) (q : κ) :
    (a.push q x).Holds (Arena.moved L none (some q) x xs) := by
  refine h.moved hx (by simp) rfl fun r => ?_
  have hbusy : x ∈ L none := hx ▸ List.mem_cons_self
  have hold : ∀ r, Chain (Function.update a.next x (a.heads q)) (a.heads r) (L (some r)) := by
    intro r
    refine (h.chain r).congr fun y hy => Function.update_of_ne (fun he => ?_) _ _
    subst he
    exact absurd (h.disjoint _ _ _ hbusy hy) (by simp)
  change Chain (Function.update a.next x (a.heads q)) (Function.update a.heads q (some x) r) _
  by_cases hr : r = q
  · subst hr
    rw [moved_self, Function.update_self]
    apply Chain.cons
    rw [Function.update_self]
    exact hold r
  · rw [moved_of_ne (by simp) (by simpa using hr), Function.update_of_ne hr]
    exact hold r

/-- **Allocating a node**: a free one, or a new one if there is none. The other lists stay. -/
theorem alloc (h : a.Holds L) (q : κ) : ∃ free, (a.alloc q).2.Holds
    (Function.update (Function.update L (some q) free) none ((a.alloc q).1 :: L none)) := by
  unfold Arena.alloc
  cases hq : L (some q) with
  | cons x xs =>
    obtain ⟨hx, hpop⟩ := h.pop hq
    generalize a.pop q = r at hx hpop
    obtain ⟨r, a'⟩ := r
    subst hx
    exact ⟨xs, hpop⟩
  | nil =>
    rw [h.pop_nil hq]
    have hnew : ∀ p, a.size ∉ L p := fun p hp => Nat.lt_irrefl _ ((h.cover _).mpr ⟨p, hp⟩)
    refine ⟨[], ?_⟩
    rw [← hq, Function.update_eq_self]
    have hmem : ∀ p y, y ∈ Function.update L none (a.size :: L none) p ↔
        if y = a.size then p = none else y ∈ L p := by
      intro p y
      by_cases hp : p = none
      · subst hp
        by_cases hy : y = a.size <;> simp [hy]
      · rw [Function.update_of_ne hp]
        by_cases hy : y = a.size
        · simpa [hy, hp] using hnew p
        · simp [hy]
    refine ⟨h.chain, fun p => ?_, fun p p' y hy hy' => ?_, fun y => ?_⟩
    · by_cases hp : p = none
      · subst hp
        rw [Function.update_self, List.nodup_cons]
        exact ⟨hnew none, h.nodup none⟩
      · rw [Function.update_of_ne hp]
        exact h.nodup p
    · rw [hmem] at hy hy'
      split at hy
      next he =>
        rw [if_pos he] at hy'
        exact hy.trans hy'.symm
      next he =>
        rw [if_neg he] at hy'
        exact h.disjoint p p' y hy hy'
    · simp only [hmem]
      by_cases hy : y = a.size
      · subst hy
        exact iff_of_true (Nat.lt_succ_self _) ⟨none, by simp⟩
      · simp only [if_neg hy, ← h.cover]
        omega

/-- A place holds no more nodes than there are. -/
theorem length_le (h : a.Holds L) (p : Option κ) : (L p).length ≤ a.size := by
  have hsub : L p ⊆ List.range a.size := fun x hx => List.mem_range.mpr ((h.cover x).mpr ⟨p, hx⟩)
  have hle := ((h.nodup p).subperm hsub).length_le
  rwa [List.length_range] at hle

end Holds

end Arena

end Foundations
