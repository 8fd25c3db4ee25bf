import Mathlib.Data.List.Basic
import Mathlib.Logic.Function.Basic

/-!
# Doubly linked lists

Nodes over a type `ι` of addresses, each with the address of the next and of the previous one.
`Segment mem p first xs l q` says that from `first` on the nodes `xs` are linked, with `p` before
them; `l` is the address of the last node, or `p` if there is none, and `q` what follows it.

A whole list is changed at its head (`Listed.insert`) or by unlinking a node that is not the head
(`Listed.unlink`).
-/

namespace Foundations

variable {ι : Type} [DecidableEq ι]

/-- The links of a node. -/
structure Links (ι : Type) where
  next : Option ι
  prev : Option ι
  deriving DecidableEq

inductive Segment (mem : ι → Links ι) : Option ι → Option ι → List ι → Option ι → Option ι → Prop
  | nil (p q : Option ι) : Segment mem p q [] p q
  | cons {x : ι} {xs : List ι} {l q : Option ι} (h : Segment mem (some x) (mem x).next xs l q) :
    Segment mem (mem x).prev (some x) (x :: xs) l q

/-- The nodes `xs` are a doubly linked list that `first` heads. -/
structure Listed (mem : ι → Links ι) (first : Option ι) (xs : List ι) : Prop where
  linked : ∃ l, Segment mem none first xs l none
  nodup : xs.Nodup

/-! ## Changing links -/

def setNext (x : ι) (n : Option ι) (mem : ι → Links ι) : ι → Links ι :=
  Function.update mem x { mem x with next := n }

def setPrev (x : ι) (p : Option ι) (mem : ι → Links ι) : ι → Links ι :=
  Function.update mem x { mem x with prev := p }

/-- Set the previous node of `x`, if there is an `x`. -/
def setPrevOf (x : Option ι) (p : Option ι) (mem : ι → Links ι) : ι → Links ι :=
  match x with
  | none => mem
  | some x => setPrev x p mem

/-- Set the next node of `x`, if there is an `x`. -/
def setNextOf (x : Option ι) (n : Option ι) (mem : ι → Links ι) : ι → Links ι :=
  match x with
  | none => mem
  | some x => setNext x n mem

namespace Segment

variable {mem mem' : ι → Links ι} {p q r l m : Option ι} {xs ys : List ι}

omit [DecidableEq ι] in
/-- A segment depends on its own nodes only. -/
theorem congr (h : Segment mem p q xs l r) (hmem : ∀ x ∈ xs, mem' x = mem x) :
    Segment mem' p q xs l r := by
  induction h with
  | nil p q => exact .nil p q
  | @cons x xs l q _ ih =>
    have hx := hmem x List.mem_cons_self
    rw [← hx] at ih ⊢
    exact .cons (ih fun y hy => hmem y (List.mem_cons_of_mem x hy))

omit [DecidableEq ι] in
theorem append (h : Segment mem p q xs l r) (h' : Segment mem l r ys m s) :
    Segment mem p q (xs ++ ys) m s := by
  induction h with
  | nil p q => exact h'
  | cons _ ih => exact .cons (ih h')

omit [DecidableEq ι] in
theorem split (h : Segment mem p q (xs ++ ys) m s) :
    ∃ l r, Segment mem p q xs l r ∧ Segment mem l r ys m s := by
  induction xs generalizing p q with
  | nil => exact ⟨p, q, .nil p q, h⟩
  | cons x xs ih =>
    cases h with
    | cons h =>
      obtain ⟨l, r, h₁, h₂⟩ := ih h
      exact ⟨l, r, .cons h₁, h₂⟩

omit [DecidableEq ι] in
theorem mem_of_first (h : Segment mem p q xs l none) {x : ι} (hq : q = some x) : x ∈ xs := by
  cases h with
  | nil => cases hq
  | cons _ =>
    obtain rfl := Option.some_inj.mp hq
    exact List.mem_cons_self

omit [DecidableEq ι] in
theorem cons_inv {x : ι} (h : Segment mem p q (x :: xs) l r) :
    some x = q ∧ (mem x).prev = p ∧ Segment mem (some x) (mem x).next xs l r := by
  cases h with
  | cons h => exact ⟨rfl, rfl, h⟩

omit [DecidableEq ι] in
/-- The links around a node that is not the head. -/
theorem around {A B : List ι} {a x : ι} (h : Segment mem p q (A ++ a :: x :: B) l r) :
    Segment mem p q A (mem a).prev (some a) ∧ (mem a).next = some x ∧ (mem x).prev = some a ∧
      Segment mem (some x) (mem x).next B l r := by
  obtain ⟨la, ra, hA, h⟩ := h.split
  obtain ⟨hra, hla, ha⟩ := h.cons_inv
  obtain ⟨hnext, hprev, hB⟩ := ha.cons_inv
  exact ⟨hla ▸ hra ▸ hA, hnext.symm, hprev, hB⟩

/-- The node before a segment can be exchanged. -/
theorem setPrevOf (h : Segment mem p q xs l none) (hxs : xs.Nodup) (p' : Option ι) :
    ∃ l', Segment (setPrevOf q p' mem) p' q xs l' none := by
  cases h with
  | nil => exact ⟨p', .nil p' none⟩
  | @cons x xs l _ h =>
    have hx : x ∉ xs := (List.nodup_cons.mp hxs).1
    refine ⟨l, ?_⟩
    have hself : Foundations.setPrevOf (some x) p' mem x = ⟨(mem x).next, p'⟩ :=
      Function.update_self ..
    have hcons : Segment (Foundations.setPrevOf (some x) p' mem)
        (Foundations.setPrevOf (some x) p' mem x).prev (some x) (x :: xs) l none := by
      refine .cons ?_
      rw [hself]
      refine h.congr fun y hy => Function.update_of_ne ?_ _ _
      rintro rfl
      exact hx hy
    rwa [hself] at hcons

end Segment

namespace Listed

variable {mem : ι → Links ι} {first : Option ι} {xs : List ι}

/-- **Insertion at the head.** -/
theorem insert (h : Listed mem first xs) {x : ι} (hx : x ∉ xs) :
    Listed (setPrevOf first (some x) (Function.update mem x ⟨first, none⟩)) (some x) (x :: xs) := by
  obtain ⟨l, hl⟩ := h.linked
  have hfirst : first ≠ some x := by
    exact fun he => hx (hl.mem_of_first he)
  have hold : Segment (Function.update mem x ⟨first, none⟩) none first xs l none :=
    hl.congr fun y hy => Function.update_of_ne (fun he : y = x => hx (he ▸ hy)) _ _
  obtain ⟨l', hl'⟩ := hold.setPrevOf h.nodup (some x)
  refine ⟨⟨l', ?_⟩, List.nodup_cons.mpr ⟨hx, h.nodup⟩⟩
  have hself : setPrevOf first (some x) (Function.update mem x ⟨first, none⟩) x =
      ⟨first, none⟩ := by
    cases first with
    | none => exact Function.update_self ..
    | some y =>
      have hne : x ≠ y := fun he => hfirst (he ▸ rfl)
      simp [setPrevOf, setPrev, hne]
  have hxs : Segment (setPrevOf first (some x) (Function.update mem x ⟨first, none⟩)) (some x)
      (setPrevOf first (some x) (Function.update mem x ⟨first, none⟩) x).next xs l' none := by
    rwa [hself]
  have hcons := hxs.cons
  rwa [hself] at hcons

/-- **Unlinking a node** that is not the head. -/
theorem unlink {A B : List ι} {a x : ι} (h : Listed mem first (A ++ a :: x :: B)) :
    Listed (setNextOf (mem x).prev (mem x).next (setPrevOf (mem x).next (mem x).prev mem)) first
      (A ++ a :: B) := by
  obtain ⟨l, hl⟩ := h.linked
  obtain ⟨hA, -, hprev, hB⟩ := hl.around
  have hnodup : (A ++ a :: B).Nodup :=
    h.nodup.sublist ((List.sublist_cons_self x B).cons_cons a |>.append_left A)
  obtain ⟨-, haB, hdisj⟩ := List.nodup_append.mp hnodup
  obtain ⟨haB, hBnodup⟩ := List.nodup_cons.mp haB
  have haA : a ∉ A := fun ha => hdisj a ha a List.mem_cons_self rfl
  have hn : ∀ y, (mem x).next = some y → y ∈ B := fun y hy => hB.mem_of_first hy
  -- the nodes before the next one are not touched by the change of its links
  have hkeep : ∀ y ∉ B, setPrevOf (mem x).next (some a) mem y = mem y := by
    intro y hy
    cases hnext : (mem x).next with
    | none => rfl
    | some z => exact Function.update_of_ne (fun he : y = z => hy (he ▸ hn z hnext)) _ _
  refine ⟨?_, hnodup⟩
  obtain ⟨l', hB'⟩ := hB.setPrevOf hBnodup (some a)
  have hBA : ∀ y ∈ A, y ∉ B := fun y hy hyB => hdisj y hy y (List.mem_cons_of_mem a hyB) rfl
  rw [hprev]
  show ∃ l, Segment (setNext a (mem x).next (setPrevOf (mem x).next (some a) mem)) none first
    (A ++ a :: B) l none
  generalize setPrevOf (mem x).next (some a) mem = mem₁ at hkeep hB'
  have ha : setNext a (mem x).next mem₁ a = ⟨(mem x).next, (mem a).prev⟩ := by
    rw [setNext, Function.update_self, hkeep a haB]
  refine ⟨l', .append (l := (mem a).prev) (r := some a) (hA.congr fun y hy => ?_) ?_⟩
  · rw [setNext, Function.update_of_ne (fun he : y = a => haA (he ▸ hy)), hkeep y (hBA y hy)]
  · have hcons : Segment (setNext a (mem x).next mem₁) (setNext a (mem x).next mem₁ a).prev (some a)
        (a :: B) l' none := by
      refine .cons ?_
      rw [ha]
      exact hB'.congr fun y hy => Function.update_of_ne (fun he : y = a => haB (he ▸ hy)) _ _
    rwa [ha] at hcons

omit [DecidableEq ι] in
/-- A node other than the head has one before it, and is not the next of itself. -/
theorem exists_before (h : Listed mem first xs) {x : ι} (hx : x ∈ xs) (hfirst : first ≠ some x) :
    ∃ A a B, xs = A ++ a :: x :: B ∧ (mem x).next ≠ some x := by
  obtain ⟨A, B, rfl⟩ := List.append_of_mem hx
  obtain ⟨l, hl⟩ := h.linked
  rcases List.eq_nil_or_concat A with rfl | ⟨A, a, rfl⟩
  · exact absurd hl.cons_inv.1.symm hfirst
  · rw [List.concat_append] at hl h
    refine ⟨A, a, B, by simp, fun hself => ?_⟩
    have hmem : x ∈ B := hl.around.2.2.2.mem_of_first hself
    have hnodup := (List.nodup_cons.mp (List.nodup_append.mp h.nodup).2.1).2
    exact (List.nodup_cons.mp hnodup).1 hmem

end Listed

end Foundations
