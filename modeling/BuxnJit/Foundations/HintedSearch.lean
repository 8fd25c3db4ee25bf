import Mathlib.Data.List.Basic

/-!
# Search from a hint

A linear search that judges one item after the other: it skips the item, ends with it, or gives up.
A search with a hint scans the items from the hint on, and those before it only if that fails. Its
answer does not depend on the hint (`hinted_hit`, `hinted_none`) if all items before one that is
searched are skipped.
-/

namespace Foundations

/-- What a search makes of an item. -/
inductive Verdict
  | skip | hit | stop
  deriving DecidableEq

variable {ι : Type} (f : ι → Verdict)

/-- The item that the scan ends with, and the index where it ends. -/
def scan : List ι → ℕ → Option ι × ℕ
  | [], i => (none, i)
  | x :: xs, i =>
    match f x with
    | .skip => scan xs (i + 1)
    | .hit => (some x, i)
    | .stop => (none, i)

/-- The scan from the hint on, and then that of the items before it. -/
def hinted (xs : List ι) (hint : ℕ) : Option ι × ℕ :=
  match scan f (xs.drop hint) hint with
  | (some x, i) => (some x, i)
  | (none, _) => scan f (xs.take hint) 0

/-- All items before a hit are skipped. -/
def HitsFirst (xs : List ι) : Prop := xs.Pairwise fun a b => f b = .hit → f a = .skip

variable {f} {A B xs : List ι} {x : ι}

theorem scan_le (xs : List ι) (i : ℕ) : (scan f xs i).2 ≤ i + xs.length := by
  induction xs generalizing i with
  | nil => exact Nat.le_refl i
  | cons x xs ih =>
    have htail := ih (i + 1)
    rw [scan, List.length_cons]
    split
    · omega
    · exact Nat.le_add_right i _
    · exact Nat.le_add_right i _

theorem scan_hit (hA : ∀ a ∈ A, f a = .skip) (hx : f x = .hit) (i : ℕ) :
    scan f (A ++ x :: B) i = (some x, i + A.length) := by
  induction A generalizing i with
  | nil => simp [scan, hx]
  | cons a A ih =>
    rw [List.cons_append, scan, hA a List.mem_cons_self]
    simp only
    rw [ih (fun b hb => hA b (List.mem_cons_of_mem a hb)), List.length_cons]
    congr 1
    omega

theorem scan_none (hxs : ∀ a ∈ xs, f a ≠ .hit) (i : ℕ) : (scan f xs i).1 = none := by
  induction xs generalizing i with
  | nil => rfl
  | cons a xs ih =>
    rw [scan]
    split
    · exact ih (fun b hb => hxs b (List.mem_cons_of_mem a hb)) _
    next hit => exact absurd hit (hxs a List.mem_cons_self)
    · rfl

theorem mem_of_scan {i : ℕ} (h : (scan f xs i).1 = some x) : x ∈ xs ∧ f x = .hit := by
  induction xs generalizing i with
  | nil => cases h
  | cons a xs ih =>
    rw [scan] at h
    split at h
    · obtain ⟨hmem, hhit⟩ := ih h
      exact ⟨List.mem_cons_of_mem a hmem, hhit⟩
    next hhit =>
      obtain rfl := Option.some_inj.mp h
      exact ⟨List.mem_cons_self, hhit⟩
    · cases h

/-! ## The hint -/

theorem hinted_le {hint : ℕ} (h : hint ≤ xs.length) : (hinted f xs hint).2 ≤ xs.length := by
  have hfirst := scan_le (f := f) (xs.drop hint) hint
  have hsecond := scan_le (f := f) (xs.take hint) 0
  rw [List.length_drop] at hfirst
  rw [List.length_take] at hsecond
  unfold hinted
  split
  next heq =>
    rw [heq] at hfirst
    simp only at hfirst ⊢
    omega
  next => omega

/-- Whatever the items are, only one that is searched is found. -/
theorem mem_of_hinted {hint : ℕ} (h : (hinted f xs hint).1 = some x) : x ∈ xs ∧ f x = .hit := by
  unfold hinted at h
  split at h
  next heq =>
    obtain ⟨hmem, hhit⟩ := mem_of_scan (congrArg Prod.fst heq)
    obtain rfl := Option.some_inj.mp h
    exact ⟨List.mem_of_mem_drop hmem, hhit⟩
  next =>
    obtain ⟨hmem, hhit⟩ := mem_of_scan h
    exact ⟨List.mem_of_mem_take hmem, hhit⟩

theorem hinted_none (hxs : ∀ a ∈ xs, f a ≠ .hit) (hint : ℕ) : (hinted f xs hint).1 = none := by
  unfold hinted
  split
  next heq =>
    have hnone : (scan f (xs.drop hint) hint).1 = none :=
      scan_none (fun a ha => hxs a (List.mem_of_mem_drop ha)) hint
    rw [heq] at hnone
    cases hnone
  next => exact scan_none (fun a ha => hxs a (List.mem_of_mem_take ha)) 0

/-- **The hint does not matter.** -/
theorem hinted_hit (h : HitsFirst f (A ++ x :: B)) (hx : f x = .hit) (hint : ℕ) :
    hinted f (A ++ x :: B) hint = (some x, A.length) := by
  obtain ⟨-, hxB, hAx⟩ := List.pairwise_append.mp h
  have hA : ∀ a ∈ A, f a = .skip := fun a ha => hAx a ha x List.mem_cons_self hx
  have hB : ∀ b ∈ B, f b ≠ .hit := by
    intro b hb hhit
    have hskip := (List.pairwise_cons.mp hxB).1 b hb hhit
    rw [hx] at hskip
    cases hskip
  unfold hinted
  by_cases hle : hint ≤ A.length
  · have hscan := scan_hit (B := B) (fun a ha => hA a (List.mem_of_mem_drop ha)) hx hint (A := A.drop hint)
    rw [List.drop_append_of_le_length hle, hscan, List.length_drop]
    simp only
    rw [Nat.add_sub_cancel' hle]
  · have hlt : A.length < hint := Nat.lt_of_not_le hle
    have hdrop : (A ++ x :: B).drop hint = B.drop (hint - A.length - 1) := by
      rw [List.drop_append, List.drop_of_length_le (Nat.le_of_lt hlt), List.nil_append,
        show hint - A.length = (hint - A.length - 1) + 1 by omega, List.drop_succ_cons,
        Nat.add_sub_cancel]
    have htake : (A ++ x :: B).take hint = A ++ x :: B.take (hint - A.length - 1) := by
      rw [List.take_append, List.take_of_length_le (Nat.le_of_lt hlt),
        show hint - A.length = (hint - A.length - 1) + 1 by omega, List.take_succ_cons,
        Nat.add_sub_cancel]
    have hmiss : (scan f (B.drop (hint - A.length - 1)) hint).1 = none :=
      scan_none (fun b hb => hB b (List.mem_of_mem_drop hb)) hint
    rw [hdrop, htake, scan_hit hA hx 0]
    generalize scan f (B.drop (hint - A.length - 1)) hint = r at hmiss
    obtain ⟨_ | _, i⟩ := r
    · simp
    · cases hmiss

end Foundations
