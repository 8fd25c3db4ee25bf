import Mathlib.Data.Nat.Cast.Defs

/-!
# Programs over a signature of operations

A `Prog F α` is a computation that performs operations of a signature `F`, each one answered by
its environment, and returns an `α`. A handler gives every operation its effect on a state; `run`
threads the state through the program.

The point of keeping the operations visible is the induction over them, made once here:

* `Along h P p s`: every operation that `p` performs from `s` meets `P` in the state just before;
* `Only Q p`: whatever the answers are, `p` performs operations in `Q` only;
* `Under A Q p`: so it does if the answers are in `A`;
* `run_invariant`: what every operation preserves, the program preserves;
* `run_gather`: what every operation folds its contribution into, the program does;
* `run_blind`: a program that is blind for a difference between two states runs alike from both;
* `run_iff_along`: what every operation keeps exactly if it meets `P`, the program keeps exactly if
  all its operations meet `P`.
-/

namespace Foundations

/-- Operations, and the type of the answer to each. -/
structure Signature where
  Op : Type
  Res : Op → Type

/-- Programs performing operations of `F` and returning an `α`. -/
inductive Prog (F : Signature) (α : Type) where
  | pure (a : α)
  | op (o : F.Op) (k : F.Res o → Prog F α)

/-- The effect of every operation on a state `σ`. -/
abbrev Handler (F : Signature) (σ : Type) := (o : F.Op) → σ → F.Res o × σ

namespace Prog

variable {F : Signature} {α β σ : Type}

def bind : Prog F α → (α → Prog F β) → Prog F β
  | .pure a, f => f a
  | .op o k, f => .op o fun r => (k r).bind f

instance : Monad (Prog F) where
  pure := Prog.pure
  bind := Prog.bind

theorem pure_eq (a : α) : (Pure.pure a : Prog F α) = .pure a := rfl

theorem bind_eq (p : Prog F α) (f : α → Prog F β) : p >>= f = p.bind f := rfl

theorem ite_bind (c : Prop) [Decidable c] (p q : Prog F α) (f : α → Prog F β) :
    (if c then p else q).bind f = if c then p.bind f else q.bind f := by
  split <;> rfl

/-- The program that performs one operation and returns its answer. -/
def perform (o : F.Op) : Prog F (F.Res o) := .op o .pure

/-! ## Running a program -/

def run (h : Handler F σ) : Prog F α → σ → α × σ
  | .pure a, s => (a, s)
  | .op o k, s => run h (k (h o s).1) (h o s).2

variable {h : Handler F σ}

@[simp] theorem run_pure (a : α) (s : σ) : run h (Pure.pure a : Prog F α) s = (a, s) := rfl

@[simp] theorem run_perform (o : F.Op) (s : σ) : run h (perform o) s = h o s := rfl

@[simp] theorem run_bind (p : Prog F α) (f : α → Prog F β) (s : σ) :
    run h (p >>= f) s = run h (f (run h p s).1) (run h p s).2 := by
  induction p generalizing s with
  | pure a => rfl
  | op o k ih => exact ih _ _

/-! ## Conditions on the operations of a run -/

/-- Every operation that the run of the program from `s` performs meets `P` in the state before
it. -/
def Along (h : Handler F σ) (P : F.Op → σ → Prop) : Prog F α → σ → Prop
  | .pure _, _ => True
  | .op o k, s => P o s ∧ Along h P (k (h o s).1) (h o s).2

instance Along.decidable (h : Handler F σ) (P : F.Op → σ → Prop) [∀ o s, Decidable (P o s)] :
    (p : Prog F α) → (s : σ) → Decidable (Along h P p s)
  | .pure _, _ => .isTrue trivial
  | .op o k, s =>
    have := Along.decidable h P (k (h o s).1) (h o s).2
    inferInstanceAs (Decidable (P o s ∧ _))

/-- The program performs operations in `Q` only, whatever the answers. -/
def Only (Q : F.Op → Prop) : Prog F α → Prop
  | .pure _ => True
  | .op o k => Q o ∧ ∀ r, Only Q (k r)

/-- The program performs operations in `Q` only, as long as the answers are in `A`. -/
def Under (A : (o : F.Op) → F.Res o → Prop) (Q : F.Op → Prop) : Prog F α → Prop
  | .pure _ => True
  | .op o k => Q o ∧ ∀ r, A o r → Under A Q (k r)

variable {P P' : F.Op → σ → Prop} {Q : F.Op → Prop} {A : (o : F.Op) → F.Res o → Prop}

@[simp] theorem along_pure (a : α) (s : σ) : Along h P (Pure.pure a : Prog F α) s := trivial

@[simp] theorem along_perform (o : F.Op) (s : σ) : Along h P (perform o) s ↔ P o s :=
  and_iff_left trivial

@[simp] theorem along_bind (p : Prog F α) (f : α → Prog F β) (s : σ) :
    Along h P (p >>= f) s ↔ Along h P p s ∧ Along h P (f (run h p s).1) (run h p s).2 := by
  induction p generalizing s with
  | pure a => exact (and_iff_right trivial).symm
  | op o k ih => exact (and_congr_right fun _ => ih _ _).trans and_assoc.symm

@[simp] theorem only_pure (a : α) : Only Q (Pure.pure a : Prog F α) := trivial

@[simp] theorem only_perform (o : F.Op) : Only Q (perform o) ↔ Q o :=
  and_iff_left fun _ => trivial

theorem only_ite (c : Prop) [Decidable c] (p q : Prog F α) :
    Only Q (if c then p else q) ↔ (c → Only Q p) ∧ (¬c → Only Q q) := by
  split <;> simp [*]

theorem only_bind {p : Prog F α} {f : α → Prog F β} (hp : Only Q p) (hf : ∀ a, Only Q (f a)) :
    Only Q (p >>= f) := by
  induction p with
  | pure a => exact hf a
  | op o k ih => exact ⟨hp.1, fun r => ih r (hp.2 r)⟩

theorem under_ite (c : Prop) [Decidable c] (p q : Prog F α) :
    Under A Q (if c then p else q) ↔ (c → Under A Q p) ∧ (¬c → Under A Q q) := by
  split <;> simp [*]

theorem under_of_only {p : Prog F α} (hp : Only Q p) : Under A Q p := by
  induction p with
  | pure a => trivial
  | op o k ih => exact ⟨hp.1, fun r _ => ih r (hp.2 r)⟩

theorem under_bind {p : Prog F α} {f : α → Prog F β} (hp : Under A Q p)
    (hf : ∀ a, Under A Q (f a)) : Under A Q (p >>= f) := by
  induction p with
  | pure a => exact hf a
  | op o k ih => exact ⟨hp.1, fun r hr => ih r (hp.2 r hr)⟩

theorem Along.mono (hPP' : ∀ o s, P o s → P' o s) {p : Prog F α} {s : σ} (hp : Along h P p s) :
    Along h P' p s := by
  induction p generalizing s with
  | pure a => trivial
  | op o k ih => exact ⟨hPP' _ _ hp.1, ih _ hp.2⟩

theorem Along.and {p : Prog F α} {s : σ} (hp : Along h P p s) (hp' : Along h P' p s) :
    Along h (fun o s => P o s ∧ P' o s) p s := by
  induction p generalizing s with
  | pure a => trivial
  | op o k ih => exact ⟨⟨hp.1, hp'.1⟩, ih _ hp.2 hp'.2⟩

theorem along_of_forall (hP : ∀ o s, P o s) {p : Prog F α} {s : σ} : Along h P p s := by
  induction p generalizing s with
  | pure a => trivial
  | op o k ih => exact ⟨hP o s, ih _⟩

theorem only_of_forall (hQ : ∀ o, Q o) {p : Prog F α} : Only Q p := by
  induction p with
  | pure a => trivial
  | op o k ih => exact ⟨hQ o, ih⟩

theorem Only.mono {Q' : F.Op → Prop} (hQ : ∀ o, Q o → Q' o) {p : Prog F α} (hp : Only Q p) :
    Only Q' p := by
  induction p with
  | pure a => trivial
  | op o k ih => exact ⟨hQ o hp.1, fun r => ih r (hp.2 r)⟩

theorem along_of_only (hP : ∀ o s, Q o → P o s) {p : Prog F α} {s : σ} (hQ : Only Q p) :
    Along h P p s := by
  induction p generalizing s with
  | pure a => trivial
  | op o k ih => exact ⟨hP o s hQ.1, ih _ (hQ.2 _)⟩

/-- **The invariant rule.** A property that every operation in `Q` preserves, where it meets `P`,
holds at the end of a run that performs such operations only. -/
theorem run_invariant {I : σ → Prop}
    (hI : ∀ o s, Q o → P o s → I s → I (h o s).2) {p : Prog F α} {s : σ} (hQ : Only Q p)
    (hP : Along h P p s) (hs : I s) : I (run h p s).2 := by
  induction p generalizing s with
  | pure a => exact hs
  | op o k ih => exact ih _ (hQ.2 _) hP.2 (hI o s hQ.1 hP.1 hs)

/-- Every operation of the run meets `P`, and `I` holds at its end. -/
def Throughout (h : Handler F σ) (P : F.Op → σ → Prop) (I : σ → Prop) (p : Prog F α) (s : σ) :
    Prop := Along h P p s ∧ I (run h p s).2

theorem throughout_bind {I J : σ → Prop} {p : Prog F α} {f : α → Prog F β} {s : σ}
    (hp : Throughout h P I p s)
    (hf : I (run h p s).2 → Throughout h P J (f (run h p s).1) (run h p s).2) :
    Throughout h P J (p >>= f) s := by
  refine ⟨(along_bind p f s).mpr ⟨hp.1, (hf hp.2).1⟩, ?_⟩
  rw [run_bind]
  exact (hf hp.2).2

theorem throughout_op {I : σ → Prop} {o : F.Op} {k : F.Res o → Prog F α} {s : σ} (hs : P o s)
    (hk : Throughout h P I (k (h o s).1) (h o s).2) : Throughout h P I (.op o k) s :=
  ⟨⟨hs, hk.1⟩, hk.2⟩

theorem throughout_of_only {I : σ → Prop} (hP : ∀ o s, Q o → I s → P o s)
    (hI : ∀ o s, Q o → I s → I (h o s).2) {p : Prog F α} {s : σ} (hQ : Only Q p) (hs : I s) :
    Throughout h P I p s := by
  induction p generalizing s with
  | pure a => exact ⟨trivial, hs⟩
  | op o k ih => exact throughout_op (hP o s hQ.1 hs) (ih _ (hQ.2 _) (hI o s hQ.1 hs))

/-- The invariant rule for a program whose operations depend on the answers: the invariant also has
to bound these. -/
theorem run_under {I : σ → Prop} (hA : ∀ o s, I s → A o (h o s).1)
    (hI : ∀ o s, Q o → I s → I (h o s).2) {p : Prog F α} {s : σ} (hp : Under A Q p) (hs : I s) :
    I (run h p s).2 := by
  induction p generalizing s with
  | pure a => exact hs
  | op o k ih => exact ih _ (hp.2 _ (hA o s hs)) (hI o s hp.1 hs)

/-- The same, for the states along the run. -/
theorem along_under {I : σ → Prop} (hA : ∀ o s, I s → A o (h o s).1)
    (hI : ∀ o s, Q o → I s → I (h o s).2) {p : Prog F α} {s : σ} (hp : Under A Q p) (hs : I s) :
    Along h (fun _ s => I s) p s := by
  induction p generalizing s with
  | pure a => trivial
  | op o k ih => exact ⟨hs, ih _ (hp.2 _ (hA o s hs)) (hI o s hp.1 hs)⟩

/-- **The exactness rule.** Let every operation keep `G` exactly if it meets `P'`, under an
invariant `I`. Then the program keeps `G` exactly if all operations of its run meet `P'`. -/
theorem run_iff_along {I G : σ → Prop}
    (hI : ∀ o s, Q o → P o s → I s → I (h o s).2)
    (hG : ∀ o s, Q o → P o s → I s → (G (h o s).2 ↔ G s ∧ P' o s)) {p : Prog F α} {s : σ}
    (hQ : Only Q p) (hP : Along h P p s) (hs : I s) :
    G (run h p s).2 ↔ G s ∧ Along h P' p s := by
  induction p generalizing s with
  | pure a => exact (and_iff_left trivial).symm
  | op o k ih =>
    exact (ih _ (hQ.2 _) hP.2 (hI o s hQ.1 hP.1 hs)).trans
      ((and_congr_left fun _ => hG o s hQ.1 hP.1 hs).trans and_assoc)

/-! ## What a run collects -/

section Collecting

variable {τ γ : Type}

/-- What the operations of the run contribute, in their order. -/
def gather (h : Handler F σ) (f : F.Op → σ → List τ) : Prog F α → σ → List τ
  | .pure _, _ => []
  | .op o k, s => f o s ++ gather h f (k (h o s).1) (h o s).2

variable {f : F.Op → σ → List τ}

@[simp] theorem gather_pure (a : α) (s : σ) : gather h f (Pure.pure a : Prog F α) s = [] := rfl

@[simp] theorem gather_bind (p : Prog F α) (g : α → Prog F β) (s : σ) :
    gather h f (p >>= g) s = gather h f p s ++ gather h f (g (run h p s).1) (run h p s).2 := by
  induction p generalizing s with
  | pure a => rfl
  | op o k ih => exact (congrArg (f o s ++ ·) (ih _ _)).trans (List.append_assoc ..).symm

theorem mem_gather {R : τ → Prop} (hf : ∀ o s, P o s → ∀ x ∈ f o s, R x) {p : Prog F α} {s : σ}
    (hP : Along h P p s) : ∀ x ∈ gather h f p s, R x := by
  induction p generalizing s with
  | pure a => exact fun x hx => absurd hx List.not_mem_nil
  | op o k ih =>
    intro x hx
    rw [gather, List.mem_append] at hx
    obtain hx | hx := hx
    · exact hf o s hP.1 x hx
    · exact ih _ hP.2 x hx

/-- Conversely, the operations contribute what is collected. -/
theorem along_of_gather {R : τ → Prop} {p : Prog F α} {s : σ} (hR : ∀ x ∈ gather h f p s, R x) :
    Along h (fun o s => ∀ x ∈ f o s, R x) p s := by
  induction p generalizing s with
  | pure a => trivial
  | op o k ih =>
    rw [gather, List.forall_mem_append] at hR
    exact ⟨hR.1, ih _ hR.2⟩

theorem gather_of_only (hf : ∀ o s, Q o → f o s = []) {p : Prog F α} {s : σ} (hp : Only Q p) :
    gather h f p s = [] := by
  induction p generalizing s with
  | pure a => rfl
  | op o k ih => rw [gather, hf o s hp.1, ih _ (hp.2 _), List.nil_append]

/-- **The collecting rule.** If every operation folds its contribution into `X`, so does the
program. -/
theorem run_gather {X : σ → γ} {g : γ → τ → γ}
    (hX : ∀ o s, P o s → X (h o s).2 = (f o s).foldl g (X s)) {p : Prog F α} {s : σ}
    (hP : Along h P p s) : X (run h p s).2 = (gather h f p s).foldl g (X s) := by
  induction p generalizing s with
  | pure a => rfl
  | op o k ih => rw [run, gather, List.foldl_append, ← hX o s hP.1, ih _ hP.2]

end Collecting

/-! ## What a program does not tell apart -/

/-- The program goes on in the same way after answers that are alike. -/
def Blind (A : (o : F.Op) → F.Res o → F.Res o → Prop) : Prog F α → Prop
  | .pure _ => True
  | .op o k => (∀ r r', A o r r' → k r = k r') ∧ ∀ r, Blind A (k r)

section Blind

variable {B : (o : F.Op) → F.Res o → F.Res o → Prop}

theorem blind_ite (c : Prop) [Decidable c] (p q : Prog F α) :
    Blind B (if c then p else q) ↔ (c → Blind B p) ∧ (¬c → Blind B q) := by
  split <;> simp [*]

theorem blind_bind {p : Prog F α} {f : α → Prog F β} (hp : Blind B p) (hf : ∀ a, Blind B (f a)) :
    Blind B (p >>= f) := by
  induction p with
  | pure a => exact hf a
  | op o k ih =>
    refine ⟨fun r r' hr => ?_, fun r => ih r (hp.2 r)⟩
    change (k r).bind f = (k r').bind f
    rw [hp.1 r r' hr]

/-- **The simulation rule.** From related states, a program that is blind for the difference
performs the same operations, and ends in related states. -/
theorem run_blind {R : σ → σ → Prop}
    (hR : ∀ o s s', R s s' → B o (h o s).1 (h o s').1 ∧ R (h o s).2 (h o s').2) {p : Prog F α}
    {s s' : σ} (hp : Blind B p) (hs : R s s') :
    (run h p s).1 = (run h p s').1 ∧ R (run h p s).2 (run h p s').2 := by
  induction p generalizing s s' with
  | pure a => exact ⟨rfl, hs⟩
  | op o k ih =>
    obtain ⟨hanswer, hs'⟩ := hR o s s' hs
    rw [run, run, hp.1 _ _ hanswer]
    exact ih _ (hp.2 _) hs'

theorem gather_blind {τ : Type} {f : F.Op → σ → List τ} {R : σ → σ → Prop}
    (hR : ∀ o s s', R s s' → B o (h o s).1 (h o s').1 ∧ R (h o s).2 (h o s').2)
    (hf : ∀ o s s', R s s' → f o s = f o s') {p : Prog F α} {s s' : σ} (hp : Blind B p)
    (hs : R s s') : gather h f p s = gather h f p s' := by
  induction p generalizing s s' with
  | pure a => rfl
  | op o k ih =>
    obtain ⟨hanswer, hs'⟩ := hR o s s' hs
    rw [gather, gather, hp.1 _ _ hanswer, hf o s s' hs, ih _ (hp.2 _) hs']

/-! ### Up to some operations -/

/-- The programs go on in the same way after answers that are alike, as long as they perform operations
in `Q`. -/
def Alongside (Q : F.Op → Prop) (B : (o : F.Op) → F.Res o → F.Res o → Prop) :
    Prog F α → Prog F α → Prop
  | .pure a, q => q = .pure a
  | .op o k, q => ∃ k', q = .op o k' ∧ (Q o → ∀ r r', B o r r' → Alongside Q B (k r) (k' r'))

theorem alongside_op {o : F.Op} {k k' : F.Res o → Prog F α}
    (h : Q o → ∀ r r', B o r r' → Alongside Q B (k r) (k' r')) :
    Alongside Q B (.op o k) (.op o k') := ⟨k', rfl, h⟩

theorem alongside_ite {c : Prop} [Decidable c] {p q p' q' : Prog F α}
    (hp : c → Alongside Q B p p') (hq : ¬c → Alongside Q B q q') :
    Alongside Q B (if c then p else q) (if c then p' else q') := by
  split
  next hc => exact hp hc
  next hc => exact hq hc

theorem alongside_bind {p p' : Prog F α} {f f' : α → Prog F β} (hp : Alongside Q B p p')
    (hf : ∀ a, Alongside Q B (f a) (f' a)) : Alongside Q B (p.bind f) (p'.bind f') := by
  induction p generalizing p' with
  | pure a =>
    obtain rfl : p' = .pure a := hp
    exact hf a
  | op o k ih =>
    obtain ⟨k', rfl, hk⟩ := hp
    exact ⟨fun r => (k' r).bind f', rfl, fun ho r r' hr => ih r (hk ho r r' hr)⟩

/-- The simulation rule, along a run whose operations are in `Q`. -/
theorem Along.alongside {R : σ → σ → Prop} (hQ : ∀ o s, P o s → Q o)
    (hR : ∀ o s s', Q o → R s s' → B o (h o s).1 (h o s').1 ∧ R (h o s).2 (h o s').2)
    (hP : ∀ o s s', R s s' → P o s → P o s') {p p' : Prog F α} {s s' : σ}
    (hp : Alongside Q B p p') (hs : R s s') (halong : Along h P p s) :
    Along h P p' s' ∧ R (run h p s).2 (run h p' s').2 := by
  induction p generalizing p' s s' with
  | pure a =>
    obtain rfl : p' = .pure a := hp
    exact ⟨trivial, hs⟩
  | op o k ih =>
    obtain ⟨k', rfl, hk⟩ := hp
    have ho := hQ o s halong.1
    obtain ⟨hanswer, hs'⟩ := hR o s s' ho hs
    obtain ⟨halong', hend⟩ := ih _ (hk ho _ _ hanswer) hs' halong.2
    exact ⟨⟨hP o s s' hs halong.1, halong'⟩, hend⟩

end Blind

/-! ## Two phases -/

section Phases

variable [∀ o s, Decidable (P o s)]

/-- How many operations of the run meet `P`. -/
def count (h : Handler F σ) (P : F.Op → σ → Prop) [∀ o s, Decidable (P o s)] : Prog F α → σ → ℕ
  | .pure _, _ => 0
  | .op o k, s => (if P o s then 1 else 0) + count h P (k (h o s).1) (h o s).2

theorem count_eq_zero {p : Prog F α} {s : σ} :
    count h P p s = 0 ↔ Along h (fun o s => ¬P o s) p s := by
  induction p generalizing s with
  | pure a => exact iff_of_true rfl trivial
  | op o k ih => simp [count, Along, ih]

/-- The program performs at most `n` operations in `A`, and none of them after one in `B`. -/
def Phased (A B : F.Op → Bool) : ℕ → Prog F α → Prop
  | _, .pure _ => True
  | n, .op o k =>
    if A o then 0 < n ∧ ∀ r, Phased A B (n - 1) (k r)
    else if B o then ∀ r, Only (fun o => A o = false) (k r)
    else ∀ r, Phased A B n (k r)

variable {A' B : F.Op → Bool}

theorem phased_ite (c : Prop) [Decidable c] (n : ℕ) (p q : Prog F α) :
    Phased A' B n (if c then p else q) ↔ (c → Phased A' B n p) ∧ (¬c → Phased A' B n q) := by
  split <;> simp [*]

theorem count_of_only (hP : ∀ o s, P o s → A' o) {p : Prog F α} {s : σ}
    (hp : Only (fun o => A' o = false) p) : count h P p s = 0 := by
  refine count_eq_zero.mpr (along_of_only (fun o s ho h => ?_) hp)
  exact Bool.false_ne_true (ho.symm.trans (hP o s h))

theorem Phased.count_le (hP : ∀ o s, P o s → A' o) {n : ℕ} {p : Prog F α} {s : σ}
    (hp : Phased A' B n p) : count h P p s ≤ n := by
  induction p generalizing n s with
  | pure a => exact Nat.zero_le n
  | op o k ih =>
    rw [Phased] at hp
    rw [count]
    split at hp
    next hA =>
      have := ih _ (hp.2 (h o s).1) (s := (h o s).2)
      split <;> omega
    next hA =>
      rw [if_neg fun hPo => hA (hP o s hPo), Nat.zero_add]
      split at hp
      · rw [count_of_only hP (hp _)]
        exact Nat.zero_le n
      · exact ih _ (hp _)

/-- **The counting rule.** Let every operation add one to `X` if it meets `P`, under an invariant
`I` before and `J` after the first operation in `B`. Then the program adds their number. -/
theorem run_count {M : Type} [AddMonoidWithOne M] {X : σ → M} {C : F.Op → σ → Prop} {I J : σ → Prop}
    (hP : ∀ o s, P o s → A' o) (hAB : ∀ o, A' o → B o = false)
    (hI : ∀ o s, Q o → C o s → I s → X (h o s).2 = (if P o s then 1 else 0) + X s ∧
      (B o = false → I (h o s).2) ∧ (B o → J (h o s).2))
    (hJ : ∀ o s, Q o → C o s → A' o = false → J s → X (h o s).2 = X s ∧ J (h o s).2)
    {n : ℕ} {p : Prog F α} {s : σ} (hp : Phased A' B n p) (hQ : Only Q p) (hC : Along h C p s)
    (hs : I s) : X (run h p s).2 = count h P p s + X s ∧ (I (run h p s).2 ∨ J (run h p s).2) := by
  have hlate : ∀ (p : Prog F α) (s : σ), Only (fun o => A' o = false) p → Only Q p →
      Along h C p s → J s → X (run h p s).2 = X s ∧ J (run h p s).2 := by
    intro p
    induction p with
    | pure a => exact fun s _ _ _ hs => ⟨rfl, hs⟩
    | op o k ih =>
      intro s hA hQ hC hs
      obtain ⟨hX, hs'⟩ := hJ o s hQ.1 hC.1 hA.1 hs
      obtain ⟨hX', hend⟩ := ih _ _ (hA.2 _) (hQ.2 _) hC.2 hs'
      exact ⟨hX'.trans hX, hend⟩
  induction p generalizing n s with
  | pure a => exact ⟨by simp [run, count], .inl hs⟩
  | op o k ih =>
    obtain ⟨hX, hstay, hturn⟩ := hI o s hQ.1 hC.1 hs
    have hsum : ∀ m : ℕ, X (h o s).2 = (if P o s then 1 else 0) + X s →
        (m : M) + X (h o s).2 = ((m + if P o s then 1 else 0 : ℕ) : M) + X s := by
      intro m hX
      rw [hX, Nat.cast_add, add_assoc]
      split <;> simp
    rw [Phased] at hp
    rw [run, count, Nat.add_comm]
    split at hp
    next hA =>
      obtain ⟨hrun, hend⟩ := ih _ (hp.2 _) (hQ.2 _) hC.2 (hstay (hAB o hA))
      exact ⟨hrun.trans (hsum _ hX), hend⟩
    next hA =>
      split at hp
      next hB =>
        obtain ⟨hrun, hend⟩ := hlate _ _ (hp _) (hQ.2 _) hC.2 (hturn hB)
        rw [hrun, count_of_only hP (hp _)]
        exact ⟨by simpa using hsum 0 hX, .inr hend⟩
      next hB =>
        obtain ⟨hrun, hend⟩ := ih _ (hp _) (hQ.2 _) hC.2 (hstay (by simpa using hB))
        exact ⟨hrun.trans (hsum _ hX), hend⟩

end Phases

end Prog

end Foundations
