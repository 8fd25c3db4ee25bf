import BuxnJit.Foundations.Prog

/-!
# Ghost state

A ghost value is what is known of the state of a run beside the answers of its operations. A
discipline says what an operation needs of the ghost value before it and how it may change it, given
the answer. Whether a program keeps to a discipline (`Keeps`) is a question about the program alone;
`run_keeps` transfers the answer to a run whose handler does.
-/

namespace Foundations

/-- What operations need of a ghost value, and what it may become with their answer. -/
structure Discipline (F : Signature) (γ : Type) where
  pre : F.Op → γ → Prop
  post : (o : F.Op) → F.Res o → γ → γ → Prop

/-- Both disciplines at once, each with a ghost value of its own. -/
def Discipline.both {F : Signature} {γ γ' : Type} (D : Discipline F γ) (D' : Discipline F γ') :
    Discipline F (γ × γ') where
  pre o x := D.pre o x.1 ∧ D'.pre o x.2
  post o r x x' := D.post o r x.1 x'.1 ∧ D'.post o r x.2 x'.2

namespace Prog

variable {F : Signature} {α β γ σ : Type} {D : Discipline F γ} {Q Q' : α → γ → Prop} {x : γ}

/-- Whatever the answers, the program keeps to the discipline, and ends with `Q`. -/
def Keeps (D : Discipline F γ) : Prog F α → (α → γ → Prop) → γ → Prop
  | .pure a, Q, x => Q a x
  | .op o k, Q, x => D.pre o x ∧ ∀ r x', D.post o r x x' → Keeps D (k r) Q x'

@[simp] theorem keeps_pure (a : α) : Keeps D (Pure.pure a : Prog F α) Q x ↔ Q a x := Iff.rfl

@[simp] theorem keeps_perform (o : F.Op) {Q : F.Res o → γ → Prop} :
    Keeps D (perform o) Q x ↔ D.pre o x ∧ ∀ r x', D.post o r x x' → Q r x' := Iff.rfl

@[simp] theorem keeps_bind (p : Prog F α) (f : α → Prog F β) {Q : β → γ → Prop} :
    Keeps D (p >>= f) Q x ↔ Keeps D p (fun a x => Keeps D (f a) Q x) x := by
  induction p generalizing x with
  | pure a => exact Iff.rfl
  | op o k ih =>
    apply and_congr_right
    intro _
    apply forall_congr'
    intro r
    apply forall_congr'
    intro x'
    exact imp_congr_right fun _ => ih r

theorem keeps_ite (c : Prop) [Decidable c] (p q : Prog F α) :
    Keeps D (if c then p else q) Q x ↔ (c → Keeps D p Q x) ∧ (¬c → Keeps D q Q x) := by
  split <;> simp [*]

theorem Keeps.mono {p : Prog F α} (hp : Keeps D p Q x) (hQ : ∀ a x, Q a x → Q' a x) :
    Keeps D p Q' x := by
  induction p generalizing x with
  | pure a => exact hQ a x hp
  | op o k ih => exact ⟨hp.1, fun r x' hx' => ih r (hp.2 r x' hx')⟩

/-- **The ghost rule.** If the handler keeps to the discipline where it meets `P`, under an
invariant `I` that relates the ghost value to the state, then so does every run of a program that
does. -/
theorem run_keeps {h : Handler F σ} {P : F.Op → σ → Prop} {I : γ → σ → Prop}
    (hI : ∀ o x s, P o s → D.pre o x → I x s → ∃ x', D.post o (h o s).1 x x' ∧ I x' (h o s).2)
    {p : Prog F α} {s : σ} (hp : Keeps D p Q x) (hP : Along h P p s) (hs : I x s) :
    Along h (fun o s => ∃ x, D.pre o x ∧ I x s) p s ∧
      ∃ x', Q (run h p s).1 x' ∧ I x' (run h p s).2 := by
  induction p generalizing x s with
  | pure a => exact ⟨trivial, x, hp, hs⟩
  | op o k ih =>
    obtain ⟨x', hpost, hs'⟩ := hI o x s hP.1 hp.1 hs
    obtain ⟨halong, hend⟩ := ih _ (hp.2 _ x' hpost) hP.2 hs'
    exact ⟨⟨⟨x, hp.1, hs⟩, halong⟩, hend⟩

theorem Keeps.both {γ' : Type} {D' : Discipline F γ'} {R : α → γ' → Prop} {y : γ'} {p : Prog F α}
    (hp : Keeps D p Q x) (hp' : Keeps D' p R y) :
    Keeps (D.both D') p (fun a z => Q a z.1 ∧ R a z.2) (x, y) := by
  induction p generalizing x y with
  | pure a => exact ⟨hp, hp'⟩
  | op o k ih => exact ⟨⟨hp.1, hp'.1⟩, fun r z hz => ih r (hp.2 r _ hz.1) (hp'.2 r _ hz.2)⟩

/-! ## Recording a run -/

section Recording

variable {τ : Type} {h : Handler F σ} {u : F.Op → σ → τ → τ} {P : F.Op → σ → Prop}

/-- A handler that keeps a record on the side, which `u` brings up to date. -/
def recording (h : Handler F σ) (u : F.Op → σ → τ → τ) : Handler F (σ × τ) :=
  fun o q => ((h o q.1).1, (h o q.1).2, u o q.1 q.2)

/-- The record does not change the run. -/
theorem run_recording (p : Prog F α) (q : σ × τ) :
    (run (recording h u) p q).1 = (run h p q.1).1 ∧
      (run (recording h u) p q).2.1 = (run h p q.1).2 := by
  induction p generalizing q with
  | pure a => exact ⟨rfl, rfl⟩
  | op o k ih => exact ih _ _

theorem along_recording {p : Prog F α} {q : σ × τ} :
    Along (recording h u) (fun o q => P o q.1) p q ↔ Along h P p q.1 := by
  induction p generalizing q with
  | pure a => exact Iff.rfl
  | op o k ih => exact and_congr_right fun _ => ih _

theorem gather_recording {ρ : Type} {f : F.Op → σ → List ρ} (p : Prog F α) (q : σ × τ) :
    gather (recording h u) (fun o q => f o q.1) p q = gather h f p q.1 := by
  induction p generalizing q with
  | pure a => rfl
  | op o k ih => exact congrArg (f o q.1 ++ ·) (ih _ _)

end Recording

end Prog

end Foundations
