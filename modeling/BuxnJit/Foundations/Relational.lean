import BuxnJit.Foundations.Prog

/-!
# Two programs side by side

A `Pairing` compares the runs of programs over two signatures: what is collected along either run,
and when two such collections match. `Beside` relates a pair of programs, from two states, to the
results and the states in which they end. The programs need not keep step with each other: a stretch
of one of them that collects nothing is run on its own (`beside_left`, `beside_right`).

A `Coupling` assumes something of the operations along either run instead. `Coupled` relates results
and ends as far as the operations meet what is assumed.
-/

namespace Foundations

/-- The handlers of two signatures, what is collected along their runs, and how this compares. -/
structure Pairing (F G : Signature) (σ σ' : Type) where
  Seen : Type
  Seen' : Type
  left : Handler F σ
  right : Handler G σ'
  seen : F.Op → σ → List Seen
  seen' : G.Op → σ' → List Seen'
  Match : List Seen → List Seen' → Prop
  nil : Match [] []
  append : ∀ {as bs cs ds}, Match as bs → Match cs ds → Match (as ++ cs) (bs ++ ds)

namespace Prog

variable {F G : Signature} {α α' β β' σ σ' : Type} {P : Pairing F G σ σ'} {s : σ} {t : σ'}

/-- What the programs collect matches, and `Ψ` holds of their results and of the states they end
in. -/
structure Beside (P : Pairing F G σ σ') (p : Prog F α) (q : Prog G β)
    (Ψ : α → β → σ → σ' → Prop) (s : σ) (t : σ') : Prop where
  matched : P.Match (gather P.left P.seen p s) (gather P.right P.seen' q t)
  ends : Ψ (run P.left p s).1 (run P.right q t).1 (run P.left p s).2 (run P.right q t).2

variable {Ψ Ψ' : α → β → σ → σ' → Prop}

/-- The result of the left program, as a fact about it. -/
theorem Beside.result {p : Prog F α} {q : Prog G β} (h : Beside P p q Ψ s t) :
    Beside P p q (fun a b s' t' => a = (run P.left p s).1 ∧ Ψ a b s' t') s t :=
  ⟨h.matched, rfl, h.ends⟩

theorem beside_bind {p : Prog F α} {f : α → Prog F α'} {q : Prog G β} {g : β → Prog G β'}
    {Ξ : α' → β' → σ → σ' → Prop} (hp : Beside P p q Ψ s t)
    (hf : ∀ a b s t, Ψ a b s t → Beside P (f a) (g b) Ξ s t) :
    Beside P (p >>= f) (q >>= g) Ξ s t := by
  obtain ⟨hmatch, hends⟩ := hf _ _ _ _ hp.ends
  constructor
  · rw [gather_bind, gather_bind]
    exact P.append hp.matched hmatch
  · rw [run_bind, run_bind]
    exact hends

/-- A stretch of the left program that collects nothing. -/
theorem beside_left {p : Prog F α} {f : α → Prog F α'} {q : Prog G β}
    {Ξ : α' → β → σ → σ' → Prop} (hp : gather P.left P.seen p s = [])
    (hf : Beside P (f (run P.left p s).1) q Ξ (run P.left p s).2 t) :
    Beside P (p >>= f) q Ξ s t := by
  constructor
  · rw [gather_bind, hp]
    exact hf.matched
  · rw [run_bind]
    exact hf.ends

/-- A stretch of the right program that collects nothing. -/
theorem beside_right {p : Prog F α} {q : Prog G β} {g : β → Prog G β'}
    {Ξ : α → β' → σ → σ' → Prop} (hq : gather P.right P.seen' q t = [])
    (hg : Beside P p (g (run P.right q t).1) Ξ s (run P.right q t).2) :
    Beside P p (q >>= g) Ξ s t := by
  constructor
  · rw [gather_bind, hq]
    exact hg.matched
  · rw [run_bind]
    exact hg.ends

end Prog

/-- The handlers of two signatures, and what is assumed of the operations along their runs. -/
structure Coupling (F G : Signature) (σ σ' : Type) where
  left : Handler F σ
  right : Handler G σ'
  assumes : F.Op → σ → Prop
  assumes' : G.Op → σ' → Prop

namespace Prog

variable {F G : Signature} {α α' β β' σ σ' : Type} {C : Coupling F G σ σ'} {s : σ} {t : σ'}

/-- If the operations of both runs meet what is assumed of them, then `Ψ` holds of the results and
the ends. -/
def Coupled (C : Coupling F G σ σ') (p : Prog F α) (q : Prog G β) (Ψ : α → β → σ → σ' → Prop)
    (s : σ) (t : σ') : Prop :=
  Along C.left C.assumes p s → Along C.right C.assumes' q t →
    Ψ (run C.left p s).1 (run C.right q t).1 (run C.left p s).2 (run C.right q t).2

variable {Ψ Ψ' : α → β → σ → σ' → Prop}

theorem Coupled.mono {p : Prog F α} {q : Prog G β} (h : Coupled C p q Ψ s t)
    (hΨ : ∀ a b s t, Ψ a b s t → Ψ' a b s t) : Coupled C p q Ψ' s t :=
  fun hp hq => hΨ _ _ _ _ (h hp hq)

/-- Results and ends, as facts about either program. -/
theorem Coupled.result {p : Prog F α} {q : Prog G β} (h : Coupled C p q Ψ s t) :
    Coupled C p q (fun a b s' t' => Ψ a b s' t' ∧ run C.left p s = (a, s') ∧
      run C.right q t = (b, t')) s t :=
  fun hp hq => ⟨h hp hq, rfl, rfl⟩

theorem coupled_bind {p : Prog F α} {f : α → Prog F α'} {q : Prog G β} {g : β → Prog G β'}
    {Ξ : α' → β' → σ → σ' → Prop} (hp : Coupled C p q Ψ s t)
    (hf : ∀ a b s t, Ψ a b s t → Coupled C (f a) (g b) Ξ s t) :
    Coupled C (p >>= f) (q >>= g) Ξ s t := by
  intro hleft hright
  rw [along_bind] at hleft hright
  rw [run_bind, run_bind]
  exact hf _ _ _ _ (hp hleft.1 hright.1) hleft.2 hright.2

/-- The right program returns something else in the end. -/
theorem Coupled.return {p : Prog F α} {q : Prog G β} {g : β → β'}
    {Ξ : α → β' → σ → σ' → Prop} (h : Coupled C p q Ψ s t)
    (hΞ : ∀ a b s t, Ψ a b s t → Ξ a (g b) s t) :
    Coupled C p (q >>= fun b => Pure.pure (g b)) Ξ s t := by
  intro hleft hright
  rw [along_bind] at hright
  rw [run_bind]
  exact hΞ _ _ _ _ (h hleft hright.1)

/-- A stretch of the left program on its own. -/
theorem coupled_left {p : Prog F α} {f : α → Prog F α'} {q : Prog G β}
    {Ξ : α' → β → σ → σ' → Prop} (hf : Along C.left C.assumes p s →
      Coupled C (f (run C.left p s).1) q Ξ (run C.left p s).2 t) :
    Coupled C (p >>= f) q Ξ s t := by
  intro hleft hright
  rw [along_bind] at hleft
  rw [run_bind]
  exact hf hleft.1 hleft.2 hright

end Prog

end Foundations
