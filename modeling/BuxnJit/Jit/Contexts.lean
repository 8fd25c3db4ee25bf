import BuxnJit.Jit.Control

/-!
# The contexts of a block

`Ctx.Compiling`: the contexts in which the opcodes of a block are compiled, those of the opcodes
that boolean jumps inline included. What is popped from the stacks in them was not read from the
operand of an immediate jump (`Ctx.Compiling.popped`), so that jumps to it are guarded.
-/

namespace BuxnJit

open Foundations Prog

/-- The contexts in which the next opcode inlines others. -/
def Ctx.inlined (fuel : ℕ) (ctx : Ctx) : List Ctx :=
  gather (handle (nextOpcode fuel)) (fun o c => if o = .nextOpcode then [c] else [])
    (Emit.dispatch (decode (ctx.jit.memory ctx.pc))) ctx.beginOpcode

/-- An opcode of some block is about to be compiled in this context; `fuel` bounds the inlining in
it. -/
inductive Ctx.Compiling : ℕ → Ctx → Prop
  | start (fuel : ℕ) (jit : Jit) (compiler : CompilerId) (pc : Short) :
    Compiling fuel (.start jit compiler pc)
  | next {fuel : ℕ} {ctx : Ctx} (h : Compiling fuel ctx) : Compiling fuel (nextOpcode fuel ctx)
  | inlined {fuel : ℕ} {ctx ctx' : Ctx} (h : Compiling (fuel + 1) ctx) (hpc : 256 ≤ ctx.pc)
      (hctx' : ctx' ∈ ctx.inlined fuel) : Compiling fuel ctx'

/-! ## Jumps -/

/-- The operations of a jump that inlines nothing. -/
def Micro.jumping : Micro → Bool
  | .ask | .clearStackCaches | .emit _ | .newLabel | .forgetMemBase | .linkEntry .. => true
  | _ => false

abbrev Jumping {α : Type} (p : Emit.Op α) : Prop := Only (F := micro) (fun o => o.jumping) p

/-- The operations of any jump. -/
def Micro.offStack : Micro → Bool
  | .nextOpcode | .setCompiler _ => true
  | o => o.jumping

abbrev OffStack {α : Type} (p : Emit.Op α) : Prop := Only (F := micro) (fun o => o.offStack) p

section Jumps

variable (target : Operand Reg) (returnAddr : Short)

theorem jumping_jumpAbs : Jumping (Emit.jumpAbs target returnAddr) := by
  simp [Emit.jumpAbs, Emit.newLabel, Emit.emit, perform, bind_eq, Prog.bind, Only, Micro.jumping,
    only_ite]

theorem jumping_jump (h : ¬(target.isShort = false ∧ target.semantics.boolean = true)) :
    Jumping (Emit.jump target returnAddr) := by
  refine ⟨rfl, fun _ => ?_⟩
  show Jumping (if target.isShort then _ else if target.semantics.boolean then _ else _)
  split
  · exact jumping_jumpAbs target returnAddr
  next hs =>
    rw [if_neg fun hb => h ⟨by simpa using hs, hb⟩]
    exact ⟨rfl, fun _ => ⟨rfl, fun _ => ⟨rfl, fun _ => jumping_jumpAbs _ returnAddr⟩⟩⟩

theorem jumping_conditionalJump (condition : Operand OpReg)
    (h : ¬(target.isShort = false ∧ target.semantics.boolean = true)) :
    Jumping (Emit.conditionalJump condition target) := by
  refine ⟨rfl, fun _ => ⟨rfl, fun _ => ⟨rfl, fun l => ⟨rfl, fun _ => ?_⟩⟩⟩⟩
  show Jumping (Emit.jump target 0 >>= fun _ => Emit.emit (.label l))
  exact only_bind (jumping_jump target 0 h) fun _ => ⟨rfl, fun _ => trivial⟩

theorem Jumping.offStack {p : Emit.Op Unit} (h : Jumping p) : OffStack p := by
  refine h.mono fun o ho => ?_
  cases o <;> first
    | rfl
    | simp [Micro.jumping] at ho

theorem offStack_jump : OffStack (Emit.jump target returnAddr) := by
  by_cases h : target.isShort = false ∧ target.semantics.boolean = true
  · have hjump : Emit.jump target returnAddr =
        Emit.clearStackCaches >>= fun _ => Emit.jumpBoolean target := by
      simp [Emit.jump, h.1, h.2]
    rw [hjump]
    exact ⟨rfl, fun _ => ⟨rfl, fun _ => ⟨rfl, fun _ => ⟨rfl, fun _ => ⟨rfl, fun _ =>
      ⟨rfl, fun _ => ⟨rfl, fun _ => ⟨rfl, fun _ => trivial⟩⟩⟩⟩⟩⟩⟩⟩
  · exact (jumping_jump target returnAddr h).offStack

theorem offStack_conditionalJump (condition : Operand OpReg) :
    OffStack (Emit.conditionalJump condition target) := by
  refine ⟨rfl, fun _ => ⟨rfl, fun _ => ⟨rfl, fun l => ⟨rfl, fun _ => ?_⟩⟩⟩⟩
  show OffStack (Emit.jump target 0 >>= fun _ => Emit.emit (.label l))
  exact only_bind (offStack_jump target 0) fun _ => ⟨rfl, fun _ => trivial⟩

end Jumps

/-! ## Guarded targets -/

/-- No value on the stacks counts as the operand of an immediate jump. -/
def Ctx.Guarded (ctx : Ctx) : Prop := ∀ s i, (ctx.tags s i).semantics.immJmp = false

/-- The operands that opcodes get are guarded. -/
def Micro.AnswersGuarded : (o : Micro) → o.Res → Prop
  | .popEx _ _, o | .immediate _, o => o.semantics.immJmp = false
  | _, _ => True

/-- The operands that opcodes push are guarded. -/
def Micro.PushesGuarded : Micro → Prop
  | .pushEx o _ => o.semantics.immJmp = false
  | _ => True

section Guarded

variable {ctx : Ctx} {next : Ctx → Ctx}

theorem Ctx.Guarded.pushValue (h : ctx.Guarded) (s : Stk) {v : Value}
    (hv : v.semantics.immJmp = false) : (ctx.pushValue s v).Guarded := by
  intro s' i
  by_cases hs : s' = s
  · subst hs
    by_cases hi : i = ctx.ptr s'
    · simp [Ctx.pushValue, hi, hv]
    · simpa [Ctx.pushValue, hi] using h s' i
  · simpa [Ctx.pushValue, hs] using h s' i

@[simp] theorem Ctx.popValue_tags (s : Stk) : (ctx.popValue s).2.tags = ctx.tags := by
  unfold popValue
  cases ctx.shadow <;> rfl

@[simp] theorem Ctx.popEx_tags (flag2 : Bool) (s : Stk) : (ctx.popEx flag2 s).2.tags = ctx.tags := by
  simp only [popEx, liftReg, popSemantics_snd]
  split <;> simp

theorem Ctx.Guarded.popEx (h : ctx.Guarded) (flag2 : Bool) (s : Stk) :
    (ctx.popEx flag2 s).1.semantics.immJmp = false := by
  cases flag2 with
  | false => exact h _ _
  | true =>
    have hsem : (ctx.popEx true s).1.semantics = (ctx.popSemantics true s).1.1 := rfl
    rw [hsem, popSemantics, if_pos rfl]
    simp only
    split <;> rfl

theorem answers_guarded (o : Micro) (h : ctx.Guarded) : o.AnswersGuarded (handle next o ctx).1 := by
  cases o with
  | popEx flag2 s => exact h.popEx flag2 s
  | immediate isShort => exact rfl
  | _ => trivial

theorem handle_guarded (hnext : ∀ c : Ctx, c.Guarded → (next c).Guarded) (o : Micro)
    (ho : o.PushesGuarded) (h : ctx.Guarded) : (handle next o ctx).2.Guarded := by
  cases o with
  | popEx flag2 s =>
    intro s' i
    rw [handle, Ctx.popEx_tags]
    exact h s' i
  | pushEx o s =>
    have ho' : o.semantics.immJmp = false := ho
    have hlifted : (ctx.lift fun g =>
        (g.assert (g.refCounts o.reg != 0)).stackCachePush s o).Guarded := h
    rw [handle, Ctx.pushEx]
    simp only
    split
    · exact (hlifted.pushValue s ho').pushValue s ho'
    · exact hlifted.pushValue s ho'
  | nextOpcode => exact hnext ctx h
  | _ =>
    simpa [handle, Ctx.Guarded, Ctx.lift, Ctx.liftReg, Ctx.discard, Ctx.immediate,
      Ctx.immediateJumpTarget, Ctx.newLabel, Ctx.linkEntry] using h

/-! ### Every opcode -/

section Shape

open Emit

attribute [local simp] dispatch BRK LIT INC POP NIP SWP ROT DUP OVR EQU NEQ GTH LTH STH LDZ STZ LDR
  STR LDA STA DEI DEO ADD SUB MUL DIV AND ORA EOR SFT arith compareOp loadPush relative pop popByte
  push popEx pushEx allocReg alu wrapAround flag2 cur ask perform immediateJumpTarget newLabel
  clearStackCaches finalize emit Prog.bind bind_eq pure_eq ite_bind

theorem guarded_offStack {p : Emit.Op Unit} (h : OffStack p) :
    Under (F := micro) Micro.AnswersGuarded Micro.PushesGuarded p := by
  refine under_of_only (h.mono fun o ho => ?_)
  cases o with
  | pushEx => simp [Micro.offStack, Micro.jumping] at ho
  | _ => trivial

theorem guarded_callTo (target : Operand Reg) (s : Stk) :
    Under (F := micro) Micro.AnswersGuarded Micro.PushesGuarded (callTo target s) :=
  ⟨trivial, fun _ _ => ⟨trivial, fun _ _ => ⟨trivial, fun _ _ => ⟨rfl, fun _ _ =>
    ⟨trivial, fun _ _ => guarded_offStack (offStack_jump target _)⟩⟩⟩⟩⟩

/-- A result is pushed that is no target. -/
theorem guarded_arith (k : Op2) (eval : Short → Short → Short) (wraps : Bool) :
    Under (F := micro) Micro.AnswersGuarded Micro.PushesGuarded (arith k eval wraps) := by
  simp [Under, Micro.PushesGuarded, Micro.AnswersGuarded, under_ite]
  grind [Semantics.none, Semantics.onlyConst, Emit.result]

theorem guarded_compareOp (cond : Cond) :
    Under (F := micro) Micro.AnswersGuarded Micro.PushesGuarded (compareOp cond) := by
  simp [Under, Micro.PushesGuarded, Micro.AnswersGuarded]
  grind [Semantics.none, Semantics.onlyBoolean]

theorem guarded_dispatch (mn : Mnemonic) :
    Under (F := micro) Micro.AnswersGuarded Micro.PushesGuarded (dispatch mn) := by
  have hpop : Under (F := micro) Micro.AnswersGuarded Micro.PushesGuarded pop :=
    ⟨trivial, fun _ _ => ⟨trivial, fun _ _ => ⟨trivial, fun _ _ => trivial⟩⟩⟩
  cases mn
  case JMP =>
    refine under_bind hpop fun o => under_bind (guarded_offStack (offStack_jump _ 0)) fun _ => ?_
    split <;> simp [Under, Micro.PushesGuarded]
  case JCN =>
    exact under_bind hpop fun o => ⟨trivial, fun _ _ => ⟨trivial, fun c _ =>
      guarded_offStack (offStack_conditionalJump (Emit.target o) c)⟩⟩
  case JSR =>
    exact under_bind hpop fun o => ⟨trivial, fun _ _ => guarded_callTo (Emit.target o) _⟩
  case JCI =>
    exact ⟨trivial, fun c _ => ⟨trivial, fun t _ =>
      guarded_offStack (offStack_conditionalJump t c)⟩⟩
  case JMI =>
    refine ⟨trivial, fun t _ => ?_⟩
    show Under (F := micro) _ _ (jump t 0 >>= fun _ => finalize)
    exact under_bind (guarded_offStack (offStack_jump t 0)) fun _ => ⟨trivial, fun _ _ => trivial⟩
  case JSI => exact ⟨trivial, fun t _ => guarded_callTo t _⟩
  case ADD | SUB | MUL | AND | ORA | EOR => exact guarded_arith _ _ _
  case EQU | NEQ | GTH | LTH => exact guarded_compareOp _
  -- An operand that is pushed was popped, or is new.
  all_goals simp [Under, Micro.PushesGuarded, Micro.AnswersGuarded, under_ite]
  all_goals grind [Semantics.none, Semantics.onlyConst, Semantics.onlyBoolean, Emit.result]

end Shape

theorem nextOpcode_guarded (fuel : ℕ) : ∀ c : Ctx, c.Guarded → (nextOpcode fuel c).Guarded := by
  induction fuel with
  | zero => exact fun c h => h
  | succ fuel ih =>
    intro c h
    by_cases hpc : 256 ≤ c.pc
    · rw [nextOpcode_of_le fuel hpc]
      exact run_under (I := Ctx.Guarded) (fun o c h => answers_guarded o h)
        (fun o c ho h => handle_guarded ih o ho h) (guarded_dispatch _) h
    · rw [nextOpcode, if_pos (BitVec.not_le.mp hpc)]
      exact h

/-- **No jump to a popped target goes unguarded.** -/
theorem Ctx.Compiling.guarded {fuel : ℕ} (h : ctx.Compiling fuel) : ctx.Guarded := by
  induction h with
  | start => exact fun _ _ => rfl
  | next _ ih => exact nextOpcode_guarded _ _ ih
  | @inlined fuel ctx ctx' _ _ hctx' ih =>
    have halong := along_under (I := Ctx.Guarded) (fun o c h => answers_guarded o h)
      (fun o c ho h => handle_guarded (nextOpcode_guarded fuel) o ho h)
      (guarded_dispatch (decode (ctx.jit.memory ctx.pc))) (s := ctx.beginOpcode) ih
    refine mem_gather ?_ halong ctx' hctx'
    intro o c hc x hx
    split at hx
    · rw [List.mem_singleton] at hx
      exact hx ▸ hc
    · exact absurd hx List.not_mem_nil

end Guarded

end BuxnJit
