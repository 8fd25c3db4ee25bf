import BuxnJit.Jit.InStep

/-!
# Compilation does not depend on the compiler

In contexts that differ in the compiler only, the same operations are performed, as long as no opcode
is inlined: that a block is compiled cleanly does not depend on its number (`alongBlock_renamed`).
-/

namespace BuxnJit

open Foundations Prog

/-- The contexts differ in the compiler, the block map and the queues only. -/
def Ctx.Renamed (c c' : Ctx) : Prop :=
  ∃ (j : Jit) (k : Option CompilerId), j.memory = c.jit.memory ∧ (k = none ↔ c.compiler = none) ∧
    c' = { c with jit := j, compiler := k }

def Micro.Renamed : (o : Micro) → o.Res → o.Res → Prop
  | .ask, c, c' => c.Renamed c'
  | _, r, r' => r' = r

/-! ## What programs do not tell apart -/

section Programs

open Emit

variable {α : Type}

/-- The programs perform the same operations, until an opcode is inlined. -/
abbrev Parallel (p q : Op α) : Prop :=
  Alongside (F := micro) (fun o => o.direct = true) Micro.Renamed p q

theorem parallel_ask {k k' : Ctx → Op α}
    (h : ∀ (c : Ctx) (j : Jit) (l : Option CompilerId),
      Parallel (k c) (k' { c with jit := j, compiler := l })) :
    Parallel (.op .ask k) (.op .ask k') := by
  refine alongside_op ?_
  rintro - c c' ⟨j, l, -, -, rfl⟩
  exact h c j l

theorem parallel_op {o : Micro} (ho : ∀ r r', o.Renamed r r' → r' = r) {k k' : o.Res → Op α}
    (h : o.direct = true → ∀ r, Parallel (k r) (k' r)) : Parallel (.op o k) (.op o k') := by
  refine alongside_op fun hdirect r r' hr => ?_
  rw [ho r r' hr]
  exact h hdirect r

theorem parallel_nextOpcode {k k' : Unit → Op α} :
    Parallel (.op .nextOpcode k) (.op .nextOpcode k') := alongside_op fun h => nomatch h

theorem parallel_jump (target : Operand Reg) (returnAddr : Short) :
    Parallel (jump target returnAddr) (jump target returnAddr) := by
  simp only [jump, jumpAbs, jumpBoolean, jumpRelative, newLabel, clearStackCaches, emit, ask, perform,
    Prog.bind, bind_eq]
  repeat' first
    | exact rfl
    | refine parallel_ask fun _ _ _ => ?_
    | exact parallel_nextOpcode
    | refine parallel_op (by exact fun _ _ h => h) fun _ _ => ?_
    | refine alongside_ite (fun _ => ?_) fun _ => ?_

theorem parallel_dispatch (mn : Mnemonic) : Parallel (dispatch mn) (dispatch mn) := by
  cases mn <;>
    simp only [dispatch, BRK, LIT, INC, POP, NIP, SWP, ROT, DUP, OVR, EQU, NEQ, GTH, LTH, STH, LDZ, STZ,
      LDR, STR, LDA, STA, DEI, DEO, ADD, SUB, MUL, DIV, AND, ORA, EOR, SFT, JMP, JCN, JSR, JCI, JMI,
      JSI, arith, compareOp, loadPush, Emit.relative, pop, popByte, push, popEx, pushEx, allocReg, alu,
      wrapAround, flag2, cur, ask, perform, immediateJumpTarget, newLabel, clearStackCaches, finalize,
      emit, conditionalJump, callTo, Prog.bind, bind_eq, pure_eq, ite_bind]
  all_goals
    repeat' first
      | exact rfl
      | exact parallel_jump _ _
      | refine alongside_bind (parallel_jump _ _) fun _ => ?_
      | refine parallel_ask fun _ _ _ => ?_
      | refine parallel_op (by exact fun _ _ h => h) fun _ _ => ?_
      | refine alongside_ite (fun _ => ?_) fun _ => ?_

end Programs

/-! ## Opcodes and blocks -/

namespace Ctx

variable {c c' : Ctx}

theorem popValue_renamed (s : Stk) (c : Ctx) (j : Jit) (k : Option CompilerId) :
    popValue s { c with jit := j, compiler := k } =
      ((c.popValue s).1, { (c.popValue s).2 with jit := j, compiler := k }) := by
  unfold popValue ePtr
  cases c.shadow <;> rfl

theorem popEx_renamed (flag2 : Bool) (s : Stk) (c : Ctx) (j : Jit) (k : Option CompilerId) :
    popEx flag2 s { c with jit := j, compiler := k } =
      ((c.popEx flag2 s).1, { (c.popEx flag2 s).2 with jit := j, compiler := k }) := by
  unfold popEx popSemantics
  cases flag2 with
  | false => simp [popValue_renamed, liftReg]
  | true =>
    simp only [popValue_renamed, if_true]
    split <;> rfl

theorem pushEx_renamed (o : Operand OpReg) (s : Stk) (c : Ctx) (j : Jit) (k : Option CompilerId) :
    pushEx o s { c with jit := j, compiler := k } = { c.pushEx o s with jit := j, compiler := k } := by
  unfold pushEx
  simp only
  split <;> rfl

theorem Renamed.beginOpcode (h : c.Renamed c') : c.beginOpcode.Renamed c'.beginOpcode := by
  obtain ⟨j, k, hj, hk, rfl⟩ := h
  refine ⟨j, k, hj, hk, ?_⟩
  simp only [Ctx.beginOpcode, Ctx.lift, hj]

end Ctx

theorem handle_renamed {next : Ctx → Ctx} (o : Micro) (c c' : Ctx) (ho : o.direct = true)
    (h : c.Renamed c') : o.Renamed (handle next o c).1 (handle next o c').1 ∧
      (handle next o c).2.Renamed (handle next o c').2 := by
  obtain ⟨j, k, hj, hk, rfl⟩ := h
  cases o with
  | ask => exact ⟨⟨j, k, hj, hk, rfl⟩, j, k, hj, hk, rfl⟩
  | popEx flag2 s =>
    simp only [handle, Ctx.popEx_renamed]
    exact ⟨rfl, j, k, by rw [hj, Ctx.popEx_jit], by rw [hk, Ctx.popEx_compiler], rfl⟩
  | pushEx operand s =>
    simp only [handle, Ctx.pushEx_renamed]
    exact ⟨rfl, j, k, by rw [hj, Ctx.pushEx_jit], by rw [hk, Ctx.pushEx_compiler], rfl⟩
  | immediate isShort =>
    simp only [handle, Ctx.immediate, Ctx.liftReg, Ctx.lift, hj]
    exact ⟨rfl, j, k, hj, hk, rfl⟩
  | immediateJumpTarget =>
    simp only [handle, Ctx.immediateJumpTarget, hj]
    exact ⟨rfl, j, k, hj, hk, rfl⟩
  | nextOpcode => cases ho
  | linkEntry t jump target =>
    refine ⟨rfl, j.linkEntry t ⟨k.getD 0, jump⟩ target, k, ?_, hk, rfl⟩
    change _ = (c.jit.linkEntry t ⟨c.compiler.getD 0, jump⟩ target).memory
    rw [Jit.linkEntry_memory, Jit.linkEntry_memory, hj]
  | setCompiler l => exact ⟨rfl, j, l, hj, Iff.rfl, rfl⟩
  | _ => exact ⟨rfl, j, k, hj, by rwa [handle_compiler rfl], rfl⟩

theorem Micro.Clean.renamed {o : Micro} {c c' : Ctx} (hc : c.Renamed c') (h : o.Clean c) :
    o.Clean c' := by
  obtain ⟨j, k, -, -, rfl⟩ := hc
  obtain ⟨hsole, hfinds, hdirect⟩ := h
  refine ⟨?_, ?_, hdirect⟩
  · cases o <;> exact hsole
  · cases o <;> exact hfinds

/-- An opcode that is compiled cleanly is so under any other compiler. -/
theorem alongOpcode_renamed (fuel : ℕ) {c c' : Ctx} (hc : c.Renamed c')
    (h : AlongOpcode (fun _ => Micro.Clean) fuel c) :
    AlongOpcode (fun _ => Micro.Clean) fuel c' ∧ (nextOpcode fuel c).Renamed (nextOpcode fuel c') := by
  cases fuel with
  | zero => exact ⟨trivial, hc⟩
  | succ fuel =>
    have hbegin := hc.beginOpcode
    obtain ⟨hmemory, hpcs⟩ : c'.jit.memory = c.jit.memory ∧ c'.pc = c.pc := by
      obtain ⟨j, k, hj, -, rfl⟩ := hc
      exact ⟨hj, rfl⟩
    rw [AlongOpcode, nextOpcode, nextOpcode, hmemory, hpcs]
    by_cases hpc : c.pc < 256
    · rw [if_pos hpc, if_pos hpc]
      obtain ⟨j, k, hj, -, rfl⟩ := hc
      exact ⟨.inl hpc, j, none, hj, iff_of_true rfl rfl, rfl⟩
    · rw [if_neg hpc, if_neg hpc]
      obtain ⟨halong, hend⟩ := Along.alongside (R := Ctx.Renamed) (fun o c ho => ho.1.direct)
        (fun o c c' ho hc => handle_renamed o c c' ho hc)
        (fun o c c' hc ho => ⟨ho.1.renamed hc, fun hnext =>
          absurd ho.1.direct (by simp [hnext, Micro.direct])⟩)
        (parallel_dispatch (decode (c.jit.memory c.pc))) hbegin (h.resolve_left hpc)
      refine ⟨.inr halong, ?_⟩
      simp only [Ctx.beginOpcode_currentOpcode, hmemory, hpcs]
      exact hend

theorem alongBlock_renamed (fuel n : ℕ) {c c' : Ctx} (hc : c.Renamed c')
    (h : AlongBlock (fun _ => Micro.Clean) fuel n c) : AlongBlock (fun _ => Micro.Clean) fuel n c' := by
  induction n generalizing c c' with
  | zero => trivial
  | succ n ih =>
    obtain hdone | ⟨hopcode, hrest⟩ := h
    · left
      obtain ⟨j, k, -, hk, rfl⟩ := hc
      exact hk.mpr hdone
    · obtain ⟨hopcode', hnext⟩ := alongOpcode_renamed fuel hc hopcode
      exact .inr ⟨hopcode', ih hnext hrest⟩

end BuxnJit
