import BuxnJit.Jit.Caches
import BuxnJit.Jit.Compile

/-!
# Straight-line opcodes

The opcodes without control flow and device access: what they are made of, the sequences of them
that a memory holds, and the compilation of such a sequence opcode by opcode.
-/

namespace BuxnJit

open Foundations

/-! ## The opcodes -/

/-- Neither a jump, nor a call, nor a device access. -/
def Mnemonic.straight : Mnemonic → Bool
  | .BRK | .JMP | .JCN | .JSR | .JMI | .JCI | .JSI | .DEI | .DEO => false
  | _ => true

/-- The micro operations that straight-line opcodes are made of. -/
def Micro.straight : Micro → Bool
  | .ask | .popEx .. | .pushEx .. | .discard .. | .allocReg | .alu _ | .divide .. | .load ..
  | .store .. | .immediate _ => true
  | _ => false

/-- Pops and discards are from the stack of the opcode, and keep mode does not discard. -/
def Micro.Current : Micro → Ctx → Prop
  | .popEx _ s, ctx => s = ctx.cur
  | .discard _ s, ctx => s = ctx.cur ∧ opFlagK ctx.currentOpcode = false
  | _, _ => True

@[simp] theorem handle_ask (next : Ctx → Ctx) (ctx : Ctx) : handle next .ask ctx = (ctx, ctx) :=
  rfl

section Shape

open Emit Prog

attribute [local simp] dispatch LIT INC POP NIP SWP ROT DUP OVR EQU NEQ GTH LTH STH LDZ STZ LDR STR
  LDA STA ADD SUB MUL DIV AND ORA EOR SFT arith compareOp loadPush relative pop popByte push popEx
  pushEx allocReg alu wrapAround flag2 cur ask perform Prog.bind bind_eq pure_eq ite_bind

theorem only_straight {mn : Mnemonic} (h : mn.straight) :
    Only (F := micro) (fun o => o.straight) (dispatch mn) := by
  cases mn <;> first
    | simp [Mnemonic.straight] at h; done
    | simp [Only, Micro.straight, only_ite]

theorem along_current_POP (next : Ctx → Ctx) (ctx : Ctx) :
    Along (handle next) Micro.Current POP ctx := by
  refine ⟨trivial, ?_⟩
  show Along (handle next) Micro.Current (if opFlagK ctx.currentOpcode = true then _ else _) ctx
  cases hk : opFlagK ctx.currentOpcode with
  | true => trivial
  | false => exact ⟨trivial, trivial, ⟨rfl, hk⟩, trivial⟩

/-- Pops and discards are from the stack of the opcode: a program asks for it just before. -/
theorem along_current (next : Ctx → Ctx) {mn : Mnemonic} (h : mn.straight) (ctx : Ctx) :
    Along (handle next) Micro.Current (dispatch mn) ctx := by
  cases mn
  case POP => exact along_current_POP next ctx
  case NIP =>
    refine (along_bind _ _ _).mpr ⟨⟨trivial, trivial, rfl, trivial⟩, ?_⟩
    exact (along_bind _ _ _).mpr ⟨along_current_POP next _, trivial, trivial, trivial⟩
  all_goals first
    | simp [Mnemonic.straight] at h; done
    | simp [Along, Micro.Current]

/-- Only LIT reads an immediate operand. -/
theorem only_not_immediate {mn : Mnemonic} (h : mn.straight) (hlit : mn ≠ .LIT) :
    Only (F := micro) (fun o => o.straight ∧ ∀ b, o ≠ .immediate b) (dispatch mn) := by
  cases mn <;> first
    | simp [Mnemonic.straight] at h; done
    | simp at hlit; done
    | simp [Only, Micro.straight, only_ite]

end Shape

/-! ## The context under micro operations -/

namespace Ctx

variable (ctx : Ctx) (flag2 : Bool) (s : Stk) (o : Operand OpReg) (v : Value)

@[simp] theorem popValue_toGen : (ctx.popValue s).2.toGen = ctx.toGen := by
  unfold popValue
  cases ctx.shadow <;> rfl

@[simp] theorem popValue_jit : (ctx.popValue s).2.jit = ctx.jit := by
  unfold popValue
  cases ctx.shadow <;> rfl

@[simp] theorem popValue_pc : (ctx.popValue s).2.pc = ctx.pc := by
  unfold popValue
  cases ctx.shadow <;> rfl

@[simp] theorem popValue_compiler : (ctx.popValue s).2.compiler = ctx.compiler := by
  unfold popValue
  cases ctx.shadow <;> rfl

theorem popSemantics_snd : (ctx.popSemantics flag2 s).2 =
    if flag2 then ((ctx.popValue s).2.popValue s).2 else (ctx.popValue s).2 := by
  unfold popSemantics
  cases flag2
  · rfl
  · simp only [if_true]
    split <;> rfl

@[simp] theorem popEx_toGen :
    (ctx.popEx flag2 s).2.toGen = (ctx.toGen.stackCachePop flag2 s).2 := by
  have h : (ctx.popSemantics flag2 s).2.toGen = ctx.toGen := by
    rw [popSemantics_snd]
    split <;> simp
  simp [popEx, liftReg, h]

@[simp] theorem popEx_reg :
    (ctx.popEx flag2 s).1.reg = (ctx.toGen.stackCachePop flag2 s).1 := by
  have h : (ctx.popSemantics flag2 s).2.toGen = ctx.toGen := by
    rw [popSemantics_snd]
    split <;> simp
  simp [popEx, liftReg, h]

@[simp] theorem popEx_isShort : (ctx.popEx flag2 s).1.isShort = flag2 := rfl

@[simp] theorem popEx_jit : (ctx.popEx flag2 s).2.jit = ctx.jit := by
  simp only [popEx, liftReg, popSemantics_snd]
  split <;> simp

@[simp] theorem popEx_pc : (ctx.popEx flag2 s).2.pc = ctx.pc := by
  simp only [popEx, liftReg, popSemantics_snd]
  split <;> simp

@[simp] theorem popEx_compiler : (ctx.popEx flag2 s).2.compiler = ctx.compiler := by
  simp only [popEx, liftReg, popSemantics_snd]
  split <;> simp

@[simp] theorem pushEx_toGen : (ctx.pushEx o s).toGen =
    (ctx.toGen.assert (ctx.refCounts o.reg != 0)).stackCachePush s o := by
  unfold pushEx
  simp only
  split <;> rfl

@[simp] theorem pushEx_jit : (ctx.pushEx o s).jit = ctx.jit := by
  unfold pushEx
  simp only
  split <;> rfl

@[simp] theorem pushEx_pc : (ctx.pushEx o s).pc = ctx.pc := by
  unfold pushEx
  simp only
  split <;> rfl

@[simp] theorem pushEx_compiler : (ctx.pushEx o s).compiler = ctx.compiler := by
  unfold pushEx
  simp only
  split <;> rfl

@[simp] theorem discard_toGen : (ctx.discard flag2 s).toGen = ctx.toGen.stackCacheDiscard flag2 s :=
  rfl

@[simp] theorem immediate_toGen : (ctx.immediate flag2).2.toGen =
    ctx.toGen.allocReg.2.immediate ctx.toGen.allocReg.1 flag2 ctx.pc := rfl

end Ctx

/-- What straight-line operations leave alone outside the generator. -/
theorem handle_frame (next : Ctx → Ctx) {o : Micro} (h : o.straight) (ctx : Ctx) :
    (handle next o ctx).2.jit = ctx.jit ∧ (handle next o ctx).2.compiler = ctx.compiler := by
  cases o <;> first
    | simp [Micro.straight] at h; done
    | simp [handle, Ctx.lift, Ctx.liftReg, Ctx.discard, Ctx.immediate]

theorem handle_pc {next : Ctx → Ctx} {o : Micro} (h : o.straight) (himm : ∀ b, o ≠ .immediate b)
    (ctx : Ctx) : (handle next o ctx).2.pc = ctx.pc := by
  cases o <;> first
    | simp [Micro.straight] at h; done
    | simp at himm; done
    | simp [handle, Ctx.lift, Ctx.liftReg, Ctx.discard]

theorem Alu.local (a : Alu) : a.instr.Local := by
  cases a with
  | op1 k dst src => cases dst <;> exact ⟨rfl, by simp [instr, Data.reg], by simp [instr, Data.reg]⟩
  | op2 k dst a b => cases dst <;> exact ⟨rfl, by simp [instr, Data.reg], by simp [instr, Data.reg]⟩
  | subFlags a b => exact ⟨rfl, by simp [instr], by simp [instr]⟩
  | opFlags dst c => exact ⟨rfl, by simp [instr], by simp [instr]⟩

theorem Alu.meant (a : Alu) : a.instr.meant = none := by cases a <;> rfl

/-- The operations whose code is local. -/
def Micro.plain : Micro → Bool
  | .ask | .popEx .. | .pushEx .. | .discard .. | .allocReg | .alu _ | .load .. | .store ..
  | .immediate _ | .clearStackCaches | .deviceStore .. | .immediateJumpTarget | .linkEntry ..
  | .setCompiler _ => true
  | _ => false

theorem handle_emits (next : Ctx → Ctx) {o : Micro} {ctx : Ctx} (ho : o.plain)
    (hsp : ctx.SpRegs) : Gen.Emits Gen.Loose ctx.toGen (handle next o ctx).2.toGen := by
  cases o with
  | ask | linkEntry | setCompiler => exact .refl
  | popEx flag2 s =>
    rw [handle, Ctx.popEx_toGen]
    exact Gen.emits_stackCachePop _ s hsp flag2
  | pushEx operand s =>
    have h : Gen.Emits Aimed ctx.toGen
        ((ctx.toGen.assert (ctx.refCounts operand.reg != 0)).stackCachePush s operand) :=
      (Gen.Emits.assert .refl _).trans (Gen.emits_stackCachePush _ s operand)
    rw [handle, Ctx.pushEx_toGen]
    exact h.loose
  | discard flag2 s => exact (Gen.emits_stackCacheDiscard _ s hsp flag2).loose
  | allocReg => exact (Gen.emits_allocReg _).loose
  | alu a => exact .emit .refl a.local
  | load reg addr => exact (Gen.emits_load _ reg addr).loose
  | store addr value => exact (Gen.emits_store _ addr value).loose
  | immediate isShort =>
    have h : Gen.Emits Aimed ctx.toGen (ctx.immediate isShort).2.toGen :=
      ctx.toGen.emits_allocReg.trans (Gen.emits_immediate _ _ isShort ctx.pc)
    exact h.loose
  | clearStackCaches => exact ctx.toGen.spills_clearStackCaches.emits.loose
  | deviceStore addr value => exact (Gen.emits_deviceStore _ addr value).loose
  | immediateJumpTarget => exact Gen.Emits.emit .refl ⟨rfl, by simp, by simp⟩
  | _ => simp [Micro.plain] at ho

theorem spRegs_of_emits {g g' : Gen} (hsp : g.SpRegs) (h : Gen.Emits Gen.Loose g g') :
    g'.SpRegs := fun s => by
  rw [h.spReg]
  exact hsp s

theorem handle_cur (next : Ctx → Ctx) {o : Micro} {ctx : Ctx} (ho : o.straight)
    (hsp : ctx.SpRegs) : (handle next o ctx).2.SpRegs ∧ (handle next o ctx).2.cur = ctx.cur := by
  by_cases hplain : o.plain
  · have h := handle_emits next hplain hsp
    exact ⟨spRegs_of_emits hsp h, h.cur⟩
  · cases o <;> simp only [Micro.straight, Micro.plain, not_true_eq_false, Bool.false_eq_true] at ho hplain
    case divide c a b =>
      refine ⟨fun s => ?_, ?_⟩
      · rw [handle, Ctx.lift, Gen.divide_spReg]
        exact hsp s
      · rw [handle, Ctx.lift, Gen.divide_cur]

/-! ## Sequences of opcodes -/

/-- The size of an opcode with its immediate operand. -/
def opLength (op : Byte) : Short :=
  match decode op with
  | .LIT => if opFlag2 op then 3 else 2
  | .JCI | .JMI | .JSI => 3
  | _ => 1

/-- From `pc` on the memory holds `n` straight-line opcodes, none of them in the zero page. -/
def StraightLine (m : Short → Byte) : ℕ → Short → Prop
  | 0, _ => True
  | n + 1, pc => 256 ≤ pc ∧ (decode (m pc)).straight ∧ StraightLine m n (pc + opLength (m pc))

instance StraightLine.decidable (m : Short → Byte) :
    (n : ℕ) → (pc : Short) → Decidable (StraightLine m n pc)
  | 0, _ => .isTrue trivial
  | n + 1, pc =>
    have := StraightLine.decidable m n (pc + opLength (m pc))
    inferInstanceAs (Decidable (_ ∧ _))

/-- The compiler `n` opcodes later. -/
def Ctx.compile (fuel n : ℕ) (ctx : Ctx) : Ctx := (nextOpcode (fuel + 1))^[n] ctx

section Sequence

variable (fuel : ℕ) {ctx : Ctx}

@[simp] theorem Ctx.beginOpcode_currentOpcode (ctx : Ctx) :
    ctx.beginOpcode.currentOpcode = ctx.jit.memory ctx.pc := ctx.toGen.beginOpcode_currentOpcode _

theorem nextOpcode_of_le (hpc : 256 ≤ ctx.pc) : nextOpcode (fuel + 1) ctx =
    (Prog.run (handle (nextOpcode fuel)) (Emit.dispatch (decode (ctx.jit.memory ctx.pc)))
      ctx.beginOpcode).2 := by
  rw [nextOpcode, if_neg (BitVec.not_lt.mpr hpc)]
  simp only [Ctx.beginOpcode_currentOpcode]

theorem nextOpcode_frame (hpc : 256 ≤ ctx.pc) (hst : (decode (ctx.jit.memory ctx.pc)).straight) :
    (nextOpcode (fuel + 1) ctx).jit = ctx.jit ∧
      (nextOpcode (fuel + 1) ctx).compiler = ctx.compiler := by
  rw [nextOpcode_of_le fuel hpc]
  refine Prog.run_invariant (I := fun c => c.jit = ctx.jit ∧ c.compiler = ctx.compiler)
    (s := ctx.beginOpcode) ?_ (only_straight hst) (along_current _ hst _) ⟨rfl, rfl⟩
  rintro o c ho - ⟨h₁, h₂⟩
  obtain ⟨h₃, h₄⟩ := handle_frame (nextOpcode fuel) ho c
  exact ⟨h₃.trans h₁, h₄.trans h₂⟩

theorem nextOpcode_pc (hpc : 256 ≤ ctx.pc) (hst : (decode (ctx.jit.memory ctx.pc)).straight) :
    (nextOpcode (fuel + 1) ctx).pc = ctx.pc + opLength (ctx.jit.memory ctx.pc) := by
  rw [nextOpcode_of_le fuel hpc]
  by_cases hlit : decode (ctx.jit.memory ctx.pc) = .LIT
  · have hop := ctx.beginOpcode_currentOpcode
    have hpc' : ctx.beginOpcode.pc = ctx.pc + 1 := rfl
    simp only [opLength, hlit, Emit.dispatch, Emit.LIT, Emit.flag2, Emit.ask, Emit.push,
      Emit.pushEx, Emit.cur, Prog.perform, Prog.bind_eq, Prog.pure_eq, Prog.bind, Prog.run, handle,
      Ctx.pushEx_pc, Ctx.immediate, Ctx.lift, Ctx.liftReg, hop, hpc']
    cases opFlag2 (ctx.jit.memory ctx.pc) <;> simp [BitVec.add_assoc]
  · have hlen : opLength (ctx.jit.memory ctx.pc) = 1 := by
      unfold opLength
      split <;> simp_all [Mnemonic.straight]
    rw [hlen]
    refine Prog.run_invariant (I := fun c => c.pc = ctx.pc + 1) (s := ctx.beginOpcode) ?_
      (only_not_immediate hst hlit) (along_current _ hst _) rfl
    intro o c ho _ hc
    rw [handle_pc ho.1 ho.2, hc]

/-- Every micro operation of the compilation of `n` opcodes meets `P` in the state before it. -/
def AlongOpcodes (P : Micro → Ctx → Prop) : ℕ → Ctx → Prop
  | 0, _ => True
  | n + 1, ctx =>
    Prog.Along (handle (nextOpcode fuel)) P (Emit.dispatch (decode (ctx.jit.memory ctx.pc)))
      ctx.beginOpcode ∧ AlongOpcodes P n (nextOpcode (fuel + 1) ctx)

/-- **Exactness over a sequence.** Let `I` hold between opcodes and `J` within them, and let `G`
be kept by the bookkeeping between opcodes, and by a micro operation exactly if it meets `P`. Then
the compilation of a sequence keeps `G` exactly if all its micro operations meet `P`. -/
theorem compile_iff_along {I J G : Ctx → Prop} {P : Micro → Ctx → Prop}
    (hbegin : ∀ c, I c → J c.beginOpcode ∧ (G c.beginOpcode ↔ G c))
    (hop : ∀ o c, o.straight → o.Current c → J c → J (handle (nextOpcode fuel) o c).2 ∧
      (G (handle (nextOpcode fuel) o c).2 ↔ G c ∧ P o c))
    (hend : ∀ c, J c → I c) {n : ℕ} (hn : StraightLine ctx.jit.memory n ctx.pc) (hctx : I ctx) :
    G (ctx.compile fuel n) ↔ G ctx ∧ AlongOpcodes fuel P n ctx := by
  induction n generalizing ctx with
  | zero => exact (and_iff_left trivial).symm
  | succ n ih =>
    obtain ⟨hpc, hst, hn⟩ := hn
    have hrun := nextOpcode_of_le fuel hpc
    have hJ : J (nextOpcode (fuel + 1) ctx) := by
      rw [hrun]
      exact Prog.run_invariant (fun o c ho hc hJ => (hop o c ho hc hJ).1) (only_straight hst)
        (along_current _ hst _) (hbegin ctx hctx).1
    have hG : G (nextOpcode (fuel + 1) ctx) ↔ G ctx ∧ Prog.Along (handle (nextOpcode fuel)) P
        (Emit.dispatch (decode (ctx.jit.memory ctx.pc))) ctx.beginOpcode := by
      rw [hrun, ← (hbegin ctx hctx).2]
      exact Prog.run_iff_along (fun o c ho hc hJ => (hop o c ho hc hJ).1)
        (fun o c ho hc hJ => (hop o c ho hc hJ).2) (only_straight hst) (along_current _ hst _)
        (hbegin ctx hctx).1
    rw [Ctx.compile, Function.iterate_succ_apply]
    refine (ih ?_ (hend _ hJ)).trans ?_
    · rwa [nextOpcode_pc fuel hpc hst, (nextOpcode_frame fuel hpc hst).1]
    · rw [hG, AlongOpcodes, and_assoc]

end Sequence

end BuxnJit
