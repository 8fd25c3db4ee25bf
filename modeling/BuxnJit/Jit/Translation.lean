import BuxnJit.Jit.InStep

/-!
# Translation

The straight-line opcodes, compiled beside their execution by the reference machine
(`coupled_dispatch`, `coupled_LIT`). Each is a chain of the rules for its micro operations, and what is
left is the arithmetic of words.
-/

namespace BuxnJit

open Foundations Prog

open Uxn (opStack)

/-! ## Arithmetic -/

section Words

variable (x y : Short) (isShort : Bool)

theorem word_sub : ((x.setWidth 64 - y.setWidth 64 : Word).setWidth 16) = x - y := by
  apply BitVec.eq_of_toNat_eq
  have hx := x.isLt
  have hy := y.isLt
  simp only [BitVec.toNat_sub, BitVec.toNat_setWidth]
  omega

theorem word_beq : ((x.setWidth 64 : Word) == y.setWidth 64) = (x == y) := by
  rw [Bool.eq_iff_iff, beq_iff_eq, beq_iff_eq]
  constructor
  · intro h
    have hback := congrArg (BitVec.setWidth 16) h
    simpa using hback
  · rintro rfl
    rfl

theorem word_ult : (x.setWidth 64 : Word).ult (y.setWidth 64) = decide (x < y) := by
  have hx := x.isLt
  have hy := y.isLt
  rw [BitVec.ult]
  apply decide_eq_decide.mpr
  rw [BitVec.lt_def, BitVec.toNat_setWidth, BitVec.toNat_setWidth,
    Nat.mod_eq_of_lt (by omega), Nat.mod_eq_of_lt (by omega)]

theorem word_udiv : (x.setWidth 64 / y.setWidth 64 : Word) = (x / y).setWidth 64 := by
  apply BitVec.eq_of_toNat_eq
  have hx := x.isLt
  have hy := y.isLt
  have hdiv := Nat.div_le_self x.toNat y.toNat
  simp only [BitVec.toNat_udiv, BitVec.toNat_setWidth]
  rw [Nat.mod_eq_of_lt (by omega), Nat.mod_eq_of_lt (by omega), Nat.mod_eq_of_lt (by omega)]

/-- A quotient is no larger than the dividend. -/
theorem narrow_udiv (h : x.setWidth 64 = narrow isShort x) :
    (x.setWidth 64 / y.setWidth 64 : Word) = narrow isShort (x / y) := by
  rw [word_udiv]
  cases isShort with
  | true => rfl
  | false =>
    have hx : x.toNat < 256 := by
      have hnat := congrArg BitVec.toNat h
      have hlt := x.isLt
      simp only [narrow, Bool.false_eq_true, if_false, BitVec.toNat_setWidth] at hnat
      omega
    apply BitVec.eq_of_toNat_eq
    have hdiv := Nat.div_le_self x.toNat y.toNat
    simp only [narrow, Bool.false_eq_true, if_false, BitVec.toNat_udiv, BitVec.toNat_setWidth]
    rw [Nat.mod_eq_of_lt (by omega), Nat.mod_eq_of_lt (by omega), Nat.mod_eq_of_lt (by omega)]

/-- SFT shifts by the nibbles of the byte, in a word as in a short. -/
theorem word_shift (b : Byte) : (((x.setWidth 64 : Word) >>> ((b.setWidth 64 : Word) &&& 0x0f)) <<<
    ((b.setWidth 64 : Word) >>> 4)).setWidth 16 = (x >>> (b &&& 0x0f)) <<< (b >>> 4) := by
  have hlow : ((b.setWidth 64 : Word) &&& 0x0f).toNat = (b &&& 0x0f).toNat := by
    revert b
    decide +kernel
  have hhigh : ((b.setWidth 64 : Word) >>> 4).toNat = (b >>> 4).toNat := by
    revert b
    decide +kernel
  have hx : (x.setWidth 64 : Word).toNat = x.toNat := by
    have := x.isLt
    rw [BitVec.toNat_setWidth, Nat.mod_eq_of_lt (by omega)]
  apply BitVec.eq_of_toNat_eq
  rw [BitVec.shiftLeft_eq', BitVec.ushiftRight_eq', BitVec.shiftLeft_eq' (x := _ >>> _),
    BitVec.ushiftRight_eq' x, hlow, hhigh, BitVec.toNat_setWidth, BitVec.toNat_shiftLeft,
    BitVec.toNat_shiftLeft, BitVec.toNat_ushiftRight, BitVec.toNat_ushiftRight, hx]
  exact Nat.mod_mod_of_dvd _ (by decide)

/-- The instruction `k` does what `eval` does, to bytes or to shorts. -/
def Op2.Does (k : Op2) (eval : Short → Short → Short) : Prop :=
  ∀ isShort x y, k.eval (narrow isShort x) (narrow isShort y) = narrow isShort (eval x y)

theorem does_and : Op2.Does .and (· &&& ·) := by
  intro isShort x y
  cases isShort <;> simp [narrow, Op2.eval]

theorem does_or : Op2.Does .or (· ||| ·) := by
  intro isShort x y
  cases isShort <;> simp [narrow, Op2.eval]

theorem does_xor : Op2.Does .xor (· ^^^ ·) := by
  intro isShort x y
  cases isShort <;> simp [narrow, Op2.eval]

/-- The same up to the bits of a short. -/
def Op2.Wraps (k : Op2) (eval : Short → Short → Short) : Prop :=
  ∀ x y : Short, (k.eval (x.setWidth 64) (y.setWidth 64)).setWidth 16 = eval x y

theorem wraps_add : Op2.Wraps .add (· + ·) := by
  intro x y
  simp [Op2.eval, BitVec.setWidth_add]

theorem wraps_sub : Op2.Wraps .sub (· - ·) := word_sub

theorem wraps_mul : Op2.Wraps .mul (· * ·) := by
  intro x y
  simp [Op2.eval, BitVec.setWidth_mul]

/-- The condition tests what `test` does. -/
def Cond.Tests (c : Cond) (test : Short → Short → Bool) : Prop :=
  ∀ x y : Short, c.holds (.compare (x.setWidth 64) (y.setWidth 64)) = test x y

theorem tests_equal : Cond.Tests .equal (· == ·) := word_beq

theorem tests_notEqual : Cond.Tests .notEqual (· != ·) := by
  intro x y
  exact congrArg (! ·) (word_beq x y)

theorem tests_less : Cond.Tests .less fun x y => x < y := word_ult

theorem tests_greater : Cond.Tests .greater fun x y => y < x := fun x y => word_ult y x

end Words

/-! ## The opcodes -/

section Opcodes

variable {E : Env} {σ₀ : Mach} {W : World} {fuel : ℕ} {rs : List Request} {op : Byte} {pc : Short}
  {ops : List (OpReg × Word)} {q : Ctx × Given} {f : Uxn.Frame}

/-- In the course of an opcode, whatever the operands are. -/
def Within (E : Env) (σ₀ : Mach) (W : World) (op : Byte) (pc : Short) (q : Ctx × Given)
    (f : Uxn.Frame) : Prop := ∃ ops, InStep E σ₀ W op pc ops q f

theorem InStep.within (h : InStep E σ₀ W op pc ops q f) : Within E σ₀ W op pc q f := ⟨ops, h⟩

/-- The push that an opcode ends with. -/
theorem coupled_lastPush (h : InStep E σ₀ W op pc ops q f) {isShort : Bool} {o : Operand OpReg}
    {v : Short} (hsize : o.isShort = isShort) (ho : (o.reg, narrow isShort v) ∈ ops) :
    Coupled (translating E σ₀ fuel rs) (Emit.push o) (Uxn.push (opStack op) isShort v)
      (fun _ _ => Within E σ₀ W op pc) q f :=
  (coupled_push h hsize ho).mono fun _ _ _ _ h => h.within

theorem coupled_arith (h : Drawing E σ₀ W op pc [] q f) (k : Op2) (eval : Short → Short → Short)
    (wraps : Bool) (hwraps : wraps = true → k.Wraps eval) (hdoes : wraps = false → k.Does eval) :
    Coupled (translating E σ₀ fuel rs) (Emit.arith k eval wraps)
      (Uxn.opcode.arith (opFlag2 op) (opStack op) eval) (fun _ _ => Within E σ₀ W op pc) q f := by
  refine coupled_bind (coupled_pop h) fun b y q f ⟨h, hb⟩ => ?_
  refine coupled_bind (coupled_pop h) fun a x q f ⟨h, ha⟩ => ?_
  refine coupled_allocReg h.toInStep fun reg w₀ q h => ?_
  refine coupled_own h (w := k.eval (x.setWidth 64) (y.setWidth 64)) rfl ?_ fun q h => ?_
  · intro σ hrun hops
    have hx : σ.regs (.op a.reg) = x.setWidth 64 := hops (a.reg, x.setWidth 64) (by simp)
    have hy : σ.regs (.op b.reg) = y.setWidth 64 := hops (b.reg, y.setWidth 64) (by simp)
    rw [← hx, ← hy]
    exact Mach.step_op2 hrun ..
  have hpush : ∀ q ops, InStep E σ₀ W op pc ((reg, narrow (opFlag2 op) (eval x y)) :: ops) q f →
      Coupled (translating E σ₀ fuel rs)
        (Emit.push (Emit.result a b b.isShort (eval a.constValue b.constValue) reg))
        (Uxn.push (opStack op) (opFlag2 op) (eval x y)) (fun _ _ => Within E σ₀ W op pc) q f := by
    intro q ops h
    exact coupled_lastPush h hb.size List.mem_cons_self
  cases wraps with
  | true =>
    refine coupled_wrapAround h fun q h => ?_
    rw [hwraps rfl] at h
    exact hpush q _ h
  | false =>
    rw [ha.value, hb.value, hdoes rfl] at h
    exact hpush q _ h

theorem coupled_compare (h : Drawing E σ₀ W op pc [] q f) (cond : Cond) {test : Short → Short → Bool}
    (htest : cond.Tests test) : Coupled (translating E σ₀ fuel rs) (Emit.compareOp cond)
      (Uxn.opcode.compare (opFlag2 op) (opStack op) test) (fun _ _ => Within E σ₀ W op pc) q f := by
  refine coupled_bind (coupled_pop h) fun b y q f ⟨h, hb⟩ => ?_
  refine coupled_bind (coupled_pop h) fun a x q f ⟨h, ha⟩ => ?_
  refine coupled_allocReg h.toInStep fun reg w₀ q h => ?_
  have hbyte : Uxn.pushByte (opStack op) (if test x y then 1 else 0) =
      Uxn.push (opStack op) false (if test x y then 1 else 0) := by
    cases test x y <;> rfl
  rw [hbyte]
  refine coupled_ownTwo h (w := narrow false (if test x y then 1 else 0)) (by simp [Alu.dst]) rfl ?_
    fun q h => coupled_lastPush h rfl List.mem_cons_self
  intro σ hrun hops
  have hx : σ.regs (.op a.reg) = x.setWidth 64 := hops (a.reg, x.setWidth 64) (by simp)
  have hy : σ.regs (.op b.reg) = y.setWidth 64 := hops (b.reg, y.setWidth 64) (by simp)
  have hflags : σ.step E (.subFlags (.op a.reg) (.op b.reg)) =
      { σ with flags := .compare (x.setWidth 64) (y.setWidth 64) } := by
    rw [Mach.step_running hrun, ← hx, ← hy]
    rfl
  rw [Alu.instr, hflags, Alu.instr, Mach.step_running]
  · show (Function.update _ (Reg.op reg) (if cond.holds _ = true then 1 else 0)) (Reg.op reg) = _
    rw [Function.update_self, htest]
    cases test x y <;> rfl
  · exact hrun

theorem coupled_loadPush (addr : Operand OpReg) {wa : Word} {a : Short}
    (h : InStep E σ₀ W op pc ops q f) (ha : (addr.reg, wa) ∈ ops) (hwa : wa.setWidth 16 = a) :
    Coupled (translating E σ₀ fuel rs) (Emit.loadPush addr)
      (do
        let v ← Uxn.load (opFlag2 op) (if addr.isShort then 0xffff else 0xff) a
        Uxn.push (opStack op) (opFlag2 op) v)
      (fun _ _ => Within E σ₀ W op pc) q f := by
  refine coupled_allocReg h fun reg w₀ q h => ?_
  refine coupled_bind (coupled_load h ha hwa) fun _ v q f h => ?_
  refine coupled_flag2 h ?_
  exact coupled_lastPush h rfl List.mem_cons_self

theorem coupled_SFT (h : Drawing E σ₀ W op pc [] q f) : Coupled (translating E σ₀ fuel rs) Emit.SFT
    (Uxn.opcode (opFlag2 op) (opStack op) pc .SFT) (fun _ _ => Within E σ₀ W op pc) q f := by
  refine coupled_bind (coupled_popByte h) fun b shift q f ⟨h, hb⟩ => ?_
  refine coupled_bind (coupled_pop h) fun a x q f ⟨h, ha⟩ => ?_
  refine coupled_allocReg h.toInStep fun reg w₀ q h => ?_
  refine coupled_ownTwo h (w := (x.setWidth 64) >>> ((shift.setWidth 64 : Word) &&& 0x0f))
    (by simp [Alu.dst]) rfl ?_ fun q h => ?_
  · intro σ hrun hops
    have hx : σ.regs (.op a.reg) = x.setWidth 64 := hops (a.reg, x.setWidth 64) (by simp)
    have hs : σ.regs (.op b.reg) = shift.setWidth 64 := hops (b.reg, shift.setWidth 64) (by simp)
    simp [Alu.instr, Data.reg, DataSrc.src, Mach.step, hrun, Instr.exec, Mach.set, Mach.src,
      Op2.eval, hx, hs]
  refine coupled_ownTwo h (w := ((x.setWidth 64) >>> ((shift.setWidth 64 : Word) &&& 0x0f)) <<<
    ((shift.setWidth 64 : Word) >>> 4)) (by simp [Alu.dst]) rfl ?_ fun q h => ?_
  · intro σ hrun hops
    have hreg : σ.regs (.op reg) = (x.setWidth 64) >>> ((shift.setWidth 64 : Word) &&& 0x0f) :=
      hops (reg, _) List.mem_cons_self
    have hs : σ.regs (.op b.reg) = shift.setWidth 64 := hops (b.reg, shift.setWidth 64) (by simp)
    simp [Alu.instr, Data.reg, DataSrc.src, Mach.step, hrun, Instr.exec, Mach.set, Mach.src,
      Op2.eval, hreg, hs]
  refine coupled_wrapAround h fun q h => ?_
  rw [word_shift] at h
  exact coupled_lastPush h ha.size List.mem_cons_self

/-- **Every opcode but LIT.** -/
theorem coupled_dispatch (h : Drawing E σ₀ W op pc [] q f) {mn : Mnemonic} (hmn : mn.straight)
    (hlit : mn ≠ .LIT) : Coupled (translating E σ₀ fuel rs) (Emit.dispatch mn)
      (Uxn.opcode (opFlag2 op) (opStack op) pc mn) (fun _ _ => Within E σ₀ W op pc) q f := by
  cases mn with
  | INC =>
    refine coupled_bind (coupled_pop h) fun o v q f ⟨h, ho⟩ => ?_
    refine coupled_own h.toInStep (w := v.setWidth 64 + 1) rfl ?_ fun q h => ?_
    · intro σ hrun hops
      have hv : σ.regs (.op o.reg) = v.setWidth 64 := hops (o.reg, v.setWidth 64) (by simp)
      rw [← hv]
      exact Mach.step_op2 hrun ..
    refine coupled_wrapAround h fun q h => ?_
    rw [show (v.setWidth 64 + 1 : Word).setWidth 16 = v + 1 by simp [BitVec.setWidth_add]] at h
    exact coupled_lastPush h ho.size List.mem_cons_self
  | POP => exact (coupled_POP h).mono fun _ _ _ _ h => h.within
  | NIP =>
    refine coupled_bind (coupled_pop h) fun b y q f ⟨h, hb⟩ => ?_
    refine coupled_bind (coupled_POP h) fun _ _ q f h => ?_
    rw [hb.value] at h
    exact coupled_lastPush h hb.size List.mem_cons_self
  | SWP =>
    refine coupled_bind (coupled_pop h) fun b y q f ⟨h, hb⟩ => ?_
    refine coupled_bind (coupled_pop h) fun a x q f ⟨h, ha⟩ => ?_
    rw [ha.value, hb.value] at h
    refine coupled_bind (coupled_push h.toInStep hb.size (by simp)) fun _ _ q f h => ?_
    exact coupled_lastPush h ha.size (by simp)
  | ROT =>
    refine coupled_bind (coupled_pop h) fun z _ q f ⟨h, hz⟩ => ?_
    refine coupled_bind (coupled_pop h) fun b _ q f ⟨h, hb⟩ => ?_
    refine coupled_bind (coupled_pop h) fun a _ q f ⟨h, ha⟩ => ?_
    rw [ha.value, hb.value, hz.value] at h
    refine coupled_bind (coupled_push h.toInStep hb.size (by simp)) fun _ _ q f h => ?_
    refine coupled_bind (coupled_push h hz.size (by simp)) fun _ _ q f h => ?_
    exact coupled_lastPush h ha.size (by simp)
  | DUP =>
    refine coupled_bind (coupled_pop h) fun a _ q f ⟨h, ha⟩ => ?_
    rw [ha.value] at h
    refine coupled_bind (coupled_push h.toInStep ha.size (by simp)) fun _ _ q f h => ?_
    exact coupled_lastPush h ha.size (by simp)
  | OVR =>
    refine coupled_bind (coupled_pop h) fun b _ q f ⟨h, hb⟩ => ?_
    refine coupled_bind (coupled_pop h) fun a _ q f ⟨h, ha⟩ => ?_
    rw [ha.value, hb.value] at h
    refine coupled_bind (coupled_push h.toInStep ha.size (by simp)) fun _ _ q f h => ?_
    refine coupled_bind (coupled_push h hb.size (by simp)) fun _ _ q f h => ?_
    exact coupled_lastPush h ha.size (by simp)
  | EQU => exact coupled_compare h .equal tests_equal
  | NEQ => exact coupled_compare h .notEqual tests_notEqual
  | GTH => exact coupled_compare h .greater tests_greater
  | LTH => exact coupled_compare h .less tests_less
  | STH =>
    refine coupled_bind (coupled_pop h) fun a x q f ⟨h, ha⟩ => ?_
    rw [ha.value] at h
    refine coupled_cur h.toInStep ?_
    rw [h.cur]
    exact (coupled_pushEx h.toInStep (opStack op).other ha.size (by simp)).mono
      fun _ _ _ _ h => h.within
  | LDZ =>
    refine coupled_bind (coupled_popByte h) fun addr w q f ⟨h, ha⟩ => ?_
    have hsize : addr.isShort = false := ha.size
    rw [show (0xff : Short) = if addr.isShort then 0xffff else 0xff by rw [hsize]; rfl]
    exact coupled_loadPush addr h.toInStep List.mem_cons_self (by simp)
  | STZ =>
    refine coupled_bind (coupled_popByte h) fun addr w q f ⟨h, ha⟩ => ?_
    refine coupled_bind (coupled_pop h) fun value v q f ⟨h, hv⟩ => ?_
    have hsize : addr.isShort = false := ha.size
    rw [show (0xff : Short) = if addr.isShort then 0xffff else 0xff by rw [hsize]; rfl]
    have haddr : (addr.reg, w.setWidth 64) ∈ [(value.reg, v.setWidth 64), (addr.reg, w.setWidth 64)] :=
      List.mem_cons_of_mem _ List.mem_cons_self
    exact (coupled_store addr h.toInStep haddr (by simp) hv.size List.mem_cons_self).mono
      fun _ _ _ _ h => h.within
  | LDR =>
    refine coupled_bind (coupled_popByte h) fun addr w q f ⟨h, _⟩ => ?_
    refine coupled_relative h.toInStep List.mem_cons_self fun q ops wa hwa h haddr _ _ => ?_
    exact coupled_loadPush { addr with isShort := true } h haddr hwa
  | STR =>
    refine coupled_bind (coupled_popByte h) fun addr w q f ⟨h, _⟩ => ?_
    refine coupled_bind (coupled_pop h) fun value v q f ⟨h, hv⟩ => ?_
    refine coupled_relative h.toInStep (b := w) (by simp) fun q ops wa hwa h haddr hcount hrest => ?_
    -- The address is in a register of its own, since it is updated in place
    have hne : value.reg ≠ addr.reg := by
      rintro heq
      simp [heq] at hcount
    exact (coupled_store { addr with isShort := true } h haddr hwa hv.size
      (hrest _ (by simp) hne)).mono fun _ _ _ _ h => h.within
  | LDA =>
    refine coupled_cur h.toInStep ?_
    refine coupled_bind (coupled_popEx _ h true rfl) fun addr w q f ⟨h, ha⟩ => ?_
    have hsize : addr.isShort = true := ha.size
    rw [show (0xffff : Short) = if addr.isShort then 0xffff else 0xff by rw [hsize]; rfl]
    exact coupled_loadPush addr h.toInStep List.mem_cons_self (by simp)
  | STA =>
    refine coupled_cur h.toInStep ?_
    refine coupled_bind (coupled_popEx _ h true rfl) fun addr w q f ⟨h, ha⟩ => ?_
    refine coupled_bind (coupled_pop h) fun value v q f ⟨h, hv⟩ => ?_
    have hsize : addr.isShort = true := ha.size
    rw [show (0xffff : Short) = if addr.isShort then 0xffff else 0xff by rw [hsize]; rfl]
    have haddr : (addr.reg, w.setWidth 64) ∈ [(value.reg, v.setWidth 64), (addr.reg, w.setWidth 64)] :=
      List.mem_cons_of_mem _ List.mem_cons_self
    exact (coupled_store addr h.toInStep haddr (by simp) hv.size List.mem_cons_self).mono
      fun _ _ _ _ h => h.within
  | ADD => exact coupled_arith h .add _ true (fun _ => wraps_add) (by simp)
  | SUB => exact coupled_arith h .sub _ true (fun _ => wraps_sub) (by simp)
  | MUL => exact coupled_arith h .mul _ true (fun _ => wraps_mul) (by simp)
  | DIV =>
    refine coupled_bind (coupled_pop h) fun b y q f ⟨h, hb⟩ => ?_
    refine coupled_bind (coupled_pop h) fun a x q f ⟨h, ha⟩ => ?_
    refine coupled_allocReg h.toInStep fun reg w₀ q h => ?_
    refine coupled_divide h (x := x.setWidth 64) (y := y.setWidth 64) (by simp) (by simp)
      fun q h => ?_
    rw [narrow_udiv _ _ _ ha.value] at h
    exact coupled_lastPush h hb.size List.mem_cons_self
  | AND => exact coupled_arith h .and _ false (by simp) (fun _ => does_and)
  | ORA => exact coupled_arith h .or _ false (by simp) (fun _ => does_or)
  | EOR => exact coupled_arith h .xor _ false (by simp) (fun _ => does_xor)
  | SFT => exact coupled_SFT h
  | LIT => exact absurd rfl hlit
  | _ => simp [Mnemonic.straight] at hmn

/-- **A literal.** -/
theorem coupled_LIT (h : Drawing E σ₀ W op pc [] q f) : Coupled (translating E σ₀ fuel rs) Emit.LIT
    (Uxn.opcode (opFlag2 op) (opStack op) pc .LIT)
    (fun _ _ => Within E σ₀ W op (pc + if opFlag2 op then 2 else 1)) q f := by
  refine coupled_flag2 h.toInStep ?_
  refine coupled_bind (coupled_immediate h.toInStep _) fun o v q f ⟨h, ho⟩ => ?_
  exact coupled_lastPush h ho List.mem_cons_self

end Opcodes

end BuxnJit
