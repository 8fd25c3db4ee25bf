import BuxnJit.Foundations.CircularStack
import BuxnJit.Jit.Depth
import BuxnJit.Jit.Footprint

/-!
# What code reads and writes

The effect of generated code on the memory of the virtual machine, where the base register holds
the array that is meant: a push writes the bytes of its operand behind the stack pointer
(`writes_doPush`), a pop reads them back (`popCode_value`), loads and stores access `vm->memory` at
the 16 low bits of their address.
-/

namespace BuxnJit

open Foundations

/-! ## Bytes of words -/

section Words

variable (v : Short) (h l : Byte)

@[simp] theorem word_lo : (v.setWidth 64 : Word).setWidth 8 = Uxn.lo v := by simp [Uxn.lo]

@[simp] theorem word_hi : ((v.setWidth 64 : Word) >>> 8).setWidth 8 = Uxn.hi v := by
  apply BitVec.eq_of_toNat_eq
  have hv := v.isLt
  simp only [Uxn.hi, BitVec.toNat_setWidth, BitVec.toNat_ushiftRight, Nat.shiftRight_eq_div_pow]
  omega

theorem word_join : (h.setWidth 64 : Word) <<< 8 ||| l.setWidth 64 = (h ++ l : Short).setWidth 64 :=
  BitVec.setWidth_append_eq_shiftLeft_setWidth_or.symm

@[simp] theorem lo_append : Uxn.lo (h ++ l) = l := BitVec.setWidth_append_eq_right

@[simp] theorem hi_append : Uxn.hi (h ++ l) = h := by
  apply BitVec.eq_of_toNat_eq
  have hh := h.isLt
  have hl := l.isLt
  rw [Uxn.hi, BitVec.toNat_setWidth, BitVec.toNat_ushiftRight, BitVec.toNat_append,
    ← Nat.shiftLeft_add_eq_or_of_lt hl, Nat.shiftLeft_eq, Nat.shiftRight_eq_div_pow]
  omega

theorem append_hi_lo : (Uxn.hi v ++ Uxn.lo v : Short) = v := by
  apply BitVec.eq_of_toNat_eq
  have hv := v.isLt
  rw [BitVec.toNat_append, ← Nat.shiftLeft_add_eq_or_of_lt (BitVec.isLt _), Uxn.hi, Uxn.lo,
    BitVec.toNat_setWidth, BitVec.toNat_setWidth, BitVec.toNat_ushiftRight, Nat.shiftLeft_eq,
    Nat.shiftRight_eq_div_pow]
  omega

theorem setWidth_pred (w : Word) : (w - 1#64).setWidth 8 = w.setWidth 8 - 1#8 := by
  simp [BitVec.sub_eq_add_neg, BitVec.setWidth_add]

end Words

/-- The byte or the short in a register, the high byte first. -/
def wordBytes (isShort : Bool) (w : Word) : List Byte :=
  if isShort then [(w >>> 8).setWidth 8, w.setWidth 8] else [w.setWidth 8]

namespace Layout

variable (L : Layout) (m : Memory) (s : Stk) (b v : Byte) (a : Short)

theorem setWidth_byte : b.setWidth 64 = (b.setWidth 16).setWidth 64 := by
  apply BitVec.eq_of_toNat_eq
  have hlt := b.isLt
  simp only [BitVec.toNat_setWidth]
  omega

theorem read_stack : L.read m (L.base s.region + b.setWidth 64) =
    m.cells s.region (b.setWidth 16) := by
  rw [setWidth_byte]
  apply L.read_base
  have hlt := b.isLt
  cases s <;> simp only [Stk.region, Region.size, BitVec.toNat_setWidth] <;> omega

theorem write_stack : L.write m (L.base s.region + b.setWidth 64) v =
    { m with
      cells := Function.update m.cells s.region
        (Function.update (m.cells s.region) (b.setWidth 16) v) } := by
  rw [setWidth_byte]
  apply L.write_base
  have hlt := b.isLt
  cases s <;> simp only [Stk.region, Region.size, BitVec.toNat_setWidth] <;> omega

theorem read_memory : L.read m (L.base .memory + a.setWidth 64) = m.cells .memory a :=
  L.read_base m .memory a a.isLt

theorem write_memory : L.write m (L.base .memory + a.setWidth 64) v =
    { m with cells := Function.update m.cells .memory (Function.update (m.cells .memory) a v) } :=
  L.write_base m .memory a v a.isLt

end Layout

/-! ## Stacks in memory -/

namespace Mach

section Results

variable {E : Env} {σ : Mach} (hrun : σ.status = .running) (d a : Reg) (b : Src) (r : Region)
include hrun

theorem step_op1 (k : Op1) :
    (σ.step E (.op1 k d b)).regs d = k.eval (σ.src E.layout b) := by
  rw [step_running hrun]
  exact Function.update_self ..

theorem step_op2 (k : Op2) :
    (σ.step E (.op2 k d a b)).regs d = k.eval (σ.regs a) (σ.src E.layout b) := by
  rw [step_running hrun]
  exact Function.update_self ..

end Results

/-- The array of a stack. -/
def stackData (σ : Mach) (s : Stk) (i : Byte) : Byte := σ.mem.cells s.region (i.setWidth 16)

/-- The pointer of a stack. -/
def stackPtr (σ : Mach) (s : Stk) : Byte := (σ.regs (.sp s)).setWidth 8

theorem stackData_congr {σ τ : Mach} (h : τ.mem = σ.mem) (s : Stk) :
    τ.stackData s = σ.stackData s := by
  funext i
  rw [stackData, h, stackData]

end Mach

/-- The bytes `bs` are pushed on the stack `s` in memory, and nothing else is written. -/
structure Writes (s : Stk) (bs : List Byte) (σ τ : Mach) : Prop where
  data : τ.stackData s = writeAll (σ.stackData s) (σ.stackPtr s) bs
  ptr : τ.stackPtr s = σ.stackPtr s + (bs.length : Byte)
  others : ∀ r, r ≠ s.region → τ.mem.cells r = σ.mem.cells r
  heap : τ.mem.heap = σ.mem.heap

namespace Writes

variable {s : Stk} {bs cs : List Byte} {σ τ υ : Mach}

theorem refl (hmem : τ.mem = σ.mem) (hptr : τ.stackPtr s = σ.stackPtr s) : Writes s [] σ τ :=
  ⟨Mach.stackData_congr hmem s, by rw [hptr]; exact (add_zero _).symm, fun r _ => by rw [hmem],
    by rw [hmem]⟩

theorem trans (h : Writes s bs σ τ) (h' : Writes s cs τ υ) : Writes s (bs ++ cs) σ υ where
  data := by rw [h'.data, h.data, h.ptr, writeAll_append]
  ptr := by rw [h'.ptr, h.ptr, List.length_append, Nat.cast_add, add_assoc]
  others r hr := (h'.others r hr).trans (h.others r hr)
  heap := h'.heap.trans h.heap

theorem before (h : Writes s [] σ τ) (h' : Writes s cs τ υ) : Writes s cs σ υ := h.trans h'

theorem after (h : Writes s bs σ τ) (h' : Writes s [] τ υ) : Writes s bs σ υ :=
  List.append_nil bs ▸ h.trans h'

end Writes

theorem stack_ne_memory (s : Stk) : Region.memory ≠ s.region := by cases s <;> simp [Stk.region]

/-- A byte is stored behind the stack pointer, which moves on. -/
theorem Mach.pushByte {E : Env} {σ : Mach} {s : Stk} (hrun : σ.status = .running)
    (hbase : σ.regs .memBase = E.layout.base s.region)
    (hoff : σ.regs .memOffset = (σ.stackPtr s).setWidth 64) (r : Reg) :
    Writes s [(σ.regs r).setWidth 8] σ
      ((σ.step E (.storeU8 s.region r)).step E (.op2 .add (.sp s) (.sp s) (.imm 1))) := by
  have hstore : σ.step E (.storeU8 s.region r) =
      { σ with
        mem := E.layout.write σ.mem (E.layout.base s.region + (σ.stackPtr s).setWidth 64)
          ((σ.regs r).setWidth 8) } := by
    rw [Mach.step_running hrun, Instr.exec, Mach.addr, hbase, hoff]
  have hadd : ∀ τ : Mach, τ.status = .running → τ.step E (.op2 .add (.sp s) (.sp s) (.imm 1)) =
      τ.set (.sp s) (τ.regs (.sp s) + 1) := by
    intro τ hτ
    rw [Mach.step_running hτ]
    rfl
  rw [hstore, Layout.write_stack, hadd]
  case a => exact hrun
  constructor
  · funext i
    rw [writeAll, writeAll_nil, Mach.stackData]
    by_cases hi : i = σ.stackPtr s
    · subst hi
      simp [Mach.set]
    · have hne : i.setWidth 16 ≠ (σ.stackPtr s).setWidth 16 := by
        intro he
        apply hi
        have hnat := congrArg BitVec.toNat he
        simp only [BitVec.toNat_setWidth] at hnat
        have := i.isLt
        have := (σ.stackPtr s).isLt
        apply BitVec.eq_of_toNat_eq
        omega
      simp [Mach.set, hi, hne, Mach.stackData]
  · simp [Mach.set, Mach.stackPtr, BitVec.setWidth_add]
  · intro r' hr'
    simp [Mach.set, hr']
  · simp [Mach.set]

namespace Gen

variable {E : Env} {σ₀ : Mach} {g g' : Gen}

/-- Code that runs on and writes no memory. -/
structure Reading (_ : Gen) (i : Instr) : Prop where
  control : i.control = false
  store : ∀ r a, i ≠ .storeU8 r a
  storeVm : ∀ r a, i ≠ .storeVm r a

theorem mem_emit {i : Instr} (hi : Reading g i) :
    ((g.emit i).mach E σ₀).mem = (g.mach E σ₀).mem := by
  obtain ⟨hcontrol, hstore, hstoreVm⟩ := hi
  rw [mach_emit]
  by_cases hrun : (g.mach E σ₀).status = .running
  · rw [Mach.step_running hrun]
    cases i with
    | storeU8 r a => exact absurd rfl (hstore r a)
    | storeVm r a => exact absurd rfl (hstoreVm r a)
    | op1 | op2 | loadU8 | loadU16 | loadVm | subFlags | andFlags | opFlags | divUW => rfl
    | _ => simp at hcontrol
  · rw [Mach.step_of_not_running hrun hcontrol]

@[simp] theorem setMemBase_mem (r : Region) :
    ((g.setMemBase r).mach E σ₀).mem = (g.mach E σ₀).mem := by
  unfold setMemBase
  split
  · rfl
  · exact mem_emit (g := g) (i := .op2 .add .memBase .vm (.off r)) ⟨rfl, by simp, by simp⟩

theorem setMemBase_regs (r : Region) {x : Reg} (hx : x ≠ .memBase) :
    ((g.setMemBase r).mach E σ₀).regs x = (g.mach E σ₀).regs x := by
  unfold setMemBase
  split
  · rfl
  · exact Mach.step_regs rfl (by simpa using hx.symm)

theorem setMemBase_op (r : Region) (i : OpReg) :
    ((g.setMemBase r).mach E σ₀).regs (.op i) = (g.mach E σ₀).regs (.op i) :=
  setMemBase_regs r (by simp)

/-- The code is about to access the byte at the pointer of the stack `s`. -/
structure AtStack (E : Env) (s : Stk) (σ : Mach) : Prop where
  running : σ.status = .running
  base : σ.regs .memBase = E.layout.base s.region
  offset : σ.regs .memOffset = (σ.stackPtr s).setWidth 64

theorem atStack_mov {s : Stk} (hrun : (g.mach E σ₀).status = .running)
    (hbase : (g.mach E σ₀).regs .memBase = E.layout.base s.region) :
    AtStack E s ((g.emit (.op1 .movU8 .memOffset (.reg (.sp s)))).mach E σ₀) := by
  rw [mach_emit, Mach.step_running hrun]
  constructor
  · exact hrun
  · simpa [Instr.exec, Mach.set] using hbase
  · simp [Instr.exec, Mach.set, Op1.eval, Mach.src, Mach.stackPtr]

/-- Instructions that compute the byte. -/
theorem AtStack.tmp {s : Stk} (h : AtStack E s (g.mach E σ₀)) (k : Op2) (a : Reg) (b : Src) :
    AtStack E s ((g.emit (.op2 k .tmp a b)).mach E σ₀) := by
  rw [mach_emit, Mach.step_running h.running]
  constructor
  · exact h.running
  · simpa [Instr.exec, Mach.set] using h.base
  · simpa [Instr.exec, Mach.set, Mach.stackPtr] using h.offset

/-- The code that pushes a register on a stack in memory. -/
def pushReg (s : Stk) (r : Reg) (g : Gen) : Gen :=
  (g.emit (.storeU8 s.region r)).emit (.op2 .add (.sp s) (.sp s) (.imm 1))

theorem mov_offset_regs (s : Stk) (r : OpReg) :
    ((g.emit (.op1 .movU8 .memOffset (.reg (.sp s)))).mach E σ₀).regs (.op r) =
      (g.mach E σ₀).regs (.op r) := Mach.step_regs rfl (by simp)

theorem writes_mov (s : Stk) : Writes s [] (g.mach E σ₀)
    ((g.emit (.op1 .movU8 .memOffset (.reg (.sp s)))).mach E σ₀) :=
  .refl (mem_emit (g := g) ⟨rfl, by simp, by simp⟩) (pointer_emit (g := g) rfl (by simp))

theorem writes_byte {s : Stk} (hrun : (g.mach E σ₀).status = .running)
    (hbase : (g.mach E σ₀).regs .memBase = E.layout.base s.region) (r : OpReg) :
    Writes s [((g.mach E σ₀).regs (.op r)).setWidth 8] (g.mach E σ₀)
      (((g.emit (.op1 .movU8 .memOffset (.reg (.sp s)))).pushReg s (.op r)).mach E σ₀) := by
  have hmov := atStack_mov hrun hbase
  have hpush := Mach.pushByte hmov.running hmov.base hmov.offset (.op r)
  rw [mov_offset_regs] at hpush
  exact (writes_mov s).before hpush

/-- A byte that is computed from a register first. -/
theorem writes_computed {s : Stk} (hrun : (g.mach E σ₀).status = .running)
    (hbase : (g.mach E σ₀).regs .memBase = E.layout.base s.region) (k : Op2) (r : OpReg) (w : Word) :
    Writes s [(k.eval ((g.mach E σ₀).regs (.op r)) w).setWidth 8] (g.mach E σ₀)
      ((((g.emit (.op1 .movU8 .memOffset (.reg (.sp s)))).emit
        (.op2 k .tmp (.op r) (.imm w))).pushReg s .tmp).mach E σ₀) := by
  have hmov := atStack_mov hrun hbase
  have htmp := hmov.tmp k (.op r) (.imm w)
  have hpush := Mach.pushByte htmp.running htmp.base htmp.offset .tmp
  have hvalue : (((g.emit (.op1 .movU8 .memOffset (.reg (.sp s)))).emit
      (.op2 k .tmp (.op r) (.imm w))).mach E σ₀).regs .tmp =
        k.eval ((g.mach E σ₀).regs (.op r)) w := by
    rw [mach_emit, Mach.step_op2 hmov.running, mov_offset_regs]
    rfl
  rw [hvalue] at hpush
  refine (writes_mov s).before (Writes.before ?_ hpush)
  exact .refl (mem_emit ⟨rfl, by simp, by simp⟩) (pointer_emit rfl (by simp))

/-- **A push** writes the bytes of its operand. -/
theorem writes_doPush (hg : Aligned E σ₀ g) (o : Operand OpReg) (s : Stk) :
    Writes s (wordBytes o.isShort ((g.mach E σ₀).regs (.op o.reg))) (g.mach E σ₀)
      ((g.doPush o s).mach E σ₀) := by
  have hset : Writes s [] (g.mach E σ₀) ((g.setMemBase s.region).mach E σ₀) :=
    .refl (setMemBase_mem _) (pointer_setMemBase _ _)
  have hreg : ((g.setMemBase s.region).mach E σ₀).regs (.op o.reg) =
      (g.mach E σ₀).regs (.op o.reg) := setMemBase_op _ _
  have hbefore := hg.setMemBase s.region
  have hbase := hbefore.tracks.base _ (setMemBase_memBase _ _)
  have hrun := hbefore.running
  rw [← hreg]
  apply hset.before
  cases hshort : o.isShort with
  | false =>
    have hcode : g.doPush o s =
        ((g.setMemBase s.region).emit (.op1 .movU8 .memOffset (.reg (.sp s)))).pushReg s
          (.op o.reg) := by
      simp [doPush, hshort, pushReg]
    rw [hcode]
    exact writes_byte hrun hbase o.reg
  | true =>
    let x : Gen := ((((g.setMemBase s.region).emit (.op1 .movU8 .memOffset (.reg (.sp s)))).emit
        (.op2 .lshr .tmp (.op o.reg) (.imm 8))).pushReg s .tmp)
    have hcode : g.doPush o s = ((x.emit (.op1 .movU8 .memOffset (.reg (.sp s)))).emit
        (.op2 .and .tmp (.op o.reg) (.imm 0xff))).pushReg s .tmp := by
      simp [doPush, hshort, pushReg, x]
    have hlocal : Emits Loose (g.setMemBase s.region) x := by
      refine (((Emits.emit .refl ?_).emit ?_).emit ?_).emit ?_ <;> exact ⟨rfl, by simp, by simp⟩
    have hx := hbefore.emits hlocal
    have hxbase : (x.mach E σ₀).regs .memBase = E.layout.base s.region :=
      hx.tracks.base _ (setMemBase_memBase _ _)
    have hxreg : (x.mach E σ₀).regs (.op o.reg) =
        ((g.setMemBase s.region).mach E σ₀).regs (.op o.reg) := by
      have htouch : Emits (Touches fun _ => False) (g.setMemBase s.region) x := by
        refine (((Emits.emit .refl ?_).emit ?_).emit ?_).emit ?_ <;> exact ⟨rfl, by simp⟩
      exact (htouch.touches E σ₀).2 o.reg id
    have hhigh := writes_computed hrun hbase .lshr o.reg 8
    have hlow := writes_computed hx.running hxbase .and o.reg 0xff
    have hmask : ∀ w : Word, (Op2.eval w 0xff .and).setWidth 8 = w.setWidth 8 := by
      intro w
      apply BitVec.eq_of_toNat_eq
      have hand : (w.toNat &&& 255) = w.toNat % 2 ^ 8 := Nat.and_two_pow_sub_one_eq_mod _ 8
      simp only [Op2.eval, BitVec.toNat_setWidth, BitVec.toNat_and]
      change (w.toNat &&& 255) % 2 ^ 8 = _
      omega
    rw [hxreg, hmask] at hlow
    rw [hcode]
    exact hhigh.trans hlow

/-! ## Pops from memory -/

/-- The code that pops a byte from a stack in memory. -/
def popByteCode (s : Stk) (sp dst : Reg) (g : Gen) : Gen :=
  ((g.emit (.op2 .sub sp sp (.imm 1))).emit (.op1 .movU8 .memOffset (.reg sp))).emit
    (.loadU8 dst s.region)

theorem mach_popByteCode {s : Stk} {sp : Reg} (dst : Reg)
    (hrun : (g.mach E σ₀).status = .running)
    (hbase : (g.mach E σ₀).regs .memBase = E.layout.base s.region) (hsp : sp ≠ .memBase) :
    (g.popByteCode s sp dst).mach E σ₀ =
      (((g.mach E σ₀).set sp ((g.mach E σ₀).regs sp - 1)).set .memOffset
        ((((g.mach E σ₀).regs sp).setWidth 8 - 1).setWidth 64)).set dst
          (((g.mach E σ₀).stackData s (((g.mach E σ₀).regs sp).setWidth 8 - 1)).setWidth 64) := by
  simp only [popByteCode, mach_emit]
  generalize g.mach E σ₀ = σ at hrun hbase
  simp [Mach.step, hrun, Instr.exec, Mach.set, Mach.src, Op1.eval, Op2.eval, Mach.addr, hsp.symm,
    hbase, setWidth_pred, Layout.read_stack, Mach.stackData]

/-- The bytes below the pointer `sp` are read, and it moves down. -/
structure Pops (s : Stk) (sp : Reg) (flag2 : Bool) (reg : OpReg) (σ τ : Mach) : Prop where
  value : τ.regs (.op reg) = if flag2 then
    (σ.stackData s ((σ.regs sp).setWidth 8 - 2) ++ σ.stackData s ((σ.regs sp).setWidth 8 - 1) :
      Short).setWidth 64 else (σ.stackData s ((σ.regs sp).setWidth 8 - 1)).setWidth 64
  ptr : (τ.regs sp).setWidth 8 = (σ.regs sp).setWidth 8 - if flag2 then 2 else 1
  mem : τ.mem = σ.mem

/-- **A pop from memory.** -/
theorem pops_popCode {s : Stk} {sp : Reg} {reg : OpReg} (hrun : (g.mach E σ₀).status = .running)
    (hbase : (g.mach E σ₀).regs .memBase = E.layout.base s.region)
    (hsp : sp ≠ .memBase ∧ sp ≠ .memOffset ∧ sp ≠ .tmp ∧ sp ≠ .op reg) (flag2 : Bool) :
    Pops s sp flag2 reg (g.mach E σ₀) ((g.popCode flag2 s sp reg).mach E σ₀) := by
  obtain ⟨hmemBase, hoffset, htmp, hreg⟩ := hsp
  have hone := mach_popByteCode (.op reg) hrun hbase hmemBase
  cases flag2 with
  | false =>
    have hcode : g.popCode false s sp reg = g.popByteCode s sp (.op reg) := rfl
    rw [hcode, hone]
    constructor
    · simp [Mach.set]
    · simp [Mach.set, hreg, hoffset, setWidth_pred]
    · rfl
  | true =>
    have hcode : g.popCode true s sp reg =
        (((g.popByteCode s sp (.op reg)).popByteCode s sp .tmp).emit
          (.op2 .shl .tmp .tmp (.imm 8))).emit (.op2 .or (.op reg) (.op reg) (.reg .tmp)) := rfl
    have hrun' : ((g.popByteCode s sp (.op reg)).mach E σ₀).status = .running := by
      rw [hone]
      exact hrun
    have hbase' : ((g.popByteCode s sp (.op reg)).mach E σ₀).regs .memBase =
        E.layout.base s.region := by
      rw [hone]
      simpa [Mach.set, hmemBase.symm] using hbase
    have htwo := mach_popByteCode .tmp hrun' hbase' hmemBase
    have hpred : ∀ b : Byte, b - 1#8 - 1#8 = b - 2#8 := by
      intro b
      rw [sub_sub]
      rfl
    rw [hcode, mach_emit, mach_emit, htwo, hone]
    generalize g.mach E σ₀ = σ at hrun
    constructor
    · simp [Mach.step, hrun, Instr.exec, Mach.set, Mach.src, Op2.eval, hreg, hreg.symm, hoffset,
        Mach.stackData, setWidth_pred, hpred, ← word_join, BitVec.or_comm]
    · simp [Mach.step, hrun, Instr.exec, Mach.set, hreg, htmp, hoffset, setWidth_pred, hpred]
    · simp [Mach.step, hrun, Instr.exec, Mach.set]

/-! ## Accesses to `vm->memory` -/

/-- The address of the second byte of a short, in the zero page or in all of the memory. -/
def nextAddr (isShort : Bool) (a : Short) : Short :=
  (a + 1) &&& if isShort then 0xffff else 0x00ff

theorem word_nextAddr (isShort : Bool) (a : Short) :
    ((a.setWidth 64 : Word) + 1#64) &&& (if isShort then 65535#64 else 255#64) =
      (nextAddr isShort a).setWidth 64 := by
  apply BitVec.eq_of_toNat_eq
  have ha := a.isLt
  have h₁ : ∀ n, n &&& 65535 = n % 2 ^ 16 := fun n => Nat.and_two_pow_sub_one_eq_mod n 16
  have h₂ : ∀ n, n &&& 255 = n % 2 ^ 8 := fun n => Nat.and_two_pow_sub_one_eq_mod n 8
  cases isShort <;>
    simp [nextAddr, BitVec.toNat_and, BitVec.toNat_add, BitVec.toNat_setWidth, h₁, h₂]

/-- The value of `m` at an address. -/
def loaded (m : Short → Byte) (isShort wide : Bool) (a : Short) : Short :=
  if isShort then m a ++ m (nextAddr wide a) else (m a).setWidth 16

/-- The contents of `m` with a value stored. -/
def stored (m : Short → Byte) (isShort wide : Bool) (a v : Short) : Short → Byte :=
  if isShort then
    Function.update (Function.update m a (Uxn.hi v)) (nextAddr wide a) (Uxn.lo v)
  else Function.update m a (Uxn.lo v)

/-- **A load** reads the value at its address. -/
theorem value_load (hg : Aligned E σ₀ g) (reg : OpReg) (addr : Operand OpReg) {a : Short}
    (ha : ((g.mach E σ₀).regs (.op addr.reg)).setWidth 16 = a) :
    ((g.load reg addr).mach E σ₀).regs (.op reg) =
      (loaded ((g.mach E σ₀).mem.cells .memory) (opFlag2 g.currentOpcode) addr.isShort a).setWidth
        64 := by
  have hbefore := hg.setMemBase .memory
  have hbase := hbefore.tracks.base _ (setMemBase_memBase _ _)
  have hrun := hbefore.running
  have hnext := word_nextAddr addr.isShort a
  unfold load
  rw [← setMemBase_op .memory] at ha
  rw [← setMemBase_mem .memory]
  simp only [emit_currentOpcode, setMemBase_currentOpcode]
  cases opFlag2 g.currentOpcode with
  | false =>
    simp only [Bool.false_eq_true, if_false, mach_emit, loaded]
    generalize (g.setMemBase .memory).mach E σ₀ = σ at hrun hbase ha
    simp [Mach.step, hrun, Instr.exec, Mach.set, Mach.src, Op1.eval, Mach.addr, hbase, ha,
      Layout.read_memory]
  | true =>
    simp only [if_true, mach_emit, loaded]
    generalize (g.setMemBase .memory).mach E σ₀ = σ at hrun hbase ha
    simp [Mach.step, hrun, Instr.exec, Mach.set, Mach.src, Op1.eval, Op2.eval, Mach.addr, hbase, ha,
      Layout.read_memory, hnext, ← word_join]

/-- `vm->memory` becomes `m`, and the other members stay as they are. -/
structure Stores (m : Short → Byte) (σ τ : Mach) : Prop where
  memory : τ.mem.cells .memory = m
  others : ∀ r, r ≠ .memory → τ.mem.cells r = σ.mem.cells r
  heap : τ.mem.heap = σ.mem.heap

/-- **A store** writes its value at its address. -/
theorem stores_store (hg : Aligned E σ₀ g) (addr value : Operand OpReg) {a v : Short}
    (ha : ((g.mach E σ₀).regs (.op addr.reg)).setWidth 16 = a)
    (hv : (g.mach E σ₀).regs (.op value.reg) = v.setWidth 64) :
    Stores (stored ((g.mach E σ₀).mem.cells .memory) value.isShort addr.isShort a v) (g.mach E σ₀)
      ((g.store addr value).mach E σ₀) := by
  have hbefore := hg.setMemBase .memory
  have hbase := hbefore.tracks.base _ (setMemBase_memBase _ _)
  have hrun := hbefore.running
  have hnext := word_nextAddr addr.isShort a
  have hmem : ((g.setMemBase .memory).mach E σ₀).mem = (g.mach E σ₀).mem := setMemBase_mem .memory
  rw [← setMemBase_op .memory] at ha hv
  suffices hstores : Stores
      (stored ((g.mach E σ₀).mem.cells .memory) value.isShort addr.isShort a v)
      ((g.setMemBase .memory).mach E σ₀) ((g.store addr value).mach E σ₀) by
    exact ⟨hstores.memory, fun r hr => by rw [hstores.others r hr, hmem], hmem ▸ hstores.heap⟩
  unfold store
  rw [← hmem]
  cases value.isShort with
  | false =>
    simp only [Bool.false_eq_true, if_false, mach_emit, stored]
    generalize (g.setMemBase .memory).mach E σ₀ = σ at hrun hbase ha hv
    constructor
    · simp [Mach.step, hrun, Instr.exec, Mach.set, Mach.src, Op1.eval, Mach.addr, hbase, ha, hv,
        Layout.write_memory, Uxn.lo]
    · intro r hr
      simp [Mach.step, hrun, Instr.exec, Mach.set, Mach.src, Op1.eval, Mach.addr, hbase, ha,
        Layout.write_memory, hr]
    · simp [Mach.step, hrun, Instr.exec, Mach.set, Mach.src, Op1.eval, Mach.addr, hbase, ha,
        Layout.write_memory]
  | true =>
    simp only [if_true, mach_emit, stored]
    generalize (g.setMemBase .memory).mach E σ₀ = σ at hrun hbase ha hv
    constructor
    · simp [Mach.step, hrun, Instr.exec, Mach.set, Mach.src, Op1.eval, Op2.eval, Mach.addr, hbase,
        ha, hv, Layout.write_memory, hnext, Uxn.lo]
    · intro r hr
      simp [Mach.step, hrun, Instr.exec, Mach.set, Mach.src, Op1.eval, Op2.eval, Mach.addr, hbase,
        ha, Layout.write_memory, hr, hnext]
    · simp [Mach.step, hrun, Instr.exec, Mach.set, Mach.src, Op1.eval, Op2.eval, Mach.addr, hbase,
        ha, Layout.write_memory, hnext]

/-- **An immediate operand** is read at its address. -/
theorem value_immediate (hg : Aligned E σ₀ g) (reg : OpReg) (isShort : Bool) (pc : Short) :
    ((g.immediate reg isShort pc).mach E σ₀).regs (.op reg) =
      (loaded ((g.mach E σ₀).mem.cells .memory) isShort true pc).setWidth 64 := by
  have hbefore := hg.setMemBase .memory
  have hbase := hbefore.tracks.base _ (setMemBase_memBase _ _)
  have hrun := hbefore.running
  have hwide : nextAddr true pc = pc + 1#16 := BitVec.and_allOnes
  unfold immediate
  rw [← setMemBase_mem .memory]
  cases isShort with
  | false =>
    simp only [Bool.false_eq_true, if_false, mach_emit, loaded]
    generalize (g.setMemBase .memory).mach E σ₀ = σ at hrun hbase
    simp [Mach.step, hrun, Instr.exec, Mach.set, Mach.src, Op1.eval, Mach.addr, hbase,
      Layout.read_memory]
  | true =>
    simp only [if_true, loaded, hwide]
    split
    next hlt =>
      have hnext : (pc.setWidth 64 : Word) + 1#64 = (pc + 1#16).setWidth 64 := by
        apply BitVec.eq_of_toNat_eq
        have hnat : pc.toNat < 65535 := by simpa using BitVec.lt_def.mp hlt
        simp only [BitVec.toNat_add, BitVec.toNat_setWidth, BitVec.toNat_ofNat]
        omega
      simp only [mach_emit]
      generalize (g.setMemBase .memory).mach E σ₀ = σ at hrun hbase
      simp only [Mach.step, hrun, Instr.exec, Mach.set, Mach.src, Op1.eval, Mach.addr]
      simp [hbase, Layout.read_memory, hnext, BitVec.add_assoc]
      exact congrArg (fun b : Byte => (b ++ σ.mem.cells .memory (pc + 1) : Short).setWidth 64)
        (lo_append _ _)
    next hge =>
      have hnext : ((pc.setWidth 64 : Word) + 1#64).setWidth 16 = pc + 1#16 := by
        simp [BitVec.setWidth_add]
      simp only [mach_emit]
      generalize (g.setMemBase .memory).mach E σ₀ = σ at hrun hbase
      simp [Mach.step, hrun, Instr.exec, Mach.set, Mach.src, Op1.eval, Op2.eval, Mach.addr, hbase,
        Layout.read_memory, hnext, ← word_join]

end Gen

end BuxnJit
