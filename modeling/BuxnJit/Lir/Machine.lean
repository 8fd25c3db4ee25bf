import Mathlib.Data.BitVec

/-!
# The target: native code as the JIT emits it

The part of sljit's instruction set that `jit.c` uses, on 64-bit registers. Emitted code has
forward jumps only (the trampoline apart), so that executing it is a fold over the instructions:
a taken jump puts the machine in the state `skipping l`, in which every instruction but `label l`
is passed over, and an instruction that leaves the block puts it in the state `left`.

Memory is `buxn_vm_t`, whose arrays lie at the offsets of a `Layout`, inside a larger address
space. An access resolves the address held by the base and the offset register, so that a wrong
base reads and writes another array, as it does in the program.
-/

namespace BuxnJit

abbrev Byte := BitVec 8
abbrev Short := BitVec 16
abbrev Word := BitVec 64

/-! ## Registers and memory -/

/-- The two stacks of the virtual machine. -/
inductive Stk
  | wst | rst
  deriving DecidableEq

def Stk.other : Stk → Stk
  | .wst => .rst
  | .rst => .wst

theorem Stk.eq_or_eq_other (s s' : Stk) : s' = s ∨ s' = s.other := by
  cases s <;> cases s' <;> simp [other]

@[simp] theorem Stk.other_ne (s : Stk) : s.other ≠ s := by
  cases s <;> simp [other]

@[simp] theorem Stk.ne_other (s : Stk) : s ≠ s.other := (other_ne s).symm

/-- The members of `buxn_vm_t` that native code addresses. -/
inductive Region
  | wsp | rsp | ws | rs | device | memory
  deriving DecidableEq

def Region.size : Region → ℕ
  | .wsp | .rsp => 1
  | .ws | .rs | .device => 256
  | .memory => 65536

/-- The array of a stack. -/
def Stk.region : Stk → Region
  | .wst => .ws
  | .rst => .rs

/-- The operand registers `BUXN_JIT_R_OP_0` to `BUXN_JIT_R_OP_5`. -/
abbrev OpReg := Fin 6

/-- `BUXN_JIT_R_*` and, saved across calls, `BUXN_JIT_S_*`. The first two double as `SLJIT_R0`
and `SLJIT_R1`. -/
inductive Reg
  | memBase | memOffset | tmp
  | op (i : OpReg)
  | vm | sp (s : Stk)
  deriving DecidableEq

structure Memory where
  cells : Region → Short → Byte
  heap : Word → Byte

/-- Where the members of `buxn_vm_t` lie. -/
structure Layout where
  vm : Word
  off : Region → ℕ
  pos : ∀ r, 0 < off r
  disjoint : ∀ r r', r ≠ r' → off r + r.size ≤ off r' ∨ off r' + r'.size ≤ off r
  fits : ∀ r, vm.toNat + off r + r.size ≤ 2 ^ 64

namespace Layout

variable (L : Layout)

def base (r : Region) : Word := L.vm + BitVec.ofNat 64 (L.off r)

/-- The member of `buxn_vm_t` and the index in it that an address belongs to. -/
def resolve (a : Word) : Option (Region × Short) :=
  let d := a.toNat - L.vm.toNat
  ([.wsp, .rsp, .ws, .rs, .device, .memory].find? fun r =>
    decide (L.vm.toNat + L.off r ≤ a.toNat ∧ a.toNat < L.vm.toNat + L.off r + r.size)).map
    fun r => (r, BitVec.ofNat 16 (d - L.off r))

def read (m : Memory) (a : Word) : Byte :=
  match L.resolve a with
  | some (r, i) => m.cells r i
  | none => m.heap a

def write (m : Memory) (a : Word) (b : Byte) : Memory :=
  match L.resolve a with
  | some (r, i) => { m with cells := Function.update m.cells r (Function.update (m.cells r) i b) }
  | none => { m with heap := Function.update m.heap a b }

theorem toNat_base (r : Region) : (L.base r).toNat = L.vm.toNat + L.off r := by
  have hfits := L.fits r
  have hsize : 0 < r.size := by cases r <;> decide
  rw [base, BitVec.toNat_add, BitVec.toNat_ofNat]
  omega

/-- **Addresses inside a member resolve to it**: the members do not overlap. -/
theorem resolve_base (r : Region) (i : Short) (hi : i.toNat < r.size) :
    L.resolve (L.base r + i.setWidth 64) = some (r, i) := by
  have hfits := L.fits r
  have haddr : (L.base r + i.setWidth 64).toNat = L.vm.toNat + L.off r + i.toNat := by
    rw [BitVec.toNat_add, BitVec.toNat_setWidth, toNat_base]
    omega
  have hin : ∀ r', L.vm.toNat + L.off r' ≤ (L.base r + i.setWidth 64).toNat ∧
      (L.base r + i.setWidth 64).toNat < L.vm.toNat + L.off r' + r'.size ↔ r' = r := by
    intro r'
    rw [haddr]
    constructor
    · intro h
      by_contra hne
      have := L.disjoint r' r hne
      omega
    · rintro rfl
      omega
  have hidx : (L.base r + i.setWidth 64).toNat - L.vm.toNat - L.off r = i.toNat := by omega
  have hfind : [Region.wsp, .rsp, .ws, .rs, .device, .memory].find? (fun r' => decide (r' = r)) =
      some r := by cases r <;> rfl
  simp only [resolve, hin, hfind, Option.map_some, hidx, BitVec.ofNat_toNat, BitVec.setWidth_eq]

theorem read_base (m : Memory) (r : Region) (i : Short) (hi : i.toNat < r.size) :
    L.read m (L.base r + i.setWidth 64) = m.cells r i := by
  rw [read, L.resolve_base r i hi]

theorem write_base (m : Memory) (r : Region) (i : Short) (b : Byte) (hi : i.toNat < r.size) :
    L.write m (L.base r + i.setWidth 64) b =
      { m with cells := Function.update m.cells r (Function.update (m.cells r) i b) } := by
  rw [write, L.resolve_base r i hi]

/-- The members one after the other, behind a field of 16 bytes. -/
def packed : Layout where
  vm := 0x1000
  off
    | .wsp => 16
    | .rsp => 17
    | .ws => 32
    | .rs => 288
    | .device => 544
    | .memory => 800
  pos r := by cases r <;> decide
  disjoint r r' h := by
    cases r <;> cases r' <;> first | exact absurd rfl h | decide
  fits r := by cases r <;> decide

instance : Inhabited Layout := ⟨packed⟩

end Layout

/-! ## Instructions -/

abbrev Label := ℕ

/-- A source operand: a register, an immediate, or `SLJIT_OFFSETOF(buxn_vm_t, r)`. -/
inductive Src
  | reg (r : Reg)
  | imm (w : Word)
  | off (r : Region)

inductive Op1
  | mov | movU8 | movU16 | movS8 | revU16

inductive Op2
  | add | sub | mul | and | or | xor | shl | lshr

inductive Cond
  | equal | notEqual | less | greater

/-- The C functions called from native code. -/
inductive Helper
  | dei | dei2 | deo | deo2

/-- The instructions, each named after the sljit call that emits it. The memory operand of `loadU8`,
`loadU16` and `storeU8` is always `BUXN_JIT_MEM()`; they record the array the emitter means, which
the execution ignores. -/
inductive Instr
  | op1 (k : Op1) (dst : Reg) (src : Src)
  | op2 (k : Op2) (dst a : Reg) (b : Src)
  | loadU8 (dst : Reg) (meant : Region)
  | loadU16 (dst : Reg) (meant : Region)
  | storeU8 (meant : Region) (src : Reg)
  /-- `MOV_U8` between a register and `SLJIT_MEM1(S_VM)` at a member's offset. -/
  | loadVm (dst : Reg) (r : Region)
  | storeVm (r : Region) (src : Reg)
  /-- `op2u` with `SLJIT_SUB`, and with `SLJIT_AND`: only the flags are set. -/
  | subFlags (a b : Reg)
  | andFlags (a : Reg) (w : Word)
  | opFlags (dst : Reg) (c : Cond)
  | divUW
  | jumpFlag (c : Cond) (l : Label)
  | cmpJump (c : Cond) (a : Reg) (b : Src) (l : Label)
  | jump (l : Label)
  | label (l : Label)
  /-- A rewritable jump, by its identity, and its form guarded by a comparison for equality. -/
  | linkJump (j : Label)
  | linkCmp (a : Reg) (w : Word) (j : Label)
  | call (j : Label)
  | icall (h : Helper)
  | ret (src : Src)

/-! ## Execution -/

structure Flags where
  zero : Bool
  less : Bool
  greater : Bool

def Flags.compare (a b : Word) : Flags where
  zero := a == b
  less := a.ult b
  greater := b.ult a

def Cond.holds (f : Flags) : Cond → Bool
  | .equal => f.zero
  | .notEqual => !f.zero
  | .less => f.less
  | .greater => f.greater

/-- How the control leaves a block: by returning a 32-bit value, or along a rewritable jump. -/
inductive Exit
  | ret (v : BitVec 32)
  | link (j : Label)
  deriving DecidableEq

inductive Status
  | running
  | skipping (l : Label)
  | left (e : Exit)
  deriving DecidableEq

/-- A call of `buxn_vm_dei` or `buxn_vm_deo`, with the memory it found. -/
structure DeviceCall where
  isOut : Bool
  addr : Byte
  mem : Memory

structure Mach where
  regs : Reg → Word
  mem : Memory
  flags : Flags
  status : Status
  /-- The device calls made so far, the latest first. -/
  trace : List DeviceCall

/-- What a block does not determine: the layout of `buxn_vm_t`, the host's device handlers, which
may change memory in any way, the contents of scratch registers after a call, and the machine as a
called block leaves it. -/
structure Env where
  layout : Layout
  dei : Memory → Byte → Byte × Memory
  deo : Memory → Byte → Memory
  clobber : Mach → Reg → Word
  call : Label → Mach → Mach

/-- Devices that do nothing, and calls that return at once. -/
instance : Inhabited Env where
  default := ⟨default, fun m _ => (0, m), fun m _ => m, Mach.regs, fun _ σ => σ⟩

namespace Mach

/-- A machine about to run code on a virtual machine with the given contents. -/
def start (E : Env) (cells : Region → Short → Byte) : Mach where
  regs
    | .vm => E.layout.vm
    | _ => 0
  mem := ⟨cells, fun _ => 0⟩
  flags := .compare 0 0
  status := .running
  trace := []

def set (r : Reg) (w : Word) (σ : Mach) : Mach := { σ with regs := Function.update σ.regs r w }

def src (L : Layout) (σ : Mach) : Src → Word
  | .reg r => σ.regs r
  | .imm w => w
  | .off r => BitVec.ofNat 64 (L.off r)

/-- The address of the operand `BUXN_JIT_MEM()`. -/
def addr (σ : Mach) : Word := σ.regs .memBase + σ.regs .memOffset

/-- The address `SLJIT_MEM1(S_VM)` at a member's offset. -/
def vmAddr (σ : Mach) (L : Layout) (r : Region) : Word := σ.regs .vm + BitVec.ofNat 64 (L.off r)

end Mach

def Op1.eval (w : Word) : Op1 → Word
  | .mov => w
  | .movU8 => (w.setWidth 8).setWidth 64
  | .movU16 => (w.setWidth 16).setWidth 64
  | .movS8 => (w.setWidth 8).signExtend 64
  | .revU16 => (w.setWidth 8 ++ (w >>> 8).setWidth 8 : Short).setWidth 64

def Op2.eval (a b : Word) : Op2 → Word
  | .add => a + b
  | .sub => a - b
  | .mul => a * b
  | .and => a &&& b
  | .or => a ||| b
  | .xor => a ^^^ b
  | .shl => a <<< b
  | .lshr => a >>> b

variable (E : Env)

def deiCall (m : Memory) (t : List DeviceCall) (a : Byte) : Byte × Memory × List DeviceCall :=
  ((E.dei m a).1, (E.dei m a).2, ⟨false, a, m⟩ :: t)

def deoCall (m : Memory) (t : List DeviceCall) (a : Byte) : Memory × List DeviceCall :=
  (E.deo m a, ⟨true, a, m⟩ :: t)

/-- `buxn_jit_dei_helper` and its three siblings: the value returned, the memory and the calls. -/
def Helper.run (m : Memory) (t : List DeviceCall) (a : Byte) :
    Helper → Word × Memory × List DeviceCall
  | .dei =>
    let (b, m, t) := deiCall E m t a
    (b.setWidth 64, m, t)
  | .dei2 =>
    let (hi, m, t) := deiCall E m t a
    let (lo, m, t) := deiCall E m t (a + 1)
    ((hi ++ lo : Short).setWidth 64, m, t)
  | .deo =>
    let (m, t) := deoCall E m t a
    (0, m, t)
  | .deo2 =>
    let (m, t) := deoCall E m t a
    let (m, t) := deoCall E m t (a + 1)
    (0, m, t)

/-- A called function keeps the saved registers. -/
def Mach.afterICall (σ : Mach) (r : Word × Memory × List DeviceCall) : Mach :=
  { σ with
    regs := fun x => match x with
      | .memBase => r.1
      | .vm => σ.regs .vm
      | .sp s => σ.regs (.sp s)
      | x => E.clobber σ x
    mem := r.2.1
    trace := r.2.2 }

/-- The effect of one instruction that is executed. -/
def Instr.exec (σ : Mach) : Instr → Mach
  | .op1 k dst a => σ.set dst (k.eval (σ.src E.layout a))
  | .op2 k dst a b => σ.set dst (k.eval (σ.regs a) (σ.src E.layout b))
  | .loadU8 dst _ => σ.set dst ((E.layout.read σ.mem σ.addr).setWidth 64)
  | .loadU16 dst _ =>
    σ.set dst ((E.layout.read σ.mem (σ.addr + 1) ++ E.layout.read σ.mem σ.addr : Short).setWidth 64)
  | .storeU8 _ a => { σ with mem := E.layout.write σ.mem σ.addr ((σ.regs a).setWidth 8) }
  | .loadVm dst r =>
    σ.set dst ((E.layout.read σ.mem (σ.vmAddr E.layout r)).setWidth 64)
  | .storeVm r a =>
    { σ with mem := E.layout.write σ.mem (σ.vmAddr E.layout r) ((σ.regs a).setWidth 8) }
  | .subFlags a b => { σ with flags := .compare (σ.regs a) (σ.regs b) }
  | .andFlags a w => { σ with flags := .compare (σ.regs a &&& w) 0 }
  | .opFlags dst c => σ.set dst (if c.holds σ.flags then 1 else 0)
  | .divUW => σ.set .memBase (σ.regs .memBase / σ.regs .memOffset)
  | .jumpFlag c l => if c.holds σ.flags then { σ with status := .skipping l } else σ
  | .cmpJump c a b l =>
    if c.holds (.compare (σ.regs a) (σ.src E.layout b)) then { σ with status := .skipping l } else σ
  | .jump l => { σ with status := .skipping l }
  | .label _ => σ
  | .linkJump j => { σ with status := .left (.link j) }
  | .linkCmp a w j => if σ.regs a = w then { σ with status := .left (.link j) } else σ
  | .call j =>
    let τ := E.call j σ
    { τ with regs := Function.update τ.regs .vm (σ.regs .vm), status := .running }
  | .icall h => σ.afterICall E (h.run E σ.mem σ.trace ((σ.regs .memOffset).setWidth 8))
  | .ret a => { σ with status := .left (.ret ((σ.src E.layout a).setWidth 32)) }

/-- One instruction of the code: executed, passed over, or not reached. -/
def Mach.step (i : Instr) (σ : Mach) : Mach :=
  match σ.status with
  | .running => i.exec E σ
  | .skipping l =>
    match i with
    | .label l' => if l = l' then { σ with status := .running } else σ
    | _ => σ
  | .left _ => σ

/-- The machine after the code, which lists the latest instruction first. -/
def Mach.exec (code : List Instr) (σ : Mach) : Mach := code.foldr (Mach.step E) σ

variable {E}

@[simp] theorem Mach.exec_nil (σ : Mach) : Mach.exec E [] σ = σ := rfl

@[simp] theorem Mach.exec_cons (i : Instr) (code : List Instr) (σ : Mach) :
    Mach.exec E (i :: code) σ = (Mach.exec E code σ).step E i := rfl

theorem Mach.exec_append (c d : List Instr) (σ : Mach) :
    Mach.exec E (c ++ d) σ = Mach.exec E c (Mach.exec E d σ) := List.foldr_append

theorem Mach.step_running {σ : Mach} (h : σ.status = .running) (i : Instr) :
    σ.step E i = i.exec E σ := by
  simp [Mach.step, h]

/-! ## Local instructions -/

/-- The register that is written. -/
@[simp] def Instr.dst : Instr → Option Reg
  | .op1 _ dst _ | .op2 _ dst _ _ | .loadU8 dst _ | .loadU16 dst _ | .loadVm dst _
  | .opFlags dst _ => some dst
  | .divUW => some .memBase
  | _ => none

/-- The array that an access through `BUXN_JIT_MEM()` is meant for. -/
@[simp] def Instr.meant : Instr → Option Region
  | .loadU8 _ r | .loadU16 _ r | .storeU8 r _ => some r
  | _ => none

/-- Whether the instruction can change the order of execution, or is the target of a jump. -/
@[simp] def Instr.control : Instr → Bool
  | .jumpFlag .. | .cmpJump .. | .jump _ | .label _ | .linkJump _ | .linkCmp .. | .call _
  | .icall _ | .ret _ => true
  | _ => false

/-- The instruction only computes, and leaves the base of memory accesses alone. -/
structure Instr.Local (i : Instr) : Prop where
  control : i.control = false
  base : i.dst ≠ some .memBase
  vm : i.dst ≠ some .vm

/-- Execution goes on behind the instruction. -/
def Instr.Continues (i : Instr) : Prop := i.control = false

/-- The instruction leaves the register alone. -/
def Instr.Spares (i : Instr) (r : Reg) : Prop := i.dst ≠ some r

section

variable (d r a : Reg) (b : Src) (k₁ : Op1) (k₂ : Op2) (m : Region) (c : Cond) (w : Word)

@[simp] theorem continues_op1 : (Instr.op1 k₁ d b).Continues := rfl
@[simp] theorem continues_op2 : (Instr.op2 k₂ d a b).Continues := rfl
@[simp] theorem continues_loadU8 : (Instr.loadU8 d m).Continues := rfl
@[simp] theorem continues_loadU16 : (Instr.loadU16 d m).Continues := rfl
@[simp] theorem continues_storeU8 : (Instr.storeU8 m a).Continues := rfl
@[simp] theorem continues_subFlags : (Instr.subFlags d a).Continues := rfl
@[simp] theorem continues_opFlags : (Instr.opFlags d c).Continues := rfl

@[simp] theorem spares_op1 : (Instr.op1 k₁ d b).Spares r ↔ d ≠ r := by simp [Instr.Spares]
@[simp] theorem spares_op2 : (Instr.op2 k₂ d a b).Spares r ↔ d ≠ r := by simp [Instr.Spares]
@[simp] theorem spares_loadU8 : (Instr.loadU8 d m).Spares r ↔ d ≠ r := by simp [Instr.Spares]
@[simp] theorem spares_loadU16 : (Instr.loadU16 d m).Spares r ↔ d ≠ r := by simp [Instr.Spares]
@[simp] theorem spares_storeU8 : (Instr.storeU8 m a).Spares r := by simp [Instr.Spares]
@[simp] theorem spares_subFlags : (Instr.subFlags d a).Spares r := by simp [Instr.Spares]
@[simp] theorem spares_opFlags : (Instr.opFlags d c).Spares r ↔ d ≠ r := by simp [Instr.Spares]

end

namespace Mach

variable {σ : Mach} {i : Instr}

theorem step_left {e : Exit} (h : σ.status = .left e) (i : Instr) : σ.step E i = σ := by
  simp [step, h]

theorem step_skipping {l : Label} (h : σ.status = .skipping l) (hi : i ≠ .label l) :
    σ.step E i = σ := by
  unfold step
  rw [h]
  cases i with
  | label l' => simp [show l ≠ l' from fun he => hi (he ▸ rfl)]
  | _ => rfl

/-- Outside of running code an instruction that is not a label does nothing. -/
theorem step_of_not_running (h : σ.status ≠ .running) (hi : i.control = false) :
    σ.step E i = σ := by
  cases hs : σ.status with
  | running => exact absurd hs h
  | skipping l => exact step_skipping hs (by rintro rfl; simp at hi)
  | left e => exact step_left hs i

theorem step_status (hi : i.control = false) : (σ.step E i).status = σ.status := by
  by_cases h : σ.status = .running
  · rw [step_running h]
    cases i <;> first | rfl | simp at hi
  · rw [step_of_not_running h hi]

theorem step_regs {r : Reg} (hi : i.control = false) (hr : i.dst ≠ some r) :
    (σ.step E i).regs r = σ.regs r := by
  by_cases h : σ.status = .running
  · rw [step_running h]
    cases i <;> first
      | rfl
      | simp at hi; done
      | exact Function.update_of_ne (fun he : r = _ => hr (by simp [he])) _ _
  · rw [step_of_not_running h hi]

end Mach

end BuxnJit
