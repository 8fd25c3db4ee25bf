import BuxnJit.Foundations.Prog
import BuxnJit.Jit.Gen
import BuxnJit.Jit.Queue

/-!
# Micro operations

The operations that the opcodes are made of, as a signature `micro` with a handler on the
compilation context. Opcodes are programs over it (`Opcodes`), so that what every micro operation
preserves is preserved by every opcode.
-/

namespace BuxnJit

open Foundations

/-- `buxn_jit_value_t`. -/
structure Value where
  semantics : Semantics
  constValue : Byte
  deriving DecidableEq

/-- `buxn_jit_ctx_t`: the code generator, the address being compiled, and what is known at compile
time of the values on the two stacks. -/
structure Ctx extends Gen where
  jit : Jit
  /-- `none` once the block is finalized. -/
  compiler : Option CompilerId
  entryPc : Short
  pc : Short
  /-- `wst` and `rst`. -/
  tags : Stk → Byte → Value
  /-- `wsp` and `rsp`. -/
  ptr : Stk → Byte
  /-- The pointers that `ewsp` and `ersp` refer to when they are not `wsp` and `rsp`. -/
  shadow : Option (Stk → Byte)

/-- The registers that opcodes compute with. -/
inductive Data
  | op (i : OpReg)
  | tmp
  deriving DecidableEq

def Data.reg : Data → Reg
  | .op i => .op i
  | .tmp => .tmp

inductive DataSrc
  | reg (d : Data)
  | imm (w : Word)

def DataSrc.src : DataSrc → Src
  | .reg d => .reg d.reg
  | .imm w => .imm w

/-- The instructions on operands that the opcodes emit themselves. -/
inductive Alu
  | op1 (k : Op1) (dst : Data) (src : DataSrc)
  | op2 (k : Op2) (dst a : Data) (b : DataSrc)
  | subFlags (a b : OpReg)
  | opFlags (dst : OpReg) (c : Cond)

namespace Alu

def instr : Alu → Instr
  | op1 k dst a => .op1 k dst.reg a.src
  | op2 k dst a b => .op2 k dst.reg a.reg b.src
  | subFlags a b => .subFlags (.op a) (.op b)
  | opFlags dst c => .opFlags (.op dst) c

/-- The register that is written. -/
def dst : Alu → Option Data
  | op1 _ dst _ | op2 _ dst _ _ => some dst
  | subFlags _ _ => none
  | opFlags dst _ => some (.op dst)

end Alu

/-! ## Code of single micro operations -/

namespace Gen

/-- `buxn_jit_load`. -/
def load (reg : OpReg) (addr : Operand OpReg) (g : Gen) : Gen :=
  let g := g.setMemBase .memory
    |>.emit (.op1 .movU16 .memOffset (.reg (.op addr.reg)))
    |>.emit (.loadU8 (.op reg) .memory)
  if opFlag2 g.currentOpcode then
    g |>.emit (.op2 .shl (.op reg) (.op reg) (.imm 8))
      |>.emit (.op2 .add .memOffset .memOffset (.imm 1))
      |>.emit (.op2 .and .memOffset .memOffset (.imm (if addr.isShort then 0xffff else 0x00ff)))
      |>.emit (.loadU8 .tmp .memory)
      |>.emit (.op2 .or (.op reg) (.op reg) (.reg .tmp))
  else g

/-- `buxn_jit_store`. -/
def store (addr value : Operand OpReg) (g : Gen) : Gen :=
  let g := g.setMemBase .memory
  if value.isShort then
    g |>.emit (.op1 .movU16 .memOffset (.reg (.op addr.reg)))
      |>.emit (.op2 .lshr .tmp (.op value.reg) (.imm 8))
      |>.emit (.storeU8 .memory .tmp)
      |>.emit (.op2 .add .memOffset .memOffset (.imm 1))
      |>.emit (.op2 .and .memOffset .memOffset (.imm (if addr.isShort then 0xffff else 0x00ff)))
      |>.emit (.storeU8 .memory (.op value.reg))
  else
    g |>.emit (.op1 .movU16 .memOffset (.reg (.op addr.reg)))
      |>.emit (.storeU8 .memory (.op value.reg))

/-- The code of `buxn_jit_immediate` after the allocation, for the immediate at `pc`. -/
def immediate (reg : OpReg) (isShort : Bool) (pc : Short) (g : Gen) : Gen :=
  let g := g.setMemBase .memory
    |>.emit (.op1 .movU16 .memOffset (.imm (pc.setWidth 64)))
  if isShort then
    if pc < 0xffff then
      g |>.emit (.loadU16 (.op reg) .memory)
        |>.emit (.op1 .revU16 (.op reg) (.reg (.op reg)))
    else
      g |>.emit (.loadU8 (.op reg) .memory)
        |>.emit (.op2 .shl (.op reg) (.op reg) (.imm 8))
        |>.emit (.op1 .movU16 .memOffset (.imm (pc.setWidth 64 + 1)))
        |>.emit (.loadU8 .tmp .memory)
        |>.emit (.op2 .or (.op reg) (.op reg) (.reg .tmp))
  else g.emit (.loadU8 (.op reg) .memory)

/-- The division of `buxn_jit_DIV`, which needs the first two registers for its operands. -/
def divide (c a b : OpReg) (g : Gen) : Gen :=
  let setZero := g.labels
  let done := g.labels + 1
  { g with labels := g.labels + 2 }
    |>.emit (.cmpJump .equal (.op b) (.imm 0) setZero)
    |>.emit (.op1 .mov .tmp (.reg .memBase))
    |>.emit (.op1 .mov .memBase (.reg (.op a)))
    |>.emit (.op1 .mov .memOffset (.reg (.op b)))
    |>.emit .divUW
    |>.emit (.op1 .mov (.op c) (.reg .memBase))
    |>.emit (.op1 .mov .memBase (.reg .tmp))
    |>.emit (.jump done)
    |>.emit (.label setZero)
    |>.emit (.op1 .mov (.op c) (.imm 0))
    |>.emit (.label done)

/-- The stores of `buxn_jit_DEO` to `vm->device`. -/
def deviceStore (addr value : Operand OpReg) (g : Gen) : Gen :=
  let g := g.setMemBase .device
  if value.isShort then
    g |>.emit (.op1 .movU8 .memOffset (.reg (.op addr.reg)))
      |>.emit (.op2 .lshr .tmp (.op value.reg) (.imm 8))
      |>.emit (.storeU8 .device .tmp)
      |>.emit (.op2 .add .memOffset .memOffset (.imm 1))
      |>.emit (.op2 .and .memOffset .memOffset (.imm 0xff))
      |>.emit (.storeU8 .device (.op value.reg))
  else
    g |>.emit (.op1 .movU8 .memOffset (.reg (.op addr.reg)))
      |>.emit (.storeU8 .device (.op value.reg))

def loadState (g : Gen) : Gen :=
  g |>.emit (.loadVm (.sp .wst) .wsp) |>.emit (.loadVm (.sp .rst) .rsp)

def saveState (g : Gen) : Gen :=
  g |>.emit (.storeVm .wsp (.sp .wst)) |>.emit (.storeVm .rsp (.sp .rst))

/-- The call of a device helper in `buxn_jit_DEI` and `buxn_jit_DEO`. -/
def callDevice (h : Helper) (addr : OpReg) (result : Option OpReg) (g : Gen) : Gen :=
  let g := { g.saveState with memBase := none }
    |>.emit (.op1 .mov .memBase (.reg .vm))
    |>.emit (.op1 .mov .memOffset (.reg (.op addr)))
    |>.emit (.icall h)
  match result with
  | some r => (g.emit (.op1 .mov (.op r) (.reg .memBase))).loadState
  | none => g.loadState

end Gen

/-! ## The context -/

namespace Ctx

def lift (f : Gen → Gen) (ctx : Ctx) : Ctx := { ctx with toGen := f ctx.toGen }

def liftReg {α : Type} (f : Gen → α × Gen) (ctx : Ctx) : α × Ctx :=
  ((f ctx.toGen).1, { ctx with toGen := (f ctx.toGen).2 })

/-- `*ewsp` and `*ersp`. -/
def ePtr (ctx : Ctx) (s : Stk) : Byte :=
  match ctx.shadow with
  | none => ctx.ptr s
  | some p => p s

/-- Pop a compile-time value. -/
def popValue (s : Stk) (ctx : Ctx) : Value × Ctx :=
  let p := ctx.ePtr s - 1
  (ctx.tags s p,
    match ctx.shadow with
    | none => { ctx with ptr := Function.update ctx.ptr s p }
    | some q => { ctx with shadow := some (Function.update q s p) })

/-- Push a compile-time value. -/
def pushValue (s : Stk) (v : Value) (ctx : Ctx) : Ctx :=
  { ctx with
    tags := Function.update ctx.tags s (Function.update (ctx.tags s) (ctx.ptr s) v)
    ptr := Function.update ctx.ptr s (ctx.ptr s + 1) }

/-- The semantics and the constant of a popped operand. -/
def popSemantics (flag2 : Bool) (s : Stk) (ctx : Ctx) : (Semantics × Short) × Ctx :=
  if flag2 then
    let (lo, ctx) := ctx.popValue s
    let (hi, ctx) := ctx.popValue s
    if hi.semantics.const && lo.semantics.const then
      ((.onlyConst, hi.constValue ++ lo.constValue), ctx)
    else ((.none, 0), ctx)
  else
    let (v, ctx) := ctx.popValue s
    ((v.semantics, v.constValue.setWidth 16), ctx)

/-- `buxn_jit_pop_ex`. -/
def popEx (flag2 : Bool) (s : Stk) (ctx : Ctx) : Operand OpReg × Ctx :=
  let ((sem, c), ctx) := ctx.popSemantics flag2 s
  let (reg, ctx) := ctx.liftReg (·.stackCachePop flag2 s)
  (⟨sem, flag2, c, reg⟩, ctx)

/-- `buxn_jit_push_ex`. -/
def pushEx (operand : Operand OpReg) (s : Stk) (ctx : Ctx) : Ctx :=
  let ctx := ctx.lift fun g =>
    (g.assert (g.refCounts operand.reg != 0)).stackCachePush s operand
  if operand.isShort then
    (ctx.pushValue s ⟨operand.semantics, (operand.constValue >>> 8).setWidth 8⟩).pushValue s
      ⟨operand.semantics, operand.constValue.setWidth 8⟩
  else ctx.pushValue s ⟨operand.semantics, operand.constValue.setWidth 8⟩

/-- `buxn_jit_POP` where it is not a no-op. -/
def discard (flag2 : Bool) (s : Stk) (ctx : Ctx) : Ctx :=
  { ctx with ptr := Function.update ctx.ptr s (ctx.ptr s - if flag2 then 2 else 1) }.lift
    (·.stackCacheDiscard flag2 s)

/-- `buxn_jit_immediate`. -/
def immediate (isShort : Bool) (ctx : Ctx) : Operand OpReg × Ctx :=
  let (reg, ctx) := ctx.liftReg Gen.allocReg
  let m := ctx.jit.memory
  let c : Short := if isShort then m ctx.pc ++ m (ctx.pc + 1) else (m ctx.pc).setWidth 16
  (⟨.onlyConst, isShort, c, reg⟩,
    { ctx.lift (·.immediate reg isShort ctx.pc) with pc := ctx.pc + if isShort then 2 else 1 })

/-- `buxn_jit_immediate_jump_target`. -/
def immediateJumpTarget (ctx : Ctx) : Operand Reg × Ctx :=
  let m := ctx.jit.memory
  let c : Short := m ctx.pc ++ m (ctx.pc + 1) + (ctx.pc + 2)
  (⟨⟨true, false, true⟩, true, c, .tmp⟩,
    { ctx.lift (·.emit (.op1 .movU16 .tmp (.imm (c.setWidth 64)))) with pc := ctx.pc + 2 })

def newLabel (ctx : Ctx) : Label × Ctx := (ctx.labels, { ctx with labels := ctx.labels + 1 })

/-- The link entry of a jump to a known target. -/
def linkEntry (t : LinkType) (jump : Label) (target : Short) (ctx : Ctx) : Ctx :=
  { ctx with jit := ctx.jit.linkEntry t ⟨ctx.compiler.getD 0, jump⟩ target }

end Ctx

/-! ## The signature -/

inductive Micro
  | ask
  | popEx (flag2 : Bool) (s : Stk)
  | pushEx (operand : Operand OpReg) (s : Stk)
  | discard (flag2 : Bool) (s : Stk)
  | allocReg
  | alu (a : Alu)
  | divide (c a b : OpReg)
  | load (reg : OpReg) (addr : Operand OpReg)
  | store (addr value : Operand OpReg)
  | immediate (isShort : Bool)
  | clearStackCaches
  | deviceStore (addr value : Operand OpReg)
  | callDevice (h : Helper) (addr : OpReg) (result : Option OpReg)
  | immediateJumpTarget
  | newLabel
  /-- An instruction of a jump or a return. -/
  | emit (i : Instr)
  /-- `ctx->mem_base = 0`. -/
  | forgetMemBase
  | linkEntry (t : LinkType) (jump : Label) (target : Short)
  /-- The recursive call of `buxn_jit_next_opcode`. -/
  | nextOpcode
  /-- `ctx->compiler = compiler`. -/
  | setCompiler (c : Option CompilerId)

@[reducible] def Micro.Res : Micro → Type
  | .ask => Ctx
  | .popEx _ _ | .immediate _ => Operand OpReg
  | .allocReg => OpReg
  | .immediateJumpTarget => Operand Reg
  | .newLabel => Label
  | _ => Unit

abbrev micro : Signature := ⟨Micro, Micro.Res⟩

/-- The effect of the micro operations, where `next` compiles the next opcode. -/
def handle (next : Ctx → Ctx) : Handler micro Ctx
  | .ask, ctx => (ctx, ctx)
  | .popEx flag2 s, ctx => ctx.popEx flag2 s
  | .pushEx operand s, ctx => ((), ctx.pushEx operand s)
  | .discard flag2 s, ctx => ((), ctx.discard flag2 s)
  | .allocReg, ctx => ctx.liftReg Gen.allocReg
  | .alu a, ctx => ((), ctx.lift (·.emit a.instr))
  | .divide c a b, ctx => ((), ctx.lift (·.divide c a b))
  | .load reg addr, ctx => ((), ctx.lift (·.load reg addr))
  | .store addr value, ctx => ((), ctx.lift (·.store addr value))
  | .immediate isShort, ctx => ctx.immediate isShort
  | .clearStackCaches, ctx => ((), ctx.lift Gen.clearStackCaches)
  | .deviceStore addr value, ctx => ((), ctx.lift (·.deviceStore addr value))
  | .callDevice h addr result, ctx => ((), ctx.lift (·.callDevice h addr result))
  | .immediateJumpTarget, ctx => ctx.immediateJumpTarget
  | .newLabel, ctx => ctx.newLabel
  | .emit i, ctx => ((), ctx.lift (·.emit i))
  | .forgetMemBase, ctx => ((), ctx.lift ({ · with memBase := none }))
  | .linkEntry t jump target, ctx => ((), ctx.linkEntry t jump target)
  | .nextOpcode, ctx => ((), next ctx)
  | .setCompiler c, ctx => ((), { ctx with compiler := c })

end BuxnJit
