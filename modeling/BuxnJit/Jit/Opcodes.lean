import BuxnJit.Jit.MicroOps

/-!
# Opcodes

The emitters `buxn_jit_INC` to `buxn_jit_LIT`, as programs of micro operations, and
`buxn_jit_next_opcode`, which dispatches to them. An opcode after a boolean jump is compiled by a
recursive call; `fuel` bounds the depth of this recursion.
-/

namespace BuxnJit

open Foundations

/-! ## Decoding -/

/-- The functions that `BUXN_OPCODE_DISPATCH` selects among. -/
inductive Mnemonic
  | BRK | JCI | JMI | JSI | LIT
  | INC | POP | NIP | SWP | ROT | DUP | OVR | EQU | NEQ | GTH | LTH | JMP | JCN | JSR | STH
  | LDZ | STZ | LDR | STR | LDA | STA | DEI | DEO
  | ADD | SUB | MUL | DIV | AND | ORA | EOR | SFT
  deriving DecidableEq

def decode (op : Byte) : Mnemonic :=
  match (op &&& 0x1f).toNat with
  | 0x00 =>
    if op = 0x00 then .BRK else if op = 0x20 then .JCI else if op = 0x40 then .JMI
    else if op = 0x60 then .JSI else .LIT
  | 0x01 => .INC | 0x02 => .POP | 0x03 => .NIP | 0x04 => .SWP | 0x05 => .ROT | 0x06 => .DUP
  | 0x07 => .OVR | 0x08 => .EQU | 0x09 => .NEQ | 0x0a => .GTH | 0x0b => .LTH | 0x0c => .JMP
  | 0x0d => .JCN | 0x0e => .JSR | 0x0f => .STH | 0x10 => .LDZ | 0x11 => .STZ | 0x12 => .LDR
  | 0x13 => .STR | 0x14 => .LDA | 0x15 => .STA | 0x16 => .DEI | 0x17 => .DEO | 0x18 => .ADD
  | 0x19 => .SUB | 0x1a => .MUL | 0x1b => .DIV | 0x1c => .AND | 0x1d => .ORA | 0x1e => .EOR
  | _ => .SFT

namespace Emit

open Prog (perform)

/-! ## Shorthands -/

abbrev Op := Prog micro

def ask : Op Ctx := perform (F := micro) .ask

def popEx (flag2 : Bool) (s : Stk) : Op (Operand OpReg) := perform (F := micro) (.popEx flag2 s)

def pushEx (operand : Operand OpReg) (s : Stk) : Op Unit :=
  perform (F := micro) (.pushEx operand s)

def allocReg : Op OpReg := perform (F := micro) .allocReg

def alu (a : Alu) : Op Unit := perform (F := micro) (.alu a)

def emit (i : Instr) : Op Unit := perform (F := micro) (.emit i)

def clearStackCaches : Op Unit := perform (F := micro) .clearStackCaches

def newLabel : Op Label := perform (F := micro) .newLabel

/-- The short flag of the opcode being compiled. -/
def flag2 : Op Bool := do return opFlag2 (← ask).currentOpcode

/-- The stack that the opcode being compiled works on. -/
def cur : Op Stk := do return (← ask).cur

def push (operand : Operand OpReg) : Op Unit := do pushEx operand (← cur)

def pop : Op (Operand OpReg) := do popEx (← flag2) (← cur)

def popByte : Op (Operand OpReg) := do popEx false (← cur)

/-- `buxn_jit_wrap_around`. -/
def wrapAround (reg : OpReg) : Op Unit := do
  alu (.op2 .and (.op reg) (.op reg) (.imm (if ← flag2 then 0xffff else 0x00ff)))

def finalize : Op Unit := perform (F := micro) (.setCompiler none)

/-! ## Jumps -/

/-- `buxn_jit_jump_abs`. -/
def jumpAbs (target : Operand Reg) (returnAddr : Short) : Op Unit := do
  if target.semantics.const then
    if returnAddr = 0 then
      let jump ← newLabel
      if target.semantics.immJmp then
        emit (.linkJump jump)
      else
        -- Recheck assumed constant value before jumping
        emit (.linkCmp target.reg (target.constValue.setWidth 64) jump)
      perform (F := micro) (.linkEntry .toBody jump target.constValue)
      emit (.ret (.reg target.reg))
    else
      let skipCall ← newLabel
      if !target.semantics.immJmp then
        -- Recheck assumed constant value before calling
        emit (.cmpJump .notEqual target.reg (.imm (target.constValue.setWidth 64)) skipCall)
      perform (F := micro) .forgetMemBase
      let call ← newLabel
      emit (.call call)
      -- If the return address is not as expected, trampoline
      let exit ← newLabel
      emit (.cmpJump .equal .memBase (.imm (returnAddr.setWidth 64)) exit)
      emit (.ret (.reg .memBase))
      if !target.semantics.immJmp then
        emit (.label skipCall)
      perform (F := micro) (.linkEntry .toHead call target.constValue)
      emit (.ret (.reg target.reg))
      emit (.label exit)
  else
    -- Return to trampoline
    emit (.ret (.reg target.reg))

/-- `buxn_jit_jump` by a boolean: the next opcode is skipped or not. -/
def jumpBoolean (target : Operand Reg) : Op Unit := do
  -- Save the compiler, since the next opcode may finalize the block
  let compiler := (← ask).compiler
  let skipNextOpcode ← newLabel
  emit (.cmpJump .notEqual target.reg (.imm 0) skipNextOpcode)
  perform (F := micro) .nextOpcode
  perform (F := micro) (.setCompiler compiler)
  clearStackCaches
  emit (.label skipNextOpcode)

/-- `buxn_jit_jump` by any other byte. -/
def jumpRelative (target : Operand Reg) (returnAddr : Short) : Op Unit := do
  let pc := (← ask).pc
  emit (.op1 .movS8 target.reg (.reg target.reg))
  emit (.op2 .add target.reg target.reg (.imm (pc.setWidth 64)))
  jumpAbs { target with constValue := pc + (target.constValue.setWidth 8).signExtend 16 } returnAddr

/-- `buxn_jit_jump`. -/
def jump (target : Operand Reg) (returnAddr : Short) : Op Unit := do
  clearStackCaches
  if target.isShort then jumpAbs target returnAddr
  else if target.semantics.boolean then jumpBoolean target
  else jumpRelative target returnAddr

/-- `buxn_jit_conditional_jump`. -/
def conditionalJump (condition : Operand OpReg) (target : Operand Reg) : Op Unit := do
  clearStackCaches
  emit (.andFlags (.op condition.reg) 0xff)
  let skipJump ← newLabel
  emit (.jumpFlag .equal skipJump)
  jump target 0
  emit (.label skipJump)

/-- A popped operand as a jump target. -/
def target (o : Operand OpReg) : Operand Reg := { o with reg := .op o.reg }

/-! ## The opcodes -/

def BRK : Op Unit := do
  clearStackCaches
  emit (.ret (.imm 0x10000))
  finalize

def INC : Op Unit := do
  let operand ← pop
  let operand := { operand with
    semantics := { operand.semantics with boolean := false }
    constValue := if operand.semantics.const then operand.constValue + 1 else operand.constValue }
  alu (.op2 .add (.op operand.reg) (.op operand.reg) (.imm 1))
  wrapAround operand.reg
  push operand

def POP : Op Unit := do
  -- POPk is nop
  if opFlagK (← ask).currentOpcode then return
  perform (F := micro) (.discard (← flag2) (← cur))

def NIP : Op Unit := do
  let b ← pop
  POP
  push b

def SWP : Op Unit := do
  let b ← pop
  let a ← pop
  push b
  push a

def ROT : Op Unit := do
  let c ← pop
  let b ← pop
  let a ← pop
  push b
  push c
  push a

def DUP : Op Unit := do
  let a ← pop
  push a
  push a

def OVR : Op Unit := do
  let b ← pop
  let a ← pop
  push a
  push b
  push a

/-- EQU, NEQ, GTH and LTH, which differ in the flag they read. -/
def compareOp (cond : Cond) : Op Unit := do
  let b ← pop
  let a ← pop
  let reg ← allocReg
  alu (.subFlags a.reg b.reg)
  alu (.opFlags reg cond)
  push ⟨.onlyBoolean, false, 0, reg⟩

def EQU : Op Unit := compareOp .equal
def NEQ : Op Unit := compareOp .notEqual
def GTH : Op Unit := compareOp .greater
def LTH : Op Unit := compareOp .less

def JMP : Op Unit := do
  let o ← pop
  jump (target o) 0
  if !o.semantics.boolean then finalize

def JCN : Op Unit := do
  let o ← pop
  let condition ← popByte
  conditionalJump condition (target o)

/-- Push the return address, and jump. -/
def callTo (target : Operand Reg) (s : Stk) : Op Unit := do
  let reg ← allocReg
  let pc := (← ask).pc
  alu (.op1 .movU16 (.op reg) (.imm (pc.setWidth 64)))
  pushEx ⟨.none, true, 0, reg⟩ s
  jump target (← ask).pc

def JSR : Op Unit := do
  let o ← pop
  callTo (target o) (← cur).other

def STH : Op Unit := do
  let a ← pop
  pushEx a (← cur).other

/-- The load of LDZ, LDR and LDA into a new register. -/
def loadPush (addr : Operand OpReg) : Op Unit := do
  let reg ← allocReg
  perform (F := micro) (.load reg addr)
  push ⟨.none, ← flag2, 0, reg⟩

/-- LDR and STR add the address of the next instruction to the signed offset. -/
def relative (addr : Operand OpReg) : Op (Operand OpReg) := do
  let pc := (← ask).pc
  alu (.op1 .movS8 (.op addr.reg) (.reg (.op addr.reg)))
  alu (.op2 .add (.op addr.reg) (.op addr.reg) (.imm (pc.setWidth 64)))
  return { addr with isShort := true }

def LDZ : Op Unit := do
  let addr ← popByte
  loadPush addr

def STZ : Op Unit := do
  let addr ← popByte
  let value ← pop
  perform (F := micro) (.store addr value)

def LDR : Op Unit := do
  let addr ← popByte
  let addr ← relative addr
  loadPush addr

def STR : Op Unit := do
  let addr ← popByte
  let value ← pop
  let addr ← relative addr
  perform (F := micro) (.store addr value)

def LDA : Op Unit := do
  let addr ← popEx true (← cur)
  loadPush addr

def STA : Op Unit := do
  let addr ← popEx true (← cur)
  let value ← pop
  perform (F := micro) (.store addr value)

def DEI : Op Unit := do
  let addr ← popByte
  let isShort ← flag2
  let reg ← allocReg
  clearStackCaches
  perform (F := micro) (.callDevice (if isShort then .dei2 else .dei) addr.reg (some reg))
  push ⟨.none, isShort, 0, reg⟩

def DEO : Op Unit := do
  let addr ← popByte
  let value ← pop
  perform (F := micro) (.deviceStore addr value)
  clearStackCaches
  perform (F := micro) (.callDevice (if value.isShort then .deo2 else .deo) addr.reg none)

/-- The result of a binary operation: constant if both operands are. -/
def result (a b : Operand OpReg) (isShort : Bool) (c : Short) (reg : OpReg) : Operand OpReg :=
  ⟨if a.semantics.const && b.semantics.const then .onlyConst else .none, isShort, c, reg⟩

/-- ADD, SUB, MUL, AND, ORA and EOR: one instruction, the evaluation at compile time, and whether
the result has to be wrapped around. -/
def arith (k : Op2) (eval : Short → Short → Short) (wraps : Bool) : Op Unit := do
  let b ← pop
  let a ← pop
  let reg ← allocReg
  alu (.op2 k (.op reg) (.op a.reg) (.reg (.op b.reg)))
  if wraps then wrapAround reg
  push (result a b b.isShort (eval a.constValue b.constValue) reg)

def ADD : Op Unit := arith .add (· + ·) true
def SUB : Op Unit := arith .sub (· - ·) true
def MUL : Op Unit := arith .mul (· * ·) true
def AND : Op Unit := arith .and (· &&& ·) false
def ORA : Op Unit := arith .or (· ||| ·) false
def EOR : Op Unit := arith .xor (· ^^^ ·) false

def DIV : Op Unit := do
  let b ← pop
  let a ← pop
  let reg ← allocReg
  let const := a.semantics.const && b.semantics.const
  perform (F := micro) (.divide reg a.reg b.reg)
  push (result a b b.isShort
    (if const && b.constValue != 0 then a.constValue / b.constValue else 0) reg)

def SFT : Op Unit := do
  let b ← popByte
  let a ← pop
  let reg ← allocReg
  alu (.op2 .and .tmp (.op b.reg) (.imm 0x0f))
  alu (.op2 .lshr (.op reg) (.op a.reg) (.reg .tmp))
  alu (.op2 .lshr .tmp (.op b.reg) (.imm 4))
  alu (.op2 .shl (.op reg) (.op reg) (.reg .tmp))
  wrapAround reg
  push (result a b a.isShort
    ((a.constValue >>> (b.constValue &&& 0x0f)) <<< ((b.constValue &&& 0xf0) >>> 4)) reg)

def immediateJumpTarget : Op (Operand Reg) := perform (F := micro) .immediateJumpTarget

def JCI : Op Unit := do
  let condition ← popEx false .wst
  let target ← immediateJumpTarget
  conditionalJump condition target

def JMI : Op Unit := do
  let target ← immediateJumpTarget
  jump target 0
  finalize

def JSI : Op Unit := do
  let target ← immediateJumpTarget
  callTo target .rst

def LIT : Op Unit := do
  let lit ← perform (F := micro) (.immediate (← flag2))
  push lit

/-- `BUXN_OPCODE_DISPATCH`. -/
def dispatch : Mnemonic → Op Unit
  | .BRK => BRK | .JCI => JCI | .JMI => JMI | .JSI => JSI | .LIT => LIT
  | .INC => INC | .POP => POP | .NIP => NIP | .SWP => SWP | .ROT => ROT | .DUP => DUP
  | .OVR => OVR | .EQU => EQU | .NEQ => NEQ | .GTH => GTH | .LTH => LTH | .JMP => JMP
  | .JCN => JCN | .JSR => JSR | .STH => STH | .LDZ => LDZ | .STZ => STZ | .LDR => LDR
  | .STR => STR | .LDA => LDA | .STA => STA | .DEI => DEI | .DEO => DEO | .ADD => ADD
  | .SUB => SUB | .MUL => MUL | .DIV => DIV | .AND => AND | .ORA => ORA | .EOR => EOR
  | .SFT => SFT

end Emit

/-! ## The next opcode -/

namespace Gen

/-- Copies of both stack pointers. -/
def shadowPointers (g : Gen) : Gen :=
  let (swsp, g) := g.allocReg
  let (srsp, g) := g.allocReg
  let g := g |>.emit (.op1 .movU8 (.op swsp) (.reg (.sp .wst)))
    |>.emit (.op1 .movU8 (.op srsp) (.reg (.sp .rst)))
  { g with spReg := fun | .wst => .op swsp | .rst => .op srsp }

/-- In keep mode pops go through copies of the stack pointers, taken before the current stack is
flushed. -/
def enterKeep (g : Gen) : Gen := g.shadowPointers.stackCacheFlush g.cur

/-- The bookkeeping between two opcodes, and the fetch. -/
def beginOpcode (op : Byte) (g : Gen) : Gen :=
  let g := ({ g with refCounts := fun _ => 0 }.stackCacheRetain .wst).stackCacheRetain .rst
  let g := { g with currentOpcode := op }
  if opFlagK op then g.enterKeep else { g with spReg := .sp }

end Gen

namespace Ctx

/-- `buxn_jit_next_opcode` up to the dispatch. -/
def beginOpcode (ctx : Ctx) : Ctx :=
  let op := ctx.jit.memory ctx.pc
  { ctx.lift (·.beginOpcode op) with
    pc := ctx.pc + 1
    shadow := if opFlagK op then some ctx.ptr else none }

/-- `buxn_jit_next_opcode` in the zero page, which is not compiled. -/
def leaveZeroPage (ctx : Ctx) : Ctx :=
  { ctx.lift fun g => g.clearStackCaches.emit (.ret (.imm (ctx.pc.setWidth 64))) with
    compiler := none }

end Ctx

/-- `buxn_jit_next_opcode`. -/
def nextOpcode : ℕ → Ctx → Ctx
  | 0, ctx => ctx
  | fuel + 1, ctx =>
    if ctx.pc < 256 then ctx.leaveZeroPage
    else
      let ctx := ctx.beginOpcode
      ((Emit.dispatch (decode ctx.currentOpcode)).run (handle (nextOpcode fuel)) ctx).2

end BuxnJit
