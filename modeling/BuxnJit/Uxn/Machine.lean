import BuxnJit.Foundations.CircularStack
import BuxnJit.Jit.StraightLine

/-!
# The reference machine

Standard uxn, for the opcodes without control flow and device access: one byte after the other is
popped from and pushed to two circular stacks of 256 bytes. In keep mode an opcode pops through a
copy of the stack pointer. As in the compiler, opcodes are programs of elementary accesses; an
access is `Live` unless it reads a byte that was popped and not pushed again.
-/

namespace BuxnJit

open Foundations

/-- What the opcodes work on. -/
structure Uxn where
  memory : Short → Byte
  stack : Stk → CStack Byte Byte

namespace Uxn

/-- The state while an opcode executes: the stack it works on, and in keep mode the copy of its
pointer. -/
structure Frame extends Uxn where
  cur : Stk
  copy : Option Byte

/-! ## Accesses -/

inductive Access
  | pop
  /-- Move the pointer down without reading. -/
  | drop
  | push (s : Stk) (b : Byte)
  | peek (addr : Short)
  | poke (addr : Short) (b : Byte)

@[reducible] def Access.Res : Access → Type
  | .pop | .peek _ => Byte
  | _ => Unit

abbrev accesses : Signature := ⟨Access, Access.Res⟩

namespace Frame

/-- The pointer that pops go through. -/
def pointer (f : Frame) : Byte := f.copy.getD (f.stack f.cur).top

def setStack (s : Stk) (c : CStack Byte Byte) (f : Frame) : Frame :=
  { f with stack := Function.update f.stack s c }

def drop (f : Frame) : Frame :=
  match f.copy with
  | none => f.setStack f.cur (f.stack f.cur).drop
  | some p => { f with copy := some (p - 1) }

def push (s : Stk) (b : Byte) (f : Frame) : Frame := f.setStack s ((f.stack s).push b)

end Frame

def perform : Handler accesses Frame
  | .pop, f => ((f.stack f.cur).data (f.pointer - 1), f.drop)
  | .drop, f => ((), f.drop)
  | .push s b, f => ((), f.push s b)
  | .peek addr, f => (f.memory addr, f)
  | .poke addr b, f => ((), { f with memory := Function.update f.memory addr b })

/-- No byte is read that was popped and not pushed again. -/
def Live : Access → Frame → Prop
  | .pop, f => (f.stack f.cur).stale (f.pointer - 1) = false
  | _, _ => True

instance (a : Access) (f : Frame) : Decidable (Live a f) := by
  cases a <;> simp only [Live] <;> infer_instance

/-! ## Opcodes -/

abbrev Op := Prog accesses

def popByte : Op Byte := Prog.perform (F := accesses) .pop

def pushByte (s : Stk) (b : Byte) : Op Unit := Prog.perform (F := accesses) (.push s b)

def peek (addr : Short) : Op Byte := Prog.perform (F := accesses) (.peek addr)

def poke (addr : Short) (b : Byte) : Op Unit := Prog.perform (F := accesses) (.poke addr b)

/-- The high byte of a short. -/
def hi (v : Short) : Byte := (v >>> 8).setWidth 8

/-- The low byte of a short. -/
def lo (v : Short) : Byte := v.setWidth 8

/-- Pop a byte or a short. -/
def pop (isShort : Bool) : Op Short :=
  if isShort then do
    let l ← popByte
    let h ← popByte
    return h ++ l
  else do return (← popByte).setWidth 16

def drop (isShort : Bool) : Op Unit := do
  Prog.perform (F := accesses) .drop
  if isShort then Prog.perform (F := accesses) .drop

/-- Push a byte or a short. -/
def push (s : Stk) (isShort : Bool) (v : Short) : Op Unit :=
  if isShort then do
    pushByte s (hi v)
    pushByte s (lo v)
  else pushByte s (lo v)

/-- Read a byte or a short, whose second address wraps around as `mask` says. -/
def load (isShort : Bool) (mask addr : Short) : Op Short :=
  if isShort then do
    let h ← peek addr
    let l ← peek ((addr + 1) &&& mask)
    return h ++ l
  else do return (← peek addr).setWidth 16

def store (isShort : Bool) (mask addr v : Short) : Op Unit :=
  if isShort then do
    poke addr (hi v)
    poke ((addr + 1) &&& mask) (lo v)
  else poke addr (lo v)

/-- The address that is relative to the next opcode. -/
def relative (pc : Short) (offset : Byte) : Short := pc + offset.signExtend 16

/-- The opcode `mn` on the stack `s`, in short mode or not; `pc` is the address behind it. -/
def opcode (isShort : Bool) (s : Stk) (pc : Short) : Mnemonic → Op Unit
  | .LIT => do push s isShort (← load isShort 0xffff pc)
  | .INC => do
    let a ← pop isShort
    push s isShort (a + 1)
  | .POP => drop isShort
  | .NIP => do
    let b ← pop isShort
    drop isShort
    push s isShort b
  | .SWP => do
    let b ← pop isShort
    let a ← pop isShort
    push s isShort b
    push s isShort a
  | .ROT => do
    let c ← pop isShort
    let b ← pop isShort
    let a ← pop isShort
    push s isShort b
    push s isShort c
    push s isShort a
  | .DUP => do
    let a ← pop isShort
    push s isShort a
    push s isShort a
  | .OVR => do
    let b ← pop isShort
    let a ← pop isShort
    push s isShort a
    push s isShort b
    push s isShort a
  | .EQU => compare (· == ·)
  | .NEQ => compare (· != ·)
  | .GTH => compare fun a b => b < a
  | .LTH => compare fun a b => a < b
  | .STH => do
    let a ← pop isShort
    push s.other isShort a
  | .LDZ => do
    let addr ← popByte
    push s isShort (← load isShort 0xff (addr.setWidth 16))
  | .STZ => do
    let addr ← popByte
    store isShort 0xff (addr.setWidth 16) (← pop isShort)
  | .LDR => do
    let offset ← popByte
    push s isShort (← load isShort 0xffff (relative pc offset))
  | .STR => do
    let offset ← popByte
    store isShort 0xffff (relative pc offset) (← pop isShort)
  | .LDA => do
    let addr ← pop true
    push s isShort (← load isShort 0xffff addr)
  | .STA => do
    let addr ← pop true
    store isShort 0xffff addr (← pop isShort)
  | .ADD => arith (· + ·)
  | .SUB => arith (· - ·)
  | .MUL => arith (· * ·)
  | .DIV => arith (· / ·)
  | .AND => arith (· &&& ·)
  | .ORA => arith (· ||| ·)
  | .EOR => arith (· ^^^ ·)
  | .SFT => do
    let shift ← popByte
    let a ← pop isShort
    push s isShort ((a >>> (shift &&& 0x0f)) <<< (shift >>> 4))
  | .BRK | .JCI | .JMI | .JSI | .JMP | .JCN | .JSR | .DEI | .DEO => pure ()
where
  compare (test : Short → Short → Bool) : Op Unit := do
    let b ← pop isShort
    let a ← pop isShort
    pushByte s (if test a b then 1 else 0)
  arith (eval : Short → Short → Short) : Op Unit := do
    let b ← pop isShort
    let a ← pop isShort
    push s isShort (eval a b)

/-- The stack of an opcode. -/
def opStack (op : Byte) : Stk := if opFlagR op then .rst else .wst

/-- The program of an opcode byte before `pc`. -/
def program (op : Byte) (pc : Short) : Op Unit := opcode (opFlag2 op) (opStack op) pc (decode op)

/-- The state in which an opcode starts. -/
def enter (op : Byte) (u : Uxn) : Frame :=
  { u with
    cur := opStack op
    copy := if opFlagK op then some (u.stack (opStack op)).top else none }

/-- Execute the opcode `op` before `pc`. -/
def step (op : Byte) (pc : Short) (u : Uxn) : Uxn :=
  ((program op pc).run perform (u.enter op)).2.toUxn

/-! ## Sequences -/

/-- Execute `n` opcodes from `pc` on. -/
def run : ℕ → Short → Uxn → Uxn
  | 0, _, u => u
  | n + 1, pc, u => run n (pc + opLength (u.memory pc)) (u.step (u.memory pc) (pc + 1))

/-- The run reads live bytes only. -/
def LiveRun : ℕ → Short → Uxn → Prop
  | 0, _, _ => True
  | n + 1, pc, u =>
    (program (u.memory pc) (pc + 1)).Along perform Live (u.enter (u.memory pc)) ∧
      LiveRun n (pc + opLength (u.memory pc)) (u.step (u.memory pc) (pc + 1))

/-- The run finds the opcodes of `m`. -/
def Follows (m : Short → Byte) : ℕ → Short → Uxn → Prop
  | 0, _, _ => True
  | n + 1, pc, u => u.memory pc = m pc ∧
      Follows m n (pc + opLength (m pc)) (u.step (m pc) (pc + 1))

end Uxn

end BuxnJit
