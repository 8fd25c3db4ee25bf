import BuxnJit.Uxn.Machine

/-!
# Control flow of the reference machine

The opcodes that jump and call, and where control goes from every opcode but the device accesses.
-/

namespace BuxnJit

open Foundations

/-- Where control goes: to an opcode, or to the host. -/
inductive Next
  | goto (pc : Short)
  | halt
  deriving DecidableEq

namespace Uxn

/-- Where a jump by `v` goes. Bytes are relative to the next opcode. -/
def destination (isShort : Bool) (pc v : Short) : Short := if isShort then v else relative pc (lo v)

/-- The opcode `mn` as in `opcode`, and where control goes from it. -/
def flow (isShort : Bool) (s : Stk) (pc : Short) : Mnemonic → Op Next
  | .BRK => return .halt
  | .JMP => do return .goto (destination isShort pc (← pop isShort))
  | .JCN => do
    let v ← pop isShort
    let condition ← popByte
    return .goto (if condition = 0 then pc else destination isShort pc v)
  | .JSR => do
    let v ← pop isShort
    push s.other true pc
    return .goto (destination isShort pc v)
  | .JCI => do
    let condition ← popByte
    let offset ← load true 0xffff pc
    return .goto (if condition = 0 then pc + 2 else offset + (pc + 2))
  | .JMI => do return .goto ((← load true 0xffff pc) + (pc + 2))
  | .JSI => do
    let offset ← load true 0xffff pc
    push .rst true (pc + 2)
    return .goto (offset + (pc + 2))
  | mn => do
    opcode isShort s pc mn
    return .goto (pc + if mn = .LIT then (if isShort then 2 else 1) else 0)

/-- The program of an opcode byte before `pc`, and where control goes from it. -/
def flows (op : Byte) (pc : Short) : Op Next := flow (opFlag2 op) (opStack op) pc (decode op)

/-- Execute the opcode at `pc`. -/
def next (pc : Short) (u : Uxn) : Next × Uxn :=
  let r := (flows (u.memory pc) (pc + 1)).run perform (u.enter (u.memory pc))
  (r.1, r.2.toUxn)

end Uxn

end BuxnJit
