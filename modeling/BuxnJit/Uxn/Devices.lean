import BuxnJit.Uxn.Flow

/-!
# Devices

The opcodes that access devices. The handlers belong to the host: they find the machine as the program
has left it, and may change all of it. Their calls are recorded.
-/

namespace BuxnJit

open Foundations

/-- What a handler finds: `buxn_vm_t`, and the memory around it. -/
structure Vm extends Uxn where
  device : Byte → Byte
  heap : Word → Byte

/-- A call of a handler, and what it found. -/
structure Vm.Call where
  isOut : Bool
  addr : Byte
  vm : Vm

/-- `buxn_vm_dei` and `buxn_vm_deo`. -/
structure Devices where
  dei : Vm → Byte → Byte × Vm
  deo : Vm → Byte → Vm

/-- What only accesses to devices change, and the calls made so far, the latest first. -/
structure World where
  device : Byte → Byte
  heap : Word → Byte
  calls : List Vm.Call

/-- Store a byte or a short in the device page. -/
def World.put (isShort : Bool) (addr : Byte) (v : Short) (w : World) : World :=
  { w with device :=
      if isShort then Function.update (Function.update w.device addr (Uxn.hi v)) (addr + 1) (Uxn.lo v)
      else Function.update w.device addr (Uxn.lo v) }

/-- The reference machine with its devices. -/
structure Console extends Uxn where
  world : World

def Mnemonic.device : Mnemonic → Bool
  | .DEI | .DEO => true
  | _ => false

namespace Uxn

/-- The address, and for DEO the value, that an access to a device pops. -/
def ports (isShort : Bool) : Mnemonic → Op (Byte × Short)
  | .DEI => do return (← popByte, 0)
  | .DEO => do
    let addr ← popByte
    return (addr, ← pop isShort)
  | _ => return (0, 0)

end Uxn

namespace Console

def vm (v : Console) : Vm := ⟨v.toUxn, v.world.device, v.world.heap⟩

/-- A handler was called, and left `vm`. -/
def handled (isOut : Bool) (addr : Byte) (vm : Vm) (v : Console) : Console :=
  ⟨vm.toUxn, vm.device, vm.heap, ⟨isOut, addr, v.vm⟩ :: v.world.calls⟩

variable (D : Devices)

def dei (addr : Byte) (v : Console) : Byte × Console :=
  ((D.dei v.vm addr).1, v.handled false addr (D.dei v.vm addr).2)

def deo (addr : Byte) (v : Console) : Console := v.handled true addr (D.deo v.vm addr)

/-- Read a byte, or a short from two addresses. -/
def input (isShort : Bool) (addr : Byte) (v : Console) : Short × Console :=
  let (h, v) := v.dei D addr
  if isShort then
    let (l, v) := v.dei D (addr + 1)
    (h ++ l, v)
  else (h.setWidth 16, v)

/-- Have the handler see to one address, or to two. -/
def notify (isShort : Bool) (addr : Byte) (v : Console) : Console :=
  if isShort then (v.deo D addr).deo D (addr + 1) else v.deo D addr

/-- Execute the opcode at `pc`. -/
def next (pc : Short) (v : Console) : Next × Console :=
  let op := v.memory pc
  let ((addr, x), f) := (Uxn.ports (opFlag2 op) (decode op)).run Uxn.perform (v.enter op)
  match decode op with
  | .DEI =>
    let (x, v) := (⟨f.toUxn, v.world⟩ : Console).input D (opFlag2 op) addr
    (.goto (pc + 1), ⟨((Uxn.push (Uxn.opStack op) (opFlag2 op) x).run Uxn.perform (v.enter op)).2.toUxn,
      v.world⟩)
  | .DEO =>
    (.goto (pc + 1), (⟨f.toUxn, v.world.put (opFlag2 op) addr x⟩ : Console).notify D (opFlag2 op) addr)
  | _ => ((v.toUxn.next pc).1, ⟨(v.toUxn.next pc).2, v.world⟩)

/-- Execute `n` opcodes, at most until control goes to the host. -/
def steps : ℕ → Next → Console → Next × Console
  | 0, nx, v => (nx, v)
  | _ + 1, .halt, v => (.halt, v)
  | n + 1, .goto pc, v => steps n (v.next D pc).1 (v.next D pc).2

end Console

end BuxnJit
