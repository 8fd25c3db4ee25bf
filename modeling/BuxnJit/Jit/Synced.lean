import BuxnJit.Jit.Accesses
import BuxnJit.Uxn.Devices

/-!
# The machine as the host sees it

At a call of a handler the reference machine is in `buxn_vm_t` (`Synced`), but for stale bytes of the
stacks. Handlers that do not look at these take synchronised machines to synchronised machines
(`Env.Implements`), and so do the helpers that native code calls (`Synced.input`, `Synced.notify`).
-/

namespace BuxnJit

/-- The member of `buxn_vm_t` for the pointer of a stack. -/
def Stk.pointer : Stk → Region
  | .wst => .wsp
  | .rst => .rsp

/-- Memory and stacks of the reference are in `buxn_vm_t`. Nothing is said of stale cells. -/
structure Stored (m : Memory) (u : Uxn) : Prop where
  memory : m.cells .memory = u.memory
  pointer : ∀ s, m.cells s.pointer 0 = (u.stack s).top
  data : ∀ s i, (u.stack s).stale i = false → m.cells s.region (i.setWidth 16) = (u.stack s).data i

/-- All that a handler finds is there. -/
structure Synced (m : Memory) (vm : Vm) : Prop extends Stored m vm.toUxn where
  device : ∀ i : Byte, m.cells .device (i.setWidth 16) = vm.device i
  heap : m.heap = vm.heap

/-- The handler is called at the same address, with the same machine. -/
structure DeviceCall.Matches (c : DeviceCall) (d : Vm.Call) : Prop where
  isOut : c.isOut = d.isOut
  addr : c.addr = d.addr
  synced : Synced c.mem d.vm

/-- Handlers do what those of the reference do, and do not depend on stale cells. -/
structure Env.Implements (E : Env) (D : Devices) : Prop where
  dei : ∀ m vm a, Synced m vm → (E.dei m a).1 = (D.dei vm a).1 ∧ Synced (E.dei m a).2 (D.dei vm a).2
  deo : ∀ m vm a, Synced m vm → Synced (E.deo m a) (D.deo vm a)

/-- The world of the reference is that of the machine. -/
structure Shows (σ : Mach) (w : World) : Prop where
  device : ∀ i : Byte, σ.mem.cells .device (i.setWidth 16) = w.device i
  heap : σ.mem.heap = w.heap
  calls : List.Forall₂ DeviceCall.Matches σ.trace w.calls

theorem Shows.congr {σ τ : Mach} {w : World} (h : Shows σ w)
    (hdevice : τ.mem.cells .device = σ.mem.cells .device) (hheap : τ.mem.heap = σ.mem.heap)
    (htrace : τ.trace = σ.trace) : Shows τ w :=
  ⟨fun i => by rw [hdevice, h.device], hheap.trans h.heap, htrace ▸ h.calls⟩

/-! ## Code that calls nothing -/

/-- Nothing is called by the instruction. -/
@[simp] def Instr.silent : Instr → Bool
  | .call _ | .icall _ => false
  | _ => true

theorem Mach.step_trace {E : Env} {σ : Mach} {i : Instr} (hi : i.silent) :
    (σ.step E i).trace = σ.trace := by
  unfold Mach.step
  split
  · cases i with
    | call | icall => simp at hi
    | jumpFlag | cmpJump | linkCmp =>
      rw [Instr.exec]
      split <;> rfl
    | _ => rfl
  · split
    · split <;> rfl
    · rfl
  · rfl

namespace Gen

variable {E : Env} {σ₀ : Mach} {g g' : Gen}

theorem trace_of_emits (h : Emits Loose g g') : (g'.mach E σ₀).trace = (g.mach E σ₀).trace := by
  refine h.preserves (I := fun x => (x.mach E σ₀).trace = (g.mach E σ₀).trace) ?_ rfl
  rintro a b hab ha
  cases hab with
  | @emit i hi =>
    refine (Mach.step_trace ?_).trans ha
    have hcontrol : i.control = false := hi.control
    cases i <;> first
      | rfl
      | simp at hcontrol
  | setMemBase r =>
    unfold setMemBase
    split
    · exact ha
    · exact (Mach.step_trace rfl).trans ha
  | books hs =>
    rw [mach_of_code hs.code]
    exact ha

theorem trace_divide (c a b : OpReg) : ((g.divide c a b).mach E σ₀).trace = (g.mach E σ₀).trace := by
  unfold divide
  simp only [mach_emit]
  iterate 11 rw [Mach.step_trace rfl]
  rfl

end Gen

/-! ## Helpers -/

section Helpers

variable {E : Env} {D : Devices} {m : Memory} {t : List DeviceCall} {v : Console}

/-- Before and after the calls of a helper. -/
structure Resembles (m : Memory) (t : List DeviceCall) (v : Console) : Prop where
  synced : Synced m v.vm
  calls : List.Forall₂ DeviceCall.Matches t v.world.calls

theorem Resembles.dei (h : Resembles m t v) (hE : E.Implements D) (a : Byte) :
    (deiCall E m t a).1 = (v.dei D a).1 ∧
      Resembles (deiCall E m t a).2.1 (deiCall E m t a).2.2 (v.dei D a).2 := by
  obtain ⟨hvalue, hsynced⟩ := hE.dei m v.vm a h.synced
  exact ⟨hvalue, hsynced, .cons ⟨rfl, rfl, h.synced⟩ h.calls⟩

theorem Resembles.deo (h : Resembles m t v) (hE : E.Implements D) (a : Byte) :
    Resembles (deoCall E m t a).1 (deoCall E m t a).2 (v.deo D a) :=
  ⟨hE.deo m v.vm a h.synced, .cons ⟨rfl, rfl, h.synced⟩ h.calls⟩

/-- **`buxn_jit_dei_helper` and `buxn_jit_dei2_helper`.** -/
theorem Resembles.input (h : Resembles m t v) (hE : E.Implements D) (isShort : Bool) (a : Byte) :
    ((if isShort then Helper.dei2 else .dei).run E m t a).1 =
      (v.input D isShort a).1.setWidth 64 ∧
    Resembles ((if isShort then Helper.dei2 else .dei).run E m t a).2.1
      ((if isShort then Helper.dei2 else .dei).run E m t a).2.2 (v.input D isShort a).2 := by
  obtain ⟨hhigh, hfirst⟩ := h.dei hE a
  cases isShort with
  | false =>
    refine ⟨?_, hfirst⟩
    show ((deiCall E m t a).1.setWidth 64 : Word) = _
    rw [hhigh]
    exact (Layout.setWidth_byte _).symm
  | true =>
    obtain ⟨hlow, hsecond⟩ := hfirst.dei hE (a + 1)
    refine ⟨?_, hsecond⟩
    have hvalue := congrArg₂ (fun h l : Byte => ((h ++ l : Short).setWidth 64 : Word)) hhigh hlow
    exact hvalue

/-- **`buxn_jit_deo_helper` and `buxn_jit_deo2_helper`.** -/
theorem Resembles.notify (h : Resembles m t v) (hE : E.Implements D) (isShort : Bool) (a : Byte) :
    ((if isShort then Helper.deo2 else .deo).run E m t a).1 = 0 ∧
    Resembles ((if isShort then Helper.deo2 else .deo).run E m t a).2.1
      ((if isShort then Helper.deo2 else .deo).run E m t a).2.2 (v.notify D isShort a) := by
  have hfirst := h.deo hE a
  cases isShort with
  | false => exact ⟨rfl, hfirst⟩
  | true => exact ⟨rfl, hfirst.deo hE (a + 1)⟩

end Helpers

end BuxnJit
