import BuxnJit.Jit.InStep

/-!
# Calls of device handlers

Before a handler is called the state of the machine is brought into `buxn_vm_t`, and afterwards it is
taken from there (`Agrees.save`, `Resembles.load`). So an access to a device, compiled beside the
reference machine, does what the handlers of the reference do (`coupled_DEI`, `coupled_DEO`).
-/

namespace BuxnJit

open Foundations Prog

open Uxn (opStack)

/-! ## Saving and loading the state -/

/-- `buxn_jit_load_state`. -/
def loadStateCode : List Instr := [.loadVm (.sp .rst) .rsp, .loadVm (.sp .wst) .wsp]

/-- `buxn_jit_save_state`. -/
def saveStateCode : List Instr := [.storeVm .rsp (.sp .rst), .storeVm .wsp (.sp .wst)]

section State

variable {E : Env} {σ : Mach} {v : Console}

theorem vmAddr_eq (hvm : σ.regs .vm = E.layout.vm) (r : Region) :
    σ.vmAddr E.layout r = E.layout.base r + (0 : Short).setWidth 64 := by
  rw [Mach.vmAddr, hvm, Layout.base]
  simp

theorem step_loadPtr (hrun : σ.status = .running) (hvm : σ.regs .vm = E.layout.vm) (s : Stk) :
    σ.step E (.loadVm (.sp s) s.pointer) =
      σ.set (.sp s) ((σ.mem.cells s.pointer 0).setWidth 64) := by
  have hsize : (0 : Short).toNat < s.pointer.size := by cases s <;> decide
  rw [Mach.step_running hrun, Instr.exec, vmAddr_eq hvm, E.layout.read_base _ _ _ hsize]

theorem step_storePtr (hrun : σ.status = .running) (hvm : σ.regs .vm = E.layout.vm) (s : Stk) :
    σ.step E (.storeVm s.pointer (.sp s)) = { σ with mem := { σ.mem with
      cells := Function.update σ.mem.cells s.pointer
        (Function.update (σ.mem.cells s.pointer) 0 (σ.stackPtr s)) } } := by
  have hsize : (0 : Short).toNat < s.pointer.size := by cases s <;> decide
  rw [Mach.step_running hrun, Instr.exec, vmAddr_eq hvm, E.layout.write_base _ _ _ _ hsize]
  rfl

/-- **Loading the state** from `buxn_vm_t`. -/
theorem Resembles.load (h : Resembles σ.mem σ.trace v) (hrun : σ.status = .running)
    (hvm : σ.regs .vm = E.layout.vm) :
    Agrees (Mach.exec E loadStateCode σ) v ∧
      (Mach.exec E loadStateCode σ).regs .vm = E.layout.vm ∧
        (Mach.exec E loadStateCode σ).status = .running ∧
          ∀ r, (Mach.exec E loadStateCode σ).regs (.op r) = σ.regs (.op r) := by
  have hexec : Mach.exec E loadStateCode σ =
      (σ.set (.sp .wst) ((σ.mem.cells .wsp 0).setWidth 64)).set (.sp .rst)
        ((σ.mem.cells .rsp 0).setWidth 64) := by
    have hfirst := step_loadPtr hrun hvm .wst
    have hsecond := step_loadPtr (σ := σ.set (.sp .wst) ((σ.mem.cells .wsp 0).setWidth 64)) hrun
      (by simpa [Mach.set] using hvm) .rst
    rw [loadStateCode, Mach.exec_cons, Mach.exec_cons, Mach.exec_nil]
    exact (congrArg _ hfirst).trans hsecond
  rw [hexec]
  obtain ⟨⟨⟨hmemory, hpointer, hdata⟩, hdevice, hheap⟩, hcalls⟩ := h
  refine ⟨⟨hmemory, fun s => ⟨?_, hdata s⟩, hdevice, hheap, hcalls⟩, by simpa [Mach.set] using hvm, hrun,
    fun r => by simp [Mach.set]⟩
  have hptr : σ.mem.cells s.pointer 0 = (v.stack s).top := hpointer s
  cases s <;> simp [Mach.set, Mach.stackPtr, ← hptr, Stk.pointer]

/-- **Saving the state** to `buxn_vm_t`. -/
theorem Agrees.save (h : Agrees σ v) (hrun : σ.status = .running) (hvm : σ.regs .vm = E.layout.vm) :
    Resembles (Mach.exec E saveStateCode σ).mem (Mach.exec E saveStateCode σ).trace v ∧
      (Mach.exec E saveStateCode σ).status = .running ∧
        (Mach.exec E saveStateCode σ).regs = σ.regs := by
  have hfirst := step_storePtr hrun hvm .wst
  generalize hτ : σ.step E (.storeVm Stk.wst.pointer (.sp .wst)) = τ at hfirst
  have hsecond := step_storePtr (σ := τ) (E := E) (by rw [hfirst]; exact hrun)
    (by rw [hfirst]; exact hvm) .rst
  have hexec : Mach.exec E saveStateCode σ = τ.step E (.storeVm Stk.rst.pointer (.sp .rst)) := by
    rw [← hτ]
    rfl
  have hptr : ∀ s, (v.stack s).top = σ.stackPtr s := fun s => by simpa using (h.stack s).top
  rw [hexec, hsecond, hfirst]
  refine ⟨⟨⟨⟨h.memory, fun s => ?_, fun s i hi => ?_⟩, h.world.device, h.world.heap⟩, h.world.calls⟩,
    hrun, rfl⟩
  · rw [Console.vm, hptr]
    cases s <;> simp [Stk.pointer, Mach.stackPtr]
  · rw [Console.vm, ← (h.stack s).data i hi]
    cases s <;> rfl

end State

/-! ## The call -/

section Call

variable {E : Env} {D : Devices} {σ₀ : Mach} {c : Ctx} {v v' : Console} {helper : Helper} {addr : OpReg}
  {a : Byte} {w : Word}

/-- **A handler is called** with the state in `buxn_vm_t`, and compilation goes on with the state that
it left. -/
theorem AtJump.callsDevice (h : AtJump E σ₀ c v) (ha : (c.mach E σ₀).regs (.op addr) = a.setWidth 64)
    (result : Option OpReg)
    (hruns : ∀ m t, Resembles m t v → (helper.run E m t a).1 = w ∧
      Resembles (helper.run E m t a).2.1 (helper.run E m t a).2.2 v') :
    AtJump E σ₀ (c.lift (·.callDevice helper addr result)) v' ∧
      ∀ r ∈ result, ((c.lift (·.callDevice helper addr result)).mach E σ₀).regs (.op r) = w := by
  obtain ⟨hsaved, hrun, hregs⟩ := h.agrees.save h.running h.tracks.vm
  generalize hσ : Mach.exec E saveStateCode (c.mach E σ₀) = σ at hsaved hrun hregs
  have hvm : σ.regs .vm = E.layout.vm := by rw [hregs, h.tracks.vm]
  have ha' : σ.regs (.op addr) = a.setWidth 64 := by rw [hregs, ha]
  -- the machine behind the call, with the result in place
  have hcalled : ∃ τ, (c.lift (·.callDevice helper addr result)).mach E σ₀ =
      Mach.exec E loadStateCode τ ∧ τ.mem = (helper.run E σ.mem σ.trace a).2.1 ∧
        τ.trace = (helper.run E σ.mem σ.trace a).2.2 ∧ τ.status = .running ∧
          τ.regs .vm = E.layout.vm ∧ ∀ r ∈ result, τ.regs (.op r) = (helper.run E σ.mem σ.trace a).1 := by
    have hicall : Mach.exec E [.icall helper, .op1 .mov .memOffset (.reg (.op addr)),
        .op1 .mov .memBase (.reg .vm)] σ =
          ((σ.set .memBase (σ.regs .vm)).set .memOffset (a.setWidth 64)).afterICall E
            (helper.run E σ.mem σ.trace a) := by
      simp [Mach.exec, Mach.step, hrun, Instr.exec, Mach.set, Mach.src, Op1.eval, ha']
    have hcode : ∀ τ, Mach.exec E [.icall helper, .op1 .mov .memOffset (.reg (.op addr)),
        .op1 .mov .memBase (.reg .vm)] σ = τ →
        (c.lift (·.callDevice helper addr result)).mach E σ₀ = Mach.exec E loadStateCode
          (Mach.exec E (result.map fun r => Instr.op1 .mov (.op r) (.reg .memBase)).toList τ) := by
      intro τ hτ
      rw [← hτ, ← hσ]
      cases result <;> rfl
    refine ⟨_, hcode _ hicall, ?_⟩
    cases result with
    | none => simp [Mach.afterICall, Mach.set, hrun, hvm]
    | some r =>
      simp [Mach.exec, Mach.step, Instr.exec, Mach.afterICall, Mach.set, hrun, hvm, Mach.src, Op1.eval]
  obtain ⟨τ, hmach, hmem, htrace, hrun', hvm', hresult⟩ := hcalled
  obtain ⟨hvalue, hresembles⟩ := hruns σ.mem σ.trace hsaved
  rw [← hmem, ← htrace] at hresembles
  obtain ⟨hagrees, hvm'', hrun'', hops⟩ := hresembles.load hrun' hvm'
  have hnil : (c.lift (·.callDevice helper addr result)).Uncached := by
    intro s
    rw [Ctx.lift, Gen.callDevice_cache, h.uncached s]
  refine ⟨⟨?_, hnil, ⟨?_, ?_⟩, ?_⟩, fun r hr => ?_⟩
  · rw [hmach, hrun'']
  · rw [hmach, hvm'']
  · intro r hr
    rw [Ctx.lift, Gen.callDevice_memBase] at hr
    cases hr
  · rw [hmach]
    exact hagrees
  · rw [hmach, hops, hresult r hr, hvalue]

end Call

/-! ## The device page -/

theorem Layout.write_device (L : Layout) (m : Memory) (a b : Byte) :
    L.write m (L.base .device + a.setWidth 64) b = { m with
      cells := Function.update m.cells .device (Function.update (m.cells .device) (a.setWidth 16) b) } := by
  rw [Layout.setWidth_byte]
  apply L.write_base
  have hlt := a.isLt
  simp only [Region.size, BitVec.toNat_setWidth]
  omega

theorem update_byte {f : Short → Byte} {g : Byte → Byte} (h : ∀ i : Byte, f (i.setWidth 16) = g i)
    (a b i : Byte) : Function.update f (a.setWidth 16) b (i.setWidth 16) = Function.update g a b i := by
  by_cases hi : i = a
  · rw [hi, Function.update_self, Function.update_self]
  · have hne : i.setWidth 16 ≠ (a.setWidth 16 : Short) := by
      intro he
      have hback := congrArg (BitVec.setWidth 8) he
      exact hi (by simpa using hback)
    rw [Function.update_of_ne hne, Function.update_of_ne hi, h]

namespace Gen

variable {E : Env} {σ₀ : Mach} {W : World} {cells : Stk → List Word} {g : Gen} {u : Uxn}

theorem unmoving_deviceStore (g : Gen) (addr value : Operand OpReg) :
    Emits Unmoving g (g.deviceStore addr value) := by
  have h₀ : Emits Unmoving g (g.setMemBase .device) := Emits.setMemBase .refl _
  unfold deviceStore
  simp only
  split
  · refine (((((h₀.emit ?_).emit ?_).emit ?_).emit ?_).emit ?_).emit ?_ <;> exact ⟨rfl, by simp⟩
  · refine (h₀.emit ?_).emit ?_ <;> exact ⟨rfl, by simp⟩

/-- What the code of DEO does to the device page. -/
structure Puts (isShort : Bool) (a : Byte) (v : Short) (σ τ : Mach) : Prop where
  device : τ.mem.cells .device =
    if isShort then Function.update (Function.update (σ.mem.cells .device) (a.setWidth 16) (Uxn.hi v))
      ((a + 1).setWidth 16) (Uxn.lo v)
    else Function.update (σ.mem.cells .device) (a.setWidth 16) (Uxn.lo v)
  others : ∀ r, r ≠ .device → τ.mem.cells r = σ.mem.cells r
  heap : τ.mem.heap = σ.mem.heap

theorem word_nextPort (a : Byte) : ((a.setWidth 64 : Word) + 1#64) &&& 255#64 = (a + 1).setWidth 64 := by
  apply BitVec.eq_of_toNat_eq
  have ha := a.isLt
  have hmask : ∀ n, n &&& 255 = n % 2 ^ 8 := fun n => Nat.and_two_pow_sub_one_eq_mod n 8
  have hone : (1 : Byte).toNat = 1 := rfl
  simp only [BitVec.toNat_and, BitVec.toNat_add, BitVec.toNat_setWidth, BitVec.toNat_ofNat, hone]
  refine (hmask _).trans ?_
  omega

theorem puts_deviceStore (hg : Aligned E σ₀ g) (addr value : Operand OpReg) {a : Byte} {v : Short}
    (ha : (g.mach E σ₀).regs (.op addr.reg) = a.setWidth 64)
    (hv : (g.mach E σ₀).regs (.op value.reg) = v.setWidth 64) :
    Puts value.isShort a v (g.mach E σ₀) ((g.deviceStore addr value).mach E σ₀) := by
  have hbefore := hg.setMemBase .device
  have hbase := hbefore.tracks.base _ (setMemBase_memBase _ _)
  have hrun := hbefore.running
  have hnext := word_nextPort a
  have hmem : ((g.setMemBase .device).mach E σ₀).mem = (g.mach E σ₀).mem := setMemBase_mem .device
  rw [← setMemBase_op .device] at ha hv
  suffices hputs : Puts value.isShort a v ((g.setMemBase .device).mach E σ₀)
      ((g.deviceStore addr value).mach E σ₀) by
    obtain ⟨hdevice, hothers, hheap⟩ := hputs
    rw [hmem] at hdevice hothers hheap
    exact ⟨hdevice, hothers, hheap⟩
  unfold deviceStore
  cases value.isShort with
  | false =>
    simp only [Bool.false_eq_true, if_false, mach_emit]
    generalize (g.setMemBase .device).mach E σ₀ = σ at hrun hbase ha hv
    constructor
    · simp [Mach.step, hrun, Instr.exec, Mach.set, Mach.src, Op1.eval, Mach.addr, hbase, ha, hv,
        Layout.write_device, Uxn.lo]
    · intro r hr
      simp [Mach.step, hrun, Instr.exec, Mach.set, Mach.src, Op1.eval, Mach.addr, hbase, ha,
        Layout.write_device, hr]
    · simp [Mach.step, hrun, Instr.exec, Mach.set, Mach.src, Op1.eval, Mach.addr, hbase, ha,
        Layout.write_device]
  | true =>
    simp only [if_true, mach_emit]
    generalize (g.setMemBase .device).mach E σ₀ = σ at hrun hbase ha hv
    constructor
    · simp [Mach.step, hrun, Instr.exec, Mach.set, Mach.src, Op1.eval, Op2.eval, Mach.addr, hbase,
        ha, hv, Layout.write_device, hnext, Uxn.lo]
    · intro r hr
      simp [Mach.step, hrun, Instr.exec, Mach.set, Mach.src, Op1.eval, Op2.eval, Mach.addr, hbase,
        ha, Layout.write_device, hr, hnext]
    · simp [Mach.step, hrun, Instr.exec, Mach.set, Mach.src, Op1.eval, Op2.eval, Mach.addr, hbase,
        ha, Layout.write_device, hnext]

/-- **A value is stored in the device page.** -/
theorem Mirrors.deviceStore (h : Mirrors E σ₀ W cells g u) (hrun : (g.mach E σ₀).status = .running)
    {addr value : Operand OpReg} {a : Byte} {v : Short}
    (ha : (g.mach E σ₀).regs (.op addr.reg) = a.setWidth 64)
    (hv : (g.mach E σ₀).regs (.op value.reg) = v.setWidth 64) :
    Mirrors E σ₀ (W.put value.isShort a v) cells (g.deviceStore addr value) u := by
  have hg := h.aligned hrun
  have hloose := (emits_deviceStore g addr value).loose
  obtain ⟨hdevice, hothers, hheap⟩ := puts_deviceStore hg addr value ha hv
  have hvalued : ∀ s, (g.deviceStore addr value).valued cells s = g.valued cells s := by
    intro s
    rw [valued, deviceStore_cache, valued]
  constructor
  · exact (hg.emits hloose).tracks
  · rw [hothers _ (by simp), h.memory]
  · intro s
    have hdata : ((g.deviceStore addr value).mach E σ₀).stackData s = (g.mach E σ₀).stackData s := by
      funext i
      rw [Mach.stackData, hothers _ (by cases s <;> simp [Stk.region]), Mach.stackData]
    have hptr : ((g.deviceStore addr value).mach E σ₀).stackPtr s = (g.mach E σ₀).stackPtr s :=
      pointer_of_emits (unmoving_deviceStore g addr value) s
    rw [hdata, hptr, hvalued]
    exact h.stack s
  · exact fun s e he => h.fits s e (hvalued s ▸ he)
  · refine ⟨fun i => ?_, hheap.trans h.world.heap, ?_⟩
    · rw [hdevice, World.put]
      cases value.isShort with
      | false => exact update_byte h.world.device a _ i
      | true => exact update_byte (update_byte h.world.device a _) (a + 1) _ i
    · rw [trace_of_emits hloose]
      exact h.world.calls

end Gen

/-! ## Accesses to devices -/

section Accesses

open Emit

variable {E : Env} {D : Devices} {σ₀ : Mach} {W : World} {fuel : ℕ} {rs : List Request} {op : Byte}
  {pc : Short} {ops : List (OpReg × Word)} {c : Ctx} {x : Given} {q : Ctx × Given} {f : Uxn.Frame}
  {held : List OpReg} {t : Course} {α β : Type}

/-- The caches are empty. -/
theorem Gen.Mirrors.cleared {u : Uxn} (h : Gen.Mirrors E σ₀ W x.cells c.toGen u)
    (hholds : Gen.Holds E σ₀ x.cells ops c.toGen) :
    AtJump E σ₀ (c.lift Gen.clearStackCaches) ⟨u, W⟩ := by
  have hspills := c.toGen.spills_clearStackCaches
  have hmirrors := h.spills hholds hspills
  have hnil : (c.lift Gen.clearStackCaches).Uncached := c.toGen.clearStackCaches_cache
  exact ⟨(hholds.spills hspills).running, hnil, hmirrors.tracks, hmirrors.agrees hnil⟩

/-- The operands are as they were. -/
theorem InStep.cleared (h : InStep E σ₀ W op pc ops (c, x) f) (hfollowed : Followed E σ₀ held t c x) :
    AtJump E σ₀ (c.lift Gen.clearStackCaches) ⟨f.toUxn, W⟩ ∧
      ∀ p ∈ ops, ((c.lift Gen.clearStackCaches).mach E σ₀).regs (.op p.1) = p.2 := by
  have hholds := hfollowed.holds h.running
  refine ⟨h.mirrors.cleared hholds, ?_⟩
  rw [← h.operands]
  exact (hholds.spills c.toGen.spills_clearStackCaches).operands

/-- **A value is stored** in the device page, of the reference as well. -/
theorem coupled_deviceStore {addr value : Operand OpReg} {isShort : Bool} {a : Byte} {v : Short}
    {k : Unit → Emit.Op α} {p : Uxn.Op β} {Ψ : α → β → Ctx × Given → Uxn.Frame → Prop}
    (h : InStep E σ₀ W op pc ops q f) (ha : (addr.reg, a.setWidth 64) ∈ ops)
    (hsize : value.isShort = isShort) (hv : (value.reg, v.setWidth 64) ∈ ops)
    (hk : ∀ q', InStep E σ₀ (W.put isShort a v) op pc ops q' f →
      Coupled (translating E σ₀ fuel rs) (k ()) p Ψ q' f) :
    Coupled (translating E σ₀ fuel rs) (perform (F := micro) (.deviceStore addr value) >>= k) p Ψ q f := by
  refine coupled_left ?_
  rintro ⟨⟨-, -, -, held, t, -, -, hfollowed⟩, -⟩
  obtain ⟨c, x⟩ := q
  subst hsize
  have hholds := hfollowed.holds h.running
  have hops : x.operands = ops := h.operands
  have hemits := handle_emits (nextOpcode fuel) (o := .deviceStore addr value) rfl hfollowed.spRegs
  have hstore := h.mirrors.deviceStore h.running (hholds.operands _ (hops ▸ ha))
    (hholds.operands _ (hops ▸ hv))
  have hself : Gen.spilled (c.toGen.deviceStore addr value) x.cells = x.cells :=
    Gen.spilled_of_length fun s => by rw [Gen.deviceStore_cache, hholds.length s]
  apply hk
  refine ⟨hemits.currentOpcode.trans h.opcode, h.pc, h.active, h.cur,
    (Gen.status_of_emits hemits).trans h.running, ?_, hops⟩
  show Gen.Mirrors E σ₀ (W.put value.isShort a v)
    (Gen.spilled (c.toGen.deviceStore addr value) x.cells) _ _
  rw [hself]
  exact hstore

/-- **A handler is called**, with empty caches. -/
theorem InStep.callsDevice (h : InStep E σ₀ W op pc ops q f) {helper : Helper} {addr : OpReg}
    {result : Option OpReg} {k : Unit → Emit.Op α} {a : Byte} {w : Word} {v : Console}
    (halong : Along (translating E σ₀ fuel rs).left (translating E σ₀ fuel rs).assumes
      (clearStackCaches >>= fun _ => perform (F := micro) (.callDevice helper addr result) >>= k) q)
    (ha : (addr, a.setWidth 64) ∈ ops)
    (hruns : ∀ m t, Resembles m t ⟨f.toUxn, W⟩ → (helper.run E m t a).1 = w ∧
      Resembles (helper.run E m t a).2.1 (helper.run E m t a).2.2 v) :
    ∃ q', InStep E σ₀ v.world op pc [] q' (v.enter op) ∧
      (∀ r ∈ result, (q'.1.mach E σ₀).regs (.op r) = w) ∧
      Along (translating E σ₀ fuel rs).left (translating E σ₀ fuel rs).assumes (k ()) q' ∧
      (run (translating E σ₀ fuel rs).left
        (clearStackCaches >>= fun _ => perform (F := micro) (.callDevice helper addr result) >>= k) q) =
          run (translating E σ₀ fuel rs).left (k ()) q' := by
  obtain ⟨c, x⟩ := q
  obtain ⟨⟨-, -, -, held, t, -, -, hfollowed⟩, -, hrest⟩ := halong
  obtain ⟨hat, hregs⟩ := h.cleared hfollowed
  obtain ⟨hafter, hresult⟩ := hat.callsDevice (hregs _ ha) result hruns
  refine ⟨_, ?_, hresult, hrest, rfl⟩
  have hop : (c.lift Gen.clearStackCaches).currentOpcode = op := by
    have hspills := c.toGen.spills_clearStackCaches.emits.currentOpcode
    exact hspills.trans h.opcode
  refine ⟨(Gen.callDevice_currentOpcode ..).trans hop, h.pc, h.active, rfl, hafter.running, ?_, rfl⟩
  exact Gen.mirrors_of_agrees hafter.tracks hafter.agrees hafter.uncached

theorem live_push (s : Stk) (isShort : Bool) (v : Short) (f : Uxn.Frame) :
    (Uxn.push s isShort v).Along Uxn.perform Uxn.Live f := by
  cases isShort with
  | true => exact ⟨trivial, trivial, trivial⟩
  | false => exact ⟨trivial, trivial⟩

theorem narrow_input (isShort : Bool) (a : Byte) (v : Console) :
    (v.input D isShort a).1.setWidth 64 = narrow isShort (v.input D isShort a).1 := by
  cases isShort with
  | true => rfl
  | false =>
    have hbyte : (v.input D false a).1 = (v.dei D a).1.setWidth 16 := rfl
    rw [hbyte, narrow, ← Layout.setWidth_byte]
    simp

/-- **DEI.** -/
theorem coupled_DEI (hE : E.Implements D) (h : Drawing E σ₀ W op pc [] q f) :
    Coupled (translating E σ₀ fuel rs) DEI (Uxn.ports (opFlag2 op) .DEI)
      (fun _ r q' f' =>
        let (v, after) := (⟨f'.toUxn, W⟩ : Console).input D (opFlag2 op) r.1
        InStep E σ₀ after.world op pc [] q'
          ((Uxn.push (opStack op) (opFlag2 op) v).run Uxn.perform (after.enter op)).2) q f := by
  refine coupled_bind (coupled_popByte h) fun addr a q f ⟨h, _⟩ => ?_
  refine coupled_flag2 h.toInStep ?_
  refine coupled_allocReg h.toInStep fun reg w₀ q h => ?_
  intro halong _
  obtain ⟨q', h', hresult, halong', hrun⟩ := h.callsDevice halong
    (List.mem_cons_of_mem _ List.mem_cons_self) fun m t hm => hm.input hE (opFlag2 op) a
  rw [hrun]
  have hvalue : (q'.1.mach E σ₀).regs (.op reg) = narrow (opFlag2 op)
      ((⟨f.toUxn, W⟩ : Console).input D (opFlag2 op) a).1 := by
    rw [hresult reg rfl, narrow_input]
  exact coupled_cur h' (coupled_pushValue h' (opStack op) rfl hvalue) halong' (live_push _ _ _ _)

/-- **DEO.** -/
theorem coupled_DEO (hE : E.Implements D) (h : Drawing E σ₀ W op pc [] q f) :
    Coupled (translating E σ₀ fuel rs) DEO (Uxn.ports (opFlag2 op) .DEO)
      (fun _ r q' f' =>
        let after := (⟨f'.toUxn, W.put (opFlag2 op) r.1 r.2⟩ : Console).notify D (opFlag2 op) r.1
        InStep E σ₀ after.world op pc [] q' (after.enter op)) q f := by
  refine coupled_bind (coupled_popByte h) fun addr a q f ⟨h, _⟩ => ?_
  refine coupled_bind (coupled_pop h) fun value v q f ⟨h, hv⟩ => ?_
  refine coupled_deviceStore h.toInStep (List.mem_cons_of_mem _ List.mem_cons_self) hv.size
    List.mem_cons_self fun q h => ?_
  intro halong _
  rw [hv.size] at halong ⊢
  obtain ⟨q', h', -, -, hrun⟩ := h.callsDevice (k := Pure.pure) halong
    (List.mem_cons_of_mem _ List.mem_cons_self) fun m t hm => hm.notify hE (opFlag2 op) a
  have hend := congrArg Prod.snd hrun
  change InStep E σ₀ _ op pc [] (run (translating E σ₀ fuel rs).left _ q).2 _
  exact hend ▸ h'

end Accesses

end BuxnJit
