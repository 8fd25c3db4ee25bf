import BuxnJit.Jit.Contexts
import BuxnJit.Jit.Mirrors
import BuxnJit.Jit.Requests
import BuxnJit.Jit.Skips

/-!
# How code leaves a block

A jump leaves the block by returning an address or along a link (`jump_departs`); a conditional jump
does or passes control on to the next opcode (`conditionalJump_parts`). Memory and stacks are those of
the reference then (`Agrees`), and the exit leads where the reference goes (`Exit.LeadsTo`).
-/

namespace BuxnJit

open Foundations

/-! ## Memory and stacks -/

/-- Memory, stacks and world are those of the reference. -/
structure Agrees (σ : Mach) (u : Console) : Prop where
  memory : σ.mem.cells .memory = u.memory
  stack : ∀ s, Deferred (σ.stackData s) (σ.stackPtr s) [] (u.stack s)
  world : Shows σ u.world

namespace Gen

variable {E : Env} {σ₀ : Mach} {g : Gen} {cells : Stk → List Word} {u : Uxn} {W : World}

theorem Uncached.pendingOf (hnil : g.Uncached) (cells : Stk → List Word) (s : Stk) :
    pendingOf (g.valued cells s) = [] := by
  rw [valued, hnil s]
  rfl

theorem Mirrors.agrees (h : Mirrors E σ₀ W cells g u) (hnil : g.Uncached) :
    Agrees (g.mach E σ₀) ⟨u, W⟩ := by
  refine ⟨h.memory, fun s => ?_, h.world⟩
  rw [← hnil.pendingOf cells s]
  exact h.stack s

theorem mirrors_of_agrees (htracks : Tracks E (g.mach E σ₀) g) (h : Agrees (g.mach E σ₀) ⟨u, W⟩)
    (hnil : g.Uncached) : Mirrors E σ₀ W cells g u := by
  refine ⟨htracks, h.memory, fun s => ?_, fun s e he => ?_, h.world⟩
  · rw [hnil.pendingOf cells s]
    exact h.stack s
  · rw [valued, hnil s] at he
    cases he

end Gen

theorem Agrees.idle {σ τ : Mach} {u : Console} (h : Agrees σ u) (hidle : Gen.Idle σ τ) :
    Agrees τ u := by
  refine ⟨by rw [hidle.mem, h.memory], fun s => ?_, ?_⟩
  · rw [Mach.stackData_congr hidle.mem, hidle.ptr]
    exact h.stack s
  · exact h.world.congr (by rw [hidle.mem]) (by rw [hidle.mem]) hidle.trace

/-! ## Exits -/

/-- What a block returns to have control go there. -/
def Next.word : Next → BitVec 32
  | .goto pc => pc.setWidth 32
  | .halt => 0x10000

/-- The exit leads there, where the requests `rs` are linked. -/
def Exit.LeadsTo (rs : List Request) (nx : Next) : Exit → Prop
  | .ret v => v = nx.word
  | .link j => ∃ target, ⟨.toBody, j, target⟩ ∈ rs ∧ nx = .goto target

/-- The machine has left the block. -/
structure Departed (E : Env) (rs : List Request) (nx : Next) (σ : Mach) (u : Console) : Prop where
  agrees : Agrees σ u
  vm : σ.regs .vm = E.layout.vm
  leads : ∃ e, σ.status = .left e ∧ e.LeadsTo rs nx

theorem Departed.mono {E : Env} {rs rs' : List Request} {nx : Next} {σ : Mach} {u : Console}
    (h : Departed E rs nx σ u) (hsub : rs ⊆ rs') : Departed E rs' nx σ u := by
  obtain ⟨e, he, hleads⟩ := h.leads
  refine ⟨h.agrees, h.vm, e, he, ?_⟩
  cases e with
  | ret v => exact hleads
  | link j =>
    obtain ⟨target, hmem, hnx⟩ := hleads
    exact ⟨target, hsub hmem, hnx⟩

/-! ## Jumps -/

section Jumps

open Emit Prog

variable {E : Env} {σ₀ : Mach} {next : Ctx → Ctx} {inner : Ctx → List Request} {c : Ctx} {u : Console}
  {target : Operand Reg} {returnAddr : Short}

/-- The code is about to jump. -/
structure AtJump (E : Env) (σ₀ : Mach) (c : Ctx) (u : Console) : Prop where
  running : (c.mach E σ₀).status = .running
  uncached : c.Uncached
  tracks : Tracks E (c.mach E σ₀) c.toGen
  agrees : Agrees (c.mach E σ₀) u

/-- A jump to the target goes to `v`. -/
structure Aims (σ : Mach) (target : Operand Reg) (v : Short) : Prop where
  register : target.semantics.immJmp = false → σ.regs target.reg = v.setWidth 64
  constant : target.semantics.immJmp = true → target.semantics.const = true ∧ target.constValue = v

/-- A target that is a byte, as an address. -/
def Operand.absolute (pc : Short) (target : Operand Reg) : Operand Reg :=
  if target.isShort then target
  else { target with constValue := pc + (target.constValue.setWidth 8).signExtend 16 }

/-- The code that computes this address. -/
def Ctx.approach (target : Operand Reg) (c : Ctx) : Ctx :=
  if target.isShort then c
  else c.lift fun g => (g.emit (.op1 .movS8 target.reg (.reg target.reg))).emit
    (.op2 .add target.reg target.reg (.imm (c.pc.setWidth 64)))

theorem jump_eq (hdirect : ¬(target.isShort = false ∧ target.semantics.boolean = true)) :
    Emit.jump target returnAddr = (Emit.clearStackCaches >>= fun _ =>
      if target.isShort then jumpAbs target returnAddr else jumpRelative target returnAddr) := by
  have hjump : Emit.jump target returnAddr = (Emit.clearStackCaches >>= fun _ =>
      if target.isShort then Emit.jumpAbs target returnAddr else
        if target.semantics.boolean then Emit.jumpBoolean target
        else Emit.jumpRelative target returnAddr) := rfl
  rw [hjump]
  congr 1
  funext _
  split
  · rfl
  next hbyte => rw [if_neg fun hbool => hdirect ⟨by simpa using hbyte, hbool⟩]

theorem lift_clear (hnil : c.Uncached) : c.lift Gen.clearStackCaches = c := by
  have hclear : c.toGen.clearStackCaches = c.toGen := hnil.spills c.toGen.spills_clearStackCaches
  rw [Ctx.lift, hclear]

variable (next) in
theorem run_jump (hnil : c.Uncached)
    (hdirect : ¬(target.isShort = false ∧ target.semantics.boolean = true)) :
    run (handle next) (Emit.jump target returnAddr) c =
      run (handle next) (jumpAbs (target.absolute c.pc) returnAddr) (c.approach target) := by
  rw [jump_eq hdirect, run_bind]
  show run (handle next) _ (c.lift Gen.clearStackCaches) = _
  rw [lift_clear hnil, Operand.absolute, Ctx.approach]
  split
  · rfl
  · rfl

variable (next inner) in
theorem gather_jump (hnil : c.Uncached)
    (hdirect : ¬(target.isShort = false ∧ target.semantics.boolean = true)) :
    gather (handle next) (Micro.requested inner) (Emit.jump target returnAddr) c =
      gather (handle next) (Micro.requested inner) (jumpAbs (target.absolute c.pc) returnAddr)
        (c.approach target) := by
  rw [jump_eq hdirect, gather_bind]
  show [] ++ gather (handle next) (Micro.requested inner) _ (c.lift Gen.clearStackCaches) = _
  rw [lift_clear hnil, Operand.absolute, Ctx.approach, List.nil_append]
  split
  · rfl
  · rfl

variable (next target returnAddr) in
/-- What is left of the machine by `jumpAbs`. -/
theorem mach_jumpAbs (hrun : (c.mach E σ₀).status = .running) :
    (run (handle next) (jumpAbs target returnAddr) c).2.mach E σ₀ =
      (c.mach E σ₀).jumpAbs E c.labels target returnAddr := by
  rw [← exec_jumpAbsCode hrun, run_jumpAbs_toGen, Gen.mach, Mach.exec_append]
  rfl

theorem idle_left (σ : Mach) (e : Exit) : Gen.Idle σ { σ with status := .left e } := ⟨rfl, fun _ => rfl, rfl⟩

theorem word_goto (v : Short) : (v.setWidth 64 : Word).setWidth 32 = (Next.goto v).word := by
  simp [Next.word]

/-- A jump along a link goes to its target. -/
theorem Aims.eq_of_link {σ : Mach} {v : Short} (h : Aims σ target v)
    (hlink : target.semantics.const = true ∧ (target.semantics.immJmp = true ∨
      σ.regs target.reg = target.constValue.setWidth 64)) : target.constValue = v := by
  cases himm : target.semantics.immJmp with
  | true => exact (h.constant himm).2
  | false =>
    have hreg := (hlink.2.resolve_left (by simp [himm])).symm.trans (h.register himm)
    have hback := congrArg (BitVec.setWidth 16) hreg
    simpa using hback

theorem Aims.immJmp_of_not_link {σ : Mach} {v : Short} (h : Aims σ target v)
    (hlink : ¬(target.semantics.const = true ∧ (target.semantics.immJmp = true ∨
      σ.regs target.reg = target.constValue.setWidth 64))) : target.semantics.immJmp = false := by
  by_contra himm
  have himm' : target.semantics.immJmp = true := by simpa using himm
  exact hlink ⟨(h.constant himm').1, .inl himm'⟩

/-- **An absolute jump.** -/
theorem jumpAbs_departs (h : AtJump E σ₀ c u) {v : Short} (haim : Aims (c.mach E σ₀) target v) :
    Departed E (gather (handle next) (Micro.requested inner) (jumpAbs target 0) c) (.goto v)
      ((run (handle next) (jumpAbs target 0) c).2.mach E σ₀) u := by
  rw [mach_jumpAbs next target 0 h.running, gather_jumpAbs, Mach.jumpAbs]
  by_cases hlink : target.semantics.const = true ∧ (target.semantics.immJmp = true ∨
      (c.mach E σ₀).regs target.reg = target.constValue.setWidth 64)
  · rw [if_pos hlink, if_pos rfl, if_pos hlink.1, haim.eq_of_link hlink]
    exact ⟨h.agrees.idle (idle_left _ _), h.tracks.vm, .link c.labels, rfl, v, List.mem_singleton_self _, rfl⟩
  · rw [if_neg hlink]
    refine ⟨h.agrees.idle (idle_left _ _), h.tracks.vm, .ret _, rfl, ?_⟩
    show ((c.mach E σ₀).regs target.reg).setWidth 32 = _
    rw [haim.register (haim.immJmp_of_not_link hlink), word_goto]

/-- A jump by the byte `b` from `pc` does not leave the memory. -/
def Inside (pc : Short) (b : Byte) : Prop :=
  0 ≤ (pc.toNat : ℤ) + b.toInt ∧ (pc.toNat : ℤ) + b.toInt < 0x10000

instance (pc : Short) (b : Byte) : Decidable (Inside pc b) := inferInstanceAs (Decidable (_ ∧ _))

theorem relative_inside {pc : Short} {b : Byte} (h : Inside pc b) :
    (b.signExtend 64 + pc.setWidth 64 : Word) = (Uxn.relative pc b).setWidth 64 := by
  obtain ⟨hlow, hhigh⟩ := h
  have hword : (b.signExtend 64 + pc.setWidth 64 : Word) = BitVec.ofInt 64 (pc.toNat + b.toInt) := by
    rw [BitVec.ofInt_add, BitVec.ofInt_natCast, BitVec.ofNat_toNat, BitVec.add_comm]
    rfl
  have hshort : Uxn.relative pc b = BitVec.ofInt 16 (pc.toNat + b.toInt) := by
    rw [BitVec.ofInt_add, BitVec.ofInt_natCast, BitVec.ofNat_toNat, BitVec.setWidth_eq]
    rfl
  rw [hword, hshort]
  apply BitVec.eq_of_toNat_eq
  rw [BitVec.toNat_setWidth, BitVec.toNat_ofInt, BitVec.toNat_ofInt]
  omega

/-- The target is a byte or a short in an operand register, or an immediate one; a byte does not lead
out of the memory. -/
structure Targets (σ : Mach) (pc : Short) (target : Operand Reg) (v : Short) : Prop extends
    Aims σ target v where
  direct : ¬(target.isShort = false ∧ target.semantics.boolean = true)
  byte : target.isShort = false → target.semantics.immJmp = false ∧ (∃ r, target.reg = .op r) ∧
    (Uxn.lo v).setWidth 16 = v ∧ Inside pc (Uxn.lo v)

theorem AtJump.approach (h : AtJump E σ₀ c u) {v : Short} (ht : Targets (c.mach E σ₀) c.pc target v) :
    AtJump E σ₀ (c.approach target) u ∧
      Aims ((c.approach target).mach E σ₀) (target.absolute c.pc)
        (Uxn.destination target.isShort c.pc v) := by
  unfold Ctx.approach Operand.absolute Uxn.destination
  cases hsize : target.isShort with
  | true => exact ⟨h, ht.toAims⟩
  | false =>
    obtain ⟨himm, ⟨r, hr⟩, hv, hin⟩ := ht.byte hsize
    have hreg := ht.register himm
    rw [hr] at hreg ⊢
    simp only [Bool.false_eq_true, if_false]
    have hfirst : ((c.toGen.emit (.op1 .movS8 (.op r) (.reg (.op r)))).mach E σ₀).status = .running :=
      (Mach.step_status (by rfl)).trans h.running
    have hsign : ((c.toGen.emit (.op1 .movS8 (.op r) (.reg (.op r)))).mach E σ₀).regs (.op r) =
        (Uxn.lo v).signExtend 64 := by
      rw [Gen.mach_emit, Mach.step_op1 h.running]
      show (((c.mach E σ₀).regs (.op r)).setWidth 8).signExtend 64 = _
      rw [hreg, word_lo]
    have hstill : Gen.Emits Gen.Still c.toGen
        ((c.toGen.emit (.op1 .movS8 (.op r) (.reg (.op r)))).emit
          (.op2 .add (.op r) (.op r) (.imm (c.pc.setWidth 64)))) := by
      refine (Gen.Emits.emit .refl ?_).emit ?_ <;>
        exact ⟨⟨rfl, by simp, by simp⟩, by simp, by simp, by simp⟩
    have hafter := Gen.Aligned.emits ⟨h.running, h.tracks⟩ hstill.of_still
    refine ⟨⟨hafter.running, h.uncached, hafter.tracks, h.agrees.idle (Gen.idle_of_emits hstill)⟩, ?_, ?_⟩
    · intro _
      show ((Gen.emit _ _).mach E σ₀).regs (.op r) = _
      rw [Gen.mach_emit, Mach.step_op2 hfirst, hsign, ← relative_inside hin]
      rfl
    · intro hi
      rw [himm] at hi
      cases hi

variable (next inner) in
/-- **A jump.** -/
theorem jump_departs (h : AtJump E σ₀ c u) {v : Short} (ht : Targets (c.mach E σ₀) c.pc target v) :
    Departed E (gather (handle next) (Micro.requested inner) (Emit.jump target 0) c)
      (.goto (Uxn.destination target.isShort c.pc v))
      ((run (handle next) (Emit.jump target 0) c).2.mach E σ₀) u := by
  obtain ⟨hat, haim⟩ := h.approach ht
  rw [run_jump next h.uncached ht.direct, gather_jump next inner h.uncached ht.direct]
  exact jumpAbs_departs hat haim

/-- The code of a jump refers to no older label. -/
theorem grows_jump (hnil : c.Uncached)
    (hdirect : ¬(target.isShort = false ∧ target.semantics.boolean = true)) :
    Gen.Grows c.labels c.toGen (run (handle next) (Emit.jump target 0) c).2.toGen := by
  have happroach : Gen.Grows c.labels c.toGen (c.approach target).toGen := by
    unfold Ctx.approach
    split
    · exact .refl _ _
    · exact ((Gen.Grows.refl _ _).emit (by simp [Instr.labelRef])).emit (by simp [Instr.labelRef])
  rw [run_jump next hnil hdirect, run_jumpAbs_toGen]
  refine happroach.trans ⟨Nat.le_add_right _ _, _, rfl, ?_⟩
  intro i hi l hl
  simp only [jumpAbsCode, if_true] at hi
  split at hi
  · obtain rfl | hi := List.mem_cons.mp hi
    · simp [Instr.labelRef] at hl
    · obtain rfl := List.mem_singleton.mp hi
      split at hl <;> simp [Instr.labelRef] at hl
  · obtain rfl := List.mem_singleton.mp hi
    simp [Instr.labelRef] at hl

/-- The context at the jump of a conditional jump. -/
def Ctx.tested (condition : Operand OpReg) (c : Ctx) : Ctx :=
  { c.lift (·.emit (.andFlags (.op condition.reg) 0xff)) with labels := c.labels + 1 }.lift
    (·.emit (.jumpFlag .equal c.labels))

theorem run_conditionalJump (hnil : c.Uncached) (condition : Operand OpReg) :
    (run (handle next) (conditionalJump condition target) c).2 =
      (run (handle next) (Emit.jump target 0) (c.tested condition)).2.lift
        (·.emit (.label c.labels)) := by
  have hrun : (run (handle next) (conditionalJump condition target) c).2 =
      (run (handle next) (Emit.jump target 0)
        ((c.lift Gen.clearStackCaches).tested condition)).2.lift
          (·.emit (.label (c.lift Gen.clearStackCaches).labels)) := by
    simp only [conditionalJump, run_bind]
    rfl
  rw [hrun, lift_clear hnil]

theorem gather_conditionalJump (hnil : c.Uncached) (condition : Operand OpReg) :
    gather (handle next) (Micro.requested inner) (conditionalJump condition target) c =
      gather (handle next) (Micro.requested inner) (Emit.jump target 0) (c.tested condition) := by
  have hgather : gather (handle next) (Micro.requested inner) (conditionalJump condition target) c =
      gather (handle next) (Micro.requested inner) (Emit.jump target 0)
        ((c.lift Gen.clearStackCaches).tested condition) ++ [] := by
    simp only [conditionalJump, gather_bind]
    rfl
  rw [hgather, lift_clear hnil, List.append_nil]

/-- The flags are set, and the jump is skipped if the condition is zero. -/
theorem mach_tested (hrun : (c.mach E σ₀).status = .running) {condition : Operand OpReg} {b : Byte}
    (hcond : (c.mach E σ₀).regs (.op condition.reg) = b.setWidth 64) :
    (c.tested condition).mach E σ₀ =
      { c.mach E σ₀ with
        flags := .compare (b.setWidth 64) 0
        status := if b = 0 then .skipping c.labels else .running } := by
  have hmach : (c.tested condition).mach E σ₀ =
      ((c.mach E σ₀).step E (.andFlags (.op condition.reg) 0xff)).step E
        (.jumpFlag .equal c.labels) := rfl
  have hmask : ∀ b : Byte, (b.setWidth 64 : Word) &&& 0xff = b.setWidth 64 := by decide +kernel
  have hzero : ∀ b : Byte, (b.setWidth 64 : Word) = 0#64 ↔ b = 0#8 := by decide +kernel
  have hflags : (c.mach E σ₀).step E (.andFlags (.op condition.reg) 0xff) =
      { c.mach E σ₀ with flags := .compare (b.setWidth 64) 0 } := by
    rw [Mach.step_running hrun, Instr.exec, hcond, hmask]
  rw [hmach, hflags]
  by_cases hb : b = 0#8 <;>
    simp [Mach.step, hrun, Instr.exec, Cond.holds, Flags.compare, hzero, hb]

variable (next) in
theorem jump_books (hnil : c.Uncached)
    (hdirect : ¬(target.isShort = false ∧ target.semantics.boolean = true)) :
    (run (handle next) (Emit.jump target 0) c).2.cache = c.cache ∧
      (run (handle next) (Emit.jump target 0) c).2.memBase = c.memBase := by
  have happroach : (c.approach target).cache = c.cache ∧ (c.approach target).memBase = c.memBase := by
    unfold Ctx.approach
    split <;> exact ⟨rfl, rfl⟩
  rw [run_jump next hnil hdirect, run_jumpAbs_toGen]
  refine ⟨happroach.1, ?_⟩
  rw [show ((0 : Short) != 0) = false by rfl, Bool.and_false]
  exact happroach.2

variable (next inner) in
/-- **A conditional jump** is made unless the condition is zero. -/
theorem conditionalJump_parts (h : AtJump E σ₀ c u) {v : Short}
    (hdirect : ¬(target.isShort = false ∧ target.semantics.boolean = true))
    {condition : Operand OpReg} {b : Byte}
    (hcond : (c.mach E σ₀).regs (.op condition.reg) = b.setWidth 64)
    (ht : b ≠ 0 → Targets (c.mach E σ₀) c.pc target v) :
    if b = 0 then AtJump E σ₀ (run (handle next) (conditionalJump condition target) c).2 u
    else Departed E (gather (handle next) (Micro.requested inner) (conditionalJump condition target) c)
      (.goto (Uxn.destination target.isShort c.pc v))
      ((run (handle next) (conditionalJump condition target) c).2.mach E σ₀) u := by
  have htested := mach_tested h.running hcond
  have hbooks := jump_books next (c := c.tested condition) h.uncached hdirect
  rw [run_conditionalJump h.uncached, gather_conditionalJump h.uncached]
  have hlabel : ∀ d : Ctx, (d.lift (·.emit (.label c.labels))).mach E σ₀ =
      (d.mach E σ₀).step E (.label c.labels) := fun _ => rfl
  by_cases hb : b = 0
  · rw [if_pos hb] at htested ⊢
    have hgrows : Gen.Grows (c.labels + 1) (c.tested condition).toGen
        (run (handle next) (Emit.jump target 0) (c.tested condition)).2.toGen :=
      grows_jump (c := c.tested condition) h.uncached hdirect
    generalize (run (handle next) (Emit.jump target 0) (c.tested condition)).2 = d at hbooks hgrows ⊢
    have hskipped : d.mach E σ₀ = (c.tested condition).mach E σ₀ := by
      apply hgrows.mach_eq
      · rw [htested]
        simp
      · rw [htested]
        intro l hl
        cases hl
        exact Nat.lt_succ_self _
    have hback : (d.lift (·.emit (.label c.labels))).mach E σ₀ =
        { c.mach E σ₀ with flags := .compare (b.setWidth 64) 0, status := .running } := by
      rw [hlabel, hskipped, htested, Mach.step]
      exact if_pos rfl
    constructor
    · rw [hback]
    · intro s
      exact (congrFun hbooks.1 s).trans (h.uncached s)
    · rw [hback]
      exact ⟨h.tracks.vm, fun r hr => h.tracks.base r (hbooks.2.symm.trans hr)⟩
    · rw [hback]
      exact h.agrees.idle ⟨rfl, fun _ => rfl, rfl⟩
  · rw [if_neg hb] at htested ⊢
    have hat : AtJump E σ₀ (c.tested condition) u := by
      refine ⟨by rw [htested], h.uncached, ?_, ?_⟩
      · rw [htested]
        exact ⟨h.tracks.vm, h.tracks.base⟩
      · rw [htested]
        exact h.agrees.idle ⟨rfl, fun _ => rfl, rfl⟩
    have haim : Targets ((c.tested condition).mach E σ₀) c.pc target v := by
      obtain ⟨⟨hregister, hconstant⟩, hdirect, hbyte⟩ := ht hb
      rw [htested]
      exact ⟨⟨hregister, hconstant⟩, hdirect, hbyte⟩
    have hdeparts := jump_departs next inner hat haim
    obtain ⟨hagrees, hvm, e, he, hleads⟩ := hdeparts
    have hleft : ∀ σ : Mach, σ.status = .left e → σ.step E (.label c.labels) = σ := by
      intro σ hσ
      rw [Mach.step, hσ]
    rw [hlabel, hleft _ he]
    exact ⟨hagrees, hvm, e, he, hleads⟩

/-! ### Calls -/

/-- A called block comes back to `nx`, with the state `u` of the reference. -/
structure Returned (nx : Next) (u : Console) (σ : Mach) : Prop where
  agrees : Agrees σ u
  back : σ.regs .memBase = nx.word.setWidth 64

/-- The called blocks take the reference from a state that satisfies `P` to another. -/
def CallsWell (E : Env) (rs : List Request) (P : Next → Console → Prop) : Prop :=
  ∀ j pc, ⟨.toHead, j, pc⟩ ∈ rs → ∀ (σ : Mach) (u : Console), σ.status = .running →
    σ.regs .vm = E.layout.vm → Agrees σ u → P (.goto pc) u →
      ∃ nx u', P nx u' ∧ Returned nx u' (E.call j σ)

theorem word_eq_goto {nx : Next} {pc : Short}
    (h : (nx.word.setWidth 64 : Word) = pc.setWidth 64) : nx = .goto pc := by
  have hnat := congrArg BitVec.toNat h
  have hpc := pc.isLt
  cases nx with
  | goto pc' =>
    have hpc' := pc'.isLt
    simp only [Next.word, BitVec.toNat_setWidth] at hnat
    rw [Next.goto.injEq]
    apply BitVec.eq_of_toNat_eq
    omega
  | halt =>
    have hhalt : Next.halt.word.toNat = 0x10000 := rfl
    simp only [BitVec.toNat_setWidth, hhalt] at hnat
    omega

/-- **A call** goes on behind it when control comes back there; else it leaves the block, like a jump
to a target that is not known. -/
theorem jumpAbs_calls (h : AtJump E σ₀ c u) {v : Short} (haim : Aims (c.mach E σ₀) target v)
    (hra : returnAddr ≠ 0) {P : Next → Console → Prop} (hP : P (.goto v) u)
    (hcalls : CallsWell E (gather (handle next) (Micro.requested inner) (jumpAbs target returnAddr) c)
      P) :
    (∃ u', P (.goto returnAddr) u' ∧
      AtJump E σ₀ (run (handle next) (jumpAbs target returnAddr) c).2 u') ∨
    ∃ nx u', P nx u' ∧
      Departed E (gather (handle next) (Micro.requested inner) (jumpAbs target returnAddr) c) nx
        ((run (handle next) (jumpAbs target returnAddr) c).2.mach E σ₀) u' := by
  have hmach := mach_jumpAbs next target returnAddr h.running
  rw [Mach.jumpAbs] at hmach
  by_cases hlink : target.semantics.const = true ∧ (target.semantics.immJmp = true ∨
      (c.mach E σ₀).regs target.reg = target.constValue.setWidth 64)
  · have heq := haim.eq_of_link hlink
    rw [if_pos hlink, if_neg hra] at hmach
    have hrequest : ⟨.toHead, c.labels + 1, v⟩ ∈
        gather (handle next) (Micro.requested inner) (jumpAbs target returnAddr) c := by
      rw [gather_jumpAbs, if_pos hlink.1, if_neg hra, heq]
      exact List.mem_singleton_self _
    obtain ⟨nx, u', hP', hagrees, hback⟩ :=
      hcalls _ _ hrequest _ _ h.running h.tracks.vm h.agrees hP
    generalize hτ : (Instr.call (c.labels + 1)).exec E (c.mach E σ₀) = τ at hmach
    have hidle : Gen.Idle (E.call (c.labels + 1) (c.mach E σ₀)) τ := by
      rw [← hτ]
      exact ⟨rfl, fun s => by simp [Instr.exec, Mach.stackPtr], rfl⟩
    have hbase : τ.regs .memBase = nx.word.setWidth 64 := by
      rw [← hback, ← hτ]
      simp [Instr.exec]
    have hvm : τ.regs .vm = E.layout.vm := by
      rw [← h.tracks.vm, ← hτ]
      simp [Instr.exec]
    have hstatus : τ.status = .running := by
      rw [← hτ]
      rfl
    by_cases hsame : τ.regs .memBase = returnAddr.setWidth 64
    · rw [if_pos hsame] at hmach
      rw [hbase] at hsame
      obtain rfl := word_eq_goto hsame
      refine .inl ⟨u', hP', ?_, ?_, ?_, ?_⟩
      · rw [hmach, hstatus]
      · rw [run_jumpAbs_toGen]
        exact h.uncached
      · rw [hmach, run_jumpAbs_toGen, hlink.1, show (returnAddr != 0) = true by simpa using hra]
        refine ⟨hvm, ?_⟩
        rintro r ⟨⟩
      · rw [hmach]
        exact hagrees.idle hidle
    · rw [if_neg hsame] at hmach
      refine .inr ⟨nx, u', hP', ?_, ?_, .ret nx.word, ?_, rfl⟩
      · rw [hmach]
        exact (hagrees.idle hidle).idle (idle_left _ _)
      · rw [hmach]
        exact hvm
      · rw [hmach]
        show Status.left (.ret ((τ.regs .memBase).setWidth 32)) = _
        rw [hbase]
        simp
  · rw [if_neg hlink] at hmach
    refine .inr ⟨.goto v, u, hP, ?_, ?_, .ret _, ?_, rfl⟩
    · rw [hmach]
      exact h.agrees.idle (idle_left _ _)
    · rw [hmach]
      exact h.tracks.vm
    · rw [hmach]
      show Status.left (.ret (((c.mach E σ₀).regs target.reg).setWidth 32)) = _
      rw [haim.register (haim.immJmp_of_not_link hlink), word_goto]

variable (next inner) in
/-- **A call by a jump.** -/
theorem jump_calls (h : AtJump E σ₀ c u) {v : Short} (ht : Targets (c.mach E σ₀) c.pc target v)
    (hra : returnAddr ≠ 0) {P : Next → Console → Prop}
    (hP : P (.goto (Uxn.destination target.isShort c.pc v)) u)
    (hcalls : CallsWell E (gather (handle next) (Micro.requested inner) (Emit.jump target returnAddr)
      c) P) :
    (∃ u', P (.goto returnAddr) u' ∧
      AtJump E σ₀ (run (handle next) (Emit.jump target returnAddr) c).2 u') ∨
    ∃ nx u', P nx u' ∧
      Departed E (gather (handle next) (Micro.requested inner) (Emit.jump target returnAddr) c) nx
        ((run (handle next) (Emit.jump target returnAddr) c).2.mach E σ₀) u' := by
  obtain ⟨hat, haim⟩ := h.approach ht
  rw [gather_jump next inner h.uncached ht.direct] at hcalls ⊢
  rw [run_jump next h.uncached ht.direct]
  exact jumpAbs_calls hat haim hra hP hcalls

end Jumps

/-! ## Operands are no immediate targets -/

/-- No value on a stack is the target of an immediate jump. -/
def Ctx.NoTargets (c : Ctx) : Prop := ∀ s i, (c.tags s i).semantics.immJmp = false

/-- The operands that an opcode gets are none. -/
def Micro.GetsPlain : (o : Micro) → o.Res → Prop
  | .popEx _ _, o => o.semantics.immJmp = false
  | .immediate _, o => o.semantics.immJmp = false
  | _, _ => True

/-- The operands that it pushes are none. -/
def Micro.PushesPlain : Micro → Prop
  | .pushEx o _ => o.semantics.immJmp = false
  | _ => True

section Shape

open Emit Prog

attribute [local simp] dispatch BRK LIT INC POP NIP SWP ROT DUP OVR EQU NEQ GTH LTH STH LDZ STZ LDR
  STR LDA STA DEI DEO ADD SUB MUL DIV AND ORA EOR SFT JMP JCN JSR JCI JMI JSI arith compareOp loadPush
  Emit.relative pop popByte push popEx pushEx allocReg alu wrapAround flag2 cur ask perform
  immediateJumpTarget newLabel clearStackCaches finalize emit jump jumpAbs jumpBoolean jumpRelative
  conditionalJump callTo Prog.bind bind_eq pure_eq ite_bind

theorem immJmp_result (a b : Operand OpReg) (isShort : Bool) (v : Short) (r : OpReg) :
    (result a b isShort v r).semantics.immJmp = false := by
  unfold result
  split <;> rfl

theorem under_plain (mn : Mnemonic) :
    Under (F := micro) Micro.GetsPlain Micro.PushesPlain (dispatch mn) := by
  cases mn <;>
    simp [Under, Micro.GetsPlain, Micro.PushesPlain, under_ite, immJmp_result, Semantics.none,
      Semantics.onlyBoolean] <;> grind

end Shape

namespace Ctx

variable {c : Ctx} (flag2 : Bool) (s : Stk)

theorem NoTargets.popEx (h : c.NoTargets) : (c.popEx flag2 s).1.semantics.immJmp = false := by
  show (c.popSemantics flag2 s).1.1.immJmp = false
  unfold popSemantics
  cases flag2 with
  | false => exact h s _
  | true =>
    simp only [if_true]
    split <;> rfl

theorem NoTargets.pushValue (h : c.NoTargets) {v : Value} (hv : v.semantics.immJmp = false) :
    (c.pushValue s v).NoTargets := by
  intro s' i
  show (Function.update c.tags s (Function.update (c.tags s) (c.ptr s) v) s' i).semantics.immJmp = _
  by_cases hs : s' = s
  · subst hs
    rw [Function.update_self]
    by_cases hi : i = c.ptr s'
    · rw [hi, Function.update_self, hv]
    · rw [Function.update_of_ne hi]
      exact h s' i
  · rw [Function.update_of_ne hs]
    exact h s' i

theorem NoTargets.pushEx (h : c.NoTargets) {o : Operand OpReg} (ho : o.semantics.immJmp = false) :
    (c.pushEx o s).NoTargets := by
  have h' : (c.lift fun g => (g.assert (g.refCounts o.reg != 0)).stackCachePush s o).NoTargets := h
  unfold Ctx.pushEx
  simp only
  split
  · exact (h'.pushValue s ho).pushValue s ho
  · exact h'.pushValue s ho

end Ctx

theorem handle_noTargets {next : Ctx → Ctx} (hnext : ∀ c : Ctx, c.NoTargets → (next c).NoTargets)
    (o : Micro) {c : Ctx} (ho : o.PushesPlain) (h : c.NoTargets) :
    (handle next o c).2.NoTargets := by
  cases o with
  | popEx flag2 s =>
    intro s' i
    show ((c.popEx flag2 s).2.tags s' i).semantics.immJmp = false
    rw [Ctx.popEx_tags]
    exact h s' i
  | pushEx o s => exact h.pushEx s ho
  | nextOpcode => exact hnext c h
  | immediate isShort =>
    intro s i
    exact h s i
  | _ =>
    intro s i
    exact h s i

theorem gets_noTargets {next : Ctx → Ctx} (o : Micro) {c : Ctx} (h : c.NoTargets) :
    o.GetsPlain (handle next o c).1 := by
  cases o with
  | popEx flag2 s => exact h.popEx flag2 s
  | immediate isShort => rfl
  | _ => trivial

/-- **Jumps alone have immediate targets.** -/
theorem nextOpcode_noTargets (fuel : ℕ) (c : Ctx) (h : c.NoTargets) :
    (nextOpcode fuel c).NoTargets := by
  induction fuel generalizing c with
  | zero => exact h
  | succ fuel ih =>
    rw [nextOpcode]
    split
    · exact h
    · have hbegin : c.beginOpcode.NoTargets := h
      have hrun := Prog.run_under (h := handle (nextOpcode fuel))
        (fun o _ hc => gets_noTargets o hc) (fun o _ ho hc => handle_noTargets ih o ho hc)
        (under_plain (decode c.beginOpcode.currentOpcode)) hbegin
      exact hrun

end BuxnJit
