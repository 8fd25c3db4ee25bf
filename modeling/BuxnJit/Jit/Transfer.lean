import BuxnJit.Jit.Callbacks
import BuxnJit.Jit.Translation

/-!
# Transfer of control

An opcode that jumps or calls, compiled beside its execution, has control go where the reference
goes: it leaves the block for there, or runs on (`coupled_flow`). In a call the reference runs
through the blocks that are called, of which `CallsWell` is assumed.
-/

namespace BuxnJit

open Foundations Prog

open Uxn (opStack)

/-! ## Jumps of an opcode -/

section Jumps

open Emit

variable {E : Env} {σ₀ : Mach} {W : World} {fuel : ℕ} {rs : List Request} {op : Byte} {pc : Short}
  {ops : List (OpReg × Word)} {c : Ctx} {x : Given} {q : Ctx × Given} {f : Uxn.Frame} {α : Type}
  {next : Ctx → Ctx} {inner : Ctx → List Request} {target : Operand Reg} {returnAddr v : Short}
  {held : List OpReg} {t : Course}

/-- Code that empties the caches first is the same when they are empty. -/
theorem run_cleared (k : Unit → Op α) (c : Ctx) :
    run (handle next) (clearStackCaches >>= k) c =
      run (handle next) (clearStackCaches >>= k) (c.lift Gen.clearStackCaches) := by
  have hnil : (c.lift Gen.clearStackCaches).Uncached := c.toGen.clearStackCaches_cache
  rw [run_bind, run_bind]
  show run (handle next) (k ()) (c.lift Gen.clearStackCaches) =
    run (handle next) (k ()) ((c.lift Gen.clearStackCaches).lift Gen.clearStackCaches)
  rw [lift_clear hnil]

theorem gather_cleared (k : Unit → Op α) (c : Ctx) :
    gather (handle next) (Micro.requested inner) (clearStackCaches >>= k) c =
      gather (handle next) (Micro.requested inner) (clearStackCaches >>= k)
        (c.lift Gen.clearStackCaches) := by
  have hnil : (c.lift Gen.clearStackCaches).Uncached := c.toGen.clearStackCaches_cache
  rw [gather_bind, gather_bind]
  show [] ++ gather (handle next) (Micro.requested inner) (k ()) (c.lift Gen.clearStackCaches) =
    [] ++ gather (handle next) (Micro.requested inner) (k ())
      ((c.lift Gen.clearStackCaches).lift Gen.clearStackCaches)
  rw [lift_clear hnil]

/-- What a program requests is among the requests of the block. -/
theorem requests_subset {p : Op α}
    (halong : Along (translating E σ₀ fuel rs).left (translating E σ₀ fuel rs).assumes p q) :
    gather (handle (nextOpcode fuel)) (Micro.requested (requests fuel)) p q.1 ⊆ rs := by
  intro r hr
  rw [← gather_recording (u := Micro.give E σ₀ (nextOpcode fuel) (given E σ₀ fuel))] at hr
  exact mem_gather (fun _ _ h => h.2.2.1) halong r hr

/-- The same, where the caches are emptied first. -/
theorem requests_cleared {k : Unit → Op α}
    (halong : Along (translating E σ₀ fuel rs).left (translating E σ₀ fuel rs).assumes
      (clearStackCaches >>= k) q) :
    gather (handle (nextOpcode fuel)) (Micro.requested (requests fuel)) (clearStackCaches >>= k)
      (q.1.lift Gen.clearStackCaches) ⊆ rs := by
  rw [← gather_cleared]
  exact requests_subset halong

theorem run_translating (k : Unit → Op α) :
    (run (translating E σ₀ fuel rs).left (clearStackCaches >>= k) q).2.1 =
      (run (handle (nextOpcode fuel)) (clearStackCaches >>= k) (q.1.lift Gen.clearStackCaches)).2 :=
  (run_recording _ _).2.trans (congrArg Prod.snd (run_cleared k q.1))

/-- No jump is by a boolean. -/
theorem direct_of_along {h : Handler micro (Ctx × Given)} {P : Micro → Ctx × Given → Prop}
    (hP : ∀ o q, P o q → o.direct) (halong : Along h P (jump target returnAddr) q) :
    ¬(target.isShort = false ∧ target.semantics.boolean = true) := by
  rintro ⟨hbyte, hbool⟩
  have hjump : jump target returnAddr = (clearStackCaches >>= fun _ => jumpBoolean target) := by
    simp [jump, hbyte, hbool]
  rw [hjump] at halong
  obtain ⟨-, -, -, -, hnext, -⟩ := halong
  exact absurd (hP _ _ hnext) (by simp [Micro.direct])

/-- The micro operations of an absolute jump. -/
def Micro.leaving : Micro → Bool
  | .newLabel | .emit _ | .forgetMemBase | .linkEntry .. => true
  | _ => false

theorem only_leaving : Only (F := micro) (fun o => o.leaving) (jumpAbs target returnAddr) := by
  simp [jumpAbs, Only, Micro.leaving, only_ite, newLabel, emit, perform, bind_eq, Prog.bind]

theorem jumpAbs_frame : (run (handle next) (jumpAbs target returnAddr) c).2.pc = c.pc ∧
    (run (handle next) (jumpAbs target returnAddr) c).2.compiler = c.compiler := by
  have hkeeps : Throughout (handle next) (fun _ _ => True)
      (fun d => d.pc = c.pc ∧ d.compiler = c.compiler) (jumpAbs target returnAddr) c := by
    apply throughout_of_only (fun _ _ _ _ => trivial) _ only_leaving ⟨rfl, rfl⟩
    intro o d ho hd
    cases o <;> first
      | simp [Micro.leaving] at ho; done
      | exact hd
  exact hkeeps.2

variable (next returnAddr) in
theorem jump_frame (hnil : c.Uncached)
    (hdirect : ¬(target.isShort = false ∧ target.semantics.boolean = true)) :
    (run (handle next) (jump target returnAddr) c).2.pc = c.pc ∧
      (run (handle next) (jump target returnAddr) c).2.compiler = c.compiler := by
  have happroach : (c.approach target).pc = c.pc ∧ (c.approach target).compiler = c.compiler := by
    unfold Ctx.approach
    split <;> exact ⟨rfl, rfl⟩
  rw [run_jump next hnil hdirect]
  exact ⟨jumpAbs_frame.1.trans happroach.1, jumpAbs_frame.2.trans happroach.2⟩

/-- Compilation goes on, with empty caches. -/
structure GoesOn (E : Env) (σ₀ : Mach) (pc : Short) (c : Ctx) (u : Console) : Prop extends
    AtJump E σ₀ c u where
  pc_eq : c.pc = pc
  active : c.compiler ≠ none

/-- The code returns. -/
theorem AtJump.goesBack {u : Console} (h : AtJump E σ₀ c u) (nx : Next) (a : Src)
    (ha : ((c.mach E σ₀).src E.layout a).setWidth 32 = nx.word) :
    Departed E rs nx ((c.mach E σ₀).step E (.ret a)) u := by
  rw [Mach.step_running h.running]
  refine ⟨h.agrees.idle (idle_left _ _), h.tracks.vm, .ret nx.word, ?_, rfl⟩
  rw [← ha]
  rfl

/-- **A jump.** -/
theorem InStep.jumps (h : InStep E σ₀ W op pc ops q f)
    (halong : Along (translating E σ₀ fuel rs).left (translating E σ₀ fuel rs).assumes
      (jump target 0) q)
    (ht : ¬(target.isShort = false ∧ target.semantics.boolean = true) →
      ∀ σ : Mach, (∀ p ∈ ops, σ.regs (.op p.1) = p.2) → Targets σ pc target v) :
    Departed E rs (.goto (Uxn.destination target.isShort pc v))
      ((run (translating E σ₀ fuel rs).left (jump target 0) q).2.1.mach E σ₀) ⟨f.toUxn, W⟩ := by
  obtain ⟨c, x⟩ := q
  have hdirect := direct_of_along (fun _ _ h => h.1.direct) halong
  have hsub := requests_cleared halong
  obtain ⟨⟨-, -, -, held, t, -, -, hfollowed⟩, -⟩ := halong
  obtain ⟨hat, hregs⟩ := h.cleared hfollowed
  obtain rfl : c.pc = pc := h.pc
  have hjump := jump_departs (nextOpcode fuel) (requests fuel) hat (ht hdirect _ hregs)
  have hrun : (run (translating E σ₀ fuel rs).left (jump target 0) (c, x)).2.1 =
      (run (handle (nextOpcode fuel)) (jump target 0) (c.lift Gen.clearStackCaches)).2 :=
    run_translating _
  rw [hrun]
  exact hjump.mono hsub

/-- **A conditional jump.** -/
theorem InStep.jumpsIf (h : InStep E σ₀ W op pc ops q f) {condition : Operand OpReg} {b : Byte}
    (halong : Along (translating E σ₀ fuel rs).left (translating E σ₀ fuel rs).assumes
      (conditionalJump condition target) q) (hb : (condition.reg, b.setWidth 64) ∈ ops)
    (ht : b ≠ 0 → ¬(target.isShort = false ∧ target.semantics.boolean = true) →
      ∀ σ : Mach, (∀ p ∈ ops, σ.regs (.op p.1) = p.2) → Targets σ pc target v) :
    if b = 0 then GoesOn E σ₀ pc
      (run (translating E σ₀ fuel rs).left (conditionalJump condition target) q).2.1 ⟨f.toUxn, W⟩
    else Departed E rs (.goto (Uxn.destination target.isShort pc v))
      ((run (translating E σ₀ fuel rs).left (conditionalJump condition target) q).2.1.mach E σ₀)
      ⟨f.toUxn, W⟩ := by
  obtain ⟨c, x⟩ := q
  have hdirect : ¬(target.isShort = false ∧ target.semantics.boolean = true) := by
    have hrest : Along (translating E σ₀ fuel rs).left (translating E σ₀ fuel rs).assumes
        (jump target 0 >>= fun _ => emit (.label _)) _ := halong.2.2.2.2
    exact direct_of_along (fun _ _ h => h.1.direct) ((along_bind _ _ _).mp hrest).1
  have hsub := requests_cleared halong
  obtain ⟨⟨-, -, -, held, t, -, -, hfollowed⟩, -⟩ := halong
  obtain ⟨hat, hregs⟩ := h.cleared hfollowed
  obtain rfl : c.pc = pc := h.pc
  have hparts := conditionalJump_parts (nextOpcode fuel) (requests fuel) hat hdirect
    (hregs _ hb) fun hne => ht hne hdirect _ hregs
  have hrun : (run (translating E σ₀ fuel rs).left (conditionalJump condition target) (c, x)).2.1 =
      (run (handle (nextOpcode fuel)) (conditionalJump condition target)
        (c.lift Gen.clearStackCaches)).2 := run_translating _
  rw [hrun]
  split
  next hzero =>
    rw [if_pos hzero] at hparts
    have hframe := jump_frame (nextOpcode fuel) 0
      (c := (c.lift Gen.clearStackCaches).tested condition) hat.uncached hdirect
    refine ⟨hparts, ?_, ?_⟩
    · rw [run_conditionalJump hat.uncached]
      exact hframe.1
    · rw [run_conditionalJump hat.uncached]
      exact hframe.2.trans_ne h.active
  next hne =>
    rw [if_neg hne] at hparts
    exact hparts.mono hsub

/-- **A call.** -/
theorem InStep.calls (h : InStep E σ₀ W op pc ops q f)
    (halong : Along (translating E σ₀ fuel rs).left (translating E σ₀ fuel rs).assumes
      (jump target returnAddr) q) (hra : returnAddr ≠ 0)
    (ht : ¬(target.isShort = false ∧ target.semantics.boolean = true) →
      ∀ σ : Mach, (∀ p ∈ ops, σ.regs (.op p.1) = p.2) → Targets σ pc target v)
    {P : Next → Console → Prop} (hP : P (.goto (Uxn.destination target.isShort pc v)) ⟨f.toUxn, W⟩)
    (hcalls : CallsWell E rs P) :
    (∃ u', P (.goto returnAddr) u' ∧
      GoesOn E σ₀ pc (run (translating E σ₀ fuel rs).left (jump target returnAddr) q).2.1 u') ∨
    ∃ nx u', P nx u' ∧ Departed E rs nx
      ((run (translating E σ₀ fuel rs).left (jump target returnAddr) q).2.1.mach E σ₀) u' := by
  obtain ⟨c, x⟩ := q
  have hdirect := direct_of_along (fun _ _ h => h.1.direct) halong
  have hsub := requests_cleared halong
  obtain ⟨⟨-, -, -, held, t, -, -, hfollowed⟩, -⟩ := halong
  obtain ⟨hat, hregs⟩ := h.cleared hfollowed
  obtain rfl : c.pc = pc := h.pc
  have hjump := jump_calls (nextOpcode fuel) (requests fuel) hat (ht hdirect _ hregs)
    hra hP fun j pc hj => hcalls j pc (hsub hj)
  have hrun : (run (translating E σ₀ fuel rs).left (jump target returnAddr) (c, x)).2.1 =
      (run (handle (nextOpcode fuel)) (jump target returnAddr) (c.lift Gen.clearStackCaches)).2 :=
    run_translating _
  have hframe := jump_frame (nextOpcode fuel) returnAddr
    (c := c.lift Gen.clearStackCaches) hat.uncached hdirect
  rw [hrun]
  obtain ⟨u', hP', hback⟩ | ⟨nx, u', hP', hdeparted⟩ := hjump
  · exact .inl ⟨u', hP', hback, hframe.1, hframe.2.trans_ne h.active⟩
  · exact .inr ⟨nx, u', hP', hdeparted.mono hsub⟩

end Jumps

/-! ## Every opcode -/

/-- Code runs on where the reference goes. -/
structure Onward (E : Env) (σ₀ : Mach) (q : Ctx × Given) (nx : Next) (u : Console) : Prop where
  leads : nx = .goto q.1.pc
  active : q.1.compiler ≠ none
  running : (q.1.mach E σ₀).status = .running
  mirrors : Gen.Mirrors E σ₀ u.world q.2.cells q.1.toGen u.toUxn

/-- The code runs on where the reference is, or it runs on or has left the block where the reference
comes in a state that satisfies `P`. -/
def Outcome (E : Env) (σ₀ : Mach) (rs : List Request) (P : Next → Console → Prop) (q : Ctx × Given)
    (nx : Next) (u : Console) : Prop :=
  Onward E σ₀ q nx u ∨
    ∃ nx' u', P nx' u' ∧ (Onward E σ₀ q nx' u' ∨ Departed E rs nx' (q.1.mach E σ₀) u')

namespace Uxn

/-- A jump that is made by a byte does not lead out of the memory. -/
def Bounded (isShort : Bool) (pc : Short) (mn : Mnemonic) (f : Frame) : Prop :=
  isShort = false →
    match mn with
    | .JMP | .JSR => Inside pc (lo ((pop false).run perform f).1)
    | .JCN => (popByte.run perform ((pop false).run perform f).2).1 ≠ 0 →
      Inside pc (lo ((pop false).run perform f).1)
    | _ => True

/-- The operand of an immediate jump is the one in `m`. -/
def FindsTarget (m : Short → Byte) (pc : Short) (mn : Mnemonic) (u : Uxn) : Prop :=
  mn = .JCI ∨ mn = .JMI ∨ mn = .JSI → u.memory pc = m pc ∧ u.memory (pc + 1) = m (pc + 1)

instance (isShort : Bool) (pc : Short) (mn : Mnemonic) (f : Frame) :
    Decidable (Bounded isShort pc mn f) :=
  match mn with
  | .JMP | .JSR => inferInstanceAs (Decidable (isShort = false → Inside _ _))
  | .JCN => inferInstanceAs (Decidable (isShort = false → _ ≠ _ → Inside _ _))
  | .BRK | .JCI | .JMI | .JSI | .LIT | .INC | .POP | .NIP | .SWP | .ROT | .DUP | .OVR | .EQU | .NEQ
  | .GTH | .LTH | .STH | .LDZ | .STZ | .LDR | .STR | .LDA | .STA | .DEI | .DEO | .ADD | .SUB | .MUL
  | .DIV | .AND | .ORA | .EOR | .SFT => .isTrue fun _ => trivial

instance (m : Short → Byte) (pc : Short) (mn : Mnemonic) (u : Uxn) :
    Decidable (FindsTarget m pc mn u) := inferInstanceAs (Decidable (_ → _))

section Popping

variable {isShort : Bool} {pc : Short} {mn : Mnemonic} {f f' f'' : Frame} {v : Short} {b : Byte}

theorem Bounded.jump (h : Bounded isShort pc mn f) (hmn : mn = .JMP ∨ mn = .JSR)
    (hv : (pop isShort).run perform f = (v, f')) (hbyte : isShort = false) : Inside pc (lo v) := by
  have hinside := h hbyte
  rw [hbyte] at hv
  rw [hv] at hinside
  obtain rfl | rfl := hmn
  · exact hinside
  · exact hinside

theorem Bounded.conditional (h : Bounded isShort pc .JCN f)
    (hv : (pop isShort).run perform f = (v, f')) (hb : popByte.run perform f' = (b, f''))
    (hne : b ≠ 0) (hbyte : isShort = false) : Inside pc (lo v) := by
  have hinside := h hbyte
  rw [hbyte] at hv
  simp only [hv, hb] at hinside
  exact hinside hne

theorem memory_drop (f : Frame) : f.drop.memory = f.memory := by
  unfold Frame.drop
  split <;> rfl

theorem memory_of_popByte (hb : popByte.run perform f = (b, f')) : f'.memory = f.memory := by
  obtain rfl : f.drop = f' := congrArg Prod.snd hb
  exact memory_drop f

end Popping

theorem flow_straight (isShort : Bool) (s : Stk) (pc : Short) {mn : Mnemonic} (h : mn.straight) :
    flow isShort s pc mn = (opcode isShort s pc mn >>= fun _ =>
      Pure.pure (.goto (pc + if mn = .LIT then (if isShort then 2 else 1) else 0))) := by
  cases mn <;> first
    | rfl
    | simp [Mnemonic.straight] at h

end Uxn

section Opcodes

open Emit

variable {E : Env} {σ₀ : Mach} {W : World} {fuel : ℕ} {rs : List Request} {op : Byte} {pc : Short}
  {ops : List (OpReg × Word)} {q : Ctx × Given} {f : Uxn.Frame} {v : Short}
  {P : Next → Console → Prop}

theorem InStep.onward (h : InStep E σ₀ W op pc ops q f) : Onward E σ₀ q (.goto pc) ⟨f.toUxn, W⟩ :=
  ⟨congrArg _ h.pc.symm, h.active, h.running, h.mirrors⟩

theorem GoesOn.onward {u : Console} (h : GoesOn E σ₀ pc q.1 u) : Onward E σ₀ q (.goto pc) u :=
  ⟨congrArg _ h.pc_eq.symm, h.active, h.running, Gen.mirrors_of_agrees h.tracks h.agrees h.uncached⟩

theorem Departed.outcome {nx : Next} {u : Console} (h : Departed E rs nx (q.1.mach E σ₀) u) (hP : P nx u) :
    Outcome E σ₀ rs P q nx u := .inr ⟨nx, u, hP, .inr h⟩

/-- A popped operand as a target. -/
theorem Carries.targets {isShort : Bool} {o : Operand OpReg} (ho : Carries isShort o v)
    (hmem : (o.reg, v.setWidth 64) ∈ ops) (hin : isShort = false → Inside pc (Uxn.lo v))
    (hdirect : ¬((target o).isShort = false ∧ (target o).semantics.boolean = true)) (σ : Mach)
    (hops : ∀ p ∈ ops, σ.regs (.op p.1) = p.2) : Targets σ pc (target o) v := by
  refine ⟨⟨fun _ => hops _ hmem, fun himm => ?_⟩, hdirect, fun hbyte => ?_⟩
  · exact absurd himm (by simp [target, ho.plain])
  · obtain rfl : isShort = false := ho.size.symm.trans hbyte
    refine ⟨ho.plain, ⟨o.reg, rfl⟩, ?_, hin rfl⟩
    have hvalue := congrArg (BitVec.setWidth 16) ho.value
    rw [narrow, if_neg (by simp), Layout.setWidth_byte] at hvalue
    simpa [Uxn.lo] using hvalue.symm

/-- What is to be shown of an opcode. -/
abbrev Goes (E : Env) (σ₀ : Mach) (W : World) (rs : List Request) (P : Next → Console → Prop) (_ : Unit)
    (nx : Next) (q : Ctx × Given) (f : Uxn.Frame) : Prop :=
  P nx ⟨f.toUxn, W⟩ → Outcome E σ₀ rs P q nx ⟨f.toUxn, W⟩

/-- **A conditional jump**, as the end of an opcode. -/
theorem coupled_conditionalJump (h : InStep E σ₀ W op pc ops q f) {target : Operand Reg}
    {condition : Operand OpReg} {b : Byte} (hb : (condition.reg, b.setWidth 64) ∈ ops)
    (ht : b ≠ 0 → ¬(target.isShort = false ∧ target.semantics.boolean = true) →
      ∀ σ : Mach, (∀ p ∈ ops, σ.regs (.op p.1) = p.2) → Targets σ pc target v) :
    Coupled (translating E σ₀ fuel rs) (conditionalJump condition target)
      (Pure.pure (.goto (if b = 0 then pc else Uxn.destination target.isShort pc v)) : Uxn.Op Next)
      (Goes E σ₀ W rs P) q f := by
  intro halong _ hP
  have hjump := h.jumpsIf halong hb ht
  change P (.goto (if b = 0 then pc else _)) ⟨f.toUxn, W⟩ at hP
  show Outcome E σ₀ rs P _ (.goto (if b = 0 then pc else _)) ⟨f.toUxn, W⟩
  split at hjump
  next hzero =>
    rw [if_pos hzero]
    exact .inl hjump.onward
  next hne =>
    rw [if_neg hne] at hP ⊢
    exact hjump.outcome hP

/-- **A call**, as the end of an opcode. -/
theorem coupled_callTo (hcalls : CallsWell E rs P) (h : InStep E σ₀ W op pc ops q f)
    {target : Operand Reg} (s : Stk)
    (ht : ¬(target.isShort = false ∧ target.semantics.boolean = true) →
      ∀ σ : Mach, (∀ p ∈ ops, σ.regs (.op p.1) = p.2) → Targets σ pc target v) :
    Coupled (translating E σ₀ fuel rs) (callTo target s)
      (Uxn.push s true pc >>= fun _ =>
        (Pure.pure (.goto (Uxn.destination target.isShort pc v)) : Uxn.Op Next))
      (Goes E σ₀ W rs P) q f := by
  refine coupled_allocReg h fun reg w₀ q h => ?_
  refine coupled_ask h ?_
  have hpc : q.1.pc = pc := h.pc
  rw [hpc]
  refine coupled_own h (w := pc.setWidth 64) rfl ?_ fun q h => ?_
  · intro σ hrun _
    rw [Alu.instr, Data.reg, Mach.step_op1 hrun]
    simp [DataSrc.src, Mach.src, Op1.eval]
  refine coupled_bind (coupled_pushEx h s (o := ⟨.none, true, 0, reg⟩) rfl List.mem_cons_self)
    fun _ _ q f h => ?_
  refine coupled_ask h ?_
  have hpc : q.1.pc = pc := h.pc
  rw [hpc]
  have ht' : ¬(target.isShort = false ∧ target.semantics.boolean = true) →
      ∀ σ : Mach, (∀ p ∈ (reg, pc.setWidth 64) :: ops, σ.regs (.op p.1) = p.2) →
        Targets σ pc target v :=
    fun hdirect σ hops => ht hdirect σ fun p hp => hops p (List.mem_cons_of_mem _ hp)
  intro halong _ hP
  by_cases hra : pc = 0
  · -- no call goes on at zero: the code is that of a jump
    have hjump : jump target pc = jump target 0 := congrArg _ hra
    rw [hjump] at halong ⊢
    exact (h.jumps halong ht').outcome hP
  · obtain ⟨u', hP', hback⟩ | ⟨nx, u', hP', hdeparted⟩ := h.calls halong hra ht' hP hcalls
    · exact .inr ⟨_, u', hP', .inl hback.onward⟩
    · exact .inr ⟨nx, u', hP', .inr hdeparted⟩

/-- **The target of an immediate jump**, which is read at compile time. -/
theorem coupled_immediateJumpTarget (h : InStep E σ₀ W op pc ops q f)
    (hhigh : f.memory pc = q.1.jit.memory pc)
    (hlow : f.memory (pc + 1) = q.1.jit.memory (pc + 1)) :
    Coupled (translating E σ₀ fuel rs) immediateJumpTarget (Uxn.load true 0xffff pc)
      (fun target offset q f => InStep E σ₀ W op (pc + 2) ops q f ∧ target.isShort = true ∧
        target.semantics.boolean = false ∧
        ∀ σ : Mach, Targets σ (pc + 2) target (offset + (pc + 2))) q f := by
  rintro ⟨⟨-, -, -, held, t, -, -, hfollowed⟩, -⟩ -
  obtain ⟨c, x⟩ := q
  obtain rfl : c.pc = pc := h.pc
  have hholds := hfollowed.holds h.running
  have hload : (Uxn.load true 0xffff c.pc).run Uxn.perform f =
      (f.memory c.pc ++ f.memory (c.pc + 1), f) := by
    have hmask : (c.pc + 1) &&& (0xffff : Short) = c.pc + 1 := BitVec.and_allOnes
    rw [← hmask]
    exact run_load true true c.pc f
  have hself : Gen.spilled c.immediateJumpTarget.2.toGen x.cells = x.cells := hholds.spilled_self
  have hloose := handle_emits (nextOpcode fuel) (o := .immediateJumpTarget) rfl hfollowed.spRegs
  have hstill : Gen.Emits Gen.Still c.toGen c.immediateJumpTarget.2.toGen :=
    Gen.Emits.emit .refl ⟨⟨rfl, by simp, by simp⟩, by simp, by simp, by simp⟩
  refine ⟨?_, rfl, rfl, fun σ => ?_⟩
  · refine ⟨hloose.currentOpcode.trans h.opcode, rfl, h.active, ?_, ?_, ?_, h.operands⟩
    · exact h.cur
    · exact (Gen.status_of_emits hloose).trans h.running
    · show Gen.Mirrors E σ₀ W (Gen.spilled c.immediateJumpTarget.2.toGen x.cells)
        c.immediateJumpTarget.2.toGen f.toUxn
      rw [hself]
      exact h.mirrors.still h.running hstill rfl
  · show Targets σ (c.pc + 2) c.immediateJumpTarget.1
      (((Uxn.load true 0xffff c.pc).run Uxn.perform f).1 + (c.pc + 2))
    rw [hload, hhigh, hlow]
    exact ⟨⟨by rintro ⟨⟩, fun _ => ⟨rfl, rfl⟩⟩, by rintro ⟨⟨⟩, -⟩, by rintro ⟨⟩⟩

theorem wst_of_JCI : ∀ op : Byte, decode op = .JCI → opStack op = .wst := by decide +kernel

/-- **An opcode that accesses no device** has control go where the reference goes. -/
theorem coupled_flow (hcalls : CallsWell E rs P) (h : Drawing E σ₀ W op pc [] q f)
    (hdevice : (decode op).device = false)
    (hin : Uxn.Bounded (opFlag2 op) pc (decode op) f)
    (htarget : Uxn.FindsTarget q.1.jit.memory pc (decode op) f.toUxn) :
    Coupled (translating E σ₀ fuel rs) (dispatch (decode op)) (Uxn.flows op pc)
      (fun _ nx q f => ((decode op).straight = false → P nx ⟨f.toUxn, W⟩) →
        Outcome E σ₀ rs P q nx ⟨f.toUxn, W⟩) q f := by
  unfold Uxn.flows
  by_cases hst : (decode op).straight
  · rw [Uxn.flow_straight _ _ _ hst]
    by_cases hlit : decode op = .LIT
    · rw [hlit]
      refine (coupled_LIT h).return fun _ _ q f ⟨ops, h⟩ _ => ?_
      rw [if_pos rfl]
      exact .inl h.onward
    · refine (coupled_dispatch h hst hlit).return fun _ _ q f ⟨ops, h⟩ _ => ?_
      have hzero : pc + 0 = pc := by simp
      rw [if_neg hlit, hzero]
      exact .inl h.onward
  suffices hgoes : Coupled (translating E σ₀ fuel rs) (dispatch (decode op))
      (Uxn.flow (opFlag2 op) (opStack op) pc (decode op)) (Goes E σ₀ W rs P) q f from
    hgoes.mono fun _ _ _ _ h hP => h (hP (Bool.eq_false_iff.mpr hst))
  cases hmn : decode op with
  | BRK =>
    rintro ⟨⟨-, -, -, held, t, -, -, hfollowed⟩, -⟩ - hP
    obtain ⟨c, x⟩ := q
    obtain ⟨hat, -⟩ := h.cleared hfollowed
    exact Departed.outcome (hat.goesBack .halt (.imm 0x10000) rfl) hP
  | JMP =>
    rw [hmn] at hin
    refine coupled_bind (coupled_pop h).result fun o v q' f' ⟨⟨h', ho⟩, _, hv⟩ => ?_
    refine coupled_left fun halong => ?_
    have hjump := h'.toInStep.jumps halong fun hdirect =>
      ho.targets List.mem_cons_self (hin.jump (.inl rfl) hv) hdirect
    have hsize : (target o).isShort = opFlag2 op := ho.size
    rw [hsize] at hjump
    intro _ _ hP
    split
    · exact Departed.outcome hjump hP
    · exact Departed.outcome hjump hP
  | JCN =>
    rw [hmn] at hin
    refine coupled_bind (coupled_pop h).result fun o v q' f' ⟨⟨h', ho⟩, _, hv⟩ => ?_
    refine coupled_bind (coupled_popByte h').result fun condition b q'' f'' ⟨⟨h'', _⟩, _, hb⟩ => ?_
    have hsize : (target o).isShort = opFlag2 op := ho.size
    rw [← hsize]
    refine coupled_conditionalJump h''.toInStep List.mem_cons_self fun hne hdirect => ?_
    exact ho.targets (List.mem_cons_of_mem _ List.mem_cons_self) (hin.conditional hv hb hne) hdirect
  | JSR =>
    rw [hmn] at hin
    refine coupled_bind (coupled_pop h).result fun o v q' f' ⟨⟨h', ho⟩, _, hv⟩ => ?_
    refine coupled_cur h'.toInStep ?_
    have hsize : (target o).isShort = opFlag2 op := ho.size
    rw [h'.cur, ← hsize]
    refine coupled_callTo hcalls h'.toInStep _ fun hdirect => ?_
    exact ho.targets List.mem_cons_self (hin.jump (.inr rfl) hv) hdirect
  | JCI =>
    have hs : Stk.wst = f.cur := (wst_of_JCI op hmn).symm.trans h.cur.symm
    have hfind := htarget (.inl hmn)
    refine coupled_bind (coupled_popExByte h hs).result fun condition b q' f' ⟨⟨h', _⟩, hq, hb⟩ => ?_
    have hjit : q'.1.jit = q.1.jit := by
      have hq' := congrArg (fun z => z.2.1.jit) hq
      exact hq'.symm.trans (Ctx.popEx_jit q.1 false .wst)
    have hmemory : f'.memory = f.memory := Uxn.memory_of_popByte hb
    rw [← hmemory, ← hjit] at hfind
    refine coupled_bind (coupled_immediateJumpTarget h'.toInStep hfind.1 hfind.2)
      fun target offset q f ⟨h, hsize, hbool, ht⟩ => ?_
    have hdestination : Uxn.destination target.isShort (pc + 2) (offset + (pc + 2)) =
        offset + (pc + 2) := if_pos hsize
    rw [← hdestination]
    exact coupled_conditionalJump h List.mem_cons_self fun _ _ σ _ => ht σ
  | JMI =>
    have hfind := htarget (.inr (.inl hmn))
    refine coupled_bind (coupled_immediateJumpTarget h.toInStep hfind.1 hfind.2)
      fun target offset q f ⟨h, hsize, hbool, ht⟩ => ?_
    refine coupled_left fun halong => ?_
    have hdestination : Uxn.destination target.isShort (pc + 2) (offset + (pc + 2)) =
        offset + (pc + 2) := if_pos hsize
    have hjump := h.jumps halong fun _ σ _ => ht σ
    rw [hdestination] at hjump
    intro _ _ hP
    exact Departed.outcome hjump hP
  | JSI =>
    have hfind := htarget (.inr (.inr hmn))
    refine coupled_bind (coupled_immediateJumpTarget h.toInStep hfind.1 hfind.2)
      fun target offset q f ⟨h, hsize, hbool, ht⟩ => ?_
    have hdestination : Uxn.destination target.isShort (pc + 2) (offset + (pc + 2)) =
        offset + (pc + 2) := if_pos hsize
    rw [← hdestination]
    exact coupled_callTo hcalls h .rst fun _ σ _ => ht σ
  | DEI | DEO => simp [hmn, Mnemonic.device] at hdevice
  | _ => simp [hmn, Mnemonic.straight] at hst

end Opcodes

/-! ## Opcode by opcode -/

theorem nextOpcode_memory (fuel : ℕ) (c : Ctx) : (nextOpcode fuel c).jit.memory = c.jit.memory := by
  induction fuel generalizing c with
  | zero => rfl
  | succ fuel ih =>
    rw [nextOpcode]
    split
    · rfl
    · have hrun := run_invariant (h := handle (nextOpcode fuel)) (Q := fun _ => True)
        (P := fun _ _ => True) (I := fun d => d.jit.memory = c.jit.memory)
        (p := Emit.dispatch (decode c.beginOpcode.currentOpcode)) (s := c.beginOpcode) ?_
        (only_of_forall fun _ => trivial) (along_of_forall fun _ _ => trivial) rfl
      · exact hrun
      · intro o d _ _ hd
        cases o with
        | linkEntry t jump target => exact (Jit.linkEntry_memory ..).trans hd
        | nextOpcode => exact (ih d).trans hd
        | setCompiler => exact hd
        | _ => exact (congrArg Jit.memory (handle_jit rfl d)).trans hd

/-- Between two opcodes: the books are in order, and `m` is compiled. -/
structure Tracked (E : Env) (σ₀ : Mach) (m : Short → Byte) (q : Ctx × Given) : Prop where
  followed : ∃ held t, Followed E σ₀ held t q.1 q.2
  plain : q.1.NoTargets
  memory : q.1.jit.memory = m

/-- The opcode at `pc` is the one that was compiled from `m`, reads live bytes and jumps within the
memory. -/
structure Uxn.Tame (m : Short → Byte) (pc : Short) (u : Uxn) : Prop where
  finds : u.memory pc = m pc
  live : (Uxn.flows (m pc) (pc + 1)).Along Uxn.perform Uxn.Live (u.enter (m pc))
  ports : (Uxn.ports (opFlag2 (m pc)) (decode (m pc))).Along Uxn.perform Uxn.Live (u.enter (m pc))
  bounded : Uxn.Bounded (opFlag2 (m pc)) (pc + 1) (decode (m pc)) (u.enter (m pc))
  target : Uxn.FindsTarget m (pc + 1) (decode (m pc)) u

instance (m : Short → Byte) (pc : Short) (u : Uxn) : Decidable (Uxn.Tame m pc u) :=
  decidable_of_iff (u.memory pc = m pc ∧
    (Uxn.flows (m pc) (pc + 1)).Along Uxn.perform Uxn.Live (u.enter (m pc)) ∧
    (Uxn.ports (opFlag2 (m pc)) (decode (m pc))).Along Uxn.perform Uxn.Live (u.enter (m pc)) ∧
    Uxn.Bounded (opFlag2 (m pc)) (pc + 1) (decode (m pc)) (u.enter (m pc)) ∧
    Uxn.FindsTarget m (pc + 1) (decode (m pc)) u)
    ⟨fun h => ⟨h.1, h.2.1, h.2.2.1, h.2.2.2.1, h.2.2.2.2⟩,
      fun h => ⟨h.finds, h.live, h.ports, h.bounded, h.target⟩⟩

/-- Behind the opcode a block can begin, or control goes to the host. -/
def Mnemonic.transfers (mn : Mnemonic) : Bool := !(mn.straight || mn.device)

section Opcode

variable {E : Env} {D : Devices} {σ₀ : Mach} {fuel : ℕ} {rs : List Request} {m : Short → Byte}
  {q : Ctx × Given} {c : Ctx} {x : Given} {v : Console} {P : Next → Console → Prop}

/-- **An opcode begins**, for the reference as well. -/
theorem Onward.drawing {nx : Next} (h : Onward E σ₀ (c, x) nx v) {held : List OpReg} {t : Course}
    (hfollowed : Followed E σ₀ held t c x) :
    Drawing E σ₀ v.world (c.jit.memory c.pc) (c.pc + 1) []
      (c.beginOpcode, { x with operands := [] }.spill c.beginOpcode)
      (v.enter (c.jit.memory c.pc)) := by
  have hfit := Gen.Accounts.fit hfollowed.accounts
  obtain ⟨hrunning, hcells, -⟩ := hfollowed.holds h.running
  have hholds : Gen.Holds E σ₀ x.cells [] c.toGen := ⟨hrunning, hcells, by simp⟩
  obtain ⟨hmirrors, hdraws⟩ := h.mirrors.beginOpcode hholds hfit (c.jit.memory c.pc)
  refine ⟨⟨?_, rfl, h.active, rfl, ?_, hmirrors, rfl⟩, hdraws, ?_⟩
  · exact c.toGen.beginOpcode_currentOpcode _
  · exact (hholds.beginOpcode hfit _).running
  · cases hk : opFlagK (c.jit.memory c.pc) <;> simp [Uxn.enter, hk]

theorem Micro.Clean.not_nextOpcode {o : Micro} (h : o.Clean c) (ho : o = .nextOpcode) : False := by
  subst ho
  exact absurd h.direct (by simp [Micro.direct])

/-- The compilation of an opcode, as a run beside the reference: it ends in `q'`. -/
structure Compiled (E : Env) (σ₀ : Mach) (fuel : ℕ) (rs : List Request) (m : Short → Byte) (pc : Short)
    (v : Console) (q₀ q' : Ctx × Given) : Prop where
  begins : Drawing E σ₀ v.world (m pc) (pc + 1) [] q₀ (v.enter (m pc))
  memory : q₀.1.jit.memory = m
  along : Along (translating E σ₀ fuel rs).left (translating E σ₀ fuel rs).assumes
    (Emit.dispatch (decode (m pc))) q₀
  ends : q' = (run (translating E σ₀ fuel rs).left (Emit.dispatch (decode (m pc))) q₀).2

theorem nextOpcode_compiled (hq : Tracked E σ₀ m (c, x)) (hon : Onward E σ₀ (c, x) (.goto c.pc) v)
    (hpc : 256 ≤ c.pc) (hclean : AlongOpcode (fun _ => Micro.Clean) (fuel + 1) c)
    (hsub : requests (fuel + 1) c ⊆ rs) :
    Tracked E σ₀ m (nextOpcode (fuel + 1) c, given E σ₀ (fuel + 1) c x) ∧
      ∃ q₀, Compiled E σ₀ fuel rs m c.pc v q₀
        (nextOpcode (fuel + 1) c, given E σ₀ (fuel + 1) c x) := by
  obtain ⟨⟨held, t, hfollowed⟩, hplain, hm⟩ := hq
  subst hm
  have hpc' : ¬c.pc < 256 := BitVec.not_lt.mpr hpc
  obtain ⟨held₀, hlen, hbegin⟩ := hfollowed.begin
  have hdrawing := hon.drawing hfollowed
  generalize hq₀ : (c.beginOpcode, Given.spill c.beginOpcode { x with operands := [] }) = q₀
    at hdrawing
  have hbegin' : Followed E σ₀ held₀ ⟨true, none, false, []⟩ q₀.1 q₀.2 := by
    rw [← hq₀]
    exact hbegin
  have hfst : q₀.1 = c.beginOpcode := by rw [← hq₀]
  -- what is assumed along the compilation of the opcode
  have halong := Along.mono (fun o d h => h.1) (hclean.resolve_left hpc')
  have hclean' := (along_recording (q := q₀)
    (u := Micro.give E σ₀ (nextOpcode fuel) (given E σ₀ fuel))).mpr (hfst ▸ halong)
  have hnone : Inlines E σ₀ (nextOpcode fuel) (given E σ₀ fuel) fun _ => False :=
    fun _ _ _ _ _ h => h.elim
  obtain ⟨hall, z, -, hend⟩ := run_keeps (D := holding.both following)
    (h := (translating E σ₀ fuel rs).left) (P := fun o d => o.Clean d.1)
    (I := fun z d => Followed E σ₀ z.1 z.2 d.1 d.2) (s := q₀)
    (fun o z d hd hpre hz => by
      obtain ⟨held', hpost, hz'⟩ := handle_following hnone (compiles_nextOpcode fuel) o hd.sole
        hd.not_nextOpcode hpre.1 hpre.2 hz
      exact ⟨(held', _), ⟨hpost, rfl⟩, hz'⟩)
    (Keeps.both (keeps_dispatch (decode (c.jit.memory c.pc)) hlen)
      (follows_dispatch (decode (c.jit.memory c.pc)) rfl)) hclean' hbegin'
  have hplain' : Along (handle (nextOpcode fuel)) (fun _ d => d.NoTargets)
      (Emit.dispatch (decode (c.jit.memory c.pc))) c.beginOpcode :=
    along_under (fun o _ hd => gets_noTargets o hd)
      (fun o _ ho hd => handle_noTargets (nextOpcode_noTargets fuel) o ho hd) (under_plain _) hplain
  have hrequests : Along (handle (nextOpcode fuel))
      (fun o d => ∀ r ∈ o.requested (requests fuel) d, r ∈ rs)
      (Emit.dispatch (decode (c.jit.memory c.pc))) c.beginOpcode := by
    rw [requests, if_neg hpc', Ctx.beginOpcode_currentOpcode] at hsub
    exact along_of_gather hsub
  have hside := (along_recording (q := q₀)
    (u := Micro.give E σ₀ (nextOpcode fuel) (given E σ₀ fuel))).mpr (hfst ▸ hplain'.and hrequests)
  have hleft : Along (translating E σ₀ fuel rs).left (translating E σ₀ fuel rs).assumes
      (Emit.dispatch (decode (c.jit.memory c.pc))) q₀ := by
    refine Along.mono ?_ ((hclean'.and hside).and hall)
    rintro o d ⟨⟨hclean, hplain, hreq⟩, z, hpre, hz⟩
    exact ⟨hclean, hplain, hreq, z.1, z.2, hpre.1, hpre.2, hz⟩
  have hjit : q₀.1.jit.memory = c.jit.memory := by rw [hfst]; rfl
  have hend' : (nextOpcode (fuel + 1) c, given E σ₀ (fuel + 1) c x) =
      (run (translating E σ₀ fuel rs).left (Emit.dispatch (decode (c.jit.memory c.pc))) q₀).2 := by
    apply Prod.ext
    · rw [nextOpcode, if_neg hpc', ← hfst]
      have hop : q₀.1.currentOpcode = c.jit.memory c.pc := hdrawing.opcode
      simp only [hop]
      exact (run_recording _ _).2.symm
    · rw [given, if_neg hpc', hq₀]
      rfl
  refine ⟨⟨⟨z.1, z.2, ?_⟩, nextOpcode_noTargets _ _ hplain, nextOpcode_memory _ _⟩, q₀, hdrawing,
    hjit, hleft, hend'⟩
  rw [hend']
  exact hend

section Steps

variable {pc : Short} {q₀ q' : Ctx × Given}

/-- **An access to a device** goes on behind it. -/
theorem Compiled.device (hcompiled : Compiled E σ₀ fuel rs m pc v q₀ q') (hE : E.Implements D)
    (htame : Uxn.Tame m pc v.toUxn) (hdevice : (decode (m pc)).device) :
    Onward E σ₀ q' (v.next D pc).1 (v.next D pc).2 := by
  obtain ⟨hbegin, -, hleft, rfl⟩ := hcompiled
  have hports := htame.ports
  rw [Console.next, htame.finds]
  cases hmn : decode (m pc) with
  | DEI =>
    rw [hmn] at hleft hports
    exact (coupled_DEI hE hbegin hleft hports).onward
  | DEO =>
    rw [hmn] at hleft hports
    exact (coupled_DEO hE hbegin hleft hports).onward
  | _ => simp [hmn, Mnemonic.device] at hdevice

theorem next_of_not_device (hfinds : v.memory pc = m pc) (hdevice : (decode (m pc)).device = false) :
    v.next D pc = (((Uxn.flows (m pc) (pc + 1)).run Uxn.perform (v.enter (m pc))).1,
      ⟨((Uxn.flows (m pc) (pc + 1)).run Uxn.perform (v.enter (m pc))).2.toUxn, v.world⟩) := by
  rw [Console.next, Uxn.next, hfinds]
  cases hmn : decode (m pc) <;> first
    | rfl
    | simp [hmn, Mnemonic.device] at hdevice

end Steps

/-- **An opcode has control go where the reference goes.** -/
theorem nextOpcode_translates (hE : E.Implements D) (hcalls : CallsWell E rs P)
    (hq : Tracked E σ₀ m (c, x)) (hon : Onward E σ₀ (c, x) (.goto c.pc) v) (hpc : 256 ≤ c.pc)
    (hclean : AlongOpcode (fun _ => Micro.Clean) (fuel + 1) c) (hsub : requests (fuel + 1) c ⊆ rs)
    (htame : Uxn.Tame m c.pc v.toUxn) :
    Tracked E σ₀ m (nextOpcode (fuel + 1) c, given E σ₀ (fuel + 1) c x) ∧
      (((decode (m c.pc)).transfers → P (v.next D c.pc).1 (v.next D c.pc).2) →
        Outcome E σ₀ rs P (nextOpcode (fuel + 1) c, given E σ₀ (fuel + 1) c x) (v.next D c.pc).1
          (v.next D c.pc).2) := by
  obtain ⟨htracked, q₀, hcompiled⟩ := nextOpcode_compiled hq hon hpc hclean hsub
  refine ⟨htracked, fun hP => ?_⟩
  cases hdevice : (decode (m c.pc)).device with
  | true => exact .inl (hcompiled.device hE htame hdevice)
  | false =>
    rw [next_of_not_device htame.finds hdevice] at hP ⊢
    obtain ⟨hbegin, hmemory, hleft, hend⟩ := hcompiled
    have hgoes := coupled_flow hcalls hbegin hdevice htame.bounded (hmemory.symm ▸ htame.target) hleft
      htame.live
    rw [hend]
    refine hgoes fun hst => hP ?_
    rw [Mnemonic.transfers, hst, hdevice]
    rfl

end Opcode

end BuxnJit
