import BuxnJit.Jit.Skips

/-!
# The tracked base on every path

The generator keeps one tracked base although several paths meet at the end of a jump. Past a call,
a callback and the inline return the base is forgotten; on the path around a conditional jump it is
the one before the jump. The opcode that a boolean jump may skip is different: the path around it
keeps the old base, and the generator goes on with the new one.

If every opcode inlined so is `Skippable`, the base register holds what is tracked on every path
(`tracked_base_valid`).
-/

namespace BuxnJit

open Foundations

/-- One step of local code generation, or from one opcode to the next. -/
inductive LocalStep : Gen → Gen → Prop
  | change {g g' : Gen} (h : Gen.Change Gen.Loose g g') : LocalStep g g'
  | opcode (g : Gen) (op : Byte) (sp : Stk → Reg) :
    LocalStep g { g with currentOpcode := op, spReg := sp }

/-- At this point of code generation, and at those that local steps lead to, the base register of a
running machine holds the tracked base. -/
def BaseValid (E : Env) (σ₀ : Mach) (g : Gen) : Prop :=
  ∀ g', Relation.ReflTransGen LocalStep g g' → (g'.mach E σ₀).status = .running →
    ∀ r, g'.memBase = some r → (g'.mach E σ₀).regs .memBase = E.layout.base r

/-- The invariant of code generation: a running machine is tracked, and one that skips does so to a
label that was made. -/
structure Valid (E : Env) (σ₀ : Mach) (g : Gen) : Prop where
  tracks : (g.mach E σ₀).status = .running → Tracks E (g.mach E σ₀) g
  skips : ∀ l, (g.mach E σ₀).status = .skipping l → l < g.labels

namespace Valid

variable {E : Env} {σ₀ : Mach} {g g' : Gen}

theorem of_left {e : Exit} (h : (g.mach E σ₀).status = .left e) : Valid E σ₀ g :=
  ⟨fun hrun => (nomatch h.symm.trans hrun), fun l hl => (nomatch h.symm.trans hl)⟩

theorem of_tracks (h : (g.mach E σ₀).status = .running) (ht : Tracks E (g.mach E σ₀) g) :
    Valid E σ₀ g :=
  ⟨fun _ => ht, fun l hl => nomatch h.symm.trans hl⟩

/-- Code for a machine that does not run changes nothing. -/
theorem of_not_running (hg : Valid E σ₀ g) (h : g.Grows g.labels g')
    (hrun : (g.mach E σ₀).status ≠ .running) : Valid E σ₀ g' := by
  have hmach := h.mach_eq hrun hg.skips
  refine ⟨fun hrun' => absurd (hmach ▸ hrun') hrun, fun l hl => ?_⟩
  exact (hg.skips l (hmach ▸ hl)).trans_le h.labels

theorem emits (hg : Valid E σ₀ g) (h : Gen.Emits Gen.Loose g g') : Valid E σ₀ g' := by
  by_cases hrun : (g.mach E σ₀).status = .running
  · have hal := Gen.Aligned.emits ⟨hrun, hg.tracks hrun⟩ h
    exact of_tracks hal.running hal.tracks
  · exact hg.of_not_running (.emits h) hrun

theorem baseValid (hg : Valid E σ₀ g) : BaseValid E σ₀ g := by
  intro g' h
  suffices hg' : Valid E σ₀ g' from fun hrun => (hg'.tracks hrun).base
  induction h with
  | refl => exact hg
  | tail _ hstep ih =>
    cases hstep with
    | change h => exact ih.emits (.single h)
    | opcode op sp => exact ⟨fun h => ⟨(ih.tracks h).vm, (ih.tracks h).base⟩, ih.skips⟩

theorem beginOpcode (hg : Valid E σ₀ g) (op : Byte) : Valid E σ₀ (g.beginOpcode op) :=
  g.beginOpcode_preserves op (fun _ _ h hg => hg.emits (Gen.Emits.loose (.single h)))
    (fun _ _ _ hg => ⟨fun h => ⟨(hg.tracks h).vm, (hg.tracks h).base⟩, hg.skips⟩) hg

/-- An instruction that leaves the block, or runs on and keeps the base. -/
theorem emit (hg : Valid E σ₀ g) {i : Instr} (href : i.labelRef = none)
    (hi : (g.mach E σ₀).status = .running → (∃ e, (i.exec E (g.mach E σ₀)).status = .left e) ∨
      (i.exec E (g.mach E σ₀)).status = .running ∧
        Tracks E (i.exec E (g.mach E σ₀)) g) : Valid E σ₀ (g.emit i) := by
  by_cases hrun : (g.mach E σ₀).status = .running
  · have hmach : (g.emit i).mach E σ₀ = i.exec E (g.mach E σ₀) := Mach.step_running hrun i
    rcases hi hrun with ⟨e, he⟩ | ⟨hrun', ht⟩
    · exact of_left (hmach ▸ he)
    · rw [← hmach] at hrun' ht
      exact of_tracks hrun' ⟨ht.vm, ht.base⟩
  · exact hg.of_not_running ((Gen.Grows.refl _ g).emit fun l hl => by simp [href] at hl) hrun

theorem emit_ret (hg : Valid E σ₀ g) (a : Src) : Valid E σ₀ (g.emit (.ret a)) :=
  hg.emit rfl fun _ => .inl ⟨_, rfl⟩

theorem forgetMemBase (hg : Valid E σ₀ g) : Valid E σ₀ { g with memBase := none } :=
  ⟨fun h => ⟨(hg.tracks h).vm, fun r hr => by cases hr⟩, hg.skips⟩

theorem divide (hg : Valid E σ₀ g) (c a b : OpReg) : Valid E σ₀ (g.divide c a b) := by
  by_cases hrun : (g.mach E σ₀).status = .running
  · have hal := Gen.Aligned.divide ⟨hrun, hg.tracks hrun⟩ c a b
    exact of_tracks hal.running hal.tracks
  · exact hg.of_not_running (Gen.grows_divide le_rfl c a b) hrun

/-- A callback keeps the saved registers, and its base is forgotten. -/
theorem callDevice (hg : Valid E σ₀ g) (h : Helper) (addr : OpReg) (result : Option OpReg) :
    Valid E σ₀ (g.callDevice h addr result) := by
  by_cases hrun : (g.mach E σ₀).status = .running
  · have hmach : ((g.callDevice h addr result).mach E σ₀).status = .running ∧
        ((g.callDevice h addr result).mach E σ₀).regs .vm = (g.mach E σ₀).regs .vm := by
      have hcode : (g.callDevice h addr result).mach E σ₀ = ([.loadVm (.sp .rst) .rsp,
          .loadVm (.sp .wst) .wsp] ++ ((result.map fun r => Instr.op1 .mov (.op r)
          (.reg .memBase)).toList) ++ [.icall h, .op1 .mov .memOffset (.reg (.op addr)),
          .op1 .mov .memBase (.reg .vm), .storeVm .rsp (.sp .rst), .storeVm .wsp (.sp .wst)] :
          List Instr).foldr (Mach.step E) (g.mach E σ₀) := by
        cases result <;> rfl
      rw [hcode]
      generalize g.mach E σ₀ = σ at hrun
      cases result <;> simp [Mach.step, Instr.exec, hrun, Mach.set, Mach.afterICall]
    exact of_tracks hmach.1
      ⟨hmach.2.trans (hg.tracks hrun).vm, fun r hr => by simp at hr⟩
  · exact hg.of_not_running (Gen.grows_callDevice h addr result) hrun

/-- A forward jump to a new label. -/
structure Branch (l : Label) (i : Instr) : Prop where
  exec : ∀ σ : Mach, i.exec E σ = σ ∨ i.exec E σ = { σ with status := .skipping l }
  notLabel : ∀ l, i ≠ .label l

theorem branch {i : Instr} {g₁ : Gen} (hg : Valid E σ₀ g) (hi : Branch (E := E) g.labels i)
    (hcode : g₁.code = i :: g.code) (hlabels : g.labels < g₁.labels)
    (hbase : g₁.memBase = g.memBase) : Valid E σ₀ g₁ := by
  have hmach : g₁.mach E σ₀ = (g.mach E σ₀).step E i := by
    rw [Gen.mach, hcode]
    rfl
  by_cases hrun : (g.mach E σ₀).status = .running
  · rw [Mach.step_running hrun] at hmach
    rcases hi.exec (g.mach E σ₀) with hgo | hskip
    · rw [hgo] at hmach
      refine of_tracks (by rw [hmach, hrun]) ?_
      rw [hmach]
      exact ⟨(hg.tracks hrun).vm, fun r hr => (hg.tracks hrun).base r (hbase.symm.trans hr)⟩
    · rw [hskip] at hmach
      rw [← hskip] at hmach
      refine ⟨fun h => ?_, fun l hl => ?_⟩
      · rw [hmach, hskip] at h
        cases h
      · rw [hmach, hskip] at hl
        cases hl
        exact hlabels
  · have hstep : g₁.mach E σ₀ = g.mach E σ₀ := by
      rw [hmach]
      cases hs : (g.mach E σ₀).status with
      | running => exact absurd hs hrun
      | left e => exact Mach.step_left hs _
      | skipping l => exact Mach.step_skipping hs (hi.notLabel l)
    exact ⟨fun h => absurd (hstep ▸ h) hrun, fun l hl => (hg.skips l (hstep ▸ hl)).trans hlabels⟩

/-- **The join.** Behind the label of a forward jump the base is valid if it is valid on the path
that does not jump, and forgotten or the one tracked before the jump. -/
theorem join {i : Instr} {g₁ : Gen} (hg : Valid E σ₀ g)
    (hi : Branch (E := E) g.labels i) (hcode : g₁.code = i :: g.code)
    (hlabels : g.labels < g₁.labels)
    (hgrow : g₁.Grows g₁.labels g') (hg' : Valid E σ₀ g')
    (hbase : g'.memBase = none ∨ g'.memBase = g.memBase) :
    Valid E σ₀ (g'.emit (.label g.labels)) := by
  have hmach₁ : g₁.mach E σ₀ = (g.mach E σ₀).step E i := by
    rw [Gen.mach, hcode]
    rfl
  have hother : (g'.mach E σ₀).status ≠ .skipping g.labels →
      (g'.emit (.label g.labels)).mach E σ₀ = g'.mach E σ₀ := by
    intro hne
    rw [Gen.mach_emit]
    cases hs : (g'.mach E σ₀).status with
    | running => rw [Mach.step_running hs]; rfl
    | left e => exact Mach.step_left hs _
    | skipping l =>
      refine Mach.step_skipping hs ?_
      rintro ⟨rfl⟩
      exact hne hs
  have hsame : (g'.mach E σ₀).status ≠ .skipping g.labels →
      Valid E σ₀ (g'.emit (.label g.labels)) := fun hne =>
    ⟨fun hrun => by
      rw [hother hne] at hrun ⊢
      exact ⟨(hg'.tracks hrun).vm, (hg'.tracks hrun).base⟩,
    fun l hl => hg'.skips l (by rwa [hother hne] at hl)⟩
  by_cases hrun : (g.mach E σ₀).status = .running
  · rw [Mach.step_running hrun] at hmach₁
    rcases hi.exec (g.mach E σ₀) with hgo | hskip
    · rw [hgo] at hmach₁
      refine hsame (hgrow.status_ne hlabels ?_)
      rw [hmach₁, hrun]
      simp
    · rw [hskip] at hmach₁
      have hmach' : g'.mach E σ₀ = { g.mach E σ₀ with status := .skipping g.labels } := by
        rw [hgrow.mach_eq (by simp [hmach₁]) ?_, hmach₁]
        intro l hl
        rw [hmach₁] at hl
        cases hl
        exact hlabels
      have hland : (g'.emit (.label g.labels)).mach E σ₀ =
          { g.mach E σ₀ with status := .running } := by
        rw [Gen.mach_emit, hmach']
        simp [Mach.step]
      refine of_tracks (by rw [hland]) ?_
      rw [hland]
      refine ⟨(hg.tracks hrun).vm, fun r hr => ?_⟩
      rcases hbase with hnone | hold
      · exact absurd (hnone.symm.trans hr) (by simp)
      · exact (hg.tracks hrun).base r (hold.symm.trans hr)
  · have hstep : g₁.mach E σ₀ = g.mach E σ₀ := by
      rw [hmach₁]
      cases hs : (g.mach E σ₀).status with
      | running => exact absurd hs hrun
      | left e => exact Mach.step_left hs _
      | skipping l => exact Mach.step_skipping hs (hi.notLabel l)
    refine hsame ?_
    rw [hgrow.mach_eq (by rwa [hstep]) fun l hl =>
      (hg.skips l (by rwa [hstep] at hl)).trans hlabels, hstep]
    exact fun hl => absurd (hg.skips _ hl) (Nat.lt_irrefl _)

end Valid

/-! ## Opcodes -/

section Paths

variable {E : Env} {σ₀ : Mach}

/-- The state of the invariant: pops go through the registers of the stack pointers. -/
def Steady (E : Env) (σ₀ : Mach) (ctx : Ctx) : Prop := ctx.SpRegs ∧ Valid E σ₀ ctx.toGen

/-- The operations that make no label and inline no opcode. -/
def Micro.Joinless : Micro → Prop
  | .nextOpcode => False
  | .emit i => (∃ a, i = .ret a) ∨ i.Local
  | _ => True

theorem steady_handle {next : Ctx → Ctx} (hnext : Compiles next) {o : Micro} {ctx : Ctx}
    (ho : o.Joinless) (hctx : Steady E σ₀ ctx) : Steady E σ₀ (handle next o ctx).2 := by
  obtain ⟨hsp, hg⟩ := hctx
  have hrefs : o.RefersFrom ctx.labels := by
    cases o with
    | emit i =>
      rcases ho with ⟨a, rfl⟩ | hi
      · exact fun l hl => by simp [Instr.labelRef] at hl
      · exact fun l hl => by simp [hi.labelRef] at hl
    | _ => trivial
  refine ⟨(handle_grows hnext le_rfl hsp hrefs).1, ?_⟩
  cases o with
  | divide c a b => exact hg.divide c a b
  | callDevice h addr result => exact hg.callDevice h addr result
  | newLabel => exact ⟨fun h => ⟨(hg.tracks h).vm, (hg.tracks h).base⟩,
      fun l hl => (hg.skips l hl).trans (Nat.lt_succ_self _)⟩
  | emit i =>
    rcases ho with ⟨a, rfl⟩ | hi
    · exact hg.emit_ret a
    · exact hg.emits (.emit .refl hi)
  | forgetMemBase => exact hg.forgetMemBase
  | nextOpcode => exact ho.elim
  | _ => exact hg.emits (handle_emits next rfl hsp)

theorem branch_cmpJump (E : Env) (c : Cond) (a : Reg) (b : Src) (l : Label) :
    Valid.Branch (E := E) l (.cmpJump c a b l) where
  exec σ := by
    simp only [Instr.exec]
    split
    exacts [.inr rfl, .inl rfl]
  notLabel l' := by simp

theorem branch_jumpFlag (E : Env) (c : Cond) (l : Label) :
    Valid.Branch (E := E) l (.jumpFlag c l) where
  exec σ := by
    simp only [Instr.exec]
    split
    exacts [.inr rfl, .inl rfl]
  notLabel l' := by simp

/-- The operations that may choose a base. -/
def Micro.usesBase : Micro → Bool
  | .popEx .. | .pushEx .. | .allocReg | .load .. | .store .. | .immediate _ | .clearStackCaches
  | .deviceStore .. | .nextOpcode => true
  | _ => false

/-- The registers of jump targets. -/
def Reg.IsTarget (r : Reg) : Prop := r ≠ .memBase ∧ r ≠ .vm

variable (fuel : ℕ)

/-- What is shown of an operation, and of the opcode that it inlines. -/
abbrev Relied (E : Env) (σ₀ : Mach) (o : Micro) (ctx : Ctx) : Prop :=
  (o.usesBase → BaseValid E σ₀ ctx.toGen) ∧ (o = .nextOpcode →
    AlongOpcode (fun _ o c => o.usesBase → BaseValid E σ₀ c.toGen) fuel ctx)

/-- What is shown of the run of a program. -/
abbrev Reliable {α : Type} (E : Env) (σ₀ : Mach) (p : Emit.Op α) (ctx : Ctx) : Prop :=
  Prog.Throughout (handle (nextOpcode fuel)) (Relied fuel E σ₀) (Steady E σ₀) p ctx

variable {fuel} {ctx : Ctx}

theorem relied_of_not {o : Micro} {c : Ctx} (ho : o.usesBase = false) : Relied fuel E σ₀ o c := by
  refine ⟨fun h => by simp [ho] at h, ?_⟩
  rintro rfl
  cases ho

theorem reliable_of_only {α : Type} {p : Emit.Op α} (hp : Prog.Only Micro.Joinless p)
    (hctx : Steady E σ₀ ctx) : Reliable fuel E σ₀ p ctx :=
  Prog.throughout_of_only
    (fun _ _ ho hc => ⟨fun _ => hc.2.baseValid, fun heq => by subst heq; exact ho.elim⟩)
    (fun _ _ ho hc => steady_handle (compiles_nextOpcode fuel) ho hc) hp hctx

variable (fuel) in
theorem grows_of_under {α : Type} {p : Emit.Op α}
    (hp : Prog.Under (F := micro) (Micro.NewFrom ctx.labels) (Micro.RefersFrom ctx.labels) p)
    (hsp : ctx.SpRegs) : (Prog.run (handle (nextOpcode fuel)) p ctx).2.SpRegs ∧
      Gen.Grows ctx.labels ctx.toGen (Prog.run (handle (nextOpcode fuel)) p ctx).2.toGen :=
  Prog.run_under (A := Micro.NewFrom ctx.labels) (h := handle (nextOpcode fuel))
    (I := fun c => c.SpRegs ∧ Gen.Grows ctx.labels ctx.toGen c.toGen)
    (fun o c hc => by cases o <;> first | trivial | exact hc.2.labels)
    (fun o c ho hc => by
      obtain ⟨hsp', hgrows⟩ := handle_grows (compiles_nextOpcode fuel) hc.2.labels hc.1 ho
      exact ⟨hsp', hc.2.trans hgrows⟩)
    hp ⟨hsp, .refl _ _⟩

/-- A jump leaves the block, or goes on behind a call with no base. -/
theorem steady_jumpAbs (hctx : Steady E σ₀ ctx) (target : Operand Reg) (returnAddr : Short) :
    Steady E σ₀
      (Prog.run (handle (nextOpcode fuel)) (Emit.jumpAbs target returnAddr) ctx).2 := by
  obtain ⟨hsp, hg⟩ := hctx
  obtain ⟨hsp', hgrow⟩ := grows_of_under fuel
    (under_jumpAbs ctx.labels target returnAddr) hsp
  refine ⟨hsp', ?_⟩
  by_cases hrun : (ctx.toGen.mach E σ₀).status = .running
  · have hgen := run_jumpAbs_toGen (nextOpcode fuel) ctx target returnAddr
    generalize Prog.run (handle (nextOpcode fuel)) (Emit.jumpAbs target returnAddr) ctx = x at hgen
    have hmach : x.2.toGen.mach E σ₀ =
        (ctx.toGen.mach E σ₀).jumpAbs E ctx.labels target returnAddr := by
      rw [hgen, Gen.mach, Mach.exec_append]
      exact exec_jumpAbsCode hrun _ _ _
    unfold Mach.jumpAbs at hmach
    simp only at hmach
    split at hmach
    next hconst =>
      split at hmach
      · exact .of_left (by rw [hmach])
      next hret =>
        split at hmach
        · refine .of_tracks (by rw [hmach]; rfl) ⟨?_, fun r hr => ?_⟩
          · rw [hmach]
            exact (hg.tracks hrun).vm
          · rw [hgen] at hr
            simp [hconst.1, show returnAddr ≠ 0#16 from hret] at hr
        · exact .of_left (by rw [hmach])
    next => exact .of_left (by rw [hmach])
  · exact hg.of_not_running hgrow hrun

/-- No base is chosen within a jump. -/
theorem only_jumpAbs (target : Operand Reg) (returnAddr : Short) :
    Prog.Only (F := micro) (fun o => o.usesBase = false) (Emit.jumpAbs target returnAddr) := by
  simp [Emit.jumpAbs, Prog.Only, Prog.only_ite, Micro.usesBase, Emit.newLabel, Emit.emit,
    Prog.perform, Prog.bind, Prog.bind_eq]

theorem reliable_jumpAbs (hctx : Steady E σ₀ ctx) (target : Operand Reg) (returnAddr : Short) :
    Reliable fuel E σ₀ (Emit.jumpAbs target returnAddr) ctx := by
  refine ⟨Prog.along_of_only (fun o c ho => ?_) (only_jumpAbs target returnAddr),
    steady_jumpAbs hctx target returnAddr⟩
  exact relied_of_not ho

variable (hnext : ∀ c : Ctx, Steady E σ₀ c → AlongOpcode Skippable fuel c →
  AlongOpcode (fun _ o c => o.usesBase → BaseValid E σ₀ c.toGen) fuel c ∧
    Steady E σ₀ (nextOpcode fuel c))

include hnext

/-- Behind a boolean jump two paths meet. -/
theorem reliable_jumpBoolean (hctx : Steady E σ₀ ctx) (hnil : ctx.Uncached) {target : Operand Reg}
    (hagree : Prog.Along (handle (nextOpcode fuel)) (AlongSkippable fuel) (Emit.jumpBoolean target) ctx) :
    Reliable fuel E σ₀ (Emit.jumpBoolean target) ctx := by
  -- the context where the next opcode is compiled, and the one where the paths meet
  let ctx₁ : Ctx := { ctx with labels := ctx.labels + 1 }.lift
    (·.emit (.cmpJump .notEqual target.reg (.imm 0) ctx.labels))
  let ctx₂ : Ctx := { nextOpcode fuel ctx₁ with compiler := ctx.compiler }.lift Gen.clearStackCaches
  have hagree₁ : AlongSkippable fuel .nextOpcode ctx₁ := hagree.2.2.2.1
  have hbranch := branch_cmpJump E .notEqual target.reg (.imm 0) ctx.labels
  have hsteady₁ : Steady E σ₀ ctx₁ :=
    ⟨hctx.1, hctx.2.branch hbranch rfl (Nat.lt_succ_self _) rfl⟩
  obtain ⟨hinner, hsteady⟩ := hnext ctx₁ hsteady₁ (hagree₁.2 rfl)
  have hrestored : Steady E σ₀ { nextOpcode fuel ctx₁ with compiler := ctx.compiler } := hsteady
  have hsteady₂ : Steady E σ₀ ctx₂ :=
    steady_handle (o := .clearStackCaches) (compiles_nextOpcode fuel) trivial hrestored
  have hgrow : Gen.Grows ctx₁.labels ctx₁.toGen ctx₂.toGen :=
    ((compiles_nextOpcode fuel) ctx₁ hsteady₁.1).2.trans
      (.emits (nextOpcode fuel ctx₁).toGen.spills_clearStackCaches.emits.loose)
  have hbase : ctx₂.memBase = none ∨ ctx₂.memBase = ctx.memBase :=
    ((foreseen_nextOpcode fuel ctx₁ hnil (hagree₁.2 rfl)).2 hagree₁.1).2
  have hjoin : Steady E σ₀ (ctx₂.lift (·.emit (.label ctx.labels))) :=
    ⟨hsteady₂.1, hctx.2.join hbranch rfl (Nat.lt_succ_self _) hgrow hsteady₂.2 hbase⟩
  refine Prog.throughout_op (relied_of_not rfl) (Prog.throughout_op (relied_of_not rfl)
    (Prog.throughout_op (relied_of_not rfl) (Prog.throughout_op ⟨fun _ => hsteady₁.2.baseValid,
      fun _ => hinner⟩ (Prog.throughout_op (relied_of_not rfl) (Prog.throughout_op
        ⟨fun _ => hsteady.2.baseValid, by simp⟩ (Prog.throughout_op (relied_of_not rfl)
          ⟨trivial, hjoin⟩))))))

theorem reliable_jump (hctx : Steady E σ₀ ctx) {target : Operand Reg} (htarget : target.reg.IsTarget)
    {returnAddr : Short} (hagree : Prog.Along (handle (nextOpcode fuel)) (AlongSkippable fuel)
      (Emit.jump target returnAddr) ctx) :
    Reliable fuel E σ₀ (Emit.jump target returnAddr) ctx := by
  have hclear : Steady E σ₀ (ctx.lift Gen.clearStackCaches) :=
    steady_handle (o := .clearStackCaches) (compiles_nextOpcode fuel) trivial hctx
  refine Prog.throughout_op ⟨fun _ => hctx.2.baseValid, by simp⟩ ?_
  replace hagree := hagree.2
  show Reliable fuel E σ₀ (if target.isShort then Emit.jumpAbs target returnAddr else
    if target.semantics.boolean then Emit.jumpBoolean target
    else Emit.jumpRelative target returnAddr) (ctx.lift Gen.clearStackCaches)
  change Prog.Along (handle (nextOpcode fuel)) (AlongSkippable fuel)
    (if target.isShort then Emit.jumpAbs target returnAddr else
    if target.semantics.boolean then Emit.jumpBoolean target
    else Emit.jumpRelative target returnAddr) (ctx.lift Gen.clearStackCaches) at hagree
  split
  · exact reliable_jumpAbs hclear target returnAddr
  next hbyte =>
    rw [if_neg hbyte] at hagree
    split
    next hbool =>
      rw [if_pos hbool] at hagree
      exact reliable_jumpBoolean hnext hclear (uncached_clear _) hagree
    · have hlocal : ∀ i : Instr, i.Local → ∀ c : Ctx, Steady E σ₀ c →
          Steady E σ₀ (c.lift (·.emit i)) := fun i hi c hc =>
        steady_handle (o := .emit i) (compiles_nextOpcode fuel) (.inr hi) hc
      refine Prog.throughout_op (relied_of_not rfl) (Prog.throughout_op (relied_of_not rfl)
        (Prog.throughout_op (relied_of_not rfl) ?_))
      refine reliable_jumpAbs (hlocal _ ?_ _ (hlocal _ ?_ _ hclear)) _ returnAddr <;>
        exact ⟨rfl, by simp [htarget.1], by simp [htarget.2]⟩

theorem reliable_conditionalJump (hctx : Steady E σ₀ ctx) {condition : Operand OpReg}
    {target : Operand Reg} (htarget : target.reg.IsTarget)
    (hagree : Prog.Along (handle (nextOpcode fuel)) (AlongSkippable fuel)
      (Emit.conditionalJump condition target) ctx) :
    Reliable fuel E σ₀ (Emit.conditionalJump condition target) ctx := by
  -- the context before the jump, and the one behind it, where the target is compiled
  let ctx₁ : Ctx := (ctx.lift Gen.clearStackCaches).lift
    (·.emit (.andFlags (.op condition.reg) 0xff))
  let ctx₂ : Ctx := { ctx₁ with labels := ctx₁.labels + 1 }.lift
    (·.emit (.jumpFlag .equal ctx₁.labels))
  let ctx₃ : Ctx := (Prog.run (handle (nextOpcode fuel)) (Emit.jump target 0) ctx₂).2
  have hclear : Steady E σ₀ (ctx.lift Gen.clearStackCaches) :=
    steady_handle (o := .clearStackCaches) (compiles_nextOpcode fuel) trivial hctx
  have hsteady₁ : Steady E σ₀ ctx₁ := steady_handle (o := .emit _) (compiles_nextOpcode fuel)
    (.inr ⟨rfl, by simp, by simp⟩) hclear
  have hbranch := branch_jumpFlag E .equal ctx₁.labels
  have hsteady₂ : Steady E σ₀ ctx₂ :=
    ⟨hsteady₁.1, hsteady₁.2.branch hbranch rfl (Nat.lt_succ_self _) rfl⟩
  have hagree₂ : Prog.Along (handle (nextOpcode fuel)) (AlongSkippable fuel)
      (Emit.jump target 0 >>= fun _ => Emit.emit (.label ctx₁.labels)) ctx₂ := hagree.2.2.2.2
  rw [Prog.along_bind] at hagree₂
  have hjump := reliable_jump hnext hsteady₂ htarget hagree₂.1
  have hgrow : Gen.Grows ctx₂.labels ctx₂.toGen ctx₃.toGen :=
    (grows_of_under fuel (under_jump ctx₂.labels target 0) hsteady₂.1).2
  have hbase : ctx₃.memBase = none ∨ ctx₃.memBase = ctx₁.memBase := by
    have hleaves := jump_foreseen (foreseen_nextOpcode fuel) hagree₂.1
    have hnil : ctx₂.Uncached := uncached_clear ctx.toGen
    rw [Gen.clearStackCaches_of_nil ctx₂.toGen hnil] at hleaves
    exact hleaves.2
  have hjoin : Steady E σ₀ (ctx₃.lift (·.emit (.label ctx₁.labels))) :=
    ⟨hjump.2.1, hsteady₁.2.join hbranch rfl (Nat.lt_succ_self _) hgrow hjump.2.2 hbase⟩
  have htail : Reliable fuel E σ₀
      (Emit.jump target 0 >>= fun _ => Emit.emit (.label ctx₁.labels)) ctx₂ :=
    Prog.throughout_bind hjump fun _ => Prog.throughout_op (relied_of_not rfl) ⟨trivial, hjoin⟩
  exact Prog.throughout_op ⟨fun _ => hctx.2.baseValid, by simp⟩
    (Prog.throughout_op (relied_of_not rfl) (Prog.throughout_op (relied_of_not rfl)
      (Prog.throughout_op (relied_of_not rfl) htail)))

theorem reliable_callTo (hctx : Steady E σ₀ ctx) {target : Operand Reg}
    (htarget : target.reg.IsTarget) {s : Stk}
    (hagree : Prog.Along (handle (nextOpcode fuel)) (AlongSkippable fuel) (Emit.callTo target s) ctx) :
    Reliable fuel E σ₀ (Emit.callTo target s) ctx := by
  have hstep : ∀ (o : Micro) (c : Ctx), o.Joinless → Steady E σ₀ c →
      Steady E σ₀ (handle (nextOpcode fuel) o c).2 := fun o c ho hc =>
    steady_handle (compiles_nextOpcode fuel) ho hc
  refine Prog.throughout_op ⟨fun _ => hctx.2.baseValid, by simp⟩ ?_
  have halloc := hstep .allocReg ctx trivial hctx
  refine Prog.throughout_op (relied_of_not rfl) (Prog.throughout_op (relied_of_not rfl) ?_)
  refine Prog.throughout_op ⟨fun _ => (hstep (.alu _) _ trivial halloc).2.baseValid, by simp⟩
    (Prog.throughout_op (relied_of_not rfl) ?_)
  exact reliable_jump hnext (hstep (.pushEx _ s) _ trivial (hstep (.alu _) _ trivial halloc))
    htarget hagree.2.2.2.2.2

omit hnext in
/-- The opcodes that are not jumps. -/
theorem only_joinless {mn : Mnemonic} (h : mn.straight ∨ mn = .BRK ∨ mn = .DEI ∨ mn = .DEO) :
    Prog.Only (F := micro) Micro.Joinless (Emit.dispatch mn) := by
  rcases h with h | rfl | rfl | rfl
  · refine (only_straight h).mono fun o ho => ?_
    cases o <;> trivial
  · exact ⟨trivial, fun _ => ⟨.inl ⟨_, rfl⟩, fun _ => ⟨trivial, fun _ => trivial⟩⟩⟩
  · simp [Emit.dispatch, Emit.DEI, Emit.popByte, Emit.popEx, Emit.cur, Emit.flag2, Emit.ask,
      Emit.allocReg, Emit.clearStackCaches, Emit.push, Emit.pushEx, Prog.perform, Prog.bind_eq,
      Prog.pure_eq, Prog.bind, Prog.Only, Micro.Joinless]
  · simp [Emit.dispatch, Emit.DEO, Emit.popByte, Emit.pop, Emit.popEx, Emit.cur, Emit.flag2,
      Emit.ask, Emit.clearStackCaches, Prog.perform, Prog.bind_eq, Prog.pure_eq, Prog.bind,
      Prog.Only, Micro.Joinless]

omit hnext in
theorem Emit.isTarget (o : Operand OpReg) : (Emit.target o).reg.IsTarget :=
  ⟨by simp [Emit.target], by simp [Emit.target]⟩

/-- **One opcode.** Where the joins within it agree, its base is valid throughout. -/
theorem reliable_dispatch (hctx : Steady E σ₀ ctx) {mn : Mnemonic}
    (hagree : Prog.Along (handle (nextOpcode fuel)) (AlongSkippable fuel) (Emit.dispatch mn) ctx) :
    Reliable fuel E σ₀ (Emit.dispatch mn) ctx := by
  have hpop : ∀ c : Ctx, Steady E σ₀ c → Reliable fuel E σ₀ Emit.pop c := fun c hc =>
    reliable_of_only ⟨trivial, fun _ => ⟨trivial, fun _ => ⟨trivial, fun _ => trivial⟩⟩⟩ hc
  have hstep : ∀ (o : Micro) (c : Ctx), o.Joinless → Steady E σ₀ c →
      Steady E σ₀ (handle (nextOpcode fuel) o c).2 := fun o c ho hc =>
    steady_handle (compiles_nextOpcode fuel) ho hc
  have himm : ∀ c : Ctx, (c.immediateJumpTarget).1.reg.IsTarget := fun c =>
    ⟨by simp [Ctx.immediateJumpTarget], by simp [Ctx.immediateJumpTarget]⟩
  cases mn
  case JMP =>
    replace hagree := ((Prog.along_bind _ _ _).mp hagree).2
    refine Prog.throughout_bind (hpop ctx hctx) fun h₁ => ?_
    refine Prog.throughout_bind (reliable_jump hnext h₁ (Emit.isTarget _)
      ((Prog.along_bind _ _ _).mp hagree).1) fun h₂ => ?_
    refine reliable_of_only ?_ h₂
    split
    · exact ⟨trivial, fun _ => trivial⟩
    · exact trivial
  case JCN =>
    replace hagree := ((Prog.along_bind _ _ _).mp hagree).2
    refine Prog.throughout_bind (hpop ctx hctx) fun h₁ => ?_
    refine Prog.throughout_op (relied_of_not rfl) ?_
    refine Prog.throughout_op ⟨fun _ => h₁.2.baseValid, by simp⟩ ?_
    exact reliable_conditionalJump hnext (hstep (.popEx false _) _ trivial h₁) (Emit.isTarget _)
      hagree.2.2
  case JSR =>
    replace hagree := ((Prog.along_bind _ _ _).mp hagree).2
    refine Prog.throughout_bind (hpop ctx hctx) fun h₁ => ?_
    refine Prog.throughout_op (relied_of_not rfl) ?_
    exact reliable_callTo hnext h₁ (Emit.isTarget _) hagree.2
  case JCI =>
    refine Prog.throughout_op ⟨fun _ => hctx.2.baseValid, by simp⟩
      (Prog.throughout_op (relied_of_not rfl) ?_)
    exact reliable_conditionalJump hnext
      (hstep .immediateJumpTarget _ trivial (hstep (.popEx false .wst) _ trivial hctx)) (himm _)
      hagree.2.2
  case JMI =>
    have htail : Prog.Along (handle (nextOpcode fuel)) (AlongSkippable fuel)
        (Emit.jump (ctx.immediateJumpTarget).1 0 >>= fun _ => Emit.finalize)
        (ctx.immediateJumpTarget).2 := hagree.2
    refine Prog.throughout_op (relied_of_not rfl) ?_
    change Reliable fuel E σ₀ (Emit.jump (ctx.immediateJumpTarget).1 0 >>= fun _ => Emit.finalize)
      (ctx.immediateJumpTarget).2
    refine Prog.throughout_bind (reliable_jump hnext (hstep .immediateJumpTarget _ trivial hctx)
      (himm _) ((Prog.along_bind _ _ _).mp htail).1) fun h₂ => ?_
    exact reliable_of_only ⟨trivial, fun _ => trivial⟩ h₂
  case JSI =>
    refine Prog.throughout_op (relied_of_not rfl) ?_
    exact reliable_callTo hnext (hstep .immediateJumpTarget _ trivial hctx) (himm _) hagree.2
  all_goals exact reliable_of_only (only_joinless (by simp [Mnemonic.straight])) hctx

end Paths

/-! ## Opcodes and blocks -/

section Blocks

variable {E : Env} {σ₀ : Mach}

/-- **One opcode**, with those that it inlines: the induction is on the depth of the inlining. -/
theorem reliable_nextOpcode (fuel : ℕ) : ∀ c : Ctx, Steady E σ₀ c →
    AlongOpcode Skippable fuel c →
    AlongOpcode (fun _ o c => o.usesBase → BaseValid E σ₀ c.toGen) fuel c ∧
      Steady E σ₀ (nextOpcode fuel c) := by
  induction fuel with
  | zero => exact fun c hc _ => ⟨trivial, hc⟩
  | succ fuel ih =>
    intro c hc hagree
    rcases Nat.lt_or_ge c.pc.toNat 256 with hpc | hpc
    · have hzero : c.pc < 256 := BitVec.lt_def.mpr hpc
      have hnext : nextOpcode (fuel + 1) c = c.leaveZeroPage := by
        rw [nextOpcode, if_pos hzero]
      refine ⟨.inl hzero, ?_⟩
      rw [hnext]
      have hclear := steady_handle (o := .clearStackCaches) (compiles_nextOpcode fuel) trivial hc
      exact steady_handle (o := .emit (.ret (.imm (c.pc.setWidth 64)))) (compiles_nextOpcode fuel)
        (.inl ⟨_, rfl⟩) hclear
    · have hle : 256 ≤ c.pc := BitVec.le_def.mpr hpc
      have hbegin : Steady E σ₀ c.beginOpcode :=
        ⟨c.toGen.spRegs_beginOpcode _, hc.2.beginOpcode _⟩
      rw [nextOpcode_of_le fuel hle]
      have hdispatch := hagree.resolve_left (BitVec.not_lt.mpr hle)
      have hrel := reliable_dispatch ih hbegin hdispatch
      exact ⟨.inr hrel.1, hrel.2⟩

/-- **The base that is tracked is valid on every path.** If the opcodes that the boolean jumps of a
block inline are skippable, the base register holds the tracked base at every micro operation that
may choose a base, and between the opcodes. -/
theorem tracked_base_valid (jit : Jit) (compiler : CompilerId) (pc : Short) (fuel n : ℕ) (E : Env)
    (σ₀ : Mach) (hrun : σ₀.status = .running) (hvm : σ₀.regs .vm = E.layout.vm)
    (hagree : AlongBlock Skippable fuel n (.start jit compiler pc)) :
    AlongBlock (fun _ o c => o.usesBase → BaseValid E σ₀ c.toGen) fuel n
        (.start jit compiler pc) ∧
      ∀ m ≤ n, BaseValid E σ₀ ((Ctx.start jit compiler pc).compileBlock fuel m).toGen := by
  have hstart : Steady E σ₀ (.start jit compiler pc) := by
    refine ⟨fun s => ⟨by simp [Ctx.start], by simp [Ctx.start]⟩, .of_tracks hrun ⟨hvm, ?_⟩⟩
    exact fun r hr => by simp [Ctx.start] at hr
  generalize Ctx.start jit compiler pc = ctx at hstart hagree
  induction n generalizing ctx with
  | zero => exact ⟨trivial, fun m hm => by rw [Nat.le_zero.mp hm]; exact hstart.2.baseValid⟩
  | succ n ih =>
    by_cases hdone : ctx.compiler = none
    · refine ⟨.inl hdone, fun m _ => ?_⟩
      cases m with
      | zero => exact hstart.2.baseValid
      | succ m =>
        rw [Ctx.compileBlock, if_pos hdone]
        exact hstart.2.baseValid
    · obtain ⟨hopcode, hrest⟩ := hagree.resolve_left hdone
      obtain ⟨hvalid, hnext⟩ := reliable_nextOpcode fuel ctx hstart hopcode
      obtain ⟨hblock, hafter⟩ := ih _ hnext hrest
      refine ⟨.inr ⟨hvalid, hblock⟩, fun m hm => ?_⟩
      cases m with
      | zero => exact hstart.2.baseValid
      | succ m =>
        rw [Ctx.compileBlock, if_neg hdone]
        exact hafter m (by omega)

end Blocks

/-- LIT 05, LIT 05, EQU, JMP, INC, INC, BRK: the first INC is skipped. -/
def skippedInc : List Byte := [0x80, 0x05, 0x80, 0x05, 0x08, 0x0c, 0x01, 0x01, 0x00]

/-- Behind the skipped INC the base of the working stack is tracked, and the base register still
holds that of the memory. -/
theorem skippedInc_base_invalid :
    (((Ctx.boot skippedInc).compileBlock 2 4).toGen.setMemBase .ws).code =
        ((Ctx.boot skippedInc).compileBlock 2 4).code ∧
      ¬BaseValid default (.start default fun _ _ => 0)
        ((Ctx.boot skippedInc).compileBlock 2 4).toGen ∧
      ¬Intended default (.start default fun _ _ => 0)
        ((Ctx.boot skippedInc).compileBlock 2 5).code := by
  have hbase : ((Ctx.boot skippedInc).compileBlock 2 4).memBase = some .ws := by decide +kernel
  refine ⟨?_, fun h => ?_, by decide +kernel⟩
  · rw [Gen.setMemBase, if_pos hbase]
  · have hws := h _ .refl (by decide +kernel) .ws hbase
    revert hws
    decide +kernel

/-- LIT 05, LIT 05, EQU, JMP, POP, INC, BRK. -/
def skippedPop : List Byte := [0x80, 0x05, 0x80, 0x05, 0x08, 0x0c, 0x02, 0x01, 0x00]

theorem tracked_base_valid_skippedPop :
    BaseValid default (.start default fun _ _ => 0)
        ((Ctx.boot skippedPop).compileBlock 2 4).toGen ∧
      BaseValid default (.start default fun _ _ => 0)
        ((Ctx.boot skippedPop).compileBlock 2 5).toGen := by
  have h := (tracked_base_valid (.init (rom skippedPop)) 0 0x100 2 6 default
    (.start default fun _ _ => 0) rfl rfl (by decide +kernel)).2
  exact ⟨h 4 (by decide), h 5 (by decide)⟩

end BuxnJit
