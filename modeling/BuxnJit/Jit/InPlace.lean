import BuxnJit.Jit.Sharing

/-!
# Updates in place

Every micro operation of an opcode keeps what cells and operands were given (`handle_following`),
where it updates registers in place that nothing else refers to. From there the opcode does, those
inlined in it included (`kept_opcode`), and a block (`given_kept`).
-/

namespace BuxnJit

open Foundations Prog

/-! ## Between opcodes -/

namespace Gen

variable {E : Env} {σ₀ : Mach} {g : Gen} {cells : Stk → List Word} {ops : List (OpReg × Word)}

theorem suffix_retained (s : Stk) : g.retained.cache s <:+ g.cache s := by
  rw [retained_cache]
  exact List.drop_suffix _ _

theorem Holds.retained (h : Holds E σ₀ cells ops g) :
    Holds E σ₀ (g.retained.spilled cells) ops g.retained :=
  h.touches (W := fun _ => False) g.emits_retained suffix_retained (fun _ h => h.elim)
    fun _ _ h => h

theorem copyPointers_suffix (s : Stk) : g.copyPointers.cache s <:+ g.cache s :=
  (g.allocReg.2.suffix_allocReg s).trans (g.suffix_allocReg s)

/-- The copies of the stack pointers are in registers of their own. -/
theorem Accounts.shadowReg_free (h : Accounts [] g) (s s' : Stk) :
    g.shadowReg s ∉ cellRegs (g.copyPointers.cache s') := by
  cases s with
  | wst =>
    intro hmem
    apply (h.allocReg_free (by simp)).2 s'
    exact List.map_subset _ (g.allocReg.2.suffix_allocReg s').subset hmem
  | rst => exact ((h.allocReg (by simp)).allocReg_free (by simp)).2 s'

theorem Holds.copyPointers (h : Holds E σ₀ cells [] g) (hacc : Accounts [] g) :
    Holds E σ₀ (g.copyPointers.spilled cells) [] g.copyPointers := by
  apply h.touches (W := fun r => ∃ s, r = g.shadowReg s)
  · have halloc : Emits (Touches fun r => ∃ s, r = g.shadowReg s) g g.allocReg.2.allocReg.2 :=
      Emits.touching ((aside_allocReg g).trans (aside_allocReg _))
    apply (halloc.emit ⟨rfl, ?_⟩).emit ⟨rfl, ?_⟩
    · rintro r ⟨⟩
      exact ⟨.wst, rfl⟩
    · rintro r ⟨⟩
      exact ⟨.rst, rfl⟩
  · exact copyPointers_suffix
  · rintro r ⟨s, rfl⟩
    exact hacc.shadowReg_free s
  · intro p hp
    cases hp

theorem cellRegs_stackCacheFlush (s s' : Stk) :
    cellRegs ((g.stackCacheFlush s).cache s') = cellRegs (g.cache s') := by
  rw [stackCacheFlush_cache]
  by_cases hs : s' = s
  · subst hs
    rw [Function.update_self, cellRegs_flushed]
  · rw [Function.update_of_ne hs]

theorem Holds.flush (h : Holds E σ₀ cells ops g) (s : Stk) :
    Holds E σ₀ cells ops (g.stackCacheFlush s) := by
  have haside : Emits (Touches fun _ => False) g (g.stackCacheFlush s) :=
    (aside_stackCacheFlush s).touching
  obtain ⟨hstatus, hregs⟩ := haside.touches E σ₀
  refine ⟨hstatus.trans h.running, fun s' => ?_, fun p hp => (hregs _ id).trans (h.operands p hp)⟩
  rw [← h.cells s', cellValues, cellValues, cellRegs_stackCacheFlush]
  exact List.map_congr_left fun r _ => hregs r id

theorem enterKeep_length (s : Stk) :
    (g.enterKeep.cache s).length = (g.copyPointers.cache s).length := by
  have hlen := congrArg List.length (cellRegs_stackCacheFlush (g := g.shadowPointers) g.cur s)
  rw [cellRegs, cellRegs, List.length_map, List.length_map] at hlen
  rw [Gen.enterKeep, hlen, shadowPointers_eq]

theorem Holds.enterKeep (h : Holds E σ₀ cells [] g) (hacc : Accounts [] g) :
    Holds E σ₀ (g.enterKeep.spilled cells) [] g.enterKeep := by
  obtain ⟨hrun, hcells, -⟩ := h.copyPointers hacc
  have hshadow : Holds E σ₀ (g.copyPointers.spilled cells) [] g.shadowPointers := by
    rw [shadowPointers_eq]
    exact ⟨hrun, hcells, by simp⟩
  have hspilled : g.enterKeep.spilled cells = g.copyPointers.spilled cells := by
    funext s
    rw [spilled, spilled, enterKeep_length]
  rw [hspilled]
  exact hshadow.flush g.cur

/-- **An opcode begins.** -/
theorem Holds.beginOpcode (h : Holds E σ₀ cells [] g) (hfit : Fit g) (op : Byte) :
    Holds E σ₀ ((g.beginOpcode op).spilled cells) [] (g.beginOpcode op) := by
  obtain ⟨hrun, hcells, hops⟩ := h.retained
  have hbooks : Accounts [] { g.retained with currentOpcode := op } :=
    hfit.retained.congr rfl rfl rfl
  have hopcode : Holds E σ₀ (g.retained.spilled cells) [] { g.retained with currentOpcode := op } :=
    ⟨hrun, hcells, hops⟩
  rw [beginOpcode_eq]
  split
  · have hle : ∀ s, (Gen.cache (Gen.enterKeep { g.retained with currentOpcode := op }) s).length ≤
        (g.retained.cache s).length := fun s =>
      (enterKeep_length s).trans_le (copyPointers_suffix s).length_le
    have hkeep := hopcode.enterKeep hbooks
    rwa [spilled_spilled hle] at hkeep
  · exact ⟨hrun, hcells, hops⟩

/-- In keep mode pops go through the copies of the stack pointers. -/
theorem Accounts.enterKeep_pointers (h : Accounts [] g) :
    PointersApart [g.shadowReg .rst, g.shadowReg .wst] [] g.enterKeep := by
  intro s r hr
  have hsp : g.enterKeep.spReg s = .op (g.shadowReg s) := by
    rw [Gen.enterKeep, (emits_stackCacheFlush _ _).spReg, shadowPointers_eq]
  obtain rfl := Reg.op.inj (hsp.symm.trans hr)
  refine ⟨by cases s <;> simp, fun s' => ?_, by simp⟩
  rw [Gen.enterKeep, cellRegs_stackCacheFlush, shadowPointers_eq]
  exact h.shadowReg_free s s'

/-- An opcode begins with two registers held, or none. -/
theorem Fit.begins (h : Fit g) (op : Byte) : ∃ held, held.length ≤ 2 ∧
    Accounts held (g.beginOpcode op) ∧ PointersApart held [] (g.beginOpcode op) := by
  have hbooks : Accounts [] { g.retained with currentOpcode := op } := h.retained.congr rfl rfl rfl
  rw [beginOpcode_eq]
  split
  · exact ⟨_, le_rfl, hbooks.enterKeep, hbooks.enterKeep_pointers⟩
  · refine ⟨[], Nat.zero_le _, h.retained.congr rfl rfl rfl, ?_⟩
    rintro s r ⟨⟩

end Gen

namespace Followed

variable {E : Env} {σ₀ : Mach} {held : List OpReg} {t : Course} {ctx : Ctx} {x : Given}

theorem begin (h : Followed E σ₀ held t ctx x) : ∃ held', held'.length ≤ 2 ∧
    Followed E σ₀ held' ⟨true, none, false, []⟩ ctx.beginOpcode
      ({ x with operands := [] }.spill ctx.beginOpcode) := by
  have hfit := Gen.Accounts.fit h.accounts
  obtain ⟨held', hlen, haccounts, hpointers⟩ := hfit.begins (ctx.jit.memory ctx.pc)
  have hgrows : Gen.Grows ctx.labels ctx.toGen ctx.beginOpcode.toGen := Gen.grows_beginOpcode _
  have hbegin : (ctx.mach E σ₀).status = .running → Gen.Holds E σ₀
      (Gen.spilled ctx.beginOpcode.toGen x.cells) [] ctx.beginOpcode.toGen := by
    intro hrun
    obtain ⟨hrun, hcells, -⟩ := h.holds hrun
    exact Gen.Holds.beginOpcode ⟨hrun, hcells, by simp⟩ hfit _
  refine ⟨held', hlen, haccounts, ctx.toGen.spRegs_beginOpcode _, fun r => Nat.zero_le _,
    fun _ => hpointers, by simp, by simp, by simp, ?_, ?_⟩
  · intro l hl
    by_cases hrun : (ctx.mach E σ₀).status = .running
    · rw [Gen.Holds.running (hbegin hrun)] at hl
      cases hl
    · have hmach : ctx.beginOpcode.mach E σ₀ = ctx.mach E σ₀ := hgrows.mach_eq hrun h.skips
      rw [hmach] at hl
      exact (h.skips l hl).trans_le hgrows.labels
  · refine Given.kept_iff.mpr fun hrun' => ?_
    by_cases hrun : (ctx.mach E σ₀).status = .running
    · exact hbegin hrun
    · have hmach : ctx.beginOpcode.mach E σ₀ = ctx.mach E σ₀ := hgrows.mach_eq hrun h.skips
      rw [hmach] at hrun'
      exact absurd hrun' hrun

/-- Nothing is known of the course, the labels apart. -/
theorem forget (h : Followed E σ₀ held t ctx x) {labels : List Label}
    (hlabels : ∀ l ∈ labels, l < ctx.labels) :
    Followed E σ₀ held ⟨false, none, false, labels⟩ ctx (x.spill ctx) := by
  have h' : Followed E σ₀ held t ctx (x.spill ctx) := h.silent rfl rfl rfl rfl rfl le_rfl
  exact ⟨h'.accounts, h'.spRegs, h'.counts, by simp, by simp, by simp, hlabels, h'.skips, h'.kept⟩

end Followed

/-! ## Every micro operation -/

theorem Alu.inPlace_dst {a : Alu} {r : OpReg} (h : a.inPlace = some r) : a.dst = some (.op r) := by
  unfold Alu.inPlace at h
  split at h
  · split at h
    · cases h
      rfl
    · cases h
  · split at h
    · cases h
      rfl
    · split at h
      · split at h
        · cases h
          rfl
        · cases h
      · cases h
  · cases h

theorem Alu.dst_mem {a : Alu} {r : OpReg} (h : a.dst = some (.op r)) : r ∈ a.instr.operands := by
  cases a with
  | op1 k dst src | op2 k dst a b =>
    obtain rfl := Option.some_inj.mp h
    simp [Alu.instr, Instr.operands, Data.reg]
  | subFlags a b => cases h
  | opFlags dst c =>
    obtain rfl := Data.op.inj (Option.some_inj.mp h)
    simp [Alu.instr, Instr.operands]

theorem Gen.touches_alu {W : OpReg → Prop} (g : Gen) {a : Alu}
    (hW : ∀ r, a.dst = some (.op r) → W r) : Emits (Touches W) g (g.emit a.instr) := by
  apply Emits.emit .refl
  constructor
  · cases a <;> rfl
  · intro r hr
    apply hW
    cases a with
    | op1 k dst src | op2 k dst a b =>
      cases dst <;> cases hr
      rfl
    | subFlags a b => cases hr
    | opFlags dst c =>
      cases hr
      rfl

namespace Followed

variable {E : Env} {σ₀ : Mach} {held : List OpReg} {t : Course} {ctx : Ctx} {x : Given}
  {next : Ctx → Ctx} {inline : Ctx → Given → Given}

/-- The register that an instruction computes has one reference: it was allocated for it, or it is
updated in place. -/
theorem alu_sole (h : Followed E σ₀ held t ctx x) {a : Alu} {r : OpReg}
    (hneeds : (Micro.alu a).Needs t) (hsole : (Micro.alu a).Sole ctx)
    (hdst : a.dst = some (.op r)) : ctx.refCounts r = 1 := by
  cases hplace : a.inPlace with
  | some r' =>
    have hr' := Alu.inPlace_dst hplace
    rw [hdst] at hr'
    obtain rfl := Data.op.inj (Option.some_inj.mp hr')
    exact hsole r hplace
  | none =>
    apply h.own
    apply hneeds
    simp only [Micro.computed, hplace, hdst]

theorem alu (h : Followed E σ₀ held t ctx x) {a : Alu} (hops : a.instr.operands ⊆ held)
    (hneeds : (Micro.alu a).Needs t) (hsole : (Micro.alu a).Sole ctx) :
    Followed E σ₀ held t (ctx.lift (·.emit a.instr))
      (Micro.give E σ₀ next inline (.alu a) ctx x) := by
  have hemits : Gen.Emits Gen.Loose ctx.toGen (ctx.toGen.emit a.instr) :=
    handle_emits next (o := .alu a) rfl h.spRegs
  have haccounts : (ctx.lift (·.emit a.instr)).Accounts held := Gen.Accounts.emit h.accounts _
  cases hdst : a.dst with
  | none =>
    have htouch := Gen.touches_alu (W := fun _ => False) ctx.toGen (a := a) (by simp [hdst])
    simp only [Micro.give, hdst]
    exact h.asides hemits htouch haccounts rfl rfl
  | some d =>
    cases d with
    | tmp =>
      have htouch := Gen.touches_alu (W := fun _ => False) ctx.toGen (a := a) (by simp [hdst])
      simp only [Micro.give, hdst]
      exact h.asides hemits htouch haccounts rfl rfl
    | op r =>
      have htouch := Gen.touches_alu (W := fun r' => r' = r) ctx.toGen (a := a)
        (by simp [hdst, eq_comm])
      simp only [Micro.give, hdst]
      exact h.computes hemits htouch haccounts rfl rfl (hops (Alu.dst_mem hdst))
        (h.alu_sole hneeds hsole hdst)

theorem load (h : Followed E σ₀ held t ctx x) {reg : OpReg} {addr : Operand OpReg}
    (hheld : reg ∈ held) (hneeds : (Micro.load reg addr).Needs t) :
    Followed E σ₀ held t (ctx.lift (·.load reg addr))
      (Micro.give E σ₀ next inline (.load reg addr) ctx x) := by
  apply h.computes
  · exact handle_emits next (o := .load reg addr) rfl h.spRegs
  · exact Gen.touches_load _ reg addr rfl
  · exact Gen.Accounts.load h.accounts reg addr
  · exact Gen.load_cache ..
  · exact Gen.load_refCounts ..
  · exact hheld
  · exact h.own reg (hneeds reg rfl)

end Followed

/-- What an opcode that is inlined has to do. -/
def Inlines (E : Env) (σ₀ : Mach) (next : Ctx → Ctx) (inline : Ctx → Given → Given)
    (P : Ctx → Prop) : Prop :=
  ∀ held t ctx x, Followed E σ₀ held t ctx x → P ctx →
    ∃ held' t', Followed E σ₀ held' t' (next ctx) (inline ctx x)

/-- **Every micro operation** keeps what cells and operands were given, and follows the course. -/
theorem handle_following {E : Env} {σ₀ : Mach} {next : Ctx → Ctx} {inline : Ctx → Given → Given}
    {P : Ctx → Prop} (hnext : Inlines E σ₀ next inline P) (hcompiles : Compiles next) (o : Micro)
    {held : List OpReg} {t : Course} {ctx : Ctx} {x : Given} (hsole : o.Sole ctx)
    (hP : o = .nextOpcode → P ctx) (hpre : holding.pre o held) (hneeds : o.Needs t)
    (h : Followed E σ₀ held t ctx x) :
    ∃ held', holding.post o (handle next o ctx).1 held held' ∧
      Followed E σ₀ held' (o.proceed (handle next o ctx).1 t) (handle next o ctx).2
        (Micro.give E σ₀ next inline o ctx x) := by
  obtain ⟨hops, hroom⟩ := hpre
  cases o with
  | ask | linkEntry ty jump target | setCompiler c =>
    exact ⟨held, rfl, h.silent rfl rfl rfl rfl rfl le_rfl⟩
  | popEx flag2 s => exact ⟨_, rfl, h.popEx (hroom _ rfl) hneeds hsole⟩
  | pushEx operand s => exact ⟨held, rfl, h.pushEx (hops List.mem_cons_self)⟩
  | discard flag2 s => exact ⟨held, rfl, h.discard hneeds hsole⟩
  | allocReg => exact ⟨_, rfl, h.allocReg (hroom 0 rfl)⟩
  | alu a => exact ⟨held, rfl, h.alu hops hneeds hsole⟩
  | divide c a b =>
    exact ⟨held, rfl, h.divide (hops List.mem_cons_self) (h.own c (hneeds c rfl))⟩
  | load reg addr => exact ⟨held, rfl, h.load (hops List.mem_cons_self) hneeds⟩
  | store addr value =>
    refine ⟨held, rfl, h.asides ?_ (Gen.touches_store ..) ?_ ?_ ?_⟩
    · exact handle_emits next (o := .store addr value) rfl h.spRegs
    · exact Gen.Accounts.store h.accounts addr value
    · exact Gen.store_cache ..
    · exact Gen.store_refCounts ..
  | immediate isShort => exact ⟨_, rfl, h.immediate (hroom 0 rfl) isShort⟩
  | clearStackCaches => exact ⟨held, rfl, h.clear⟩
  | deviceStore addr value =>
    refine ⟨held, rfl, h.asides ?_ (Gen.touches_deviceStore ..) ?_ ?_ ?_⟩
    · exact handle_emits next (o := .deviceStore addr value) rfl h.spRegs
    · exact Gen.Accounts.deviceStore h.accounts addr value
    · exact Gen.deviceStore_cache ..
    · exact Gen.deviceStore_refCounts ..
  | callDevice helper addr result => exact ⟨held, rfl, h.callDevice helper addr result hneeds⟩
  | immediateJumpTarget =>
    refine ⟨held, ⟨rfl, rfl⟩, h.asides ?_ ?_ ?_ rfl rfl⟩
    · exact handle_emits next (o := .immediateJumpTarget) rfl h.spRegs
    · exact Gen.Emits.emit .refl ⟨rfl, by simp⟩
    · exact Gen.Accounts.emit h.accounts _
  | newLabel => exact ⟨held, rfl, h.newLabel⟩
  | emit i => exact ⟨held, rfl, h.emit hneeds.1 hneeds.2⟩
  | forgetMemBase => exact ⟨held, rfl, h.silent rfl rfl rfl rfl rfl le_rfl⟩
  | nextOpcode =>
    obtain ⟨held', t', h'⟩ := hnext held t ctx x h (hP rfl)
    have hlabels := (hcompiles ctx h.spRegs).2.labels
    exact ⟨held', trivial, h'.forget fun l hl => (h.labels l hl).trans_le hlabels⟩

/-- The same along a program. -/
theorem run_following {E : Env} {σ₀ : Mach} {next : Ctx → Ctx} {inline : Ctx → Given → Given}
    {P : Ctx → Prop} (hnext : Inlines E σ₀ next inline P) (hcompiles : Compiles next) {α : Type}
    {p : Prog micro α} {held : List OpReg} {t : Course} {ctx : Ctx} {x : Given}
    (hholds : Keeps holding p (fun _ _ => True) held)
    (hfollows : Keeps following p (fun _ _ => True) t)
    (halong : Along (handle next) (fun o c => o.Sole c ∧ (o = .nextOpcode → P c)) p ctx)
    (h : Followed E σ₀ held t ctx x) :
    Along (recording (handle next) (Micro.give E σ₀ next inline))
        (fun _ q => ∃ held t, Followed E σ₀ held t q.1 q.2) p (ctx, x) ∧
      ∃ held' t', Followed E σ₀ held' t' (run (handle next) p ctx).2
        (run (recording (handle next) (Micro.give E σ₀ next inline)) p (ctx, x)).2.2 := by
  have hrecorded := (along_recording (F := micro) (q := (ctx, x)) (u := Micro.give E σ₀ next inline)
    (P := fun o c => o.Sole c ∧ (o = .nextOpcode → P c))).mpr halong
  obtain ⟨hall, z, -, hend⟩ := run_keeps (D := holding.both following)
    (h := recording (handle next) (Micro.give E σ₀ next inline))
    (I := fun z q => Followed E σ₀ z.1 z.2 q.1 q.2) (s := (ctx, x))
    (fun o z q hq hpre hz => by
      obtain ⟨held', hpost, hz'⟩ := handle_following hnext hcompiles o hq.1 hq.2 hpre.1 hpre.2 hz
      exact ⟨(held', _), ⟨hpost, rfl⟩, hz'⟩)
    (Keeps.both hholds hfollows) hrecorded h
  have hrun := (run_recording (h := handle next) (u := Micro.give E σ₀ next inline) p (ctx, x)).2
  rw [← hrun]
  refine ⟨hall.mono ?_, z.1, z.2, hend⟩
  rintro o q ⟨z, -, hz⟩
  exact ⟨z.1, z.2, hz⟩

/-! ## Opcodes and blocks -/

/-- **An opcode keeps what cells and operands were given**, and so do those inlined in it. -/
theorem kept_opcode (E : Env) (σ₀ : Mach) (fuel : ℕ) (held : List OpReg) (t : Course) (ctx : Ctx)
    (x : Given) (h : Followed E σ₀ held t ctx x)
    (hsole : AlongOpcode (fun _ => Micro.Sole) fuel ctx) :
    KeptOpcode E σ₀ fuel ctx x ∧
      ∃ held' t', Followed E σ₀ held' t' (nextOpcode fuel ctx) (given E σ₀ fuel ctx x) := by
  induction fuel generalizing held t ctx x with
  | zero => exact ⟨trivial, held, t, h⟩
  | succ fuel ih =>
    rw [AlongOpcode] at hsole
    rw [KeptOpcode, nextOpcode, given]
    split
    next hzero => exact ⟨.inl hzero, held, _, h.leaveZeroPage⟩
    next hpc =>
      obtain ⟨held₀, hlen, hbegin⟩ := h.begin
      have halong := hsole.resolve_left hpc
      simp only [Ctx.beginOpcode_currentOpcode]
      have hinlines : Inlines E σ₀ (nextOpcode fuel) (given E σ₀ fuel)
          (AlongOpcode (fun _ => Micro.Sole) fuel) :=
        fun held t ctx x h hP => (ih held t ctx x h hP).2
      obtain ⟨hall, hend⟩ := run_following hinlines (compiles_nextOpcode fuel)
        (keeps_dispatch (decode (ctx.jit.memory ctx.pc)) hlen)
        (follows_dispatch (decode (ctx.jit.memory ctx.pc)) rfl) halong hbegin
      refine ⟨.inr ?_, hend⟩
      have hrecorded := (along_recording (F := micro)
        (q := (ctx.beginOpcode, { x with operands := [] }.spill ctx.beginOpcode))
        (u := Micro.give E σ₀ (nextOpcode fuel) (given E σ₀ fuel)) (P := fun o c => o.Sole c ∧
          (o = .nextOpcode → AlongOpcode (fun _ => Micro.Sole) fuel c))).mpr halong
      apply Along.mono _ (hall.and hrecorded)
      rintro o q ⟨⟨held, t, hq⟩, -, hinlined⟩
      exact ⟨hq.kept, fun ho => (ih held t q.1 q.2 hq (hinlined ho)).1⟩

theorem kept_block (E : Env) (σ₀ : Mach) (fuel n : ℕ) {held : List OpReg} {t : Course} {ctx : Ctx}
    {x : Given} (h : Followed E σ₀ held t ctx x)
    (hsole : AlongBlock (fun _ => Micro.Sole) fuel n ctx) : KeptBlock E σ₀ fuel n ctx x := by
  induction n generalizing held t ctx x with
  | zero => exact h.kept
  | succ n ih =>
    rw [AlongBlock] at hsole
    rw [KeptBlock]
    refine ⟨h.kept, ?_⟩
    obtain hdone | ⟨hopcode, hrest⟩ := hsole
    · exact .inl hdone
    · obtain ⟨hkept, held', t', hnext⟩ := kept_opcode E σ₀ fuel held t ctx x h hopcode
      exact .inr ⟨hkept, ih hnext hrest⟩

section

variable (flag2 : Bool) (s : Stk) (g : Gen)

instance : Decidable (g.SplitsSole s) :=
  match h : (g.cache s).getLast? with
  | none => .isTrue (by simp [Gen.SplitsSole, h])
  | some top => decidable_of_iff (top.value.isShort = true → g.allocReg.2.cache s ≠ [] →
      g.allocReg.2.refCounts top.value.reg = 1) (by simp [Gen.SplitsSole, h])

instance : Decidable (g.PopsSole flag2 s) :=
  match flag2 with
  | false => inferInstanceAs (Decidable (g.SplitsSole s))
  | true =>
    match h : (g.cache s).getLast? with
    | none => .isTrue (by simp [Gen.PopsSole, h])
    | some top => decidable_of_iff (top.value.isShort = false →
        (g.setCache s (g.cache s).dropLast).SplitsSole s ∧
          ((g.setCache s (g.cache s).dropLast).stackCachePopByte s).2.refCounts
            ((g.setCache s (g.cache s).dropLast).stackCachePopByte s).1 = 1)
        (by simp [Gen.PopsSole, h])

instance : Decidable (g.DiscardsByteSole s) :=
  match h : (g.cache s).getLast? with
  | none => .isTrue (by simp [Gen.DiscardsByteSole, h])
  | some top => decidable_of_iff (top.value.isShort = true → g.refCounts top.value.reg = 1)
      (by simp [Gen.DiscardsByteSole, h])

instance : Decidable (g.DiscardsSole flag2 s) :=
  match flag2 with
  | false => inferInstanceAs (Decidable (g.DiscardsByteSole s))
  | true =>
    match h : (g.cache s).getLast? with
    | none => .isTrue (by simp [Gen.DiscardsSole, h])
    | some top => decidable_of_iff (top.value.isShort = false →
        ((g.setCache s (g.cache s).dropLast).releaseReg top.value.reg).DiscardsByteSole s)
        (by simp [Gen.DiscardsSole, h])

instance (o : Micro) (ctx : Ctx) : Decidable (o.Sole ctx) :=
  match o with
  | .alu a => inferInstanceAs (Decidable (∀ r, a.inPlace = some r → ctx.refCounts r = 1))
  | .popEx flag2 s => inferInstanceAs (Decidable (ctx.toGen.PopsSole flag2 s))
  | .discard flag2 s => inferInstanceAs (Decidable (ctx.toGen.DiscardsSole flag2 s))
  | .ask | .pushEx .. | .allocReg | .divide .. | .load .. | .store .. | .immediate _
  | .clearStackCaches | .deviceStore .. | .callDevice .. | .immediateJumpTarget | .newLabel
  | .emit _ | .forgetMemBase | .linkEntry .. | .nextOpcode | .setCompiler _ => .isTrue trivial

end

theorem KeptBlock.tail {E : Env} {σ₀ : Mach} {fuel n : ℕ} {ctx : Ctx} {x : Given}
    (h : KeptBlock E σ₀ fuel (n + 1) ctx x) (hc : ctx.compiler ≠ none) :
    KeptBlock E σ₀ fuel n (nextOpcode fuel ctx) (given E σ₀ fuel ctx x) :=
  (h.2.resolve_left hc).2

/-- LIT 01, DUP, INC, BRK. -/
def dupInc : List Byte := [0x80, 0x01, 0x06, 0x01, 0x00]

end BuxnJit
