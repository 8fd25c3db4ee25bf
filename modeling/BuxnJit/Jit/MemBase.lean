import BuxnJit.Jit.StraightLine

/-!
# The base of memory accesses

All accesses of native code go through one base register, of which the generator tracks the
contents. `Tracks` says that the register holds what is tracked, `Intended` that every access that
the code performed found the base its emitter meant.

Straight-line code always tracks its base. Its accesses are the intended ones exactly if no pop
starves (`intended_iff_never_starves`): a pop from memory chooses its base, and then allocates a
register, which moves the base if it has to spill cells of the other stack.
-/

namespace BuxnJit

open Foundations

/-! ## Tracking -/

/-- The machine once it has executed the code generated so far. -/
def Gen.mach (E : Env) (σ₀ : Mach) (g : Gen) : Mach := Mach.exec E g.code σ₀

/-- The saved register and the base register hold what the generator counts on. -/
structure Tracks (E : Env) (σ : Mach) (g : Gen) : Prop where
  vm : σ.regs .vm = E.layout.vm
  base : ∀ r, g.memBase = some r → σ.regs .memBase = E.layout.base r

/-- Executing the code, every access found the base of the array that its emitter means. -/
def Intended (E : Env) (σ₀ : Mach) : List Instr → Prop
  | [] => True
  | i :: code => Intended E σ₀ code ∧ ∀ r, i.meant = some r →
      (Mach.exec E code σ₀).status = .running → (Mach.exec E code σ₀).regs .memBase = E.layout.base r

instance Intended.decidable (E : Env) (σ₀ : Mach) :
    (code : List Instr) → Decidable (Intended E σ₀ code)
  | [] => .isTrue trivial
  | i :: code =>
    have := Intended.decidable E σ₀ code
    have : Decidable (∀ r, i.meant = some r → (Mach.exec E code σ₀).status = .running →
        (Mach.exec E code σ₀).regs .memBase = E.layout.base r) :=
      match h : i.meant with
      | none => .isTrue fun r hr => nomatch hr
      | some r => decidable_of_iff ((Mach.exec E code σ₀).status = .running →
          (Mach.exec E code σ₀).regs .memBase = E.layout.base r) (by simp)
    inferInstanceAs (Decidable (_ ∧ _))

/-- The bases of two arrays differ. -/
theorem Layout.base_injective (L : Layout) : Function.Injective L.base := by
  intro r r' h
  by_contra hne
  have h₁ := L.disjoint r r' hne
  have h₂ := congrArg BitVec.toNat h
  have hpos : ∀ r : Region, 0 < r.size := fun r => by cases r <;> decide
  rw [L.toNat_base, L.toNat_base] at h₂
  have := hpos r
  have := hpos r'
  omega

namespace Gen

variable {E : Env} {σ₀ : Mach} {g g' : Gen}

@[simp] theorem mach_emit (i : Instr) : (g.emit i).mach E σ₀ = (g.mach E σ₀).step E i := rfl

/-- Nothing changes for the machine while the code stays the same. -/
theorem mach_of_code (h : g'.code = g.code) : g'.mach E σ₀ = g.mach E σ₀ := by
  rw [mach, mach, h]

theorem intended_emit {i : Instr} (hi : i.meant = none) :
    Intended E σ₀ (g.emit i).code ↔ Intended E σ₀ g.code :=
  and_iff_left fun r hr => by rw [hi] at hr; cases hr

theorem setMemBase_status (r : Region) :
    ((g.setMemBase r).mach E σ₀).status = (g.mach E σ₀).status := by
  unfold setMemBase
  split
  · rfl
  · exact Mach.step_status rfl

/-- Local code goes on. -/
theorem status_of_emits (h : Emits Loose g g') :
    (g'.mach E σ₀).status = (g.mach E σ₀).status := by
  refine h.preserves (I := fun x => (x.mach E σ₀).status = (g.mach E σ₀).status) ?_ rfl
  intro a b hab ha
  cases hab with
  | emit hi => exact (Mach.step_status hi.control).trans ha
  | setMemBase r => exact (setMemBase_status r).trans ha
  | books hs => rw [mach_of_code hs.code, ha]

theorem intended_setMemBase (r : Region) :
    Intended E σ₀ (g.setMemBase r).code ↔ Intended E σ₀ g.code := by
  unfold setMemBase
  split
  · rfl
  · exact intended_emit rfl

theorem tracks_setMemBase (r : Region) (hrun : (g.mach E σ₀).status = .running)
    (ht : Tracks E (g.mach E σ₀) g) : Tracks E ((g.setMemBase r).mach E σ₀) (g.setMemBase r) := by
  unfold setMemBase
  split
  · exact ht
  · have hmach : ({ g.emit (.op2 .add .memBase .vm (.off r)) with memBase := some r } : Gen).mach
        E σ₀ = (g.mach E σ₀).set .memBase (E.layout.base r) := by
      show (g.mach E σ₀).step E _ = _
      rw [Mach.step_running hrun]
      simp [Instr.exec, Op2.eval, Mach.src, ht.vm, Layout.base]
    rw [hmach]
    refine ⟨?_, ?_⟩
    · simpa [Mach.set] using ht.vm
    · rintro r' hr'
      obtain rfl : r = r' := Option.some_inj.mp hr'
      simp [Mach.set]

/-- Code is running, and the base is tracked. -/
structure Aligned (E : Env) (σ₀ : Mach) (g : Gen) : Prop where
  running : (g.mach E σ₀).status = .running
  tracks : Tracks E (g.mach E σ₀) g

theorem Aligned.emit (h : Aligned E σ₀ g) {i : Instr} (hi : i.Local) : Aligned E σ₀ (g.emit i) where
  running := (Mach.step_status hi.control).trans h.running
  tracks := ⟨(Mach.step_regs hi.control hi.vm).trans h.tracks.vm,
    fun r hr => (Mach.step_regs hi.control hi.base).trans (h.tracks.base r hr)⟩

theorem Aligned.of_sameCode (h : Aligned E σ₀ g) (hs : SameCode g g') : Aligned E σ₀ g' where
  running := by rw [mach_of_code hs.code, h.running]
  tracks := by
    refine ⟨?_, ?_⟩
    · rw [mach_of_code hs.code, h.tracks.vm]
    · intro r hr
      rw [mach_of_code hs.code]
      exact h.tracks.base r (hs.memBase ▸ hr)

theorem Aligned.setMemBase (h : Aligned E σ₀ g) (r : Region) : Aligned E σ₀ (g.setMemBase r) where
  running := (setMemBase_status r).trans h.running
  tracks := tracks_setMemBase r h.running h.tracks

/-- Local code keeps the base tracked, also where it reads another array than intended. -/
theorem Aligned.emits (hg : Aligned E σ₀ g) (h : Emits Loose g g') : Aligned E σ₀ g' := by
  refine h.preserves ?_ hg
  intro a b hab ha
  cases hab with
  | emit hi => exact ha.emit hi
  | setMemBase r => exact ha.setMemBase r
  | books hs => exact ha.of_sameCode hs

/-- Aimed accesses are intended. -/
theorem Aligned.intended_emits (hg : Aligned E σ₀ g) (h : Emits Aimed g g') :
    Intended E σ₀ g'.code ↔ Intended E σ₀ g.code := by
  refine (h.preserves (I := fun x => Aligned E σ₀ x ∧
    (Intended E σ₀ x.code ↔ Intended E σ₀ g.code)) ?_ ⟨hg, Iff.rfl⟩).2
  rintro a b hab ⟨ha, hiff⟩
  cases hab with
  | emit hi =>
    refine ⟨ha.emit hi.toLocal, Iff.trans ?_ hiff⟩
    exact and_iff_left fun r hr _ => ha.tracks.base r (hi.meant r hr)
  | setMemBase r => exact ⟨ha.setMemBase r, (intended_setMemBase r).trans hiff⟩
  | books hs =>
    refine ⟨ha.of_sameCode hs, ?_⟩
    rwa [hs.code]

/-! ## Pops from memory -/

/-- Whether a pop reads memory before anything else: no byte, or half a short, is cached. -/
def readsMemory (flag2 : Bool) (s : Stk) (g : Gen) : Bool :=
  match g.cache s with
  | [] => true
  | [c] => flag2 && !c.value.isShort
  | _ => false

/-- A pop that reads memory finds no free register, and has to spill cells of the other stack. -/
def starves (flag2 : Bool) (s : Stk) (g : Gen) : Bool :=
  g.readsMemory flag2 s && g.findFreeReg.isNone && !(g.cache s.other).isEmpty

theorem region_injective : Function.Injective Stk.region := by
  intro s s' h
  cases s <;> cases s' <;> first | rfl | cases h

/-- While an allocation spills unwritten cells of the other stack, the base is the other array. -/
theorem allocSpills_memBase {s : Stk} (hs : s = g.cur) (hnil : g.cache s = [])
    (hun : Unwritten (g.cache s.other)) (hbase : g.memBase = some s.region)
    (h : AllocSpills g g') : g' = g ∨ g'.memBase = some s.other.region := by
  suffices hI : g'.cache s = [] ∧ g'.cur = s ∧ Unwritten (g'.cache s.other) ∧
      (g' = g ∨ g'.memBase = some s.other.region) from hI.2.2.2
  induction h with
  | refl => exact ⟨hnil, hs.symm, hun, .inl rfl⟩
  | tail _ hstep ih =>
    obtain ⟨hnil', hcur, hun', hor⟩ := ih
    obtain ⟨-, hor', hc⟩ := hstep
    rename_i b _ s' c cs
    obtain rfl : s' = s.other := by
      rcases Stk.eq_or_eq_other s s' with rfl | hother
      · rw [hnil'] at hc
        cases hc
      · exact hother
    refine ⟨?_, ?_, ?_, .inr ?_⟩
    · rwa [spillCell_cache_of_ne _ _ _ _ s.ne_other]
    · rw [cur_eq_of_currentOpcode (b.spillCell_currentOpcode _ _ _), hcur]
    · rw [spillCell_cache_self]
      rw [hc] at hun'
      exact fun d hd => hun' d (.tail _ hd)
    · rw [spillCell_memBase, if_pos (hun' c (by rw [hc]; exact .head _))]

/-- The base chosen for a pop from memory survives the allocation unless the pop starves. -/
theorem popFromMem_memBase {s : Stk} (hs : s = g.cur) (hnil : g.cache s = [])
    (hun : Unwritten (g.cache s.other)) :
    (g.setMemBase s.region).allocReg.2.memBase = some s.region ↔
      ¬(g.findFreeReg = none ∧ g.cache s.other ≠ []) := by
  have hfree : (g.setMemBase s.region).findFreeReg = g.findFreeReg := by
    simp [findFreeReg]
  cases hr : g.findFreeReg with
  | some r =>
    rw [allocReg_of_free _ (hfree.trans hr)]
    simp
  | none =>
    obtain ⟨g', hspills, halloc⟩ := (g.setMemBase s.region).allocReg_spec
    have hmem := allocSpills_memBase (g := g.setMemBase s.region)
      (hs.trans (cur_eq_of_currentOpcode (setMemBase_currentOpcode _ _).symm))
      (by rwa [setMemBase_cache]) (by rwa [setMemBase_cache]) (setMemBase_memBase _ _) hspills
    have hbase : (g.setMemBase s.region).allocReg.2.memBase = g'.memBase := by
      rcases halloc with ⟨r, -, h⟩ | ⟨-, -, h⟩ <;> rw [h] <;> rfl
    rw [hbase]
    constructor
    · rintro hsame ⟨-, hne⟩
      rcases hmem with rfl | hother
      · rcases halloc with ⟨r, hr', -⟩ | ⟨-, hnil', -⟩
        · rw [hfree, hr] at hr'
          cases hr'
        · exact hne (by simpa using hnil' s.other)
      · rw [hsame] at hother
        exact s.ne_other (region_injective (Option.some_inj.mp hother))
    · intro hnot
      have hnil' : g.cache s.other = [] := by
        by_contra hne
        exact hnot ⟨rfl, hne⟩
      rcases Relation.ReflTransGen.cases_head hspills with rfl | ⟨_, hstep, -⟩
      · exact setMemBase_memBase _ _
      · obtain ⟨-, -, hc⟩ := hstep
        rename_i s' c cs
        rw [setMemBase_cache] at hc
        rcases Stk.eq_or_eq_other s s' with rfl | rfl
        · rw [hnil] at hc
          cases hc
        · rw [hnil'] at hc
          cases hc

theorem intended_emit_access {i : Instr} {r : Region} (hm : i.meant = some r)
    (hrun : (g.mach E σ₀).status = .running) : Intended E σ₀ (g.emit i).code ↔
      Intended E σ₀ g.code ∧ (g.mach E σ₀).regs .memBase = E.layout.base r := by
  refine and_congr_right fun _ => ⟨fun h => h r hm hrun, ?_⟩
  intro h r' hr' _
  rw [hm] at hr'
  rwa [← Option.some_inj.mp hr']

/-- The code of a pop reads the intended array exactly if that is where the base is. -/
theorem intended_popCode (flag2 : Bool) (s : Stk) {sp : Reg} (hsp : sp ≠ .memBase ∧ sp ≠ .vm)
    (reg : OpReg) (hg : Aligned E σ₀ g) : Intended E σ₀ (g.popCode flag2 s sp reg).code ↔
      Intended E σ₀ g.code ∧ (g.mach E σ₀).regs .memBase = E.layout.base s.region := by
  have hmem : ∀ {g : Gen} {i : Instr}, i.Local →
      ((g.emit i).mach E σ₀).regs .memBase = (g.mach E σ₀).regs .memBase :=
    fun hi => Mach.step_regs hi.control hi.base
  have hsub : (Instr.op2 .sub sp sp (.imm 1)).Local := ⟨rfl, by simp [hsp], by simp [hsp]⟩
  have hmov : (Instr.op1 .movU8 .memOffset (.reg sp)).Local := ⟨rfl, by simp, by simp⟩
  have hload : ∀ dst : Reg, dst ≠ .memBase → dst ≠ .vm → (Instr.loadU8 dst s.region).Local :=
    fun dst h₁ h₂ => ⟨rfl, by simp [h₁], by simp [h₂]⟩
  have hone : ∀ {g : Gen} (dst : Reg), Aligned E σ₀ g →
      (Intended E σ₀ (((g.emit (.op2 .sub sp sp (.imm 1))).emit
        (.op1 .movU8 .memOffset (.reg sp))).emit (.loadU8 dst s.region)).code ↔
        Intended E σ₀ g.code ∧ (g.mach E σ₀).regs .memBase = E.layout.base s.region) := by
    intro g dst hg
    rw [intended_emit_access rfl ((hg.emit hsub).emit hmov).running, intended_emit rfl,
      intended_emit rfl, hmem hmov, hmem hsub]
  unfold popCode
  cases flag2 with
  | false => exact hone _ hg
  | true =>
    have hg₁ := ((hg.emit hsub).emit hmov).emit (hload (.op reg) (by simp) (by simp))
    simp only [if_true]
    rw [intended_emit rfl, intended_emit rfl, hone _ hg₁, hone _ hg,
      hmem (hload (.op reg) (by simp) (by simp)), hmem hmov, hmem hsub, and_assoc, and_self]

/-- A pop from memory reads the intended array unless it has to spill from the other stack. -/
theorem intended_popFromMem (flag2 : Bool) {s : Stk} (hsp : g.SpRegs) (hs : s = g.cur)
    (hnil : g.cache s = []) (hun : Unwritten (g.cache s.other)) (hg : Aligned E σ₀ g) :
    Intended E σ₀ (g.popFromMem flag2 s).2.code ↔
      Intended E σ₀ g.code ∧ ¬(g.findFreeReg = none ∧ g.cache s.other ≠ []) := by
  have hemits : Emits Aimed g (g.setMemBase s.region).allocReg.2 :=
    (Emits.setMemBase .refl _).trans (emits_allocReg _)
  have hg' := hg.emits hemits.loose
  rw [popFromMem_eq, intended_popCode flag2 s (hsp s) _ hg', hg.intended_emits hemits,
    ← popFromMem_memBase hs hnil hun]
  refine and_congr_right fun _ => ⟨fun h => ?_, fun h => hg'.tracks.base _ h⟩
  obtain ⟨r, hr⟩ : ∃ r, (g.setMemBase s.region).allocReg.2.memBase = some r := by
    have hsome : ((g.setMemBase s.region).memBase).isSome := by simp
    have := (emits_allocReg (g.setMemBase s.region)).preserves (I := fun x => x.memBase.isSome)
      (fun a b hab ha => by
        cases hab with
        | emit _ => exact ha
        | setMemBase r => simp
        | books hs => rwa [hs.memBase]) hsome
    exact Option.isSome_iff_exists.mp this
  rw [hr, E.layout.base_injective ((hg'.tracks.base r hr).symm.trans h)]

/-- A byte that is popped from a cached cell is read as intended. -/
theorem intended_stackCachePopByte {s : Stk} (hsp : g.SpRegs) (hs : s = g.cur)
    (hun : Unwritten (g.cache s.other)) (hg : Aligned E σ₀ g) :
    Intended E σ₀ (g.stackCachePopByte s).2.code ↔ Intended E σ₀ g.code ∧
      ¬(g.cache s = [] ∧ g.findFreeReg = none ∧ g.cache s.other ≠ []) := by
  unfold stackCachePopByte
  cases htop : (g.cache s).getLast? with
  | none =>
    have hnil : g.cache s = [] := List.getLast?_eq_none_iff.mp htop
    simp only
    rw [intended_popFromMem false hsp hs hnil hun hg]
    simp [hnil]
  | some top =>
    have hne : g.cache s ≠ [] := by
      rintro hnil
      simp [hnil] at htop
    simp only [hne, false_and, not_false_eq_true, and_true]
    split
    · have halloc := g.emits_allocReg
      have hg' := hg.emits halloc.loose
      split
      next hnil =>
        -- the register that was just released is free
        have hrel : Emits Aimed g (g.allocReg.2.releaseReg g.allocReg.1) := halloc.releaseReg _
        have hun' := hun.shrinks (g.shrinks_allocReg s.other)
        rw [intended_popFromMem false (fun s' => by rw [hrel.spReg]; exact hsp s')
          (hs.trans hrel.cur.symm) hnil hun' (hg.emits hrel.loose), hg.intended_emits hrel]
        refine and_iff_left ?_
        rintro ⟨hfree, hother⟩
        obtain ⟨g', hs', ⟨r, hr, h⟩ | ⟨-, hnil', h⟩⟩ := g.allocReg_spec
        · rw [h] at hfree
          simp only [releaseReg_retainReg_refCounts, findFreeReg] at hfree hr
          simp [hr] at hfree
        · rw [h] at hother
          exact hother (hnil' _)
      next =>
        exact (intended_emit rfl).trans ((intended_emit rfl).trans (hg.intended_emits halloc))
    · rfl

theorem starves_iff {flag2 : Bool} {s : Stk} : g.starves flag2 s = true ↔
    (g.cache s = [] ∨ flag2 = true ∧ ∃ c, g.cache s = [c] ∧ c.value.isShort = false) ∧
      g.findFreeReg = none ∧ g.cache s.other ≠ [] := by
  have hreads : g.readsMemory flag2 s = true ↔
      g.cache s = [] ∨ flag2 = true ∧ ∃ c, g.cache s = [c] ∧ c.value.isShort = false := by
    unfold readsMemory
    rcases g.cache s with _ | ⟨c, _ | ⟨d, cs⟩⟩ <;> simp
  simp [starves, hreads, and_assoc]

/-- **A pop reads the intended array unless it starves.** -/
theorem intended_stackCachePop (flag2 : Bool) {s : Stk} (hsp : g.SpRegs) (hs : s = g.cur)
    (hun : Unwritten (g.cache s.other)) (hg : Aligned E σ₀ g) :
    Intended E σ₀ (g.stackCachePop flag2 s).2.code ↔
      Intended E σ₀ g.code ∧ ¬g.starves flag2 s = true := by
  rw [starves_iff]
  unfold stackCachePop
  cases flag2 with
  | false =>
    simpa using intended_stackCachePopByte hsp hs hun hg
  | true =>
    simp only [if_true, true_and]
    cases htop : (g.cache s).getLast? with
    | none =>
      have hnil : g.cache s = [] := List.getLast?_eq_none_iff.mp htop
      simp only
      rw [intended_popFromMem true hsp hs hnil hun hg]
      simp [hnil]
    | some top =>
      obtain ⟨cs, hcs⟩ := List.getLast?_eq_some_iff.mp htop
      simp only
      split
      next hshort =>
        refine (and_iff_left ?_).symm
        rintro ⟨hnil | ⟨c, hc, hbyte⟩, -⟩
        · simp [hcs] at hnil
        · rw [hc] at htop
          simp only [List.getLast?_singleton, Option.some.injEq] at htop
          simp [← htop, hbyte] at hshort
      next hbyte =>
        have hset : Emits Aimed g (g.setCache s (g.cache s).dropLast) := Emits.setCache .refl _ _
        have hbyte' := intended_stackCachePopByte (g := g.setCache s (g.cache s).dropLast) hsp hs
          (by rwa [setCache_cache_of_ne _ _ _ s.other_ne]) (hg.emits hset.loose)
        rw [setCache_cache_self, setCache_cache_of_ne _ _ _ s.other_ne] at hbyte'
        refine (intended_emit rfl).trans ((intended_emit rfl).trans (hbyte'.trans ?_))
        refine and_congr_right fun _ => not_congr (and_congr_left fun _ => ?_)
        simp only [hcs, List.dropLast_concat]
        constructor
        · rintro rfl
          exact .inr ⟨top, rfl, by simpa using hbyte⟩
        · rintro (hnil | ⟨c, hc, -⟩)
          · simp at hnil
          · rcases List.append_eq_singleton_iff.mp hc with ⟨hnil, -⟩ | ⟨-, htop'⟩
            exacts [hnil, by simp at htop']

/-! ## Division -/

/-- The code of a division, with two new labels. -/
def divideCode (setZero done : Label) (c a b : OpReg) : List Instr :=
  [.label done, .op1 .mov (.op c) (.imm 0), .label setZero, .jump done,
    .op1 .mov .memBase (.reg .tmp), .op1 .mov (.op c) (.reg .memBase), .divUW,
    .op1 .mov .memOffset (.reg (.op b)), .op1 .mov .memBase (.reg (.op a)),
    .op1 .mov .tmp (.reg .memBase), .cmpJump .equal (.op b) (.imm 0) setZero]

theorem divide_code (g : Gen) (c a b : OpReg) :
    (g.divide c a b).code = divideCode g.labels (g.labels + 1) c a b ++ g.code := rfl

/-- The division keeps everything but its result and the scratch registers. -/
theorem mach_divide (c a b : OpReg) (hrun : (g.mach E σ₀).status = .running) :
    ((g.divide c a b).mach E σ₀).status = .running ∧
      ((g.divide c a b).mach E σ₀).mem = (g.mach E σ₀).mem ∧
      ((g.divide c a b).mach E σ₀).trace = (g.mach E σ₀).trace ∧
      ((g.divide c a b).mach E σ₀).regs (.op c) =
        (g.mach E σ₀).regs (.op a) / (g.mach E σ₀).regs (.op b) ∧
      ∀ r, r ≠ .op c → r ≠ .tmp → r ≠ .memOffset →
        ((g.divide c a b).mach E σ₀).regs r = (g.mach E σ₀).regs r := by
  have hmach : (g.divide c a b).mach E σ₀ =
      (divideCode g.labels (g.labels + 1) c a b).foldr (Mach.step E) (g.mach E σ₀) := by
    rw [mach, divide_code, Mach.exec_append]
    rfl
  rw [hmach, divideCode]
  generalize g.mach E σ₀ = σ at hrun
  by_cases hb : σ.regs (.op b) = 0#64
  · have hcmp : σ.step E (.cmpJump .equal (.op b) (.imm 0) g.labels) =
        { σ with status := .skipping g.labels } := by
      rw [Mach.step_running hrun]
      simp [Instr.exec, Cond.holds, Flags.compare, Mach.src, hb]
    simp only [List.foldr, hcmp]
    simp [Mach.step, Instr.exec, Mach.src, Mach.set, Op1.eval, hb]
    exact fun r hr _ _ => Function.update_of_ne hr _ _
  · have hcmp : σ.step E (.cmpJump .equal (.op b) (.imm 0) g.labels) = σ := by
      rw [Mach.step_running hrun]
      simp [Instr.exec, Cond.holds, Flags.compare, Mach.src, hb]
    simp only [List.foldr, hcmp]
    simp [Mach.step, Instr.exec, hrun, Mach.src, Mach.set, Op1.eval]
    intro r hc htmp hoff
    by_cases hbase : r = .memBase
    · simp [hbase]
    · simp [hc, htmp, hoff, hbase]

theorem intended_append {is code : List Instr} (his : ∀ i ∈ is, i.meant = none) :
    Intended E σ₀ (is ++ code) ↔ Intended E σ₀ code := by
  induction is with
  | nil => rfl
  | cons i is ih =>
    have hi : i.meant = none := his i (.head _)
    refine (and_iff_left fun r hr => ?_).trans (ih fun j hj => his j (.tail _ hj))
    rw [hi] at hr
    cases hr

theorem intended_divide (c a b : OpReg) :
    Intended E σ₀ (g.divide c a b).code ↔ Intended E σ₀ g.code := by
  rw [divide_code]
  exact intended_append (by simp [divideCode])

theorem Aligned.divide (h : Aligned E σ₀ g) (c a b : OpReg) : Aligned E σ₀ (g.divide c a b) := by
  obtain ⟨hrun, -, -, -, hregs⟩ := mach_divide c a b h.running
  refine ⟨hrun, ?_, fun r hr => ?_⟩
  · rw [hregs _ (by simp) (by simp) (by simp), h.tracks.vm]
  · rw [divide_memBase] at hr
    rw [hregs _ (by simp) (by simp) (by simp), h.tracks.base r hr]

end Gen

/-! ## Sequences -/

/-- The state in which straight-line opcodes are compiled, between two micro operations. -/
structure Poised (E : Env) (σ₀ : Mach) (g : Gen) : Prop where
  aligned : g.Aligned E σ₀
  spRegs : g.SpRegs
  cur : WrittenFirst (g.cache g.cur)
  other : Unwritten (g.cache g.cur.other)

namespace Poised

variable {E : Env} {σ₀ : Mach} {g g' : Gen}

theorem of_emits (hg : Poised E σ₀ g) (h : Gen.Emits Gen.Loose g g')
    (hc : ∀ s, Shrinks (g.cache s) (g'.cache s)) : Poised E σ₀ g' where
  aligned := hg.aligned.emits h
  spRegs s := by
    rw [h.spReg]
    exact hg.spRegs s
  cur := by
    rw [h.cur]
    exact hg.cur.shrinks (hc _)
  other := by
    rw [h.cur]
    exact hg.other.shrinks (hc _)

theorem push (hg : Poised E σ₀ g) (o : Operand OpReg) (s : Stk) :
    Poised E σ₀ (g.stackCachePush s o) := by
  have h := g.emits_stackCachePush s o
  obtain ⟨cs, hcs, hcache⟩ := g.stackCachePush_cache s o
  refine ⟨hg.aligned.emits h.loose, fun s' => by rw [h.spReg]; exact hg.spRegs s', ?_, ?_⟩
  · rw [h.cur, hcache]
    by_cases hs : g.cur = s
    · subst hs
      rw [Function.update_self]
      exact (hg.cur.shrinks hcs).concat rfl
    · rw [Function.update_of_ne hs]
      exact hg.cur
  · rw [h.cur, hcache]
    by_cases hs : g.cur.other = s
    · rw [hs, Function.update_self]
      rw [← hs] at hcs
      exact (hg.other.shrinks hcs).concat rfl
    · rw [Function.update_of_ne hs]
      exact hg.other

end Poised

/-- The condition of a pop: it does not starve. -/
def Micro.Fed : Micro → Ctx → Prop
  | .popEx flag2 s, ctx => ctx.starves flag2 s = false
  | _, _ => True

section Sequences

variable {E : Env} {σ₀ : Mach}

/-- **One micro operation**: it keeps the base tracked, and its accesses are the intended ones
unless it is a pop that starves. -/
theorem handle_poised {next : Ctx → Ctx} {o : Micro} {ctx : Ctx} (ho : o.straight)
    (hc : o.Current ctx) (hg : Poised E σ₀ ctx.toGen) :
    Poised E σ₀ (handle next o ctx).2.toGen ∧
      (Intended E σ₀ (handle next o ctx).2.code ↔ Intended E σ₀ ctx.code ∧ o.Fed ctx) := by
  cases o with
  | ask => exact ⟨hg, (and_iff_left trivial).symm⟩
  | popEx flag2 s =>
    obtain rfl : s = ctx.cur := hc
    simp only [handle, Ctx.popEx_toGen]
    refine ⟨hg.of_emits (Gen.emits_stackCachePop _ _ hg.spRegs flag2)
      (Gen.shrinks_stackCachePop _ _ flag2), ?_⟩
    rw [Gen.intended_stackCachePop flag2 hg.spRegs rfl hg.other hg.aligned, Micro.Fed,
      Bool.not_eq_true]
  | pushEx operand s =>
    have hassert : Poised E σ₀ (ctx.toGen.assert (ctx.refCounts operand.reg != 0)) :=
      hg.of_emits (Gen.Emits.assert .refl _) fun _ => .refl
    simp only [handle, Ctx.pushEx_toGen]
    refine ⟨hassert.push operand s, ?_⟩
    exact (hassert.aligned.intended_emits (Gen.emits_stackCachePush _ s operand)).trans
      (and_iff_left trivial).symm
  | discard flag2 s =>
    have h := ctx.toGen.emits_stackCacheDiscard s hg.spRegs flag2
    exact ⟨hg.of_emits h.loose (Gen.shrinks_stackCacheDiscard _ s flag2),
      (hg.aligned.intended_emits h).trans (and_iff_left trivial).symm⟩
  | allocReg =>
    have h := ctx.toGen.emits_allocReg
    exact ⟨hg.of_emits h.loose (Gen.shrinks_allocReg _),
      (hg.aligned.intended_emits h).trans (and_iff_left trivial).symm⟩
  | alu a =>
    exact ⟨hg.of_emits (Gen.Emits.emit .refl a.local) fun _ => .refl,
      (Gen.intended_emit a.meant).trans (and_iff_left trivial).symm⟩
  | divide c a b =>
    have hdiv : Poised E σ₀ (ctx.toGen.divide c a b) :=
      ⟨hg.aligned.divide c a b, fun s => by simpa using hg.spRegs s, by simpa using hg.cur,
        by simpa using hg.other⟩
    exact ⟨hdiv, (Gen.intended_divide c a b).trans (and_iff_left trivial).symm⟩
  | load reg addr =>
    have h := ctx.toGen.emits_load reg addr
    exact ⟨hg.of_emits h.loose fun s => by rw [handle, Ctx.lift, Gen.load_cache],
      (hg.aligned.intended_emits h).trans (and_iff_left trivial).symm⟩
  | store addr value =>
    have h := ctx.toGen.emits_store addr value
    exact ⟨hg.of_emits h.loose fun s => by rw [handle, Ctx.lift, Gen.store_cache],
      (hg.aligned.intended_emits h).trans (and_iff_left trivial).symm⟩
  | immediate isShort =>
    have h : Gen.Emits Aimed ctx.toGen (ctx.immediate isShort).2.toGen :=
      ctx.toGen.emits_allocReg.trans (Gen.emits_immediate _ _ isShort ctx.pc)
    refine ⟨hg.of_emits h.loose fun s => ?_,
      (hg.aligned.intended_emits h).trans (and_iff_left trivial).symm⟩
    rw [handle, Ctx.immediate_toGen, Gen.immediate_cache]
    exact ctx.toGen.shrinks_allocReg s
  | _ => simp [Micro.straight] at ho

/-- The bookkeeping before an opcode keeps the base tracked, and its accesses are intended. -/
theorem beginOpcode_poised {ctx : Ctx} (hg : ctx.toGen.Aligned E σ₀)
    (hfirst : ∀ s, WrittenFirst (ctx.cache s)) : Poised E σ₀ ctx.beginOpcode.toGen ∧
      (Intended E σ₀ ctx.beginOpcode.code ↔ Intended E σ₀ ctx.code) := by
  have hop : ctx.beginOpcode.toGen = ctx.toGen.beginOpcode (ctx.jit.memory ctx.pc) := rfl
  rw [hop]
  obtain ⟨haligned, hintended⟩ := ctx.toGen.beginOpcode_preserves
    (I := fun g => g.Aligned E σ₀ ∧ (Intended E σ₀ g.code ↔ Intended E σ₀ ctx.code))
    (ctx.jit.memory ctx.pc)
    (fun g g' hch ⟨ha, hiff⟩ => by
      have hem : Gen.Emits Aimed g g' := .single hch
      exact ⟨ha.emits hem.loose, (ha.intended_emits hem).trans hiff⟩)
    (fun g op sp ⟨ha, hiff⟩ => ⟨⟨ha.running, ⟨ha.tracks.vm, ha.tracks.base⟩⟩, hiff⟩)
    ⟨hg, Iff.rfl⟩
  refine ⟨⟨haligned, Gen.spRegs_beginOpcode _ _, ?_, Gen.beginOpcode_other _ hfirst⟩, hintended⟩
  cases hk : opFlagK (ctx.jit.memory ctx.pc) with
  | false => exact (Gen.beginOpcode_unwritten hk hfirst _).writtenFirst
  | true => exact (Gen.beginOpcode_written hk).writtenFirst

/-- No pop of the sequence starves. -/
def NeverStarves (fuel n : ℕ) (ctx : Ctx) : Prop := AlongOpcodes fuel Micro.Fed n ctx

end Sequences

/-- `LIT2r` four times and `ROT`: the other stack holds four cells, the current one none. -/
def starvedRot : List Byte :=
  [0xe0, 0x01, 0x02, 0xe0, 0x03, 0x04, 0xe0, 0x05, 0x06, 0xe0, 0x07, 0x08, 0x05]

end BuxnJit
