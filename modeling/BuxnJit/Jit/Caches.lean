import BuxnJit.Jit.Frame

/-!
# The shape of the caches

`Shrinks cs cs'` says what pops and spills can do to a cache: take cells away at either end, and
halve a cell. A push adds one unwritten cell. Hence written cells always lie below unwritten ones
(`WrittenFirst`), and a cache that has no written cell gets none (`Unwritten`).
-/

namespace BuxnJit

/-! ## Shrinking -/

/-- One cell is spilled, popped or halved. -/
inductive Shrink : List Cell → List Cell → Prop
  | tail (c : Cell) (cs : List Cell) : Shrink (c :: cs) cs
  | dropLast (cs : List Cell) : Shrink cs cs.dropLast
  | halve (cs : List Cell) (i : ℕ) : Shrink cs (cs.modify i Cell.halve)

abbrev Shrinks : List Cell → List Cell → Prop := Relation.ReflTransGen Shrink

theorem Shrinks.preserves {P : List Cell → Prop} {cs cs' : List Cell}
    (hP : ∀ ds ds', Shrink ds ds' → P ds → P ds') (h : Shrinks cs cs') (hcs : P cs) : P cs' := by
  induction h with
  | refl => exact hcs
  | tail _ hs ih => exact hP _ _ hs ih

/-! ## Written and unwritten cells -/

def Unwritten (cs : List Cell) : Prop := ∀ c ∈ cs, c.needFlush = true

def Written (cs : List Cell) : Prop := ∀ c ∈ cs, c.needFlush = false

/-- Below a written cell all cells are written. -/
def WrittenFirst (cs : List Cell) : Prop :=
  cs.Pairwise fun a b => b.needFlush = false → a.needFlush = false

@[simp] theorem Cell.halve_needFlush (c : Cell) : c.halve.needFlush = c.needFlush := rfl

@[simp] theorem Cell.halve_reg (c : Cell) : c.halve.value.reg = c.value.reg := rfl

@[simp] theorem Cell.halve_isShort (c : Cell) : c.halve.value.isShort = false := rfl

@[simp] theorem Cell.flushed_needFlush (c : Cell) : c.flushed.needFlush = false := rfl

@[simp] theorem Cell.flushed_value (c : Cell) : c.flushed.value = c.value := rfl

theorem map_modify_halve {α : Type} (f : Cell → α) (hf : ∀ c, f c.halve = f c) (cs : List Cell)
    (i : ℕ) : (cs.modify i Cell.halve).map f = cs.map f := by
  induction cs generalizing i with
  | nil => simp
  | cons c cs ih => cases i <;> simp [hf, ih]

/-- A condition on the flags of the cells that passes to sublists survives shrinking. -/
theorem Shrinks.flags {R : List Bool → Prop} {cs cs' : List Cell}
    (hR : ∀ fs fs', List.Sublist fs' fs → R fs → R fs') (h : Shrinks cs cs')
    (hcs : R (cs.map Cell.needFlush)) : R (cs'.map Cell.needFlush) := by
  refine h.preserves (P := fun ds => R (ds.map Cell.needFlush)) ?_ hcs
  intro ds ds' hs hds
  cases hs with
  | tail c => exact hR _ _ (List.sublist_cons_self ..) hds
  | dropLast => exact hR _ _ ((List.dropLast_sublist _).map _) hds
  | halve i => rwa [map_modify_halve _ Cell.halve_needFlush]

theorem Unwritten.shrinks {cs cs' : List Cell} (hcs : Unwritten cs) (h : Shrinks cs cs') :
    Unwritten cs' := by
  have := h.flags (R := fun fs => ∀ f ∈ fs, f = true) (fun _ _ hs hf f h => hf f (hs.subset h))
    (by simpa [Unwritten] using hcs)
  simpa [Unwritten] using this

theorem Written.shrinks {cs cs' : List Cell} (hcs : Written cs) (h : Shrinks cs cs') :
    Written cs' := by
  have := h.flags (R := fun fs => ∀ f ∈ fs, f = false) (fun _ _ hs hf f h => hf f (hs.subset h))
    (by simpa [Written] using hcs)
  simpa [Written] using this

theorem WrittenFirst.shrinks {cs cs' : List Cell} (hcs : WrittenFirst cs) (h : Shrinks cs cs') :
    WrittenFirst cs' := by
  have := h.flags (R := fun fs => fs.Pairwise fun a b => b = false → a = false)
    (fun _ _ hs hf => hf.sublist hs) (by rwa [List.pairwise_map])
  rwa [List.pairwise_map] at this

theorem Unwritten.concat {cs : List Cell} {c : Cell} (hcs : Unwritten cs)
    (hc : c.needFlush = true) : Unwritten (cs ++ [c]) := by
  intro d hd
  rcases List.mem_append.mp hd with hd | hd
  · exact hcs d hd
  · rwa [List.mem_singleton.mp hd]

theorem WrittenFirst.concat {cs : List Cell} {c : Cell} (hcs : WrittenFirst cs)
    (hc : c.needFlush = true) : WrittenFirst (cs ++ [c]) := by
  refine List.pairwise_append.mpr ⟨hcs, List.pairwise_singleton _ _, fun a _ b hb hfalse => ?_⟩
  rw [List.mem_singleton.mp hb, hc] at hfalse
  cases hfalse

theorem Unwritten.writtenFirst {cs : List Cell} (hcs : Unwritten cs) : WrittenFirst cs :=
  List.pairwise_of_forall_mem_list fun a _ b hb hfalse => by simp [hcs b hb] at hfalse

theorem Written.writtenFirst {cs : List Cell} (hcs : Written cs) : WrittenFirst cs :=
  List.pairwise_of_forall_mem_list fun a ha _ _ _ => hcs a ha

/-- Dropping as many cells as are written leaves the unwritten ones. -/
theorem WrittenFirst.drop_unwritten {cs : List Cell} (hcs : WrittenFirst cs) :
    Unwritten (cs.drop (cs.countP fun c => !c.needFlush)) := by
  induction cs with
  | nil => simp [Unwritten]
  | cons c cs ih =>
    obtain ⟨hc, hcs⟩ := List.pairwise_cons.mp hcs
    cases hf : c.needFlush with
    | false => simpa [hf] using ih hcs
    | true =>
      have hall : Unwritten cs := fun d hd => by
        by_contra hd'
        simp [hf] at hc
        exact hd' (hc d hd)
      have hzero : cs.countP (fun c => !c.needFlush) = 0 := by
        rw [List.countP_eq_zero]
        exact fun d hd => by simp [hall d hd]
      intro d hd
      simp only [List.countP_cons, hf, hzero, Bool.not_true, Bool.false_eq_true, if_false,
        Nat.add_zero, List.drop_zero, List.mem_cons] at hd
      rcases hd with rfl | hd
      exacts [hf, hall d hd]

theorem Shrinks.nil {cs : List Cell} (h : Shrinks [] cs) : cs = [] := by
  have hlen : cs.length ≤ 0 := h.preserves (P := fun ds => ds.length ≤ 0)
    (fun ds ds' hs hds => by cases hs <;> simp_all) (by simp)
  simpa using hlen

/-! ## What the functions do to the caches -/

namespace Gen

/-- No cell is cached. -/
def Uncached (g : Gen) : Prop := ∀ s, g.cache s = []

variable (g : Gen) (s : Stk)

theorem Spills.shrinks {g g' : Gen} (h : Spills g g') (s : Stk) :
    Shrinks (g.cache s) (g'.cache s) := by
  refine h.preserves (I := fun x => Shrinks (g.cache s) (x.cache s)) ?_ .refl
  intro x s' c cs hc hx
  by_cases hs : s = s'
  · subst hs
    rw [spillCell_cache_self]
    rw [hc] at hx
    exact hx.tail (.tail c cs)
  · rwa [spillCell_cache_of_ne _ _ _ _ hs]

theorem shrinks_allocReg : Shrinks (g.cache s) (g.allocReg.2.cache s) := by
  obtain ⟨g', hs, ⟨r, -, h⟩ | ⟨-, -, h⟩⟩ := g.allocReg_spec <;> rw [h] <;> exact hs.spills.shrinks s

@[simp] theorem popCode_cache (flag2 : Bool) (s : Stk) (sp : Reg) (reg : OpReg) :
    (g.popCode flag2 s sp reg).cache = g.cache := by
  cases flag2 <;> simp [popCode]

theorem shrinks_popFromMem (flag2 : Bool) (s' : Stk) :
    Shrinks (g.cache s') ((g.popFromMem flag2 s).2.cache s') := by
  rw [popFromMem_eq, popCode_cache]
  have h := (g.setMemBase s.region).shrinks_allocReg s'
  rwa [setMemBase_cache] at h

theorem shrinks_setCache {cs : List Cell} (h : Shrinks (g.cache s) cs) (s' : Stk) :
    Shrinks (g.cache s') ((g.setCache s cs).cache s') := by
  by_cases hs : s' = s
  · subst hs
    rwa [setCache_cache_self]
  · rw [setCache_cache_of_ne _ _ _ hs]

theorem shrinks_stackCachePopByte (s' : Stk) :
    Shrinks (g.cache s') ((g.stackCachePopByte s).2.cache s') := by
  unfold stackCachePopByte
  cases htop : (g.cache s).getLast? with
  | none => exact g.shrinks_popFromMem s false s'
  | some top =>
    simp only
    split
    · have halloc := g.shrinks_allocReg s'
      split
      · exact halloc.trans (shrinks_popFromMem (g.allocReg.2.releaseReg _) s false s')
      · exact halloc.trans (shrinks_setCache _ s (.single (.halve _ _)) s')
    · exact shrinks_setCache _ s (.single (.dropLast _)) s'

theorem shrinks_stackCachePop (flag2 : Bool) (s' : Stk) :
    Shrinks (g.cache s') ((g.stackCachePop flag2 s).2.cache s') := by
  unfold stackCachePop
  cases flag2 with
  | false => exact g.shrinks_stackCachePopByte s s'
  | true =>
    simp only [if_true]
    cases htop : (g.cache s).getLast? with
    | none => exact g.shrinks_popFromMem s true s'
    | some top =>
      have hset := g.shrinks_setCache s (.single (.dropLast _)) s'
      simp only
      split
      · exact hset
      · exact hset.trans (shrinks_stackCachePopByte _ s s')

theorem shrinks_stackCacheDiscardByte (s' : Stk) :
    Shrinks (g.cache s') ((g.stackCacheDiscardByte s).cache s') := by
  unfold stackCacheDiscardByte
  cases htop : (g.cache s).getLast? with
  | none => exact .refl
  | some top =>
    simp only
    split
    · exact shrinks_setCache _ s (.single (.halve _ _)) s'
    · exact shrinks_setCache _ s (.single (.dropLast _)) s'

theorem shrinks_stackCacheDiscard (flag2 : Bool) (s' : Stk) :
    Shrinks (g.cache s') ((g.stackCacheDiscard flag2 s).cache s') := by
  unfold stackCacheDiscard
  cases flag2 with
  | false => exact g.shrinks_stackCacheDiscardByte s s'
  | true =>
    simp only [if_true]
    cases htop : (g.cache s).getLast? with
    | none => exact .refl
    | some top =>
      have hset := g.shrinks_setCache s (.single (.dropLast _)) s'
      simp only
      split
      · exact hset
      · exact hset.trans (shrinks_stackCacheDiscardByte
          ((g.setCache s (g.cache s).dropLast).releaseReg top.value.reg) s s')

/-- A push shrinks the cache of its stack by a spill at most, and adds an unwritten cell. -/
theorem stackCachePush_cache (o : Operand OpReg) : ∃ cs, Shrinks (g.cache s) cs ∧
    (g.stackCachePush s o).cache = Function.update g.cache s (cs ++ [⟨o, true⟩]) := by
  unfold stackCachePush
  split
  · refine ⟨_, (g.spills_stackCacheSpill s).shrinks s, ?_⟩
    funext s'
    by_cases hs : s' = s
    · subst hs
      simp
    · have hother : (g.stackCacheSpill s).2.cache s' = g.cache s' := by
        unfold stackCacheSpill
        split <;> simp [hs]
      simp [hs, hother]
  · refine ⟨_, .refl, ?_⟩
    funext s'
    by_cases hs : s' = s
    · subst hs
      simp
    · simp [hs]

theorem stackCacheRetain_cache : (g.stackCacheRetain s).cache = Function.update g.cache s
    ((g.cache s).drop ((g.cache s).countP fun c => !c.needFlush)) := by
  unfold stackCacheRetain
  simp only
  generalize (g.cache s).drop _ = cs
  have hfold : ∀ (ds : List Cell) (g' : Gen),
      (ds.foldl (fun g c => g.retainReg c.value.reg) g').cache = g'.cache := by
    intro ds
    induction ds with
    | nil => exact fun _ => rfl
    | cons d ds ih => exact fun _ => ih _
  exact hfold cs _

theorem retained_cache : g.retained.cache s =
    (g.cache s).drop ((g.cache s).countP fun c => !c.needFlush) := by
  unfold retained
  rw [stackCacheRetain_cache, stackCacheRetain_cache]
  cases s <;> simp

@[simp] theorem flushCells_cache (cs : List Cell) : (flushCells s cs g).cache = g.cache := by
  induction cs generalizing g with
  | nil => rfl
  | cons c cs ih => rw [flushCells, ih, flushCell_cache]

theorem stackCacheFlush_cache : (g.stackCacheFlush s).cache =
    Function.update g.cache s ((g.cache s).map Cell.flushed) := by
  simp [stackCacheFlush, setCache]

theorem shrinks_shadowPointers : Shrinks (g.cache s) (g.shadowPointers.cache s) := by
  rw [shadowPointers_eq]
  exact (g.shrinks_allocReg s).trans (shrinks_allocReg _ s)

/-! ## Between opcodes -/

variable {g}

theorem unwritten_retained (h : ∀ s, WrittenFirst (g.cache s)) (s : Stk) :
    Unwritten (g.retained.cache s) := by
  rw [retained_cache]
  exact (h s).drop_unwritten

theorem beginOpcode_cur (op : Byte) :
    (g.beginOpcode op).cur = if opFlagR op then .rst else .wst := by
  rw [cur, beginOpcode_currentOpcode]

/-- Outside of keep mode an opcode begins with unwritten cells only. -/
theorem beginOpcode_unwritten {op : Byte} (hk : opFlagK op = false)
    (h : ∀ s, WrittenFirst (g.cache s)) (s : Stk) : Unwritten ((g.beginOpcode op).cache s) := by
  rw [beginOpcode_eq, hk]
  exact unwritten_retained h s

/-- In keep mode the cells of the current stack are written at the beginning. -/
theorem beginOpcode_written {op : Byte} (hk : opFlagK op = true) :
    Written ((g.beginOpcode op).cache (g.beginOpcode op).cur) := by
  have hcur : (g.beginOpcode op).cur = { g.retained with currentOpcode := op }.cur := by
    rw [cur, beginOpcode_currentOpcode, cur]
  rw [hcur, beginOpcode_eq, hk, if_pos rfl, enterKeep, stackCacheFlush_cache, Function.update_self]
  intro c hc
  obtain ⟨d, -, rfl⟩ := List.mem_map.mp hc
  rfl

theorem enterKeep_other (h : ∀ s, Unwritten (g.cache s)) :
    Unwritten (g.enterKeep.cache g.cur.other) := by
  have hshrinks := g.shrinks_shadowPointers g.cur.other
  rw [enterKeep, stackCacheFlush_cache, Function.update_of_ne (Stk.other_ne _)]
  exact (h _).shrinks hshrinks

/-- The cells of the other stack are unwritten at the beginning of every opcode. -/
theorem beginOpcode_other (op : Byte) (h : ∀ s, WrittenFirst (g.cache s)) :
    Unwritten ((g.beginOpcode op).cache (g.beginOpcode op).cur.other) := by
  cases hk : opFlagK op with
  | false => exact beginOpcode_unwritten hk h _
  | true =>
    have hcur : (g.beginOpcode op).cur = { g.retained with currentOpcode := op }.cur := by
      rw [cur, beginOpcode_currentOpcode, cur]
    rw [hcur, beginOpcode_eq, hk, if_pos rfl]
    exact enterKeep_other (unwritten_retained h)

end Gen

end BuxnJit
