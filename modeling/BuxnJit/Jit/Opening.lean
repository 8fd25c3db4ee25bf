import BuxnJit.Jit.Draws

/-!
# Opcodes begin

The bookkeeping between two opcodes changes no stack. In keep mode the copies of the pointers are
taken before the cells of the current stack are written, so that pops read ahead from where the
cells begin (`Mirrors.beginOpcode`).
-/

namespace BuxnJit

open Foundations

/-! ## Cells that were written already -/

/-- The cells that the next opcode drops have nothing to be written. -/
theorem pendingOf_drop {es : List Valued} (h : WrittenFirst (es.map Prod.fst)) :
    pendingOf (es.drop ((es.map Prod.fst).countP fun c => !c.needFlush)) = pendingOf es := by
  induction es with
  | nil => rfl
  | cons e es ih =>
    obtain ⟨he, hes⟩ := List.pairwise_cons.mp h
    cases hf : e.1.needFlush with
    | false =>
      have hnone : e.pending = [] := by simp [Valued.pending, hf]
      rw [pendingOf_cons, hnone, List.nil_append, ← ih hes]
      simp [hf]
    | true =>
      have hzero : (es.map Prod.fst).countP (fun c => !c.needFlush) = 0 := by
        rw [List.countP_eq_zero]
        intro d hd hd'
        have hwritten := he d hd (by simpa using hd')
        rw [hf] at hwritten
        cases hwritten
      simp [hf, hzero]

namespace Gen

variable {E : Env} {σ₀ : Mach} {g g' : Gen} {cells cells' : Stk → List Word}
  {ops : List (OpReg × Word)} {held : List OpReg} {s : Stk} {u : Uxn} {W : World}

theorem sameCode_stackCacheRetain (h : SameCode g g') (s : Stk) :
    SameCode g (g'.stackCacheRetain s) := by
  have hfold : ∀ (cs : List Cell) (x : Gen), SameCode g x →
      SameCode g (cs.foldl (fun y c => y.retainReg c.value.reg) x) := by
    intro cs
    induction cs with
    | nil => exact fun x hx => hx
    | cons c cs ih => exact fun x hx => ih _ ⟨hx.1, hx.2, hx.3, hx.4, hx.5⟩
  exact hfold _ _ ⟨h.1, h.2, h.3, h.4, h.5⟩

theorem sameCode_retained : SameCode g g.retained := by
  have h₀ : SameCode g { g with refCounts := fun _ => 0 } := ⟨rfl, rfl, rfl, rfl, rfl⟩
  exact sameCode_stackCacheRetain (sameCode_stackCacheRetain h₀ .wst) .rst

theorem Holds.valued_retained (h : Holds E σ₀ cells ops g) (s : Stk) :
    g.retained.valued (g.retained.spilled cells) s =
      (g.valued cells s).drop ((g.cache s).countP fun c => !c.needFlush) := by
  have hlen := h.length s
  have hle : (g.cache s).countP (fun c => !c.needFlush) ≤ (g.cache s).length := List.countP_le_length
  have hrtake : (cells s).rtake ((g.cache s).length - (g.cache s).countP fun c => !c.needFlush) =
      (cells s).drop ((g.cache s).countP fun c => !c.needFlush) := by
    rw [List.rtake, ← hlen]
    congr 1
    omega
  rw [valued, spilled, retained_cache, List.length_drop, hrtake, valued]
  exact List.drop_zipWith.symm

/-- **Written cells are dropped**, whose bytes are in memory. -/
theorem Mirrors.retained (h : Mirrors E σ₀ W cells g u) (hholds : Holds E σ₀ cells ops g)
    (hfirst : ∀ s, WrittenFirst (g.cache s)) :
    Mirrors E σ₀ W (g.retained.spilled cells) g.retained u := by
  have hmach : g.retained.mach E σ₀ = g.mach E σ₀ := mach_of_code sameCode_retained.code
  refine h.idle ⟨by rw [hmach], fun s => by rw [hmach], by rw [hmach]⟩ ?_ (fun s => ?_) fun s e he => ?_
  · rw [hmach]
    exact ⟨h.tracks.vm, fun r hr => h.tracks.base r (sameCode_retained.memBase ▸ hr)⟩
  · have hfst := hholds.valued_fst s
    rw [hholds.valued_retained, ← hfst]
    apply pendingOf_drop
    rw [hfst]
    exact hfirst s
  · rw [hholds.valued_retained] at he
    exact h.fits s e (List.mem_of_mem_drop he)

/-! ## Copies of the pointers -/

theorem Mirrors.copyPointers (h : Mirrors E σ₀ W cells g u) (hholds : Holds E σ₀ cells [] g) :
    Mirrors E σ₀ W (g.copyPointers.spilled cells) g.copyPointers u := by
  have hone := hholds.allocReg
  have htwo := (h.allocReg hholds).allocReg hone
  have hlen : ∀ s, (g.allocReg.2.allocReg.2.cache s).length ≤ (g.allocReg.2.cache s).length :=
    fun s => (g.allocReg.2.suffix_allocReg s).length_le
  rw [spilled_spilled hlen] at htwo
  have hcopies : Emits Still g.allocReg.2.allocReg.2 g.copyPointers := by
    have h₀ : Emits Still g.allocReg.2.allocReg.2 g.allocReg.2.allocReg.2 := .refl
    refine (h₀.emit ?_).emit ?_ <;>
      exact ⟨⟨rfl, by simp, by simp⟩, by simp, by simp, by simp⟩
  exact htwo.still hone.allocReg.running hcopies rfl

/-- A copy holds the pointer. -/
theorem copyPointers_regs (hholds : Holds E σ₀ cells [] g) (hacc : Accounts [] g) (s : Stk) :
    ((g.copyPointers.mach E σ₀).regs (.op (g.shadowReg s))).setWidth 8 =
      (g.copyPointers.mach E σ₀).stackPtr s := by
  have hrun := hholds.allocReg.allocReg.running
  have hne : g.shadowReg .wst ≠ g.shadowReg .rst := by
    have hfree := ((hacc.allocReg (by simp)).allocReg_free (by simp)).1
    rintro heq
    exact hfree (List.mem_singleton.mpr heq.symm)
  rw [Gen.copyPointers, mach_emit, mach_emit, Mach.step_running hrun]
  cases s with
  | wst => simp [Mach.step, hrun, Instr.exec, Mach.set, Mach.src, Op1.eval, Mach.stackPtr, hne]
  | rst => simp [Mach.step, hrun, Instr.exec, Mach.set, Mach.src, Op1.eval, Mach.stackPtr]

/-! ## Flushing -/

theorem writes_flushCells (hg : Aligned E σ₀ g) (s : Stk) (cs : List Cell) :
    Writes s (pendingOf (cs.zip (cellValues (g.mach E σ₀) cs))) (g.mach E σ₀)
      ((flushCells s cs g).mach E σ₀) := by
  induction cs generalizing g with
  | nil => exact .refl rfl rfl
  | cons c cs ih =>
    have hregs : cellValues ((g.flushCell c s).mach E σ₀) cs = cellValues (g.mach E σ₀) cs := by
      apply cellValues_congr
      intro r _
      have haside : Emits (Touches fun _ => False) g (g.flushCell c s) :=
        (aside_flushCell c s).touching
      exact (haside.touches E σ₀).2 r id
    have hrest := ih (hg.emits (g.emits_flushCell s c).loose)
    rw [hregs] at hrest
    exact (writes_flushCell hg c s).trans hrest

theorem ptr_flushCells (hrun : (g.mach E σ₀).status = .running) (cs : List Cell) {s s' : Stk}
    (hs : s' ≠ s) : ((flushCells s cs g).mach E σ₀).stackPtr s' = (g.mach E σ₀).stackPtr s' := by
  have hptr := pointer_flushCells hrun cs s s'
  rw [if_neg hs, add_zero] at hptr
  exact hptr

theorem fst_flushed (hholds : Holds E σ₀ cells ops g) (s : Stk) :
    ((g.stackCacheFlush s).valued cells s).map Prod.fst = (g.cache s).map Cell.flushed := by
  rw [valued, stackCacheFlush_cache, Function.update_self]
  apply List.map_fst_zip
  rw [List.length_map]
  exact (hholds.length s).le

theorem written_flushed (cs : List Cell) : Written (cs.map Cell.flushed) := by
  intro c hc
  obtain ⟨d, -, rfl⟩ := List.mem_map.mp hc
  rfl

/-- A flush changes no value. -/
theorem valued_flush (cells : Stk → List Word) (s : Stk) : (g.stackCacheFlush s).valued cells s =
    (g.valued cells s).map fun e => (e.1.flushed, e.2) := by
  rw [valued, stackCacheFlush_cache, Function.update_self, valued, List.zip_map_left]
  rfl

/-- **A flush** writes the cells of a cache, and leaves them there. -/
theorem Mirrors.flush (h : Mirrors E σ₀ W cells g u) (hholds : Holds E σ₀ cells ops g) (s : Stk) :
    Mirrors E σ₀ W cells (g.stackCacheFlush s) u := by
  have hg := h.aligned hholds.running
  have hmach : (g.stackCacheFlush s).mach E σ₀ = (flushCells s (g.cache s) g).mach E σ₀ :=
    mach_of_code rfl
  have hwrites := writes_flushCells hg s (g.cache s)
  rw [hholds.cells s, ← hmach] at hwrites
  have hother : ∀ s', s' ≠ s → (g.stackCacheFlush s).valued cells s' = g.valued cells s' := by
    intro s' hs
    rw [valued, stackCacheFlush_cache, Function.update_of_ne hs, valued]
  constructor
  · exact (hg.emits (g.emits_stackCacheFlush s).loose).tracks
  · rw [hwrites.others _ (stack_ne_memory s), h.memory]
  · intro s'
    by_cases hs : s' = s
    · subst hs
      have hwritten : pendingOf ((g.stackCacheFlush s').valued cells s') = [] := by
        apply pendingOf_written
        rw [fst_flushed hholds]
        exact written_flushed _
      have hstack := h.stack s'
      rw [hwritten, hwrites.data, hwrites.ptr]
      rw [← List.append_nil (pendingOf _)] at hstack
      exact hstack.writeBack
    · have hdata : ((g.stackCacheFlush s).mach E σ₀).stackData s' = (g.mach E σ₀).stackData s' := by
        funext i
        rw [Mach.stackData, hwrites.others _ fun he => hs (region_injective he), Mach.stackData]
      rw [hother s' hs, hdata, hmach, ptr_flushCells hholds.running _ hs]
      exact h.stack s'
  · intro s' e he
    by_cases hs : s' = s
    · subst hs
      rw [valued_flush] at he
      obtain ⟨d, hd, rfl⟩ := List.mem_map.mp he
      exact h.fits s' d hd
    · exact h.fits s' e (hother s' hs ▸ he)
  · exact h.world.writes hwrites (trace_of_emits (g.emits_stackCacheFlush s).loose)

/-! ## The beginning -/

/-- Books that the relation does not look at. -/
theorem Mirrors.books (h : Mirrors E σ₀ W cells g u) (hcode : g'.code = g.code)
    (hbase : g'.memBase = g.memBase) (hcache : g'.cache = g.cache) : Mirrors E σ₀ W cells g' u := by
  have hmach : g'.mach E σ₀ = g.mach E σ₀ := mach_of_code hcode
  have hvalued : ∀ s, g'.valued cells s = g.valued cells s := fun s => valued_congr hcache
  refine h.idle ⟨by rw [hmach], fun s => by rw [hmach], by rw [hmach]⟩ ?_ (fun s => by rw [hvalued]) ?_
  · rw [hmach]
    exact ⟨h.tracks.vm, fun r hr => h.tracks.base r (hbase ▸ hr)⟩
  · exact fun s e he => h.fits s e (hvalued s ▸ he)

theorem length_bytes_le (e : Valued) : e.bytes.length ≤ 2 := by
  unfold Valued.bytes wordBytes
  split <;> simp

theorem length_cachedBytes_le (es : List Valued) : (cachedBytes es).length ≤ 2 * es.length := by
  induction es with
  | nil => rfl
  | cons e es ih =>
    have he := length_bytes_le e
    have hcons : cachedBytes (e :: es) = e.bytes ++ cachedBytes es := List.flatMap_cons
    rw [hcons, List.length_append, List.length_cons]
    omega

theorem byte_cast_ne_zero : ∀ k : ℕ, 0 < k → k < 256 → (k : Byte) ≠ 0 := by
  intro k hpos hlt hzero
  have hnat := congrArg BitVec.toNat hzero
  simp at hnat
  omega

/-- **An opcode in keep mode begins**: it reads ahead from the copy of the pointer. -/
theorem Mirrors.enterKeep (h : Mirrors E σ₀ W cells g u) (hholds : Holds E σ₀ cells [] g)
    (hacc : Accounts [] g) (hunwritten : ∀ s, Unwritten (g.cache s)) :
    Mirrors E σ₀ W (g.enterKeep.spilled cells) g.enterKeep u ∧
      Ahead (((g.enterKeep.mach E σ₀).regs (.op (g.shadowReg g.cur))).setWidth 8)
        (cachedBytes (g.enterKeep.valued (g.enterKeep.spilled cells) g.cur)) (u.stack g.cur)
        (u.stack g.cur).top := by
  have hcode : g.shadowPointers.code = g.copyPointers.code := by rw [shadowPointers_eq]
  have hcache : g.shadowPointers.cache = g.copyPointers.cache := by rw [shadowPointers_eq]
  have hbase : g.shadowPointers.memBase = g.copyPointers.memBase := by rw [shadowPointers_eq]
  have hmach : g.shadowPointers.mach E σ₀ = g.copyPointers.mach E σ₀ := mach_of_code hcode
  have hcopies := hholds.copyPointers hacc
  have hshadow : Mirrors E σ₀ W (g.copyPointers.spilled cells) g.shadowPointers u :=
    (h.copyPointers hholds).books hcode hbase hcache
  have hholds' : Holds E σ₀ (g.copyPointers.spilled cells) [] g.shadowPointers := by
    refine ⟨by rw [hmach, hcopies.running], fun s => ?_, by simp⟩
    rw [hmach, hcache, hcopies.cells]
  have hspilled : g.enterKeep.spilled cells = g.copyPointers.spilled cells := by
    funext s
    rw [spilled, spilled, enterKeep_length]
  rw [hspilled]
  refine ⟨hshadow.flush hholds' g.cur, ?_⟩
  -- the copies were taken before the flush, when all bytes were pending
  have hcached : cachedBytes (g.enterKeep.valued (g.copyPointers.spilled cells) g.cur) =
      pendingOf (g.shadowPointers.valued (g.copyPointers.spilled cells) g.cur) := by
    rw [pendingOf_unwritten, Gen.enterKeep, valued_flush, cachedBytes, List.flatMap_map]
    · rfl
    · rw [hholds'.valued_fst, hcache]
      exact fun c hc => hunwritten _ c ((copyPointers_suffix g.cur).subset hc)
  have hlen : (pendingOf (g.shadowPointers.valued (g.copyPointers.spilled cells) g.cur)).length ≤
      256 := by
    have hle := length_cachedBytes_le
      (g.enterKeep.valued (g.copyPointers.spilled cells) g.cur)
    have hcells : (g.enterKeep.valued (g.copyPointers.spilled cells) g.cur).length ≤ cacheSize := by
      rw [valued, List.length_zip]
      apply (Nat.min_le_left _ _).trans
      rw [enterKeep_length]
      exact (copyPointers_suffix g.cur).length_le.trans (hacc.short g.cur)
    have hsize : cacheSize = 4 := rfl
    rw [← hcached]
    omega
  have hreg : (((g.enterKeep.mach E σ₀).regs (.op (g.shadowReg g.cur))).setWidth 8) =
      (g.shadowPointers.mach E σ₀).stackPtr g.cur := by
    have haside : Emits (Touches fun _ => False) g.shadowPointers g.enterKeep :=
      (aside_stackCacheFlush g.cur).touching
    rw [(haside.touches E σ₀).2 _ id, hmach]
    exact copyPointers_regs hholds hacc g.cur
  rw [hcached, hreg]
  exact (hshadow.stack g.cur).ahead byte_cast_ne_zero hlen

/-- **An opcode begins.** -/
theorem Mirrors.beginOpcode (h : Mirrors E σ₀ W cells g u) (hholds : Holds E σ₀ cells [] g)
    (hfit : Fit g) (op : Byte) :
    Mirrors E σ₀ W ((g.beginOpcode op).spilled cells) (g.beginOpcode op) u ∧
      Draws E σ₀ ((g.beginOpcode op).spilled cells) (g.beginOpcode op) (u.enter op) := by
  have hcur : (u.enter op).cur = (g.beginOpcode op).cur := (beginOpcode_cur op).symm
  have hretained := h.retained hholds hfit.writtenFirst
  have hunwritten := unwritten_retained hfit.writtenFirst
  cases hk : opFlagK op with
  | false =>
    have hbegin : g.beginOpcode op = { g.retained with currentOpcode := op, spReg := .sp } := by
      rw [beginOpcode_eq, if_neg (by simp [hk])]
    have hcopy : (u.enter op).copy = none := by
      rw [Uxn.enter, hk]
      rfl
    rw [hbegin]
    exact ⟨hretained.books rfl rfl rfl, .move hcopy rfl (hunwritten _)⟩
  | true =>
    have hwritten := beginOpcode_written (g := g) hk
    have hbegin : g.beginOpcode op = { g.retained with currentOpcode := op }.enterKeep := by
      rw [beginOpcode_eq, if_pos hk]
    have hcopy : (u.enter op).copy = some (u.stack (u.enter op).cur).top := by
      rw [Uxn.enter, hk]
      rfl
    have hopcode : Holds E σ₀ (g.retained.spilled cells) []
        { g.retained with currentOpcode := op } :=
      ⟨hholds.retained.running, hholds.retained.cells, by simp⟩
    have hacc : Accounts [] { g.retained with currentOpcode := op } :=
      hfit.retained.congr rfl rfl rfl
    have hbooks : Mirrors E σ₀ W (g.retained.spilled cells)
        { g.retained with currentOpcode := op } u := hretained.books rfl rfl rfl
    obtain ⟨hmirrors, hahead⟩ := hbooks.enterKeep hopcode hacc hunwritten
    have hle : ∀ s, (Gen.cache (Gen.enterKeep { g.retained with currentOpcode := op }) s).length ≤
        (g.retained.cache s).length := fun s =>
      (enterKeep_length s).trans_le (copyPointers_suffix s).length_le
    rw [spilled_spilled hle, ← hbegin] at hmirrors hahead
    refine ⟨hmirrors, .keep _ hcopy ?_ ?_ hahead⟩
    · rw [hbegin, Gen.enterKeep, (emits_stackCacheFlush _ _).spReg, shadowPointers_eq]
      rfl
    · rw [hcur]
      exact hwritten

end Gen

end BuxnJit
