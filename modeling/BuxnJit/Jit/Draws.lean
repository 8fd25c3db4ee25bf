import BuxnJit.Jit.Mirrors

/-!
# Where pops read

`Draws` adds to `Mirrors`, while an opcode pops, where its pops read: outside of keep mode they take
from the stack itself, in keep mode they read ahead through a copy of the pointer. A pop yields the
byte or the short that the reference pops (`Draws.stackCachePop`), if it finds the registers that it
needs (`Gen.PopsWell`).
-/

namespace BuxnJit

open Foundations

/-! ## Pops -/

/-- The frame `f'` comes from `f` by pops. -/
structure Below (f f' : Uxn.Frame) : Prop where
  memory : f'.memory = f.memory
  cur : f'.cur = f.cur
  copy : f'.copy.isSome = f.copy.isSome
  stack : ∀ s, s ≠ f.cur → f'.stack s = f.stack s

namespace Below

variable {f f' f'' : Uxn.Frame}

theorem refl : Below f f := ⟨rfl, rfl, rfl, fun _ _ => rfl⟩

theorem drop (h : Below f f') : Below f f'.drop := by
  unfold Uxn.Frame.drop
  cases hp : f'.copy with
  | none =>
    refine ⟨h.memory, h.cur, ?_, fun s hs => ?_⟩
    · rw [← h.copy, hp]
      exact congrArg Option.isSome hp
    · have hne : s ≠ f'.cur := by rwa [h.cur]
      exact (Function.update_of_ne hne _ _).trans (h.stack s hs)
  | some p =>
    refine ⟨h.memory, h.cur, ?_, h.stack⟩
    rw [← h.copy, hp]
    rfl

end Below

/-- What a frame pops from: a stack of which `cached` is still to be written, or in keep mode a
stack that is read ahead. Memory is written up to `ptr`, and read from `base` on. -/
def View (data : Byte → Byte) (ptr base : Byte) (cached : List Byte) (f : Uxn.Frame) : Prop :=
  match f.copy with
  | none => ptr = base ∧ Deferred data base cached (f.stack f.cur)
  | some p => Deferred data ptr [] (f.stack f.cur) ∧ Ahead base cached (f.stack f.cur) p

namespace View

variable {data : Byte → Byte} {ptr base x : Byte} {cached : List Byte} {f : Uxn.Frame}
  {isShort : Bool} {w : Word}

theorem drop (h : View data ptr base (cached ++ [x]) f) : View data ptr base cached f.drop := by
  unfold View Uxn.Frame.drop at *
  cases hp : f.copy with
  | none =>
    simp only [hp, Uxn.Frame.setStack, Function.update_self] at h ⊢
    exact ⟨h.1, h.2.drop⟩
  | some p =>
    simp only [hp] at h ⊢
    exact ⟨h.1, h.2.drop⟩

theorem peek (h : View data ptr base (cached ++ [x]) f)
    (hl : (f.stack f.cur).stale (f.pointer - 1) = false) :
    (f.stack f.cur).data (f.pointer - 1) = x := by
  unfold View Uxn.Frame.pointer at *
  cases hp : f.copy with
  | none =>
    simp only [hp, Option.getD_none] at h hl ⊢
    exact h.2.peek hl
  | some p =>
    simp only [hp, Option.getD_some] at h hl ⊢
    exact h.2.peek hl

/-- Where memory is written up to once a byte was popped from there. -/
def lower (keep : Bool) (n ptr : Byte) : Byte := if keep then ptr else ptr - n

theorem dropWritten (h : View data ptr base [] f) :
    View data (lower f.copy.isSome 1 ptr) (base - 1) [] f.drop := by
  unfold View Uxn.Frame.drop lower at *
  cases hp : f.copy with
  | none =>
    simp only [hp, Uxn.Frame.setStack, Function.update_self] at h ⊢
    obtain ⟨rfl, hstack⟩ := h
    exact ⟨rfl, hstack.dropWritten⟩
  | some p =>
    simp only [hp] at h ⊢
    exact ⟨h.1, h.2.dropWritten⟩

theorem peekWritten (h : View data ptr base [] f)
    (hl : (f.stack f.cur).stale (f.pointer - 1) = false) :
    (f.stack f.cur).data (f.pointer - 1) = data (base - 1) := by
  unfold View Uxn.Frame.pointer at *
  cases hp : f.copy with
  | none =>
    simp only [hp, Option.getD_none] at h hl ⊢
    exact h.2.peekWritten hl
  | some p =>
    simp only [hp, Option.getD_some] at h hl ⊢
    have hpos : p = base := by simpa using h.2.pos
    rw [← h.1.data _ hl, hpos]
    rfl

/-! Pops of bytes and shorts -/

theorem run_pop_true (f : Uxn.Frame) : (Uxn.pop true).run Uxn.perform f =
    ((f.drop.stack f.drop.cur).data (f.drop.pointer - 1) ++
      (f.stack f.cur).data (f.pointer - 1), f.drop.drop) := rfl

theorem run_pop_false (f : Uxn.Frame) : (Uxn.pop false).run Uxn.perform f =
    (((f.stack f.cur).data (f.pointer - 1)).setWidth 16, f.drop) := rfl

theorem below_pop (isShort : Bool) (f : Uxn.Frame) : Below f ((Uxn.pop isShort).run Uxn.perform f).2 := by
  cases isShort with
  | false => exact Below.refl.drop
  | true => exact Below.refl.drop.drop

/-- A value that is cached is dropped. -/
theorem pops (h : View data ptr base (cached ++ wordBytes isShort w) f) :
    View data ptr base cached ((Uxn.pop isShort).run Uxn.perform f).2 := by
  cases isShort with
  | false => exact h.drop
  | true =>
    have hbytes : cached ++ wordBytes true w =
        (cached ++ [(w >>> 8).setWidth 8]) ++ [w.setWidth 8] := by simp [wordBytes]
    rw [hbytes] at h
    exact h.drop.drop

/-- A value that is cached is popped. -/
theorem pop (h : View data ptr base (cached ++ wordBytes isShort w) f) (hfit : Fits isShort w)
    (hlive : (Uxn.pop isShort).Along Uxn.perform Uxn.Live f) :
    ((Uxn.pop isShort).run Uxn.perform f).1.setWidth 64 = w := by
  cases isShort with
  | false =>
    have hbyte : wordBytes false w = [w.setWidth 8] := rfl
    rw [hbyte] at h
    rw [run_pop_false, h.peek hlive.1, ← Layout.setWidth_byte]
    exact hfit.byte.symm
  | true =>
    have hbytes : cached ++ wordBytes true w =
        (cached ++ [(w >>> 8).setWidth 8]) ++ [w.setWidth 8] := by simp [wordBytes]
    rw [hbytes] at h
    have hhigh := h.drop.peek hlive.2.1
    rw [run_pop_true, h.peek hlive.1, hhigh, hfit.short, word_lo, word_hi, append_hi_lo]

/-- How many bytes are popped. -/
def bytes (isShort : Bool) : Byte := if isShort then 2 else 1

theorem pred_pred (b : Byte) : b - 1 - 1 = b - 2 := by
  rw [sub_sub]
  rfl

/-- A value is dropped from memory. -/
theorem popsWritten (h : View data ptr base [] f) (isShort : Bool) :
    View data (lower f.copy.isSome (bytes isShort) ptr) (base - bytes isShort) []
      ((Uxn.pop isShort).run Uxn.perform f).2 := by
  cases isShort with
  | false => exact h.dropWritten
  | true =>
    have hlower : lower f.drop.copy.isSome 1 (lower f.copy.isSome 1 ptr) =
        lower f.copy.isSome 2 ptr := by
      rw [(Below.refl (f := f)).drop.copy]
      unfold lower
      split
      · rfl
      · exact pred_pred ptr
    have hdrop := h.dropWritten.dropWritten
    rwa [hlower, pred_pred] at hdrop

/-- A value is popped from memory. -/
theorem popWritten (h : View data ptr base [] f) (isShort : Bool)
    (hlive : (Uxn.pop isShort).Along Uxn.perform Uxn.Live f) :
    ((Uxn.pop isShort).run Uxn.perform f).1.setWidth 64 =
      if isShort then (data (base - 2) ++ data (base - 1) : Short).setWidth 64
      else (data (base - 1)).setWidth 64 := by
  cases isShort with
  | false =>
    rw [run_pop_false, h.peekWritten hlive.1, ← Layout.setWidth_byte]
    rfl
  | true =>
    have hhigh := h.dropWritten.peekWritten hlive.2.1
    rw [run_pop_true, h.peekWritten hlive.1, hhigh, pred_pred]
    rfl

end View

namespace Gen

variable {E : Env} {σ₀ : Mach} {g g' : Gen} {cells cells' : Stk → List Word}
  {ops : List (OpReg × Word)} {held : List OpReg} {s : Stk} {f f' : Uxn.Frame} {W : World}

/-- How an opcode pops: outside of keep mode from cells that are all to be written, in keep mode
from cells that are written, through a copy of the pointer. -/
inductive Draws (E : Env) (σ₀ : Mach) (cells : Stk → List Word) (g : Gen) (f : Uxn.Frame) : Prop
  | move (hcopy : f.copy = none) (hsp : g.spReg = .sp) (hcells : Unwritten (g.cache f.cur))
  | keep {p : Byte} (r : OpReg) (hcopy : f.copy = some p) (hsp : g.spReg f.cur = .op r)
      (hcells : Written (g.cache f.cur))
      (hahead : Ahead (((g.mach E σ₀).regs (.op r)).setWidth 8) (cachedBytes (g.valued cells f.cur))
        (f.stack f.cur) p)

theorem Draws.popping (h : Draws E σ₀ cells g f) : Popping f.cur g f.copy.isSome := by
  cases h with
  | move hcopy hsp hcells =>
    rw [hcopy]
    exact .move hsp hcells
  | keep r hcopy hsp hcells hahead =>
    rw [hcopy]
    exact .keep r hsp hcells

/-- The pointer that pops from memory go through. -/
def basePtr (E : Env) (σ₀ : Mach) (g : Gen) (s : Stk) : Byte :=
  ((g.mach E σ₀).regs (g.spReg s)).setWidth 8

theorem Draws.view (hd : Draws E σ₀ cells g f) (h : Mirrors E σ₀ W cells g f.toUxn)
    (hholds : Holds E σ₀ cells ops g) :
    View ((g.mach E σ₀).stackData f.cur) ((g.mach E σ₀).stackPtr f.cur) (g.basePtr E σ₀ f.cur)
      (cachedBytes (g.valued cells f.cur)) f := by
  have hstack := h.stack f.cur
  have hfst := hholds.valued_fst f.cur
  unfold View basePtr
  cases hd with
  | move hcopy hsp hcells =>
    rw [pendingOf_unwritten (by rwa [hfst])] at hstack
    rw [hsp]
    simp only [hcopy]
    exact ⟨rfl, hstack⟩
  | keep r hcopy hsp hcells hahead =>
    rw [pendingOf_written (by rwa [hfst])] at hstack
    rw [hsp]
    simp only [hcopy]
    exact ⟨hstack, hahead⟩

/-- What is left to show once an opcode has popped. -/
theorem Draws.redraw (hd : Draws E σ₀ cells g f) (h : Mirrors E σ₀ W cells g f.toUxn)
    (hf : Below f f') (hmem : (g'.mach E σ₀).mem = (g.mach E σ₀).mem)
    (htrace : (g'.mach E σ₀).trace = (g.mach E σ₀).trace)
    (hptr : ∀ s, s ≠ f.cur → (g'.mach E σ₀).stackPtr s = (g.mach E σ₀).stackPtr s)
    (htracks : Tracks E (g'.mach E σ₀) g') (hsp : g'.spReg = g.spReg)
    (hshrinks : Shrinks (g.cache f.cur) (g'.cache f.cur))
    (hother : ∀ s, s ≠ f.cur → g'.valued cells' s = g.valued cells s)
    (hfst : (g'.valued cells' f.cur).map Prod.fst = g'.cache f.cur)
    (hfits : ∀ e ∈ g'.valued cells' f.cur, e.Fit)
    (hview : View ((g.mach E σ₀).stackData f.cur) ((g'.mach E σ₀).stackPtr f.cur)
      (g'.basePtr E σ₀ f.cur) (cachedBytes (g'.valued cells' f.cur)) f') :
    Mirrors E σ₀ W cells' g' f'.toUxn ∧ Draws E σ₀ cells' g' f' := by
  have hdata : ∀ s, (g'.mach E σ₀).stackData s = (g.mach E σ₀).stackData s :=
    Mach.stackData_congr hmem
  have hstack : Deferred ((g'.mach E σ₀).stackData f.cur) ((g'.mach E σ₀).stackPtr f.cur)
      (pendingOf (g'.valued cells' f.cur)) (f'.stack f.cur) := by
    rw [hdata]
    unfold View basePtr at hview
    rw [hf.cur] at hview
    cases hd with
    | move hcopy hsp' hcells =>
      have hcopy' : f'.copy = none := by simpa [hcopy] using hf.copy
      simp only [hcopy'] at hview
      rw [pendingOf_unwritten (by rw [hfst]; exact hcells.shrinks hshrinks), hview.1]
      exact hview.2
    | keep r hcopy hsp' hcells hahead =>
      obtain ⟨p', hcopy'⟩ := Option.isSome_iff_exists.mp (hf.copy.trans (by rw [hcopy]; rfl))
      simp only [hcopy'] at hview
      rw [pendingOf_written (by rw [hfst]; exact hcells.shrinks hshrinks)]
      exact hview.1
  have hworld := h.world.congr (by rw [hmem]) (by rw [hmem]) htrace
  refine ⟨⟨htracks, ?_, fun s => ?_, fun s => ?_, hworld⟩, ?_⟩
  · rw [hmem, hf.memory]
    exact h.memory
  · by_cases hs : s = f.cur
    · subst hs
      exact hstack
    · rw [hdata, hptr s hs, hother s hs, hf.stack s hs]
      exact h.stack s
  · by_cases hs : s = f.cur
    · subst hs
      exact hfits
    · rw [hother s hs]
      exact h.fits s
  · cases hd with
    | move hcopy hsp' hcells =>
      refine .move (by simpa [hcopy] using hf.copy) (hsp.trans hsp') ?_
      rw [hf.cur]
      exact hcells.shrinks hshrinks
    | keep r hcopy hsp' hcells hahead =>
      obtain ⟨p', hcopy'⟩ := Option.isSome_iff_exists.mp (hf.copy.trans (by rw [hcopy]; rfl))
      unfold View basePtr at hview
      simp only [hcopy', hsp, hsp', hf.cur] at hview
      refine .keep r hcopy' ?_ ?_ ?_
      · rw [hf.cur, hsp, hsp']
      · rw [hf.cur]
        exact hcells.shrinks hshrinks
      · rw [hf.cur]
        exact hview.2

/-- What a pop of `flag2` does: relation, and the value in `reg`. -/
structure Yields (E : Env) (σ₀ : Mach) (W : World) (cells : Stk → List Word) (g : Gen) (f : Uxn.Frame)
    (flag2 : Bool) (reg : OpReg) : Prop where
  mirrors : Mirrors E σ₀ W cells g ((Uxn.pop flag2).run Uxn.perform f).2.toUxn
  draws : Draws E σ₀ cells g ((Uxn.pop flag2).run Uxn.perform f).2
  value : (g.mach E σ₀).regs (.op reg) = ((Uxn.pop flag2).run Uxn.perform f).1.setWidth 64

/-! ### Pops from memory -/

theorem popFromMem_of_free {r : OpReg} (hfree : g.findFreeReg = some r) (flag2 : Bool) (s : Stk) :
    g.popFromMem flag2 s =
      (r, ((g.setMemBase s.region).retainReg r).popCode flag2 s (g.spReg s) r) := by
  have hfree' : (g.setMemBase s.region).findFreeReg = some r := by
    rw [← hfree]
    simp [findFreeReg]
  rw [popFromMem_eq, allocReg_of_free _ hfree']

theorem refCounts_of_free {r : OpReg} (hfree : g.findFreeReg = some r) : g.refCounts r = 0 := by
  simpa using List.find?_some hfree

/-- The register that pops go through serves for nothing else. -/
theorem Draws.spReg_ne (hd : Draws E σ₀ cells g f) (hacc : Accounts held g)
    (hptr : PointersApart held ops g) {r : OpReg} (hr : g.refCounts r = 0) :
    g.spReg f.cur ≠ .memBase ∧ g.spReg f.cur ≠ .memOffset ∧ g.spReg f.cur ≠ .tmp ∧
      g.spReg f.cur ≠ .op r := by
  cases hd with
  | move hcopy hsp hcells =>
    rw [hsp]
    exact ⟨by simp, by simp, by simp, by simp⟩
  | keep q hcopy hsp hcells hahead =>
    rw [hsp]
    refine ⟨by simp, by simp, by simp, ?_⟩
    intro he
    obtain rfl := Reg.op.inj he
    exact (hacc.free hr).1 (hptr _ _ hsp).held

theorem valued_of_nil (hnil : g.cache s = []) (cells : Stk → List Word) : g.valued cells s = [] := by
  rw [valued, hnil]
  rfl

/-- **A value is popped from memory.** -/
theorem Draws.popFromMem (hd : Draws E σ₀ cells g f) (h : Mirrors E σ₀ W cells g f.toUxn)
    (hholds : Holds E σ₀ cells ops g) (hacc : Accounts held g) (hptr : PointersApart held ops g)
    (hspRegs : g.SpRegs) (hnil : g.cache f.cur = []) {r : OpReg} (hfree : g.findFreeReg = some r)
    (flag2 : Bool) (hlive : (Uxn.pop flag2).Along Uxn.perform Uxn.Live f) :
    Yields E σ₀ W cells (g.popFromMem flag2 f.cur).2 f flag2 (g.popFromMem flag2 f.cur).1 := by
  have hg := h.aligned hholds.running
  have hset := hg.setMemBase f.cur.region
  have hsp := hd.spReg_ne hacc hptr (refCounts_of_free hfree)
  have hview := hd.view h hholds
  rw [valued_of_nil hnil] at hview
  have hview' := View.popsWritten hview flag2
  have hvalue := View.popWritten hview flag2 hlive
  have hemits := g.emits_popFromMem f.cur hspRegs flag2
  rw [popFromMem_of_free hfree] at hemits ⊢
  generalize hg₁ : (g.setMemBase f.cur.region).retainReg r = g₁ at hemits ⊢
  have hmach₁ : g₁.mach E σ₀ = (g.setMemBase f.cur.region).mach E σ₀ := by rw [← hg₁, mach_retainReg]
  have hsp₁ : g₁.spReg = g.spReg := by simp [← hg₁]
  have hcache₁ : g₁.cache = g.cache := by simp [← hg₁]
  have hrun₁ : (g₁.mach E σ₀).status = .running := by rw [hmach₁, hset.running]
  have hpops : Pops f.cur (g.spReg f.cur) flag2 r (g₁.mach E σ₀)
      ((g₁.popCode flag2 f.cur (g.spReg f.cur) r).mach E σ₀) := by
    apply pops_popCode hrun₁ _ hsp
    rw [hmach₁]
    exact hset.tracks.base _ (setMemBase_memBase _ _)
  have hdata : (g₁.mach E σ₀).stackData f.cur = (g.mach E σ₀).stackData f.cur := by
    rw [hmach₁]
    exact Mach.stackData_congr (setMemBase_mem _) _
  have hbase : ((g₁.mach E σ₀).regs (g.spReg f.cur)).setWidth 8 = g.basePtr E σ₀ f.cur := by
    rw [hmach₁, setMemBase_regs _ hsp.1, basePtr]
  have hpointer : ∀ s, ((g₁.popCode flag2 f.cur (g.spReg f.cur) r).mach E σ₀).stackPtr s =
      (g.mach E σ₀).stackPtr s -
        if s = f.cur then popped f.copy.isSome (if flag2 then 2 else 1) else 0 := by
    intro s
    have hmoves := pointer_popCode hrun₁ (hd.popping.shrinks hsp₁ (by rw [hcache₁])) flag2 r s
    have hstay : g₁.pointer E σ₀ s = g.pointer E σ₀ s := by
      rw [pointer, hmach₁]
      exact pointer_setMemBase _ s
    rw [hsp₁, hstay] at hmoves
    exact hmoves
  suffices hpopped : _ ∧ _ from ⟨hpopped.1, hpopped.2, by rw [hpops.value, hvalue, hdata, hbase]⟩
  apply hd.redraw h (View.below_pop flag2 f) _ (trace_of_emits hemits) _ (hg.emits hemits).tracks
    hemits.spReg
  · rw [popCode_cache, hcache₁]
  · intro s hs
    rw [valued, popCode_cache, hcache₁, valued]
  · rw [valued, popCode_cache, hcache₁, hnil]
    rfl
  · rw [valued, popCode_cache, hcache₁, hnil]
    intro e he
    cases he
  · have hnil' : (g₁.popCode flag2 f.cur (g.spReg f.cur) r).valued cells f.cur = [] :=
      valued_of_nil (by rw [popCode_cache, hcache₁, hnil]) cells
    have hlower : (g.mach E σ₀).stackPtr f.cur -
        popped f.copy.isSome (if flag2 then 2 else 1) =
          View.lower f.copy.isSome (View.bytes flag2) ((g.mach E σ₀).stackPtr f.cur) := by
      unfold View.lower popped View.bytes
      cases f.copy.isSome <;> cases flag2 <;> simp
    have hbase' : (g₁.popCode flag2 f.cur (g.spReg f.cur) r).basePtr E σ₀ f.cur =
        g.basePtr E σ₀ f.cur - View.bytes flag2 := by
      rw [basePtr, hemits.spReg, hpops.ptr, hbase]
      rfl
    rw [hnil', hpointer, if_pos rfl, hlower, hbase']
    exact hview'
  · rw [hpops.mem, hmach₁, setMemBase_mem]
  · intro s hs
    rw [hpointer, if_neg hs, sub_zero]

/-! ### Pops from a cache -/

theorem valued_dropLast {top : Cell} (hholds : Holds E σ₀ cells ops g)
    (htop : (g.cache s).getLast? = some top) :
    g.valued cells s = (g.setCache s (g.cache s).dropLast).valued
      (Function.update cells s (cells s).dropLast) s ++
        [(top, (g.mach E σ₀).regs (.op top.value.reg))] := by
  obtain ⟨ws, hws, -, hvalued⟩ := hholds.valued_concat htop
  rw [hvalued]
  congr 1
  rw [valued, setCache_cache_self, Function.update_self, hws, List.dropLast_concat]

theorem valued_update_of_ne {s' : Stk} (hs : s' ≠ s) (ws : List Word) (hcache : g'.cache s' = g.cache s') :
    g'.valued (Function.update cells s ws) s' = g.valued cells s' := by
  rw [valued, hcache, Function.update_of_ne hs, valued]

/-- What is left once a byte or a short was dropped. -/
structure Drops (E : Env) (σ₀ : Mach) (W : World) (cells : Stk → List Word) (g : Gen) (f : Uxn.Frame)
    (flag2 : Bool) : Prop where
  mirrors : Mirrors E σ₀ W cells g ((Uxn.pop flag2).run Uxn.perform f).2.toUxn
  draws : Draws E σ₀ cells g ((Uxn.pop flag2).run Uxn.perform f).2

/-- **The last cell is dropped.** -/
theorem Draws.dropsLast (hd : Draws E σ₀ cells g f) (h : Mirrors E σ₀ W cells g f.toUxn)
    (hholds : Holds E σ₀ cells ops g) {top : Cell} (htop : (g.cache f.cur).getLast? = some top) :
    Drops E σ₀ W (Function.update cells f.cur (cells f.cur).dropLast)
      (g.setCache f.cur (g.cache f.cur).dropLast) f top.value.isShort := by
  have hvalued := valued_dropLast hholds htop
  have hview := hd.view h hholds
  rw [hvalued, cachedBytes_append, cachedBytes_singleton] at hview
  suffices hboth : _ ∧ _ from ⟨hboth.1, hboth.2⟩
  apply hd.redraw h (View.below_pop top.value.isShort f)
  · rfl
  · rfl
  · exact fun s _ => rfl
  · exact ⟨h.tracks.vm, h.tracks.base⟩
  · rfl
  · rw [setCache_cache_self]
    exact .single (.dropLast _)
  · exact fun s hs => valued_update_of_ne hs _ (setCache_cache_of_ne _ _ _ hs)
  · exact (hholds.dropLast (s := f.cur)).valued_fst f.cur
  · intro e he
    apply h.fits f.cur e
    rw [hvalued]
    exact List.mem_append_left _ he
  · exact View.pops hview

/-- **The last cell is popped.** -/
theorem Draws.dropLast (hd : Draws E σ₀ cells g f) (h : Mirrors E σ₀ W cells g f.toUxn)
    (hholds : Holds E σ₀ cells ops g) {top : Cell} (htop : (g.cache f.cur).getLast? = some top)
    (hlive : (Uxn.pop top.value.isShort).Along Uxn.perform Uxn.Live f) :
    Yields E σ₀ W (Function.update cells f.cur (cells f.cur).dropLast)
      (g.setCache f.cur (g.cache f.cur).dropLast) f top.value.isShort top.value.reg := by
  obtain ⟨hmirrors, hdraws⟩ := hd.dropsLast h hholds htop
  have hvalued := valued_dropLast hholds htop
  have hfit : Fits top.value.isShort ((g.mach E σ₀).regs (.op top.value.reg)) := by
    refine h.fits f.cur (top, _) ?_
    rw [hvalued]
    exact List.mem_append_right _ List.mem_cons_self
  have hview := hd.view h hholds
  rw [hvalued, cachedBytes_append, cachedBytes_singleton] at hview
  exact ⟨hmirrors, hdraws, (View.pop hview hfit hlive).symm⟩

theorem modify_last {cs : List Cell} {top : Cell} (htop : cs.getLast? = some top) :
    cs.modify (cs.length - 1) Cell.halve = cs.dropLast ++ [top.halve] := by
  have hsplit := List.dropLast_append_getLast? top htop
  generalize cs.dropLast = ds at hsplit
  subst hsplit
  rw [List.modify_eq_take_cons_drop (by simp)]
  simp

/-- The entries once the last cell has lost its low byte. -/
theorem valued_halve {top : Cell} (hholds : Holds E σ₀ cells ops g)
    (htop : (g.cache s).getLast? = some top)
    (hcache : g'.cache s = (g.cache s).modify ((g.cache s).length - 1) Cell.halve) :
    g'.valued (Function.update cells s ((cells s).modifyLast (· >>> 8))) s =
      (g.setCache s (g.cache s).dropLast).valued
        (Function.update cells s (cells s).dropLast) s ++
          [(top.halve, (g.mach E σ₀).regs (.op top.value.reg) >>> 8)] := by
  obtain ⟨ws, hws, hlen, -⟩ := hholds.valued_concat htop
  rw [valued, hcache, modify_last htop, Function.update_self, hws, List.modifyLast_concat,
    List.zip_append hlen, valued, setCache_cache_self, Function.update_self, List.dropLast_concat]
  rfl

theorem cachedBytes_short {top : Cell} (hshort : top.value.isShort = true) (w : Word) :
    Valued.bytes (top, w) = Valued.bytes (top.halve, w >>> 8) ++ [w.setWidth 8] := by
  simp [Valued.bytes, wordBytes, hshort]

theorem halve_fst {top : Cell} (hholds : Holds E σ₀ cells ops g)
    (htop : (g.cache s).getLast? = some top)
    (hcache : g'.cache s = (g.cache s).modify ((g.cache s).length - 1) Cell.halve) :
    (g'.valued (Function.update cells s ((cells s).modifyLast (· >>> 8))) s).map Prod.fst =
      g'.cache s := by
  obtain ⟨ws, hws, hlen, -⟩ := hholds.valued_concat htop
  have hlen' := hholds.length s
  rw [valued, hcache, Function.update_self]
  apply List.map_fst_zip
  rw [hws, List.modifyLast_concat, List.length_modify, hlen', hws]
  simp

/-- A short is the value of the last cell, and what is left of it fits a byte. -/
theorem Mirrors.halve_fit {u : Uxn} (h : Mirrors E σ₀ W cells g u) {top : Cell}
    (hholds : Holds E σ₀ cells ops g) (htop : (g.cache s).getLast? = some top)
    (hshort : top.value.isShort = true)
    (hcache : g'.cache s = (g.cache s).modify ((g.cache s).length - 1) Cell.halve) :
    ∀ e ∈ g'.valued (Function.update cells s ((cells s).modifyLast (· >>> 8))) s, e.Fit := by
  have hvalued := valued_dropLast hholds htop
  have hfit : Fits true ((g.mach E σ₀).regs (.op top.value.reg)) := by
    have hlast := h.fits s (top, (g.mach E σ₀).regs (.op top.value.reg))
    rw [hvalued, Valued.Fit, hshort] at hlast
    exact hlast (List.mem_append_right _ List.mem_cons_self)
  intro e he
  rw [valued_halve hholds htop hcache] at he
  obtain he | he := List.mem_append.mp he
  · apply h.fits s e
    rw [hvalued]
    exact List.mem_append_left _ he
  · obtain rfl := List.mem_singleton.mp he
    exact hfit.high

/-- **The low byte of the last cell is popped**, in a register that is free. -/
theorem Draws.splitCell (hd : Draws E σ₀ cells g f) (h : Mirrors E σ₀ W cells g f.toUxn)
    (hholds : Holds E σ₀ cells ops g) (hacc : Accounts held g) (hptr : PointersApart held ops g)
    {top : Cell} (htop : (g.cache f.cur).getLast? = some top)
    (hshort : top.value.isShort = true) {r : OpReg} (hr : g.refCounts r = 0)
    (hcache : g'.cache =
      Function.update g.cache f.cur ((g.cache f.cur).modify ((g.cache f.cur).length - 1) Cell.halve))
    (hcode : g'.code = ((g.emit (.op1 .movU8 (.op r) (.reg (.op top.value.reg)))).emit
      (.op2 .lshr (.op top.value.reg) (.op top.value.reg) (.imm 8))).code)
    (hbase : g'.memBase = g.memBase) (hsp : g'.spReg = g.spReg)
    (hlive : (Uxn.pop false).Along Uxn.perform Uxn.Live f) :
    Yields E σ₀ W (Function.update cells f.cur ((cells f.cur).modifyLast (· >>> 8))) g' f false r := by
  have hself : g'.cache f.cur =
      (g.cache f.cur).modify ((g.cache f.cur).length - 1) Cell.halve := by
    rw [hcache, Function.update_self]
  have hvalued := valued_dropLast hholds htop
  have hhalved := valued_halve hholds htop hself
  obtain ⟨-, hcells⟩ := hacc.free hr
  have hmem : top.value.reg ∈ cellRegs (g.cache f.cur) :=
    List.mem_map_of_mem (List.mem_of_getLast? htop)
  have hne : top.value.reg ≠ r := by
    rintro rfl
    exact hcells f.cur hmem
  generalize hw : (g.mach E σ₀).regs (.op top.value.reg) = w at hvalued hhalved
  have hmach : g'.mach E σ₀ = ((g.mach E σ₀).set (.op r) ((w.setWidth 8 : Byte).setWidth 64)).set
      (.op top.value.reg) (w >>> 8) := by
    rw [mach_of_code hcode, mach_emit, mach_emit, Mach.step_running hholds.running]
    have hrun := hholds.running
    simp [Mach.step, hrun, Instr.exec, Mach.set, Mach.src, Op1.eval, Op2.eval, hw, hne]
  have hspReg : (g'.mach E σ₀).regs (g.spReg f.cur) = (g.mach E σ₀).regs (g.spReg f.cur) := by
    have hnot : g.spReg f.cur ≠ .op top.value.reg := by
      intro he
      exact (hptr _ _ he).cells _ hmem
    have hfree := hd.spReg_ne hacc hptr hr
    rw [hmach]
    simp [Mach.set, hnot, hfree]
  have hview := hd.view h hholds
  rw [hvalued, cachedBytes_append, cachedBytes_singleton, cachedBytes_short hshort,
    ← List.append_assoc, ← cachedBytes_singleton (top.halve, w >>> 8), ← cachedBytes_append,
    ← hhalved] at hview
  have hbyte : [w.setWidth 8] = wordBytes false ((w.setWidth 8 : Byte).setWidth 64) := by
    simp [wordBytes]
  have hsmall : Fits false ((w.setWidth 8 : Byte).setWidth 64) := by
    simp only [Fits, Bool.false_eq_true, if_false, BitVec.toNat_setWidth]
    omega
  rw [hbyte] at hview
  have hview' := View.pops hview
  have hvalue := View.pop hview hsmall hlive
  have hstack : ∀ s, (g'.mach E σ₀).stackPtr s = (g.mach E σ₀).stackPtr s := by
    intro s
    rw [hmach]
    simp [Mach.set, Mach.stackPtr]
  suffices hboth : _ ∧ _ by
    refine ⟨hboth.1, hboth.2, ?_⟩
    rw [hvalue, hmach]
    simp [Mach.set, hne.symm]
  apply hd.redraw h (View.below_pop false f)
  · rw [hmach]
    rfl
  · rw [hmach]
    rfl
  · exact fun s _ => hstack s
  · refine ⟨?_, fun r hr => ?_⟩
    · rw [hmach]
      exact h.tracks.vm
    · rw [hmach]
      exact h.tracks.base r (hbase ▸ hr)
  · exact hsp
  · rw [hself]
    exact .single (.halve _ _)
  · exact fun s hs => valued_update_of_ne hs _ (by rw [hcache, Function.update_of_ne hs])
  · exact halve_fst hholds htop hself
  · exact h.halve_fit hholds htop hshort hself
  · rw [hstack, basePtr, hsp, hspReg]
    exact hview'

theorem findFreeReg_of_zero {r : OpReg} (hr : g.refCounts r = 0) : ∃ r', g.findFreeReg = some r' := by
  apply Option.isSome_iff_exists.mp
  rw [findFreeReg, List.find?_isSome]
  exact ⟨r, List.mem_finRange r, by simpa using hr⟩

/-- With empty caches a register is free. -/
theorem Accounts.free_of_uncached (hacc : Accounts held g) (hheld : held.length ≤ 5)
    (hnil : ∀ s, g.cache s = []) : ∃ r, g.findFreeReg = some r := by
  obtain ⟨g', r, hs, -, hr, -⟩ := hacc.allocReg_fresh hheld
  rcases Relation.ReflTransGen.cases_head hs with rfl | ⟨_, hstep, -⟩
  · exact findFreeReg_of_zero hr
  · obtain ⟨-, -, hc⟩ := hstep
    rw [hnil] at hc
    cases hc

theorem spilled_of_length (hlen : ∀ s, (g.cache s).length = (cells s).length) :
    g.spilled cells = cells := by
  funext s
  rw [spilled, hlen, List.rtake, Nat.sub_self, List.drop_zero]

/-- A pop that splits a cell finds a register for its low byte, or at least, outside of keep mode,
makes the cache empty in search of one. -/
def Splits (keep : Bool) (s : Stk) (g : Gen) : Prop :=
  ∀ top ∈ (g.cache s).getLast?, top.value.isShort = true →
    g.findFreeReg ≠ none ∨ (keep = false ∧ g.allocReg.2.cache s = [])

/-- A pop that reads memory leaves the base alone: it need not spill from the other cache. -/
def Reaches (s : Stk) (g : Gen) : Prop :=
  g.cache s = [] → g.findFreeReg ≠ none ∨ g.cache s.other = []

theorem Reaches.free (h : g.Reaches s) (hacc : Accounts held g) (hheld : held.length ≤ 5)
    (hnil : g.cache s = []) : ∃ r, g.findFreeReg = some r := by
  obtain hfree | hother := h hnil
  · exact Option.ne_none_iff_exists'.mp hfree
  · apply hacc.free_of_uncached hheld
    intro s'
    rcases Stk.eq_or_eq_other s s' with rfl | rfl
    exacts [hnil, hother]

/-- **A byte is popped.** -/
theorem Draws.stackCachePopByte (hd : Draws E σ₀ cells g f) (h : Mirrors E σ₀ W cells g f.toUxn)
    (hholds : Holds E σ₀ cells ops g) (hacc : Accounts held g) (hheld : held.length ≤ 5)
    (hptr : PointersApart held ops g) (hspRegs : g.SpRegs)
    (hsplits : g.Splits f.copy.isSome f.cur) (hreaches : g.Reaches f.cur)
    (hlive : (Uxn.pop false).Along Uxn.perform Uxn.Live f) :
    Yields E σ₀ W ((g.stackCachePopByte f.cur).2.spilled (Function.update cells f.cur
      (Given.popByte (g.cache f.cur) (cells f.cur)))) (g.stackCachePopByte f.cur).2 f false
        (g.stackCachePopByte f.cur).1 := by
  unfold Gen.stackCachePopByte Given.popByte
  cases htop : (g.cache f.cur).getLast? with
  | none =>
    simp only
    have hnil : g.cache f.cur = [] := List.getLast?_eq_none_iff.mp htop
    obtain ⟨r, hfree⟩ := hreaches.free hacc hheld hnil
    have hpop := hd.popFromMem h hholds hacc hptr hspRegs hnil hfree false hlive
    have hcache : (g.popFromMem false f.cur).2.cache = g.cache := by
      rw [popFromMem_of_free hfree, popCode_cache]
      simp
    rwa [Function.update_eq_self, spilled_of_length fun s => by rw [hcache, hholds.length s]]
  | some top =>
    simp only
    split
    next hshort =>
      by_cases hfree : g.findFreeReg = none
      · -- all cells of the cache are spilled, and the byte is read from memory
        obtain ⟨hkeep, hnil⟩ := (hsplits top htop hshort).resolve_left (not_not.mpr hfree)
        rw [if_pos hnil]
        obtain ⟨g', r, hs, hacc', hr, halloc⟩ := hacc.allocReg_fresh hheld
        have hmirrors := h.allocReg hholds
        have hholds' := hholds.allocReg
        have hrel : (g.allocReg.2.releaseReg g.allocReg.1).findFreeReg ≠ none := by
          have hzero : (g.allocReg.2.releaseReg g.allocReg.1).refCounts r = 0 := by
            rw [halloc]
            simp [hr]
          obtain ⟨r', hr'⟩ := findFreeReg_of_zero hzero
          simp [hr']
        obtain ⟨r', hr'⟩ := Option.ne_none_iff_exists'.mp hrel
        have hspReg := (aside_allocReg g).spReg
        have hdraws : Draws E σ₀ (g.allocReg.2.spilled cells)
            (g.allocReg.2.releaseReg g.allocReg.1) f := by
          cases hd with
          | move hcopy hsp hcells =>
            exact .move hcopy (hspReg.trans hsp) (hcells.shrinks (g.shrinks_allocReg f.cur))
          | keep q hcopy hsp hcells hahead =>
            rw [hcopy] at hkeep
            cases hkeep
        have hptr' : PointersApart held ops (g.allocReg.2.releaseReg g.allocReg.1) := by
          intro s' q hq
          rw [releaseReg_spReg, hspReg] at hq
          obtain ⟨hmem, hcells, hothers⟩ := hptr s' q hq
          exact ⟨hmem, fun s'' hin => hcells s'' (Shrinks.regs (g.shrinks_allocReg s'') hin), hothers⟩
        have hspRegs' : (g.allocReg.2.releaseReg g.allocReg.1).SpRegs := by
          intro s'
          rw [releaseReg_spReg, hspReg]
          exact hspRegs s'
        have hpop := hdraws.popFromMem (hmirrors.of_sameCode ⟨rfl, rfl, rfl, rfl, rfl⟩ fun _ => rfl)
          (hholds'.releaseReg g.allocReg.1) (hacc.allocReg hheld).releaseReg hptr' hspRegs' hnil hr'
          false hlive
        have hcache : ((g.allocReg.2.releaseReg g.allocReg.1).popFromMem false f.cur).2.cache =
            g.allocReg.2.cache := by
          rw [popFromMem_of_free hr', popCode_cache]
          simp
        have hspilled : ((g.allocReg.2.releaseReg g.allocReg.1).popFromMem false f.cur).2.spilled
            (Function.update cells f.cur ((cells f.cur).modifyLast (· >>> 8))) =
              g.allocReg.2.spilled cells := by
          rw [spilled_update_nil (by rw [hcache, hnil])]
          funext s'
          rw [spilled, spilled, hcache]
        rwa [hspilled]
      · obtain ⟨r, hr⟩ := Option.ne_none_iff_exists'.mp hfree
        have halloc := allocReg_of_free g hr
        have hne : (g.retainReg r).cache f.cur ≠ [] := by
          rw [retainReg_cache]
          rintro hnil
          rw [hnil] at htop
          cases htop
        rw [halloc, if_neg hne]
        rw [spilled_of_length]
        · apply hd.splitCell h hholds hacc hptr htop hshort (refCounts_of_free hr)
          all_goals first
            | rfl
            | exact hlive
        · intro s
          by_cases hs : s = f.cur
          · subst hs
            obtain ⟨ws, hws, hlen, -⟩ := hholds.valued_concat htop
            have hlen' := hholds.length f.cur
            simp only [setCache_cache_self, Function.update_self]
            rw [hws, List.modifyLast_concat]
            simp only [emit_cache, retainReg_cache, List.length_modify, hlen', hws, List.length_append,
              List.length_singleton]
          · simp [hs, hholds.length s]
    next hbyte =>
      have hdrop := hd.dropLast h hholds htop
      rw [Bool.eq_false_iff.mpr hbyte] at hdrop
      rw [(hholds.dropLast (s := f.cur)).spilled_self]
      exact hdrop hlive

/-- A byte pop that finds what it needs. -/
def PopsByteWell (keep : Bool) (s : Stk) (g : Gen) : Prop := g.Splits keep s ∧ g.Reaches s

/-- A pop that finds what it needs: so it does itself, or for the high byte of a short that it joins
from bytes. -/
def PopsWell (keep flag2 : Bool) (s : Stk) (g : Gen) : Prop :=
  if flag2 then
    g.Reaches s ∧ ∀ top ∈ (g.cache s).getLast?, top.value.isShort = false →
      (g.setCache s (g.cache s).dropLast).PopsByteWell keep s
  else g.PopsByteWell keep s

section

variable (keep flag2 : Bool) (s : Stk) (g : Gen)

instance : Decidable (g.Splits keep s) :=
  inferInstanceAs (Decidable (∀ top ∈ (g.cache s).getLast?, _ → _))

instance : Decidable (g.Reaches s) := inferInstanceAs (Decidable (_ → _))

instance : Decidable (g.PopsByteWell keep s) := inferInstanceAs (Decidable (_ ∧ _))

instance : Decidable (g.PopsWell keep flag2 s) :=
  inferInstanceAs (Decidable (if flag2 then g.Reaches s ∧ ∀ top ∈ (g.cache s).getLast?,
    top.value.isShort = false → (g.setCache s (g.cache s).dropLast).PopsByteWell keep s
    else g.PopsByteWell keep s))

end

theorem valued_congr (hcache : g'.cache = g.cache) : g'.valued cells s = g.valued cells s := by
  rw [valued, hcache, valued]

/-- Code that leaves the pointer of the pops alone. -/
theorem Draws.still (hd : Draws E σ₀ cells g f) (hsp : g'.spReg = g.spReg)
    (hcache : g'.cache = g.cache)
    (hregs : ∀ r, g.spReg f.cur = .op r → (g'.mach E σ₀).regs (.op r) = (g.mach E σ₀).regs (.op r)) :
    Draws E σ₀ cells g' f := by
  cases hd with
  | move hcopy hsp' hcells => exact .move hcopy (hsp.trans hsp') (by rwa [hcache])
  | keep r hcopy hsp' hcells hahead =>
    refine .keep r hcopy (by rw [hsp, hsp']) (by rwa [hcache]) ?_
    rw [hregs r hsp', valued_congr hcache]
    exact hahead

/-- Two bytes that were popped are joined to a short. -/
theorem mach_join (hi lo : OpReg) (hrun : (g.mach E σ₀).status = .running) (hne : hi ≠ lo) :
    ((((g.emit (.op2 .shl (.op hi) (.op hi) (.imm 8))).emit
      (.op2 .or (.op hi) (.op hi) (.reg (.op lo)))).releaseReg lo).mach E σ₀).regs (.op hi) =
        (g.mach E σ₀).regs (.op hi) <<< 8 ||| (g.mach E σ₀).regs (.op lo) := by
  rw [mach_releaseReg, mach_emit, mach_emit, Mach.step_running hrun]
  simp [Mach.step, hrun, Instr.exec, Mach.set, Mach.src, Op2.eval, hne.symm]

theorem still_join (hi lo : OpReg) : Emits Still g
    (((g.emit (.op2 .shl (.op hi) (.op hi) (.imm 8))).emit
      (.op2 .or (.op hi) (.op hi) (.reg (.op lo)))).releaseReg lo) := by
  have h₀ : Emits Still g g := .refl
  refine ((h₀.emit ?_).emit ?_).releaseReg lo <;>
    exact ⟨⟨rfl, by simp, by simp⟩, by simp, by simp, by simp⟩

/-- An operand is followed. -/
theorem Holds.follow (h : Holds E σ₀ cells ops g) (r : OpReg) :
    Holds E σ₀ cells ((r, (g.mach E σ₀).regs (.op r)) :: ops) g := by
  refine ⟨h.running, h.cells, fun p hp => ?_⟩
  obtain rfl | hp := List.mem_cons.mp hp
  · rfl
  · exact h.operands p hp

/-- **The high byte of a short is popped**, whose low byte is in `lo`. -/
theorem Draws.popHigh (hd : Draws E σ₀ cells g f) (h : Mirrors E σ₀ W cells g f.toUxn)
    (hholds : Holds E σ₀ cells ops g) {lo : OpReg} (hacc : Accounts (lo :: held) g)
    (hheld : (lo :: held).length ≤ 5) (hops : ∀ p ∈ ops, p.1 ∈ lo :: held)
    (hptr : PointersApart (lo :: held) ops g) (hspRegs : g.SpRegs)
    (hapart : ∀ s, g.spReg s ≠ .op lo) (hsole : g.SplitsSole f.cur)
    (hwell : g.PopsByteWell f.copy.isSome f.cur)
    (hone : (g.stackCachePopByte f.cur).2.refCounts (g.stackCachePopByte f.cur).1 = 1) {b : Byte}
    (hlo : (g.mach E σ₀).regs (.op lo) = b.setWidth 64)
    (hlive : (Uxn.pop false).Along Uxn.perform Uxn.Live f) :
    let hi := (g.stackCachePopByte f.cur).1
    let g' := (((g.stackCachePopByte f.cur).2.emit (.op2 .shl (.op hi) (.op hi) (.imm 8))).emit
      (.op2 .or (.op hi) (.op hi) (.reg (.op lo)))).releaseReg lo
    let cells' := g'.spilled
      (Function.update cells f.cur (Given.popByte (g.cache f.cur) (cells f.cur)))
    Mirrors E σ₀ W cells' g' f.drop.toUxn ∧ Draws E σ₀ cells' g' f.drop ∧
      (g'.mach E σ₀).regs (.op hi) =
        ((f.stack f.cur).data (f.pointer - 1) ++ b : Short).setWidth 64 := by
  intro hi g' cells'
  have hholds' := hholds.follow lo
  have hops' : ∀ p ∈ (lo, (g.mach E σ₀).regs (.op lo)) :: ops, p.1 ∈ lo :: held := by
    intro p hp
    obtain rfl | hp := List.mem_cons.mp hp
    · exact List.mem_cons_self
    · exact hops p hp
  have hptr' : PointersApart (lo :: held) ((lo, (g.mach E σ₀).regs (.op lo)) :: ops) g := by
    intro s q hq
    obtain ⟨hmem, hcells, hothers⟩ := hptr s q hq
    refine ⟨hmem, hcells, fun p hp => ?_⟩
    obtain rfl | hp := List.mem_cons.mp hp
    · rintro rfl
      exact hapart s hq
    · exact hothers p hp
  obtain ⟨hmirrors, hdraws, hvalue⟩ := hd.stackCachePopByte h hholds' hacc hheld hptr' hspRegs
    hwell.1 hwell.2 hlive
  have hafter := hholds'.stackCachePopByte hacc hheld hops' hptr' hsole
  have hlo' := hafter.operands _ List.mem_cons_self
  obtain ⟨hcount, -⟩ := (hacc.stackCachePopByte hheld f.cur).alone hone List.mem_cons_self
  have hnot : hi ∉ lo :: held := by
    rw [List.count_cons_self] at hcount
    exact List.count_eq_zero.mp (Nat.succ_injective hcount)
  have hspReg : (g.stackCachePopByte f.cur).2.spReg = g.spReg :=
    (g.emits_stackCachePopByte f.cur hspRegs).spReg
  refine ⟨hmirrors.still hafter.running (still_join hi lo) rfl, hdraws.still rfl rfl ?_, ?_⟩
  · intro q hq
    rw [hspReg] at hq
    have hne : q ≠ hi := by
      rintro rfl
      exact hnot (hptr _ _ hq).held
    exact ((touches_join _ hi lo).touches E σ₀).2 q hne
  · rw [mach_join hi lo hafter.running fun he => hnot (he ▸ List.mem_cons_self), hvalue, hlo', hlo,
      View.run_pop_false, ← Layout.setWidth_byte, word_join]

/-- **A byte or a short is popped.** -/
theorem Draws.stackCachePop (hd : Draws E σ₀ cells g f) (h : Mirrors E σ₀ W cells g f.toUxn)
    (hholds : Holds E σ₀ cells ops g) (hacc : Accounts held g) {flag2 : Bool}
    (hheld : held.length + (if flag2 then 1 else 0) ≤ 5) (hops : ∀ p ∈ ops, p.1 ∈ held)
    (hptr : PointersApart held ops g) (hspRegs : g.SpRegs) (hsole : g.PopsSole flag2 f.cur)
    (hwell : g.PopsWell f.copy.isSome flag2 f.cur)
    (hlive : (Uxn.pop flag2).Along Uxn.perform Uxn.Live f) :
    Yields E σ₀ W ((g.stackCachePop flag2 f.cur).2.spilled (Function.update cells f.cur
      (Given.pop flag2 (g.cache f.cur) (cells f.cur)))) (g.stackCachePop flag2 f.cur).2 f flag2
        (g.stackCachePop flag2 f.cur).1 := by
  unfold Gen.stackCachePop Given.pop
  unfold PopsSole at hsole
  unfold PopsWell at hwell
  cases flag2 with
  | false =>
    exact hd.stackCachePopByte h hholds hacc hheld hptr hspRegs hwell.1 hwell.2 hlive
  | true =>
    simp only [if_true] at hheld hsole hwell ⊢
    obtain ⟨hreaches, hbelow⟩ := hwell
    cases htop : (g.cache f.cur).getLast? with
    | none =>
      simp only
      have hnil : g.cache f.cur = [] := List.getLast?_eq_none_iff.mp htop
      obtain ⟨r, hfree⟩ := hreaches.free hacc (Nat.le_of_succ_le hheld) hnil
      have hpop := hd.popFromMem h hholds hacc hptr hspRegs hnil hfree true hlive
      have hcache : (g.popFromMem true f.cur).2.cache = g.cache := by
        rw [popFromMem_of_free hfree, popCode_cache]
        simp
      rwa [Function.update_eq_self, spilled_of_length fun s => by rw [hcache, hholds.length s]]
    | some top =>
      rw [htop] at hsole
      have hdrop := hd.dropLast h hholds htop
      have hholds₁ := hholds.dropLast (s := f.cur)
      simp only at hsole ⊢
      split
      next hshort =>
        rw [hshort] at hdrop
        rw [hholds₁.spilled_self]
        exact hdrop hlive
      next hbyte =>
        have hbyte' := Bool.eq_false_iff.mpr hbyte
        rw [hbyte'] at hdrop
        obtain ⟨hsplit, hone⟩ := hsole hbyte'
        obtain ⟨hmirrors, hdraws, hlow⟩ := hdrop ⟨hlive.1, trivial⟩
        change Mirrors E σ₀ W _ _ f.drop.toUxn at hmirrors
        change Draws E σ₀ _ _ f.drop at hdraws
        have hmem : top.value.reg ∈ cellRegs (g.cache f.cur) :=
          List.mem_map_of_mem (List.mem_of_getLast? htop)
        have hapart : ∀ s, g.spReg s ≠ .op top.value.reg := fun s hs => (hptr s _ hs).cells _ hmem
        have hf : Below f f.drop := Below.refl.drop
        have hlow' : ((g.setCache f.cur (g.cache f.cur).dropLast).mach E σ₀).regs
            (.op top.value.reg) = ((f.stack f.cur).data (f.pointer - 1)).setWidth 64 := by
          rw [hlow, View.run_pop_false, ← Layout.setWidth_byte]
        have hhigh := hdraws.popHigh hmirrors hholds₁ (hacc.dropLast htop) hheld
          (fun p hp => List.mem_cons_of_mem _ (hops p hp))
          (hptr.dropLast top) hspRegs hapart (by rw [hf.cur]; exact hsplit)
          (by rw [hf.copy, hf.cur]; exact hbelow top htop hbyte') (by rw [hf.cur]; exact hone) hlow'
          ⟨hlive.2.1, trivial⟩
        rw [hf.cur, setCache_cache_self, Function.update_self, Function.update_idem] at hhigh
        refine ⟨hhigh.1, hhigh.2.1, ?_⟩
        rw [View.run_pop_true, hf.cur]
        exact hhigh.2.2

/-! ### Discards -/

/-- **A value is discarded from memory.** -/
theorem Draws.discardFromMem (hd : Draws E σ₀ cells g f) (hcopy : f.copy = none)
    (h : Mirrors E σ₀ W cells g f.toUxn) (hholds : Holds E σ₀ cells ops g) (hnil : g.cache f.cur = [])
    (flag2 : Bool) : Drops E σ₀ W cells (g.discardFromMem flag2 f.cur) f flag2 := by
  have hsp : g.spReg = .sp := by
    cases hd with
    | move hcopy hsp hcells => exact hsp
    | keep r hcopy' => simp [hcopy] at hcopy'
  have hview := hd.view h hholds
  rw [valued_of_nil hnil] at hview
  have hmach : (g.discardFromMem flag2 f.cur).mach E σ₀ = (g.mach E σ₀).set (.sp f.cur)
      ((g.mach E σ₀).regs (.sp f.cur) - if flag2 then 2 else 1) := by
    rw [Gen.discardFromMem, hsp, mach_emit, Mach.step_running hholds.running]
    rfl
  have hpointer : ((g.discardFromMem flag2 f.cur).mach E σ₀).stackPtr f.cur =
      (g.mach E σ₀).stackPtr f.cur - View.bytes flag2 := by
    have hsub := pointer_sub hholds.running f.cur (if flag2 then 2 else 1)
    rw [Gen.discardFromMem, hsp]
    refine hsub.trans ?_
    cases flag2 <;> rfl
  suffices hboth : _ ∧ _ from ⟨hboth.1, hboth.2⟩
  apply hd.redraw h (View.below_pop flag2 f)
  · rw [hmach]
    rfl
  · rw [hmach]
    rfl
  · intro s hs
    rw [hmach]
    simp [Mach.stackPtr, Mach.set, hs]
  · rw [hmach]
    exact ⟨h.tracks.vm, h.tracks.base⟩
  · rfl
  · exact .refl
  · exact fun s hs => rfl
  · exact hholds.valued_fst f.cur
  · exact h.fits f.cur
  · have hdropped := View.popsWritten hview flag2
    have hbase : (g.discardFromMem flag2 f.cur).basePtr E σ₀ f.cur =
        g.basePtr E σ₀ f.cur - View.bytes flag2 := by
      have hreg : (g.discardFromMem flag2 f.cur).spReg f.cur = .sp f.cur := by
        rw [← hsp]
        rfl
      rw [basePtr, hreg, basePtr, hsp]
      exact hpointer
    have hnil' : (g.discardFromMem flag2 f.cur).valued cells f.cur = [] := valued_of_nil hnil cells
    rw [hnil', hpointer, hbase]
    rwa [hcopy] at hdropped

/-- **The low byte of the last cell is discarded.** -/
theorem Draws.shorten (hd : Draws E σ₀ cells g f) (hcopy : f.copy = none)
    (h : Mirrors E σ₀ W cells g f.toUxn) (hholds : Holds E σ₀ cells ops g) {top : Cell}
    (htop : (g.cache f.cur).getLast? = some top) (hshort : top.value.isShort = true) :
    Drops E σ₀ W (Function.update cells f.cur ((cells f.cur).modifyLast (· >>> 8)))
      ((g.emit (.op2 .lshr (.op top.value.reg) (.op top.value.reg) (.imm 8))).setCache f.cur
        ((g.cache f.cur).modify ((g.cache f.cur).length - 1) Cell.halve)) f false := by
  have hsp : g.spReg = .sp := by
    cases hd with
    | move hcopy hsp hcells => exact hsp
    | keep r hcopy' => simp [hcopy] at hcopy'
  generalize hg' : (g.emit (.op2 .lshr (.op top.value.reg) (.op top.value.reg) (.imm 8))).setCache
    f.cur ((g.cache f.cur).modify ((g.cache f.cur).length - 1) Cell.halve) = g'
  have hself : g'.cache f.cur = (g.cache f.cur).modify ((g.cache f.cur).length - 1) Cell.halve := by
    rw [← hg', setCache_cache_self]
  have hsp' : g'.spReg = g.spReg := by rw [← hg']; rfl
  have hmach : g'.mach E σ₀ = (g.mach E σ₀).set (.op top.value.reg)
      ((g.mach E σ₀).regs (.op top.value.reg) >>> 8) := by
    rw [← hg', mach_setCache, mach_emit, Mach.step_running hholds.running]
    rfl
  have hregs : ∀ s, (g'.mach E σ₀).regs (.sp s) = (g.mach E σ₀).regs (.sp s) := by
    intro s
    rw [hmach]
    simp [Mach.set]
  have hview := hd.view h hholds
  rw [valued_dropLast hholds htop, cachedBytes_append, cachedBytes_singleton,
    cachedBytes_short hshort, ← List.append_assoc, ← cachedBytes_singleton (top.halve, _),
    ← cachedBytes_append, ← valued_halve hholds htop hself] at hview
  suffices hboth : _ ∧ _ from ⟨hboth.1, hboth.2⟩
  apply hd.redraw h (View.below_pop false f)
  · rw [hmach]
    rfl
  · rw [hmach]
    rfl
  · exact fun s _ => congrArg (BitVec.setWidth 8) (hregs s)
  · rw [hmach]
    refine ⟨h.tracks.vm, fun r hr => h.tracks.base r ?_⟩
    rw [← hr, ← hg']
    rfl
  · exact hsp'
  · rw [hself]
    exact .single (.halve _ _)
  · intro s hs
    apply valued_update_of_ne hs
    rw [← hg', setCache_cache_of_ne _ _ _ hs]
    rfl
  · exact halve_fst hholds htop hself
  · exact h.halve_fit hholds htop hshort hself
  · have hptr : (g'.mach E σ₀).stackPtr f.cur = (g.mach E σ₀).stackPtr f.cur :=
      congrArg (BitVec.setWidth 8) (hregs f.cur)
    have hbase : g'.basePtr E σ₀ f.cur = g.basePtr E σ₀ f.cur := by
      rw [basePtr, hsp', basePtr, hsp, hregs]
    rw [hptr, hbase]
    exact hview.drop

theorem Drops.releaseReg (h : Drops E σ₀ W cells g f flag2) (r : OpReg) :
    Drops E σ₀ W cells (g.releaseReg r) f flag2 := by
  refine ⟨h.mirrors.of_sameCode ⟨rfl, rfl, rfl, rfl, rfl⟩ fun _ => rfl, ?_⟩
  exact h.draws.still rfl rfl fun _ _ => rfl

/-- **A byte is discarded.** -/
theorem Draws.stackCacheDiscardByte (hd : Draws E σ₀ cells g f) (hcopy : f.copy = none)
    (h : Mirrors E σ₀ W cells g f.toUxn) (hholds : Holds E σ₀ cells ops g) :
    Drops E σ₀ W (Function.update cells f.cur (Given.popByte (g.cache f.cur) (cells f.cur)))
      (g.stackCacheDiscardByte f.cur) f false := by
  unfold Gen.stackCacheDiscardByte Given.popByte
  cases htop : (g.cache f.cur).getLast? with
  | none =>
    simp only
    rw [Function.update_eq_self]
    exact hd.discardFromMem hcopy h hholds (List.getLast?_eq_none_iff.mp htop) false
  | some top =>
    simp only
    split
    next hshort => exact hd.shorten hcopy h hholds htop hshort
    next hbyte =>
      have hdrop := hd.dropsLast h hholds htop
      rw [Bool.eq_false_iff.mpr hbyte] at hdrop
      exact hdrop.releaseReg _

/-- **A byte or a short is discarded.** -/
theorem Draws.stackCacheDiscard (hd : Draws E σ₀ cells g f) (hcopy : f.copy = none)
    (h : Mirrors E σ₀ W cells g f.toUxn) (hholds : Holds E σ₀ cells ops g) (flag2 : Bool) :
    Drops E σ₀ W (Function.update cells f.cur (Given.pop flag2 (g.cache f.cur) (cells f.cur)))
      (g.stackCacheDiscard flag2 f.cur) f flag2 := by
  unfold Gen.stackCacheDiscard Given.pop
  cases flag2 with
  | false => exact hd.stackCacheDiscardByte hcopy h hholds
  | true =>
    simp only [if_true]
    cases htop : (g.cache f.cur).getLast? with
    | none =>
      simp only
      rw [Function.update_eq_self]
      exact hd.discardFromMem hcopy h hholds (List.getLast?_eq_none_iff.mp htop) true
    | some top =>
      have hdrop := (hd.dropsLast h hholds htop).releaseReg top.value.reg
      have hholds₁ := (hholds.dropLast (s := f.cur)).releaseReg top.value.reg
      simp only
      split
      next hshort =>
        rw [hshort] at hdrop
        exact hdrop
      next hbyte =>
        rw [Bool.eq_false_iff.mpr hbyte] at hdrop
        obtain ⟨hmirrors, hdraws⟩ := hdrop
        change Mirrors E σ₀ W _ _ f.drop.toUxn at hmirrors
        change Draws E σ₀ _ _ f.drop at hdraws
        have hf : Below f f.drop := Below.refl.drop
        have hcopy' : f.drop.copy = none := by simpa [hcopy] using hf.copy
        have hbelow := hdraws.stackCacheDiscardByte hcopy' hmirrors hholds₁
        rw [hf.cur, releaseReg_cache, setCache_cache_self, Function.update_self,
          Function.update_idem] at hbelow
        exact ⟨hbelow.mirrors, hbelow.draws⟩

end Gen

end BuxnJit
