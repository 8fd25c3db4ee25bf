import BuxnJit.Jit.InPlace
import BuxnJit.Jit.Synced

/-!
# The stacks that caches and memory stand for

`Mirrors` relates the generated code to the reference machine between two micro operations: the
memory is the same, and each stack consists of the bytes written so far and those of the cells that
are still to be written. Spills and allocations do not change it (`Mirrors.spills`), a store changes
the memory of the reference as well, and a push adds the bytes of its operand.
-/

namespace BuxnJit

open Foundations

/-! ## Bytes of cells -/

/-- A cell with the value that it was given. -/
abbrev Valued := Cell × Word

/-- The word is a byte or a short. -/
def Fits (isShort : Bool) (w : Word) : Prop := w.toNat < if isShort then 2 ^ 16 else 2 ^ 8

theorem Fits.byte {w : Word} (h : Fits false w) : w = (w.setWidth 8 : Byte).setWidth 64 := by
  apply BitVec.eq_of_toNat_eq
  simp only [Fits, Bool.false_eq_true, if_false] at h
  simp only [BitVec.toNat_setWidth]
  omega

theorem Fits.short {w : Word} (h : Fits true w) : w = (w.setWidth 16 : Short).setWidth 64 := by
  apply BitVec.eq_of_toNat_eq
  simp only [Fits, if_true] at h
  simp only [BitVec.toNat_setWidth]
  omega

theorem Fits.high {w : Word} (h : Fits true w) : Fits false (w >>> 8) := by
  simp only [Fits, if_true, Bool.false_eq_true, if_false] at h ⊢
  rw [BitVec.toNat_ushiftRight, Nat.shiftRight_eq_div_pow]
  omega

namespace Valued

def bytes (e : Valued) : List Byte := wordBytes e.1.value.isShort e.2

/-- The bytes that are still to be written. -/
def pending (e : Valued) : List Byte := if e.1.needFlush then e.bytes else []

def Fit (e : Valued) : Prop := Fits e.1.value.isShort e.2

end Valued

/-- The bytes of the cells, the deepest first. -/
def cachedBytes (es : List Valued) : List Byte := es.flatMap Valued.bytes

def pendingOf (es : List Valued) : List Byte := es.flatMap Valued.pending

@[simp] theorem cachedBytes_append (es fs : List Valued) :
    cachedBytes (es ++ fs) = cachedBytes es ++ cachedBytes fs := List.flatMap_append

@[simp] theorem pendingOf_append (es fs : List Valued) :
    pendingOf (es ++ fs) = pendingOf es ++ pendingOf fs := List.flatMap_append

theorem pendingOf_cons (e : Valued) (es : List Valued) :
    pendingOf (e :: es) = e.pending ++ pendingOf es := List.flatMap_cons

@[simp] theorem cachedBytes_singleton (e : Valued) : cachedBytes [e] = e.bytes := by
  simp [cachedBytes]

@[simp] theorem pendingOf_singleton (e : Valued) : pendingOf [e] = e.pending := by
  simp [pendingOf]

theorem pendingOf_unwritten {es : List Valued} (h : Unwritten (es.map Prod.fst)) :
    pendingOf es = cachedBytes es := by
  refine List.flatMap_congr fun e he => ?_
  have hflush := h e.1 (List.mem_map_of_mem he)
  simp [Valued.pending, hflush]

theorem pendingOf_written {es : List Valued} (h : Written (es.map Prod.fst)) : pendingOf es = [] := by
  refine List.flatMap_eq_nil_iff.mpr fun e he => ?_
  have hflush := h e.1 (List.mem_map_of_mem he)
  simp [Valued.pending, hflush]

namespace Gen

/-- The cells of a stack with the values that they were given. -/
def valued (g : Gen) (cells : Stk → List Word) (s : Stk) : List Valued := (g.cache s).zip (cells s)

variable {E : Env} {σ₀ : Mach} {g g' : Gen} {cells cells' : Stk → List Word}
  {ops : List (OpReg × Word)} {held : List OpReg} {s : Stk}

theorem Holds.length (h : Holds E σ₀ cells ops g) (s : Stk) :
    (g.cache s).length = (cells s).length := by
  rw [← h.cells s, cellValues_length]

theorem Holds.valued_fst (h : Holds E σ₀ cells ops g) (s : Stk) :
    (g.valued cells s).map Prod.fst = g.cache s := List.map_fst_zip (h.length s).le

/-- The last entry. -/
theorem Holds.valued_concat (h : Holds E σ₀ cells ops g) {top : Cell}
    (htop : (g.cache s).getLast? = some top) : ∃ ws, (cells s) = ws ++
      [(g.mach E σ₀).regs (.op top.value.reg)] ∧ (g.cache s).dropLast.length = ws.length ∧
      g.valued cells s =
        (g.cache s).dropLast.zip ws ++ [(top, (g.mach E σ₀).regs (.op top.value.reg))] := by
  have hsplit := List.dropLast_append_getLast? top htop
  have hcells := h.cells s
  rw [← hsplit, cellValues_append] at hcells
  have hlen : (g.cache s).dropLast.length =
      (cellValues (g.mach E σ₀) (g.cache s).dropLast).length := (cellValues_length _ _).symm
  refine ⟨_, hcells.symm, hlen, ?_⟩
  rw [valued, ← hcells]
  conv => lhs; arg 1; rw [← hsplit]
  exact List.zip_append hlen

end Gen

/-! ## The relation -/

theorem Shows.writes {s : Stk} {bs : List Byte} {σ τ : Mach} {W : World} (h : Shows σ W)
    (hwrites : Writes s bs σ τ) (htrace : τ.trace = σ.trace) : Shows τ W :=
  h.congr (hwrites.others _ (by cases s <;> simp [Stk.region])) hwrites.heap htrace

namespace Gen

/-- Memory and stacks of the reference are those that the code has made so far. -/
structure Mirrors (E : Env) (σ₀ : Mach) (W : World) (cells : Stk → List Word) (g : Gen) (u : Uxn) : Prop where
  tracks : Tracks E (g.mach E σ₀) g
  memory : (g.mach E σ₀).mem.cells .memory = u.memory
  stack : ∀ s, Deferred ((g.mach E σ₀).stackData s) ((g.mach E σ₀).stackPtr s)
    (pendingOf (g.valued cells s)) (u.stack s)
  fits : ∀ s, ∀ e ∈ g.valued cells s, e.Fit
  world : Shows (g.mach E σ₀) W

variable {E : Env} {σ₀ : Mach} {g g' : Gen} {cells cells' : Stk → List Word}
  {ops : List (OpReg × Word)} {held : List OpReg} {s : Stk} {u : Uxn} {W : World}

theorem Mirrors.aligned (h : Mirrors E σ₀ W cells g u) (hrun : (g.mach E σ₀).status = .running) :
    Aligned E σ₀ g := ⟨hrun, h.tracks⟩

/-- The memory and the stack pointers stay as they are, and no handler is called. -/
structure Idle (σ τ : Mach) : Prop where
  mem : τ.mem = σ.mem
  ptr : ∀ s, τ.stackPtr s = σ.stackPtr s
  trace : τ.trace = σ.trace

/-- Code that changes nothing that the relation is about. -/
theorem Mirrors.idle (h : Mirrors E σ₀ W cells g u) (hidle : Idle (g.mach E σ₀) (g'.mach E σ₀))
    (htracks : Tracks E (g'.mach E σ₀) g')
    (hpending : ∀ s, pendingOf (g'.valued cells' s) = pendingOf (g.valued cells s))
    (hfits : ∀ s, ∀ e ∈ g'.valued cells' s, e.Fit) : Mirrors E σ₀ W cells' g' u := by
  refine ⟨htracks, ?_, fun s => ?_, hfits, ?_⟩
  · rw [hidle.mem, h.memory]
  · rw [Mach.stackData_congr hidle.mem, hidle.ptr, hpending]
    exact h.stack s
  · exact h.world.congr (by rw [hidle.mem]) (by rw [hidle.mem]) hidle.trace

theorem Mirrors.of_sameCode (h : Mirrors E σ₀ W cells g u) (hs : SameCode g g')
    (hvalued : ∀ s, g'.valued cells' s = g.valued cells s) : Mirrors E σ₀ W cells' g' u := by
  have hmach : g'.mach E σ₀ = g.mach E σ₀ := mach_of_code hs.code
  refine h.idle ⟨by rw [hmach], fun s => by rw [hmach], by rw [hmach]⟩ ?_ (fun s => by rw [hvalued]) ?_
  · rw [hmach]
    exact ⟨h.tracks.vm, fun r hr => h.tracks.base r (hs.memBase ▸ hr)⟩
  · intro s e he
    exact h.fits s e (hvalued s ▸ he)

/-! ### Spilling -/

theorem writes_flushCell (hg : Aligned E σ₀ g) (c : Cell) (s : Stk) :
    Writes s (Valued.pending (c, (g.mach E σ₀).regs (.op c.value.reg))) (g.mach E σ₀)
      ((g.flushCell c s).mach E σ₀) := by
  unfold flushCell Valued.pending
  split
  · exact writes_doPush hg c.value s
  · exact .refl rfl rfl

theorem ptr_flushCell (hrun : (g.mach E σ₀).status = .running) (c : Cell) {s s' : Stk}
    (hs : s' ≠ s) : ((g.flushCell c s).mach E σ₀).stackPtr s' = (g.mach E σ₀).stackPtr s' := by
  have hptr := pointer_flushCell hrun c s s'
  rw [if_neg hs, add_zero] at hptr
  exact hptr

/-- The deepest cell of a cache is written. -/
theorem Mirrors.flushCell (h : Mirrors E σ₀ W cells g u) (hrun : (g.mach E σ₀).status = .running)
    {c : Cell} {es : List Valued}
    (hes : g.valued cells s = (c, (g.mach E σ₀).regs (.op c.value.reg)) :: es)
    (hcode : g'.code = (g.flushCell c s).code) (hbase : g'.memBase = (g.flushCell c s).memBase)
    (hsame : g'.valued cells' s = es)
    (hother : ∀ s', s' ≠ s → g'.valued cells' s' = g.valued cells s') :
    Mirrors E σ₀ W cells' g' u := by
  have hg := h.aligned hrun
  have hwrites := writes_flushCell hg c s
  have haligned := hg.emits (g.emits_flushCell s c).loose
  have hmach : g'.mach E σ₀ = (g.flushCell c s).mach E σ₀ := mach_of_code hcode
  constructor
  · rw [hmach]
    exact ⟨haligned.tracks.vm, fun r hr => haligned.tracks.base r (hbase ▸ hr)⟩
  · rw [hmach, hwrites.others _ (stack_ne_memory s), h.memory]
  · intro s'
    rw [hmach]
    by_cases hs : s' = s
    · subst hs
      have hdeferred := h.stack s'
      rw [hes, pendingOf_cons] at hdeferred
      rw [hsame, hwrites.data, hwrites.ptr]
      exact hdeferred.writeBack
    · have hdata : ((g.flushCell c s).mach E σ₀).stackData s' = (g.mach E σ₀).stackData s' := by
        funext i
        rw [Mach.stackData, hwrites.others _ fun he => hs (region_injective he), Mach.stackData]
      rw [hother s' hs, hdata, ptr_flushCell hrun c hs]
      exact h.stack s'
  · intro s' e he
    by_cases hs : s' = s
    · subst hs
      rw [hsame] at he
      exact h.fits s' e (hes ▸ List.mem_cons_of_mem _ he)
    · exact h.fits s' e (hother s' hs ▸ he)
  · rw [hmach]
    exact h.world.writes hwrites (trace_of_emits (g.emits_flushCell s c).loose)

theorem valued_spilled_of_cache (hcache : g'.cache s = g.cache s)
    (hlen : (g.cache s).length = (cells s).length) :
    g'.valued (g'.spilled cells) s = g.valued cells s := by
  rw [valued, valued, spilled, hcache, hlen, List.rtake, Nat.sub_self, List.drop_zero]

theorem Mirrors.spillCell (h : Mirrors E σ₀ W cells g u) (hholds : Holds E σ₀ cells ops g) {c : Cell}
    {cs : List Cell} (hc : g.cache s = c :: cs) :
    Mirrors E σ₀ W ((g.spillCell s c cs).spilled cells) (g.spillCell s c cs) u := by
  have hcells := hholds.cells s
  rw [hc] at hcells
  have hvalues : cells s = (g.mach E σ₀).regs (.op c.value.reg) :: cellValues (g.mach E σ₀) cs :=
    hcells.symm
  have hes : g.valued cells s = (c, (g.mach E σ₀).regs (.op c.value.reg)) ::
      cs.zip (cellValues (g.mach E σ₀) cs) := by
    rw [valued, hc, hvalues]
    rfl
  apply h.flushCell hholds.running hes
  · simp [Gen.spillCell]
  · simp [Gen.spillCell]
  · have hrtake := rtake_suffix (List.suffix_cons ((g.mach E σ₀).regs (.op c.value.reg))
      (cellValues (g.mach E σ₀) cs))
    rw [cellValues_length] at hrtake
    rw [valued, spilled, spillCell_cache_self, hvalues, hrtake]
  · intro s' hs
    exact valued_spilled_of_cache (spillCell_cache_of_ne _ _ _ _ hs) (hholds.length s')

/-- **Spilling** moves bytes to memory, and changes no stack. -/
theorem Mirrors.spills (h : Mirrors E σ₀ W cells g u) (hholds : Holds E σ₀ cells ops g)
    (hs : Spills g g') : Mirrors E σ₀ W (g'.spilled cells) g' u := by
  suffices hI : Spills g g' ∧ Mirrors E σ₀ W (g'.spilled cells) g' u from hI.2
  refine hs.preserves (I := fun x => Spills g x ∧ Mirrors E σ₀ W (x.spilled cells) x u) ?_
    ⟨.refl, by rwa [hholds.spilled_self]⟩
  rintro x s c cs hc ⟨hspills, hx⟩
  have hlen : ∀ s', ((x.spillCell s c cs).cache s').length ≤ (x.cache s').length := by
    intro s'
    by_cases hs : s' = s
    · subst hs
      rw [spillCell_cache_self, hc]
      exact Nat.le_succ _
    · rw [spillCell_cache_of_ne _ _ _ _ hs]
  have hstep := hx.spillCell (hholds.spills hspills) hc
  rw [spilled_spilled hlen] at hstep
  exact ⟨hspills.tail (.cell hc), hstep⟩

theorem Mirrors.allocReg (h : Mirrors E σ₀ W cells g u) (hholds : Holds E σ₀ cells ops g) :
    Mirrors E σ₀ W (g.allocReg.2.spilled cells) g.allocReg.2 u := by
  obtain ⟨g', hs, ⟨r, -, heq⟩ | ⟨-, -, heq⟩⟩ := g.allocReg_spec
  · rw [heq]
    exact (h.spills hholds hs.spills).of_sameCode ⟨rfl, rfl, rfl, rfl, rfl⟩ fun s => rfl
  · rw [heq]
    exact (h.spills hholds hs.spills).of_sameCode ⟨rfl, rfl, rfl, rfl, rfl⟩ fun s => rfl

/-! ### Code that computes -/

/-- Code that writes neither memory nor the stack pointers. -/
structure Still (_ : Gen) (i : Instr) : Prop extends i.Local where
  store : ∀ r a, i ≠ .storeU8 r a
  storeVm : ∀ r a, i ≠ .storeVm r a
  spares : ∀ s, i.dst ≠ some (.sp s)

theorem Emits.of_still (h : Emits Still g g') : Emits Loose g g' := h.mono fun _ _ hi => hi.toLocal

theorem idle_of_emits (h : Emits Still g g') : Idle (g.mach E σ₀) (g'.mach E σ₀) := by
  have htrace : (g'.mach E σ₀).trace = (g.mach E σ₀).trace := trace_of_emits h.of_still
  suffices hI : (g'.mach E σ₀).mem = (g.mach E σ₀).mem ∧
      ∀ s, (g'.mach E σ₀).stackPtr s = (g.mach E σ₀).stackPtr s from ⟨hI.1, hI.2, htrace⟩
  refine h.preserves (I := fun x => (x.mach E σ₀).mem = (g.mach E σ₀).mem ∧
    ∀ s, (x.mach E σ₀).stackPtr s = (g.mach E σ₀).stackPtr s) ?_ ⟨rfl, fun _ => rfl⟩
  rintro a b hab ⟨hmem, hptr⟩
  cases hab with
  | emit hi =>
    refine ⟨(mem_emit (g := a) ⟨hi.control, hi.store, hi.storeVm⟩).trans hmem, fun s => ?_⟩
    exact (pointer_emit (g := a) (s := s) hi.control (hi.spares s)).trans (hptr s)
  | setMemBase r =>
    exact ⟨(setMemBase_mem r).trans hmem, fun s => (pointer_setMemBase r s).trans (hptr s)⟩
  | books hs =>
    rw [mach_of_code hs.code]
    exact ⟨hmem, hptr⟩

theorem Mirrors.still (h : Mirrors E σ₀ W cells g u) (hrun : (g.mach E σ₀).status = .running)
    (hemits : Emits Still g g') (hcache : g'.cache = g.cache) : Mirrors E σ₀ W cells g' u := by
  have hvalued : ∀ s, g'.valued cells s = g.valued cells s := fun s => by rw [valued, hcache, valued]
  refine h.idle (idle_of_emits hemits) ((h.aligned hrun).emits hemits.of_still).tracks ?_ ?_
  · exact fun s => by rw [hvalued]
  · exact fun s e he => h.fits s e (hvalued s ▸ he)

section Computing

variable (g) (reg : OpReg) (addr : Operand OpReg) (isShort : Bool) (pc : Short)

theorem still_load : Emits Still g (g.load reg addr) := by
  have h₀ : Emits Still g (g.setMemBase .memory) := Emits.setMemBase .refl _
  unfold load
  simp only
  split
  · refine ((((((h₀.emit ?_).emit ?_).emit ?_).emit ?_).emit ?_).emit ?_).emit ?_ <;>
      exact ⟨⟨rfl, by simp, by simp⟩, by simp, by simp, by simp⟩
  · refine (h₀.emit ?_).emit ?_ <;>
      exact ⟨⟨rfl, by simp, by simp⟩, by simp, by simp, by simp⟩

theorem still_immediate : Emits Still g (g.immediate reg isShort pc) := by
  have h₀ : Emits Still g (g.setMemBase .memory) := Emits.setMemBase .refl _
  unfold immediate
  simp only
  split
  · split
    · refine ((h₀.emit ?_).emit ?_).emit ?_ <;>
        exact ⟨⟨rfl, by simp, by simp⟩, by simp, by simp, by simp⟩
    · refine (((((h₀.emit ?_).emit ?_).emit ?_).emit ?_).emit ?_).emit ?_ <;>
        exact ⟨⟨rfl, by simp, by simp⟩, by simp, by simp, by simp⟩
  · refine (h₀.emit ?_).emit ?_ <;>
      exact ⟨⟨rfl, by simp, by simp⟩, by simp, by simp, by simp⟩

theorem still_alu (a : Alu) : Emits Still g (g.emit a.instr) := by
  refine Emits.emit .refl ⟨a.local, ?_, ?_, fun s => ?_⟩
  · intro r r'
    cases a <;> simp [Alu.instr]
  · intro r r'
    cases a <;> simp [Alu.instr]
  · cases a with
    | op1 k dst src | op2 k dst a b => cases dst <;> simp [Alu.instr, Data.reg]
    | subFlags a b | opFlags a b => simp [Alu.instr]

end Computing

theorem Mirrors.divide (h : Mirrors E σ₀ W cells g u) (hrun : (g.mach E σ₀).status = .running)
    (c a b : OpReg) : Mirrors E σ₀ W cells (g.divide c a b) u := by
  obtain ⟨-, hmem, -, -, hregs⟩ := mach_divide c a b hrun
  have hvalued : ∀ s, (g.divide c a b).valued cells s = g.valued cells s := by
    intro s
    rw [valued, divide_cache, valued]
  refine h.idle ⟨hmem, fun s => ?_, trace_divide c a b⟩ ((h.aligned hrun).divide c a b).tracks ?_ ?_
  · rw [Mach.stackPtr, hregs _ (by simp) (by simp) (by simp), Mach.stackPtr]
  · exact fun s => by rw [hvalued]
  · exact fun s e he => h.fits s e (hvalued s ▸ he)

/-- **A store** changes the memory of the reference as well. -/
theorem Mirrors.store (h : Mirrors E σ₀ W cells g u) (hrun : (g.mach E σ₀).status = .running)
    {addr value : Operand OpReg} {a v : Short}
    (ha : ((g.mach E σ₀).regs (.op addr.reg)).setWidth 16 = a)
    (hv : (g.mach E σ₀).regs (.op value.reg) = v.setWidth 64) :
    Mirrors E σ₀ W cells (g.store addr value)
      { u with memory := stored u.memory value.isShort addr.isShort a v } := by
  have hg := h.aligned hrun
  obtain ⟨hmemory, hothers, hheap⟩ := stores_store hg addr value ha hv
  have hvalued : ∀ s, (g.store addr value).valued cells s = g.valued cells s := by
    intro s
    rw [valued, store_cache, valued]
  constructor
  · exact (hg.emits (emits_store g addr value).loose).tracks
  · rw [hmemory, h.memory]
  · intro s
    have hdata : ((g.store addr value).mach E σ₀).stackData s = (g.mach E σ₀).stackData s := by
      funext i
      rw [Mach.stackData, hothers _ (stack_ne_memory s).symm, Mach.stackData]
    have hptr : ((g.store addr value).mach E σ₀).stackPtr s = (g.mach E σ₀).stackPtr s :=
      pointer_of_emits (unmoving_store g addr value) s
    rw [hdata, hptr, hvalued]
    exact h.stack s
  · exact fun s e he => h.fits s e (hvalued s ▸ he)
  · exact h.world.congr (hothers _ (by simp)) hheap (trace_of_emits (emits_store g addr value).loose)

/-! ### Pushes -/

/-- The bytes are pushed one after the other. -/
def pushAll (s : Stk) (bs : List Byte) (f : Uxn.Frame) : Uxn.Frame :=
  bs.foldl (fun f b => f.push s b) f

@[simp] theorem pushAll_memory (bs : List Byte) (f : Uxn.Frame) :
    (pushAll s bs f).memory = f.memory := by
  induction bs generalizing f with
  | nil => rfl
  | cons b bs ih => exact ih _

theorem pushAll_stack_of_ne {s' : Stk} (hs : s' ≠ s) (bs : List Byte) (f : Uxn.Frame) :
    (pushAll s bs f).stack s' = f.stack s' := by
  induction bs generalizing f with
  | nil => rfl
  | cons b bs ih => exact (ih _).trans (Function.update_of_ne hs _ _)

theorem deferred_pushAll {data : Byte → Byte} {base : Byte} {pending : List Byte} {f : Uxn.Frame}
    (h : Deferred data base pending (f.stack s)) (bs : List Byte) :
    Deferred data base (pending ++ bs) ((pushAll s bs f).stack s) := by
  induction bs generalizing pending f with
  | nil =>
    rw [List.append_nil]
    exact h
  | cons b bs ih =>
    have hpush : Deferred data base (pending ++ [b]) ((f.push s b).stack s) := by
      have hstack : (f.push s b).stack s = (f.stack s).push b := Function.update_self ..
      rw [hstack]
      exact h.push b
    have hrest := ih hpush
    rwa [List.append_assoc] at hrest

theorem Mirrors.concat {f : Uxn.Frame} (h : Mirrors E σ₀ W (g.spilled cells) g f.toUxn)
    (hholds : Holds E σ₀ (g.spilled cells) ops g) (s : Stk) {o : Operand OpReg}
    (hfit : Fits o.isShort ((g.mach E σ₀).regs (.op o.reg))) :
    Mirrors E σ₀ W (((g.setCache s (g.cache s ++ [⟨o, true⟩])).retainReg o.reg).spilled
      (Function.update cells s (cells s ++ [(g.mach E σ₀).regs (.op o.reg)])))
      ((g.setCache s (g.cache s ++ [⟨o, true⟩])).retainReg o.reg)
      (pushAll s (wordBytes o.isShort ((g.mach E σ₀).regs (.op o.reg))) f).toUxn := by
  generalize hw : (g.mach E σ₀).regs (.op o.reg) = w at hfit
  have hself : ((g.setCache s (g.cache s ++ [⟨o, true⟩])).retainReg o.reg).valued
      (((g.setCache s (g.cache s ++ [⟨o, true⟩])).retainReg o.reg).spilled
        (Function.update cells s (cells s ++ [w]))) s =
        g.valued (g.spilled cells) s ++ [(⟨o, true⟩, w)] := by
    rw [valued, spilled, Function.update_self, retainReg_cache, setCache_cache_self,
      List.length_append, List.length_singleton, List.rtake_concat_succ]
    exact List.zip_append (hholds.length s)
  have hother : ∀ s', s' ≠ s → ((g.setCache s (g.cache s ++ [⟨o, true⟩])).retainReg o.reg).valued
      (((g.setCache s (g.cache s ++ [⟨o, true⟩])).retainReg o.reg).spilled
        (Function.update cells s (cells s ++ [w]))) s' = g.valued (g.spilled cells) s' := by
    intro s' hs
    rw [valued, spilled, Function.update_of_ne hs, retainReg_cache, setCache_cache_of_ne _ _ _ hs]
    rfl
  refine ⟨⟨h.tracks.vm, h.tracks.base⟩, ?_, fun s' => ?_, fun s' e he => ?_, h.world⟩
  · rw [pushAll_memory]
    exact h.memory
  · rw [mach_retainReg, mach_setCache]
    by_cases hs : s' = s
    · subst hs
      have hpending : pendingOf [(⟨o, true⟩, w)] = wordBytes o.isShort w := pendingOf_singleton _
      rw [hself, pendingOf_append, hpending]
      exact deferred_pushAll (h.stack s') _
    · rw [hother s' hs, pushAll_stack_of_ne hs]
      exact h.stack s'
  · by_cases hs : s' = s
    · subst hs
      rw [hself] at he
      obtain he | he := List.mem_append.mp he
      · exact h.fits s' e he
      · obtain rfl := List.mem_singleton.mp he
        exact hfit
    · exact h.fits s' e (hother s' hs ▸ he)

/-- **An operand is pushed.** -/
theorem Mirrors.stackCachePush {f : Uxn.Frame} (h : Mirrors E σ₀ W cells g f.toUxn)
    (hholds : Holds E σ₀ cells ops g) (s : Stk) {o : Operand OpReg}
    (hfit : Fits o.isShort ((g.mach E σ₀).regs (.op o.reg))) :
    Mirrors E σ₀ W ((g.stackCachePush s o).spilled
      (Function.update cells s (cells s ++ [(g.mach E σ₀).regs (.op o.reg)])))
      (g.stackCachePush s o)
      (pushAll s (wordBytes o.isShort ((g.mach E σ₀).regs (.op o.reg))) f).toUxn := by
  unfold Gen.stackCachePush
  split
  · have hspill := g.spills_stackCacheSpill s
    have hregs := (hspill.touching (W := fun _ => False)).touches E σ₀
    rw [← hregs.2 o.reg id] at hfit ⊢
    exact (h.spills hholds hspill).concat (hholds.spills hspill) s hfit
  · apply Mirrors.concat
    · rwa [hholds.spilled_self]
    · rwa [hholds.spilled_self]
    · exact hfit

end Gen

end BuxnJit
