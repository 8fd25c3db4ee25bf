import BuxnJit.Jit.MemBase
import BuxnJit.Uxn.Machine

/-!
# The depth of the stacks

The depth of a stack is its run-time pointer, moved on by the bytes that are still to be written.
-/

namespace BuxnJit

open Foundations

/-! ## Pending bytes -/

def Operand.size {ρ : Type} (o : Operand ρ) : ℕ := if o.isShort then 2 else 1

/-- The bytes of a cell that are still to be written. -/
def Cell.pending (c : Cell) : ℕ := if c.needFlush then c.value.size else 0

def pendingBytes (cs : List Cell) : ℕ := (cs.map Cell.pending).sum

@[simp] theorem pendingBytes_nil : pendingBytes [] = 0 := rfl

@[simp] theorem pendingBytes_cons (c : Cell) (cs : List Cell) :
    pendingBytes (c :: cs) = c.pending + pendingBytes cs := by simp [pendingBytes]

@[simp] theorem pendingBytes_append (cs ds : List Cell) :
    pendingBytes (cs ++ ds) = pendingBytes cs + pendingBytes ds := by simp [pendingBytes]

theorem Written.pendingBytes {cs : List Cell} (h : Written cs) : pendingBytes cs = 0 := by
  induction cs with
  | nil => rfl
  | cons c cs ih =>
    have hc := h c List.mem_cons_self
    simp [Cell.pending, hc, ih fun d hd => h d (List.mem_cons_of_mem c hd)]

/-! ## Run-time pointers -/

namespace Gen

variable {E : Env} {σ₀ : Mach} {g g' : Gen}

/-- The run-time pointer of a stack. -/
def pointer (E : Env) (σ₀ : Mach) (g : Gen) (s : Stk) : Byte :=
  ((g.mach E σ₀).regs (.sp s)).setWidth 8

/-- The pointer once all pending bytes are written. -/
def depth (E : Env) (σ₀ : Mach) (g : Gen) (s : Stk) : Byte :=
  g.pointer E σ₀ s + (pendingBytes (g.cache s) : Byte)

theorem pointer_of_code (h : g'.code = g.code) (s : Stk) : g'.pointer E σ₀ s = g.pointer E σ₀ s := by
  rw [pointer, mach_of_code h, pointer]

@[simp] theorem pointer_setCache (s : Stk) (cs : List Cell) (s' : Stk) :
    (g.setCache s cs).pointer E σ₀ s' = g.pointer E σ₀ s' := rfl

@[simp] theorem pointer_releaseReg (r : OpReg) (s : Stk) :
    (g.releaseReg r).pointer E σ₀ s = g.pointer E σ₀ s := rfl

theorem status_emit {i : Instr} (hi : i.Continues) :
    ((g.emit i).mach E σ₀).status = (g.mach E σ₀).status := Mach.step_status hi

theorem pointer_emit {i : Instr} {s : Stk} (hi : i.Continues) (hd : i.Spares (.sp s)) :
    (g.emit i).pointer E σ₀ s = g.pointer E σ₀ s := by
  rw [pointer, mach_emit, Mach.step_regs hi hd, pointer]

theorem pointer_add (hrun : (g.mach E σ₀).status = .running) (s : Stk) (w : Word) :
    (g.emit (.op2 .add (.sp s) (.sp s) (.imm w))).pointer E σ₀ s =
      g.pointer E σ₀ s + w.setWidth 8 := by
  rw [pointer, mach_emit, Mach.step_running hrun]
  simp [Instr.exec, Mach.set, Op2.eval, Mach.src, pointer, BitVec.setWidth_add]

theorem pointer_sub (hrun : (g.mach E σ₀).status = .running) (s : Stk) (w : Word) :
    (g.emit (.op2 .sub (.sp s) (.sp s) (.imm w))).pointer E σ₀ s =
      g.pointer E σ₀ s - w.setWidth 8 := by
  rw [pointer, mach_emit, Mach.step_running hrun]
  simp [Instr.exec, Mach.set, Op2.eval, Mach.src, pointer, BitVec.sub_eq_add_neg,
    BitVec.setWidth_add, BitVec.setWidth_neg_of_le]

@[simp] theorem pointer_setMemBase (r : Region) (s : Stk) :
    (g.setMemBase r).pointer E σ₀ s = g.pointer E σ₀ s := by
  unfold setMemBase
  split
  · rfl
  · exact pointer_emit (i := .op2 .add .memBase .vm (.off r)) (by simp) (by simp)

theorem pointer_doPush (hrun : (g.mach E σ₀).status = .running) (o : Operand OpReg) (s s' : Stk) :
    (g.doPush o s).pointer E σ₀ s' =
      g.pointer E σ₀ s' + if s' = s then (o.size : Byte) else 0 := by
  have hset : ((g.setMemBase s.region).mach E σ₀).status = .running := by
    rw [setMemBase_status, hrun]
  have hptr : (g.setMemBase s.region).pointer E σ₀ s' = g.pointer E σ₀ s' := by simp
  rw [← hptr]
  unfold doPush Operand.size
  generalize g.setMemBase s.region = x at hset
  by_cases hs : s' = s
  · subst hs
    split
    · simp [pointer_emit, pointer_add, status_emit, hset, -mach_emit, add_assoc]
    · simp [pointer_emit, pointer_add, status_emit, hset, -mach_emit]
  · split
    · simp [pointer_emit, Ne.symm hs]
    · simp [pointer_emit, Ne.symm hs]

/-! ## Spilling -/

theorem depth_of_eq {s : Stk} (hp : g'.pointer E σ₀ s = g.pointer E σ₀ s)
    (hc : g'.cache s = g.cache s) : g'.depth E σ₀ s = g.depth E σ₀ s := by
  rw [depth, hp, hc, depth]

@[simp] theorem depth_releaseReg (r : OpReg) (s : Stk) :
    (g.releaseReg r).depth E σ₀ s = g.depth E σ₀ s := depth_of_eq rfl (by simp)

theorem pointer_flushCell (hrun : (g.mach E σ₀).status = .running) (c : Cell) (s s' : Stk) :
    (g.flushCell c s).pointer E σ₀ s' =
      g.pointer E σ₀ s' + if s' = s then (c.pending : Byte) else 0 := by
  unfold flushCell Cell.pending
  split
  · exact pointer_doPush hrun c.value s s'
  · simp

theorem depth_spillCell (hrun : (g.mach E σ₀).status = .running) {s : Stk} {c : Cell}
    {cs : List Cell} (h : g.cache s = c :: cs) (s' : Stk) :
    (g.spillCell s c cs).depth E σ₀ s' = g.depth E σ₀ s' := by
  have hp : (g.spillCell s c cs).pointer E σ₀ s' = (g.flushCell c s).pointer E σ₀ s' :=
    pointer_of_code (by simp [spillCell]) s'
  rw [depth, hp, pointer_flushCell hrun, depth]
  by_cases hs : s' = s
  · subst hs
    simp [h, add_assoc]
  · simp [hs]

/-- Spilling moves pending bytes to memory. -/
theorem depth_spills (hrun : (g.mach E σ₀).status = .running) (h : Spills g g') :
    (g'.mach E σ₀).status = .running ∧ ∀ s, g'.depth E σ₀ s = g.depth E σ₀ s := by
  refine h.preserves (I := fun x => (x.mach E σ₀).status = .running ∧
    ∀ s, x.depth E σ₀ s = g.depth E σ₀ s)
    (fun x s c cs hx ⟨hrun, hd⟩ => ⟨?_, fun s' => ?_⟩) ⟨hrun, fun _ => rfl⟩
  · exact (status_of_emits (x.emits_spillCell s c cs).loose).trans hrun
  · rw [depth_spillCell hrun hx, hd]

theorem depth_allocReg (hrun : (g.mach E σ₀).status = .running) (s : Stk) :
    g.allocReg.2.depth E σ₀ s = g.depth E σ₀ s := by
  obtain ⟨g', hspills, ⟨r, -, heq⟩ | ⟨-, -, heq⟩⟩ := g.allocReg_spec <;> rw [heq] <;>
    rw [← (depth_spills hrun hspills.spills).2 s] <;>
    exact depth_of_eq (pointer_of_code (by simp) s) (by simp)

/-! ## Pops -/

/-- How pops of the stack `s` are compiled: outside of keep mode the pointer itself is moved and no
cell is written yet; in keep mode a copy of the pointer is, and all cells are written. -/
inductive Popping (s : Stk) (g : Gen) : Bool → Prop
  | move (hsp : g.spReg = .sp) (hcells : Unwritten (g.cache s)) : Popping s g false
  | keep (r : OpReg) (hsp : g.spReg s = .op r) (hcells : Written (g.cache s)) : Popping s g true

/-- The byte pop that splits a short cell misses it: the allocation spills cells of the same cache,
so that the last cell is no longer where it was. -/
def missesSplit (s : Stk) (g : Gen) : Bool :=
  match (g.cache s).getLast? with
  | none => false
  | some top => top.value.isShort && g.findFreeReg.isNone && !(g.allocReg.2.cache s).isEmpty

/-- The pop splits a short cell, and misses it. -/
def misses (flag2 : Bool) (s : Stk) (g : Gen) : Bool :=
  if flag2 then
    match (g.cache s).getLast? with
    | none => false
    | some top => !top.value.isShort && (g.setCache s (g.cache s).dropLast).missesSplit s
  else g.missesSplit s

theorem Popping.shrinks {s : Stk} {keep : Bool} (h : Popping s g keep) (hsp : g'.spReg = g.spReg)
    (hc : Shrinks (g.cache s) (g'.cache s)) : Popping s g' keep := by
  cases h with
  | move h hcells => exact .move (hsp.trans h) (hcells.shrinks hc)
  | keep r h hcells => exact .keep r (by rw [hsp, h]) (hcells.shrinks hc)

/-- What a pop takes away from the depth of the stack that it pops. -/
def popped (keep : Bool) (n : ℕ) : Byte := if keep then 0 else (n : Byte)

theorem pointer_popCode (hrun : (g.mach E σ₀).status = .running) {s : Stk} {keep : Bool}
    (hpop : Popping s g keep) (flag2 : Bool) (reg : OpReg) (s' : Stk) :
    (g.popCode flag2 s (g.spReg s) reg).pointer E σ₀ s' = g.pointer E σ₀ s' -
      if s' = s then popped keep (if flag2 then 2 else 1) else 0 := by
  cases hpop with
  | move hsp hcells =>
    rw [hsp]
    unfold popCode popped
    by_cases hs : s' = s
    · subst hs
      split <;>
        simp [pointer_emit, pointer_sub, status_emit, hrun, -mach_emit, sub_sub]
    · split <;> simp [pointer_emit, Ne.symm hs]
  | keep r hsp hcells =>
    rw [hsp]
    unfold popCode popped
    split <;> simp [pointer_emit]

theorem depth_popFromMem (hrun : (g.mach E σ₀).status = .running) {s : Stk} {keep : Bool}
    (hpop : Popping s g keep) (flag2 : Bool) (s' : Stk) :
    (g.popFromMem flag2 s).2.depth E σ₀ s' = g.depth E σ₀ s' -
      if s' = s then popped keep (if flag2 then 2 else 1) else 0 := by
  have hset : ((g.setMemBase s.region).mach E σ₀).status = .running :=
    (setMemBase_status s.region).trans hrun
  have halloc : ((g.setMemBase s.region).allocReg.2.mach E σ₀).status = .running :=
    (status_of_emits (emits_allocReg _).loose).trans hset
  have hspReg : (g.setMemBase s.region).allocReg.2.spReg = g.spReg :=
    (emits_allocReg _).spReg.trans (by simp)
  have hpop' : Popping s (g.setMemBase s.region).allocReg.2 keep :=
    hpop.shrinks hspReg (by simpa using (g.setMemBase s.region).shrinks_allocReg s)
  rw [popFromMem_eq, depth, popCode_cache, ← hspReg, pointer_popCode halloc hpop']
  rw [sub_add_eq_add_sub]
  congr 1
  exact (depth_allocReg hset s').trans (depth_of_eq (by simp) (by simp))

/-- An allocation that has to spill takes a cell of the current stack, if there is one. -/
theorem allocReg_spills (hfree : g.findFreeReg = none) (hne : g.cache g.cur ≠ []) :
    (g.allocReg.2.cache g.cur).length < (g.cache g.cur).length := by
  have hlen : ∀ {x y : Gen} (s : Stk), Spills x y → (y.cache s).length ≤ (x.cache s).length := by
    intro x y s h
    exact (h.shrinks s).preserves (P := fun cs => cs.length ≤ (x.cache s).length)
      (fun ds ds' hd hds => by cases hd <;> simp_all <;> omega) le_rfl
  obtain ⟨g', hspills, hg'⟩ := g.allocReg_spec
  have hcache : g.allocReg.2.cache g.cur = g'.cache g.cur := by
    rcases hg' with ⟨r, -, heq⟩ | ⟨-, -, heq⟩ <;> rw [heq] <;> simp
  rw [hcache]
  rcases Relation.ReflTransGen.cases_head hspills with rfl | ⟨x, hs, hrest⟩
  · rcases hg' with ⟨r, hr, -⟩ | ⟨-, hnil, -⟩
    · simp [hfree] at hr
    · exact absurd (hnil g.cur) hne
  · obtain ⟨-, hcur, hc⟩ := hs
    obtain rfl := hcur.resolve_right hne
    refine (hlen g.cur (AllocSpills.spills hrest)).trans_lt ?_
    simp [hc]

/-- With a free register an allocation spills nothing. -/
theorem allocReg_cache_of_free (hfree : g.findFreeReg ≠ none) : g.allocReg.2.cache = g.cache := by
  obtain ⟨r, hr⟩ := Option.ne_none_iff_exists'.mp hfree
  rw [allocReg_of_free _ hr]
  rfl

section Pops

variable {s : Stk} {keep : Bool} {top : Cell}

theorem pendingBytes_dropLast {cs : List Cell} (htop : cs.getLast? = some top) :
    pendingBytes cs = pendingBytes cs.dropLast + top.pending := by
  conv_lhs => rw [← List.dropLast_append_getLast? top htop]
  simp

theorem halve_pending (hshort : top.value.isShort = true) :
    top.pending = top.halve.pending + if top.needFlush then 1 else 0 := by
  unfold Cell.pending Cell.halve Operand.size
  cases top.needFlush <;> simp [hshort]

/-- Splitting the last cell. -/
theorem pendingBytes_halve {cs : List Cell} (htop : cs.getLast? = some top)
    (hshort : top.value.isShort = true) : pendingBytes cs =
      pendingBytes (cs.modify (cs.length - 1) Cell.halve) + if top.needFlush then 1 else 0 := by
  have hcs := List.dropLast_append_getLast? top htop
  generalize cs.dropLast = ds at hcs
  subst hcs
  have hmodify : (ds ++ [top]).modify ((ds ++ [top]).length - 1) Cell.halve = ds ++ [top.halve] := by
    rw [List.modify_eq_take_cons_drop (by simp)]
    simp
  rw [hmodify]
  simp [halve_pending hshort, add_assoc]

theorem Popping.pending (h : Popping s g keep) {c : Cell} (hc : c ∈ g.cache s) :
    (c.pending : Byte) = popped keep c.value.size := by
  cases h with
  | move hsp hcells => simp [Cell.pending, hcells c hc, popped]
  | keep r hsp hcells => simp [Cell.pending, hcells c hc, popped]

theorem Popping.needFlush (h : Popping s g keep) {c : Cell} (hc : c ∈ g.cache s) :
    c.needFlush = !keep := by
  cases h with
  | move hsp hcells => exact hcells c hc
  | keep r hsp hcells => exact hcells c hc

/-- The last cell is popped. -/
theorem depth_dropLast (hpop : Popping s g keep) (htop : (g.cache s).getLast? = some top) (s' : Stk) :
    (g.setCache s (g.cache s).dropLast).depth E σ₀ s' =
      g.depth E σ₀ s' - if s' = s then popped keep top.value.size else 0 := by
  have hptr : (g.setCache s (g.cache s).dropLast).pointer E σ₀ s' = g.pointer E σ₀ s' :=
    pointer_of_code rfl s'
  rw [depth, hptr, depth]
  by_cases hs : s' = s
  · subst hs
    rw [setCache_cache_self, if_pos rfl, ← hpop.pending (List.mem_of_getLast? htop),
      pendingBytes_dropLast htop]
    simp [add_sub_assoc]
  · rw [setCache_cache_of_ne _ _ _ hs, if_neg hs, sub_zero]

/-- What a byte pop adds to the depth where it misses the cell that it splits. -/
def missed (keep b : Bool) : Byte := if !keep && b then 1 else 0

/-- **A byte is popped**: the depth goes down by one, unless the pop misses the cell it splits. -/
theorem depth_stackCachePopByte (hrun : (g.mach E σ₀).status = .running)
    (hpop : Popping g.cur g keep) (s' : Stk) :
    (g.stackCachePopByte g.cur).2.depth E σ₀ s' = g.depth E σ₀ s' -
      (if s' = g.cur then popped keep 1 - missed keep (g.missesSplit g.cur) else 0) := by
  unfold stackCachePopByte missesSplit
  cases htop : (g.cache g.cur).getLast? with
  | none =>
    have hmissed : missed keep false = 0 := by simp [missed]
    simpa [hmissed] using depth_popFromMem hrun hpop false s'
  | some top =>
    have hmem := List.mem_of_getLast? htop
    simp only
    split
    next hshort =>
      have halloc : (g.allocReg.2.mach E σ₀).status = .running :=
        (status_of_emits g.emits_allocReg.loose).trans hrun
      split
      next hnil =>
        have hpop' : Popping g.cur (g.allocReg.2.releaseReg g.allocReg.1) keep :=
          hpop.shrinks g.emits_allocReg.spReg (g.shrinks_allocReg g.cur)
        have hmissed : missed keep (top.value.isShort && g.findFreeReg.isNone &&
            !(g.allocReg.2.cache g.cur).isEmpty) = 0 := by simp [missed, hnil]
        have hrel : ((g.allocReg.2.releaseReg g.allocReg.1).mach E σ₀).status = .running := halloc
        have hdepth : (g.allocReg.2.releaseReg g.allocReg.1).depth E σ₀ s' = g.depth E σ₀ s' :=
          (depth_of_eq rfl rfl).trans (depth_allocReg hrun s')
        rw [depth_popFromMem hrel hpop' false s', hdepth, hmissed]
        simp
      next hne =>
        have hptr : ((g.allocReg.2.emit (.op1 .movU8 (.op g.allocReg.1)
            (.reg (.op top.value.reg)))).emit (.op2 .lshr (.op top.value.reg)
            (.op top.value.reg) (.imm 8))).pointer E σ₀ s' = g.allocReg.2.pointer E σ₀ s' := by
          simp [pointer_emit]
        have hdepth := depth_allocReg hrun (g := g) s'
        rw [depth] at hdepth ⊢
        simp only [pointer_setCache, hptr]
        by_cases hs : s' = g.cur
        · subst hs
          rw [if_pos rfl, setCache_cache_self, ← hdepth]
          simp only [emit_cache]
          by_cases hfree : g.findFreeReg = none
          · -- the allocation spilled from this cache, and the last cell is found no more
            have hlt := allocReg_spills hfree (List.ne_nil_of_mem hmem)
            rw [List.modify_eq_self (by omega)]
            have hmissed : missed keep (top.value.isShort && g.findFreeReg.isNone &&
                !(g.allocReg.2.cache g.cur).isEmpty) = popped keep 1 := by
              cases keep <;> simp [missed, popped, hshort, hfree, hne]
            rw [hmissed, sub_self, sub_zero]
          · have hmissed : missed keep (top.value.isShort && g.findFreeReg.isNone &&
                !(g.allocReg.2.cache g.cur).isEmpty) = 0 := by simp [missed, hfree]
            rw [hmissed, sub_zero, allocReg_cache_of_free hfree, pendingBytes_halve htop hshort,
              hpop.needFlush hmem]
            cases keep <;> simp [popped, add_sub_assoc]
        · rw [if_neg hs, setCache_cache_of_ne _ _ _ hs, sub_zero]
          exact hdepth
    next hbyte =>
      have hmissed : missed keep (top.value.isShort && g.findFreeReg.isNone &&
          !(g.allocReg.2.cache g.cur).isEmpty) = 0 := by simp [missed, hbyte]
      rw [depth_dropLast hpop htop, hmissed, sub_zero, Operand.size, if_neg hbyte]

theorem popped_add (m n : ℕ) : popped keep (m + n) = popped keep m + popped keep n := by
  cases keep <;> simp [popped, Nat.cast_add]

theorem depth_join (g : Gen) (hi lo : OpReg) (s' : Stk) :
    (((g.emit (.op2 .shl (.op hi) (.op hi) (.imm 8))).emit
      (.op2 .or (.op hi) (.op hi) (.reg (.op lo)))).releaseReg lo).depth E σ₀ s' =
        g.depth E σ₀ s' := by
  refine depth_of_eq ?_ (by simp)
  simp [pointer_emit]

/-- **A byte or a short is popped.** -/
theorem depth_stackCachePop (hrun : (g.mach E σ₀).status = .running)
    (hpop : Popping g.cur g keep) (flag2 : Bool) (s' : Stk) :
    (g.stackCachePop flag2 g.cur).2.depth E σ₀ s' = g.depth E σ₀ s' -
      (if s' = g.cur then popped keep (if flag2 then 2 else 1) - missed keep (g.misses flag2 g.cur)
        else 0) := by
  have hzero : missed keep false = 0 := by simp [missed]
  unfold stackCachePop misses
  cases flag2 with
  | false => exact depth_stackCachePopByte hrun hpop s'
  | true =>
    simp only [if_true]
    cases htop : (g.cache g.cur).getLast? with
    | none =>
      simp only [hzero, sub_zero]
      exact depth_popFromMem hrun hpop true s'
    | some top =>
      have hdrop : (g.setCache g.cur (g.cache g.cur).dropLast).depth E σ₀ s' = _ :=
        depth_dropLast hpop htop s'
      simp only
      split
      next hshort =>
        simp only [hshort, Bool.not_true, Bool.false_and, hzero, sub_zero]
        rw [hdrop, Operand.size, if_pos hshort]
      next hbyte =>
        have hpop' : Popping g.cur (g.setCache g.cur (g.cache g.cur).dropLast) keep :=
          hpop.shrinks rfl (by rw [setCache_cache_self]; exact .single (.dropLast _))
        have hrun' : ((g.setCache g.cur (g.cache g.cur).dropLast).mach E σ₀).status = .running :=
          hrun
        have hbelow := depth_stackCachePopByte hrun' hpop' s'
        have hcur : (g.setCache g.cur (g.cache g.cur).dropLast).cur = g.cur := rfl
        have htwo : popped keep 2 = popped keep top.value.size + popped keep 1 := by
          rw [Operand.size, if_neg hbyte, ← popped_add]
        rw [hcur, hdrop] at hbelow
        simp only [hbyte, Bool.not_false, Bool.true_and, htwo]
        refine (depth_join _ _ _ s').trans (hbelow.trans ?_)
        by_cases hs : s' = g.cur
        · simp only [if_pos hs]
          rw [sub_sub, ← add_sub_assoc]
        · simp only [if_neg hs, sub_zero]

theorem depth_discardFromMem (hrun : (g.mach E σ₀).status = .running) (hsp : g.spReg s = .sp s)
    (flag2 : Bool) (s' : Stk) : (g.discardFromMem flag2 s).depth E σ₀ s' = g.depth E σ₀ s' -
      if s' = s then (if flag2 then 2 else 1) else 0 := by
  rw [discardFromMem, hsp, depth, emit_cache, depth]
  by_cases hs : s' = s
  · subst hs
    rw [pointer_sub hrun, if_pos rfl]
    cases flag2 <;> simp [sub_add_eq_add_sub]
  · rw [pointer_emit (by simp) (by simp [Ne.symm hs]), if_neg hs, sub_zero]

theorem depth_stackCacheDiscardByte (hrun : (g.mach E σ₀).status = .running)
    (hpop : Popping s g false) (s' : Stk) : (g.stackCacheDiscardByte s).depth E σ₀ s' =
      g.depth E σ₀ s' - if s' = s then 1 else 0 := by
  obtain ⟨hsp, hcells⟩ := hpop
  unfold stackCacheDiscardByte
  cases htop : (g.cache s).getLast? with
  | none => exact depth_discardFromMem hrun (by rw [hsp]) false s'
  | some top =>
    simp only
    split
    next hshort =>
      have hptr : (g.emit (.op2 .lshr (.op top.value.reg) (.op top.value.reg) (.imm 8))).pointer
          E σ₀ s' = g.pointer E σ₀ s' := by simp [pointer_emit]
      rw [depth, pointer_setCache, hptr, depth]
      by_cases hs : s' = s
      · subst hs
        rw [if_pos rfl, setCache_cache_self, pendingBytes_halve htop hshort,
          hcells top (List.mem_of_getLast? htop)]
        simp [add_sub_assoc]
      · rw [if_neg hs, setCache_cache_of_ne _ _ _ hs, sub_zero]
        rfl
    next hbyte =>
      rw [depth_releaseReg, depth_dropLast (.move hsp hcells) htop]
      simp [popped, Operand.size, hbyte]

/-- Outside of keep mode a discard takes its bytes away. -/
theorem depth_stackCacheDiscard (hrun : (g.mach E σ₀).status = .running)
    (hpop : Popping s g false) (flag2 : Bool) (s' : Stk) :
    (g.stackCacheDiscard flag2 s).depth E σ₀ s' = g.depth E σ₀ s' -
      if s' = s then (if flag2 then 2 else 1) else 0 := by
  unfold stackCacheDiscard
  cases flag2 with
  | false => exact depth_stackCacheDiscardByte hrun hpop s'
  | true =>
    simp only [if_true]
    cases htop : (g.cache s).getLast? with
    | none =>
      obtain ⟨hsp, -⟩ := hpop
      exact depth_discardFromMem hrun (by rw [hsp]) true s'
    | some top =>
      have hdrop : (g.setCache s (g.cache s).dropLast).depth E σ₀ s' = _ :=
        depth_dropLast hpop htop s'
      simp only
      split
      next hshort =>
        rw [depth_releaseReg, hdrop]
        simp [popped, Operand.size, hshort]
      next hbyte =>
        have hpop' : Popping s ((g.setCache s (g.cache s).dropLast).releaseReg top.value.reg) false :=
          hpop.shrinks rfl (by
            rw [releaseReg_cache, setCache_cache_self]
            exact .single (.dropLast _))
        have hrun' : (((g.setCache s (g.cache s).dropLast).releaseReg top.value.reg).mach
            E σ₀).status = .running := hrun
        refine (depth_stackCacheDiscardByte hrun' hpop' s').trans ?_
        rw [depth_releaseReg, hdrop]
        by_cases hs : s' = s
        · simp only [if_pos hs, sub_sub]
          simp [popped, Operand.size, hbyte]
        · simp only [if_neg hs, sub_zero]

theorem depth_concat (o : Operand OpReg) (s s' : Stk) :
    ((g.setCache s (g.cache s ++ [⟨o, true⟩])).retainReg o.reg).depth E σ₀ s' =
      g.depth E σ₀ s' + if s' = s then (o.size : Byte) else 0 := by
  have hptr : ((g.setCache s (g.cache s ++ [⟨o, true⟩])).retainReg o.reg).pointer E σ₀ s' =
      g.pointer E σ₀ s' := pointer_of_code rfl s'
  rw [depth, hptr, retainReg_cache, depth]
  by_cases hs : s' = s
  · subst hs
    rw [setCache_cache_self, if_pos rfl, pendingBytes_append]
    simp [Cell.pending, add_assoc]
  · rw [setCache_cache_of_ne _ _ _ hs, if_neg hs, add_zero]

/-- **An operand is pushed.** -/
theorem depth_stackCachePush (hrun : (g.mach E σ₀).status = .running) (o : Operand OpReg)
    (s s' : Stk) : (g.stackCachePush s o).depth E σ₀ s' =
      g.depth E σ₀ s' + if s' = s then (o.size : Byte) else 0 := by
  unfold stackCachePush
  split
  · refine (depth_concat o s s').trans ?_
    rw [(depth_spills hrun (g.spills_stackCacheSpill s)).2 s']
  · exact depth_concat o s s'

end Pops

/-! ## Code that leaves the pointers alone -/

structure Unmoving (_ : Gen) (i : Instr) : Prop where
  control : i.control = false
  spares : ∀ s, i.dst ≠ some (.sp s)

theorem pointer_of_emits (h : Emits Unmoving g g') (s : Stk) :
    g'.pointer E σ₀ s = g.pointer E σ₀ s := by
  refine h.preserves (I := fun x => x.pointer E σ₀ s = g.pointer E σ₀ s) ?_ rfl
  intro a b hab ha
  cases hab with
  | emit hi => exact (pointer_emit hi.control (hi.spares s)).trans ha
  | setMemBase r => rw [pointer_setMemBase, ha]
  | books hs => rw [pointer_of_code hs.code, ha]

theorem depth_of_emits (h : Emits Unmoving g g') (hcache : g'.cache = g.cache) (s : Stk) :
    g'.depth E σ₀ s = g.depth E σ₀ s :=
  depth_of_eq (pointer_of_emits h s) (by rw [hcache])

section Memory

variable (g) (reg : OpReg) (addr value : Operand OpReg) (isShort : Bool) (pc : Short)

theorem unmoving_load : Emits Unmoving g (g.load reg addr) := by
  have h₀ : Emits Unmoving g (g.setMemBase .memory) := Emits.setMemBase .refl _
  unfold load
  simp only
  split
  · refine ((((((h₀.emit ?_).emit ?_).emit ?_).emit ?_).emit ?_).emit ?_).emit ?_ <;>
      exact ⟨rfl, by simp⟩
  · refine (h₀.emit ?_).emit ?_ <;> exact ⟨rfl, by simp⟩

theorem unmoving_store : Emits Unmoving g (g.store addr value) := by
  have h₀ : Emits Unmoving g (g.setMemBase .memory) := Emits.setMemBase .refl _
  unfold store
  simp only
  split
  · refine (((((h₀.emit ?_).emit ?_).emit ?_).emit ?_).emit ?_).emit ?_ <;> exact ⟨rfl, by simp⟩
  · refine (h₀.emit ?_).emit ?_ <;> exact ⟨rfl, by simp⟩

theorem unmoving_immediate : Emits Unmoving g (g.immediate reg isShort pc) := by
  have h₀ : Emits Unmoving g (g.setMemBase .memory) := Emits.setMemBase .refl _
  unfold immediate
  simp only
  split
  · split
    · refine ((h₀.emit ?_).emit ?_).emit ?_ <;> exact ⟨rfl, by simp⟩
    · refine (((((h₀.emit ?_).emit ?_).emit ?_).emit ?_).emit ?_).emit ?_ <;> exact ⟨rfl, by simp⟩
  · refine (h₀.emit ?_).emit ?_ <;> exact ⟨rfl, by simp⟩

theorem unmoving_alu (a : Alu) : Emits Unmoving g (g.emit a.instr) := by
  refine Emits.emit .refl ⟨a.local.control, fun s => ?_⟩
  cases a with
  | op1 k dst src | op2 k dst a b => cases dst <;> simp [Alu.instr, Data.reg]
  | subFlags a b | opFlags a b => simp [Alu.instr]

end Memory

theorem depth_divide (hrun : (g.mach E σ₀).status = .running) (c a b : OpReg) (s : Stk) :
    (g.divide c a b).depth E σ₀ s = g.depth E σ₀ s := by
  obtain ⟨-, -, -, -, hregs⟩ := mach_divide c a b hrun
  refine depth_of_eq ?_ (by simp)
  rw [pointer, hregs _ (by simp) (by simp) (by simp), pointer]

/-! ## Between opcodes -/

/-- The cells that are dropped are written. -/
theorem pendingBytes_drop {cs : List Cell} (hcs : WrittenFirst cs) :
    pendingBytes (cs.drop (cs.countP fun c => !c.needFlush)) = pendingBytes cs := by
  induction cs with
  | nil => rfl
  | cons c cs ih =>
    obtain ⟨hc, hcs⟩ := List.pairwise_cons.mp hcs
    cases hf : c.needFlush with
    | false => simpa [hf, Cell.pending] using ih hcs
    | true =>
      have hzero : cs.countP (fun c => !c.needFlush) = 0 := by
        rw [List.countP_eq_zero]
        intro d hd
        by_contra hd'
        have hwritten := hc d hd (by simpa using hd')
        rw [hf] at hwritten
        cases hwritten
      simp [hf, hzero]

theorem depth_retained (hfirst : ∀ s, WrittenFirst (g.cache s)) (s : Stk) :
    g.retained.depth E σ₀ s = g.depth E σ₀ s := by
  rw [depth, pointer_of_emits g.emits_retained, retained_cache, pendingBytes_drop (hfirst s), depth]

theorem depth_copyPointers (hrun : (g.mach E σ₀).status = .running) (s : Stk) :
    g.copyPointers.depth E σ₀ s = g.depth E σ₀ s := by
  have hrun' : (g.allocReg.2.mach E σ₀).status = .running :=
    (status_of_emits g.emits_allocReg.loose).trans hrun
  have hcopies : g.copyPointers.depth E σ₀ s = g.allocReg.2.allocReg.2.depth E σ₀ s :=
    depth_of_eq (by simp [copyPointers, pointer_emit]) rfl
  rw [hcopies, depth_allocReg hrun', depth_allocReg hrun]

/-- A flush moves all pending bytes of a cache to memory. -/
theorem pointer_flushCells (hrun : (g.mach E σ₀).status = .running) (cs : List Cell) (s s' : Stk) :
    (flushCells s cs g).pointer E σ₀ s' =
      g.pointer E σ₀ s' + if s' = s then (pendingBytes cs : Byte) else 0 := by
  induction cs generalizing g with
  | nil => simp [flushCells]
  | cons c cs ih =>
    have hrun' : ((g.flushCell c s).mach E σ₀).status = .running :=
      (status_of_emits (g.emits_flushCell s c).loose).trans hrun
    rw [flushCells, ih hrun', pointer_flushCell hrun]
    by_cases hs : s' = s
    · simp only [if_pos hs, pendingBytes_cons, Nat.cast_add, add_assoc]
    · simp only [if_neg hs, add_zero]

theorem depth_stackCacheFlush (hrun : (g.mach E σ₀).status = .running) (s s' : Stk) :
    (g.stackCacheFlush s).depth E σ₀ s' = g.depth E σ₀ s' := by
  have hwritten : Written ((g.cache s).map Cell.flushed) := by
    intro c hc
    obtain ⟨d, -, rfl⟩ := List.mem_map.mp hc
    rfl
  rw [depth, stackCacheFlush_cache, stackCacheFlush, pointer_setCache, pointer_flushCells hrun, depth]
  by_cases hs : s' = s
  · subst hs
    rw [Function.update_self, hwritten.pendingBytes, if_pos rfl, Nat.cast_zero, add_zero]
  · rw [Function.update_of_ne hs, if_neg hs, add_zero]

theorem depth_enterKeep (hrun : (g.mach E σ₀).status = .running) (s : Stk) :
    g.enterKeep.depth E σ₀ s = g.depth E σ₀ s := by
  have hcode : g.shadowPointers.code = g.copyPointers.code := by rw [shadowPointers_eq]
  have hcache : g.shadowPointers.cache = g.copyPointers.cache := by rw [shadowPointers_eq]
  have hrun' : (g.shadowPointers.mach E σ₀).status = .running := by
    rw [mach_of_code hcode]
    exact (status_of_emits g.emits_copyPointers.loose).trans hrun
  rw [enterKeep, depth_stackCacheFlush hrun', ← depth_copyPointers hrun]
  exact depth_of_eq (pointer_of_code hcode s) (by rw [hcache])

/-- **An opcode begins**: the depths stay. -/
theorem depth_beginOpcode (hrun : (g.mach E σ₀).status = .running)
    (hfirst : ∀ s, WrittenFirst (g.cache s)) (op : Byte) (s : Stk) :
    (g.beginOpcode op).depth E σ₀ s = g.depth E σ₀ s := by
  have hrun' : (g.retained.mach E σ₀).status = .running :=
    (status_of_emits g.emits_retained).trans hrun
  rw [beginOpcode_eq, ← depth_retained hfirst]
  generalize g.retained = g' at hrun'
  split
  · exact (depth_enterKeep (g := { g' with currentOpcode := op }) hrun' s).trans
      (depth_of_eq (pointer_of_code rfl s) rfl)
  · exact depth_of_eq (pointer_of_code rfl s) rfl

end Gen

end BuxnJit
