import BuxnJit.Foundations.Ghost
import BuxnJit.Jit.Control

/-!
# Reference counts

The reference count of an operand register is the number of cells and of popped or allocated
operands that hold it. `Accounts held g` says so of the operands `held` by the opcode that is
being compiled, next to the other conditions that the assertions of `jit.c` rely on. As long as an
opcode holds at most five registers the allocator finds one (`Accounts.allocReg`), and no opcode
holds more when it needs another one, also in keep mode, where two hold the copies of the stack
pointers (`keeps_dispatch`).
-/

namespace BuxnJit

open Foundations

/-- The registers of the cells. -/
def cellRegs (cs : List Cell) : List OpReg := cs.map (·.value.reg)

@[simp] theorem cellRegs_nil : cellRegs [] = [] := rfl

@[simp] theorem cellRegs_cons (c : Cell) (cs : List Cell) :
    cellRegs (c :: cs) = c.value.reg :: cellRegs cs := rfl

@[simp] theorem cellRegs_append (cs ds : List Cell) :
    cellRegs (cs ++ ds) = cellRegs cs ++ cellRegs ds := List.map_append

@[simp] theorem cellRegs_halve (cs : List Cell) (i : ℕ) :
    cellRegs (cs.modify i Cell.halve) = cellRegs cs := map_modify_halve _ Cell.halve_reg cs i

@[simp] theorem cellRegs_flushed (cs : List Cell) : cellRegs (cs.map Cell.flushed) = cellRegs cs := by
  rw [cellRegs, List.map_map]
  rfl

theorem cellRegs_dropLast {cs : List Cell} {top : Cell} (h : cs.getLast? = some top) :
    cellRegs cs = cellRegs cs.dropLast ++ [top.value.reg] := by
  conv => lhs; rw [← List.dropLast_append_getLast? top h]
  rw [cellRegs_append]
  rfl

namespace Gen

/-- Every reference count is that of the cells and the operands `held`. The caches are as short as
they have to be and written from below, and no assertion has failed. -/
structure Accounts (held : List OpReg) (g : Gen) : Prop where
  short : ∀ s, (g.cache s).length ≤ cacheSize
  writtenFirst : ∀ s, WrittenFirst (g.cache s)
  counts : ∀ r, g.refCounts r =
    (cellRegs (g.cache .wst)).count r + (cellRegs (g.cache .rst)).count r + held.count r
  ok : g.failed = false

/-- The conditions that outlast an opcode. -/
structure Fit (g : Gen) : Prop where
  short : ∀ s, (g.cache s).length ≤ cacheSize
  writtenFirst : ∀ s, WrittenFirst (g.cache s)
  ok : g.failed = false

namespace Accounts

variable {held held' : List OpReg} {g g' : Gen} {r : OpReg} {s : Stk}

theorem fit (h : Accounts held g) : Fit g := ⟨h.short, h.writtenFirst, h.ok⟩

theorem congr (h : Accounts held g) (hcache : g'.cache = g.cache)
    (hcounts : g'.refCounts = g.refCounts) (hok : g'.failed = g.failed) : Accounts held g' := by
  constructor
  · rw [hcache]
    exact h.short
  · rw [hcache]
    exact h.writtenFirst
  · rw [hcache, hcounts]
    exact h.counts
  · rw [hok, h.ok]

theorem perm (h : Accounts held g) (hp : held'.Perm held) : Accounts held' g :=
  ⟨h.short, h.writtenFirst, fun r => by rw [h.counts, hp.count_eq], h.ok⟩

theorem emit (h : Accounts held g) (i : Instr) : Accounts held (g.emit i) := h.congr rfl rfl rfl

theorem setMemBase (h : Accounts held g) (r : Region) : Accounts held (g.setMemBase r) :=
  h.congr (by simp) (by simp) (by simp)

/-! ### Registers -/

theorem retainReg (h : Accounts held g) (r : OpReg) : Accounts (r :: held) (g.retainReg r) := by
  refine ⟨h.short, h.writtenFirst, fun r' => ?_, h.ok⟩
  by_cases hr : r' = r
  · subst hr
    simp [Gen.retainReg, h.counts, Nat.add_assoc]
  · simp [Gen.retainReg, h.counts, hr, List.count_cons_of_ne (Ne.symm hr)]

theorem releaseReg (h : Accounts (r :: held) g) : Accounts held (g.releaseReg r) := by
  have hpos : g.refCounts r ≠ 0 := by
    rw [h.counts, List.count_cons_self]
    omega
  refine ⟨h.short, h.writtenFirst, fun r' => ?_, ?_⟩
  · have hcount := h.counts r'
    by_cases hr : r' = r
    · subst hr
      rw [List.count_cons_self] at hcount
      simp only [Gen.releaseReg, Function.update_self, assert_cache]
      omega
    · rw [List.count_cons_of_ne (Ne.symm hr)] at hcount
      simpa [Gen.releaseReg, hr] using hcount
  · simp [Gen.releaseReg, Gen.assert, h.ok, hpos]

/-- Cells that leave a cache hand their registers over. -/
theorem setCache (h : Accounts held g) {cs : List Cell} (moved : List OpReg)
    (hlen : cs.length ≤ (g.cache s).length) (hfirst : WrittenFirst cs)
    (hregs : (cellRegs (g.cache s)).Perm (cellRegs cs ++ moved)) :
    Accounts (moved ++ held) (g.setCache s cs) := by
  refine ⟨fun s' => ?_, fun s' => ?_, fun r => ?_, h.ok⟩
  · by_cases hs : s' = s
    · subst hs
      rw [setCache_cache_self]
      exact hlen.trans (h.short s')
    · rw [setCache_cache_of_ne _ _ _ hs]
      exact h.short s'
  · by_cases hs : s' = s
    · subst hs
      rw [setCache_cache_self]
      exact hfirst
    · rw [setCache_cache_of_ne _ _ _ hs]
      exact h.writtenFirst s'
  · have hcount := h.counts r
    have hmoved := hregs.count_eq r
    rw [List.count_append] at hmoved
    rw [setCache_refCounts, List.count_append, hcount]
    cases s
    · rw [setCache_cache_self, setCache_cache_of_ne _ _ _ (by simp)]
      omega
    · rw [setCache_cache_self, setCache_cache_of_ne _ _ _ (by simp)]
      omega

/-! ### Spilling and allocating -/

theorem spillCell (h : Accounts held g) {c : Cell} {cs : List Cell} (hc : g.cache s = c :: cs) :
    Accounts held (g.spillCell s c cs) := by
  have hflush : Accounts held (g.flushCell c s) := h.congr (by simp) (by simp) (by simp)
  have hcache : (g.flushCell c s).cache s = c :: cs := by
    rw [flushCell_cache, hc]
  have hset : Accounts (c.value.reg :: held) ((g.flushCell c s).setCache s cs) := by
    apply hflush.setCache [c.value.reg]
    · rw [hcache, List.length_cons]
      omega
    · exact (hc ▸ h.writtenFirst s).sublist (List.sublist_cons_self c cs)
    · rw [hcache, cellRegs_cons]
      exact (List.perm_append_comm : ([c.value.reg] ++ _).Perm _)
  exact hset.releaseReg

theorem spills (h : Accounts held g) (hs : Spills g g') : Accounts held g' :=
  hs.preserves (I := Accounts held) (fun _ _ _ _ hc h => h.spillCell hc) h

/-- **Allocation finds a register** for an opcode that holds at most five: one that nobody holds. -/
theorem allocReg_fresh (h : Accounts held g) (hheld : held.length ≤ 5) :
    ∃ g' r, AllocSpills g g' ∧ Accounts held g' ∧ g'.refCounts r = 0 ∧
      g.allocReg = (r, g'.retainReg r) := by
  obtain ⟨g', hs, ⟨r, hfree, halloc⟩ | ⟨hfree, hnil, -⟩⟩ := g.allocReg_spec
  · refine ⟨g', r, hs, h.spills hs.spills, ?_, halloc⟩
    simpa using List.find?_some hfree
  · exfalso
    have hall : List.finRange 6 ⊆ held := by
      intro r _
      have hused : g'.refCounts r ≠ 0 := by
        have hnone := List.find?_eq_none.mp hfree r (List.mem_finRange r)
        simpa using hnone
      rw [(h.spills hs.spills).counts, hnil, hnil] at hused
      apply List.count_pos_iff.mp
      apply Nat.pos_of_ne_zero
      simpa using hused
    have hlen := ((List.nodup_finRange 6).subperm hall).length_le
    rw [List.length_finRange] at hlen
    omega

theorem allocReg (h : Accounts held g) (hheld : held.length ≤ 5) :
    Accounts (g.allocReg.1 :: held) g.allocReg.2 := by
  obtain ⟨g', r, -, h', -, halloc⟩ := h.allocReg_fresh hheld
  rw [halloc]
  exact h'.retainReg r

/-! ### Pops and pushes -/

theorem popFromMem (h : Accounts held g) (hheld : held.length ≤ 5) (flag2 : Bool) (s : Stk) :
    Accounts ((g.popFromMem flag2 s).1 :: held) (g.popFromMem flag2 s).2 := by
  have halloc := (h.setMemBase s.region).allocReg hheld
  rw [popFromMem_eq]
  apply halloc.congr
  · exact popCode_cache ..
  · cases flag2 <;> simp [popCode]
  · cases flag2 <;> simp [popCode]

theorem dropLast (h : Accounts held g) {top : Cell} (htop : (g.cache s).getLast? = some top) :
    Accounts (top.value.reg :: held) (g.setCache s (g.cache s).dropLast) := by
  apply h.setCache [top.value.reg]
  · rw [List.length_dropLast]
    omega
  · exact (h.writtenFirst s).sublist (List.dropLast_sublist _)
  · rw [cellRegs_dropLast htop]

theorem halve (h : Accounts held g) (i : ℕ) :
    Accounts held (g.setCache s ((g.cache s).modify i Cell.halve)) := by
  apply h.setCache []
  · rw [List.length_modify]
  · exact (h.writtenFirst s).shrinks (.single (.halve _ _))
  · rw [cellRegs_halve, List.append_nil]

theorem stackCachePopByte (h : Accounts held g) (hheld : held.length ≤ 5) (s : Stk) :
    Accounts ((g.stackCachePopByte s).1 :: held) (g.stackCachePopByte s).2 := by
  unfold Gen.stackCachePopByte
  cases htop : (g.cache s).getLast? with
  | none => exact h.popFromMem hheld false s
  | some top =>
    simp only
    split
    · have halloc := h.allocReg hheld
      split
      · exact halloc.releaseReg.popFromMem hheld false s
      · exact ((halloc.emit _).emit _).halve _
    · exact h.dropLast htop

/-- A short that is joined from bytes needs one register more. -/
theorem stackCachePop (h : Accounts held g) {flag2 : Bool}
    (hheld : held.length + (if flag2 then 1 else 0) ≤ 5) (s : Stk) :
    Accounts ((g.stackCachePop flag2 s).1 :: held) (g.stackCachePop flag2 s).2 := by
  unfold Gen.stackCachePop
  cases flag2 with
  | false => exact h.stackCachePopByte hheld s
  | true =>
    simp only [if_true] at hheld ⊢
    cases htop : (g.cache s).getLast? with
    | none => exact h.popFromMem (Nat.le_of_succ_le hheld) true s
    | some top =>
      have hlast := h.dropLast htop
      simp only
      split
      · exact hlast
      · have hbyte := hlast.stackCachePopByte hheld s
        apply releaseReg
        exact (((hbyte.emit _).emit _).perm (List.Perm.swap ..))

theorem stackCacheDiscardByte (h : Accounts held g) (s : Stk) :
    Accounts held (g.stackCacheDiscardByte s) := by
  unfold Gen.stackCacheDiscardByte
  cases htop : (g.cache s).getLast? with
  | none => exact h.emit _
  | some top =>
    simp only
    split
    · exact (h.emit _).halve _
    · exact (h.dropLast htop).releaseReg

theorem stackCacheDiscard (h : Accounts held g) (flag2 : Bool) (s : Stk) :
    Accounts held (g.stackCacheDiscard flag2 s) := by
  unfold Gen.stackCacheDiscard
  cases flag2 with
  | false => exact h.stackCacheDiscardByte s
  | true =>
    simp only [if_true]
    cases htop : (g.cache s).getLast? with
    | none => exact h.emit _
    | some top =>
      have hlast := (h.dropLast htop).releaseReg
      simp only
      split
      · exact hlast
      · exact hlast.stackCacheDiscardByte s

theorem concat (h : Accounts held g) (hlen : (g.cache s).length < cacheSize) (o : Operand OpReg) :
    Accounts held ((g.setCache s (g.cache s ++ [⟨o, true⟩])).retainReg o.reg) := by
  refine ⟨fun s' => ?_, fun s' => ?_, fun r => ?_, h.ok⟩
  · by_cases hs : s' = s
    · subst hs
      rw [retainReg_cache, setCache_cache_self, List.length_append]
      exact Nat.succ_le_of_lt hlen
    · simpa [hs] using h.short s'
  · by_cases hs : s' = s
    · subst hs
      simpa using (h.writtenFirst s').concat rfl
    · simpa [hs] using h.writtenFirst s'
  · have hcount := h.counts r
    have hone : (Function.update g.refCounts o.reg (g.refCounts o.reg + 1)) r =
        g.refCounts r + [o.reg].count r := by
      by_cases hr : r = o.reg
      · subst hr
        simp
      · simp [hr, Ne.symm hr]
    simp only [Gen.retainReg, setCache_refCounts]
    rw [hone, hcount]
    cases s
    · rw [setCache_cache_self, setCache_cache_of_ne _ _ _ (by simp), cellRegs_append,
        List.count_append]
      simp only [cellRegs_cons, cellRegs_nil]
      omega
    · rw [setCache_cache_self, setCache_cache_of_ne _ _ _ (by simp), cellRegs_append,
        List.count_append]
      simp only [cellRegs_cons, cellRegs_nil]
      omega

theorem stackCachePush (h : Accounts held g) (s : Stk) (o : Operand OpReg) :
    Accounts held (g.stackCachePush s o) := by
  unfold Gen.stackCachePush
  have hshort := h.short s
  split
  next hfull =>
    apply (h.spills (g.spills_stackCacheSpill s)).concat
    rw [stackCacheSpill_length, if_pos rfl]
    have hpos : 0 < cacheSize := by
      decide
    omega
  next hroom => exact h.concat (Nat.not_le.mp hroom) o

/-- **Pushing an operand that is held.** -/
theorem pushEx (h : Accounts held g) {o : Operand OpReg} (ho : o.reg ∈ held) (s : Stk) :
    Accounts held ((g.assert (g.refCounts o.reg != 0)).stackCachePush s o) := by
  apply stackCachePush
  have hused : g.refCounts o.reg ≠ 0 := by
    have hpos := List.count_pos_iff.mpr ho
    rw [h.counts]
    omega
  refine ⟨h.short, h.writtenFirst, h.counts, ?_⟩
  simp [Gen.assert, h.ok, hused]

end Accounts

/-! ### Between opcodes -/

section Between

variable {g : Gen}

theorem retainRegs_refCounts (cs : List Cell) (g : Gen) (r : OpReg) :
    (cs.foldl (fun g c => g.retainReg c.value.reg) g).refCounts r =
      g.refCounts r + (cellRegs cs).count r := by
  induction cs generalizing g with
  | nil => rfl
  | cons c cs ih =>
    rw [List.foldl_cons, ih, cellRegs_cons]
    by_cases hr : r = c.value.reg
    · subst hr
      simp only [retainReg, Function.update_self, List.count_cons_self]
      omega
    · simp [retainReg, hr, List.count_cons_of_ne (Ne.symm hr)]

theorem stackCacheRetain_refCounts (s : Stk) (g : Gen) (r : OpReg) :
    (g.stackCacheRetain s).refCounts r =
      g.refCounts r + (cellRegs ((g.stackCacheRetain s).cache s)).count r := by
  rw [stackCacheRetain_cache, Function.update_self]
  exact retainRegs_refCounts _ _ r

theorem stackCacheRetain_failed (s : Stk) (g : Gen) : (g.stackCacheRetain s).failed = g.failed := by
  have hfold : ∀ (cs : List Cell) (g : Gen),
      (cs.foldl (fun g c => g.retainReg c.value.reg) g).failed = g.failed := by
    intro cs
    induction cs with
    | nil => exact fun _ => rfl
    | cons c cs ih => exact fun g => ih _
  exact hfold _ _

/-- The counts are made up anew for every opcode. -/
theorem Fit.retained (h : Fit g) : Accounts [] g.retained := by
  have hdrop : ∀ s, List.Sublist (g.retained.cache s) (g.cache s) := fun s => by
    rw [retained_cache]
    exact List.drop_sublist _ _
  refine ⟨fun s => (hdrop s).length_le.trans (h.short s), fun s => (h.writtenFirst s).sublist (hdrop s),
    fun r => ?_, ?_⟩
  · unfold Gen.retained
    generalize hg₀ : ({ g with refCounts := fun _ => 0 } : Gen) = g₀
    have hother : ((g₀.stackCacheRetain .wst).stackCacheRetain .rst).cache .wst =
        (g₀.stackCacheRetain .wst).cache .wst := by
      rw [stackCacheRetain_cache, Function.update_of_ne (by simp)]
    rw [stackCacheRetain_refCounts, stackCacheRetain_refCounts, hother, ← hg₀]
    simp
  · unfold Gen.retained
    rw [stackCacheRetain_failed, stackCacheRetain_failed]
    exact h.ok

theorem flushCells_refCounts (s : Stk) (cs : List Cell) (g : Gen) :
    (flushCells s cs g).refCounts = g.refCounts := by
  induction cs generalizing g with
  | nil => rfl
  | cons c cs ih => rw [flushCells, ih, flushCell_refCounts]

theorem flushCells_failed (s : Stk) (cs : List Cell) (g : Gen) :
    (flushCells s cs g).failed = g.failed := by
  induction cs generalizing g with
  | nil => rfl
  | cons c cs ih => rw [flushCells, ih, flushCell_failed]

theorem Accounts.flush {held : List OpReg} (h : Accounts held g) (s : Stk) :
    Accounts held (g.stackCacheFlush s) := by
  have hcells : Accounts held (flushCells s (g.cache s) g) :=
    h.congr (by simp) (flushCells_refCounts _ _ _) (flushCells_failed _ _ _)
  apply hcells.setCache []
  · simp
  · apply Written.writtenFirst
    intro c hc
    obtain ⟨d, -, rfl⟩ := List.mem_map.mp hc
    rfl
  · rw [flushCells_cache, cellRegs_flushed, List.append_nil]

/-- In keep mode an opcode begins with two registers, the copies of the stack pointers. -/
theorem Accounts.enterKeep (h : Accounts [] g) :
    Accounts [g.shadowReg .rst, g.shadowReg .wst] g.enterKeep := by
  have hone := h.allocReg (by simp)
  have htwo := hone.allocReg (by simp)
  have hshadow : Accounts [g.shadowReg .rst, g.shadowReg .wst] g.shadowPointers := by
    rw [shadowPointers_eq]
    exact htwo.congr rfl rfl rfl
  exact hshadow.flush _

/-- **Beginning an opcode.** -/
theorem Fit.beginOpcode (h : Fit g) (op : Byte) : ∃ held, held.length ≤ 2 ∧
    Accounts held (g.beginOpcode op) := by
  have hbooks : Accounts [] { g.retained with currentOpcode := op } := h.retained.congr rfl rfl rfl
  rw [beginOpcode_eq]
  split
  · exact ⟨_, le_rfl, hbooks.enterKeep⟩
  · exact ⟨[], Nat.zero_le _, h.retained.congr rfl rfl rfl⟩

end Between

end Gen

/-! ## What an opcode holds -/

def Reg.operand : Reg → List OpReg
  | .op i => [i]
  | _ => []

@[simp] theorem Reg.operand_op (i : OpReg) : (Reg.op i).operand = [i] := rfl

@[simp] theorem Reg.operand_tmp : Reg.tmp.operand = [] := rfl

@[simp] theorem Reg.operand_memBase : Reg.memBase.operand = [] := rfl

def Src.operands : Src → List OpReg
  | .reg r => r.operand
  | _ => []

/-- The operand registers that an instruction reads or writes. -/
def Instr.operands : Instr → List OpReg
  | .op1 _ dst a => dst.operand ++ a.operands
  | .op2 _ dst a b => dst.operand ++ a.operand ++ b.operands
  | .loadU8 r _ | .loadU16 r _ | .storeU8 _ r | .loadVm r _ | .storeVm _ r | .andFlags r _
  | .opFlags r _ | .linkCmp r _ _ => r.operand
  | .subFlags a b => a.operand ++ b.operand
  | .cmpJump _ a b _ => a.operand ++ b.operands
  | .ret a => a.operands
  | _ => []

/-- The popped and allocated operands that a micro operation uses. -/
def Micro.operands : Micro → List OpReg
  | .pushEx operand _ => [operand.reg]
  | .alu a => a.instr.operands
  | .divide c a b => [c, a, b]
  | .load reg addr => [reg, addr.reg]
  | .store addr value | .deviceStore addr value => [addr.reg, value.reg]
  | .callDevice _ addr result => addr :: result.toList
  | .emit i => i.operands
  | _ => []

/-- How many registers a micro operation needs beside the one that it returns. -/
def Micro.scratch : Micro → Option ℕ
  | .popEx flag2 _ => some (if flag2 then 1 else 0)
  | .allocReg | .immediate _ => some 0
  | _ => none

/-- What is held after a micro operation. An inlined opcode may drop everything. -/
def Micro.Holds : (o : Micro) → o.Res → List OpReg → List OpReg → Prop
  | .popEx _ _, operand, held, held' => held' = operand.reg :: held
  | .immediate _, operand, held, held' => held' = operand.reg :: held
  | .allocReg, reg, held, held' => held' = reg :: held
  | .immediateJumpTarget, target, held, held' => target.reg = .tmp ∧ held' = held
  | .nextOpcode, _, _, _ => True
  | _, _, held, held' => held' = held

/-- Operands are held while they are used, and at most five when another register is needed. -/
def holding : Discipline micro (List OpReg) where
  pre o held := o.operands ⊆ held ∧ ∀ n ∈ o.scratch, held.length + n ≤ 5
  post o r held held' := o.Holds r held held'

section Shape

open Emit Prog

variable {held : List OpReg}

/-- An operation that returns a register, or an operand in one. -/
theorem keeps_take {o : Micro} {Q : o.Res → List OpReg → Prop} (reg : o.Res → OpReg)
    (hreg : ∀ r held', o.Holds r held held' → held' = reg r :: held) (hops : o.operands = [])
    (hroom : ∀ n ∈ o.scratch, held.length + n ≤ 5) (hQ : ∀ r, Q r (reg r :: held)) :
    Keeps holding (perform (F := micro) o) Q held := by
  refine ⟨⟨by simp [hops], hroom⟩, fun r held' hheld' => ?_⟩
  rw [hreg r held' hheld']
  exact hQ r

/-- An operation that uses registers only. -/
theorem keeps_use {o : Micro} {Q : o.Res → List OpReg → Prop}
    (hsame : ∀ r held', o.Holds r held held' → held' = held) (hops : o.operands ⊆ held)
    (hroom : o.scratch = none) (hQ : ∀ r, Q r held) :
    Keeps holding (perform (F := micro) o) Q held := by
  refine ⟨⟨hops, by simp [hroom]⟩, fun r held' hheld' => ?_⟩
  rw [hsame r held' hheld']
  exact hQ r

theorem keeps_ask {Q : Ctx → List OpReg → Prop} (hQ : ∀ c, Q c held) : Keeps holding ask Q held :=
  keeps_use (fun _ _ h => h) (List.nil_subset _) rfl hQ

theorem keeps_flag2 {Q : Bool → List OpReg → Prop} (hQ : ∀ b, Q b held) :
    Keeps holding flag2 Q held :=
  (keeps_bind _ _).mpr (keeps_ask fun _ => hQ _)

theorem keeps_cur {Q : Stk → List OpReg → Prop} (hQ : ∀ s, Q s held) : Keeps holding cur Q held :=
  (keeps_bind _ _).mpr (keeps_ask fun _ => hQ _)

variable {Q : Operand OpReg → List OpReg → Prop} {Q' : Unit → List OpReg → Prop}

theorem keeps_popEx {flag2 : Bool} {s : Stk} (hroom : held.length + (if flag2 then 1 else 0) ≤ 5)
    (hQ : ∀ o, Q o (o.reg :: held)) : Keeps holding (popEx flag2 s) Q held :=
  keeps_take Operand.reg (fun _ _ h => h) rfl (by simpa [Micro.scratch] using hroom) hQ

theorem keeps_pop (hroom : held.length ≤ 4) (hQ : ∀ o, Q o (o.reg :: held)) :
    Keeps holding pop Q held := by
  refine (keeps_bind _ _).mpr (keeps_flag2 fun b => ?_)
  refine (keeps_bind _ _).mpr (keeps_cur fun s => keeps_popEx ?_ hQ)
  split <;> omega

theorem keeps_popByte (hroom : held.length ≤ 5) (hQ : ∀ o, Q o (o.reg :: held)) :
    Keeps holding popByte Q held :=
  (keeps_bind _ _).mpr (keeps_cur fun _ => keeps_popEx hroom hQ)

theorem keeps_allocReg {Q : OpReg → List OpReg → Prop} (hroom : held.length ≤ 5)
    (hQ : ∀ r, Q r (r :: held)) : Keeps holding allocReg Q held :=
  keeps_take (fun r => r) (fun _ _ h => h) rfl (by simpa [Micro.scratch] using hroom) hQ

theorem keeps_alu {a : Alu} (ha : a.instr.operands ⊆ held) (hQ : ∀ r, Q' r held) :
    Keeps holding (alu a) Q' held :=
  keeps_use (fun _ _ h => h) ha rfl hQ

theorem keeps_wrapAround {r : OpReg} (hr : r ∈ held) (hQ : ∀ r, Q' r held) :
    Keeps holding (wrapAround r) Q' held := by
  refine (keeps_bind _ _).mpr (keeps_flag2 fun b => keeps_alu ?_ hQ)
  simpa [Alu.instr, Data.reg, DataSrc.src, Instr.operands, Src.operands] using hr

theorem keeps_pushEx {o : Operand OpReg} {s : Stk} (ho : o.reg ∈ held) (hQ : ∀ r, Q' r held) :
    Keeps holding (pushEx o s) Q' held :=
  keeps_use (fun _ _ h => h) (by simpa [Micro.operands] using ho) rfl hQ

theorem keeps_push {o : Operand OpReg} (ho : o.reg ∈ held) (hQ : ∀ r, Q' r held) :
    Keeps holding (push o) Q' held :=
  (keeps_bind _ _).mpr (keeps_cur fun _ => keeps_pushEx ho hQ)

theorem keeps_POP (hQ : ∀ r, Q' r held) : Keeps holding POP Q' held := by
  refine (keeps_bind _ _).mpr (keeps_ask fun c => (keeps_ite _ _ _).mpr ⟨fun _ => hQ (), fun _ => ?_⟩)
  refine (keeps_bind _ _).mpr (keeps_flag2 fun b => (keeps_bind _ _).mpr (keeps_cur fun s => ?_))
  exact keeps_use (fun _ _ h => h) (List.nil_subset _) rfl hQ

theorem keeps_relative {addr : Operand OpReg} (ha : addr.reg ∈ held)
    (hQ : ∀ o : Operand OpReg, o.reg = addr.reg → Q o held) :
    Keeps holding (relative addr) Q held := by
  have hsub : ∀ i : Instr, i.operands ⊆ [addr.reg] → i.operands ⊆ held := fun i hi r hr => by
    rwa [List.mem_singleton.mp (hi hr)]
  refine (keeps_bind _ _).mpr (keeps_ask fun c => ?_)
  refine (keeps_bind _ _).mpr (keeps_alu (hsub _ ?_) fun _ => ?_)
  · simp [Alu.instr, Data.reg, DataSrc.src, Instr.operands, Src.operands]
  refine (keeps_bind _ _).mpr (keeps_alu (hsub _ ?_) fun _ => hQ _ rfl)
  simp [Alu.instr, Data.reg, DataSrc.src, Instr.operands, Src.operands]

theorem keeps_loadPush {addr : Operand OpReg} (ha : addr.reg ∈ held) (hroom : held.length ≤ 5)
    (hQ : ∀ r held, Q' r held) : Keeps holding (loadPush addr) Q' held := by
  refine (keeps_bind _ _).mpr (keeps_allocReg hroom fun r => (keeps_bind _ _).mpr ?_)
  refine keeps_use (fun _ _ h => h) (by simp [Micro.operands, ha]) rfl fun _ => ?_
  exact (keeps_bind _ _).mpr (keeps_flag2 fun b => keeps_push (by simp) fun _ => hQ _ _)

theorem keeps_store {addr value : Operand OpReg} (ha : addr.reg ∈ held) (hv : value.reg ∈ held)
    (hQ : ∀ r, Q' r held) :
    Keeps holding (perform (F := micro) (.store addr value)) Q' held :=
  keeps_use (fun _ _ h => h) (by simp [Micro.operands, ha, hv]) rfl hQ

theorem keeps_divide {c a b : OpReg} (hc : c ∈ held) (ha : a ∈ held) (hb : b ∈ held)
    (hQ : ∀ r, Q' r held) : Keeps holding (perform (F := micro) (.divide c a b)) Q' held :=
  keeps_use (fun _ _ h => h) (by simp [Micro.operands, hc, ha, hb]) rfl hQ

theorem keeps_immediate {isShort : Bool} (hroom : held.length ≤ 5)
    (hQ : ∀ o, Q o (o.reg :: held)) :
    Keeps holding (perform (F := micro) (.immediate isShort)) Q held :=
  keeps_take Operand.reg (fun _ _ h => h) rfl (by simpa [Micro.scratch] using hroom) hQ

/-- **Straight-line opcodes hold what they use**, and never more than they may. -/
theorem keeps_straight {mn : Mnemonic} (hmn : mn.straight) (hheld : held.length ≤ 2) :
    Keeps holding (dispatch mn) (fun _ _ => True) held := by
  cases mn
  all_goals first
    | simp [Mnemonic.straight] at hmn; done
    | skip
  all_goals
    simp only [dispatch, LIT, INC, NIP, SWP, ROT, DUP, OVR, EQU, NEQ, GTH, LTH, STH, LDZ, STZ,
      LDR, STR, LDA, STA, ADD, SUB, MUL, DIV, AND, ORA, EOR, SFT, arith, compareOp, keeps_bind,
      if_true, Bool.false_eq_true, if_false]
    repeat' with_reducible first
      | apply keeps_pop
      | apply keeps_popByte
      | apply keeps_popEx
      | apply keeps_push
      | apply keeps_pushEx
      | apply keeps_allocReg
      | apply keeps_alu
      | apply keeps_wrapAround
      | apply keeps_flag2
      | apply keeps_cur
      | apply keeps_ask
      | apply keeps_POP
      | apply keeps_relative
      | apply keeps_loadPush
      | apply keeps_store
      | apply keeps_divide
      | apply keeps_immediate
      | intro _
      | exact trivial
      | split
  all_goals first
    | omega
    | simp only [List.length_cons]; omega
    | simp [*, result, Alu.instr, Data.reg, DataSrc.src, Instr.operands, Src.operands]

/-! ### Jumps -/

/-- An operation that needs no registers. -/
theorem keeps_idle {o : Micro} {Q : o.Res → List OpReg → Prop} (hops : o.operands = [])
    (hroom : o.scratch = none) (hQ : ∀ r held, Q r held) :
    Keeps holding (perform (F := micro) o) Q held :=
  ⟨⟨by simp [hops], by simp [hroom]⟩, fun r held' _ => hQ r held'⟩

theorem keeps_newLabel {Q : Label → List OpReg → Prop} (hQ : ∀ l, Q l held) :
    Keeps holding newLabel Q held :=
  keeps_use (fun _ _ h => h) (List.nil_subset _) rfl hQ

theorem keeps_clear (hQ : ∀ r, Q' r held) : Keeps holding clearStackCaches Q' held :=
  keeps_use (fun _ _ h => h) (List.nil_subset _) rfl hQ

theorem keeps_emit {i : Instr} (hi : i.operands ⊆ held) (hQ : ∀ r, Q' r held) :
    Keeps holding (emit i) Q' held :=
  keeps_use (fun _ _ h => h) hi rfl hQ

theorem keeps_jumpAbs {target : Operand Reg} {returnAddr : Short}
    (htarget : target.reg.operand ⊆ held) :
    Keeps holding (jumpAbs target returnAddr) (fun _ held' => held' = held) held := by
  simp [jumpAbs, Keeps, keeps_ite, holding, Micro.operands, Micro.scratch, Micro.Holds,
    Instr.operands, Src.operands, htarget, newLabel, emit, perform, Prog.bind, bind_eq]

/-- What a jump holds at the end is unknown: it may have inlined an opcode. -/
theorem keeps_jump {target : Operand Reg} {returnAddr : Short}
    (htarget : target.reg.operand ⊆ held) (hQ : ∀ r held, Q' r held) :
    Keeps holding (jump target returnAddr) Q' held := by
  refine (keeps_bind _ _).mpr (keeps_clear fun _ => ?_)
  split
  · exact (keeps_jumpAbs htarget).mono fun _ _ _ => hQ _ _
  split
  · refine (keeps_bind _ _).mpr (keeps_ask fun c => ?_)
    refine (keeps_bind _ _).mpr (keeps_newLabel fun l => ?_)
    refine (keeps_bind _ _).mpr (keeps_emit ?_ fun _ => ?_)
    · simpa [Instr.operands, Src.operands] using htarget
    refine (keeps_bind _ _).mpr (keeps_idle rfl rfl fun _ held => ?_)
    refine (keeps_bind _ _).mpr (keeps_idle rfl rfl fun _ held => ?_)
    refine (keeps_bind _ _).mpr (keeps_idle rfl rfl fun _ held => ?_)
    exact keeps_idle rfl rfl fun _ held => hQ _ held
  · refine (keeps_bind _ _).mpr (keeps_ask fun c => ?_)
    refine (keeps_bind _ _).mpr (keeps_emit ?_ fun _ => ?_)
    · simpa [Instr.operands, Src.operands] using htarget
    refine (keeps_bind _ _).mpr (keeps_emit ?_ fun _ => ?_)
    · simpa [Instr.operands, Src.operands] using htarget
    exact Keeps.mono (keeps_jumpAbs htarget) fun _ _ _ => hQ _ _

theorem keeps_conditionalJump {condition : Operand OpReg} {target : Operand Reg}
    (hcondition : condition.reg ∈ held) (htarget : target.reg.operand ⊆ held) :
    Keeps holding (conditionalJump condition target) (fun _ _ => True) held := by
  refine (keeps_bind _ _).mpr (keeps_clear fun _ => ?_)
  refine (keeps_bind _ _).mpr (keeps_emit ?_ fun _ => ?_)
  · simpa [Instr.operands] using hcondition
  refine (keeps_bind _ _).mpr (keeps_newLabel fun l => ?_)
  refine (keeps_bind _ _).mpr (keeps_emit (List.nil_subset _) fun _ => ?_)
  refine (keeps_bind _ _).mpr (keeps_jump htarget fun _ held => ?_)
  exact keeps_idle rfl rfl fun _ _ => trivial

theorem keeps_callTo {target : Operand Reg} {s : Stk} (hroom : held.length ≤ 5)
    (htarget : target.reg.operand ⊆ held) :
    Keeps holding (callTo target s) (fun _ _ => True) held := by
  refine (keeps_bind _ _).mpr (keeps_allocReg hroom fun r => ?_)
  refine (keeps_bind _ _).mpr (keeps_ask fun c => ?_)
  refine (keeps_bind _ _).mpr (keeps_alu ?_ fun _ => ?_)
  · simp [Alu.instr, Data.reg, DataSrc.src, Instr.operands, Src.operands]
  refine (keeps_bind _ _).mpr (keeps_pushEx List.mem_cons_self fun _ => ?_)
  refine (keeps_bind _ _).mpr (keeps_ask fun c => ?_)
  exact keeps_jump (List.subset_cons_of_subset r htarget) fun _ _ => trivial

theorem keeps_immediateJumpTarget {Q : Operand Reg → List OpReg → Prop}
    (hQ : ∀ o : Operand Reg, o.reg = .tmp → Q o held) :
    Keeps holding immediateJumpTarget Q held := by
  refine ⟨⟨List.nil_subset _, by simp [Micro.scratch]⟩, ?_⟩
  rintro o held' ⟨ho, rfl⟩
  exact hQ o ho

/-- **Every opcode holds what it uses**, and never more than it may. -/
theorem keeps_dispatch (mn : Mnemonic) (hheld : held.length ≤ 2) :
    Keeps holding (dispatch mn) (fun _ _ => True) held := by
  by_cases hmn : mn.straight
  · exact keeps_straight hmn hheld
  cases mn
  all_goals first
    | exact absurd rfl hmn
    | simp only [dispatch, BRK, JMP, JCN, JSR, JCI, JMI, JSI, DEI, DEO, finalize, keeps_bind]
  case BRK =>
    apply keeps_clear
    intro _
    apply keeps_emit (List.nil_subset _)
    intro _
    exact keeps_idle rfl rfl fun _ _ => trivial
  case JCI =>
    apply keeps_popEx (by simp; omega)
    intro o
    apply keeps_immediateJumpTarget
    intro t ht
    exact keeps_conditionalJump List.mem_cons_self (by simp [ht])
  case JMI =>
    apply keeps_immediateJumpTarget
    intro t ht
    apply keeps_jump (by simp [ht])
    intro _ held
    exact keeps_idle rfl rfl fun _ _ => trivial
  case JSI =>
    apply keeps_immediateJumpTarget
    intro t ht
    exact keeps_callTo (by omega) (by simp [ht])
  case JMP =>
    apply keeps_pop (by omega)
    intro o
    apply keeps_jump (by simp [target])
    intro _ held
    split
    · exact keeps_idle rfl rfl fun _ _ => trivial
    · trivial
  case JCN =>
    apply keeps_pop (by omega)
    intro o
    apply keeps_popByte (by simp; omega)
    intro c
    exact keeps_conditionalJump List.mem_cons_self (by simp [target])
  case JSR =>
    apply keeps_pop (by omega)
    intro o
    apply keeps_cur
    intro s
    exact keeps_callTo (by simp; omega) (by simp [target])
  case DEI =>
    apply keeps_popByte (by omega)
    intro addr
    apply keeps_flag2
    intro b
    apply keeps_allocReg (by simp; omega)
    intro r
    apply keeps_clear
    intro _
    refine keeps_use (fun _ _ h => h) (by simp [Micro.operands]) rfl fun _ => ?_
    exact keeps_push List.mem_cons_self fun _ => trivial
  case DEO =>
    apply keeps_popByte (by omega)
    intro addr
    apply keeps_pop (by simp; omega)
    intro value
    refine keeps_use (fun _ _ h => h) (by simp [Micro.operands]) rfl fun _ => ?_
    apply keeps_clear
    intro _
    exact keeps_use (fun _ _ h => h) (by simp [Micro.operands]) rfl fun _ => trivial

end Shape

/-! ## Every step of a compilation -/

namespace Gen.Accounts

variable {held : List OpReg} {g : Gen}

/-- Code that leaves registers and caches alone. -/
theorem load (h : Accounts held g) (reg : OpReg) (addr : Operand OpReg) :
    Accounts held (g.load reg addr) := by
  unfold Gen.load
  simp only
  split
  · exact (((((((h.setMemBase _).emit _).emit _).emit _).emit _).emit _).emit _).emit _
  · exact ((h.setMemBase _).emit _).emit _

theorem store (h : Accounts held g) (addr value : Operand OpReg) :
    Accounts held (g.store addr value) := by
  unfold Gen.store
  simp only
  split
  · exact ((((((h.setMemBase _).emit _).emit _).emit _).emit _).emit _).emit _
  · exact ((h.setMemBase _).emit _).emit _

theorem deviceStore (h : Accounts held g) (addr value : Operand OpReg) :
    Accounts held (g.deviceStore addr value) := by
  unfold Gen.deviceStore
  simp only
  split
  · exact ((((((h.setMemBase _).emit _).emit _).emit _).emit _).emit _).emit _
  · exact ((h.setMemBase _).emit _).emit _

theorem immediate (h : Accounts held g) (reg : OpReg) (isShort : Bool) (pc : Short) :
    Accounts held (g.immediate reg isShort pc) := by
  unfold Gen.immediate
  simp only
  split
  · split
    · exact (((h.setMemBase _).emit _).emit _).emit _
    · exact ((((((h.setMemBase _).emit _).emit _).emit _).emit _).emit _).emit _
  · exact ((h.setMemBase _).emit _).emit _

theorem divide (h : Accounts held g) (c a b : OpReg) : Accounts held (g.divide c a b) :=
  h.congr (by simp) (by simp) (by simp [Gen.divide])

theorem callDevice (h : Accounts held g) (helper : Helper) (addr : OpReg) (result : Option OpReg) :
    Accounts held (g.callDevice helper addr result) := by
  cases result <;> exact h.congr rfl rfl rfl

theorem clear (h : Accounts held g) : Accounts held g.clearStackCaches :=
  h.spills g.spills_clearStackCaches

end Gen.Accounts

/-- The registers held by the opcode that is being compiled are accounted for. -/
def Ctx.Accounts (held : List OpReg) (c : Ctx) : Prop := Gen.Accounts held c.toGen

theorem handle_holding {next : Ctx → Ctx}
    (hnext : ∀ held (c : Ctx), c.Accounts held → ∃ held', (next c).Accounts held') (o : Micro)
    (held : List OpReg) (c : Ctx) (hpre : holding.pre o held) (h : c.Accounts held) :
    ∃ held', holding.post o (handle next o c).1 held held' ∧ (handle next o c).2.Accounts held' := by
  obtain ⟨hops, hroom⟩ := hpre
  cases o with
  | popEx flag2 s =>
    have hpop := Gen.Accounts.stackCachePop h (hroom _ rfl) s
    refine ⟨_, rfl, ?_⟩
    rw [Ctx.Accounts, handle, Ctx.popEx_toGen, Ctx.popEx_reg]
    exact hpop
  | pushEx operand s =>
    refine ⟨held, rfl, ?_⟩
    rw [Ctx.Accounts, handle, Ctx.pushEx_toGen]
    exact Gen.Accounts.pushEx h (hops List.mem_cons_self) s
  | discard flag2 s => exact ⟨held, rfl, Gen.Accounts.stackCacheDiscard h flag2 s⟩
  | allocReg => exact ⟨_, rfl, Gen.Accounts.allocReg h (hroom 0 rfl)⟩
  | immediate isShort =>
    refine ⟨_, rfl, ?_⟩
    exact (Gen.Accounts.allocReg h (hroom 0 rfl)).immediate _ _ _
  | divide r a b => exact ⟨held, rfl, Gen.Accounts.divide h r a b⟩
  | load reg addr => exact ⟨held, rfl, Gen.Accounts.load h reg addr⟩
  | store addr value => exact ⟨held, rfl, Gen.Accounts.store h addr value⟩
  | deviceStore addr value => exact ⟨held, rfl, Gen.Accounts.deviceStore h addr value⟩
  | callDevice helper addr result => exact ⟨held, rfl, Gen.Accounts.callDevice h helper addr result⟩
  | clearStackCaches => exact ⟨held, rfl, Gen.Accounts.clear h⟩
  | nextOpcode =>
    obtain ⟨held', h'⟩ := hnext held c h
    exact ⟨held', trivial, h'⟩
  | immediateJumpTarget => exact ⟨held, ⟨rfl, rfl⟩, h.congr rfl rfl rfl⟩
  | _ => exact ⟨held, rfl, h.congr rfl rfl rfl⟩

/-- What holds before every micro operation: all registers are accounted for, those that it uses are
held, and no assertion has failed. -/
def Micro.Accounted (o : Micro) (c : Ctx) : Prop := ∃ held, o.operands ⊆ held ∧ c.Accounts held

/-- **An opcode keeps the accounts**, and so do those inlined in it. -/
theorem accounts_nextOpcode (fuel : ℕ) (held : List OpReg) (c : Ctx) (h : c.Accounts held) :
    AlongOpcode (fun _ => Micro.Accounted) fuel c ∧
      ∃ held', (nextOpcode fuel c).Accounts held' := by
  induction fuel generalizing held c with
  | zero => exact ⟨trivial, held, h⟩
  | succ fuel ih =>
    rw [AlongOpcode, nextOpcode]
    split
    next hzero =>
      exact ⟨.inl hzero, held, (Gen.Accounts.clear h).emit _⟩
    next hpc =>
      obtain ⟨held₀, hlen, hbegin⟩ := (Gen.Accounts.fit h).beginOpcode (c.jit.memory c.pc)
      have hbegin' : c.beginOpcode.Accounts held₀ := hbegin
      simp only [Ctx.beginOpcode_currentOpcode]
      obtain ⟨halong, held', -, hend⟩ := Prog.run_keeps
        (fun o held c _ => handle_holding (fun held c h => (ih held c h).2) o held c)
        (keeps_dispatch (decode (c.jit.memory c.pc)) hlen)
        (Prog.along_of_forall fun _ _ => trivial) hbegin'
      refine ⟨.inr (halong.mono fun o c' hc' => ?_), held', hend⟩
      obtain ⟨held₁, hpre, hc'⟩ := hc'
      exact ⟨⟨held₁, hpre.1, hc'⟩, fun _ => (ih held₁ c' hc').1⟩

theorem accounts_block (fuel n : ℕ) (held : List OpReg) (c : Ctx) (h : c.Accounts held) :
    AlongBlock (fun _ => Micro.Accounted) fuel n c ∧
      ∃ held', (c.compileBlock fuel n).Accounts held' := by
  induction n generalizing held c with
  | zero => exact ⟨trivial, held, h⟩
  | succ n ih =>
    rw [AlongBlock, Ctx.compileBlock]
    split
    next hdone => exact ⟨.inl hdone, held, h⟩
    · obtain ⟨halong, held', hnext⟩ := accounts_nextOpcode fuel held c h
      obtain ⟨hrest, hend⟩ := ih held' _ hnext
      exact ⟨.inr ⟨halong, hrest⟩, hend⟩

/-- ROT2 in keep mode on two bytes and two shorts: its third operand is joined from the bytes. -/
def joinedRot : List Byte :=
  [0x80, 0x01, 0x80, 0x02, 0xa0, 0x03, 0x04, 0xa0, 0x05, 0x06, 0xa5, 0x00]

end BuxnJit
