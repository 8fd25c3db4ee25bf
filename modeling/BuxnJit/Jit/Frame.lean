import BuxnJit.Jit.Opcodes
import Mathlib.Logic.Relation

/-!
# What the code generator leaves alone

Simp lemmas on the fields that the functions of `Gen` do not touch, and two relations that say
what these functions can do:

* `Emits Q g g'`: `g'` comes from `g` by emitting instructions that `Q` allows, choosing memory
  bases, and bookkeeping on registers and caches;
* `Spills g g'`: `g'` comes from `g` by spilling cells.

An allocation spills until a register is free (`allocReg_spec`), and clearing the caches spills
all cells (`spills_clear`), so that what one spill preserves both preserve.
-/

namespace BuxnJit

namespace Gen

variable (g : Gen) (s : Stk)

/-! ## Single steps -/

section Fields

variable (i : Instr) (cs : List Cell) (b : Bool) (r : OpReg)

@[simp] theorem emit_currentOpcode : (g.emit i).currentOpcode = g.currentOpcode := rfl
@[simp] theorem emit_memBase : (g.emit i).memBase = g.memBase := rfl
@[simp] theorem emit_spReg : (g.emit i).spReg = g.spReg := rfl
@[simp] theorem emit_refCounts : (g.emit i).refCounts = g.refCounts := rfl
@[simp] theorem emit_cache : (g.emit i).cache = g.cache := rfl
@[simp] theorem emit_labels : (g.emit i).labels = g.labels := rfl
@[simp] theorem emit_code : (g.emit i).code = i :: g.code := rfl
@[simp] theorem emit_failed : (g.emit i).failed = g.failed := rfl

@[simp] theorem setCache_currentOpcode : (g.setCache s cs).currentOpcode = g.currentOpcode := rfl
@[simp] theorem setCache_memBase : (g.setCache s cs).memBase = g.memBase := rfl
@[simp] theorem setCache_spReg : (g.setCache s cs).spReg = g.spReg := rfl
@[simp] theorem setCache_refCounts : (g.setCache s cs).refCounts = g.refCounts := rfl
@[simp] theorem setCache_labels : (g.setCache s cs).labels = g.labels := rfl
@[simp] theorem setCache_code : (g.setCache s cs).code = g.code := rfl
@[simp] theorem setCache_failed : (g.setCache s cs).failed = g.failed := rfl

@[simp] theorem setCache_cache_self : (g.setCache s cs).cache s = cs :=
  Function.update_self ..

@[simp] theorem setCache_cache_of_ne {s' : Stk} (h : s' ≠ s) :
    (g.setCache s cs).cache s' = g.cache s' := Function.update_of_ne h ..

@[simp] theorem assert_currentOpcode : (g.assert b).currentOpcode = g.currentOpcode := rfl
@[simp] theorem assert_memBase : (g.assert b).memBase = g.memBase := rfl
@[simp] theorem assert_spReg : (g.assert b).spReg = g.spReg := rfl
@[simp] theorem assert_refCounts : (g.assert b).refCounts = g.refCounts := rfl
@[simp] theorem assert_cache : (g.assert b).cache = g.cache := rfl
@[simp] theorem assert_labels : (g.assert b).labels = g.labels := rfl
@[simp] theorem assert_code : (g.assert b).code = g.code := rfl

@[simp] theorem retainReg_currentOpcode : (g.retainReg r).currentOpcode = g.currentOpcode := rfl
@[simp] theorem retainReg_memBase : (g.retainReg r).memBase = g.memBase := rfl
@[simp] theorem retainReg_spReg : (g.retainReg r).spReg = g.spReg := rfl
@[simp] theorem retainReg_cache : (g.retainReg r).cache = g.cache := rfl
@[simp] theorem retainReg_labels : (g.retainReg r).labels = g.labels := rfl
@[simp] theorem retainReg_code : (g.retainReg r).code = g.code := rfl
@[simp] theorem retainReg_failed : (g.retainReg r).failed = g.failed := rfl

@[simp] theorem releaseReg_currentOpcode : (g.releaseReg r).currentOpcode = g.currentOpcode := rfl
@[simp] theorem releaseReg_memBase : (g.releaseReg r).memBase = g.memBase := rfl
@[simp] theorem releaseReg_spReg : (g.releaseReg r).spReg = g.spReg := rfl
@[simp] theorem releaseReg_cache : (g.releaseReg r).cache = g.cache := rfl
@[simp] theorem releaseReg_labels : (g.releaseReg r).labels = g.labels := rfl
@[simp] theorem releaseReg_code : (g.releaseReg r).code = g.code := rfl

end Fields

theorem cur_eq_of_currentOpcode {g g' : Gen} (h : g.currentOpcode = g'.currentOpcode) :
    g.cur = g'.cur := by
  rw [cur, cur, h]

section Writing

variable (r : Region) (o : Operand OpReg) (c : Cell) (cs : List Cell)

@[simp] theorem setMemBase_memBase : (g.setMemBase r).memBase = some r := by
  unfold setMemBase
  split <;> simp [*]

@[simp] theorem setMemBase_currentOpcode : (g.setMemBase r).currentOpcode = g.currentOpcode := by
  unfold setMemBase
  split <;> rfl

@[simp] theorem setMemBase_spReg : (g.setMemBase r).spReg = g.spReg := by
  unfold setMemBase
  split <;> rfl

@[simp] theorem setMemBase_refCounts : (g.setMemBase r).refCounts = g.refCounts := by
  unfold setMemBase
  split <;> rfl

@[simp] theorem setMemBase_cache : (g.setMemBase r).cache = g.cache := by
  unfold setMemBase
  split <;> rfl

@[simp] theorem setMemBase_labels : (g.setMemBase r).labels = g.labels := by
  unfold setMemBase
  split <;> rfl

@[simp] theorem setMemBase_failed : (g.setMemBase r).failed = g.failed := by
  unfold setMemBase
  split <;> rfl

@[simp] theorem doPush_memBase : (g.doPush o s).memBase = some s.region := by
  unfold doPush
  split <;> simp

@[simp] theorem doPush_currentOpcode : (g.doPush o s).currentOpcode = g.currentOpcode := by
  unfold doPush
  split <;> simp

@[simp] theorem doPush_spReg : (g.doPush o s).spReg = g.spReg := by
  unfold doPush
  split <;> simp

@[simp] theorem doPush_refCounts : (g.doPush o s).refCounts = g.refCounts := by
  unfold doPush
  split <;> simp

@[simp] theorem doPush_cache : (g.doPush o s).cache = g.cache := by
  unfold doPush
  split <;> simp

@[simp] theorem doPush_failed : (g.doPush o s).failed = g.failed := by
  unfold doPush
  split <;> simp

@[simp] theorem flushCell_currentOpcode : (g.flushCell c s).currentOpcode = g.currentOpcode := by
  unfold flushCell
  split <;> simp

@[simp] theorem flushCell_spReg : (g.flushCell c s).spReg = g.spReg := by
  unfold flushCell
  split <;> simp

@[simp] theorem flushCell_refCounts : (g.flushCell c s).refCounts = g.refCounts := by
  unfold flushCell
  split <;> simp

@[simp] theorem flushCell_cache : (g.flushCell c s).cache = g.cache := by
  unfold flushCell
  split <;> simp

@[simp] theorem flushCell_failed : (g.flushCell c s).failed = g.failed := by
  unfold flushCell
  split <;> simp

@[simp] theorem spillCell_currentOpcode :
    (g.spillCell s c cs).currentOpcode = g.currentOpcode := by
  simp [spillCell]

@[simp] theorem spillCell_spReg : (g.spillCell s c cs).spReg = g.spReg := by
  simp [spillCell]

@[simp] theorem spillCell_cache_self : (g.spillCell s c cs).cache s = cs := by
  simp [spillCell]

@[simp] theorem spillCell_cache_of_ne {s' : Stk} (h : s' ≠ s) :
    (g.spillCell s c cs).cache s' = g.cache s' := by
  simp [spillCell, h]

theorem spillCell_memBase :
    (g.spillCell s c cs).memBase = if c.needFlush then some s.region else g.memBase := by
  simp only [spillCell, setCache_memBase, releaseReg_memBase, flushCell]
  split <;> simp

@[simp] theorem spillCell_refCounts : (g.spillCell s c cs).refCounts =
    Function.update g.refCounts c.value.reg (g.refCounts c.value.reg - 1) := by
  simp [spillCell, releaseReg]

end Writing

/-! ## Elementary changes -/

/-- Nothing but registers and caches differs. -/
structure SameCode (g g' : Gen) : Prop where
  currentOpcode : g'.currentOpcode = g.currentOpcode
  spReg : g'.spReg = g.spReg
  memBase : g'.memBase = g.memBase
  labels : g'.labels = g.labels
  code : g'.code = g.code

/-- The elementary changes that code generation is made of, where `Q` tells which instructions
may be emitted. -/
inductive Change (Q : Gen → Instr → Prop) : Gen → Gen → Prop
  | emit {g : Gen} {i : Instr} (h : Q g i) : Change Q g (g.emit i)
  | setMemBase {g : Gen} (r : Region) : Change Q g (g.setMemBase r)
  | books {g g' : Gen} (h : SameCode g g') : Change Q g g'

/-- Any number of elementary changes. -/
abbrev Emits (Q : Gen → Instr → Prop) : Gen → Gen → Prop := Relation.ReflTransGen (Change Q)

namespace Emits

variable {Q Q' : Gen → Instr → Prop} {g g' g'' : Gen} {i : Instr}

theorem emit (h : Emits Q g g') (hQ : Q g' i) : Emits Q g (g'.emit i) := h.tail (.emit hQ)

theorem setMemBase (h : Emits Q g g') (r : Region) : Emits Q g (g'.setMemBase r) :=
  h.tail (.setMemBase r)

theorem books (h : Emits Q g g') (hs : SameCode g' g'') : Emits Q g g'' := h.tail (.books hs)

theorem setCache (h : Emits Q g g') (s : Stk) (cs : List Cell) : Emits Q g (g'.setCache s cs) :=
  h.books ⟨rfl, rfl, rfl, rfl, rfl⟩

theorem assert (h : Emits Q g g') (b : Bool) : Emits Q g (g'.assert b) :=
  h.books ⟨rfl, rfl, rfl, rfl, rfl⟩

theorem retainReg (h : Emits Q g g') (r : OpReg) : Emits Q g (g'.retainReg r) :=
  h.books ⟨rfl, rfl, rfl, rfl, rfl⟩

theorem releaseReg (h : Emits Q g g') (r : OpReg) : Emits Q g (g'.releaseReg r) :=
  h.books ⟨rfl, rfl, rfl, rfl, rfl⟩

theorem mono (hQ : ∀ g i, Q g i → Q' g i) (h : Emits Q g g') : Emits Q' g g' := by
  induction h with
  | refl => exact .refl
  | tail _ hc ih =>
    refine ih.tail ?_
    cases hc with
    | emit h => exact .emit (hQ _ _ h)
    | setMemBase r => exact .setMemBase r
    | books h => exact .books h

/-- What every elementary change preserves. -/
theorem preserves {I : Gen → Prop} (hI : ∀ g g', Change Q g g' → I g → I g') (h : Emits Q g g')
    (hg : I g) : I g' := by
  induction h with
  | refl => exact hg
  | tail _ hc ih => exact hI _ _ hc ih

theorem currentOpcode (h : Emits Q g g') : g'.currentOpcode = g.currentOpcode := by
  refine h.preserves (I := fun x => x.currentOpcode = g.currentOpcode) ?_ rfl
  intro a b hab ha
  cases hab with
  | emit _ => exact ha
  | setMemBase r => rw [setMemBase_currentOpcode, ha]
  | books hs => rw [hs.currentOpcode, ha]

theorem spReg (h : Emits Q g g') : g'.spReg = g.spReg := by
  refine h.preserves (I := fun x => x.spReg = g.spReg) ?_ rfl
  intro a b hab ha
  cases hab with
  | emit _ => exact ha
  | setMemBase r => rw [setMemBase_spReg, ha]
  | books hs => rw [hs.spReg, ha]

theorem cur (h : Emits Q g g') : g'.cur = g.cur := cur_eq_of_currentOpcode h.currentOpcode

end Emits

end Gen

/-! ## Aimed instructions -/

/-- A local instruction whose access, if it makes one, is to the tracked base. -/
structure Aimed (g : Gen) (i : Instr) : Prop extends i.Local where
  meant : ∀ r, i.meant = some r → g.memBase = some r

/-! ## What the functions emit -/

namespace Gen

theorem aimed_iff {g : Gen} {i : Instr} : Aimed g i ↔ i.control = false ∧
    i.dst ≠ some .memBase ∧ i.dst ≠ some .vm ∧ ∀ r, i.meant = some r → g.memBase = some r :=
  ⟨fun h => ⟨h.control, h.base, h.vm, h.meant⟩, fun h => ⟨⟨h.1, h.2.1, h.2.2.1⟩, h.2.2.2⟩⟩

variable (g : Gen) (s : Stk)

theorem emits_doPush (o : Operand OpReg) : Emits Aimed g (g.doPush o s) := by
  have h₀ : Emits Aimed g (g.setMemBase s.region) := Emits.setMemBase .refl _
  unfold doPush
  split
  · refine ((((((((h₀.emit ?_).emit ?_).emit ?_).emit ?_).emit ?_).emit ?_).emit ?_).emit ?_) <;>
      simp [aimed_iff]
  · refine (((h₀.emit ?_).emit ?_).emit ?_) <;> simp [aimed_iff]

theorem emits_flushCell (c : Cell) : Emits Aimed g (g.flushCell c s) := by
  unfold flushCell
  split
  · exact g.emits_doPush s c.value
  · exact .refl

theorem emits_spillCell (c : Cell) (cs : List Cell) : Emits Aimed g (g.spillCell s c cs) :=
  ((g.emits_flushCell s c).releaseReg _).setCache s cs

/-! ## Spilling -/

/-- One cell is spilled. -/
inductive Spill : Gen → Gen → Prop
  | cell {g : Gen} {s : Stk} {c : Cell} {cs : List Cell} (h : g.cache s = c :: cs) :
    Spill g (g.spillCell s c cs)

/-- Any number of cells are spilled. -/
abbrev Spills : Gen → Gen → Prop := Relation.ReflTransGen Spill

/-- **The spilling rule.** What spilling the deepest cell of a cache preserves, spilling does. -/
theorem Spills.preserves {I : Gen → Prop} {g g' : Gen}
    (hI : ∀ g s c cs, g.cache s = c :: cs → I g → I (g.spillCell s c cs)) (h : Spills g g')
    (hg : I g) : I g' := by
  induction h with
  | refl => exact hg
  | tail _ hs ih =>
    obtain ⟨hc⟩ := hs
    exact hI _ _ _ _ hc ih

theorem Spills.emits {g g' : Gen} (h : Spills g g') : Emits Aimed g g' :=
  h.preserves (I := Emits Aimed g) (fun g s c cs _ hg => hg.trans (g.emits_spillCell s c cs)) .refl

theorem stackCacheSpill_eq {c : Cell} {cs : List Cell} (h : g.cache s = c :: cs) :
    g.stackCacheSpill s = (true, g.spillCell s c cs) := by
  simp [stackCacheSpill, h]

theorem stackCacheSpill_nil (h : g.cache s = []) : g.stackCacheSpill s = (false, g) := by
  simp [stackCacheSpill, h]

theorem spills_stackCacheSpill : Spills g (g.stackCacheSpill s).2 := by
  cases h : g.cache s with
  | nil => rw [stackCacheSpill_nil g s h]
  | cons c cs =>
    rw [stackCacheSpill_eq g s h]
    exact .single (.cell h)

/-- One spill makes a cache that is not empty shorter. -/
theorem stackCacheSpill_length (s' : Stk) : ((g.stackCacheSpill s).2.cache s').length =
    (g.cache s').length - if s' = s then 1 else 0 := by
  cases h : g.cache s with
  | nil =>
    rw [stackCacheSpill_nil g s h]
    split <;> simp [*]
  | cons c cs =>
    rw [stackCacheSpill_eq g s h]
    split <;> simp [*]

theorem spills_stackCacheClear : Spills g (g.stackCacheClear s) := by
  unfold stackCacheClear
  generalize (g.cache s).length = n
  induction n generalizing g with
  | zero => exact .refl
  | succ n ih =>
    rw [Function.iterate_succ_apply]
    exact (g.spills_stackCacheSpill s).trans (ih _)

theorem spills_clearStackCaches : Spills g g.clearStackCaches :=
  (g.spills_stackCacheClear .wst).trans (spills_stackCacheClear _ .rst)

/-- Clearing a cache empties it, and leaves the other one alone. -/
theorem stackCacheClear_length (s' : Stk) : ((g.stackCacheClear s).cache s').length =
    if s' = s then 0 else (g.cache s').length := by
  have hiter : ∀ n (g : Gen), (((fun g => (stackCacheSpill s g).2)^[n] g).cache s').length =
      (g.cache s').length - if s' = s then n else 0 := by
    intro n
    induction n with
    | zero => simp
    | succ n ih =>
      intro g
      rw [Function.iterate_succ_apply, ih, stackCacheSpill_length]
      split <;> omega
  rw [stackCacheClear, hiter]
  split
  · simp [*]
  · simp

@[simp] theorem clearStackCaches_cache : g.clearStackCaches.cache s = [] := by
  rw [← List.length_eq_zero_iff, clearStackCaches, stackCacheClear_length, stackCacheClear_length]
  cases s <;> simp

/-- There is nothing to clear in empty caches. -/
theorem clearStackCaches_of_nil (h : ∀ s, g.cache s = []) : g.clearStackCaches = g := by
  have hclear : ∀ s, g.stackCacheClear s = g := fun s => by simp [stackCacheClear, h]
  rw [clearStackCaches, hclear, hclear]

/-! ## Allocation -/

/-- One round of the loop of an allocation: no register is free, and the cell is from the cache of
the current stack unless that is empty. -/
inductive AllocSpill : Gen → Gen → Prop
  | cell {g : Gen} {s : Stk} {c : Cell} {cs : List Cell} (hfree : g.findFreeReg = none)
    (hcur : s = g.cur ∨ g.cache g.cur = []) (h : g.cache s = c :: cs) :
    AllocSpill g (g.spillCell s c cs)

abbrev AllocSpills : Gen → Gen → Prop := Relation.ReflTransGen AllocSpill

theorem AllocSpills.spills {g g' : Gen} (h : AllocSpills g g') : Spills g g' := by
  induction h with
  | refl => exact .refl
  | tail _ hs ih =>
    obtain ⟨-, -, hc⟩ := hs
    exact ih.tail (.cell hc)

/-- With a free register nothing is spilled. -/
theorem AllocSpills.eq_of_free {g g' : Gen} {r : OpReg} (h : AllocSpills g g')
    (hr : g.findFreeReg = some r) : g' = g := by
  rcases Relation.ReflTransGen.cases_head h with rfl | ⟨_, hs, _⟩
  · rfl
  · obtain ⟨hfree, -, -⟩ := hs
    simp [hr] at hfree

theorem allocSpill_spillForReg (hfree : g.findFreeReg = none) (hne : ∃ s, g.cache s ≠ []) :
    AllocSpill g g.spillForReg := by
  unfold spillForReg
  cases h : g.cache g.cur with
  | cons c cs =>
    rw [stackCacheSpill_eq g _ h]
    exact .cell hfree (.inl rfl) h
  | nil =>
    obtain ⟨s', hs'⟩ := hne
    have hother : g.cache g.cur.other ≠ [] := by
      intro hnil
      apply hs'
      cases hcur : g.cur <;> rw [hcur] at h hnil <;> cases s' <;> assumption
    obtain ⟨c, cs, hcs⟩ := List.exists_cons_of_ne_nil hother
    rw [stackCacheSpill_nil g _ h]
    simp only [stackCacheSpill_eq g _ hcs]
    exact .cell hfree (.inr h) hcs

/-- The number of cells in both caches. -/
def numCells : ℕ := (g.cache .wst).length + (g.cache .rst).length

theorem numCells_spillCell {c : Cell} {cs : List Cell} (h : g.cache s = c :: cs) :
    (g.spillCell s c cs).numCells + 1 = g.numCells := by
  cases s <;> simp [numCells, h, Nat.add_right_comm, Nat.add_assoc]

theorem numCells_eq_zero (h : g.numCells = 0) : g.cache s = [] := by
  rw [numCells, Nat.add_eq_zero_iff, List.length_eq_zero_iff, List.length_eq_zero_iff] at h
  cases s
  exacts [h.1, h.2]

theorem allocLoop_spec (n : ℕ) (hn : g.numCells ≤ n) :
    AllocSpills g (allocLoop n g).2 ∧ (allocLoop n g).1 = (allocLoop n g).2.findFreeReg ∧
      ((allocLoop n g).1 = none → (allocLoop n g).2.numCells = 0) := by
  induction n generalizing g with
  | zero => exact ⟨.refl, rfl, fun _ => Nat.le_zero.mp hn⟩
  | succ n ih =>
    unfold allocLoop
    cases hfree : g.findFreeReg with
    | some r => exact ⟨.refl, hfree.symm, by simp⟩
    | none =>
      simp only
      by_cases hne : ∃ s, g.cache s ≠ []
      · have hstep := g.allocSpill_spillForReg hfree hne
        have hlt : g.spillForReg.numCells ≤ n := by
          obtain ⟨s, c, cs, h, heq⟩ : ∃ s c cs, g.cache s = c :: cs ∧
              g.spillForReg = g.spillCell s c cs := by
            generalize g.spillForReg = g' at hstep
            obtain ⟨-, -, h⟩ := hstep
            exact ⟨_, _, _, h, rfl⟩
          have := g.numCells_spillCell s h
          rw [heq]
          omega
        obtain ⟨h₁, h₂, h₃⟩ := ih g.spillForReg hlt
        exact ⟨h₁.head hstep, h₂, h₃⟩
      · push Not at hne
        have hsp : g.spillForReg = g := by
          rw [spillForReg, stackCacheSpill_nil g _ (hne _)]
          simp only [stackCacheSpill_nil g _ (hne _)]
        rw [hsp]
        exact ih g (by simp [numCells, hne])

/-- **Allocation.** Cells are spilled until a register is free, which is then retained; the
program aborts only when no cell is left to spill. -/
theorem allocReg_spec : ∃ g', AllocSpills g g' ∧
    ((∃ r, g'.findFreeReg = some r ∧ g.allocReg = (r, g'.retainReg r)) ∨
      (g'.findFreeReg = none ∧ (∀ s, g'.cache s = []) ∧ g.allocReg = (0, g'.assert false))) := by
  obtain ⟨h₁, h₂, h₃⟩ := g.allocLoop_spec _ le_rfl
  refine ⟨_, h₁, ?_⟩
  unfold allocReg
  rw [show (g.cache .wst).length + (g.cache .rst).length = g.numCells from rfl]
  generalize allocLoop g.numCells g = x at h₁ h₂ h₃
  obtain ⟨_ | r, g'⟩ := x
  · exact .inr ⟨h₂.symm, fun s => numCells_eq_zero _ s (h₃ rfl), rfl⟩
  · exact .inl ⟨r, h₂.symm, rfl⟩

/-- A register that is retained and released is as it was. -/
@[simp] theorem releaseReg_retainReg_refCounts (r : OpReg) :
    ((g.retainReg r).releaseReg r).refCounts = g.refCounts := by
  simp [retainReg, releaseReg]

theorem allocReg_of_free {r : OpReg} (hr : g.findFreeReg = some r) :
    g.allocReg = (r, g.retainReg r) := by
  obtain ⟨g', hs, h⟩ := g.allocReg_spec
  obtain rfl := hs.eq_of_free hr
  rcases h with ⟨r', hr', h⟩ | ⟨hfree, -⟩
  · rw [hr] at hr'
    cases hr'
    exact h
  · simp [hr] at hfree

theorem emits_allocReg : Emits Aimed g g.allocReg.2 := by
  obtain ⟨g', hs, ⟨r, -, h⟩ | ⟨-, -, h⟩⟩ := g.allocReg_spec
  · rw [h]
    exact hs.spills.emits.retainReg r
  · rw [h]
    exact hs.spills.emits.assert false

/-! ## The other functions -/

/-- Instructions that are local, whatever they access. -/
abbrev Loose (_ : Gen) (i : Instr) : Prop := i.Local

theorem Emits.loose {g g' : Gen} (h : Emits Aimed g g') : Emits Loose g g' :=
  h.mono fun _ _ hi => hi.toLocal

theorem emits_stackCachePush (o : Operand OpReg) : Emits Aimed g (g.stackCachePush s o) := by
  unfold stackCachePush
  split
  · exact ((g.spills_stackCacheSpill s).emits.setCache s _).retainReg _
  · exact (Emits.setCache .refl s _).retainReg _

/-- The code of `popFromMem` after the allocation. -/
def popCode (flag2 : Bool) (s : Stk) (sp : Reg) (reg : OpReg) (g : Gen) : Gen :=
  let g := g |>.emit (.op2 .sub sp sp (.imm 1))
    |>.emit (.op1 .movU8 .memOffset (.reg sp))
    |>.emit (.loadU8 (.op reg) s.region)
  if flag2 then
    g |>.emit (.op2 .sub sp sp (.imm 1))
      |>.emit (.op1 .movU8 .memOffset (.reg sp))
      |>.emit (.loadU8 .tmp s.region)
      |>.emit (.op2 .shl .tmp .tmp (.imm 8))
      |>.emit (.op2 .or (.op reg) (.op reg) (.reg .tmp))
  else g

theorem popFromMem_eq (flag2 : Bool) : g.popFromMem flag2 s =
    ((g.setMemBase s.region).allocReg.1,
      (g.setMemBase s.region).allocReg.2.popCode flag2 s (g.spReg s)
        (g.setMemBase s.region).allocReg.1) := by
  unfold popFromMem popCode
  cases flag2 <;> simp

/-- The registers that hold stack pointers: the saved ones, or operand registers in keep mode. -/
def SpRegs (g : Gen) : Prop := ∀ s, g.spReg s ≠ .memBase ∧ g.spReg s ≠ .vm

theorem emits_popCode {Q : Gen → Instr → Prop} (flag2 : Bool) (sp : Reg) (reg : OpReg)
    (hsp : sp ≠ .memBase ∧ sp ≠ .vm) (hQ : ∀ g' : Gen, g'.memBase = g.memBase → ∀ i, i.Local →
      (∀ r, i.meant = some r → r = s.region) → Q g' i) :
    Emits Q g (g.popCode flag2 s sp reg) := by
  have h₀ : Emits Q g g := .refl
  unfold popCode
  cases flag2
  · refine ((h₀.emit ?_).emit ?_).emit ?_ <;>
      exact hQ _ (by simp) _ ⟨rfl, by simp [hsp], by simp [hsp]⟩ (by simp)
  · refine (((((((h₀.emit ?_).emit ?_).emit ?_).emit ?_).emit ?_).emit ?_).emit ?_).emit ?_ <;>
      exact hQ _ (by simp) _ ⟨rfl, by simp [hsp], by simp [hsp]⟩ (by simp)

theorem emits_popFromMem (hsp : g.SpRegs) (flag2 : Bool) :
    Emits Loose g (g.popFromMem flag2 s).2 := by
  have halloc : Emits Aimed g (g.setMemBase s.region).allocReg.2 :=
    (Emits.setMemBase .refl _).trans (emits_allocReg _)
  rw [popFromMem_eq]
  exact halloc.loose.trans (emits_popCode _ s flag2 _ _ (hsp s) fun _ _ _ hi _ => hi)

theorem emits_stackCachePopByte (hsp : g.SpRegs) : Emits Loose g (g.stackCachePopByte s).2 := by
  unfold stackCachePopByte
  cases htop : (g.cache s).getLast? with
  | none => exact g.emits_popFromMem s hsp false
  | some top =>
    simp only
    split
    · have halloc := g.emits_allocReg
      split
      · have hrel : Emits Aimed g (g.allocReg.2.releaseReg g.allocReg.1) := halloc.releaseReg _
        refine hrel.loose.trans (emits_popFromMem _ s ?_ false)
        intro s'
        rw [hrel.spReg]
        exact hsp s'
      · refine (((halloc.loose.emit ?_).emit ?_).setCache _ _) <;>
          exact ⟨rfl, by simp, by simp⟩
    · exact Emits.setCache .refl _ _

theorem emits_stackCachePop (hsp : g.SpRegs) (flag2 : Bool) :
    Emits Loose g (g.stackCachePop flag2 s).2 := by
  unfold stackCachePop
  cases flag2 with
  | false => exact g.emits_stackCachePopByte s hsp
  | true =>
    simp only [if_true]
    cases htop : (g.cache s).getLast? with
    | none => exact g.emits_popFromMem s hsp true
    | some top =>
      have hset : Emits Loose g (g.setCache s (g.cache s).dropLast) := Emits.setCache .refl _ _
      simp only
      split
      · exact hset
      · have hbyte : Emits Loose g ((g.setCache s (g.cache s).dropLast).stackCachePopByte s).2 :=
          hset.trans (emits_stackCachePopByte _ s hsp)
        refine ((hbyte.emit ?_).emit ?_).releaseReg _ <;> exact ⟨rfl, by simp, by simp⟩

theorem emits_discardFromMem (hsp : g.SpRegs) (flag2 : Bool) :
    Emits Aimed g (g.discardFromMem flag2 s) := by
  refine Emits.emit .refl (aimed_iff.mpr ?_)
  simp [hsp s]

theorem emits_stackCacheDiscardByte (hsp : g.SpRegs) :
    Emits Aimed g (g.stackCacheDiscardByte s) := by
  unfold stackCacheDiscardByte
  cases htop : (g.cache s).getLast? with
  | none => exact g.emits_discardFromMem s hsp false
  | some top =>
    simp only
    split
    · refine (Emits.emit .refl ?_).setCache _ _
      simp [aimed_iff]
    · exact (Emits.setCache .refl _ _).releaseReg _

theorem emits_stackCacheDiscard (hsp : g.SpRegs) (flag2 : Bool) :
    Emits Aimed g (g.stackCacheDiscard flag2 s) := by
  unfold stackCacheDiscard
  cases flag2 with
  | false => exact g.emits_stackCacheDiscardByte s hsp
  | true =>
    simp only [if_true]
    cases htop : (g.cache s).getLast? with
    | none => exact g.emits_discardFromMem s hsp true
    | some top =>
      have hset : Emits Aimed g
          ((g.setCache s (g.cache s).dropLast).releaseReg top.value.reg) :=
        (Emits.setCache .refl _ _).releaseReg _
      simp only
      split
      · exact hset
      · exact hset.trans (emits_stackCacheDiscardByte _ s hsp)

section Memory

variable (reg : OpReg) (addr value : Operand OpReg) (isShort : Bool) (pc : Short)

@[simp] theorem load_cache : (g.load reg addr).cache = g.cache := by
  unfold load
  simp only
  split <;> simp

@[simp] theorem load_refCounts : (g.load reg addr).refCounts = g.refCounts := by
  unfold load
  simp only
  split <;> simp

@[simp] theorem store_cache : (g.store addr value).cache = g.cache := by
  unfold store
  simp only
  split <;> simp

@[simp] theorem store_refCounts : (g.store addr value).refCounts = g.refCounts := by
  unfold store
  simp only
  split <;> simp

@[simp] theorem immediate_cache : (g.immediate reg isShort pc).cache = g.cache := by
  unfold immediate
  simp only
  split
  · split <;> simp
  · simp

@[simp] theorem immediate_refCounts : (g.immediate reg isShort pc).refCounts = g.refCounts := by
  unfold immediate
  simp only
  split
  · split <;> simp
  · simp

@[simp] theorem deviceStore_cache : (g.deviceStore addr value).cache = g.cache := by
  unfold deviceStore
  simp only
  split <;> simp

@[simp] theorem deviceStore_refCounts : (g.deviceStore addr value).refCounts = g.refCounts := by
  unfold deviceStore
  simp only
  split <;> simp

end Memory

section Division

variable (c a b : OpReg)

@[simp] theorem divide_memBase : (g.divide c a b).memBase = g.memBase := by simp [divide]

@[simp] theorem divide_currentOpcode : (g.divide c a b).currentOpcode = g.currentOpcode := by
  simp [divide]

@[simp] theorem divide_spReg : (g.divide c a b).spReg = g.spReg := by simp [divide]

@[simp] theorem divide_refCounts : (g.divide c a b).refCounts = g.refCounts := by simp [divide]

@[simp] theorem divide_cache : (g.divide c a b).cache = g.cache := by simp [divide]

@[simp] theorem divide_cur : (g.divide c a b).cur = g.cur :=
  cur_eq_of_currentOpcode (g.divide_currentOpcode c a b)

end Division


section Device

variable (h : Helper) (addr : OpReg) (result : Option OpReg)

@[simp] theorem callDevice_memBase : (g.callDevice h addr result).memBase = none := by
  cases result <;> simp [callDevice, loadState, saveState]

@[simp] theorem callDevice_currentOpcode :
    (g.callDevice h addr result).currentOpcode = g.currentOpcode := by
  cases result <;> simp [callDevice, loadState, saveState]

@[simp] theorem callDevice_spReg : (g.callDevice h addr result).spReg = g.spReg := by
  cases result <;> simp [callDevice, loadState, saveState]

@[simp] theorem callDevice_cache : (g.callDevice h addr result).cache = g.cache := by
  cases result <;> simp [callDevice, loadState, saveState]

@[simp] theorem callDevice_cur : (g.callDevice h addr result).cur = g.cur :=
  cur_eq_of_currentOpcode (g.callDevice_currentOpcode h addr result)

end Device

theorem emits_load (reg : OpReg) (addr : Operand OpReg) : Emits Aimed g (g.load reg addr) := by
  have h₀ : Emits Aimed g (g.setMemBase .memory) := Emits.setMemBase .refl _
  unfold load
  simp only
  split
  · refine ((((((h₀.emit ?_).emit ?_).emit ?_).emit ?_).emit ?_).emit ?_).emit ?_ <;>
      simp [aimed_iff]
  · refine (h₀.emit ?_).emit ?_ <;> simp [aimed_iff]

theorem emits_store (addr value : Operand OpReg) : Emits Aimed g (g.store addr value) := by
  have h₀ : Emits Aimed g (g.setMemBase .memory) := Emits.setMemBase .refl _
  unfold store
  simp only
  split
  · refine (((((h₀.emit ?_).emit ?_).emit ?_).emit ?_).emit ?_).emit ?_ <;> simp [aimed_iff]
  · refine (h₀.emit ?_).emit ?_ <;> simp [aimed_iff]

theorem emits_deviceStore (addr value : Operand OpReg) :
    Emits Aimed g (g.deviceStore addr value) := by
  have h₀ : Emits Aimed g (g.setMemBase .device) := Emits.setMemBase .refl _
  unfold deviceStore
  simp only
  split
  · refine (((((h₀.emit ?_).emit ?_).emit ?_).emit ?_).emit ?_).emit ?_ <;> simp [aimed_iff]
  · refine (h₀.emit ?_).emit ?_ <;> simp [aimed_iff]

theorem emits_immediate (reg : OpReg) (isShort : Bool) (pc : Short) :
    Emits Aimed g (g.immediate reg isShort pc) := by
  have h₀ : Emits Aimed g (g.setMemBase .memory) := Emits.setMemBase .refl _
  unfold immediate
  simp only
  split
  · split
    · refine ((h₀.emit ?_).emit ?_).emit ?_ <;> simp [aimed_iff]
    · refine (((((h₀.emit ?_).emit ?_).emit ?_).emit ?_).emit ?_).emit ?_ <;> simp [aimed_iff]
  · refine (h₀.emit ?_).emit ?_ <;> simp [aimed_iff]

theorem emits_flushCells (cs : List Cell) : Emits Aimed g (flushCells s cs g) := by
  induction cs generalizing g with
  | nil => exact .refl
  | cons c cs ih => exact (g.emits_flushCell s c).trans (ih _)

theorem emits_stackCacheFlush : Emits Aimed g (g.stackCacheFlush s) :=
  (g.emits_flushCells s _).setCache _ _

/-! ## Between opcodes -/

theorem emits_stackCacheRetain {Q : Gen → Instr → Prop} : Emits Q g (g.stackCacheRetain s) := by
  unfold stackCacheRetain
  simp only
  generalize (g.cache s).drop _ = cs
  have hfold : ∀ (ds : List Cell) (g' : Gen), Emits Q g g' →
      Emits Q g (ds.foldl (fun g c => g.retainReg c.value.reg) g') := by
    intro ds
    induction ds with
    | nil => exact fun _ h => h
    | cons d ds ih => exact fun _ h => ih _ (h.retainReg _)
  exact hfold cs _ (Emits.setCache .refl s cs)

/-- The register that holds the copy of a stack pointer in keep mode. -/
def shadowReg (s : Stk) : OpReg :=
  match s with
  | .wst => g.allocReg.1
  | .rst => g.allocReg.2.allocReg.1

/-- The code that copies the stack pointers. -/
def copyPointers : Gen :=
  (g.allocReg.2.allocReg.2.emit (.op1 .movU8 (.op (g.shadowReg .wst)) (.reg (.sp .wst)))).emit
    (.op1 .movU8 (.op (g.shadowReg .rst)) (.reg (.sp .rst)))

theorem shadowPointers_eq : g.shadowPointers =
    { g.copyPointers with spReg := fun s => .op (g.shadowReg s) } := by
  have hsp : (fun s => Reg.op (g.shadowReg s)) = fun
      | .wst => .op g.allocReg.1
      | .rst => .op g.allocReg.2.allocReg.1 := by
    funext s
    cases s <;> rfl
  rw [hsp]
  rfl

theorem emits_copyPointers : Emits Aimed g g.copyPointers := by
  have h₀ : Emits Aimed g g.allocReg.2.allocReg.2 := g.emits_allocReg.trans (emits_allocReg _)
  unfold copyPointers
  refine (h₀.emit ?_).emit ?_ <;> simp [aimed_iff]

@[simp] theorem shadowPointers_currentOpcode :
    g.shadowPointers.currentOpcode = g.currentOpcode := by
  have h := g.emits_copyPointers.currentOpcode
  rw [shadowPointers_eq]
  generalize g.copyPointers = g' at h
  exact h

@[simp] theorem shadowPointers_cur : g.shadowPointers.cur = g.cur :=
  cur_eq_of_currentOpcode g.shadowPointers_currentOpcode

/-- The caches as the next opcode finds them: without the cells that were written already. -/
def retained : Gen :=
  (stackCacheRetain .wst { g with refCounts := fun _ => 0 }).stackCacheRetain .rst

theorem emits_retained {Q : Gen → Instr → Prop} : Emits Q g g.retained := by
  have h₀ : Emits Q g { g with refCounts := fun _ => 0 } :=
    Emits.books .refl ⟨rfl, rfl, rfl, rfl, rfl⟩
  exact (h₀.trans (emits_stackCacheRetain _ .wst)).trans (emits_stackCacheRetain _ .rst)

theorem beginOpcode_eq (op : Byte) : g.beginOpcode op =
    if opFlagK op then { g.retained with currentOpcode := op }.enterKeep
    else { g.retained with currentOpcode := op, spReg := .sp } := rfl

@[simp] theorem beginOpcode_currentOpcode (op : Byte) :
    (g.beginOpcode op).currentOpcode = op := by
  rw [beginOpcode_eq]
  split
  · rw [enterKeep, (emits_stackCacheFlush _ _).currentOpcode, shadowPointers_currentOpcode]
  · rfl

/-- What elementary changes preserve, and what does not depend on the opcode or the registers of
the stack pointers, holds again when the next opcode is about to be compiled. -/
theorem beginOpcode_preserves {I : Gen → Prop} (op : Byte)
    (hI : ∀ g g', Change Aimed g g' → I g → I g')
    (hbooks : ∀ (g : Gen) op sp, I g → I { g with currentOpcode := op, spReg := sp }) (hg : I g) :
    I (g.beginOpcode op) := by
  have h₁ : I g.retained := g.emits_retained.preserves hI hg
  rw [beginOpcode_eq]
  split
  · have h₂ : I { g.retained with currentOpcode := op } := hbooks _ _ g.retained.spReg h₁
    have h₃ := (emits_copyPointers _).preserves hI h₂
    rw [enterKeep, shadowPointers_eq]
    exact (emits_stackCacheFlush _ _).preserves hI (hbooks _ (copyPointers _).currentOpcode _ h₃)
  · exact hbooks _ _ _ h₁

/-- Pops never go through the base register or the one that holds the machine. -/
theorem spRegs_beginOpcode (op : Byte) : (g.beginOpcode op).SpRegs := by
  rw [beginOpcode_eq]
  intro s
  split
  · rw [enterKeep, (emits_stackCacheFlush _ _).spReg, shadowPointers_eq]
    simp
  · simp

end Gen

end BuxnJit
