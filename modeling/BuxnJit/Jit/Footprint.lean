import BuxnJit.Jit.Registers
import Mathlib.Data.List.DropRight

/-!
# What code writes

Spills and allocations compute no operand (`Aside`); other code writes the operand registers that
it is for (`Touches`), which are fresh ones where a register was allocated for it. The values of
cells that are left alone stay the same, and spilling takes them away from below.
-/

namespace BuxnJit

open Foundations

/-- Nothing new is cached when cells are popped, halved or spilled. -/
theorem Shrinks.regs {cs ds : List Cell} (h : Shrinks cs ds) : cellRegs ds ⊆ cellRegs cs := by
  refine h.preserves (P := fun es => cellRegs es ⊆ cellRegs cs) ?_ (List.Subset.refl _)
  intro es fs hs hes
  cases hs with
  | tail c => exact fun r hr => hes (List.mem_cons_of_mem _ hr)
  | dropLast => exact fun r hr => hes (List.map_subset _ (List.dropLast_subset _) hr)
  | halve i => rwa [cellRegs_halve]

/-- Code that computes no operand and does not access `vm->memory`, as that of a spill. -/
structure Aside (_ : Gen) (i : Instr) : Prop where
  control : i.control = false
  spares : ∀ r, i.dst ≠ some (.op r)
  meant : i.meant ≠ some .memory

namespace Gen

variable {E : Env} {σ₀ : Mach} {g g' : Gen}

@[simp] theorem mach_setCache (s : Stk) (cs : List Cell) :
    (g.setCache s cs).mach E σ₀ = g.mach E σ₀ := rfl

@[simp] theorem mach_retainReg (r : OpReg) : (g.retainReg r).mach E σ₀ = g.mach E σ₀ := rfl

@[simp] theorem mach_releaseReg (r : OpReg) : (g.releaseReg r).mach E σ₀ = g.mach E σ₀ := rfl

@[simp] theorem mach_assert (b : Bool) : (g.assert b).mach E σ₀ = g.mach E σ₀ := rfl

theorem aside_flushCell (c : Cell) (s : Stk) : Emits Aside g (g.flushCell c s) := by
  unfold flushCell
  split
  · have hregion : s.region ≠ .memory := by cases s <;> simp [Stk.region]
    have h₀ : Emits Aside g (g.setMemBase s.region) := Emits.setMemBase .refl _
    unfold doPush
    split
    · refine ((((((((h₀.emit ?_).emit ?_).emit ?_).emit ?_).emit ?_).emit ?_).emit ?_).emit ?_) <;>
        exact ⟨rfl, by simp, by simp [hregion]⟩
    · refine (((h₀.emit ?_).emit ?_).emit ?_) <;> exact ⟨rfl, by simp, by simp [hregion]⟩
  · exact .refl

theorem Spills.aside (h : Spills g g') : Emits Aside g g' := by
  refine h.preserves (I := Emits Aside g) (fun g' s c cs _ hg => hg.trans ?_) .refl
  exact Emits.setCache (Emits.releaseReg (aside_flushCell c s) _) _ _

theorem aside_stackCacheFlush (s : Stk) : Emits Aside g (g.stackCacheFlush s) := by
  have hcells : ∀ (cs : List Cell) (g' : Gen), Emits Aside g' (flushCells s cs g') := by
    intro cs
    induction cs with
    | nil => exact fun _ => .refl
    | cons c cs ih => exact fun g' => (aside_flushCell c s).trans (ih _)
  exact (hcells _ g).setCache _ _

theorem aside_allocReg (g : Gen) : Emits Aside g g.allocReg.2 := by
  obtain ⟨g', hs, ⟨r, -, h⟩ | ⟨-, -, h⟩⟩ := g.allocReg_spec
  · rw [h]
    exact hs.spills.aside.retainReg r
  · rw [h]
    exact hs.spills.aside.assert false

/-- Code that runs on, and computes no operand register outside of `W`. -/
structure Touches (W : OpReg → Prop) (_ : Gen) (i : Instr) : Prop where
  control : i.control = false
  within : ∀ r, i.dst = some (.op r) → W r

variable {W : OpReg → Prop}

variable (E σ₀) in
/-- What code leaves alone. -/
theorem Emits.touches (h : Emits (Touches W) g g') :
    (g'.mach E σ₀).status = (g.mach E σ₀).status ∧
      ∀ r, ¬W r → (g'.mach E σ₀).regs (.op r) = (g.mach E σ₀).regs (.op r) := by
  have hemit : ∀ {a : Gen} {i : Instr}, Touches W a i →
      ((a.emit i).mach E σ₀).status = (a.mach E σ₀).status ∧
        ∀ r, ¬W r → ((a.emit i).mach E σ₀).regs (.op r) = (a.mach E σ₀).regs (.op r) := by
    intro a i hi
    exact ⟨Mach.step_status hi.control,
      fun r hr => Mach.step_regs hi.control fun hd => hr (hi.within r hd)⟩
  refine h.preserves (I := fun x => (x.mach E σ₀).status = (g.mach E σ₀).status ∧
    ∀ r, ¬W r → (x.mach E σ₀).regs (.op r) = (g.mach E σ₀).regs (.op r)) ?_ ⟨rfl, fun _ _ => rfl⟩
  rintro a b hab ⟨hstatus, hregs⟩
  cases hab with
  | emit hi =>
    obtain ⟨hs, hr⟩ := hemit hi
    exact ⟨hs.trans hstatus, fun r hW => (hr r hW).trans (hregs r hW)⟩
  | setMemBase r =>
    unfold Gen.setMemBase
    split
    · exact ⟨hstatus, hregs⟩
    · obtain ⟨hs, hr⟩ := hemit (a := a) (i := .op2 .add .memBase .vm (.off r)) ⟨rfl, by simp⟩
      exact ⟨hs.trans hstatus, fun r hW => (hr r hW).trans (hregs r hW)⟩
  | books hs =>
    rw [mach_of_code hs.code]
    exact ⟨hstatus, hregs⟩

theorem Emits.touching (h : Emits Aside g g') : Emits (Touches W) g g' :=
  h.mono fun _ _ hi => ⟨hi.control, fun r hr => absurd hr (hi.spares r)⟩

theorem Spills.touching (h : Spills g g') : Emits (Touches W) g g' := h.aside.touching

section Writing

variable (g) (flag2 : Bool) (s : Stk) (reg : OpReg) (addr value : Operand OpReg)

theorem touches_popCode {sp : Reg} (hreg : W reg) (hsp : ∀ r, sp = .op r → W r) :
    Emits (Touches W) g (g.popCode flag2 s sp reg) := by
  have h₀ : Emits (Touches W) g g := .refl
  have hone : ∀ {g' : Gen}, Emits (Touches W) g g' → Emits (Touches W) g
      (((g'.emit (.op2 .sub sp sp (.imm 1))).emit (.op1 .movU8 .memOffset (.reg sp))).emit
        (.loadU8 (.op reg) s.region)) := by
    intro g' h
    refine ((h.emit ⟨rfl, ?_⟩).emit ⟨rfl, by simp⟩).emit ⟨rfl, ?_⟩
    · rintro r ⟨⟩
      exact hsp r rfl
    · rintro r ⟨⟩
      exact hreg
  unfold popCode
  cases flag2 with
  | false => exact hone h₀
  | true =>
    refine (((((hone h₀).emit ⟨rfl, ?_⟩).emit ⟨rfl, by simp⟩).emit ⟨rfl, by simp⟩).emit
      ⟨rfl, by simp⟩).emit ⟨rfl, ?_⟩
    · rintro r ⟨⟩
      exact hsp r rfl
    · rintro r ⟨⟩
      exact hreg

/-- A pop from memory writes the register that it returns, and in keep mode the pointer. -/
theorem touches_popFromMem (hreg : W (g.popFromMem flag2 s).1)
    (hsp : ∀ r, g.spReg s = .op r → W r) :
    Emits (Touches W) g (g.popFromMem flag2 s).2 := by
  have halloc : Emits (Touches W) g (g.setMemBase s.region).allocReg.2 :=
    (Emits.setMemBase .refl _).trans (aside_allocReg _).touching
  rw [popFromMem_eq] at hreg ⊢
  exact halloc.trans (touches_popCode _ flag2 s _ hreg hsp)

/-- Two bytes are joined to a short. -/
theorem touches_join (hi lo : OpReg) : Emits (Touches fun r => r = hi) g
    ((g.emit (.op2 .shl (.op hi) (.op hi) (.imm 8))).emit
      (.op2 .or (.op hi) (.op hi) (.reg (.op lo)))) := by
  refine (Emits.emit .refl ?_).emit ?_ <;> exact ⟨rfl, by simp⟩

theorem touches_load (hreg : W reg) : Emits (Touches W) g (g.load reg addr) := by
  have h₀ : Emits (Touches W) g (g.setMemBase .memory) := Emits.setMemBase .refl _
  unfold load
  simp only
  split
  · refine ((((((h₀.emit ?_).emit ?_).emit ?_).emit ?_).emit ?_).emit ?_).emit ?_ <;>
      exact ⟨rfl, by simp [hreg]⟩
  · refine (h₀.emit ?_).emit ?_ <;> exact ⟨rfl, by simp [hreg]⟩

theorem touches_store : Emits (Touches W) g (g.store addr value) := by
  have h₀ : Emits (Touches W) g (g.setMemBase .memory) := Emits.setMemBase .refl _
  unfold store
  simp only
  split
  · refine (((((h₀.emit ?_).emit ?_).emit ?_).emit ?_).emit ?_).emit ?_ <;> exact ⟨rfl, by simp⟩
  · refine (h₀.emit ?_).emit ?_ <;> exact ⟨rfl, by simp⟩

theorem touches_deviceStore : Emits (Touches W) g (g.deviceStore addr value) := by
  have h₀ : Emits (Touches W) g (g.setMemBase .device) := Emits.setMemBase .refl _
  unfold deviceStore
  simp only
  split
  · refine (((((h₀.emit ?_).emit ?_).emit ?_).emit ?_).emit ?_).emit ?_ <;> exact ⟨rfl, by simp⟩
  · refine (h₀.emit ?_).emit ?_ <;> exact ⟨rfl, by simp⟩

theorem touches_immediate (hreg : W reg) (isShort : Bool) (pc : Short) :
    Emits (Touches W) g (g.immediate reg isShort pc) := by
  have h₀ : Emits (Touches W) g (g.setMemBase .memory) := Emits.setMemBase .refl _
  unfold immediate
  simp only
  split
  · split
    · refine ((h₀.emit ?_).emit ?_).emit ?_ <;> exact ⟨rfl, by simp [hreg]⟩
    · refine (((((h₀.emit ?_).emit ?_).emit ?_).emit ?_).emit ?_).emit ?_ <;>
        exact ⟨rfl, by simp [hreg]⟩
  · refine (h₀.emit ?_).emit ?_ <;> exact ⟨rfl, by simp [hreg]⟩

end Writing

/-! ## The values of cells -/

/-- What the registers of the cells hold. -/
def cellValues (σ : Mach) (cs : List Cell) : List Word := (cellRegs cs).map fun r => σ.regs (.op r)

theorem cellValues_congr {σ σ' : Mach} {cs : List Cell}
    (h : ∀ r ∈ cellRegs cs, σ'.regs (.op r) = σ.regs (.op r)) :
    cellValues σ' cs = cellValues σ cs := List.map_congr_left h

@[simp] theorem cellValues_append (σ : Mach) (cs ds : List Cell) :
    cellValues σ (cs ++ ds) = cellValues σ cs ++ cellValues σ ds := by
  simp [cellValues]

@[simp] theorem cellValues_halve (σ : Mach) (cs : List Cell) (i : ℕ) :
    cellValues σ (cs.modify i Cell.halve) = cellValues σ cs := by
  simp [cellValues]

theorem cellValues_dropLast (σ : Mach) (cs : List Cell) :
    cellValues σ cs.dropLast = (cellValues σ cs).dropLast := by
  simp [cellValues, cellRegs, List.map_dropLast]

@[simp] theorem cellValues_length (σ : Mach) (cs : List Cell) :
    (cellValues σ cs).length = cs.length := by
  simp [cellValues, cellRegs]

theorem rtake_suffix {α : Type} {as bs : List α} (h : bs <:+ as) : as.rtake bs.length = bs := by
  obtain ⟨cs, rfl⟩ := h
  rw [List.rtake, List.length_append, Nat.add_sub_cancel, List.drop_left]

theorem Spills.suffix (h : Spills g g') (s : Stk) : g'.cache s <:+ g.cache s := by
  refine h.preserves (I := fun x => x.cache s <:+ g.cache s) ?_ (List.suffix_refl _)
  intro x s' c cs hc hx
  by_cases hs : s = s'
  · subst hs
    rw [spillCell_cache_self]
    rw [hc] at hx
    exact (List.suffix_cons c cs).trans hx
  · rwa [spillCell_cache_of_ne _ _ _ _ hs]

/-- Spilling takes values away from below. -/
theorem cellValues_suffix (σ : Mach) {cs ds : List Cell} (h : ds <:+ cs) :
    cellValues σ ds = (cellValues σ cs).rtake ds.length := by
  have hvalues : cellValues σ ds <:+ cellValues σ cs := by
    obtain ⟨es, rfl⟩ := h
    exact ⟨cellValues σ es, (cellValues_append ..).symm⟩
  rw [← cellValues_length σ ds, rtake_suffix hvalues]

/-! ## Fresh registers -/

namespace Accounts

variable {held : List OpReg} {r : OpReg}

/-- A register without references is held by nobody. -/
theorem free (h : Accounts held g) (hr : g.refCounts r = 0) :
    r ∉ held ∧ ∀ s, r ∉ cellRegs (g.cache s) := by
  rw [h.counts] at hr
  refine ⟨List.count_eq_zero.mp (by omega), fun s => List.count_eq_zero.mp ?_⟩
  cases s <;> omega

/-- A register with one reference, from an operand that is held, belongs to it alone. -/
theorem alone (h : Accounts held g) (hr : g.refCounts r = 1) (hmem : r ∈ held) :
    held.count r = 1 ∧ ∀ s, r ∉ cellRegs (g.cache s) := by
  have hpos := List.count_pos_iff.mpr hmem
  rw [h.counts] at hr
  refine ⟨by omega, fun s => List.count_eq_zero.mp ?_⟩
  cases s <;> omega

theorem allocReg_free (h : Accounts held g) (hheld : held.length ≤ 5) :
    g.allocReg.1 ∉ held ∧ ∀ s, g.allocReg.1 ∉ cellRegs (g.allocReg.2.cache s) := by
  obtain ⟨g', r, -, h', hr, halloc⟩ := h.allocReg_fresh hheld
  rw [halloc]
  exact h'.free hr

theorem popFromMem_free (h : Accounts held g) (hheld : held.length ≤ 5) (flag2 : Bool) (s : Stk) :
    (g.popFromMem flag2 s).1 ∉ held ∧
      ∀ s', (g.popFromMem flag2 s).1 ∉ cellRegs ((g.popFromMem flag2 s).2.cache s') := by
  obtain ⟨hheld', hcells⟩ := (h.setMemBase s.region).allocReg_free hheld
  rw [popFromMem_eq]
  refine ⟨hheld', fun s' => ?_⟩
  rw [popCode_cache]
  exact hcells s'

/-- A byte is popped in the register of a cell, or in a fresh one. -/
theorem stackCachePopByte_fst (h : Accounts held g) (hheld : held.length ≤ 5) (s : Stk) :
    (g.stackCachePopByte s).1 ∈ cellRegs (g.cache s) ∨ (g.stackCachePopByte s).1 ∉ held := by
  unfold Gen.stackCachePopByte
  cases htop : (g.cache s).getLast? with
  | none => exact .inr (h.popFromMem_free hheld false s).1
  | some top =>
    simp only
    split
    · split
      · exact .inr ((h.allocReg hheld).releaseReg.popFromMem_free hheld false s).1
      · exact .inr (h.allocReg_free hheld).1
    · exact .inl (List.mem_map_of_mem (List.mem_of_getLast? htop))

theorem stackCachePop_fst (h : Accounts held g) {flag2 : Bool}
    (hheld : held.length + (if flag2 then 1 else 0) ≤ 5) (s : Stk) :
    (g.stackCachePop flag2 s).1 ∈ cellRegs (g.cache s) ∨ (g.stackCachePop flag2 s).1 ∉ held := by
  unfold Gen.stackCachePop
  cases flag2 with
  | false => exact h.stackCachePopByte_fst hheld s
  | true =>
    simp only [if_true] at hheld ⊢
    cases htop : (g.cache s).getLast? with
    | none => exact .inr (h.popFromMem_free (Nat.le_of_succ_le hheld) true s).1
    | some top =>
      simp only
      split
      · exact .inl (List.mem_map_of_mem (List.mem_of_getLast? htop))
      · obtain hcell | hfresh := (h.dropLast htop).stackCachePopByte_fst hheld s
        · rw [setCache_cache_self] at hcell
          left
          rw [cellRegs_dropLast htop]
          exact List.mem_append_left _ hcell
        · exact .inr fun hmem => hfresh (List.mem_cons_of_mem _ hmem)

end Accounts

end Gen

end BuxnJit
