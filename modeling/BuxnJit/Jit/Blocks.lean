import BuxnJit.Jit.Settled
import BuxnJit.Jit.Termination
import BuxnJit.Jit.Transfer

/-!
# Blocks beside the reference

A block that is entered where the reference is runs along with it, opcode by opcode, until it leaves
where the reference goes (`block_departs`).
-/

namespace BuxnJit

open Foundations Prog

/-! ## The reference in a block -/

/-- `J` holds of the reference wherever it executes an opcode of a block, and `P` where it leaves
one. -/
structure Console.Escorts (D : Devices) (m : Short → Byte) (J P : Next → Console → Prop) : Prop where
  tame : ∀ pc v, J (.goto pc) v → 256 ≤ pc → Uxn.Tame m pc v.toUxn
  next : ∀ pc v, J (.goto pc) v → 256 ≤ pc → J (v.next D pc).1 (v.next D pc).2
  leave : ∀ pc v, J (.goto pc) v → 256 ≤ pc → (decode (m pc)).transfers →
    P (v.next D pc).1 (v.next D pc).2
  zeroPage : ∀ pc v, J (.goto pc) v → pc < 256 → P (.goto pc) v
  stays : ∀ nx v, P nx v → J nx v

/-! ## The code behind an exit -/

theorem compileBlock_grows (fuel n : ℕ) (c : Ctx) (hsp : c.SpRegs) :
    Gen.Grows c.labels c.toGen (c.compileBlock fuel n).toGen := by
  induction n generalizing c with
  | zero => exact .refl _ _
  | succ n ih =>
    rw [Ctx.compileBlock]
    split
    · exact .refl _ _
    · obtain ⟨hsp', hgrows⟩ := compiles_nextOpcode fuel c hsp
      exact hgrows.trans ((ih _ hsp').mono hgrows.labels)

section

variable {E : Env} {D : Devices} {σ₀ : Mach} {fuel : ℕ} {rs : List Request} {m : Short → Byte}
  {c : Ctx} {x : Given} {v : Console} {nx : Next} {J P : Next → Console → Prop}

/-- The rest of the block is not reached. -/
theorem Departed.rest (h : Departed E rs nx (c.mach E σ₀) v) (hsp : c.SpRegs) (n : ℕ) :
    Departed E rs nx ((c.compileBlock fuel n).mach E σ₀) v := by
  obtain ⟨e, he, -⟩ := h.leads
  have hrest : (c.compileBlock fuel n).mach E σ₀ = c.mach E σ₀ := by
    apply (compileBlock_grows fuel n c hsp).mach_eq
    · simp [he]
    · simp [he]
  rwa [hrest]

theorem Onward.leaveZeroPage (h : Onward E σ₀ (c, x) (.goto c.pc) v) {held : List OpReg} {t : Course}
    (hfollowed : Followed E σ₀ held t c x) :
    Departed E rs (.goto c.pc) (c.leaveZeroPage.mach E σ₀) v := by
  have hat := h.mirrors.cleared (hfollowed.holds h.running)
  refine hat.goesBack (.goto c.pc) (.imm (c.pc.setWidth 64)) ?_
  simp [Mach.src, Next.word]

/-- **A block** has control go where the reference goes, unless compilation stops before. -/
theorem block_departs (hE : E.Implements D) (hcalls : CallsWell E rs P)
    (hescorts : Console.Escorts D m J P) (n : ℕ)
    (hq : Tracked E σ₀ m (c, x)) (hon : Onward E σ₀ (c, x) (.goto c.pc) v) (hJ : J (.goto c.pc) v)
    (hclean : AlongBlock (fun _ => Micro.Clean) (fuel + 1) n c)
    (hsub : blockRequests (fuel + 1) n c ⊆ rs) :
    (c.compileBlock (fuel + 1) n).compiler ≠ none ∨
      ∃ nx v', P nx v' ∧ Departed E rs nx ((c.compileBlock (fuel + 1) n).mach E σ₀) v' := by
  induction n generalizing c x v with
  | zero => exact .inl hon.active
  | succ n ih =>
    have hactive : c.compiler ≠ none := hon.active
    obtain ⟨hopcode, hrest⟩ := hclean.resolve_left hactive
    rw [blockRequests, if_neg hactive, List.append_subset] at hsub
    rw [Ctx.compileBlock, if_neg hactive]
    by_cases hpc : c.pc < 256
    · obtain ⟨held, t, hfollowed⟩ := hq.followed
      have hleave : nextOpcode (fuel + 1) c = c.leaveZeroPage := by
        rw [nextOpcode, if_pos hpc]
      have hdeparted : Departed E rs (.goto c.pc) (c.leaveZeroPage.mach E σ₀) v :=
        hon.leaveZeroPage hfollowed
      have hsp : c.leaveZeroPage.SpRegs :=
        hleave ▸ (compiles_nextOpcode (fuel + 1) c hfollowed.spRegs).1
      rw [hleave]
      exact .inr ⟨_, v, hescorts.zeroPage _ v hJ hpc, hdeparted.rest hsp n⟩
    · have hle : 256 ≤ c.pc := BitVec.not_lt.mp hpc
      obtain ⟨hq', houtcome⟩ := nextOpcode_translates hE hcalls hq hon hle hopcode hsub.1
        (hescorts.tame _ v hJ hle)
      have hgoes := houtcome (hescorts.leave _ v hJ hle)
      obtain honward | ⟨nx, v', hP, honward | hdeparted⟩ := hgoes
      · have hJ' := hescorts.next _ v hJ hle
        have hleads : (v.next D c.pc).1 = .goto (nextOpcode (fuel + 1) c).pc := honward.leads
        rw [hleads] at honward hJ'
        exact ih hq' honward hJ' hrest hsub.2
      · have hJ' := hescorts.stays nx v' hP
        obtain rfl : nx = .goto (nextOpcode (fuel + 1) c).pc := honward.leads
        exact ih hq' honward hJ' hrest hsub.2
      · obtain ⟨held, t, hfollowed⟩ := hq'.followed
        exact .inr ⟨nx, v', hP, hdeparted.rest hfollowed.spRegs n⟩

end

end BuxnJit
