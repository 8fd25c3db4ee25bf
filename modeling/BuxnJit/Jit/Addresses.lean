import BuxnJit.Jit.Contexts
import BuxnJit.Jit.Footprint
import BuxnJit.Jit.Skips
import BuxnJit.Uxn.Machine

/-!
# Relative addresses

JMP, JCN and JSR in byte mode, LDR and STR add the signed offset to the address of the next opcode
in a 64-bit register. A load or a store reduces the sum modulo 65536; a jump compares and returns it
as it is (`Ctx.Compiling.addresses_iff`), so that beyond the end of memory it is taken for the end
of the program.
-/

namespace BuxnJit

open Foundations Prog

/-! ## Accesses to memory -/

/-- The offsets of the accesses to `vm->memory` that the code performed, the latest first. -/
def accessed (E : Env) (σ₀ : Mach) : List Instr → List Word
  | [] => []
  | i :: code =>
    if i.meant = some .memory ∧ (Mach.exec E code σ₀).status = .running then
      (Mach.exec E code σ₀).regs .memOffset :: accessed E σ₀ code
    else accessed E σ₀ code

namespace Gen

variable {E : Env} {σ₀ : Mach} {g : Gen}

theorem accessed_emit {i : Instr} (hi : i.meant ≠ some .memory) :
    accessed E σ₀ (g.emit i).code = accessed E σ₀ g.code := if_neg fun h => hi h.1

theorem accessed_access {i : Instr} (hi : i.meant = some .memory)
    (hrun : (g.mach E σ₀).status = .running) : accessed E σ₀ (g.emit i).code =
      (g.mach E σ₀).regs .memOffset :: accessed E σ₀ g.code := if_pos ⟨hi, hrun⟩

end Gen

/-! ## Operations on addresses -/

/-- An instruction that extends the sign of an offset is executed, and finds the offset `v`. -/
def Micro.ReadsOffset (E : Env) (σ₀ : Mach) (v : Byte) (o : Micro) (c : Ctx) : Prop :=
  let reads (r : Reg) : Prop :=
    (c.mach E σ₀).status = .running ∧ ((c.mach E σ₀).regs r).setWidth 8 = v
  match o with
  | .alu (.op1 .movS8 d _) => reads d.reg
  | .emit (.op1 .movS8 r _) => reads r
  | _ => True

/-- What a micro operation does with an address, it does with `a`:

* the guard of a jump or a call to a known target, and a return to the trampoline, find it in their
  register;
* a link that was taken leads to it;
* a load or a store accesses it, and for a short the address behind it. -/
def Micro.Addresses (E : Env) (σ₀ : Mach) (a : Short) (o : Micro) (c : Ctx) : Prop :=
  let running := (c.mach E σ₀).status = .running
  let holds (r : Reg) : Prop := running → (c.mach E σ₀).regs r = a.setWidth 64
  let accesses (isShort : Bool) (g : Gen) : Prop := running → accessed E σ₀ g.code =
    (if isShort then [(a + 1).setWidth 64, a.setWidth 64] else [a.setWidth 64]) ++
      accessed E σ₀ c.code
  match o with
  | .emit (.linkCmp r _ _) | .emit (.cmpJump .notEqual r _ _) => holds r
  -- What a called block returns is no address of this jump.
  | .emit (.ret (.reg r)) => r ≠ .memBase → holds r
  | .linkEntry _ _ t => ¬running → t = a
  | .load reg addr => accesses (opFlag2 c.currentOpcode) (c.load reg addr)
  | .store addr value => accesses value.isShort (c.store addr value)
  | _ => True

instance (E : Env) (σ₀ : Mach) (v : Byte) (o : Micro) (c : Ctx) :
    Decidable (o.ReadsOffset E σ₀ v c) := by
  unfold Micro.ReadsOffset
  dsimp only
  split <;> infer_instance

instance (E : Env) (σ₀ : Mach) (a : Short) (o : Micro) (c : Ctx) :
    Decidable (o.Addresses E σ₀ a c) := by
  unfold Micro.Addresses
  dsimp only
  split <;> infer_instance

/-- The next opcode computes with a relative address: a jump in byte mode whose operand is not
tagged boolean, LDR or STR. -/
def Ctx.Relative (ctx : Ctx) : Prop :=
  match decode (ctx.jit.memory ctx.pc) with
  | .JMP | .JCN | .JSR => opFlag2 (ctx.jit.memory ctx.pc) = false ∧ ctx.jumpsByBoolean = false
  | .LDR | .STR => True
  | _ => False

instance (ctx : Ctx) : Decidable ctx.Relative := by
  unfold Ctx.Relative
  split <;> infer_instance

/-- The operations of the next opcode meet `P`. -/
def Ctx.AlongNext (fuel : ℕ) (P : Micro → Ctx → Prop) (ctx : Ctx) : Prop :=
  Along (handle (nextOpcode fuel)) P (Emit.dispatch (decode (ctx.jit.memory ctx.pc)))
    ctx.beginOpcode

instance (fuel : ℕ) (P : Micro → Ctx → Prop) [∀ o c, Decidable (P o c)] (ctx : Ctx) :
    Decidable (ctx.AlongNext fuel P) := inferInstanceAs (Decidable (Along _ _ _ _))

/-- The address `pc + v`, with a signed `v`, is in memory. -/
def InMemory (pc : Short) (v : Byte) : Prop := 0 ≤ (pc.toNat : ℤ) + v.toInt ∧
  (pc.toNat : ℤ) + v.toInt < 65536

/-! ## The sum -/

/-- The sum as native code computes it. -/
def nativeSum (pc : Short) (v : Byte) : Word := v.signExtend 64 + pc.setWidth 64

/-- The sum by the sign of the offset: as an integer, in 16 bits and in 64 bits. -/
theorem nativeSum_cases (pc : Short) (v : Byte) : ∃ k : ℕ, k < 256 ∧
    (v.toInt = k ∧ (Uxn.relative pc v).toNat = (pc.toNat + k) % 2 ^ 16 ∧
        (nativeSum pc v).toNat = pc.toNat + k ∨
      v.toInt = (k : ℤ) - 256 ∧ (Uxn.relative pc v).toNat = (pc.toNat + (2 ^ 16 - 256 + k)) % 2 ^ 16 ∧
        (nativeSum pc v).toNat = (2 ^ 64 - 256 + k + pc.toNat) % 2 ^ 64) := by
  refine ⟨v.toNat, v.isLt, ?_⟩
  rw [Uxn.relative, nativeSum, BitVec.toInt_eq_msb_cond, BitVec.toNat_add, BitVec.toNat_add,
    BitVec.toNat_signExtend, BitVec.toNat_signExtend, BitVec.toNat_setWidth, BitVec.toNat_setWidth,
    BitVec.toNat_setWidth]
  have hpc := pc.isLt
  have hv := v.isLt
  cases v.msb
  · left
    refine ⟨rfl, ?_, ?_⟩
    · simp only [Bool.false_eq_true, if_false]
      omega
    · simp only [Bool.false_eq_true, if_false]
      omega
  · right
    refine ⟨rfl, ?_, ?_⟩
    · simp only [if_true]
      omega
    · simp only [if_true]
      omega

theorem nativeSum_setWidth (pc : Short) (v : Byte) :
    (nativeSum pc v).setWidth 16 = Uxn.relative pc v := by
  have hpc := pc.isLt
  apply BitVec.eq_of_toNat_eq
  rw [BitVec.toNat_setWidth]
  obtain ⟨k, hk, ⟨-, hr, hn⟩ | ⟨-, hr, hn⟩⟩ := nativeSum_cases pc v
  · rw [hr, hn]
  · rw [hr, hn]
    omega

theorem nativeSum_eq_iff (pc : Short) (v : Byte) :
    nativeSum pc v = (Uxn.relative pc v).setWidth 64 ↔ InMemory pc v := by
  have hpc := pc.isLt
  have hr := (Uxn.relative pc v).isLt
  rw [← BitVec.toNat_inj, BitVec.toNat_setWidth, InMemory]
  obtain ⟨k, hk, ⟨hv, hr, hn⟩ | ⟨hv, hr, hn⟩⟩ := nativeSum_cases pc v
  · rw [hr, hn, hv]
    omega
  · rw [hr, hn, hv]
    omega

/-! ## Jumps -/

section Jumps

variable {E : Env} {σ₀ : Mach} {next : Ctx → Ctx} {c : Ctx} {a : Short}

theorem setWidth_injective {k a : Short} (h : k.setWidth 64 = a.setWidth 64) : k = a := by
  have hnat := congrArg BitVec.toNat h
  rw [BitVec.toNat_setWidth, BitVec.toNat_setWidth] at hnat
  have hk := k.isLt
  have ha := a.isLt
  apply BitVec.eq_of_toNat_eq
  omega

section Guards

variable {σ : Mach} (hrun : σ.status = .running) (r : Reg) (w : Word)

include hrun

/-- The guard of a jump: the link is taken if the register holds the constant. -/
theorem step_linkCmp (j : Label) : (σ.step E (.linkCmp r w j)).regs r = σ.regs r ∧
    ((σ.step E (.linkCmp r w j)).status ≠ .running → σ.regs r = w) := by
  rw [Mach.step_running hrun, Instr.exec]
  split
  next heq => exact ⟨rfl, fun _ => heq⟩
  next => exact ⟨rfl, fun h => absurd hrun h⟩

/-- The guard of a call, the call and what follows it, up to the label behind a failed guard. -/
theorem step_guardedCall (skip exit : Label) (hne : exit ≠ skip) (call : Label) (b : Src) :
    let τ := Mach.exec E [.label skip, .ret (.reg .memBase), .cmpJump .equal .memBase b exit,
      .call call, .cmpJump .notEqual r (.imm w) skip] σ
    (τ.status = .running → τ.regs r = σ.regs r) ∧ (τ.status ≠ .running → σ.regs r = w) := by
  intro τ
  by_cases heq : σ.regs r = w
  · -- The called block returns to the code behind the call, or not.
    have hguard : σ.step E (.cmpJump .notEqual r (.imm w) skip) = σ := by
      simp [Mach.step, hrun, Instr.exec, Cond.holds, Flags.compare, Mach.src, heq]
    have hcall : (σ.step E (.call call)).status = .running := by
      rw [Mach.step_running hrun]
      rfl
    have hstatus : τ.status ≠ .running := by
      show (((((σ.step E (.cmpJump .notEqual r (.imm w) skip)).step E (.call call)).step E
        (.cmpJump .equal .memBase b exit)).step E (.ret (.reg .memBase))).step E
        (.label skip)).status ≠ .running
      rw [hguard]
      generalize σ.step E (.call call) = ρ at hcall
      rw [Mach.step_running hcall, Instr.exec]
      split
      · simp [Mach.step, hne]
      · simp [Mach.step, hcall, Instr.exec]
    exact ⟨fun h => absurd h hstatus, fun _ => heq⟩
  · have hτ : τ = σ := by
      cases σ
      simp only at hrun heq
      subst hrun
      simp [τ, Mach.step, Instr.exec, Cond.holds, Flags.compare, Mach.src, heq]
    rw [hτ]
    exact ⟨fun _ => rfl, fun h => absurd hrun h⟩

end Guards

/-- The target register decides: the guard and the trampoline find the address in it. -/
theorem jumpAbs_addresses (hrun : (c.mach E σ₀).status = .running) {target : Operand Reg}
    (hreg : target.reg ≠ .memBase) (himm : target.semantics.immJmp = false) (returnAddr : Short) :
    Along (handle next) (Micro.Addresses E σ₀ a) (Emit.jumpAbs target returnAddr) c ↔
      (c.mach E σ₀).regs target.reg = a.setWidth 64 := by
  unfold Emit.jumpAbs
  rw [himm]
  cases target.semantics.const with
  | false =>
    refine ⟨fun h => h.1 hreg hrun, fun h => ⟨fun _ _ => h, trivial⟩⟩
  | true =>
    simp only [if_true]
    split
    · obtain ⟨hregs, htaken⟩ := step_linkCmp (E := E) hrun target.reg
        (target.constValue.setWidth 64) c.labels
      refine ⟨fun h => h.2.1 hrun, fun h => ⟨trivial, fun _ => h, fun hnot => ?_, fun _ _ => ?_,
        trivial⟩⟩
      · exact setWidth_injective ((htaken hnot).symm.trans h)
      · exact hregs.trans h
    · obtain ⟨hregs, htaken⟩ := step_guardedCall (E := E) hrun target.reg
        (target.constValue.setWidth 64) c.labels (c.labels + 1 + 1)
        (Nat.ne_of_gt (Nat.lt_add_of_pos_right Nat.two_pos)) (c.labels + 1) (.imm (returnAddr.setWidth 64))
      refine ⟨fun h => h.2.1 hrun, fun h => ⟨trivial, fun _ => h, trivial, trivial, trivial,
        trivial, trivial, fun hne => absurd rfl hne, trivial, fun hnot => ?_, fun _ hrunning => ?_,
        trivial, trivial⟩⟩
      · exact setWidth_injective ((htaken hnot).symm.trans h)
      · exact (hregs hrunning).trans h

variable {v : Byte}

/-- The two instructions that add a signed offset to an address. -/
theorem relative_regs {σ : Mach} (hrun : σ.status = .running) {r : Reg}
    (hv : (σ.regs r).setWidth 8 = v) (pc : Short) :
    let τ := (σ.step E (.op1 .movS8 r (.reg r))).step E (.op2 .add r r (.imm (pc.setWidth 64)))
    τ.status = .running ∧ τ.regs r = nativeSum pc v := by
  have hstep := Mach.step_running hrun (E := E) (.op1 .movS8 r (.reg r))
  have hrun' : (σ.step E (.op1 .movS8 r (.reg r))).status = .running := by
    rw [hstep]
    exact hrun
  intro τ
  refine ⟨?_, ?_⟩
  · show (Mach.step E _ (σ.step E _)).status = _
    rw [Mach.step_running hrun']
    exact hrun'
  · show (Mach.step E _ (σ.step E _)).regs r = _
    rw [Mach.step_running hrun', hstep]
    simp [Instr.exec, Mach.set, Mach.src, Op1.eval, Op2.eval, hv, nativeSum]

/-- A relative jump meets the address exactly if this is in memory. -/
theorem jump_addresses (target : Operand Reg) (hbyte : target.isShort = false)
    (hbool : target.semantics.boolean = false) (himm : target.semantics.immJmp = false)
    (hreg : target.reg ≠ .memBase) (returnAddr : Short)
    (hv : Along (handle next) (Micro.ReadsOffset E σ₀ v) (Emit.jump target returnAddr) c) :
    Along (handle next) (Micro.Addresses E σ₀ (Uxn.relative c.pc v)) (Emit.jump target returnAddr)
      c ↔ InMemory c.pc v := by
  have hjump : Emit.jump target returnAddr =
      Emit.clearStackCaches >>= fun _ => Emit.jumpRelative target returnAddr := by
    simp [Emit.jump, hbyte, hbool]
  rw [hjump] at hv ⊢
  obtain ⟨-, -, ⟨hrun, hlow⟩, -⟩ := hv
  obtain ⟨hrun', hsum⟩ := relative_regs (E := E) hrun hlow c.pc
  have habs := @jumpAbs_addresses E σ₀ next
    (((c.lift Gen.clearStackCaches).lift (·.emit (.op1 .movS8 target.reg (.reg target.reg)))).lift
      (·.emit (.op2 .add target.reg target.reg (.imm (c.pc.setWidth 64)))))
    (Uxn.relative c.pc v) hrun'
    { target with constValue := c.pc + (target.constValue.setWidth 8).signExtend 16 }
    hreg himm returnAddr
  refine Iff.trans ⟨fun h => h.2.2.2.2, fun h => ⟨trivial, trivial, trivial, trivial, h⟩⟩ (habs.trans ?_)
  refine Iff.trans ?_ (nativeSum_eq_iff c.pc v)
  exact (congrArg (· = (Uxn.relative c.pc v).setWidth 64) hsum).to_iff

end Jumps

/-! ## Loads and stores -/

namespace Gen

variable {E : Env} {σ₀ : Mach} {g g' : Gen}

/-- What code aside leaves alone. -/
theorem Emits.aside (h : Emits Aside g g') (hrun : (g.mach E σ₀).status = .running) :
    (g'.mach E σ₀).status = .running ∧ (∀ r, (g'.mach E σ₀).regs (.op r) = (g.mach E σ₀).regs (.op r)) ∧
      accessed E σ₀ g'.code = accessed E σ₀ g.code := by
  have hemit : ∀ {g' : Gen} {i : Instr}, Aside g' i →
      (g'.mach E σ₀).status = .running ∧ (∀ r, (g'.mach E σ₀).regs (.op r) = (g.mach E σ₀).regs (.op r)) ∧
        accessed E σ₀ g'.code = accessed E σ₀ g.code →
      ((g'.emit i).mach E σ₀).status = .running ∧
        (∀ r, ((g'.emit i).mach E σ₀).regs (.op r) = (g.mach E σ₀).regs (.op r)) ∧
        accessed E σ₀ (g'.emit i).code = accessed E σ₀ g.code := by
    rintro g' i hi ⟨hrun, hregs, hacc⟩
    refine ⟨(Mach.step_status hi.control).trans hrun, fun r => ?_, ?_⟩
    · exact (Mach.step_regs hi.control (hi.spares r)).trans (hregs r)
    · exact (accessed_emit hi.meant).trans hacc
  refine h.preserves (I := fun g' => (g'.mach E σ₀).status = .running ∧
    (∀ r, (g'.mach E σ₀).regs (.op r) = (g.mach E σ₀).regs (.op r)) ∧
      accessed E σ₀ g'.code = accessed E σ₀ g.code) ?_ ⟨hrun, fun _ => rfl, rfl⟩
  intro a b hab ha
  cases hab with
  | emit hi => exact hemit hi ha
  | setMemBase r =>
    unfold Gen.setMemBase
    split
    · exact ha
    · exact hemit (i := .op2 .add .memBase .vm (.off r)) ⟨rfl, by simp, by simp⟩ ha
  | books hs =>
    rw [mach_of_code hs.code, hs.code]
    exact ha

variable {a : Short}

/-- The offset of the second byte. -/
theorem nextOffset (a : Short) :
    ((a.setWidth 64 + 1) &&& 0xffff : Word) = (a + 1).setWidth 64 := by
  have ha := a.isLt
  apply BitVec.eq_of_toNat_eq
  rw [BitVec.toNat_and, BitVec.toNat_add, BitVec.toNat_setWidth, BitVec.toNat_setWidth,
    BitVec.toNat_add]
  have hmask : (0xffff : Word).toNat = 2 ^ 16 - 1 := rfl
  rw [hmask, Nat.and_two_pow_sub_one_eq_mod]
  show (a.toNat % 2 ^ 64 + 1) % 2 ^ 64 % 2 ^ 16 = (a.toNat + 1) % 2 ^ 16 % 2 ^ 64
  omega

/-- The code before the first access sets the base, and the offset from the address register. -/
theorem offset_mach (hrun : (g.mach E σ₀).status = .running) (r : OpReg)
    (hr : ((g.mach E σ₀).regs (.op r)).setWidth 16 = a) :
    let g' := (g.setMemBase .memory).emit (.op1 .movU16 .memOffset (.reg (.op r)))
    (g'.mach E σ₀).status = .running ∧ (g'.mach E σ₀).regs .memOffset = a.setWidth 64 ∧
      accessed E σ₀ g'.code = accessed E σ₀ g.code := by
  have h₀ : Emits Aside g (g.setMemBase .memory) := Emits.setMemBase .refl _
  obtain ⟨hrun', hregs, hacc⟩ := h₀.aside hrun
  refine ⟨(Mach.step_status rfl).trans hrun', ?_, (accessed_emit (by simp)).trans hacc⟩
  show (((g.setMemBase .memory).mach E σ₀).step E _).regs .memOffset = _
  rw [Mach.step_running hrun']
  simp [Instr.exec, Mach.set, Mach.src, Op1.eval, hregs, hr]

/-- An access that is made, and code aside from it. -/
theorem access_mach {w : Word} (hrun : (g.mach E σ₀).status = .running)
    (hoff : (g.mach E σ₀).regs .memOffset = w) {i : Instr} (hi : i.control = false)
    (hd : i.dst ≠ some .memOffset) : ((g.emit i).mach E σ₀).status = .running ∧
      ((g.emit i).mach E σ₀).regs .memOffset = w ∧ accessed E σ₀ (g.emit i).code =
        (if i.meant = some .memory then [w] else []) ++ accessed E σ₀ g.code := by
  refine ⟨(Mach.step_status hi).trans hrun, (Mach.step_regs hi hd).trans hoff, ?_⟩
  by_cases hm : i.meant = some .memory
  · rw [accessed_access hm hrun, if_pos hm, hoff]
    rfl
  · rw [accessed_emit hm, if_neg hm, List.nil_append]

/-- The code between both accesses to a short. -/
theorem nextOffset_mach (hrun : (g.mach E σ₀).status = .running)
    (hoff : (g.mach E σ₀).regs .memOffset = a.setWidth 64) :
    let g' := (g.emit (.op2 .add .memOffset .memOffset (.imm 1))).emit
      (.op2 .and .memOffset .memOffset (.imm 0xffff))
    (g'.mach E σ₀).status = .running ∧ (g'.mach E σ₀).regs .memOffset = (a + 1).setWidth 64 ∧
      accessed E σ₀ g'.code = accessed E σ₀ g.code := by
  have hrun' : ((g.emit (.op2 .add .memOffset .memOffset (.imm 1))).mach E σ₀).status = .running :=
    (Mach.step_status rfl).trans hrun
  refine ⟨(Mach.step_status rfl).trans hrun', ?_, ?_⟩
  · show (Mach.step E _ ((g.emit _).mach E σ₀)).regs .memOffset = _
    rw [Mach.step_running hrun', mach_emit, Mach.step_running hrun]
    simp only [Instr.exec, Mach.set, Mach.src, Op2.eval, Function.update_self, hoff]
    exact nextOffset a
  · exact (accessed_emit (by simp)).trans (accessed_emit (by simp))

theorem load_accesses (hrun : (g.mach E σ₀).status = .running) (reg : OpReg)
    {addr : Operand OpReg} (hshort : addr.isShort = true)
    (hr : ((g.mach E σ₀).regs (.op addr.reg)).setWidth 16 = a) :
    accessed E σ₀ (g.load reg addr).code = (if opFlag2 g.currentOpcode then
      [(a + 1).setWidth 64, a.setWidth 64] else [a.setWidth 64]) ++ accessed E σ₀ g.code := by
  obtain ⟨hrun₀, hoff₀, hacc₀⟩ := offset_mach hrun addr.reg hr
  obtain ⟨hrun₁, hoff₁, hacc₁⟩ := access_mach hrun₀ hoff₀ (i := .loadU8 (.op reg) .memory) rfl
    (by simp)
  rw [if_pos (c := (Instr.loadU8 (.op reg) .memory).meant = some .memory) rfl, hacc₀] at hacc₁
  unfold load
  simp only [emit_currentOpcode, setMemBase_currentOpcode, hshort, if_true]
  split
  · obtain ⟨hrun₂, hoff₂, hacc₂⟩ := access_mach hrun₁ hoff₁
      (i := .op2 .shl (.op reg) (.op reg) (.imm 8)) rfl (by simp)
    obtain ⟨hrun₃, hoff₃, hacc₃⟩ := nextOffset_mach hrun₂ hoff₂
    obtain ⟨hrun₄, hoff₄, hacc₄⟩ := access_mach hrun₃ hoff₃ (i := .loadU8 .tmp .memory) rfl
      (by simp)
    rw [accessed_emit (by simp), hacc₄, hacc₃, hacc₂, hacc₁]
    simp
  · exact hacc₁

theorem store_accesses (hrun : (g.mach E σ₀).status = .running) {addr value : Operand OpReg}
    (hshort : addr.isShort = true) (hr : ((g.mach E σ₀).regs (.op addr.reg)).setWidth 16 = a) :
    accessed E σ₀ (g.store addr value).code = (if value.isShort then
      [(a + 1).setWidth 64, a.setWidth 64] else [a.setWidth 64]) ++ accessed E σ₀ g.code := by
  obtain ⟨hrun₀, hoff₀, hacc₀⟩ := offset_mach hrun addr.reg hr
  unfold store
  simp only [hshort, if_true]
  split
  · obtain ⟨hrun₁, hoff₁, hacc₁⟩ := access_mach hrun₀ hoff₀
      (i := .op2 .lshr .tmp (.op value.reg) (.imm 8)) rfl (by simp)
    obtain ⟨hrun₂, hoff₂, hacc₂⟩ := access_mach hrun₁ hoff₁ (i := .storeU8 .memory .tmp) rfl
      (by simp)
    obtain ⟨hrun₃, hoff₃, hacc₃⟩ := nextOffset_mach hrun₂ hoff₂
    obtain ⟨-, -, hacc₄⟩ := access_mach hrun₃ hoff₃ (i := .storeU8 .memory (.op value.reg)) rfl
      (by simp)
    rw [hacc₄, hacc₃, hacc₂, hacc₁, hacc₀]
    simp
  · obtain ⟨-, -, hacc₁⟩ := access_mach hrun₀ hoff₀ (i := .storeU8 .memory (.op value.reg)) rfl
      (by simp)
    rw [hacc₁, hacc₀]
    rfl

end Gen

/-! ## Opcodes -/

section Opcodes

variable {E : Env} {σ₀ : Mach} {next : Ctx → Ctx} {c : Ctx} {a : Short} {v : Byte}

/-- The operand of a jump in byte mode that is not tagged boolean. -/
structure Offset (o : Operand OpReg) : Prop where
  byte : o.isShort = false
  boolean : o.semantics.boolean = false
  immJmp : o.semantics.immJmp = false

variable {pc : Short}

theorem Offset.jump {o : Operand OpReg} (ho : Offset o) (hpc : c.pc = pc) (returnAddr : Short)
    (hv : Along (handle next) (Micro.ReadsOffset E σ₀ v) (Emit.jump (Emit.target o) returnAddr) c) :
    Along (handle next) (Micro.Addresses E σ₀ (Uxn.relative pc v))
      (Emit.jump (Emit.target o) returnAddr) c ↔ InMemory pc v := by
  subst hpc
  exact jump_addresses (Emit.target o) ho.byte ho.boolean ho.immJmp
    (by simp [Emit.target]) returnAddr hv

theorem pop_addresses : Along (handle next) (Micro.Addresses E σ₀ a) Emit.pop c :=
  ⟨trivial, trivial, trivial, trivial⟩

theorem JMP_addresses (hpc : c.pc = pc) (ho : Offset (c.popEx (opFlag2 c.currentOpcode) c.cur).1)
    (hv : Along (handle next) (Micro.ReadsOffset E σ₀ v) Emit.JMP c) :
    Along (handle next) (Micro.Addresses E σ₀ (Uxn.relative pc v)) Emit.JMP c ↔
      InMemory pc v := by
  have hpc' : (run (handle next) Emit.pop c).2.pc = pc := (c.popEx_pc _ _).trans hpc
  obtain ⟨-, hv⟩ := (along_bind _ _ _).mp hv
  obtain ⟨hv, -⟩ := (along_bind _ _ _).mp hv
  rw [← ho.jump hpc' 0 hv]
  constructor
  · intro h
    obtain ⟨-, h⟩ := (along_bind _ _ _).mp h
    exact ((along_bind _ _ _).mp h).1
  · intro h
    refine (along_bind _ _ _).mpr ⟨pop_addresses, ?_⟩
    refine (along_bind _ _ _).mpr ⟨h, ?_⟩
    split
    · exact ⟨trivial, trivial⟩
    · trivial

theorem Offset.conditionalJump {o : Operand OpReg} (ho : Offset o) (hpc : c.pc = pc)
    (condition : Operand OpReg) (hv : Along (handle next) (Micro.ReadsOffset E σ₀ v)
      (Emit.conditionalJump condition (Emit.target o)) c) :
    Along (handle next) (Micro.Addresses E σ₀ (Uxn.relative pc v))
      (Emit.conditionalJump condition (Emit.target o)) c ↔ InMemory pc v := by
  obtain ⟨-, -, -, -, hv⟩ := hv
  obtain ⟨hv, -⟩ := (along_bind (Emit.jump (Emit.target o) 0) _ _).mp hv
  refine Iff.trans ?_ (ho.jump (?_ : _ = pc) 0 hv)
  · constructor
    · rintro ⟨-, -, -, -, h⟩
      exact ((along_bind (Emit.jump (Emit.target o) 0) _ _).mp h).1
    · intro h
      refine ⟨trivial, trivial, trivial, trivial, ?_⟩
      exact (along_bind (Emit.jump (Emit.target o) 0) _ _).mpr ⟨h, trivial, trivial⟩
  · exact hpc

theorem JCN_addresses (hpc : c.pc = pc) (ho : Offset (c.popEx (opFlag2 c.currentOpcode) c.cur).1)
    (hv : Along (handle next) (Micro.ReadsOffset E σ₀ v) Emit.JCN c) :
    Along (handle next) (Micro.Addresses E σ₀ (Uxn.relative pc v)) Emit.JCN c ↔
      InMemory pc v := by
  have hpc' : (run (handle next) Emit.popByte (run (handle next) Emit.pop c).2).2.pc = pc :=
    (Ctx.popEx_pc _ _ _).trans ((c.popEx_pc _ _).trans hpc)
  obtain ⟨-, hv⟩ := (along_bind _ _ _).mp hv
  obtain ⟨-, hv⟩ := (along_bind _ _ _).mp hv
  rw [← ho.conditionalJump hpc' _ hv]
  constructor
  · intro h
    obtain ⟨-, h⟩ := (along_bind _ _ _).mp h
    exact ((along_bind _ _ _).mp h).2
  · intro h
    refine (along_bind _ _ _).mpr ⟨pop_addresses, ?_⟩
    exact (along_bind _ _ _).mpr ⟨⟨trivial, trivial, trivial⟩, h⟩

theorem JSR_addresses (hpc : c.pc = pc) (ho : Offset (c.popEx (opFlag2 c.currentOpcode) c.cur).1)
    (hv : Along (handle next) (Micro.ReadsOffset E σ₀ v) Emit.JSR c) :
    Along (handle next) (Micro.Addresses E σ₀ (Uxn.relative pc v)) Emit.JSR c ↔
      InMemory pc v := by
  obtain ⟨-, hv⟩ := (along_bind _ _ _).mp hv
  obtain ⟨-, -, -, -, -, -, hv⟩ := hv
  refine Iff.trans ?_ (ho.jump (?_ : _ = pc) _ hv)
  · constructor
    · intro h
      obtain ⟨-, h⟩ := (along_bind _ _ _).mp h
      obtain ⟨-, -, -, -, -, -, h⟩ := h
      exact h
    · intro h
      refine (along_bind _ _ _).mpr ⟨pop_addresses, ?_⟩
      exact ⟨trivial, trivial, trivial, trivial, trivial, trivial, h⟩
  · have hpop : (run (handle next) Emit.pop c).2.pc = pc := (c.popEx_pc _ _).trans hpc
    simp only [handle, Ctx.pushEx_pc, Ctx.lift, Ctx.liftReg, hpop]

/-- LDR and STR compute the address, which they reduce modulo 65536 when they use it. -/
theorem relative_mach (hpc : c.pc = pc) {addr : Operand OpReg}
    (hv : Along (handle next) (Micro.ReadsOffset E σ₀ v) (Emit.relative addr) c) :
    let c' := (run (handle next) (Emit.relative addr) c).2
    (c'.mach E σ₀).status = .running ∧
      ((c'.mach E σ₀).regs (.op addr.reg)).setWidth 16 = Uxn.relative pc v := by
  obtain ⟨-, ⟨hrun, hlow⟩, -⟩ := hv
  obtain ⟨hrun', hsum⟩ := relative_regs (E := E) hrun hlow c.pc
  refine ⟨hrun', (congrArg (BitVec.setWidth 16) hsum).trans ?_⟩
  rw [nativeSum_setWidth, hpc]

theorem relative_addresses {addr : Operand OpReg} :
    Along (handle next) (Micro.Addresses E σ₀ a) (Emit.relative addr) c :=
  ⟨trivial, trivial, trivial, trivial⟩

theorem loadPush_addresses (hrun : (c.mach E σ₀).status = .running) {addr : Operand OpReg}
    (hshort : addr.isShort = true) (hr : ((c.mach E σ₀).regs (.op addr.reg)).setWidth 16 = a) :
    Along (handle next) (Micro.Addresses E σ₀ a) (Emit.loadPush addr) c := by
  obtain ⟨-, hregs, -⟩ := (Gen.aside_allocReg c.toGen).aside hrun
  refine ⟨trivial, fun hrun' => ?_, trivial, trivial, trivial, trivial⟩
  refine Gen.load_accesses hrun' _ hshort ?_
  exact (congrArg (BitVec.setWidth 16) (hregs addr.reg)).trans hr

theorem LDR_addresses (hpc : c.pc = pc)
    (hv : Along (handle next) (Micro.ReadsOffset E σ₀ v) Emit.LDR c) :
    Along (handle next) (Micro.Addresses E σ₀ (Uxn.relative pc v)) Emit.LDR c := by
  have hpc' : (run (handle next) Emit.popByte c).2.pc = pc := (c.popEx_pc _ _).trans hpc
  obtain ⟨-, hv⟩ := (along_bind _ _ _).mp hv
  obtain ⟨hv, -⟩ := (along_bind (Emit.relative _) _ _).mp hv
  obtain ⟨hrun, hr⟩ := relative_mach hpc' hv
  refine (along_bind _ _ _).mpr ⟨⟨trivial, trivial, trivial⟩, ?_⟩
  exact (along_bind (Emit.relative _) _ _).mpr ⟨relative_addresses, loadPush_addresses hrun rfl hr⟩

theorem STR_addresses (hpc : c.pc = pc)
    (hv : Along (handle next) (Micro.ReadsOffset E σ₀ v) Emit.STR c) :
    Along (handle next) (Micro.Addresses E σ₀ (Uxn.relative pc v)) Emit.STR c := by
  have hpc' : (run (handle next) Emit.pop (run (handle next) Emit.popByte c).2).2.pc = pc :=
    (Ctx.popEx_pc _ _ _).trans ((c.popEx_pc _ _).trans hpc)
  obtain ⟨-, hv⟩ := (along_bind _ _ _).mp hv
  obtain ⟨-, hv⟩ := (along_bind _ _ _).mp hv
  obtain ⟨hv, -⟩ := (along_bind (Emit.relative _) _ _).mp hv
  obtain ⟨hrun, hr⟩ := relative_mach hpc' hv
  refine (along_bind _ _ _).mpr ⟨⟨trivial, trivial, trivial⟩, ?_⟩
  refine (along_bind _ _ _).mpr ⟨pop_addresses, ?_⟩
  refine (along_bind (Emit.relative _) _ _).mpr ⟨relative_addresses, fun hrun' => ?_, trivial⟩
  exact Gen.store_accesses hrun' rfl hr

end Opcodes

/-- The operand of a relative jump that is about to be compiled. -/
theorem Ctx.Compiling.offset {fuel : ℕ} {ctx : Ctx} (h : ctx.Compiling fuel)
    (hbyte : opFlag2 (ctx.jit.memory ctx.pc) = false) (hb : ctx.jumpsByBoolean = false) :
    Offset (ctx.beginOpcode.popEx (opFlag2 ctx.beginOpcode.currentOpcode) ctx.beginOpcode.cur).1 := by
  have hguarded : ctx.beginOpcode.Guarded := h.guarded
  rw [Ctx.jumpsByBoolean, ctx.jumpOperand_eq] at hb
  rw [← ctx.beginOpcode_currentOpcode] at hbyte
  rw [hbyte] at hb ⊢
  exact ⟨rfl, hb, hguarded.popEx _ _⟩

/-- **Relative addresses.** LDR and STR access the address of the next opcode plus the signed offset
modulo 65536. A relative jump hands it to the guard, along the link and to the trampoline exactly if
the sum is in memory. -/
theorem Ctx.Compiling.addresses_iff {fuel : ℕ} {ctx : Ctx} (h : ctx.Compiling (fuel + 1))
    (hrel : ctx.Relative) {E : Env} {σ₀ : Mach} {v : Byte}
    (hv : ctx.AlongNext fuel (Micro.ReadsOffset E σ₀ v)) :
    ctx.AlongNext fuel (Micro.Addresses E σ₀ (Uxn.relative (ctx.pc + 1) v)) ↔
      decode (ctx.jit.memory ctx.pc) = .LDR ∨ decode (ctx.jit.memory ctx.pc) = .STR ∨
        InMemory (ctx.pc + 1) v := by
  have hpc : ctx.beginOpcode.pc = ctx.pc + 1 := rfl
  unfold Ctx.Relative at hrel
  unfold Ctx.AlongNext at hv ⊢
  split at hrel
  next hd =>
    rw [hd] at hv ⊢
    refine (JMP_addresses hpc (h.offset hrel.1 hrel.2) hv).trans ?_
    simp
  next hd =>
    rw [hd] at hv ⊢
    refine (JCN_addresses hpc (h.offset hrel.1 hrel.2) hv).trans ?_
    simp
  next hd =>
    rw [hd] at hv ⊢
    refine (JSR_addresses hpc (h.offset hrel.1 hrel.2) hv).trans ?_
    simp
  next hd =>
    rw [hd] at hv ⊢
    exact iff_of_true (LDR_addresses hpc hv) (.inl rfl)
  next hd =>
    rw [hd] at hv ⊢
    exact iff_of_true (STR_addresses hpc hv) (.inr (.inl rfl))
  next => exact hrel.elim

/-- LIT 02, JMP. -/
def skipTwo : List Byte := [0x80, 0x02, 0x0c]

/-- A machine with this memory, at the entry of a block. -/
def Mach.hosting (m : Short → Byte) : Mach :=
  .start default fun r => if r = .memory then m else fun _ => 0

theorem addresses_iff_skipTwo :
    (nextOpcode 1 (.boot skipTwo)).AlongNext 0 (Micro.Addresses default (.hosting (rom skipTwo))
        (Uxn.relative ((nextOpcode 1 (.boot skipTwo)).pc + 1) 2)) ↔
      decode ((nextOpcode 1 (.boot skipTwo)).jit.memory (nextOpcode 1 (.boot skipTwo)).pc) = .LDR ∨
      decode ((nextOpcode 1 (.boot skipTwo)).jit.memory (nextOpcode 1 (.boot skipTwo)).pc) = .STR ∨
        InMemory ((nextOpcode 1 (.boot skipTwo)).pc + 1) 2 :=
  Ctx.Compiling.addresses_iff (.next (.start 1 _ _ _)) (by decide +kernel) (by decide +kernel)

/-- LIT 7f, JMP at fff0. -/
def pastTheEnd (addr : Short) : Byte :=
  if addr = 0xfff0 then 0x80 else if addr = 0xfff1 then 0x7f else if addr = 0xfff2 then 0x0c else 0

/-- The jump from fff3 by 7f leaves with 10072, the end of the program, instead of 0072. -/
theorem pastTheEnd_not_relative :
    ¬(nextOpcode 1 (.start (.init pastTheEnd) 0 0xfff0)).AlongNext 0
        (Micro.Addresses default (.hosting pastTheEnd) (Uxn.relative 0xfff3 0x7f)) ∧
      ((nextOpcode 1 (nextOpcode 1 (.start (.init pastTheEnd) 0 0xfff0))).mach default
        (.hosting pastTheEnd)).status = .left (.ret 0x10072) := by
  decide +kernel

end BuxnJit
