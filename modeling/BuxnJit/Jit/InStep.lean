import BuxnJit.Foundations.Relational
import BuxnJit.Jit.Exits
import BuxnJit.Jit.Opening

/-!
# Micro operations beside accesses

The compilation of an opcode is run beside its execution by the reference machine, with what cells
and operands are given on the side (`translating`). While the opcode pops they are related by
`Drawing`, afterwards by `InStep`; there is one rule for every micro operation that the straight-line
opcodes are made of. The rules assume that micro operations are `Clean`: they update no shared
register in place, and pops find the registers that they need.
-/

namespace BuxnJit

open Foundations Prog

open Uxn (opStack)

/-! ## What is assumed -/

/-- A pop finds the registers that it needs. -/
def Micro.FindsRegs (o : Micro) (ctx : Ctx) : Prop :=
  match o with
  | .popEx flag2 s => ctx.toGen.PopsWell (opFlagK ctx.currentOpcode) flag2 s
  | _ => True

/-- No opcode is inlined. -/
def Micro.direct : Micro → Bool
  | .nextOpcode => false
  | _ => true

/-- Registers are updated in place only where nothing else refers to them, and pops find the
registers that they need. No opcode is inlined. -/
structure Micro.Clean (o : Micro) (ctx : Ctx) : Prop where
  sole : o.Sole ctx
  finds : o.FindsRegs ctx
  direct : o.direct

instance (o : Micro) (ctx : Ctx) : Decidable (o.FindsRegs ctx) :=
  match o with
  | .popEx flag2 s =>
    inferInstanceAs (Decidable (ctx.toGen.PopsWell (opFlagK ctx.currentOpcode) flag2 s))
  | .ask | .pushEx .. | .discard .. | .alu _ | .allocReg | .divide .. | .load .. | .store ..
  | .immediate _ | .clearStackCaches | .deviceStore .. | .callDevice .. | .immediateJumpTarget
  | .newLabel | .emit _ | .forgetMemBase | .linkEntry .. | .nextOpcode | .setCompiler _ =>
    .isTrue trivial

instance (o : Micro) (ctx : Ctx) : Decidable (o.Clean ctx) :=
  decidable_of_iff (o.Sole ctx ∧ o.FindsRegs ctx ∧ o.direct)
    ⟨fun h => ⟨h.1, h.2.1, h.2.2⟩, fun h => ⟨h.sole, h.finds, h.direct⟩⟩

/-- An opcode is compiled beside its execution; the requests that it makes are in `rs`. -/
def translating (E : Env) (σ₀ : Mach) (fuel : ℕ) (rs : List Request) :
    Coupling micro Uxn.accesses (Ctx × Given) Uxn.Frame where
  left := recording (handle (nextOpcode fuel)) (Micro.give E σ₀ (nextOpcode fuel) (given E σ₀ fuel))
  right := Uxn.perform
  assumes o q := o.Clean q.1 ∧ q.1.NoTargets ∧ (∀ r ∈ o.requested (requests fuel) q.1, r ∈ rs) ∧
    ∃ held t, holding.pre o held ∧ o.Needs t ∧ Followed E σ₀ held t q.1 q.2
  assumes' := Uxn.Live

/-! ## Values in registers -/

/-- A byte or a short in a register. -/
def narrow (isShort : Bool) (v : Short) : Word :=
  if isShort then v.setWidth 64 else (v.setWidth 8 : Byte).setWidth 64

theorem fits_narrow (isShort : Bool) (v : Short) : Fits isShort (narrow isShort v) := by
  have hv := v.isLt
  unfold Fits narrow
  cases isShort
  · simp only [Bool.false_eq_true, if_false, BitVec.toNat_setWidth]
    omega
  · simp only [if_true, BitVec.toNat_setWidth]
    omega

theorem wordBytes_narrow (isShort : Bool) (v : Short) : wordBytes isShort (narrow isShort v) =
    if isShort then [Uxn.hi v, Uxn.lo v] else [Uxn.lo v] := by
  cases isShort
  · simp [wordBytes, narrow, Uxn.lo]
  · simp [wordBytes, narrow, Uxn.lo, ← word_hi]

theorem and_mask (isShort : Bool) (w : Word) :
    w &&& (if isShort then 0xffff else 0x00ff) = narrow isShort (w.setWidth 16) := by
  apply BitVec.eq_of_toNat_eq
  have h₁ : ∀ n, n &&& 65535 = n % 2 ^ 16 := fun n => Nat.and_two_pow_sub_one_eq_mod n 16
  have h₂ : ∀ n, n &&& 255 = n % 2 ^ 8 := fun n => Nat.and_two_pow_sub_one_eq_mod n 8
  have hw := w.isLt
  cases isShort
  · simp only [narrow, Bool.false_eq_true, if_false, BitVec.toNat_and, BitVec.toNat_setWidth]
    refine (h₂ w.toNat).trans ?_
    omega
  · simp only [narrow, if_true, BitVec.toNat_and, BitVec.toNat_setWidth]
    refine (h₁ w.toNat).trans ?_
    omega

/-- The operand is a byte or a short as `isShort` says, of which `v` is the value. -/
structure Carries (isShort : Bool) (o : Operand OpReg) (v : Short) : Prop where
  size : o.isShort = isShort
  value : v.setWidth 64 = narrow isShort v
  plain : o.semantics.immJmp = false

/-! ## The relations -/

/-- In the course of the opcode `op` before `pc`, with the operands `ops`. -/
structure InStep (E : Env) (σ₀ : Mach) (W : World) (op : Byte) (pc : Short) (ops : List (OpReg × Word))
    (q : Ctx × Given) (f : Uxn.Frame) : Prop where
  opcode : q.1.currentOpcode = op
  pc : q.1.pc = pc
  active : q.1.compiler ≠ none
  cur : f.cur = opStack op
  running : (q.1.mach E σ₀).status = .running
  mirrors : Gen.Mirrors E σ₀ W q.2.cells q.1.toGen f.toUxn
  operands : q.2.operands = ops

/-- As long as the opcode pops. -/
structure Drawing (E : Env) (σ₀ : Mach) (W : World) (op : Byte) (pc : Short) (ops : List (OpReg × Word))
    (q : Ctx × Given) (f : Uxn.Frame) : Prop extends InStep E σ₀ W op pc ops q f where
  draws : Gen.Draws E σ₀ q.2.cells q.1.toGen f
  keep : f.copy.isSome = opFlagK op

section Rules

variable {E : Env} {σ₀ : Mach} {W : World} {fuel : ℕ} {rs : List Request} {op : Byte} {pc : Short}
  {ops ops' : List (OpReg × Word)}
  {q q' : Ctx × Given} {f f' : Uxn.Frame} {α β γ : Type}

theorem InStep.ctx_cur (h : InStep E σ₀ W op pc ops q f) : q.1.cur = opStack op := by
  rw [Gen.cur, h.opcode]
  rfl

/-- What is left to show after code that runs on. -/
theorem InStep.emits (h : InStep E σ₀ W op pc ops q f)
    (hemits : Gen.Emits Gen.Loose q.1.toGen q'.1.toGen) (hpc : q'.1.pc = q.1.pc)
    (hcompiler : q'.1.compiler = q.1.compiler) (hcur : f'.cur = f.cur) (hops : q'.2.operands = ops')
    (hmirrors : Gen.Mirrors E σ₀ W q'.2.cells q'.1.toGen f'.toUxn) : InStep E σ₀ W op pc ops' q' f' where
  opcode := hemits.currentOpcode.trans h.opcode
  pc := hpc.trans h.pc
  active := hcompiler.trans_ne h.active
  cur := hcur.trans h.cur
  running := (Gen.status_of_emits hemits).trans h.running
  mirrors := hmirrors
  operands := hops

/-! ### Pops -/

theorem pop_narrow (isShort : Bool) (f : Uxn.Frame) :
    ((Uxn.pop isShort).run Uxn.perform f).1.setWidth 64 =
      narrow isShort ((Uxn.pop isShort).run Uxn.perform f).1 := by
  cases isShort with
  | false =>
    rw [View.run_pop_false, ← Layout.setWidth_byte, narrow]
    simp
  | true => rfl

variable (fuel) in
/-- **A pop.** -/
theorem coupled_popEx (h : Drawing E σ₀ W op pc ops q f) (isShort : Bool) {s : Stk} (hs : s = f.cur) :
    Coupled (translating E σ₀ fuel rs) (Emit.popEx isShort s) (Uxn.pop isShort)
      (fun o v q f => Drawing E σ₀ W op pc ((o.reg, v.setWidth 64) :: ops) q f ∧ Carries isShort o v)
      q f := by
  rintro ⟨⟨⟨hsole, hwell, -⟩, hplain, -, held, t, hpre, hneeds, hfollowed⟩, -⟩ hlive
  obtain ⟨c, x⟩ := q
  subst hs
  have hwell' : c.toGen.PopsWell f.copy.isSome isShort f.cur := by
    rw [h.keep, ← h.opcode]
    exact hwell
  have hpop := h.draws.stackCachePop h.mirrors (hfollowed.holds h.running) hfollowed.accounts
    (hpre.2 _ rfl) hfollowed.mem_held (hfollowed.pointers hneeds) hfollowed.spRegs hsole hwell' hlive
  have hbelow := View.below_pop isShort f
  have hreg := Ctx.popEx_reg c isShort f.cur
  have hgen := Ctx.popEx_toGen c isShort f.cur
  rw [← hgen, ← hreg] at hpop
  refine ⟨⟨?_, hpop.draws, hbelow.copy.trans h.keep⟩, rfl, pop_narrow isShort f,
    hplain.popEx isShort f.cur⟩
  apply h.emits
  · exact handle_emits (nextOpcode fuel) (o := .popEx isShort f.cur) rfl hfollowed.spRegs
  · exact c.popEx_pc isShort f.cur
  · exact c.popEx_compiler isShort f.cur
  · exact hbelow.cur
  · show ((c.popEx isShort f.cur).1.reg, ((c.popEx isShort f.cur).2.mach E σ₀).regs
      (.op (c.popEx isShort f.cur).1.reg)) :: x.operands = _
    rw [hpop.value, h.operands]
    rfl
  · exact hpop.mirrors

theorem spill_self {held : List OpReg} {t : Course} {c : Ctx} {x : Given}
    (h : Followed E σ₀ held t c x) (hrun : (c.mach E σ₀).status = .running) : x.spill c = x := by
  have hself := (h.holds hrun).spilled_self
  unfold Given.spill
  exact congrArg (fun cells => (⟨cells, x.operands⟩ : Given)) hself

/-- Reading the context changes nothing. -/
theorem coupled_ask {k : Ctx → Emit.Op α} {p : Uxn.Op β}
    {Ψ : α → β → Ctx × Given → Uxn.Frame → Prop} (h : InStep E σ₀ W op pc ops q f)
    (hk : Coupled (translating E σ₀ fuel rs) (k q.1) p Ψ q f) :
    Coupled (translating E σ₀ fuel rs) (Emit.ask >>= k) p Ψ q f := by
  refine coupled_left ?_
  rintro ⟨⟨-, -, -, held, t, -, -, hfollowed⟩, -⟩
  have hspill := spill_self hfollowed h.running
  show Coupled (translating E σ₀ fuel rs) (k q.1) p Ψ (q.1, q.2.spill q.1) f
  rwa [hspill]

theorem coupled_flag2 {k : Bool → Emit.Op α} {p : Uxn.Op β}
    {Ψ : α → β → Ctx × Given → Uxn.Frame → Prop} (h : InStep E σ₀ W op pc ops q f)
    (hk : Coupled (translating E σ₀ fuel rs) (k (opFlag2 op)) p Ψ q f) :
    Coupled (translating E σ₀ fuel rs) (Emit.flag2 >>= k) p Ψ q f := by
  have hflag : opFlag2 q.1.currentOpcode = opFlag2 op := congrArg opFlag2 h.opcode
  rw [← hflag] at hk
  exact coupled_ask h hk

theorem coupled_cur {k : Stk → Emit.Op α} {p : Uxn.Op β}
    {Ψ : α → β → Ctx × Given → Uxn.Frame → Prop} (h : InStep E σ₀ W op pc ops q f)
    (hk : Coupled (translating E σ₀ fuel rs) (k f.cur) p Ψ q f) :
    Coupled (translating E σ₀ fuel rs) (Emit.cur >>= k) p Ψ q f := by
  rw [h.cur, ← h.ctx_cur] at hk
  exact coupled_ask h hk

theorem coupled_pop (h : Drawing E σ₀ W op pc ops q f) :
    Coupled (translating E σ₀ fuel rs) Emit.pop (Uxn.pop (opFlag2 op))
      (fun o v q f => Drawing E σ₀ W op pc ((o.reg, v.setWidth 64) :: ops) q f ∧
        Carries (opFlag2 op) o v) q f := by
  refine coupled_flag2 h.toInStep ?_
  refine coupled_cur h.toInStep ?_
  exact coupled_popEx fuel h (opFlag2 op) rfl

/-- The byte that is popped, as a short. -/
theorem coupled_popExByte (h : Drawing E σ₀ W op pc ops q f) {s : Stk} (hs : s = f.cur) :
    Coupled (translating E σ₀ fuel rs) (Emit.popEx false s) Uxn.popByte
      (fun o b q f => Drawing E σ₀ W op pc ((o.reg, b.setWidth 64) :: ops) q f ∧
        Carries false o (b.setWidth 16)) q f := by
  intro hleft hright
  obtain ⟨hdrawing, hcarries⟩ := coupled_popEx fuel h false hs hleft ⟨hright.1, trivial⟩
  refine ⟨?_, hcarries⟩
  rw [Layout.setWidth_byte]
  exact hdrawing

theorem coupled_popByte (h : Drawing E σ₀ W op pc ops q f) :
    Coupled (translating E σ₀ fuel rs) Emit.popByte Uxn.popByte
      (fun o b q f => Drawing E σ₀ W op pc ((o.reg, b.setWidth 64) :: ops) q f ∧
        Carries false o (b.setWidth 16)) q f := by
  refine coupled_cur h.toInStep ?_
  exact coupled_popExByte h rfl

/-! ### Pushes -/

theorem run_push (s : Stk) (isShort : Bool) (v : Short) (f : Uxn.Frame) :
    ((Uxn.push s isShort v).run Uxn.perform f).2 =
      Gen.pushAll s (wordBytes isShort (narrow isShort v)) f := by
  rw [wordBytes_narrow]
  cases isShort <;> rfl

theorem pushAll_cur (s : Stk) (bs : List Byte) (f : Uxn.Frame) : (Gen.pushAll s bs f).cur = f.cur := by
  induction bs generalizing f with
  | nil => rfl
  | cons b bs ih => exact ih _

/-- **A push.** -/
theorem coupled_pushValue (h : InStep E σ₀ W op pc ops q f) (s : Stk) {isShort : Bool}
    {o : Operand OpReg} {v : Short} (hsize : o.isShort = isShort)
    (hvalue : (q.1.mach E σ₀).regs (.op o.reg) = narrow isShort v) :
    Coupled (translating E σ₀ fuel rs) (Emit.pushEx o s) (Uxn.push s isShort v)
      (fun _ _ => InStep E σ₀ W op pc ops) q f := by
  rintro ⟨⟨-, -, -, held, t, -, -, hfollowed⟩, -⟩ -
  obtain ⟨c, x⟩ := q
  subst hsize
  change (c.mach E σ₀).regs (.op o.reg) = _ at hvalue
  have hholds := hfollowed.holds h.running
  have hgen := Ctx.pushEx_toGen c s o
  have hassert : Gen.Mirrors E σ₀ W x.cells (c.toGen.assert (c.refCounts o.reg != 0)) f.toUxn :=
    h.mirrors.books rfl rfl rfl
  have hholds' : Gen.Holds E σ₀ x.cells x.operands (c.toGen.assert (c.refCounts o.reg != 0)) :=
    ⟨hholds.running, hholds.cells, hholds.operands⟩
  have hfit : Fits o.isShort ((c.mach E σ₀).regs (.op o.reg)) := by
    rw [hvalue]
    exact fits_narrow _ _
  have hpush := hassert.stackCachePush hholds' s hfit
  rw [← hgen] at hpush
  apply h.emits
  · exact handle_emits (nextOpcode fuel) (o := .pushEx o s) rfl hfollowed.spRegs
  · exact c.pushEx_pc s o
  · exact c.pushEx_compiler s o
  · show ((Uxn.push s o.isShort v).run Uxn.perform f).2.cur = f.cur
    rw [run_push, pushAll_cur]
  · exact h.operands
  · show Gen.Mirrors E σ₀ W _ _ ((Uxn.push s o.isShort v).run Uxn.perform f).2.toUxn
    rw [run_push, ← hvalue]
    exact hpush

/-- The same for an operand of the opcode. -/
theorem coupled_pushEx (h : InStep E σ₀ W op pc ops q f) (s : Stk) {isShort : Bool} {o : Operand OpReg}
    {v : Short} (hsize : o.isShort = isShort) (ho : (o.reg, narrow isShort v) ∈ ops) :
    Coupled (translating E σ₀ fuel rs) (Emit.pushEx o s) (Uxn.push s isShort v)
      (fun _ _ => InStep E σ₀ W op pc ops) q f := by
  intro hleft hright
  have hfirst := hleft
  obtain ⟨⟨-, -, -, held, t, -, -, hfollowed⟩, -⟩ := hfirst
  have hvalue : (q.1.mach E σ₀).regs (.op o.reg) = narrow isShort v :=
    (hfollowed.holds h.running).operands _ (h.operands ▸ ho)
  exact coupled_pushValue h s hsize hvalue hleft hright

theorem coupled_push (h : InStep E σ₀ W op pc ops q f) {isShort : Bool} {o : Operand OpReg}
    {v : Short} (hsize : o.isShort = isShort) (ho : (o.reg, narrow isShort v) ∈ ops) :
    Coupled (translating E σ₀ fuel rs) (Emit.push o) (Uxn.push (opStack op) isShort v)
      (fun _ _ => InStep E σ₀ W op pc ops) q f := by
  refine coupled_cur h ?_
  rw [h.cur]
  exact coupled_pushEx h (opStack op) hsize ho

/-! ### Computations -/

section Computing

variable {k : Unit → Emit.Op α} {p : Uxn.Op β} {Ψ : α → β → Ctx × Given → Uxn.Frame → Prop}

/-- What an instruction leaves of the operands. -/
def Alu.renewed (a : Alu) (σ : Mach) (ops : List (OpReg × Word)) : List (OpReg × Word) :=
  match a.dst with
  | some (.op r) => Given.renew r (σ.regs (.op r)) ops
  | _ => ops

variable (fuel) in
theorem InStep.alu {c : Ctx} {x : Given} (h : InStep E σ₀ W op pc ops (c, x) f) {held : List OpReg}
    {t : Course} (hfollowed : Followed E σ₀ held t c x) (a : Alu) :
    InStep E σ₀ W op pc (a.renewed ((c.toGen.emit a.instr).mach E σ₀) ops)
      (c.lift (·.emit a.instr),
        Micro.give E σ₀ (nextOpcode fuel) (given E σ₀ fuel) (.alu a) c x) f := by
  have hholds := hfollowed.holds h.running
  have hself : Gen.spilled (c.toGen.emit a.instr) x.cells = x.cells := hholds.spilled_self
  have hgive : Micro.give E σ₀ (nextOpcode fuel) (given E σ₀ fuel) (.alu a) c x =
      ⟨x.cells, a.renewed ((c.toGen.emit a.instr).mach E σ₀) x.operands⟩ := by
    rw [← hself]
    cases hdst : a.dst with
    | none => simp only [Micro.give, Alu.renewed, hdst]; rfl
    | some d => cases d <;> simp only [Micro.give, Alu.renewed, hdst] <;> rfl
  have hops : x.operands = ops := h.operands
  rw [hgive, ← hops]
  apply h.emits
  · exact handle_emits (nextOpcode fuel) (o := .alu a) rfl hfollowed.spRegs
  · rfl
  · rfl
  · rfl
  · rfl
  · exact h.mirrors.still h.running (Gen.still_alu _ a) rfl

/-- **An instruction** computes an operand from others, in a register of its own. -/
theorem coupled_alu (h : InStep E σ₀ W op pc ops q f) {a : Alu} {r : OpReg} {w : Word}
    (hdst : a.dst = some (.op r))
    (hw : ∀ σ : Mach, σ.status = .running → (∀ p ∈ ops, σ.regs (.op p.1) = p.2) →
      (σ.step E a.instr).regs (.op r) = w)
    (hk : ∀ q', (ops.map Prod.fst).count r ≤ 1 → InStep E σ₀ W op pc (Given.renew r w ops) q' f →
      Coupled (translating E σ₀ fuel rs) (k ()) p Ψ q' f) :
    Coupled (translating E σ₀ fuel rs) (Emit.alu a >>= k) p Ψ q f := by
  refine coupled_left ?_
  rintro ⟨⟨⟨hsole, -, -⟩, -, -, held, t, hpre, hneeds, hfollowed⟩, -⟩
  obtain ⟨c, x⟩ := q
  have hops : x.operands = ops := h.operands
  have hvalue : ((c.toGen.emit a.instr).mach E σ₀).regs (.op r) = w :=
    hw _ h.running (hops ▸ (hfollowed.holds h.running).operands)
  have hone := hfollowed.alu_sole hneeds hsole hdst
  have hcount := (hfollowed.counts r).trans
    (Gen.Accounts.alone hfollowed.accounts hone (hpre.1 (Alu.dst_mem hdst))).1.le
  have hafter := h.alu fuel hfollowed a
  simp only [Alu.renewed, hdst, hvalue] at hafter
  exact hk _ (hops ▸ hcount) hafter

theorem renew_head (r : OpReg) (w₀ w : Word) : Given.renew r w ((r, w₀) :: ops) = (r, w) :: ops :=
  if_pos rfl

/-- The same for the operand that was obtained last. -/
theorem coupled_own {a : Alu} {r : OpReg} {w₀ w : Word} (h : InStep E σ₀ W op pc ((r, w₀) :: ops) q f)
    (hdst : a.dst = some (.op r))
    (hw : ∀ σ : Mach, σ.status = .running → (∀ p ∈ (r, w₀) :: ops, σ.regs (.op p.1) = p.2) →
      (σ.step E a.instr).regs (.op r) = w)
    (hk : ∀ q', InStep E σ₀ W op pc ((r, w) :: ops) q' f →
      Coupled (translating E σ₀ fuel rs) (k ()) p Ψ q' f) :
    Coupled (translating E σ₀ fuel rs) (Emit.alu a >>= k) p Ψ q f := by
  refine coupled_alu h hdst hw fun q' _ h' => ?_
  rw [renew_head] at h'
  exact hk q' h'

/-- An instruction on the temporary register or the flags, and one that uses them. -/
theorem coupled_ownTwo {a b : Alu} {r : OpReg} {w₀ w : Word}
    (h : InStep E σ₀ W op pc ((r, w₀) :: ops) q f) (ha : ∀ r, a.dst ≠ some (.op r))
    (hdst : b.dst = some (.op r))
    (hw : ∀ σ : Mach, σ.status = .running → (∀ p ∈ (r, w₀) :: ops, σ.regs (.op p.1) = p.2) →
      ((σ.step E a.instr).step E b.instr).regs (.op r) = w)
    (hk : ∀ q', InStep E σ₀ W op pc ((r, w) :: ops) q' f →
      Coupled (translating E σ₀ fuel rs) (k ()) p Ψ q' f) :
    Coupled (translating E σ₀ fuel rs) (Emit.alu a >>= fun _ => Emit.alu b >>= k) p Ψ q f := by
  refine coupled_left ?_
  rintro ⟨⟨-, -, -, held, t, -, -, hfollowed⟩, -⟩
  obtain ⟨c, x⟩ := q
  have hfirst := h.alu fuel hfollowed a
  have hrenewed : a.renewed ((c.toGen.emit a.instr).mach E σ₀) ((r, w₀) :: ops) =
      (r, w₀) :: ops := by
    unfold Alu.renewed
    split
    next r hr => exact absurd hr (ha r)
    next => rfl
  rw [hrenewed] at hfirst
  refine coupled_left ?_
  rintro ⟨⟨-, -, -, held', t', -, -, hfollowed'⟩, -⟩
  have hvalue : (((c.toGen.emit a.instr).emit b.instr).mach E σ₀).regs (.op r) = w :=
    hw _ h.running (h.operands ▸ (hfollowed.holds h.running).operands)
  have hsecond := hfirst.alu fuel hfollowed' b
  simp only [Alu.renewed, hdst, renew_head] at hsecond
  apply hk
  rw [← hvalue]
  exact hsecond

/-- **A register is allocated.** -/
theorem coupled_allocReg {k : OpReg → Emit.Op α} (h : InStep E σ₀ W op pc ops q f)
    (hk : ∀ r w q', InStep E σ₀ W op pc ((r, w) :: ops) q' f →
      Coupled (translating E σ₀ fuel rs) (k r) p Ψ q' f) :
    Coupled (translating E σ₀ fuel rs) (Emit.allocReg >>= k) p Ψ q f := by
  refine coupled_left ?_
  rintro ⟨⟨-, -, -, held, t, -, -, hfollowed⟩, -⟩
  obtain ⟨c, x⟩ := q
  have hops : x.operands = ops := h.operands
  apply hk c.toGen.allocReg.1 ((c.toGen.allocReg.2.mach E σ₀).regs (.op c.toGen.allocReg.1))
  rw [← hops]
  apply h.emits
  · exact handle_emits (nextOpcode fuel) (o := .allocReg) rfl hfollowed.spRegs
  · rfl
  · rfl
  · rfl
  · rfl
  · exact h.mirrors.allocReg (hfollowed.holds h.running)

/-- **A result is wrapped around.** -/
theorem coupled_wrapAround {r : OpReg} {w : Word} (h : InStep E σ₀ W op pc ((r, w) :: ops) q f)
    (hk : ∀ q', InStep E σ₀ W op pc ((r, narrow (opFlag2 op) (w.setWidth 16)) :: ops) q' f →
      Coupled (translating E σ₀ fuel rs) (k ()) p Ψ q' f) :
    Coupled (translating E σ₀ fuel rs) (Emit.wrapAround r >>= k) p Ψ q f := by
  show Coupled _ (Emit.flag2 >>= fun flag2 =>
    Emit.alu (.op2 .and (.op r) (.op r) (.imm (if flag2 then 0xffff else 0x00ff))) >>= k) _ _ _ _
  refine coupled_flag2 h ?_
  refine coupled_own h (w := narrow (opFlag2 op) (w.setWidth 16)) rfl ?_ ?_
  · intro σ hrun hops
    have hr : σ.regs (.op r) = w := hops (r, w) List.mem_cons_self
    rw [← and_mask, ← hr]
    exact Mach.step_op2 hrun ..
  · exact hk

end Computing

/-! ### Memory -/

theorem run_load (isShort wide : Bool) (a : Short) (f : Uxn.Frame) :
    (Uxn.load isShort (if wide then 0xffff else 0xff) a).run Uxn.perform f =
      (Gen.loaded f.memory isShort wide a, f) := by
  cases isShort <;> rfl

theorem run_store (isShort wide : Bool) (a v : Short) (f : Uxn.Frame) :
    ((Uxn.store isShort (if wide then 0xffff else 0xff) a v).run Uxn.perform f).2 =
      { f with memory := Gen.stored f.memory isShort wide a v } := by
  cases isShort <;> rfl

theorem narrow_loaded (m : Short → Byte) (isShort wide : Bool) (a : Short) :
    (Gen.loaded m isShort wide a).setWidth 64 = narrow isShort (Gen.loaded m isShort wide a) := by
  cases isShort with
  | false =>
    rw [Gen.loaded, if_neg (by simp), ← Layout.setWidth_byte, narrow]
    simp
  | true => rfl

/-- **A load** into the register that was allocated for it. -/
theorem coupled_load {reg : OpReg} {w₀ wa : Word} {addr : Operand OpReg} {a : Short}
    (h : InStep E σ₀ W op pc ((reg, w₀) :: ops) q f) (ha : (addr.reg, wa) ∈ ops)
    (hwa : wa.setWidth 16 = a) :
    Coupled (translating E σ₀ fuel rs) (perform (F := micro) (.load reg addr))
      (Uxn.load (opFlag2 op) (if addr.isShort then 0xffff else 0xff) a)
      (fun _ v => InStep E σ₀ W op pc ((reg, narrow (opFlag2 op) v) :: ops)) q f := by
  rintro ⟨⟨-, -, -, held, t, -, -, hfollowed⟩, -⟩ -
  obtain ⟨c, x⟩ := q
  have hholds := hfollowed.holds h.running
  have hops : x.operands = (reg, w₀) :: ops := h.operands
  have haddr : (c.mach E σ₀).regs (.op addr.reg) = wa :=
    hholds.operands _ (hops ▸ List.mem_cons_of_mem _ ha)
  have hvalue := Gen.value_load (h.mirrors.aligned h.running) reg addr (a := a)
    (by rw [haddr, hwa])
  rw [h.mirrors.memory, h.opcode, narrow_loaded] at hvalue
  have hcache : (c.toGen.load reg addr).cache = c.cache := Gen.load_cache ..
  have hself : Gen.spilled (c.toGen.load reg addr) x.cells = x.cells :=
    Gen.spilled_of_length fun s => by rw [hcache, hholds.length s]
  show InStep E σ₀ W op pc ((reg, narrow (opFlag2 op)
    ((Uxn.load (opFlag2 op) _ a).run Uxn.perform f).1) :: ops) _
    ((Uxn.load (opFlag2 op) _ a).run Uxn.perform f).2
  rw [run_load]
  apply h.emits
  · exact handle_emits (nextOpcode fuel) (o := .load reg addr) rfl hfollowed.spRegs
  · rfl
  · rfl
  · rfl
  · show Given.renew reg (((c.toGen.load reg addr).mach E σ₀).regs (.op reg)) x.operands = _
    rw [hops, hvalue, renew_head]
  · show Gen.Mirrors E σ₀ W (Gen.spilled (c.toGen.load reg addr) x.cells) _ _
    rw [hself]
    exact h.mirrors.still h.running (Gen.still_load ..) hcache

/-- **A store.** -/
theorem coupled_store (addr : Operand OpReg) {value : Operand OpReg} {isShort : Bool} {wa : Word}
    {a v : Short} (h : InStep E σ₀ W op pc ops q f) (ha : (addr.reg, wa) ∈ ops) (hwa : wa.setWidth 16 = a)
    (hsize : value.isShort = isShort) (hv : (value.reg, v.setWidth 64) ∈ ops) :
    Coupled (translating E σ₀ fuel rs) (perform (F := micro) (.store addr value))
      (Uxn.store isShort (if addr.isShort then 0xffff else 0xff) a v)
      (fun _ _ => InStep E σ₀ W op pc ops) q f := by
  rintro ⟨⟨-, -, -, held, t, -, -, hfollowed⟩, -⟩ -
  obtain ⟨c, x⟩ := q
  subst hsize
  have hholds := hfollowed.holds h.running
  have hops : x.operands = ops := h.operands
  have haddr : ((c.mach E σ₀).regs (.op addr.reg)).setWidth 16 = a :=
    (congrArg _ (hholds.operands _ (hops ▸ ha))).trans hwa
  have hvalue : (c.mach E σ₀).regs (.op value.reg) = v.setWidth 64 :=
    hholds.operands _ (hops ▸ hv)
  have hcache : (c.toGen.store addr value).cache = c.cache := Gen.store_cache ..
  have hself : Gen.spilled (c.toGen.store addr value) x.cells = x.cells :=
    Gen.spilled_of_length fun s => by rw [hcache, hholds.length s]
  have hstore := h.mirrors.store h.running haddr hvalue
  show InStep E σ₀ W op pc ops _ ((Uxn.store value.isShort _ a v).run Uxn.perform f).2
  rw [run_store]
  apply h.emits
  · exact handle_emits (nextOpcode fuel) (o := .store addr value) rfl hfollowed.spRegs
  · rfl
  · rfl
  · rfl
  · exact hops
  · show Gen.Mirrors E σ₀ W (Gen.spilled (c.toGen.store addr value) x.cells) _ _
    rw [hself]
    exact hstore

/-- **An immediate operand**, behind which compilation goes on. -/
theorem coupled_immediate (h : InStep E σ₀ W op pc ops q f) (isShort : Bool) :
    Coupled (translating E σ₀ fuel rs) (perform (F := micro) (.immediate isShort))
      (Uxn.load isShort 0xffff pc)
      (fun o v q f => InStep E σ₀ W op (pc + if isShort then 2 else 1)
        ((o.reg, narrow isShort v) :: ops) q f ∧ o.isShort = isShort) q f := by
  rintro ⟨⟨-, -, -, held, t, -, -, hfollowed⟩, -⟩ -
  obtain ⟨c, x⟩ := q
  have hholds := hfollowed.holds h.running
  have hops : x.operands = ops := h.operands
  have hpc : c.pc = pc := h.pc
  subst hpc
  have halloc := hholds.allocReg
  have hmirrors := h.mirrors.allocReg hholds
  have hvalue := Gen.value_immediate (hmirrors.aligned halloc.running) c.toGen.allocReg.1 isShort
    c.pc
  rw [hmirrors.memory, narrow_loaded] at hvalue
  have hcache : (c.immediate isShort).2.cache = c.toGen.allocReg.2.cache := Gen.immediate_cache ..
  have hstill := hmirrors.still halloc.running
    (Gen.still_immediate _ c.toGen.allocReg.1 isShort c.pc) hcache
  have hrun : (Uxn.load isShort 0xffff c.pc).run Uxn.perform f =
      (Gen.loaded f.memory isShort true c.pc, f) := run_load isShort true c.pc f
  refine ⟨?_, rfl⟩
  show InStep E σ₀ W op _ ((_, narrow isShort
    ((Uxn.load isShort 0xffff c.pc).run Uxn.perform f).1) :: ops) _
    ((Uxn.load isShort 0xffff c.pc).run Uxn.perform f).2
  rw [hrun]
  constructor
  · exact (handle_emits (nextOpcode fuel) (o := .immediate isShort) rfl
      hfollowed.spRegs).currentOpcode.trans h.opcode
  · rfl
  · exact h.active
  · exact h.cur
  · exact (Gen.status_of_emits
      (handle_emits (nextOpcode fuel) (o := .immediate isShort) rfl hfollowed.spRegs)).trans h.running
  · show Gen.Mirrors E σ₀ W (Gen.spilled (c.immediate isShort).2.toGen x.cells) _ _
    have hspilled : Gen.spilled (c.immediate isShort).2.toGen x.cells =
        Gen.spilled c.toGen.allocReg.2 x.cells := by
      funext s
      rw [Gen.spilled, hcache, Gen.spilled]
    rw [hspilled]
    exact hstill
  · rw [← hops]
    exact congrArg (fun w => (_, w) :: x.operands) hvalue

/-- **A division** into the register that was allocated for it. -/
theorem coupled_divide {reg a b : OpReg} {w₀ x y : Word} {k : Unit → Emit.Op α} {p : Uxn.Op β}
    {Ψ : α → β → Ctx × Given → Uxn.Frame → Prop} (h : InStep E σ₀ W op pc ((reg, w₀) :: ops) q f)
    (ha : (a, x) ∈ ops) (hb : (b, y) ∈ ops)
    (hk : ∀ q', InStep E σ₀ W op pc ((reg, x / y) :: ops) q' f →
      Coupled (translating E σ₀ fuel rs) (k ()) p Ψ q' f) :
    Coupled (translating E σ₀ fuel rs) (perform (F := micro) (.divide reg a b) >>= k) p Ψ q f := by
  refine coupled_left ?_
  rintro ⟨⟨-, -, -, held, t, -, -, hfollowed⟩, -⟩
  obtain ⟨c, z⟩ := q
  have hholds := hfollowed.holds h.running
  have hops : z.operands = (reg, w₀) :: ops := h.operands
  have hx : (c.mach E σ₀).regs (.op a) = x :=
    hholds.operands _ (hops ▸ List.mem_cons_of_mem _ ha)
  have hy : (c.mach E σ₀).regs (.op b) = y :=
    hholds.operands _ (hops ▸ List.mem_cons_of_mem _ hb)
  obtain ⟨hrunning, -, -, hvalue, -⟩ := Gen.mach_divide reg a b h.running
  rw [hx, hy] at hvalue
  have hself : Gen.spilled (c.toGen.divide reg a b) z.cells = z.cells :=
    Gen.spilled_of_length fun s => by rw [Gen.divide_cache, hholds.length s]
  have hgive : Micro.give E σ₀ (nextOpcode fuel) (given E σ₀ fuel) (.divide reg a b) c z =
      ⟨z.cells, (reg, x / y) :: ops⟩ := by
    have hgiven : Micro.give E σ₀ (nextOpcode fuel) (given E σ₀ fuel) (.divide reg a b) c z =
        ⟨Gen.spilled (c.toGen.divide reg a b) z.cells,
          Given.renew reg (((c.toGen.divide reg a b).mach E σ₀).regs (.op reg)) z.operands⟩ := rfl
    rw [hgiven, hself, hvalue, hops, renew_head]
  have hpc : (c.lift (·.divide reg a b)).pc = c.pc := by simp only [Ctx.lift]
  have hcompiler : (c.lift (·.divide reg a b)).compiler = c.compiler := by simp only [Ctx.lift]
  apply hk
  show InStep E σ₀ W op pc _ (c.lift (·.divide reg a b),
    Micro.give E σ₀ (nextOpcode fuel) (given E σ₀ fuel) (.divide reg a b) c z) f
  rw [hgive]
  refine ⟨?_, hpc.trans h.pc, hcompiler.trans_ne h.active, h.cur, hrunning, h.mirrors.divide h.running reg a b, rfl⟩
  exact (Gen.divide_currentOpcode ..).trans h.opcode

/-! ### Addresses relative to the next opcode -/

theorem renew_self {r : OpReg} {w w' : Word} (h : (r, w) ∈ ops) : (r, w') ∈ Given.renew r w' ops := by
  induction ops with
  | nil => cases h
  | cons p ps ih =>
    rw [Given.renew]
    split
    next => exact List.mem_cons_self
    next hne =>
      obtain rfl | h := List.mem_cons.mp h
      · exact absurd rfl hne
      · exact List.mem_cons_of_mem _ (ih h)

theorem renew_of_ne {r : OpReg} {w : Word} {p : OpReg × Word} (h : p ∈ ops) (hne : p.1 ≠ r) :
    p ∈ Given.renew r w ops := by
  induction ops with
  | nil => cases h
  | cons p' ps ih =>
    rw [Given.renew]
    split
    next heq =>
      obtain rfl | h := List.mem_cons.mp h
      · exact absurd heq hne
      · exact List.mem_cons_of_mem _ h
    next =>
      obtain rfl | h := List.mem_cons.mp h
      · exact List.mem_cons_self
      · exact List.mem_cons_of_mem _ (ih h)

theorem relative_word (pc : Short) (b : Byte) :
    (b.signExtend 64 + pc.setWidth 64 : Word).setWidth 16 = Uxn.relative pc b := by
  have hsign : (b.signExtend 64 : Word).setWidth 16 = b.signExtend 16 := by
    revert b
    decide +kernel
  rw [BitVec.setWidth_add _ _ (by decide), hsign, BitVec.add_comm, Uxn.relative]
  simp

/-- **A signed offset** becomes an address. -/
theorem coupled_relative {addr : Operand OpReg} {b : Byte} {k : Operand OpReg → Emit.Op α}
    {p : Uxn.Op β} {Ψ : α → β → Ctx × Given → Uxn.Frame → Prop} (h : InStep E σ₀ W op pc ops q f)
    (hb : (addr.reg, b.setWidth 64) ∈ ops)
    (hk : ∀ q' ops' w, w.setWidth 16 = Uxn.relative pc b → InStep E σ₀ W op pc ops' q' f →
      (addr.reg, w) ∈ ops' → (ops.map Prod.fst).count addr.reg ≤ 1 →
      (∀ p ∈ ops, p.1 ≠ addr.reg → p ∈ ops') →
      Coupled (translating E σ₀ fuel rs) (k { addr with isShort := true }) p Ψ q' f) :
    Coupled (translating E σ₀ fuel rs) (Emit.relative addr >>= k) p Ψ q f := by
  show Coupled _ (Emit.ask >>= fun c => Emit.alu (.op1 .movS8 (.op addr.reg) (.reg (.op addr.reg)))
    >>= fun _ => Emit.alu (.op2 .add (.op addr.reg) (.op addr.reg) (.imm (c.pc.setWidth 64)))
    >>= fun _ => k { addr with isShort := true }) _ _ _ _
  refine coupled_ask h ?_
  have hpc : q.1.pc = pc := h.pc
  rw [hpc]
  refine coupled_alu h (w := b.signExtend 64) rfl ?_ fun q' hcount h' => ?_
  · intro σ hrun hops
    rw [Alu.instr, Data.reg, Mach.step_op1 hrun]
    show ((σ.regs (.op addr.reg)).setWidth 8).signExtend 64 = _
    rw [hops _ hb]
    simp
  refine coupled_alu h' (w := b.signExtend 64 + pc.setWidth 64) rfl ?_ fun q'' _ h'' => ?_
  · intro σ hrun hops
    rw [Alu.instr, Data.reg, Mach.step_op2 hrun, hops _ (renew_self hb)]
    rfl
  apply hk _ _ _ (relative_word pc b) h'' (renew_self (renew_self hb)) hcount
  exact fun p hp hne => renew_of_ne (renew_of_ne hp hne) hne

/-! ### Discards -/

theorem run_drop (isShort : Bool) (f : Uxn.Frame) :
    ((Uxn.drop isShort).run Uxn.perform f).2 = ((Uxn.pop isShort).run Uxn.perform f).2 := by
  cases isShort <;> rfl

theorem run_drop_keep (isShort : Bool) {f : Uxn.Frame} (hcopy : f.copy ≠ none) :
    ((Uxn.drop isShort).run Uxn.perform f).2.toUxn = f.toUxn := by
  obtain ⟨p, hp⟩ := Option.ne_none_iff_exists'.mp hcopy
  obtain ⟨u, cur, copy⟩ := f
  cases isShort <;> subst hp <;> rfl

/-- **POP**, also as a part of NIP. -/
theorem coupled_POP (h : Drawing E σ₀ W op pc ops q f) :
    Coupled (translating E σ₀ fuel rs) Emit.POP (Uxn.drop (opFlag2 op))
      (fun _ _ => InStep E σ₀ W op pc ops) q f := by
  refine coupled_ask h.toInStep ?_
  have hop : q.1.currentOpcode = op := h.opcode
  have hbelow := View.below_pop (opFlag2 op) f
  rw [hop]
  split
  next hk =>
    intro _ _
    have hcopy : f.copy ≠ none := by
      rw [← Option.isSome_iff_ne_none, h.keep, hk]
    show InStep E σ₀ W op pc ops q ((Uxn.drop (opFlag2 op)).run Uxn.perform f).2
    refine { h.toInStep with cur := ?_, mirrors := ?_ }
    · rw [run_drop, hbelow.cur, h.cur]
    · rw [run_drop_keep _ hcopy]
      exact h.mirrors
  next hk =>
    refine coupled_flag2 h.toInStep ?_
    refine coupled_cur h.toInStep ?_
    rintro ⟨⟨⟨hsole, -, -⟩, -, -, held, t, -, hneeds, hfollowed⟩, -⟩ -
    obtain ⟨c, x⟩ := q
    have hcopy : f.copy = none := by
      rw [← Option.not_isSome_iff_eq_none, h.keep]
      exact hk
    have hholds := hfollowed.holds h.running
    obtain ⟨hmirrors, -⟩ := h.draws.stackCacheDiscard hcopy h.mirrors hholds (opFlag2 op)
    have hself := (hholds.stackCacheDiscard hfollowed.accounts hfollowed.mem_held
      (hfollowed.pointers hneeds) hsole).spilled_self
    show InStep E σ₀ W op pc ops _ ((Uxn.drop (opFlag2 op)).run Uxn.perform f).2
    rw [run_drop]
    apply h.emits
    · exact handle_emits (nextOpcode fuel) (o := .discard (opFlag2 op) f.cur) rfl hfollowed.spRegs
    · rfl
    · rfl
    · exact hbelow.cur
    · exact h.operands
    · show Gen.Mirrors E σ₀ W (Gen.spilled (c.toGen.stackCacheDiscard (opFlag2 op) f.cur)
        (Function.update x.cells f.cur _)) _ _
      rw [hself]
      exact hmirrors

end Rules

end BuxnJit
