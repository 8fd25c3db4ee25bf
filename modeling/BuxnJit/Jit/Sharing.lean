import BuxnJit.Foundations.Ghost
import BuxnJit.Jit.Footprint
import Mathlib.Data.List.ModifyLast

/-!
# Shared registers

Several cells and operands may refer to one register, and some opcodes update the register of an
operand in place. `Given` records what every cell was given when it was pushed, and every operand
when it was popped. As long as registers are updated in place only where the reference count is
one (`Micro.Sole`), all of them keep what they were given (`given_kept`); INC on a duplicated value
shows that they do not otherwise (`dupInc_not_kept`).
-/

namespace BuxnJit

open Foundations Prog

/-! ## What cells and operands are given -/

/-- For every cell of the caches, the deepest first, the value of its register when it was pushed,
without the low byte if that was popped or discarded since; for every operand of the opcode, the
latest first, the value of its register when it was popped or last computed. -/
structure Given where
  cells : Stk → List Word
  operands : List (OpReg × Word)

namespace Given

def none : Given := ⟨fun _ => [], []⟩

/-- A byte leaves a cache `cs`. -/
def popByte (cs : List Cell) (ws : List Word) : List Word :=
  match cs.getLast? with
  | .none => ws
  | some top =>
    if top.value.isShort then ws.modifyLast (· >>> 8) else ws.dropLast

/-- A byte or a short leaves a cache `cs`. -/
def pop (flag2 : Bool) (cs : List Cell) (ws : List Word) : List Word :=
  if flag2 then
    match cs.getLast? with
    | .none => ws
    | some top => if top.value.isShort then ws.dropLast else popByte cs.dropLast ws.dropLast
  else popByte cs ws

/-- The latest operand in the register `r` is computed anew. -/
def renew (r : OpReg) (w : Word) : List (OpReg × Word) → List (OpReg × Word)
  | [] => []
  | p :: ps => if p.1 = r then (r, w) :: ps else p :: renew r w ps

/-- The deepest cells leave the caches, as far as they are not in `ctx`. -/
def spill (ctx : Ctx) (x : Given) : Given :=
  { x with cells := fun s => (x.cells s).rtake (ctx.cache s).length }

/-- While the code runs, the registers of all cells and operands hold what these were given. -/
def Kept (E : Env) (σ₀ : Mach) (ctx : Ctx) (x : Given) : Prop :=
  (ctx.mach E σ₀).status = .running →
    (∀ s, Gen.cellValues (ctx.mach E σ₀) (ctx.cache s) = x.cells s) ∧
      ∀ p ∈ x.operands, (ctx.mach E σ₀).regs (.op p.1) = p.2

end Given

/-- Whether an instruction of a jump leaves an operand as it is. Behind a label the code goes on from
elsewhere, and a call may use all operand registers. -/
def Instr.leaves (r : OpReg) (i : Instr) : Bool :=
  match i with
  | .label _ | .call _ | .icall _ => false
  | i => i.dst != some (.op r)

/-- What a micro operation gives to cells and operands. -/
def Micro.give (E : Env) (σ₀ : Mach) (next : Ctx → Ctx) (inline : Ctx → Given → Given) (o : Micro)
    (ctx : Ctx) (x : Given) : Given :=
  let ctx' := (handle next o ctx).2
  let value (r : OpReg) := (ctx'.mach E σ₀).regs (.op r)
  let x' : Given := match o with
    | .popEx flag2 s =>
      let reg := (ctx.popEx flag2 s).1.reg
      ⟨Function.update x.cells s (Given.pop flag2 (ctx.cache s) (x.cells s)),
        (reg, value reg) :: x.operands⟩
    | .discard flag2 s =>
      ⟨Function.update x.cells s (Given.pop flag2 (ctx.cache s) (x.cells s)), x.operands⟩
    | .pushEx operand s =>
      ⟨Function.update x.cells s (x.cells s ++ [(ctx.mach E σ₀).regs (.op operand.reg)]), x.operands⟩
    | .allocReg =>
      let reg := ctx.toGen.allocReg.1
      { x with operands := (reg, value reg) :: x.operands }
    | .immediate isShort =>
      let reg := (ctx.immediate isShort).1.reg
      { x with operands := (reg, value reg) :: x.operands }
    | .alu a =>
      match a.dst with
      | some (.op r) => { x with operands := Given.renew r (value r) x.operands }
      | _ => x
    | .load r _ | .divide r _ _ => { x with operands := Given.renew r (value r) x.operands }
    | .emit i => { x with operands := x.operands.filter fun p => i.leaves p.1 }
    | .callDevice .. => { x with operands := [] }
    | .nextOpcode => inline ctx x
    | _ => x
  x'.spill ctx'

/-- What cells and operands were given behind the next opcode. -/
def given (E : Env) (σ₀ : Mach) : ℕ → Ctx → Given → Given
  | 0, _, x => x
  | fuel + 1, ctx, x =>
    if ctx.pc < 256 then .none
    else
      (run (recording (handle (nextOpcode fuel))
        (Micro.give E σ₀ (nextOpcode fuel) (given E σ₀ fuel)))
        (Emit.dispatch (decode (ctx.jit.memory ctx.pc)))
        (ctx.beginOpcode, { x with operands := [] }.spill ctx.beginOpcode)).2.2

/-- Before every micro operation of the next opcode, those of opcodes inlined in it included, all
cells and operands have kept what they were given. -/
def KeptOpcode (E : Env) (σ₀ : Mach) : ℕ → Ctx → Given → Prop
  | 0, _, _ => True
  | fuel + 1, ctx, x => ctx.pc < 256 ∨
      Along (recording (handle (nextOpcode fuel))
        (Micro.give E σ₀ (nextOpcode fuel) (given E σ₀ fuel)))
        (fun o p => p.2.Kept E σ₀ p.1 ∧ (o = .nextOpcode → KeptOpcode E σ₀ fuel p.1 p.2))
        (Emit.dispatch (decode (ctx.jit.memory ctx.pc)))
        (ctx.beginOpcode, { x with operands := [] }.spill ctx.beginOpcode)

/-- So they have throughout the first `n` opcodes of a block. -/
def KeptBlock (E : Env) (σ₀ : Mach) (fuel : ℕ) : ℕ → Ctx → Given → Prop
  | 0, ctx, x => x.Kept E σ₀ ctx
  | n + 1, ctx, x => x.Kept E σ₀ ctx ∧ (ctx.compiler = .none ∨ KeptOpcode E σ₀ fuel ctx x ∧
      KeptBlock E σ₀ fuel n (nextOpcode fuel ctx) (given E σ₀ fuel ctx x))

/-! ## Updates in place -/

/-- The operand register that an instruction both reads and writes. -/
def Alu.inPlace : Alu → Option OpReg
  | .op1 _ (.op r) (.reg (.op a)) => if a = r then some r else none
  | .op2 _ (.op r) a b =>
    if a = .op r then some r
    else match b with
      | .reg (.op c) => if c = r then some r else none
      | _ => none
  | _ => none

namespace Gen

/-- A pop or a discard of a byte shortens the register of a short that no other cell or operand
refers to, if it shortens one. -/
def SplitsSole (s : Stk) (g : Gen) : Prop :=
  match (g.cache s).getLast? with
  | none => True
  | some top => top.value.isShort = true → g.allocReg.2.cache s ≠ [] →
      g.allocReg.2.refCounts top.value.reg = 1

/-- A pop updates no register in place that another cell or operand refers to: neither that of a
short that is split, nor that of the high byte to which the low byte is joined. -/
def PopsSole (flag2 : Bool) (s : Stk) (g : Gen) : Prop :=
  if flag2 then
    match (g.cache s).getLast? with
    | none => True
    | some top => top.value.isShort = false →
        let g' := g.setCache s (g.cache s).dropLast
        g'.SplitsSole s ∧ (g'.stackCachePopByte s).2.refCounts (g'.stackCachePopByte s).1 = 1
  else g.SplitsSole s

def DiscardsByteSole (s : Stk) (g : Gen) : Prop :=
  match (g.cache s).getLast? with
  | none => True
  | some top => top.value.isShort = true → g.refCounts top.value.reg = 1

/-- A discard shortens no register that another cell or operand refers to. -/
def DiscardsSole (flag2 : Bool) (s : Stk) (g : Gen) : Prop :=
  if flag2 then
    match (g.cache s).getLast? with
    | none => True
    | some top => top.value.isShort = false →
        ((g.setCache s (g.cache s).dropLast).releaseReg top.value.reg).DiscardsByteSole s
  else g.DiscardsByteSole s

end Gen

/-- What a micro operation updates in place, no other cell or operand refers to. -/
def Micro.Sole (o : Micro) (ctx : Ctx) : Prop :=
  match o with
  | .alu a => ∀ r, a.inPlace = some r → ctx.refCounts r = 1
  | .popEx flag2 s => ctx.toGen.PopsSole flag2 s
  | .discard flag2 s => ctx.toGen.DiscardsSole flag2 s
  | _ => True

/-! ## The course of an opcode -/

/-- What is known in the course of an opcode: whether it is still popping, the register that was
allocated last, whether the caches are empty, and the labels made so far. -/
structure Course where
  popping : Bool
  own : Option OpReg
  cleared : Bool
  labels : List Label

/-- The register that is computed anew. -/
def Micro.computed : Micro → Option OpReg
  | .alu a =>
    match a.inPlace, a.dst with
    | none, some (.op r) => some r
    | _, _ => none
  | .load r _ | .divide r _ _ => some r
  | _ => none

/-- What an operation needs in the course of an opcode. -/
def Micro.Needs (o : Micro) (t : Course) : Prop :=
  match o with
  | .popEx .. | .discard .. => t.popping = true
  | .callDevice .. => t.cleared = true
  | .emit i => t.cleared = true ∧ ∀ l, i.labelRef = some l → l ∈ t.labels
  | _ => ∀ r, o.computed = some r → t.own = some r

/-- How the course goes on. -/
def Micro.proceed : (o : Micro) → o.Res → Course → Course
  | .popEx .., _, t | .discard .., _, t => { t with own := none }
  | .allocReg, r, t => { t with popping := false, own := some r }
  | .pushEx .., _, t => { t with popping := false, own := none, cleared := false }
  | .immediate _, _, t => { t with popping := false, own := none }
  | .clearStackCaches, _, t => { t with popping := false, own := none, cleared := true }
  | .newLabel, l, t => { t with labels := l :: t.labels }
  | .callDevice .., _, t => { t with popping := false, own := none }
  | .nextOpcode, _, t => { t with popping := false, own := none, cleared := false }
  | _, _, t => t

/-- Opcodes pop first, compute into the register they allocated last, and clear the caches before
they jump or call a device. -/
def following : Discipline micro Course where
  pre o t := o.Needs t
  post o r t t' := t' = o.proceed r t

section Shape

open Emit

variable {t : Course} {Q : Unit → Course → Prop}

theorem follows_perform {o : Micro} {Q : o.Res → Course → Prop} (ho : o.Needs t)
    (hQ : ∀ r, Q r (o.proceed r t)) : Keeps following (perform (F := micro) o) Q t := by
  refine ⟨ho, ?_⟩
  rintro r t' rfl
  exact hQ r

theorem follows_ask {Q : Ctx → Course → Prop} (hQ : ∀ c, Q c t) : Keeps following ask Q t :=
  follows_perform (fun r hr => nomatch hr) hQ

theorem follows_flag2 {Q : Bool → Course → Prop} (hQ : ∀ b, Q b t) : Keeps following flag2 Q t :=
  (keeps_bind _ _).mpr (follows_ask fun _ => hQ _)

theorem follows_cur {Q : Stk → Course → Prop} (hQ : ∀ s, Q s t) : Keeps following cur Q t :=
  (keeps_bind _ _).mpr (follows_ask fun _ => hQ _)

section Pops

variable {Q : Operand OpReg → Course → Prop} (ht : t.popping = true)
include ht

theorem follows_popEx {flag2 : Bool} {s : Stk} (hQ : ∀ o, Q o { t with own := none }) :
    Keeps following (popEx flag2 s) Q t := follows_perform ht hQ

theorem follows_pop (hQ : ∀ o, Q o { t with own := none }) : Keeps following pop Q t :=
  (keeps_bind _ _).mpr (follows_flag2 fun _ => (keeps_bind _ _).mpr (follows_cur fun _ =>
    follows_popEx ht hQ))

theorem follows_popByte (hQ : ∀ o, Q o { t with own := none }) : Keeps following popByte Q t :=
  (keeps_bind _ _).mpr (follows_cur fun _ => follows_popEx ht hQ)

end Pops

theorem follows_POP (ht : t.popping = true) (hQ : ∀ t', Q () t') : Keeps following POP Q t := by
  refine (keeps_bind _ _).mpr (follows_ask fun c => (keeps_ite _ _ _).mpr ⟨fun _ => hQ _, fun _ => ?_⟩)
  refine (keeps_bind _ _).mpr (follows_flag2 fun b => (keeps_bind _ _).mpr (follows_cur fun s => ?_))
  exact follows_perform ht fun _ => hQ _

theorem follows_pushEx {o : Operand OpReg} {s : Stk} (hQ : ∀ t', Q () t') :
    Keeps following (pushEx o s) Q t := follows_perform (fun r hr => nomatch hr) fun _ => hQ _

theorem follows_push {o : Operand OpReg} (hQ : ∀ t', Q () t') : Keeps following (push o) Q t :=
  (keeps_bind _ _).mpr (follows_cur fun _ => follows_pushEx hQ)

theorem follows_allocReg {Q : OpReg → Course → Prop}
    (hQ : ∀ r, Q r { t with popping := false, own := some r }) : Keeps following allocReg Q t :=
  follows_perform (fun r hr => nomatch hr) hQ

/-- Computing into the register that was allocated last. -/
theorem follows_alu {a : Alu} {reg : OpReg} (ha : a.dst = some (.op reg)) (ht : t.own = some reg)
    (hQ : Q () t) : Keeps following (alu a) Q t := by
  refine follows_perform ?_ fun _ => hQ
  intro r hr
  simp only [Micro.computed] at hr
  split at hr
  next r' _ hdst =>
    rw [hdst] at ha
    cases ha
    rwa [← hr]
  next => cases hr

/-- Updates in place, and instructions that compute no operand. -/
theorem follows_update {a : Alu} (ha : (Micro.alu a).computed = none) (hQ : Q () t) :
    Keeps following (alu a) Q t :=
  follows_perform (fun r hr => nomatch ha.symm.trans hr) fun _ => hQ

theorem follows_wrapAround {r : OpReg} (hQ : Q () t) : Keeps following (wrapAround r) Q t :=
  (keeps_bind _ _).mpr (follows_flag2 fun b =>
    follows_update (by simp [Micro.computed, Alu.inPlace]) hQ)

theorem follows_relative {addr : Operand OpReg} {Q : Operand OpReg → Course → Prop}
    (hQ : ∀ o, Q o t) : Keeps following (relative addr) Q t := by
  refine (keeps_bind _ _).mpr (follows_ask fun c => ?_)
  refine (keeps_bind _ _).mpr (follows_update (by simp [Micro.computed, Alu.inPlace]) ?_)
  exact (keeps_bind _ _).mpr
    (follows_update (by simp [Micro.computed, Alu.inPlace]) (hQ _))

theorem follows_loadPush {addr : Operand OpReg} (hQ : ∀ t', Q () t') :
    Keeps following (loadPush addr) Q t := by
  refine (keeps_bind _ _).mpr (follows_allocReg fun r => (keeps_bind _ _).mpr ?_)
  refine follows_perform (fun r hr => by simpa [Micro.computed] using hr) fun _ => ?_
  exact (keeps_bind _ _).mpr (follows_flag2 fun b => follows_push hQ)

theorem follows_store {addr value : Operand OpReg} (hQ : Q () t) :
    Keeps following (perform (F := micro) (.store addr value)) Q t :=
  follows_perform (fun r hr => nomatch hr) fun _ => hQ

theorem follows_divide {c a b : OpReg} (ht : t.own = some c) (hQ : Q () t) :
    Keeps following (perform (F := micro) (.divide c a b)) Q t :=
  follows_perform (fun r hr => by rw [ht]; exact hr) fun _ => hQ

theorem follows_immediate {isShort : Bool} {Q : Operand OpReg → Course → Prop} (hQ : ∀ o t', Q o t') :
    Keeps following (perform (F := micro) (.immediate isShort)) Q t :=
  follows_perform (fun r hr => nomatch hr) fun _ => hQ _ _

theorem follows_straight {mn : Mnemonic} (hmn : mn.straight) (ht : t.popping = true) :
    Keeps following (dispatch mn) (fun _ _ => True) t := by
  cases mn
  all_goals first
    | simp [Mnemonic.straight] at hmn; done
    | skip
  all_goals
    simp only [dispatch, LIT, INC, NIP, SWP, ROT, DUP, OVR, EQU, NEQ, GTH, LTH, STH, LDZ, STZ,
      LDR, STR, LDA, STA, ADD, SUB, MUL, DIV, AND, ORA, EOR, SFT, arith, compareOp, keeps_bind,
      if_true, Bool.false_eq_true, if_false]
    repeat' with_reducible first
      | apply follows_pop
      | apply follows_popByte
      | apply follows_popEx
      | apply follows_push
      | apply follows_pushEx
      | apply follows_allocReg
      | apply follows_wrapAround
      | apply follows_flag2
      | apply follows_cur
      | apply follows_ask
      | apply follows_POP
      | apply follows_relative
      | apply follows_loadPush
      | apply follows_store
      | apply follows_divide
      | apply follows_immediate
      | intro _
      | exact trivial
      | exact ht
      | rfl
      | split
      | refine follows_alu rfl rfl ?_
      | refine follows_update ?_ ?_
  all_goals simp [Micro.computed, Alu.inPlace, Alu.dst]

/-! ### Jumps -/

/-- The caches are still empty, and no label is forgotten. -/
def Course.Further (t t' : Course) : Prop := t'.cleared = true ∧ ∀ l ∈ t.labels, l ∈ t'.labels

theorem follows_emit {i : Instr} (ht : t.cleared = true)
    (hi : ∀ l, i.labelRef = some l → l ∈ t.labels) (hQ : Q () t) : Keeps following (emit i) Q t :=
  follows_perform ⟨ht, hi⟩ fun _ => hQ

theorem follows_newLabel {Q : Label → Course → Prop}
    (hQ : ∀ l, Q l { t with labels := l :: t.labels }) : Keeps following newLabel Q t :=
  follows_perform (fun r hr => nomatch hr) hQ

theorem follows_clear (hQ : Q () { t with popping := false, own := none, cleared := true }) :
    Keeps following clearStackCaches Q t :=
  follows_perform (fun r hr => nomatch hr) fun _ => hQ

theorem follows_jumpAbs {target : Operand Reg} {returnAddr : Short} (ht : t.cleared = true) :
    Keeps following (jumpAbs target returnAddr) (fun _ => t.Further) t := by
  simp +contextual [jumpAbs, Keeps, keeps_ite, following, Micro.Needs, Micro.proceed,
    Micro.computed, Instr.labelRef, newLabel, emit, perform, Prog.bind, bind_eq, Course.Further, ht]

theorem follows_jump {target : Operand Reg} {returnAddr : Short} :
    Keeps following (jump target returnAddr) (fun _ => t.Further) t := by
  refine (keeps_bind _ _).mpr (follows_clear ?_)
  split
  · exact Keeps.mono (follows_jumpAbs rfl) fun _ _ h => h
  split
  · refine (keeps_bind _ _).mpr (follows_ask fun c => ?_)
    refine (keeps_bind _ _).mpr (follows_newLabel fun l => ?_)
    refine (keeps_bind _ _).mpr (follows_emit rfl (by simp [Instr.labelRef]) ?_)
    refine (keeps_bind _ _).mpr (follows_perform (by rintro r ⟨⟩) fun _ => ?_)
    refine (keeps_bind _ _).mpr (follows_perform (by rintro r ⟨⟩) fun _ => ?_)
    refine (keeps_bind _ _).mpr (follows_clear ?_)
    refine follows_emit rfl (by simp [Instr.labelRef, Micro.proceed]) ?_
    exact ⟨rfl, fun l hl => List.mem_cons_of_mem _ hl⟩
  · refine (keeps_bind _ _).mpr (follows_ask fun c => ?_)
    refine (keeps_bind _ _).mpr (follows_emit rfl (by simp [Instr.labelRef]) ?_)
    refine (keeps_bind _ _).mpr (follows_emit rfl (by simp [Instr.labelRef]) ?_)
    exact Keeps.mono (follows_jumpAbs rfl) fun _ _ h => h

theorem follows_conditionalJump {condition : Operand OpReg} {target : Operand Reg} :
    Keeps following (conditionalJump condition target) (fun _ _ => True) t := by
  refine (keeps_bind _ _).mpr (follows_clear ?_)
  refine (keeps_bind _ _).mpr (follows_emit rfl (by simp [Instr.labelRef]) ?_)
  refine (keeps_bind _ _).mpr (follows_newLabel fun l => ?_)
  refine (keeps_bind _ _).mpr (follows_emit rfl (by simp [Instr.labelRef]) ?_)
  refine (keeps_bind _ _).mpr (follows_jump.mono ?_)
  rintro _ t' ⟨hcleared, hlabels⟩
  apply follows_emit hcleared
  · rintro l' ⟨⟩
    exact hlabels l (by simp)
  · trivial

theorem follows_callTo {target : Operand Reg} {s : Stk} :
    Keeps following (callTo target s) (fun _ _ => True) t := by
  refine (keeps_bind _ _).mpr (follows_allocReg fun r => ?_)
  refine (keeps_bind _ _).mpr (follows_ask fun c => ?_)
  refine (keeps_bind _ _).mpr (follows_alu rfl rfl ?_)
  refine (keeps_bind _ _).mpr (follows_pushEx fun t' => ?_)
  refine (keeps_bind _ _).mpr (follows_ask fun c => ?_)
  exact follows_jump.mono fun _ _ _ => trivial

theorem follows_finalize (hQ : ∀ t', Q () t') : Keeps following finalize Q t :=
  follows_perform (fun r hr => nomatch hr) fun _ => hQ _

theorem follows_immediateJumpTarget {Q : Operand Reg → Course → Prop} (hQ : ∀ o, Q o t) :
    Keeps following immediateJumpTarget Q t :=
  follows_perform (fun r hr => nomatch hr) hQ

/-- **Every opcode follows this course.** -/
theorem follows_dispatch (mn : Mnemonic) (ht : t.popping = true) :
    Keeps following (dispatch mn) (fun _ _ => True) t := by
  by_cases hmn : mn.straight
  · exact follows_straight hmn ht
  cases mn
  all_goals first
    | exact absurd rfl hmn
    | simp only [dispatch, BRK, JMP, JCN, JSR, JCI, JMI, JSI, DEI, DEO, keeps_bind]
  case BRK =>
    apply follows_clear
    apply follows_emit rfl (by simp [Instr.labelRef])
    exact follows_finalize fun _ => trivial
  case JCI =>
    apply follows_popEx ht
    intro o
    apply follows_immediateJumpTarget
    intro target
    exact follows_conditionalJump
  case JMI =>
    apply follows_immediateJumpTarget
    intro target
    apply follows_jump.mono
    intro _ _ _
    exact follows_finalize fun _ => trivial
  case JSI =>
    apply follows_immediateJumpTarget
    intro target
    exact follows_callTo
  case JMP =>
    apply follows_pop ht
    intro o
    apply follows_jump.mono
    intro _ _ _
    split
    · exact follows_finalize fun _ => trivial
    · trivial
  case JCN =>
    apply follows_pop ht
    intro o
    apply follows_popByte (by exact ht)
    intro c
    exact follows_conditionalJump
  case JSR =>
    apply follows_pop ht
    intro o
    apply follows_cur
    intro s
    exact follows_callTo
  case DEI =>
    apply follows_popByte ht
    intro addr
    apply follows_flag2
    intro b
    apply follows_allocReg
    intro r
    apply follows_clear
    refine follows_perform rfl fun _ => ?_
    exact follows_push fun _ => trivial
  case DEO =>
    apply follows_popByte ht
    intro addr
    apply follows_pop (by exact ht)
    intro value
    refine follows_perform (by rintro r ⟨⟩) fun _ => ?_
    apply follows_clear
    exact follows_perform rfl fun _ => trivial

end Shape

/-! ## What code does to cells and operands -/

theorem Mach.step_leaves {E : Env} {σ : Mach} {r : OpReg} {i : Instr} (hi : i.leaves r = true)
    (hrun : (σ.step E i).status = .running) :
    σ.status = .running ∧ (σ.step E i).regs (.op r) = σ.regs (.op r) := by
  cases hs : σ.status with
  | running =>
    refine ⟨rfl, ?_⟩
    rw [Mach.step_running hs]
    cases i
    all_goals first
      | cases hi; done
      | skip
    all_goals simp only [Instr.leaves, Instr.dst, bne_iff_ne, ne_eq, Option.some.injEq] at hi
    all_goals simp only [Instr.exec, Mach.set]
    all_goals first
      | split <;> rfl
      | exact Function.update_of_ne (Ne.symm hi) _ _
  | skipping l =>
    have hstep : σ.step E i = σ := by
      rw [Mach.step, hs]
      cases i <;> first | rfl | cases hi
    rw [hstep, hs] at hrun
    cases hrun
  | left e =>
    have hstep : σ.step E i = σ := by rw [Mach.step, hs]
    rw [hstep, hs] at hrun
    cases hrun

namespace Gen

variable {E : Env} {σ₀ : Mach} {g g' : Gen} {held : List OpReg} {cells cells' : Stk → List Word}
  {ops : List (OpReg × Word)} {s : Stk}

/-- The code is running, and the registers of cells and operands hold these values. -/
structure Holds (E : Env) (σ₀ : Mach) (cells : Stk → List Word) (ops : List (OpReg × Word))
    (g : Gen) : Prop where
  running : (g.mach E σ₀).status = .running
  cells : ∀ s, cellValues (g.mach E σ₀) (g.cache s) = cells s
  operands : ∀ p ∈ ops, (g.mach E σ₀).regs (.op p.1) = p.2

/-- The values of the cells that are left, when cells were spilled. -/
def spilled (g : Gen) (cells : Stk → List Word) (s : Stk) : List Word :=
  (cells s).rtake (g.cache s).length

/-- Code that writes no register of a cell that is left, nor of an operand. -/
theorem Holds.touches {W : OpReg → Prop} (h : Holds E σ₀ cells ops g) (ht : Emits (Touches W) g g')
    (hsuffix : ∀ s, g'.cache s <:+ g.cache s) (hW : ∀ r, W r → ∀ s, r ∉ cellRegs (g'.cache s))
    (hops : ∀ p ∈ ops, ¬W p.1) : Holds E σ₀ (g'.spilled cells) ops g' := by
  obtain ⟨hstatus, hregs⟩ := ht.touches E σ₀
  refine ⟨hstatus.trans h.running, fun s => ?_, fun p hp => ?_⟩
  · rw [cellValues_congr fun r hr => hregs r fun hw => hW r hw s hr,
      cellValues_suffix _ (hsuffix s), h.cells s]
    rfl
  · exact (hregs p.1 (hops p hp)).trans (h.operands p hp)

/-- Code that spills nothing, and writes no register of a cell or an operand. -/
theorem Holds.writes {W : OpReg → Prop} (h : Holds E σ₀ cells ops g) (ht : Emits (Touches W) g g')
    (hcache : g'.cache = g.cache) (hW : ∀ r, W r → ∀ s, r ∉ cellRegs (g.cache s))
    (hops : ∀ p ∈ ops, ¬W p.1) : Holds E σ₀ cells ops g' := by
  obtain ⟨hstatus, hregs⟩ := ht.touches E σ₀
  refine ⟨hstatus.trans h.running, fun s => ?_, fun p hp => ?_⟩
  · rw [hcache, cellValues_congr fun r hr => hregs r fun hw => hW r hw s hr, h.cells s]
  · exact (hregs p.1 (hops p hp)).trans (h.operands p hp)

theorem Holds.spills (h : Holds E σ₀ cells ops g) (hs : Spills g g') :
    Holds E σ₀ (g'.spilled cells) ops g' :=
  h.touches (W := fun _ => False) hs.touching hs.suffix (fun _ h => h.elim) fun _ _ h => h

/-- The register is held by none of the cells and operands. -/
structure Apart (held : List OpReg) (ops : List (OpReg × Word)) (g : Gen) (r : OpReg) : Prop where
  held : r ∈ held
  cells : ∀ s, r ∉ cellRegs (g.cache s)
  operands : ∀ p ∈ ops, p.1 ≠ r

theorem Apart.popped {r reg : OpReg} {w : Word} (h : Apart held ops g r)
    (hcells : ∀ s, cellRegs (g'.cache s) ⊆ cellRegs (g.cache s))
    (hreg : reg ∈ cellRegs (g.cache s) ∨ reg ∉ held) :
    Apart (reg :: held) ((reg, w) :: ops) g' r := by
  refine ⟨List.mem_cons_of_mem _ h.held, fun s hr => h.cells s (hcells s hr), fun p hp => ?_⟩
  obtain rfl | hp := List.mem_cons.mp hp
  · rintro rfl
    exact hreg.elim (h.cells s) fun hnot => hnot h.held
  · exact h.operands p hp

theorem suffix_allocReg (g : Gen) (s : Stk) : g.allocReg.2.cache s <:+ g.cache s := by
  obtain ⟨g', hs, ⟨r, -, h⟩ | ⟨-, -, h⟩⟩ := g.allocReg_spec <;> rw [h] <;> exact hs.spills.suffix s

theorem suffix_popFromMem (g : Gen) (flag2 : Bool) (s s' : Stk) :
    (g.popFromMem flag2 s).2.cache s' <:+ g.cache s' := by
  rw [popFromMem_eq, popCode_cache]
  have h := (g.setMemBase s.region).suffix_allocReg s'
  rwa [setMemBase_cache] at h

theorem Holds.allocReg (h : Holds E σ₀ cells ops g) :
    Holds E σ₀ (g.allocReg.2.spilled cells) ops g.allocReg.2 :=
  h.touches (W := fun _ => False) (aside_allocReg g).touching g.suffix_allocReg
    (fun _ h => h.elim) fun _ _ h => h

/-- The registers that pops go through are apart from those of cells and operands. -/
def PointersApart (held : List OpReg) (ops : List (OpReg × Word)) (g : Gen) : Prop :=
  ∀ s r, g.spReg s = .op r → Apart held ops g r

theorem Holds.popFromMem (h : Holds E σ₀ cells ops g) (hacc : Accounts held g)
    (hheld : held.length ≤ 5) (hops : ∀ p ∈ ops, p.1 ∈ held) (hptr : PointersApart held ops g)
    (flag2 : Bool) (s : Stk) :
    Holds E σ₀ ((g.popFromMem flag2 s).2.spilled cells) ops (g.popFromMem flag2 s).2 := by
  obtain ⟨hfresh, hcells⟩ := hacc.popFromMem_free hheld flag2 s
  apply h.touches (W := fun r => r = (g.popFromMem flag2 s).1 ∨ g.spReg s = .op r)
    (touches_popFromMem g flag2 s (.inl rfl) fun r hr => .inr hr) (g.suffix_popFromMem flag2 s)
  · rintro r (rfl | hr) s'
    · exact hcells s'
    · intro hmem
      exact (hptr s r hr).cells s' ((List.IsSuffix.subset ((g.suffix_popFromMem flag2 s s').map _)) hmem)
  · rintro p hp (heq | hr)
    · exact hfresh (heq ▸ hops p hp)
    · exact (hptr s _ hr).operands p hp rfl

/-! ### Values that leave the caches -/

theorem spilled_spilled (h : ∀ s, (g'.cache s).length ≤ (g.cache s).length) :
    g'.spilled (g.spilled cells) = g'.spilled cells := by
  funext s
  have hle := h s
  simp only [spilled, List.rtake, List.length_drop, List.drop_drop]
  congr 1
  omega

theorem spilled_update_nil (h : g.cache s = []) (ws : List Word) :
    g.spilled (Function.update cells s ws) = g.spilled cells := by
  funext s'
  by_cases hs : s' = s
  · subst hs
    simp [spilled, h]
  · simp [spilled, hs]

theorem Holds.spilled_self (h : Holds E σ₀ cells ops g) : g.spilled cells = cells := by
  funext s
  rw [spilled, ← h.cells s]
  conv => lhs; arg 2; rw [← cellValues_length (g.mach E σ₀)]
  exact rtake_suffix (List.suffix_refl _)

theorem modifyLast_rtake (f : Word → Word) {ws : List Word} {n : ℕ} (hn : 0 < n) :
    (ws.rtake n).modifyLast f = (ws.modifyLast f).rtake n := by
  obtain ⟨m, rfl⟩ := Nat.exists_eq_add_of_lt hn
  induction ws using List.reverseRecOn with
  | nil => simp [List.modifyLast, List.modifyLast.go]
  | append_singleton ws w _ =>
    rw [Nat.zero_add, List.rtake_concat_succ, List.modifyLast_concat, List.modifyLast_concat,
      List.rtake_concat_succ]

theorem spilled_modifyLast {f : Word → Word} (hne : g.cache s ≠ [])
    (hlen : ∀ s, (g'.cache s).length = (g.cache s).length) :
    g'.spilled (Function.update cells s ((cells s).modifyLast f)) =
      Function.update (g.spilled cells) s ((g.spilled cells s).modifyLast f) := by
  funext s'
  by_cases hs : s' = s
  · subst hs
    rw [Function.update_self, spilled, Function.update_self, spilled, hlen,
      modifyLast_rtake f (List.length_pos_of_ne_nil hne)]
  · rw [Function.update_of_ne hs, spilled, Function.update_of_ne hs, spilled, hlen]

/-- A register with one reference, from the top cell, belongs to it alone. -/
theorem Accounts.single (h : Accounts held g) {top : Cell} (htop : (g.cache s).getLast? = some top)
    (hr : g.refCounts top.value.reg = 1) : top.value.reg ∉ cellRegs (g.cache s).dropLast ∧
      (∀ s', s' ≠ s → top.value.reg ∉ cellRegs (g.cache s')) ∧ top.value.reg ∉ held := by
  have hlast := cellRegs_dropLast htop
  have hcount : (cellRegs (g.cache s)).count top.value.reg =
      (cellRegs (g.cache s).dropLast).count top.value.reg + 1 := by
    rw [hlast, List.count_append, List.count_singleton_self]
  have hall : (cellRegs (g.cache s)).count top.value.reg +
      (cellRegs (g.cache s.other)).count top.value.reg + held.count top.value.reg = 1 := by
    rw [← hr, h.counts]
    cases s
    · rfl
    · rw [Stk.other, Nat.add_comm ((cellRegs (g.cache .wst)).count _)]
  refine ⟨List.count_eq_zero.mp (by omega), fun s' hs => ?_, List.count_eq_zero.mp (by omega)⟩
  obtain rfl := (Stk.eq_or_eq_other s s').resolve_left hs
  exact List.count_eq_zero.mp (by omega)

/-- A cell loses its low byte, in a register of its own. -/
theorem Holds.shorten (h : Holds E σ₀ cells ops g) (hacc : Accounts held g)
    (hops : ∀ p ∈ ops, p.1 ∈ held) {top : Cell} (htop : (g.cache s).getLast? = some top)
    (hsole : g.refCounts top.value.reg = 1) (i : ℕ) :
    Holds E σ₀ (Function.update cells s ((cells s).modifyLast (· >>> 8))) ops
      ((g.emit (.op2 .lshr (.op top.value.reg) (.op top.value.reg) (.imm 8))).setCache s
        ((g.cache s).modify i Cell.halve)) := by
  obtain ⟨hbelow, hother, hheld⟩ := hacc.single htop hsole
  have hmach : (g.emit (.op2 .lshr (.op top.value.reg) (.op top.value.reg) (.imm 8))).mach E σ₀ =
      (g.mach E σ₀).set (.op top.value.reg) ((g.mach E σ₀).regs (.op top.value.reg) >>> 8) := by
    rw [mach_emit, Mach.step_running h.running]
    rfl
  have hregs : ∀ r, r ≠ top.value.reg → ((g.mach E σ₀).set (.op top.value.reg)
      ((g.mach E σ₀).regs (.op top.value.reg) >>> 8)).regs (.op r) =
        (g.mach E σ₀).regs (.op r) := by
    intro r hr
    simp [Mach.set, hr]
  refine ⟨?_, fun s' => ?_, fun p hp => ?_⟩
  · rw [mach_setCache, hmach]
    exact h.running
  · rw [mach_setCache, hmach]
    by_cases hs : s' = s
    · subst hs
      have hcells := h.cells s'
      rw [setCache_cache_self, cellValues_halve, Function.update_self, ← hcells]
      have hsplit : g.cache s' = (g.cache s').dropLast ++ [top] :=
        (List.dropLast_append_getLast? top htop).symm
      rw [hsplit, cellValues_append, cellValues_append, cellValues_congr fun r hr => hregs r ?_]
      · simp only [cellValues, cellRegs_cons, cellRegs_nil, List.map_cons, List.map_nil]
        rw [List.modifyLast_concat]
        simp [Mach.set]
      · rintro rfl
        exact hbelow hr
    · rw [setCache_cache_of_ne _ _ _ hs, Function.update_of_ne hs, ← h.cells s']
      apply cellValues_congr
      intro r hr
      apply hregs
      rintro rfl
      exact hother s' hs hr
  · rw [mach_setCache, hmach, hregs p.1 fun heq => hheld (heq ▸ hops p hp)]
    exact h.operands p hp

theorem getLast?_suffix {cs ds : List Cell} {top : Cell} (h : ds <:+ cs) (hne : ds ≠ [])
    (htop : cs.getLast? = some top) : ds.getLast? = some top := by
  obtain ⟨es, rfl⟩ := h
  obtain ⟨fs, d, rfl⟩ := (List.eq_nil_or_concat' ds).resolve_left hne
  rw [← List.append_assoc, List.getLast?_concat] at htop
  rw [List.getLast?_concat, htop]

theorem Holds.dropLast (h : Holds E σ₀ cells ops g) :
    Holds E σ₀ (Function.update cells s (cells s).dropLast) ops
      (g.setCache s (g.cache s).dropLast) := by
  refine ⟨h.running, fun s' => ?_, h.operands⟩
  by_cases hs : s' = s
  · subst hs
    rw [setCache_cache_self, Function.update_self, mach_setCache, ← h.cells s', cellValues_dropLast]
  · rw [setCache_cache_of_ne _ _ _ hs, Function.update_of_ne hs, mach_setCache]
    exact h.cells s'

/-- **A byte is popped.** -/
theorem Holds.stackCachePopByte (h : Holds E σ₀ cells ops g) (hacc : Accounts held g)
    (hheld : held.length ≤ 5) (hops : ∀ p ∈ ops, p.1 ∈ held) (hptr : PointersApart held ops g)
    (hsole : g.SplitsSole s) :
    Holds E σ₀ ((g.stackCachePopByte s).2.spilled
      (Function.update cells s (Given.popByte (g.cache s) (cells s)))) ops
        (g.stackCachePopByte s).2 := by
  unfold Gen.stackCachePopByte Given.popByte
  unfold SplitsSole at hsole
  cases htop : (g.cache s).getLast? with
  | none =>
    simp only
    rw [Function.update_eq_self]
    exact h.popFromMem hacc hheld hops hptr false s
  | some top =>
    rw [htop] at hsole
    simp only at hsole ⊢
    split
    next hshort =>
      have halloc := hacc.allocReg hheld
      have h₁ := h.allocReg
      split
      next hnil =>
        have hptr' : PointersApart held ops (g.allocReg.2.releaseReg g.allocReg.1) := by
          intro s' r hr
          have hsp := (aside_allocReg g).spReg
          rw [releaseReg_spReg, hsp] at hr
          obtain ⟨hmem, hcells, hothers⟩ := hptr s' r hr
          exact ⟨hmem, fun s' hin => hcells s' (Shrinks.regs (g.shrinks_allocReg s') hin), hothers⟩
        have h₂ : Holds E σ₀ (g.allocReg.2.spilled cells) ops
            (g.allocReg.2.releaseReg g.allocReg.1) := ⟨h₁.running, h₁.cells, h₁.operands⟩
        have h₃ := h₂.popFromMem halloc.releaseReg hheld hops hptr' false s
        have hsuffix := suffix_popFromMem (g.allocReg.2.releaseReg g.allocReg.1) false s
        have hnil' : ((g.allocReg.2.releaseReg g.allocReg.1).popFromMem false s).2.cache s = [] :=
          List.suffix_nil.mp (hnil ▸ hsuffix s)
        rw [spilled_update_nil hnil', ← spilled_spilled (g := g.allocReg.2)
          fun s => (hsuffix s).length_le]
        exact h₃
      next hne =>
        have hlast := getLast?_suffix (g.suffix_allocReg s) hne htop
        have hfree := hacc.allocReg_free hheld
        have hmov : Emits (Touches fun r => r = g.allocReg.1) g.allocReg.2
            (g.allocReg.2.emit (.op1 .movU8 (.op g.allocReg.1) (.reg (.op top.value.reg)))) :=
          Emits.emit .refl ⟨rfl, by simp⟩
        have h₂ := h₁.writes hmov rfl (by rintro r rfl s'; exact hfree.2 s')
          (by rintro p hp heq; exact hfree.1 (heq ▸ hops p hp))
        have h₃ := h₂.shorten (halloc.emit _) (fun p hp => List.mem_cons_of_mem _ (hops p hp)) hlast
          (hsole hshort hne) ((g.cache s).length - 1)
        rw [spilled_modifyLast hne fun s' => by
          by_cases hs : s' = s
          · subst hs
            simp
          · simp [hs]]
        exact h₃
    next hbyte =>
      have hdrop := h.dropLast (s := s)
      rw [hdrop.spilled_self]
      exact hdrop

theorem Holds.releaseReg (h : Holds E σ₀ cells ops g) (r : OpReg) :
    Holds E σ₀ cells ops (g.releaseReg r) := ⟨h.running, h.cells, h.operands⟩

theorem PointersApart.dropLast (h : PointersApart held ops g) (top : Cell) :
    PointersApart (top.value.reg :: held) ops (g.setCache s (g.cache s).dropLast) := by
  intro s' r hr
  obtain ⟨hmem, hcells, hothers⟩ := h s' r hr
  refine ⟨List.mem_cons_of_mem _ hmem, fun s'' hin => hcells s'' ?_, hothers⟩
  by_cases hs : s'' = s
  · subst hs
    rw [setCache_cache_self] at hin
    exact List.map_subset _ (List.dropLast_subset _) hin
  · rwa [setCache_cache_of_ne _ _ _ hs] at hin

/-- **A byte or a short is popped.** -/
theorem Holds.stackCachePop (h : Holds E σ₀ cells ops g) (hacc : Accounts held g) {flag2 : Bool}
    (hheld : held.length + (if flag2 then 1 else 0) ≤ 5) (hops : ∀ p ∈ ops, p.1 ∈ held)
    (hptr : PointersApart held ops g) (hsole : g.PopsSole flag2 s) :
    Holds E σ₀ ((g.stackCachePop flag2 s).2.spilled
      (Function.update cells s (Given.pop flag2 (g.cache s) (cells s)))) ops
        (g.stackCachePop flag2 s).2 := by
  unfold Gen.stackCachePop Given.pop
  unfold PopsSole at hsole
  cases flag2 with
  | false => exact h.stackCachePopByte hacc hheld hops hptr hsole
  | true =>
    simp only [if_true] at hheld hsole ⊢
    cases htop : (g.cache s).getLast? with
    | none =>
      simp only
      rw [Function.update_eq_self]
      exact h.popFromMem hacc (Nat.le_of_succ_le hheld) hops hptr true s
    | some top =>
      have hdrop := h.dropLast (s := s)
      rw [htop] at hsole
      simp only at hsole ⊢
      split
      next hshort =>
        rw [hdrop.spilled_self]
        exact hdrop
      next hbyte =>
        obtain ⟨hsplit, hone⟩ := hsole (Bool.eq_false_iff.mpr hbyte)
        have hacc' := hacc.dropLast htop
        have hbelow := hdrop.stackCachePopByte hacc' hheld
          (fun p hp => List.mem_cons_of_mem _ (hops p hp)) (hptr.dropLast _) hsplit
        rw [setCache_cache_self, Function.update_self, Function.update_idem] at hbelow
        obtain ⟨hcount, hcells⟩ := (hacc'.stackCachePopByte hheld s).alone hone List.mem_cons_self
        have hnot : ∀ p ∈ ops, p.1 ≠ ((g.setCache s (g.cache s).dropLast).stackCachePopByte s).1 := by
          intro p hp heq
          rw [List.count_cons_self] at hcount
          have hzero := List.count_eq_zero.mp (Nat.succ_injective hcount)
          exact hzero (List.mem_cons_of_mem _ (heq ▸ hops p hp))
        exact (hbelow.writes (touches_join _ _ top.value.reg) rfl (by rintro r rfl; exact hcells)
          hnot).releaseReg _

theorem Holds.discardFromMem (h : Holds E σ₀ cells ops g) (hptr : PointersApart held ops g)
    (flag2 : Bool) (s : Stk) : Holds E σ₀ cells ops (g.discardFromMem flag2 s) := by
  apply h.writes (W := fun r => g.spReg s = .op r) (Emits.emit .refl ⟨rfl, ?_⟩) rfl
  · exact fun r hr => (hptr s r hr).cells
  · exact fun p hp hr => (hptr s _ hr).operands p hp rfl
  · exact fun r hr => Option.some_inj.mp hr

theorem Holds.stackCacheDiscardByte (h : Holds E σ₀ cells ops g) (hacc : Accounts held g)
    (hops : ∀ p ∈ ops, p.1 ∈ held) (hptr : PointersApart held ops g)
    (hsole : g.DiscardsByteSole s) :
    Holds E σ₀ (Function.update cells s (Given.popByte (g.cache s) (cells s))) ops
      (g.stackCacheDiscardByte s) := by
  unfold Gen.stackCacheDiscardByte Given.popByte
  unfold DiscardsByteSole at hsole
  cases htop : (g.cache s).getLast? with
  | none =>
    simp only
    rw [Function.update_eq_self]
    exact h.discardFromMem hptr false s
  | some top =>
    rw [htop] at hsole
    simp only at hsole ⊢
    split
    next hshort => exact h.shorten hacc hops htop (hsole hshort) _
    next => exact h.dropLast.releaseReg _

/-- **A byte or a short is discarded.** -/
theorem Holds.stackCacheDiscard (h : Holds E σ₀ cells ops g) (hacc : Accounts held g)
    (hops : ∀ p ∈ ops, p.1 ∈ held) (hptr : PointersApart held ops g) {flag2 : Bool}
    (hsole : g.DiscardsSole flag2 s) :
    Holds E σ₀ (Function.update cells s (Given.pop flag2 (g.cache s) (cells s))) ops
      (g.stackCacheDiscard flag2 s) := by
  unfold Gen.stackCacheDiscard Given.pop
  unfold DiscardsSole at hsole
  cases flag2 with
  | false => exact h.stackCacheDiscardByte hacc hops hptr hsole
  | true =>
    simp only [if_true] at hsole ⊢
    cases htop : (g.cache s).getLast? with
    | none =>
      simp only
      rw [Function.update_eq_self]
      exact h.discardFromMem hptr true s
    | some top =>
      have hdrop := (h.dropLast (s := s)).releaseReg top.value.reg
      rw [htop] at hsole
      simp only at hsole ⊢
      split
      next hshort => exact hdrop
      next hbyte =>
        have hptr' : PointersApart held ops
            ((g.setCache s (g.cache s).dropLast).releaseReg top.value.reg) := by
          intro s' r hr
          exact ⟨(hptr s' r hr).held, (hptr.dropLast top s' r hr).cells,
            (hptr s' r hr).operands⟩
        have hbelow := hdrop.stackCacheDiscardByte (s := s) (hacc.dropLast htop).releaseReg hops hptr'
          (hsole (Bool.eq_false_iff.mpr hbyte))
        rw [releaseReg_cache, setCache_cache_self, Function.update_self, Function.update_idem]
          at hbelow
        exact hbelow

theorem Holds.concat (h : Holds E σ₀ (g'.spilled cells) ops g') (s : Stk) (o : Operand OpReg) :
    Holds E σ₀ (((g'.setCache s (g'.cache s ++ [⟨o, true⟩])).retainReg o.reg).spilled
      (Function.update cells s (cells s ++ [(g'.mach E σ₀).regs (.op o.reg)]))) ops
        ((g'.setCache s (g'.cache s ++ [⟨o, true⟩])).retainReg o.reg) := by
  refine ⟨h.running, fun s' => ?_, h.operands⟩
  have hcells := h.cells s'
  by_cases hs : s' = s
  · subst hs
    rw [spilled, Function.update_self, retainReg_cache, setCache_cache_self, List.length_append,
      List.length_singleton, List.rtake_concat_succ, cellValues_append, mach_retainReg, mach_setCache,
      hcells]
    rfl
  · rw [spilled, Function.update_of_ne hs, retainReg_cache, setCache_cache_of_ne _ _ _ hs]
    exact hcells

/-- **An operand is pushed.** -/
theorem Holds.stackCachePush (h : Holds E σ₀ cells ops g) (s : Stk) (o : Operand OpReg) :
    Holds E σ₀ ((g.stackCachePush s o).spilled
      (Function.update cells s (cells s ++ [(g.mach E σ₀).regs (.op o.reg)]))) ops
        (g.stackCachePush s o) := by
  unfold Gen.stackCachePush
  split
  · have hspill := g.spills_stackCacheSpill s
    have hregs := (hspill.touching (W := fun _ => False)).touches E σ₀
    have h' := (h.spills hspill).concat s o
    rwa [hregs.2 o.reg id] at h'
  · apply Holds.concat
    rwa [h.spilled_self]

theorem map_renew (r : OpReg) (w : Word) (ops : List (OpReg × Word)) :
    (Given.renew r w ops).map Prod.fst = ops.map Prod.fst := by
  induction ops with
  | nil => rfl
  | cons p ps ih =>
    rw [Given.renew]
    split
    next heq => rw [List.map_cons, List.map_cons, heq]
    next => rw [List.map_cons, List.map_cons, ih]

theorem mem_renew {r : OpReg} {w : Word} {p : OpReg × Word}
    (hcount : (ops.map Prod.fst).count r ≤ 1) (hp : p ∈ Given.renew r w ops) :
    p = (r, w) ∨ p ∈ ops ∧ p.1 ≠ r := by
  induction ops with
  | nil => cases hp
  | cons q qs ih =>
    rw [List.map_cons, List.count_cons] at hcount
    rw [Given.renew] at hp
    split at hp
    next heq =>
      rw [if_pos (by simpa using heq)] at hcount
      obtain rfl | hlater := List.mem_cons.mp hp
      · exact .inl rfl
      · refine .inr ⟨List.mem_cons_of_mem _ hlater, ?_⟩
        rintro rfl
        have hpos := List.count_pos_iff.mpr (List.mem_map_of_mem (f := Prod.fst) hlater)
        omega
    next hne =>
      obtain rfl | hp := List.mem_cons.mp hp
      · exact .inr ⟨List.mem_cons_self, hne⟩
      · obtain heq | ⟨hmem, hother⟩ := ih (Nat.le_of_add_right_le hcount) hp
        · exact .inl heq
        · exact .inr ⟨List.mem_cons_of_mem _ hmem, hother⟩

/-- **An operand is computed**, in a register of its own. -/
theorem Holds.compute {r : OpReg} (h : Holds E σ₀ cells ops g) (hcache : g'.cache = g.cache)
    (hstatus : (g'.mach E σ₀).status = .running)
    (hregs : ∀ r', r' ≠ r → (g'.mach E σ₀).regs (.op r') = (g.mach E σ₀).regs (.op r'))
    (hcells : ∀ s, r ∉ cellRegs (g.cache s)) (hcount : (ops.map Prod.fst).count r ≤ 1) :
    Holds E σ₀ cells (Given.renew r ((g'.mach E σ₀).regs (.op r)) ops) g' := by
  refine ⟨hstatus, fun s => ?_, fun p hp => ?_⟩
  · rw [hcache, ← h.cells s]
    apply cellValues_congr
    intro r' hr'
    apply hregs
    rintro rfl
    exact hcells s hr'
  · obtain rfl | ⟨hmem, hne⟩ := mem_renew hcount hp
    · rfl
    · exact (hregs p.1 hne).trans (h.operands p hmem)

theorem Holds.to_spilled (h : Holds E σ₀ cells ops g) : Holds E σ₀ (g.spilled cells) ops g := by
  rwa [h.spilled_self]

end Gen

/-! ## Every micro operation -/

theorem Given.kept_iff {E : Env} {σ₀ : Mach} {ctx : Ctx} {x : Given} : x.Kept E σ₀ ctx ↔
    ((ctx.mach E σ₀).status = .running → Gen.Holds E σ₀ x.cells x.operands ctx.toGen) :=
  ⟨fun h hrun => ⟨hrun, (h hrun).1, (h hrun).2⟩, fun h hrun => ⟨(h hrun).cells, (h hrun).operands⟩⟩

/-- The invariant in the course of an opcode that holds `held`. -/
structure Followed (E : Env) (σ₀ : Mach) (held : List OpReg) (t : Course) (ctx : Ctx) (x : Given) :
    Prop where
  accounts : ctx.Accounts held
  spRegs : ctx.SpRegs
  counts : ∀ r, (x.operands.map Prod.fst).count r ≤ held.count r
  pointers : t.popping = true → Gen.PointersApart held x.operands ctx.toGen
  own : ∀ r, t.own = some r → ctx.refCounts r = 1
  cleared : t.cleared = true → ctx.Uncached
  labels : ∀ l ∈ t.labels, l < ctx.labels
  skips : ∀ l, (ctx.mach E σ₀).status = .skipping l → l < ctx.labels
  kept : x.Kept E σ₀ ctx

namespace Followed

variable {E : Env} {σ₀ : Mach} {held held' : List OpReg} {t t' : Course} {ctx ctx' : Ctx}
  {x x' : Given} {next : Ctx → Ctx} {inline : Ctx → Given → Given}

theorem holds (h : Followed E σ₀ held t ctx x) (hrun : (ctx.mach E σ₀).status = .running) :
    Gen.Holds E σ₀ x.cells x.operands ctx.toGen := Given.kept_iff.mp h.kept hrun

theorem mem_held (h : Followed E σ₀ held t ctx x) : ∀ p ∈ x.operands, p.1 ∈ held := by
  intro p hp
  have hpos := List.count_pos_iff.mpr (List.mem_map_of_mem (f := Prod.fst) hp)
  exact List.count_pos_iff.mp (hpos.trans_le (h.counts p.1))

/-- What is left to show where the status of the machine stays the same. -/
theorem further (h : Followed E σ₀ held t ctx x)
    (hstatus : (ctx'.mach E σ₀).status = (ctx.mach E σ₀).status) (hsp : ctx'.spReg = ctx.spReg)
    (hle : ctx.labels ≤ ctx'.labels) (haccounts : ctx'.Accounts held')
    (hcounts : ∀ r, (x'.operands.map Prod.fst).count r ≤ held'.count r)
    (hpointers : t'.popping = true → Gen.PointersApart held' x'.operands ctx'.toGen)
    (hown : ∀ r, t'.own = some r → ctx'.refCounts r = 1)
    (hcleared : t'.cleared = true → ctx'.Uncached) (hlabels : t'.labels = t.labels)
    (hkept : Gen.Holds E σ₀ x.cells x.operands ctx.toGen →
      Gen.Holds E σ₀ x'.cells x'.operands ctx'.toGen) : Followed E σ₀ held' t' ctx' x' := by
  refine ⟨haccounts, ?_, hcounts, hpointers, hown, hcleared, ?_, ?_, ?_⟩
  · intro s
    rw [hsp]
    exact h.spRegs s
  · rw [hlabels]
    exact fun l hl => (h.labels l hl).trans_le hle
  · intro l hl
    exact (h.skips l (hstatus ▸ hl)).trans_le hle
  · exact Given.kept_iff.mpr fun hrun => hkept (h.holds (hstatus ▸ hrun))

/-- What is left to show after code that runs on. -/
theorem emits (h : Followed E σ₀ held t ctx x) (hemits : Gen.Emits Gen.Loose ctx.toGen ctx'.toGen)
    (haccounts : ctx'.Accounts held')
    (hcounts : ∀ r, (x'.operands.map Prod.fst).count r ≤ held'.count r)
    (hpointers : t'.popping = true → Gen.PointersApart held' x'.operands ctx'.toGen)
    (hown : ∀ r, t'.own = some r → ctx'.refCounts r = 1)
    (hcleared : t'.cleared = true → ctx'.Uncached) (hlabels : t'.labels = t.labels)
    (hkept : Gen.Holds E σ₀ x.cells x.operands ctx.toGen →
      Gen.Holds E σ₀ x'.cells x'.operands ctx'.toGen) : Followed E σ₀ held' t' ctx' x' :=
  h.further (Gen.status_of_emits hemits) hemits.spReg (Gen.Grows.emits (k := 0) hemits).labels haccounts
    hcounts hpointers hown hcleared hlabels hkept

theorem popEx (h : Followed E σ₀ held t ctx x) {flag2 : Bool} {s : Stk}
    (hheld : held.length + (if flag2 then 1 else 0) ≤ 5) (hpop : t.popping = true)
    (hsole : ctx.toGen.PopsSole flag2 s) :
    Followed E σ₀ ((ctx.popEx flag2 s).1.reg :: held) { t with own := none } (ctx.popEx flag2 s).2
      (Micro.give E σ₀ next inline (.popEx flag2 s) ctx x) := by
  have hreg := Ctx.popEx_reg ctx flag2 s
  have hgen := Ctx.popEx_toGen ctx flag2 s
  have hfst := h.accounts.stackCachePop_fst hheld s
  have hshrinks := fun s' => ctx.toGen.shrinks_stackCachePop s flag2 s'
  have hptr := h.pointers hpop
  apply h.emits
  · exact handle_emits next (o := .popEx flag2 s) rfl h.spRegs
  · rw [Ctx.Accounts, hgen, hreg]
    exact Gen.Accounts.stackCachePop h.accounts hheld s
  · intro r
    simp only [Micro.give, Given.spill, List.map_cons, List.count_cons]
    exact Nat.add_le_add_right (h.counts r) _
  · intro _ s' r hr
    rw [hgen, (Gen.emits_stackCachePop _ s h.spRegs flag2).spReg] at hr
    change Gen.Apart _ (((ctx.popEx flag2 s).1.reg, _) :: x.operands) _ r
    rw [hgen, hreg]
    exact (hptr s' r hr).popped (fun s' => Shrinks.regs (hshrinks s')) hfst
  · rintro r ⟨⟩
  · intro hc s'
    rw [hgen]
    have := hshrinks s'
    rw [h.cleared hc s'] at this
    exact Shrinks.nil this
  · rfl
  · intro hold
    obtain ⟨hrun', hcells, hops⟩ := hold.stackCachePop h.accounts hheld h.mem_held hptr hsole
    rw [← hgen] at hrun' hcells hops
    refine ⟨hrun', hcells, fun p hp => ?_⟩
    obtain rfl | hp := List.mem_cons.mp hp
    · rfl
    · exact hops p hp

theorem discard (h : Followed E σ₀ held t ctx x) {flag2 : Bool} {s : Stk} (hpop : t.popping = true)
    (hsole : ctx.toGen.DiscardsSole flag2 s) :
    Followed E σ₀ held { t with own := none } (ctx.discard flag2 s)
      (Micro.give E σ₀ next inline (.discard flag2 s) ctx x) := by
  have hshrinks := fun s' => ctx.toGen.shrinks_stackCacheDiscard s flag2 s'
  have hptr := h.pointers hpop
  apply h.emits
  · exact handle_emits next (o := .discard flag2 s) rfl h.spRegs
  · exact Gen.Accounts.stackCacheDiscard h.accounts flag2 s
  · exact h.counts
  · intro _ s' r hr
    rw [Ctx.discard_toGen, (Gen.emits_stackCacheDiscard _ s h.spRegs flag2).spReg] at hr
    obtain ⟨hmem, hcells, hothers⟩ := hptr s' r hr
    exact ⟨hmem, fun s'' hin => hcells s'' (Shrinks.regs (hshrinks s'') hin), hothers⟩
  · rintro r ⟨⟩
  · intro hc s'
    have hnil := hshrinks s'
    rw [h.cleared hc s'] at hnil
    exact Shrinks.nil hnil
  · rfl
  · intro hold
    exact (hold.stackCacheDiscard h.accounts h.mem_held hptr hsole).to_spilled

theorem pushEx (h : Followed E σ₀ held t ctx x) {o : Operand OpReg} {s : Stk} (ho : o.reg ∈ held) :
    Followed E σ₀ held { t with popping := false, own := none, cleared := false } (ctx.pushEx o s)
      (Micro.give E σ₀ next inline (.pushEx o s) ctx x) := by
  have hgen := Ctx.pushEx_toGen ctx s o
  apply h.emits
  · exact handle_emits next (o := .pushEx o s) rfl h.spRegs
  · rw [Ctx.Accounts, hgen]
    exact Gen.Accounts.pushEx h.accounts ho s
  · exact h.counts
  · rintro ⟨⟩
  · rintro r ⟨⟩
  · rintro ⟨⟩
  · rfl
  · intro hold
    have hassert : Gen.Holds E σ₀ x.cells x.operands
        (ctx.toGen.assert (ctx.refCounts o.reg != 0)) := ⟨hold.running, hold.cells, hold.operands⟩
    have hpush := hassert.stackCachePush s o
    rw [← hgen] at hpush
    exact hpush

theorem allocReg (h : Followed E σ₀ held t ctx x) (hheld : held.length ≤ 5) :
    Followed E σ₀ (ctx.toGen.allocReg.1 :: held)
      { t with popping := false, own := some ctx.toGen.allocReg.1 } (ctx.liftReg Gen.allocReg).2
      (Micro.give E σ₀ next inline .allocReg ctx x) := by
  obtain ⟨g', r, -, -, hzero, halloc⟩ := Gen.Accounts.allocReg_fresh h.accounts hheld
  apply h.emits
  · exact handle_emits next (o := .allocReg) rfl h.spRegs
  · exact Gen.Accounts.allocReg h.accounts hheld
  · intro r
    simp only [Micro.give, Given.spill, List.map_cons, List.count_cons]
    exact Nat.add_le_add_right (h.counts r) _
  · rintro ⟨⟩
  · intro r' hr'
    obtain rfl := Option.some_inj.mp hr'
    show ctx.toGen.allocReg.2.refCounts ctx.toGen.allocReg.1 = 1
    rw [halloc]
    simp [Gen.retainReg, hzero]
  · intro hc s
    have hnil := ctx.toGen.shrinks_allocReg s
    rw [h.cleared hc s] at hnil
    exact Shrinks.nil hnil
  · rfl
  · intro hold
    obtain ⟨hrun', hcells, hops⟩ := hold.allocReg
    refine ⟨hrun', hcells, fun p hp => ?_⟩
    obtain rfl | hp := List.mem_cons.mp hp
    · rfl
    · exact hops p hp

theorem immediate (h : Followed E σ₀ held t ctx x) (hheld : held.length ≤ 5) (isShort : Bool) :
    Followed E σ₀ ((ctx.immediate isShort).1.reg :: held) { t with popping := false, own := none }
      (ctx.immediate isShort).2 (Micro.give E σ₀ next inline (.immediate isShort) ctx x) := by
  have hcache : (ctx.immediate isShort).2.cache = ctx.toGen.allocReg.2.cache :=
    Gen.immediate_cache ..
  apply h.emits
  · exact handle_emits next (o := .immediate isShort) rfl h.spRegs
  · exact (Gen.Accounts.allocReg h.accounts hheld).immediate _ _ _
  · intro r
    simp only [Micro.give, Given.spill, List.map_cons, List.count_cons]
    exact Nat.add_le_add_right (h.counts r) _
  · rintro ⟨⟩
  · rintro r ⟨⟩
  · intro hc s
    have hnil := ctx.toGen.shrinks_allocReg s
    rw [h.cleared hc s] at hnil
    rw [hcache]
    exact Shrinks.nil hnil
  · rfl
  · intro hold
    obtain ⟨hfresh, hfree⟩ := Gen.Accounts.allocReg_free h.accounts hheld
    obtain ⟨hrun', hcells, hops⟩ := Gen.Holds.writes hold.allocReg
      (Gen.touches_immediate (W := fun r => r = ctx.toGen.allocReg.1) ctx.toGen.allocReg.2
        ctx.toGen.allocReg.1 rfl isShort ctx.pc) hcache (by rintro r rfl; exact hfree)
      (by rintro p hp heq; exact hfresh (heq ▸ h.mem_held p hp))
    refine ⟨hrun', fun s => ?_, fun p hp => ?_⟩
    · refine (hcells s).trans ?_
      simp only [Gen.spilled, Micro.give, Given.spill, handle, hcache]
    · obtain rfl | hp := List.mem_cons.mp hp
      · rfl
      · exact hops p hp

/-- Operations that leave registers and caches alone, and compute no operand. -/
theorem aside (h : Followed E σ₀ held t ctx x)
    (hstatus : (ctx'.mach E σ₀).status = (ctx.mach E σ₀).status)
    (hregs : ∀ r, (ctx'.mach E σ₀).regs (.op r) = (ctx.mach E σ₀).regs (.op r))
    (hsp : ctx'.spReg = ctx.spReg) (hle : ctx.labels ≤ ctx'.labels) (haccounts : ctx'.Accounts held)
    (hcache : ctx'.cache = ctx.cache) (hcounts : ctx'.refCounts = ctx.refCounts) :
    Followed E σ₀ held t ctx' (x.spill ctx') := by
  refine h.further hstatus hsp hle haccounts h.counts ?_ ?_ ?_ rfl ?_
  · intro hpop s r hr
    rw [hsp] at hr
    obtain ⟨hmem, hcells, hothers⟩ := h.pointers hpop s r hr
    refine ⟨hmem, fun s' => ?_, hothers⟩
    rw [hcache]
    exact hcells s'
  · rw [hcounts]
    exact h.own
  · intro hc s
    rw [hcache]
    exact h.cleared hc s
  · intro hold
    have hold' : Gen.Holds E σ₀ x.cells x.operands ctx'.toGen := by
      refine ⟨hstatus.trans hold.running, fun s => ?_, fun p hp => ?_⟩
      · rw [hcache, Gen.cellValues_congr fun r _ => hregs r]
        exact hold.cells s
      · exact (hregs p.1).trans (hold.operands p hp)
    exact hold'.to_spilled

/-- Operations that generate no code. -/
theorem silent (h : Followed E σ₀ held t ctx x) (hcode : ctx'.code = ctx.code)
    (hcache : ctx'.cache = ctx.cache) (hcounts : ctx'.refCounts = ctx.refCounts)
    (hsp : ctx'.spReg = ctx.spReg) (hok : ctx'.failed = ctx.failed)
    (hle : ctx.labels ≤ ctx'.labels) : Followed E σ₀ held t ctx' (x.spill ctx') := by
  have hmach : ctx'.mach E σ₀ = ctx.mach E σ₀ := Gen.mach_of_code hcode
  exact h.aside (by rw [hmach]) (fun r => by rw [hmach]) hsp hle
    (h.accounts.congr hcache hcounts hok) hcache hcounts

/-- Operations that compute the operand in the register `r`. -/
theorem compute (h : Followed E σ₀ held t ctx x) {r : OpReg}
    (hstatus : (ctx'.mach E σ₀).status = (ctx.mach E σ₀).status)
    (hregs : (ctx.mach E σ₀).status = .running →
      ∀ r', r' ≠ r → (ctx'.mach E σ₀).regs (.op r') = (ctx.mach E σ₀).regs (.op r'))
    (hsp : ctx'.spReg = ctx.spReg) (hle : ctx.labels ≤ ctx'.labels)
    (haccounts : ctx'.Accounts held) (hcache : ctx'.cache = ctx.cache)
    (hcounts : ctx'.refCounts = ctx.refCounts) (hr : r ∈ held) (hone : ctx.refCounts r = 1) :
    Followed E σ₀ held t ctx'
      ({ x with operands := Given.renew r ((ctx'.mach E σ₀).regs (.op r)) x.operands }.spill ctx') := by
  obtain ⟨hsole, hcells⟩ := Gen.Accounts.alone h.accounts hone hr
  refine h.further hstatus hsp hle haccounts ?_ ?_ ?_ ?_ rfl ?_
  · intro r'
    simp only [Given.spill, Gen.map_renew]
    exact h.counts r'
  · intro hpop s r' hr'
    rw [hsp] at hr'
    obtain ⟨hmem, hcells', hothers⟩ := h.pointers hpop s r' hr'
    refine ⟨hmem, fun s' => ?_, fun p hp => ?_⟩
    · rw [hcache]
      exact hcells' s'
    · have hfst := List.mem_map_of_mem (f := Prod.fst) hp
      simp only [Given.spill, Gen.map_renew] at hfst
      obtain ⟨q, hq, heq⟩ := List.mem_map.mp hfst
      rw [← heq]
      exact hothers q hq
  · rw [hcounts]
    exact h.own
  · intro hc s
    rw [hcache]
    exact h.cleared hc s
  · intro hold
    have hcount : (x.operands.map Prod.fst).count r ≤ 1 := (h.counts r).trans hsole.le
    exact (hold.compute hcache (hstatus.trans hold.running) (hregs hold.running) hcells
      hcount).to_spilled

/-- The same, by code that runs on. -/
theorem computes (h : Followed E σ₀ held t ctx x) {r : OpReg}
    (hemits : Gen.Emits Gen.Loose ctx.toGen ctx'.toGen)
    (htouch : Gen.Emits (Gen.Touches fun r' => r' = r) ctx.toGen ctx'.toGen)
    (haccounts : ctx'.Accounts held) (hcache : ctx'.cache = ctx.cache)
    (hcounts : ctx'.refCounts = ctx.refCounts) (hr : r ∈ held) (hone : ctx.refCounts r = 1) :
    Followed E σ₀ held t ctx'
      ({ x with operands := Given.renew r ((ctx'.mach E σ₀).regs (.op r)) x.operands }.spill ctx') :=
  h.compute (htouch.touches _ _).1 (fun _ => (htouch.touches _ _).2) hemits.spReg
    (Gen.Grows.emits (k := 0) hemits).labels haccounts hcache hcounts hr hone

theorem asides (h : Followed E σ₀ held t ctx x) (hemits : Gen.Emits Gen.Loose ctx.toGen ctx'.toGen)
    (htouch : Gen.Emits (Gen.Touches fun _ => False) ctx.toGen ctx'.toGen)
    (haccounts : ctx'.Accounts held) (hcache : ctx'.cache = ctx.cache)
    (hcounts : ctx'.refCounts = ctx.refCounts) : Followed E σ₀ held t ctx' (x.spill ctx') :=
  h.aside (htouch.touches _ _).1 (fun r => (htouch.touches _ _).2 r id) hemits.spReg
    (Gen.Grows.emits (k := 0) hemits).labels haccounts hcache hcounts

theorem newLabel (h : Followed E σ₀ held t ctx x) :
    Followed E σ₀ held { t with labels := ctx.labels :: t.labels } ctx.newLabel.2
      (x.spill ctx.newLabel.2) := by
  have h' : Followed E σ₀ held t ctx.newLabel.2 (x.spill ctx.newLabel.2) :=
    h.silent rfl rfl rfl rfl rfl (Nat.le_succ _)
  refine { h' with labels := fun l hl => ?_ }
  obtain rfl | hl := List.mem_cons.mp hl
  · exact Nat.lt_succ_self _
  · exact h'.labels l hl

theorem divide (h : Followed E σ₀ held t ctx x) {c a b : OpReg} (hc : c ∈ held)
    (hone : ctx.refCounts c = 1) : Followed E σ₀ held t (ctx.lift (·.divide c a b))
      (Micro.give E σ₀ next inline (.divide c a b) ctx x) := by
  have hgrows : Gen.Grows ctx.labels ctx.toGen (ctx.toGen.divide c a b) :=
    Gen.grows_divide le_rfl c a b
  apply h.compute
  · by_cases hrun : (ctx.mach E σ₀).status = .running
    · exact (Gen.mach_divide c a b hrun).1.trans hrun.symm
    · exact congrArg Mach.status (hgrows.mach_eq hrun h.skips)
  · intro hrun r hr
    obtain ⟨-, -, -, -, hregs⟩ := Gen.mach_divide c a b hrun
    exact hregs _ (by simpa using hr) (by simp) (by simp)
  · exact Gen.divide_spReg ..
  · exact hgrows.labels
  · exact Gen.Accounts.divide h.accounts c a b
  · exact Gen.divide_cache ..
  · exact Gen.divide_refCounts ..
  · exact hc
  · exact hone

theorem clear (h : Followed E σ₀ held t ctx x) :
    Followed E σ₀ held { t with popping := false, own := none, cleared := true }
      (ctx.lift Gen.clearStackCaches) (x.spill (ctx.lift Gen.clearStackCaches)) := by
  have hspills := ctx.toGen.spills_clearStackCaches
  apply h.emits
  · exact hspills.emits.loose
  · exact Gen.Accounts.clear h.accounts
  · exact h.counts
  · rintro ⟨⟩
  · rintro r ⟨⟩
  · exact fun _ => ctx.toGen.clearStackCaches_cache
  · rfl
  · intro hold
    exact hold.spills hspills

/-- Code behind which nothing is cached, and the operands are not followed. -/
theorem emptied (h : Followed E σ₀ held t ctx x) (haccounts : ctx'.Accounts held) (hsp : ctx'.SpRegs)
    (hnil : ctx'.Uncached) (hpointers : t'.popping = true → Gen.PointersApart held [] ctx'.toGen)
    (hown : ∀ r, t'.own = some r → ctx'.refCounts r = 1) (hlabels : ∀ l ∈ t'.labels, l < ctx'.labels)
    (hle : ctx.labels ≤ ctx'.labels)
    (hskips : ∀ l, ctx.labels ≤ l → (ctx.mach E σ₀).status ≠ .skipping l →
      (ctx'.mach E σ₀).status ≠ .skipping l)
    (hcells : ∀ s, x'.cells s = []) (hops : x'.operands = []) : Followed E σ₀ held t' ctx' x' := by
  refine ⟨haccounts, hsp, ?_, ?_, hown, fun _ => hnil, hlabels, ?_, ?_⟩
  · intro r
    rw [hops]
    exact Nat.zero_le _
  · rw [hops]
    exact hpointers
  · intro l hl
    by_contra hlt
    have hle' : ctx.labels ≤ l := hle.trans (Nat.le_of_not_lt hlt)
    exact hskips l hle' (fun hs => absurd (h.skips l hs) (Nat.not_lt.mpr hle')) hl
  · intro _
    refine ⟨fun s => ?_, ?_⟩
    · rw [hnil s, hcells s]
      rfl
    · rw [hops]
      exact fun p hp => absurd hp List.not_mem_nil

theorem spill_nil (hnil : ctx.Uncached) (x : Given) (s : Stk) : (x.spill ctx).cells s = [] := by
  simp [Given.spill, hnil s, List.rtake]

theorem emit (h : Followed E σ₀ held t ctx x) {i : Instr} (hc : t.cleared = true)
    (hi : ∀ l, i.labelRef = some l → l ∈ t.labels) :
    Followed E σ₀ held t (ctx.lift (·.emit i)) (Micro.give E σ₀ next inline (.emit i) ctx x) := by
  have hnil := h.cleared hc
  have hsub : (x.operands.filter fun p => i.leaves p.1).Sublist x.operands := List.filter_sublist
  refine ⟨Gen.Accounts.emit h.accounts i, h.spRegs, ?_, ?_, h.own, fun _ => hnil, h.labels, ?_, ?_⟩
  · exact fun r => ((hsub.map _).count_le r).trans (h.counts r)
  · intro hpop s r hr
    obtain ⟨hmem, hcells, hothers⟩ := h.pointers hpop s r hr
    exact ⟨hmem, hcells, fun p hp => hothers p (hsub.subset hp)⟩
  · intro l hl
    by_contra hlt
    have href : i.labelRef ≠ some l := fun hl' => hlt (h.labels l (hi l hl'))
    have hskip : (ctx.mach E σ₀).status ≠ .skipping l := fun hs => hlt (h.skips l hs)
    exact Mach.step_status_ne href hskip hl
  · intro hrun
    refine ⟨fun s => ?_, fun p hp => ?_⟩
    · exact (congrArg (Gen.cellValues _) (hnil s)).trans (spill_nil hnil _ s).symm
    · obtain ⟨hmem, hleaves⟩ := List.mem_filter.mp hp
      obtain ⟨hrun', hregs⟩ := Mach.step_leaves hleaves hrun
      exact hregs.trans ((h.kept hrun').2 p hmem)

theorem callDevice (h : Followed E σ₀ held t ctx x) (helper : Helper) (addr : OpReg)
    (result : Option OpReg) (hc : t.cleared = true) :
    Followed E σ₀ held { t with popping := false, own := none }
      (ctx.lift (·.callDevice helper addr result))
      (Micro.give E σ₀ next inline (.callDevice helper addr result) ctx x) := by
  have hcache : (ctx.lift (·.callDevice helper addr result)).cache = ctx.cache := by
    cases result <;> rfl
  have hnil : (ctx.lift (·.callDevice helper addr result)).Uncached := by
    intro s
    rw [hcache]
    exact h.cleared hc s
  have hle := (Gen.grows_callDevice (k := 0) (g := ctx.toGen) helper addr result).labels
  apply h.emptied
  · exact Gen.Accounts.callDevice h.accounts helper addr result
  · cases result <;> exact h.spRegs
  · exact hnil
  · rintro ⟨⟩
  · rintro r ⟨⟩
  · exact fun l hl => (h.labels l hl).trans_le hle
  · exact hle
  · intro l _ hs
    exact (Gen.grows_callDevice (k := l + 1) helper addr result).status_ne (Nat.lt_succ_self l) hs
  · exact spill_nil hnil _
  · rfl

theorem leaveZeroPage (h : Followed E σ₀ held t ctx x) :
    Followed E σ₀ held ⟨false, none, false, []⟩ ctx.leaveZeroPage .none := by
  obtain h' := h.clear
  have hnil := h'.cleared rfl
  apply h'.emptied
  · exact Gen.Accounts.emit h'.accounts _
  · exact h'.spRegs
  · exact hnil
  · rintro ⟨⟩
  · rintro r ⟨⟩
  · rintro l ⟨⟩
  · exact le_rfl
  · intro l _ hs
    exact Mach.step_status_ne (by simp [Instr.labelRef]) hs
  · exact fun s => rfl
  · rfl

end Followed

end BuxnJit
