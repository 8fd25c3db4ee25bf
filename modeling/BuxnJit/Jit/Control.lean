import BuxnJit.Jit.MemBase

/-!
# Control flow within a block

Jumps within a block lead forward to labels that are made for them. `Grows k` says that the code
generated since refers to labels from `k` on only, so that a machine that skips to an older label
passes it over (`Grows.mach_of_skipping`).
-/

namespace BuxnJit

open Foundations

/-- The label that an instruction jumps to, or is. -/
def Instr.labelRef : Instr → Option Label
  | .jumpFlag _ l | .cmpJump _ _ _ l | .jump l | .label l => some l
  | _ => none

theorem Instr.Local.labelRef {i : Instr} (hi : i.Local) : i.labelRef = none := by
  cases i <;> first | rfl | simpa [Instr.labelRef] using hi.control

/-! ## Passing code over -/

namespace Mach

variable {E : Env} {σ : Mach} {code : List Instr}

theorem exec_left {e : Exit} (h : σ.status = .left e) (code : List Instr) :
    Mach.exec E code σ = σ := by
  induction code with
  | nil => rfl
  | cons i code ih => rw [exec_cons, ih, step_left h]

theorem exec_skipping {l : Label} (h : σ.status = .skipping l)
    (hcode : ∀ i ∈ code, i.labelRef ≠ some l) : Mach.exec E code σ = σ := by
  induction code with
  | nil => rfl
  | cons i code ih =>
    rw [exec_cons, ih fun j hj => hcode j (.tail _ hj), step_skipping h]
    rintro rfl
    exact hcode _ (.head _) rfl

/-- Code that does not mention a label does not skip to it. -/
theorem step_status_ne {i : Instr} {l : Label} (hi : i.labelRef ≠ some l)
    (h : σ.status ≠ .skipping l) : (σ.step E i).status ≠ .skipping l := by
  intro hstep
  cases hs : σ.status with
  | left e => exact h (by rwa [step_left hs] at hstep)
  | skipping l' =>
    unfold step at hstep
    rw [hs] at hstep
    cases i with
    | label l'' =>
      simp only at hstep
      split at hstep
      · cases hstep
      · exact h hstep
    | _ => exact h hstep
  | running =>
    rw [step_running hs] at hstep
    cases i with
    | jump l' => exact hi (by simpa [Instr.exec, Instr.labelRef] using hstep)
    | jumpFlag c l' =>
      simp only [Instr.exec] at hstep
      split at hstep
      · exact hi (by simpa [Instr.labelRef] using hstep)
      · simp [hs] at hstep
    | cmpJump c a b l' =>
      simp only [Instr.exec] at hstep
      split at hstep
      · exact hi (by simpa [Instr.labelRef] using hstep)
      · simp [hs] at hstep
    | linkCmp a w j =>
      simp only [Instr.exec] at hstep
      split at hstep <;> simp [hs] at hstep
    | _ => simp [Instr.exec, set, afterICall, hs] at hstep

theorem exec_status_ne {l : Label} (hcode : ∀ i ∈ code, i.labelRef ≠ some l)
    (h : σ.status ≠ .skipping l) : (Mach.exec E code σ).status ≠ .skipping l := by
  induction code with
  | nil => exact h
  | cons i code ih =>
    exact step_status_ne (hcode i (.head _)) (ih fun j hj => hcode j (.tail _ hj))

end Mach

/-! ## Code generated since -/

/-- The code generated between `g` and `g'` refers to labels from `k` on only. -/
structure Gen.Grows (k : Label) (g g' : Gen) : Prop where
  labels : g.labels ≤ g'.labels
  code : ∃ new : List Instr, g'.code = new ++ g.code ∧
    ∀ i ∈ new, ∀ l, i.labelRef = some l → k ≤ l

namespace Gen

variable {k k' : Label} {g g' g'' : Gen}

namespace Grows

theorem refl (k : Label) (g : Gen) : Grows k g g := ⟨le_rfl, [], rfl, by simp⟩

theorem trans (h : Grows k g g') (h' : Grows k g' g'') : Grows k g g'' := by
  obtain ⟨new, hnew, hrefs⟩ := h.code
  obtain ⟨new', hnew', hrefs'⟩ := h'.code
  refine ⟨h.labels.trans h'.labels, new' ++ new, by rw [hnew', hnew, List.append_assoc], ?_⟩
  intro i hi
  rcases List.mem_append.mp hi with hi | hi
  exacts [hrefs' i hi, hrefs i hi]

theorem mono (hk : k ≤ k') (h : Grows k' g g') : Grows k g g' := by
  obtain ⟨new, hnew, hrefs⟩ := h.code
  exact ⟨h.labels, new, hnew, fun i hi l hl => hk.trans (hrefs i hi l hl)⟩

theorem of_code (hcode : g'.code = g.code) (hlabels : g.labels ≤ g'.labels) : Grows k g g' :=
  ⟨hlabels, [], by simpa using hcode, by simp⟩

theorem emit (h : Grows k g g') {i : Instr} (hi : ∀ l, i.labelRef = some l → k ≤ l) :
    Grows k g (g'.emit i) := by
  refine h.trans ⟨le_rfl, [i], rfl, ?_⟩
  simpa using hi

theorem emits (h : Emits Loose g g') : Grows k g g' := by
  refine h.preserves (I := Grows k g) ?_ (refl k g)
  intro a b hab ha
  cases hab with
  | emit hi => exact ha.emit fun l hl => by rw [hi.labelRef] at hl; cases hl
  | setMemBase r =>
    unfold setMemBase
    split
    · exact ha
    · exact (ha.emit (i := .op2 .add .memBase .vm (.off r)) (by simp [Instr.labelRef])).trans
        (of_code rfl le_rfl)
  | books hs => exact ha.trans (of_code hs.code hs.labels.ge)

variable {E : Env} {σ₀ : Mach}

/-- A machine that has left the block, or skips to an older label, passes the new code over. -/
theorem mach_eq (h : Grows k g g') (hrun : (g.mach E σ₀).status ≠ .running)
    (hskip : ∀ l, (g.mach E σ₀).status = .skipping l → l < k) : g'.mach E σ₀ = g.mach E σ₀ := by
  obtain ⟨new, hnew, hrefs⟩ := h.code
  rw [mach, hnew, Mach.exec_append]
  cases hs : (g.mach E σ₀).status with
  | running => exact absurd hs hrun
  | left e => exact Mach.exec_left hs new
  | skipping l =>
    refine Mach.exec_skipping hs fun i hi hl => ?_
    exact absurd (hrefs i hi l hl) (Nat.not_le.mpr (hskip l hs))

/-- New code does not skip to an older label. -/
theorem status_ne (h : Grows k g g') {l : Label} (hl : l < k)
    (hs : (g.mach E σ₀).status ≠ .skipping l) : (g'.mach E σ₀).status ≠ .skipping l := by
  obtain ⟨new, hnew, hrefs⟩ := h.code
  rw [mach, hnew, Mach.exec_append]
  refine Mach.exec_status_ne (fun i hi hl' => ?_) hs
  exact absurd (hrefs i hi l hl') (Nat.not_le.mpr hl)

end Grows

theorem grows_divide (hk : k ≤ g.labels) (c a b : OpReg) : Grows k g (g.divide c a b) := by
  refine ⟨by simp [divide], _, g.divide_code c a b, ?_⟩
  intro i hi l hl
  simp only [divideCode, List.mem_cons, List.not_mem_nil, or_false] at hi
  rcases hi with rfl | rfl | rfl | rfl | rfl | rfl | rfl | rfl | rfl | rfl | rfl <;>
    simp only [Instr.labelRef, Option.some.injEq, reduceCtorEq] at hl <;> subst hl <;>
    first | exact hk | exact Nat.le_succ_of_le hk

theorem grows_callDevice (h : Helper) (addr : OpReg) (result : Option OpReg) :
    Grows k g (g.callDevice h addr result) := by
  cases result with
  | none =>
    refine ⟨le_rfl, [.loadVm (.sp .rst) .rsp, .loadVm (.sp .wst) .wsp, .icall h,
      .op1 .mov .memOffset (.reg (.op addr)), .op1 .mov .memBase (.reg .vm),
      .storeVm .rsp (.sp .rst), .storeVm .wsp (.sp .wst)], rfl, by simp [Instr.labelRef]⟩
  | some r =>
    refine ⟨le_rfl, [.loadVm (.sp .rst) .rsp, .loadVm (.sp .wst) .wsp,
      .op1 .mov (.op r) (.reg .memBase), .icall h,
      .op1 .mov .memOffset (.reg (.op addr)), .op1 .mov .memBase (.reg .vm),
      .storeVm .rsp (.sp .rst), .storeVm .wsp (.sp .wst)], rfl, by simp [Instr.labelRef]⟩

theorem grows_beginOpcode (op : Byte) : Grows k g (g.beginOpcode op) :=
  g.beginOpcode_preserves (I := Grows k g) op
    (fun _ _ hch ha => ha.trans (Grows.emits (Emits.loose (.single hch))))
    (fun _ _ _ ha => ha.trans (Grows.of_code rfl le_rfl)) (Grows.refl k g)

end Gen

/-! ## Opcodes refer to their own labels -/

/-- The labels an opcode gets are new. -/
def Micro.NewFrom (k : Label) : (o : Micro) → o.Res → Prop
  | .newLabel, l => k ≤ l
  | _, _ => True

/-- The labels an opcode refers to are new. -/
def Micro.RefersFrom (k : Label) : Micro → Prop
  | .emit i => ∀ l, i.labelRef = some l → k ≤ l
  | _ => True

section Shape

open Emit Prog

attribute [local simp] dispatch BRK LIT INC POP NIP SWP ROT DUP OVR EQU NEQ GTH LTH STH LDZ STZ LDR
  STR LDA STA DEI DEO ADD SUB MUL DIV AND ORA EOR SFT arith compareOp loadPush relative pop popByte
  push popEx pushEx allocReg alu wrapAround flag2 cur ask perform immediateJumpTarget newLabel
  clearStackCaches finalize emit Prog.bind bind_eq pure_eq ite_bind

variable (k : Label)

theorem under_jumpAbs (target : Operand Reg) (returnAddr : Short) :
    Under (F := micro) (Micro.NewFrom k) (Micro.RefersFrom k) (jumpAbs target returnAddr) := by
  simp [jumpAbs, Under, Micro.NewFrom, Micro.RefersFrom, under_ite, Instr.labelRef]
  grind

theorem under_jumpBoolean (target : Operand Reg) :
    Under (F := micro) (Micro.NewFrom k) (Micro.RefersFrom k) (jumpBoolean target) := by
  refine ⟨trivial, fun ctx _ => ⟨trivial, fun l (hl : k ≤ l) => ?_⟩⟩
  simp [Under, Micro.RefersFrom, Instr.labelRef, hl]

theorem under_jumpRelative (target : Operand Reg) (returnAddr : Short) :
    Under (F := micro) (Micro.NewFrom k) (Micro.RefersFrom k) (jumpRelative target returnAddr) :=
  ⟨trivial, fun _ _ => ⟨by simp [Micro.RefersFrom, Instr.labelRef], fun _ _ =>
    ⟨by simp [Micro.RefersFrom, Instr.labelRef], fun _ _ => under_jumpAbs k _ returnAddr⟩⟩⟩

theorem under_jump (target : Operand Reg) (returnAddr : Short) :
    Under (F := micro) (Micro.NewFrom k) (Micro.RefersFrom k) (jump target returnAddr) := by
  refine ⟨trivial, fun _ _ => ?_⟩
  show Under (F := micro) _ _ (if target.isShort then _ else if target.semantics.boolean then _
    else _)
  split
  · exact under_jumpAbs k target returnAddr
  split
  · exact under_jumpBoolean k target
  · exact under_jumpRelative k target returnAddr

theorem under_conditionalJump (condition : Operand OpReg) (target : Operand Reg) :
    Under (F := micro) (Micro.NewFrom k) (Micro.RefersFrom k)
      (conditionalJump condition target) := by
  refine ⟨trivial, fun _ _ => ⟨by simp [Micro.RefersFrom, Instr.labelRef], fun _ _ =>
    ⟨trivial, fun l (hl : k ≤ l) => ⟨?_, fun _ _ => ?_⟩⟩⟩⟩
  · simpa [Micro.RefersFrom, Instr.labelRef] using hl
  · show Under (F := micro) _ _ (jump target 0 >>= fun _ => Emit.emit (.label l))
    refine under_bind (under_jump k target 0) fun _ => ⟨?_, fun _ _ => trivial⟩
    simpa [Micro.RefersFrom, Instr.labelRef] using hl

theorem under_callTo (target : Operand Reg) (s : Stk) :
    Under (F := micro) (Micro.NewFrom k) (Micro.RefersFrom k) (callTo target s) :=
  ⟨trivial, fun _ _ => ⟨trivial, fun _ _ => ⟨trivial, fun _ _ => ⟨trivial, fun _ _ =>
    ⟨trivial, fun _ _ => under_jump k target _⟩⟩⟩⟩⟩

theorem under_dispatch (mn : Mnemonic) :
    Under (F := micro) (Micro.NewFrom k) (Micro.RefersFrom k) (dispatch mn) := by
  have hpop : Under (F := micro) (Micro.NewFrom k) (Micro.RefersFrom k) pop :=
    ⟨trivial, fun _ _ => ⟨trivial, fun _ _ => ⟨trivial, fun _ _ => trivial⟩⟩⟩
  cases mn
  case JMP =>
    refine under_bind hpop fun o => under_bind (under_jump k _ 0) fun _ => ?_
    split <;> simp [Under, Micro.RefersFrom]
  case JCN =>
    exact under_bind hpop fun o => ⟨trivial, fun _ _ => ⟨trivial, fun c _ =>
      under_conditionalJump k c (Emit.target o)⟩⟩
  case JSR =>
    exact under_bind hpop fun o => ⟨trivial, fun _ _ => under_callTo k (Emit.target o) _⟩
  case JCI =>
    exact ⟨trivial, fun c _ => ⟨trivial, fun t _ => under_conditionalJump k c t⟩⟩
  case JMI =>
    refine ⟨trivial, fun t _ => ?_⟩
    show Under (F := micro) _ _ (jump t 0 >>= fun _ => finalize)
    exact under_bind (under_jump k t 0) fun _ => ⟨trivial, fun _ _ => trivial⟩
  case JSI => exact ⟨trivial, fun t _ => under_callTo k t _⟩
  all_goals simp [Under, Micro.RefersFrom, under_ite, Instr.labelRef]

end Shape

/-- A compiler of inlined opcodes that refers to its own labels. -/
def Compiles (next : Ctx → Ctx) : Prop :=
  ∀ c : Ctx, c.SpRegs → (next c).SpRegs ∧ Gen.Grows c.labels c.toGen (next c).toGen

theorem handle_grows {next : Ctx → Ctx} (hnext : Compiles next) {o : Micro} {ctx : Ctx} {k : Label}
    (hk : k ≤ ctx.labels) (hsp : ctx.SpRegs) (ho : o.RefersFrom k) :
    (handle next o ctx).2.SpRegs ∧ Gen.Grows k ctx.toGen (handle next o ctx).2.toGen := by
  have of_emits : ∀ {ctx' : Ctx}, Gen.Emits Gen.Loose ctx.toGen ctx'.toGen →
      ctx'.SpRegs ∧ Gen.Grows k ctx.toGen ctx'.toGen :=
    fun h => ⟨spRegs_of_emits hsp h, .emits h⟩
  cases o with
  | divide c a b =>
    refine ⟨fun s => ?_, Gen.grows_divide hk c a b⟩
    rw [handle, Ctx.lift, Gen.divide_spReg]
    exact hsp s
  | callDevice h addr result =>
    refine ⟨fun s => ?_, Gen.grows_callDevice h addr result⟩
    cases result <;> exact hsp s
  | newLabel => exact ⟨hsp, .of_code rfl (Nat.le_succ _)⟩
  | emit i => exact ⟨hsp, (Gen.Grows.refl k _).emit ho⟩
  | forgetMemBase => exact ⟨hsp, .of_code rfl le_rfl⟩
  | nextOpcode => exact ⟨(hnext ctx hsp).1, (hnext ctx hsp).2.mono hk⟩
  | _ => exact of_emits (handle_emits next rfl hsp)

/-- **An opcode refers to its own labels**, and to those of the opcodes inlined in it. -/
theorem compiles_nextOpcode (fuel : ℕ) : Compiles (nextOpcode fuel) := by
  induction fuel with
  | zero => exact fun c hsp => ⟨hsp, .refl _ _⟩
  | succ fuel ih =>
    intro ctx hsp
    rw [nextOpcode]
    split
    · have h : Gen.Emits Gen.Loose ctx.toGen ctx.toGen.clearStackCaches :=
        ctx.toGen.spills_clearStackCaches.emits.loose
      exact ⟨fun s => spRegs_of_emits hsp h s, (Gen.Grows.emits h).emit (by simp [Instr.labelRef])⟩
    · have hbegin : Gen.Grows ctx.labels ctx.toGen ctx.beginOpcode.toGen := Gen.grows_beginOpcode _
      have hrun := Prog.run_under (A := Micro.NewFrom ctx.labels) (h := handle (nextOpcode fuel))
        (I := fun c => c.SpRegs ∧ Gen.Grows ctx.labels ctx.toGen c.toGen)
        (p := Emit.dispatch (decode ctx.beginOpcode.currentOpcode)) (s := ctx.beginOpcode)
        (fun o c hc => by cases o <;> first | trivial | exact hc.2.labels)
        (fun o c ho hc => by
          obtain ⟨hsp', hgrows⟩ := handle_grows ih hc.2.labels hc.1 ho
          exact ⟨hsp', hc.2.trans hgrows⟩)
        (under_dispatch ctx.labels _) ⟨Gen.spRegs_beginOpcode _ _, hbegin⟩
      exact hrun

/-! ## Absolute jumps -/

/-- The code of `buxn_jit_jump_abs`, whose labels are numbered from `n` on. -/
def jumpAbsCode (n : Label) (target : Operand Reg) (returnAddr : Short) : List Instr :=
  if target.semantics.const then
    if returnAddr = 0 then
      [.ret (.reg target.reg),
        if target.semantics.immJmp then .linkJump n
        else .linkCmp target.reg (target.constValue.setWidth 64) n]
    else
      [.label (n + 2), .ret (.reg target.reg)] ++
        (if target.semantics.immJmp then [] else [.label n]) ++
        [.ret (.reg .memBase), .cmpJump .equal .memBase (.imm (returnAddr.setWidth 64)) (n + 2),
          .call (n + 1)] ++
        if target.semantics.immJmp then []
        else [.cmpJump .notEqual target.reg (.imm (target.constValue.setWidth 64)) n]
  else [.ret (.reg target.reg)]

def jumpAbsLabels (target : Operand Reg) (returnAddr : Short) : ℕ :=
  if target.semantics.const then if returnAddr = 0 then 1 else 3 else 0

theorem run_jumpAbs_toGen (next : Ctx → Ctx) (ctx : Ctx) (target : Operand Reg)
    (returnAddr : Short) :
    (Prog.run (handle next) (Emit.jumpAbs target returnAddr) ctx).2.toGen =
      { ctx.toGen with
        code := jumpAbsCode ctx.labels target returnAddr ++ ctx.code
        labels := ctx.labels + jumpAbsLabels target returnAddr
        memBase := if target.semantics.const && returnAddr != 0 then none else ctx.memBase } := by
  unfold Emit.jumpAbs jumpAbsCode jumpAbsLabels
  cases target.semantics.const with
  | false => rfl
  | true =>
    by_cases hret : returnAddr = 0
    · cases target.semantics.immJmp <;> subst hret <;> rfl
    · have hne : (returnAddr != 0) = true := by simpa using hret
      simp only [if_true, if_neg hret, hne, Bool.true_and]
      cases target.semantics.immJmp <;> rfl
/-- What `jumpAbsCode` does: it leaves the block, or calls a block and goes on if the address that
this returns is the expected one. -/
def Mach.jumpAbs (E : Env) (n : Label) (target : Operand Reg) (returnAddr : Short) (σ : Mach) :
    Mach :=
  let back (τ : Mach) (r : Reg) : Mach := { τ with status := .left (.ret ((τ.regs r).setWidth 32)) }
  if target.semantics.const ∧
      (target.semantics.immJmp ∨ σ.regs target.reg = target.constValue.setWidth 64) then
    if returnAddr = 0 then { σ with status := .left (.link n) }
    else
      let τ := (Instr.call (n + 1)).exec E σ
      if τ.regs .memBase = returnAddr.setWidth 64 then τ else back τ .memBase
  else back σ target.reg

theorem exec_jumpAbsCode {E : Env} {σ : Mach} (hrun : σ.status = .running) (n : Label)
    (target : Operand Reg) (returnAddr : Short) :
    Mach.exec E (jumpAbsCode n target returnAddr) σ = σ.jumpAbs E n target returnAddr := by
  have hcall : ((Instr.call (n + 1)).exec E σ).status = .running := rfl
  unfold jumpAbsCode Mach.jumpAbs
  cases target.semantics.const with
  | false => simp [Mach.step, hrun, Instr.exec, Mach.src]
  | true =>
    simp only [if_true, true_and]
    by_cases hret : returnAddr = 0
    · simp only [if_pos hret]
      cases target.semantics.immJmp with
      | true => simp [Mach.step, hrun, Instr.exec]
      | false =>
        by_cases heq : σ.regs target.reg = target.constValue.setWidth 64 <;>
          simp [Mach.step, hrun, Instr.exec, heq, Mach.src]
    · simp only [if_neg hret]
      generalize hτ : (Instr.call (n + 1)).exec E σ = τ at hcall
      have hafter : Mach.exec E (([.label (n + 2), .ret (.reg target.reg)] ++
          (if target.semantics.immJmp then [] else [.label n])) ++
          [.ret (.reg .memBase), .cmpJump .equal .memBase (.imm (returnAddr.setWidth 64)) (n + 2)])
          τ = if τ.regs .memBase = returnAddr.setWidth 64 then τ
            else { τ with status := .left (.ret ((τ.regs .memBase).setWidth 32)) } := by
        cases τ with
        | mk regs mem flags status trace =>
          simp only at hcall
          subst hcall
          by_cases heq : regs .memBase = returnAddr.setWidth 64
          · cases target.semantics.immJmp <;>
              simp [Mach.step, Instr.exec, Cond.holds, Flags.compare, Mach.src, heq]
          · cases target.semantics.immJmp <;>
              simp [Mach.step, Instr.exec, Cond.holds, Flags.compare, Mach.src, heq]
      have hgo : ∀ code : List Instr, Mach.exec E code σ = σ →
          Mach.exec E ([.label (n + 2), .ret (.reg target.reg)] ++
            (if target.semantics.immJmp then [] else [.label n]) ++
            [.ret (.reg .memBase), .cmpJump .equal .memBase (.imm (returnAddr.setWidth 64)) (n + 2),
              .call (n + 1)] ++ code) σ = if τ.regs .memBase = returnAddr.setWidth 64 then τ
            else { τ with status := .left (.ret ((τ.regs .memBase).setWidth 32)) } := by
        intro code hcode
        rw [Mach.exec_append, hcode, ← hafter, ← hτ]
        simp only [Mach.exec_append, Mach.exec_cons, Mach.exec_nil, Mach.step_running hrun]
      cases himm : target.semantics.immJmp with
      | true =>
        rw [himm] at hgo
        exact hgo [] rfl
      | false =>
        rw [himm] at hgo
        by_cases heq : σ.regs target.reg = target.constValue.setWidth 64
        · have hcmp : Mach.exec E
              [.cmpJump .notEqual target.reg (.imm (target.constValue.setWidth 64)) n] σ = σ := by
            simp [Mach.step, hrun, Instr.exec, Cond.holds, Flags.compare, Mach.src, heq]
          simp only [heq, or_true, if_true]
          exact hgo _ hcmp
        · simp [Mach.step, hrun, Instr.exec, Cond.holds, Flags.compare, Mach.src, heq]

/-! ## Every micro operation of a block -/

/-- Every micro operation of the compilation of an opcode meets `P` in the state before it, those of
the opcodes inlined in it included. `P` is told how deep these may still be nested. -/
def AlongOpcode (P : ℕ → Micro → Ctx → Prop) : ℕ → Ctx → Prop
  | 0, _ => True
  | fuel + 1, ctx => ctx.pc < 256 ∨
    Prog.Along (handle (nextOpcode fuel))
      (fun o c => P fuel o c ∧ (o = .nextOpcode → AlongOpcode P fuel c))
      (Emit.dispatch (decode (ctx.jit.memory ctx.pc))) ctx.beginOpcode

/-- Every micro operation of the first `n` opcodes of a block meets `P`. -/
def AlongBlock (P : ℕ → Micro → Ctx → Prop) (fuel : ℕ) : ℕ → Ctx → Prop
  | 0, _ => True
  | n + 1, ctx => ctx.compiler = none ∨
    AlongOpcode P fuel ctx ∧ AlongBlock P fuel n (nextOpcode fuel ctx)

instance (o : Micro) : Decidable (o = .nextOpcode) :=
  match o with
  | .nextOpcode => .isTrue rfl
  | .ask | .popEx .. | .pushEx .. | .discard .. | .allocReg | .alu _ | .divide .. | .load ..
  | .store .. | .immediate _ | .clearStackCaches | .deviceStore .. | .callDevice ..
  | .immediateJumpTarget | .newLabel | .emit _ | .forgetMemBase | .linkEntry .. | .setCompiler _ =>
    .isFalse nofun

section

variable (P : ℕ → Micro → Ctx → Prop) [∀ fuel o c, Decidable (P fuel o c)]

instance AlongOpcode.decidable : (fuel : ℕ) → (ctx : Ctx) → Decidable (AlongOpcode P fuel ctx)
  | 0, _ => .isTrue trivial
  | fuel + 1, ctx =>
    have := AlongOpcode.decidable fuel
    inferInstanceAs (Decidable (ctx.pc < 256 ∨ Prog.Along _ _ _ _))

instance AlongBlock.decidable (fuel : ℕ) : (n : ℕ) → (ctx : Ctx) →
    Decidable (AlongBlock P fuel n ctx)
  | 0, _ => .isTrue trivial
  | n + 1, ctx =>
    have := AlongBlock.decidable fuel n (nextOpcode fuel ctx)
    inferInstanceAs (Decidable (ctx.compiler = none ∨ AlongOpcode P fuel ctx ∧ _))

end

end BuxnJit
