import BuxnJit.Jit.Control

/-!
# Links that a block asks for

The jumps and calls of a block to known targets are linked once all blocks have code. `requests`
are those that the compilation of an opcode makes, in their order: the block map and the queues
change by them only (`compileBlock_jit`), the code has one rewritable instruction for each
(`Accounts`), and they depend on the memory and the address only (`blockRequests_alike`).
-/

namespace BuxnJit

open Foundations

/-- A jump or call to a known target. -/
structure Request where
  type : LinkType
  jump : Label
  target : Short
  deriving DecidableEq

/-- What a micro operation requests, where `inner` are the requests of an inlined opcode. -/
def Micro.requested (inner : Ctx → List Request) : Micro → Ctx → List Request
  | .linkEntry t jump target, _ => [⟨t, jump, target⟩]
  | .nextOpcode, c => inner c
  | _, _ => []

/-- The requests of the compilation of an opcode. -/
def requests : ℕ → Ctx → List Request
  | 0, _ => []
  | fuel + 1, ctx =>
    if ctx.pc < 256 then []
    else Prog.gather (handle (nextOpcode fuel)) (Micro.requested (requests fuel))
      (Emit.dispatch (decode ctx.beginOpcode.currentOpcode)) ctx.beginOpcode

/-- The requests of the first `n` opcodes of a block. -/
def blockRequests (fuel : ℕ) : ℕ → Ctx → List Request
  | 0, _ => []
  | n + 1, ctx =>
    if ctx.compiler = none then []
    else requests fuel ctx ++ blockRequests fuel n (nextOpcode fuel ctx)

/-! ## They depend on the memory and the address -/

/-- The contexts differ in the block map and the queues only. -/
def Ctx.Alike (c c' : Ctx) : Prop := ∃ j : Jit, j.memory = c.jit.memory ∧ c' = { c with jit := j }

def Micro.Alike : (o : Micro) → o.Res → o.Res → Prop
  | .ask, c, c' => c.Alike c'
  | _, r, r' => r = r'

namespace Jit

variable (j : Jit)

theorem allocEntry_memory : j.allocEntry.2.memory = j.memory := by
  unfold allocEntry dequeue
  cases j.heads .pool <;> rfl

theorem queueBlock_memory (pc : Short) : (j.queueBlock pc).2.memory = j.memory := by
  unfold queueBlock
  simp only
  split
  · rfl
  · simp [enqueue, setEntry, setBlock, allocEntry_memory]

theorem linkEntry_memory (t : LinkType) (jump : JumpRef) (target : Short) :
    (j.linkEntry t jump target).memory = j.memory := by
  simp [linkEntry, enqueue, setEntry, queueBlock_memory, allocEntry_memory]

end Jit

namespace Ctx

variable (c : Ctx) (j : Jit) (s : Stk) (flag2 : Bool)

theorem popValue_jitAlike : popValue s { c with jit := j } =
    ((c.popValue s).1, { (c.popValue s).2 with jit := j }) := by
  unfold popValue ePtr
  cases c.shadow <;> rfl

theorem popEx_jitAlike : popEx flag2 s { c with jit := j } =
    ((c.popEx flag2 s).1, { (c.popEx flag2 s).2 with jit := j }) := by
  unfold popEx popSemantics
  cases flag2 with
  | false => simp [popValue_jitAlike, liftReg]
  | true =>
    simp only [popValue_jitAlike, if_true]
    split <;> rfl

theorem pushEx_jitAlike (o : Operand OpReg) : pushEx o s { c with jit := j } =
    { c.pushEx o s with jit := j } := by
  unfold pushEx
  simp only
  split <;> rfl

end Ctx

theorem handle_alike {next : Ctx → Ctx} (hnext : ∀ c c', c.Alike c' → (next c).Alike (next c'))
    (o : Micro) (c c' : Ctx) (h : c.Alike c') :
    o.Alike (handle next o c).1 (handle next o c').1 ∧
      (handle next o c).2.Alike (handle next o c').2 := by
  obtain ⟨j, hj, rfl⟩ := h
  cases o with
  | ask => exact ⟨⟨j, hj, rfl⟩, j, hj, rfl⟩
  | popEx flag2 s =>
    simp only [handle, Ctx.popEx_jitAlike]
    exact ⟨rfl, j, by rw [hj, Ctx.popEx_jit], rfl⟩
  | pushEx operand s =>
    simp only [handle, Ctx.pushEx_jitAlike]
    exact ⟨rfl, j, by rw [hj, Ctx.pushEx_jit], rfl⟩
  | immediate isShort =>
    simp only [handle, Ctx.immediate, Ctx.liftReg, Ctx.lift, hj]
    exact ⟨rfl, j, hj, rfl⟩
  | immediateJumpTarget =>
    simp only [handle, Ctx.immediateJumpTarget, hj]
    exact ⟨rfl, j, hj, rfl⟩
  | nextOpcode => exact ⟨rfl, hnext _ _ ⟨j, hj, rfl⟩⟩
  | linkEntry t jump target =>
    refine ⟨rfl, j.linkEntry t ⟨c.compiler.getD 0, jump⟩ target, ?_, rfl⟩
    change _ = (c.jit.linkEntry t ⟨c.compiler.getD 0, jump⟩ target).memory
    rw [Jit.linkEntry_memory, Jit.linkEntry_memory, hj]
  | _ => exact ⟨rfl, j, hj, rfl⟩

section Blind

open Emit Prog

variable {α : Type}

theorem blind_ask {f : Ctx → Op α} (hf : ∀ c j, f { c with jit := j } = f c)
    (h : ∀ c, Blind (F := micro) Micro.Alike (f c)) :
    Blind (F := micro) Micro.Alike (ask >>= f) := by
  refine ⟨?_, h⟩
  rintro c c' ⟨j, -, rfl⟩
  exact (hf c j).symm

theorem blind_perform {o : Micro} (h : ∀ r r', o.Alike r r' → r = r') :
    Blind (F := micro) Micro.Alike (perform (F := micro) o) :=
  ⟨fun r r' hr => by rw [h r r' hr], fun _ => trivial⟩

theorem blind_flag2 : Blind (F := micro) Micro.Alike flag2 :=
  blind_ask (fun _ _ => rfl) fun _ => trivial

theorem blind_cur : Blind (F := micro) Micro.Alike cur :=
  blind_ask (fun _ _ => rfl) fun _ => trivial

theorem blind_pop : Blind (F := micro) Micro.Alike pop :=
  blind_bind blind_flag2 fun _ => blind_bind blind_cur fun _ => blind_perform fun _ _ h => h

theorem blind_popByte : Blind (F := micro) Micro.Alike popByte :=
  blind_bind blind_cur fun _ => blind_perform fun _ _ h => h

theorem blind_push (operand : Operand OpReg) : Blind (F := micro) Micro.Alike (push operand) :=
  blind_bind blind_cur fun _ => blind_perform fun _ _ h => h

theorem blind_wrapAround (reg : OpReg) : Blind (F := micro) Micro.Alike (wrapAround reg) :=
  blind_bind blind_flag2 fun _ => blind_perform fun _ _ h => h

theorem blind_POP : Blind (F := micro) Micro.Alike POP := by
  refine blind_ask (fun _ _ => rfl) fun c => (blind_ite _ _ _).mpr ⟨fun _ => trivial, fun _ => ?_⟩
  exact blind_bind blind_flag2 fun _ => blind_bind blind_cur fun _ => blind_perform fun _ _ h => h

theorem blind_relative (addr : Operand OpReg) : Blind (F := micro) Micro.Alike (relative addr) :=
  blind_ask (fun _ _ => rfl) fun _ => blind_bind (blind_perform fun _ _ h => h) fun _ =>
    blind_bind (blind_perform fun _ _ h => h) fun _ => trivial

theorem blind_jumpAbs (target : Operand Reg) (returnAddr : Short) :
    Blind (F := micro) Micro.Alike (jumpAbs target returnAddr) := by
  simp [jumpAbs, Blind, Micro.Alike, blind_ite, newLabel, emit, perform, bind_eq, Prog.bind]

theorem blind_jump (target : Operand Reg) (returnAddr : Short) :
    Blind (F := micro) Micro.Alike (jump target returnAddr) := by
  refine blind_bind (blind_perform fun _ _ h => h) fun _ => ?_
  refine (blind_ite _ _ _).mpr ⟨fun _ => blind_jumpAbs target returnAddr, fun _ => ?_⟩
  refine (blind_ite _ _ _).mpr ⟨fun _ => ?_, fun _ => ?_⟩
  · refine blind_ask (fun _ _ => rfl) fun c => ?_
    simp [Blind, Micro.Alike, newLabel, emit, perform, clearStackCaches, bind_eq, Prog.bind]
  · refine blind_ask (fun _ _ => rfl) fun c => ?_
    refine blind_bind (blind_perform fun _ _ h => h) fun _ => ?_
    exact blind_bind (blind_perform fun _ _ h => h) fun _ => blind_jumpAbs _ returnAddr

theorem blind_conditionalJump (condition : Operand OpReg) (target : Operand Reg) :
    Blind (F := micro) Micro.Alike (conditionalJump condition target) := by
  refine blind_bind (blind_perform fun _ _ h => h) fun _ => ?_
  refine blind_bind (blind_perform fun _ _ h => h) fun _ => ?_
  refine blind_bind (blind_perform fun _ _ h => h) fun _ => ?_
  refine blind_bind (blind_perform fun _ _ h => h) fun _ => ?_
  exact blind_bind (blind_jump target 0) fun _ => blind_perform fun _ _ h => h

theorem blind_callTo (target : Operand Reg) (s : Stk) :
    Blind (F := micro) Micro.Alike (callTo target s) := by
  refine blind_bind (blind_perform fun _ _ h => h) fun _ => blind_ask (fun _ _ => rfl) fun _ => ?_
  refine blind_bind (blind_perform fun _ _ h => h) fun _ => ?_
  refine blind_bind (blind_perform fun _ _ h => h) fun _ => ?_
  exact blind_ask (fun _ _ => rfl) fun _ => blind_jump target _

theorem blind_loadPush (addr : Operand OpReg) : Blind (F := micro) Micro.Alike (loadPush addr) := by
  refine blind_bind (blind_perform fun _ _ h => h) fun _ => ?_
  refine blind_bind (blind_perform fun _ _ h => h) fun _ => ?_
  exact blind_bind blind_flag2 fun _ => blind_push _

/-- Opcodes do not look at the block map and the queues. -/
theorem blind_dispatch (mn : Mnemonic) : Blind (F := micro) Micro.Alike (dispatch mn) := by
  cases mn
  all_goals
    simp only [dispatch, BRK, LIT, INC, NIP, SWP, ROT, DUP, OVR, EQU, NEQ, GTH, LTH, JMP, JCN, JSR,
      STH, LDZ, STZ, LDR, STR, LDA, STA, DEI, DEO, ADD, SUB, MUL, DIV, AND, ORA, EOR, SFT, JCI, JMI,
      JSI, arith, compareOp]
    repeat' with_reducible first
      | exact blind_pop
      | exact blind_popByte
      | exact blind_push _
      | exact blind_flag2
      | exact blind_cur
      | exact blind_wrapAround _
      | exact blind_POP
      | exact blind_relative _
      | exact blind_jump _ _
      | exact blind_conditionalJump _ _
      | exact blind_callTo _ _
      | exact blind_loadPush _
      | apply blind_bind
      | intro _
      | split
  all_goals first
    | trivial
    | exact blind_perform fun _ _ h => h

end Blind

namespace Ctx

variable {c c' : Ctx}

theorem Alike.pc (h : c.Alike c') : c'.pc = c.pc := by
  obtain ⟨j, -, rfl⟩ := h
  rfl

theorem Alike.compiler (h : c.Alike c') : c'.compiler = c.compiler := by
  obtain ⟨j, -, rfl⟩ := h
  rfl

theorem Alike.beginOpcode (h : c.Alike c') : c.beginOpcode.Alike c'.beginOpcode := by
  obtain ⟨j, hj, rfl⟩ := h
  refine ⟨j, hj, ?_⟩
  simp only [Ctx.beginOpcode, Ctx.lift, hj]

end Ctx

theorem nextOpcode_alike (fuel : ℕ) (c c' : Ctx) (h : c.Alike c') :
    (nextOpcode fuel c).Alike (nextOpcode fuel c') := by
  induction fuel generalizing c c' with
  | zero => exact h
  | succ fuel ih =>
    rw [nextOpcode, nextOpcode, h.pc]
    split
    · obtain ⟨j, hj, rfl⟩ := h
      exact ⟨j, hj, rfl⟩
    · have hbegin := h.beginOpcode
      have hop : c'.beginOpcode.currentOpcode = c.beginOpcode.currentOpcode := by
        obtain ⟨j, -, he⟩ := hbegin
        rw [he]
      simp only [hop]
      exact (Prog.run_blind (handle_alike ih) (blind_dispatch _) hbegin).2

theorem requests_alike (fuel : ℕ) (c c' : Ctx) (h : c.Alike c') :
    requests fuel c = requests fuel c' := by
  induction fuel generalizing c c' with
  | zero => rfl
  | succ fuel ih =>
    rw [requests, requests, h.pc]
    split
    · rfl
    · have hbegin := h.beginOpcode
      have hop : c'.beginOpcode.currentOpcode = c.beginOpcode.currentOpcode := by
        obtain ⟨j, -, he⟩ := hbegin
        rw [he]
      rw [hop]
      refine Prog.gather_blind (handle_alike (nextOpcode_alike fuel)) (fun o c c' hc => ?_)
        (blind_dispatch _) hbegin
      cases o <;> first
        | rfl
        | exact ih c c' hc

/-- **The requests of a block depend on the memory and the address only.** -/
theorem blockRequests_alike (fuel n : ℕ) (c c' : Ctx) (h : c.Alike c') :
    blockRequests fuel n c = blockRequests fuel n c' := by
  induction n generalizing c c' with
  | zero => rfl
  | succ n ih =>
    rw [blockRequests, blockRequests, h.compiler, requests_alike fuel c c' h,
      ih _ _ (nextOpcode_alike fuel c c' h)]

/-- So does the rest of the compilation. -/
theorem compileBlock_alike (fuel n : ℕ) (c c' : Ctx) (h : c.Alike c') :
    (c.compileBlock fuel n).Alike (c'.compileBlock fuel n) := by
  induction n generalizing c c' with
  | zero => exact h
  | succ n ih =>
    rw [Ctx.compileBlock, Ctx.compileBlock, h.compiler]
    split
    · exact h
    · apply ih
      exact nextOpcode_alike fuel c c' h

/-! ## They are what changes the block map and the queues -/

/-- The requests of a compiler, one after the other. -/
def Jit.linkAll (c : CompilerId) (rs : List Request) (j : Jit) : Jit :=
  rs.foldl (fun j r => j.linkEntry r.type ⟨c, r.jump⟩ r.target) j

/-- The compiler is at work. -/
structure Ctx.AtWork (compiler : CompilerId) (c : Ctx) : Prop where
  compiler_eq : c.compiler = some compiler
  spRegs : c.SpRegs

/-- The compiler is at work, or done. -/
structure Ctx.AtRest (compiler : CompilerId) (c : Ctx) : Prop where
  compiler_eq : c.compiler = some compiler ∨ c.compiler = none
  spRegs : c.SpRegs

/-- Opcodes are inlined, and requests made, by the compiler of the block. -/
structure Micro.Owned (compiler : CompilerId) (o : Micro) (c : Ctx) : Prop where
  inlined : o = .nextOpcode → c.AtWork compiler
  requested : ∀ t jump target, o = .linkEntry t jump target → c.compiler = some compiler

/-- The operations that leave the compiler alone and request nothing. -/
def Micro.requestless : Micro → Bool
  | .setCompiler _ | .nextOpcode | .linkEntry .. => false
  | _ => true

theorem Micro.owned_of_requestless {compiler : CompilerId} {o : Micro} (h : o.requestless)
    (c : Ctx) : o.Owned compiler c := by
  constructor
  · rintro rfl
    simp [requestless] at h
  · rintro t jump target rfl
    simp [requestless] at h

theorem handle_compiler {next : Ctx → Ctx} {o : Micro} (h : o.requestless) (c : Ctx) :
    (handle next o c).2.compiler = c.compiler := by
  cases o <;> first
    | simp [Micro.requestless] at h; done
    | simp [handle, Ctx.lift, Ctx.liftReg, Ctx.discard, Ctx.immediate, Ctx.immediateJumpTarget,
        Ctx.newLabel]

theorem handle_jit {next : Ctx → Ctx} {o : Micro} (h : o.requestless) (c : Ctx) :
    (handle next o c).2.jit = c.jit := by
  cases o <;> first
    | simp [Micro.requestless] at h; done
    | simp [handle, Ctx.lift, Ctx.liftReg, Ctx.discard, Ctx.immediate, Ctx.immediateJumpTarget,
        Ctx.newLabel]

/-! ## Rewritable instructions -/

/-- The rewritable jump that an instruction is, and whether it leads to a body or a head. -/
def Instr.site : Instr → Option (LinkType × Label)
  | .linkJump j | .linkCmp _ _ j => some (.toBody, j)
  | .call j => some (.toHead, j)
  | _ => none

theorem Instr.Local.site {i : Instr} (hi : i.Local) : i.site = none := by
  cases i <;> first | rfl | simpa [Instr.site] using hi.control

def Request.site (r : Request) : LinkType × Label := (r.type, r.jump)

/-- Between `c` and `c'` the code has got one rewritable instruction for each of the requests `rs`,
with labels of their own. -/
structure Links (rs : List Request) (c c' : Gen) : Prop where
  labels : c.labels ≤ c'.labels
  code : c'.code.filterMap Instr.site = (rs.map Request.site).reverse ++ c.code.filterMap Instr.site
  fresh : ∀ r ∈ rs, c.labels ≤ r.jump ∧ r.jump < c'.labels
  sorted : rs.Pairwise (·.jump < ·.jump)

namespace Links

variable {g g' g'' : Gen} {rs rs' : List Request}

theorem of_code (hlabels : g.labels ≤ g'.labels)
    (hcode : g'.code.filterMap Instr.site = g.code.filterMap Instr.site) : Links [] g g' :=
  ⟨hlabels, by simpa using hcode, by simp, .nil⟩

theorem refl (g : Gen) : Links [] g g := of_code le_rfl rfl

theorem trans (h : Links rs g g') (h' : Links rs' g' g'') : Links (rs ++ rs') g g'' := by
  refine ⟨h.labels.trans h'.labels, ?_, ?_, ?_⟩
  · rw [h'.code, h.code, List.map_append, List.reverse_append, List.append_assoc]
  · intro r hr
    rcases List.mem_append.mp hr with hr | hr
    · exact ⟨(h.fresh r hr).1, (h.fresh r hr).2.trans_le h'.labels⟩
    · exact ⟨h.labels.trans (h'.fresh r hr).1, (h'.fresh r hr).2⟩
  · rw [List.pairwise_append]
    refine ⟨h.sorted, h'.sorted, fun r hr r' hr' => ?_⟩
    exact (h.fresh r hr).2.trans_le (h'.fresh r' hr').1

theorem emit (h : Links [] g g') {i : Instr} (hi : i.site = none) : Links [] g (g'.emit i) := by
  refine h.trans (of_code le_rfl ?_)
  rw [Gen.emit_code, List.filterMap_cons_none hi]

theorem emits (h : Gen.Emits Gen.Loose g g') : Links [] g g' := by
  refine h.preserves (I := Links [] g) ?_ (refl g)
  intro a b hab ha
  cases hab with
  | emit hi => exact ha.emit hi.site
  | setMemBase r =>
    unfold Gen.setMemBase
    split
    · exact ha
    · exact (ha.emit (i := .op2 .add .memBase .vm (.off r)) rfl).trans (of_code le_rfl rfl)
  | books hs => exact ha.trans (of_code hs.labels.ge (by rw [hs.code]))

end Links

/-- The operations that link nothing. -/
def Micro.linkless : Micro → Bool
  | .emit i => i.site.isNone
  | o => o.requestless

theorem Micro.requestless_of_linkless {o : Micro} (h : o.linkless) : o.requestless := by
  cases o <;> first
    | rfl
    | exact h

theorem handle_links (next : Ctx → Ctx) {o : Micro} {ctx : Ctx} (ho : o.linkless)
    (hsp : ctx.SpRegs) :
    (handle next o ctx).2.SpRegs ∧ Links [] ctx.toGen (handle next o ctx).2.toGen := by
  have of_emits : ∀ {ctx' : Ctx}, Gen.Emits Gen.Loose ctx.toGen ctx'.toGen →
      ctx'.SpRegs ∧ Links [] ctx.toGen ctx'.toGen :=
    fun h => ⟨spRegs_of_emits hsp h, .emits h⟩
  cases o with
  | divide c a b =>
    refine ⟨fun s => ?_, .of_code (by simp [handle, Ctx.lift, Gen.divide]) ?_⟩
    · rw [handle, Ctx.lift, Gen.divide_spReg]
      exact hsp s
    · rw [handle, Ctx.lift, Gen.divide_code, List.filterMap_append]
      rfl
  | callDevice h addr result => cases result <;> exact ⟨hsp, .of_code le_rfl rfl⟩
  | newLabel => exact ⟨hsp, .of_code (Nat.le_succ _) rfl⟩
  | emit i => exact ⟨hsp, (Links.refl _).emit (Option.isNone_iff_eq_none.mp ho)⟩
  | forgetMemBase => exact ⟨hsp, .of_code le_rfl rfl⟩
  | nextOpcode | linkEntry | setCompiler => simp [Micro.linkless, Micro.requestless] at ho
  | _ => exact of_emits (handle_emits next rfl hsp)

/-- A program that makes its requests in the name of `compiler`, one for each rewritable instruction
that it emits. -/
structure Settles (next : Ctx → Ctx) (inner : Ctx → List Request) (compiler : CompilerId)
    (J : Ctx → Prop) {α : Type} (p : Emit.Op α) (c : Ctx) : Prop where
  owned : Prog.Along (handle next) (Micro.Owned compiler) p c
  links : Links (Prog.gather (handle next) (Micro.requested inner) p c) c.toGen
    (Prog.run (handle next) p c).2.toGen
  after : J (Prog.run (handle next) p c).2

section Settles

open Emit Prog

variable {next : Ctx → Ctx} {inner : Ctx → List Request} {k : CompilerId} {α β : Type}
  {J J' : Ctx → Prop} {c : Ctx}

theorem settles_bind {p : Op α} {f : α → Op β} (hp : Settles next inner k J p c)
    (hf : J (run (handle next) p c).2 →
      Settles next inner k J' (f (run (handle next) p c).1) (run (handle next) p c).2) :
    Settles next inner k J' (p >>= f) c := by
  have h := hf hp.after
  refine ⟨(along_bind _ _ _).mpr ⟨hp.owned, h.owned⟩, ?_, ?_⟩
  · rw [gather_bind, run_bind]
    exact hp.links.trans h.links
  · rw [run_bind]
    exact h.after

theorem settles_mono {p : Op α} (hJ : ∀ c, J c → J' c) (hp : Settles next inner k J p c) :
    Settles next inner k J' p c :=
  ⟨hp.owned, hp.links, hJ _ hp.after⟩

theorem settles_of_only {p : Op α} (hp : Only (F := micro) (fun o => o.linkless) p)
    (hc : c.AtWork k) : Settles next inner k (Ctx.AtWork k) p c := by
  induction p generalizing c with
  | pure a => exact ⟨trivial, .refl _, hc⟩
  | op o f ih =>
    have ho := Micro.requestless_of_linkless hp.1
    obtain ⟨hsp, hlinks⟩ := handle_links next hp.1 hc.spRegs
    have hrest := ih (handle next o c).1 (hp.2 _) ⟨(handle_compiler ho c).trans hc.compiler_eq, hsp⟩
    have hnone : Micro.requested inner o c = [] := by
      cases o <;> first | rfl | simp [Micro.requestless] at ho
    refine ⟨⟨Micro.owned_of_requestless ho c, hrest.owned⟩, ?_, hrest.after⟩
    rw [gather, hnone]
    exact hlinks.trans hrest.links

theorem settles_one {o : Micro} (ho : o.linkless) (hc : c.AtWork k) :
    Settles next inner k (Ctx.AtWork k) (perform (F := micro) o) c :=
  settles_of_only ⟨ho, fun _ => trivial⟩ hc

theorem gather_jumpAbs (target : Operand Reg) (returnAddr : Short) :
    gather (handle next) (Micro.requested inner) (jumpAbs target returnAddr) c =
      if target.semantics.const then
        if returnAddr = 0 then [⟨.toBody, c.labels, target.constValue⟩]
        else [⟨.toHead, c.labels + 1, target.constValue⟩]
      else [] := by
  unfold jumpAbs
  cases target.semantics.const with
  | false => rfl
  | true =>
    by_cases hret : returnAddr = 0
    · cases target.semantics.immJmp <;> subst hret <;> rfl
    · simp only [if_true, if_neg hret]
      cases target.semantics.immJmp <;> rfl

theorem only_jumpAbs_keeps (target : Operand Reg) (returnAddr : Short) :
    Only (F := micro) (fun o => o.requestless ∨ ∃ t j a, o = .linkEntry t j a)
      (jumpAbs target returnAddr) := by
  simp [jumpAbs, Only, Micro.requestless, only_ite, newLabel, emit, perform, bind_eq, Prog.bind]

theorem links_jumpAbs (target : Operand Reg) (returnAddr : Short) :
    Links (gather (handle next) (Micro.requested inner) (jumpAbs target returnAddr) c) c.toGen
      (run (handle next) (jumpAbs target returnAddr) c).2.toGen := by
  rw [run_jumpAbs_toGen, gather_jumpAbs]
  unfold jumpAbsCode jumpAbsLabels
  cases target.semantics.const with
  | false => exact .of_code le_rfl rfl
  | true =>
    by_cases hret : returnAddr = 0
    · subst hret
      refine ⟨Nat.le_succ _, ?_, by simp, by simp⟩
      cases target.semantics.immJmp <;> rfl
    · simp only [if_true, if_neg hret]
      refine ⟨Nat.le_add_right _ _, ?_, by simp, by simp⟩
      cases target.semantics.immJmp <;> rfl

theorem settles_jumpAbs (target : Operand Reg) (returnAddr : Short) (hc : c.AtWork k) :
    Settles next inner k (Ctx.AtWork k) (jumpAbs target returnAddr) c := by
  have hthrough : Throughout (handle next) (Micro.Owned k) (fun c => c.compiler = some k)
      (jumpAbs target returnAddr) c := by
    apply throughout_of_only _ _ (only_jumpAbs_keeps target returnAddr)
    · exact hc.compiler_eq
    · rintro o c (ho | ⟨t, j, a, rfl⟩) hc
      · exact Micro.owned_of_requestless ho c
      · exact ⟨by rintro ⟨⟩, fun _ _ _ _ => hc⟩
    · rintro o c (ho | ⟨t, j, a, rfl⟩) hc
      · exact (handle_compiler ho c).trans hc
      · exact hc
  refine ⟨hthrough.1, links_jumpAbs target returnAddr, hthrough.2, fun s => ?_⟩
  rw [run_jumpAbs_toGen]
  exact hc.spRegs s

section Inlining

variable (hnext : ∀ c : Ctx, c.AtWork k → (next c).AtRest k ∧ Links (inner c) c.toGen (next c).toGen)

include hnext

theorem settles_nextOpcode (hc : c.AtWork k) :
    Settles next inner k (Ctx.AtRest k) (perform (F := micro) .nextOpcode) c := by
  refine ⟨⟨⟨fun _ => hc, nofun⟩, trivial⟩, ?_, (hnext c hc).1⟩
  change Links (inner c ++ []) c.toGen (next c).toGen
  rw [List.append_nil]
  exact (hnext c hc).2

omit hnext in
theorem settles_setCompiler (hc : c.AtRest k) : Settles next inner k (Ctx.AtWork k)
    (perform (F := micro) (.setCompiler (some k))) c :=
  ⟨⟨⟨nofun, nofun⟩, trivial⟩, .refl _, rfl, hc.spRegs⟩

theorem settles_jumpBoolean (target : Operand Reg) (hc : c.AtWork k) :
    Settles next inner k (Ctx.AtWork k) (jumpBoolean target) c := by
  have hcompiler : (run (handle next) ask c).1.compiler = some k := hc.compiler_eq
  refine settles_bind (settles_one rfl hc) fun hc => ?_
  rw [hcompiler]
  refine settles_bind (settles_one rfl hc) fun hc => ?_
  refine settles_bind (settles_one rfl hc) fun hc => ?_
  refine settles_bind (settles_nextOpcode hnext hc) fun hc => ?_
  refine settles_bind (settles_setCompiler hc) fun hc => ?_
  refine settles_bind (settles_one rfl hc) fun hc => ?_
  exact settles_one rfl hc

theorem settles_jump (target : Operand Reg) (returnAddr : Short) (hc : c.AtWork k) :
    Settles next inner k (Ctx.AtWork k) (jump target returnAddr) c := by
  refine settles_bind (settles_one rfl hc) fun hc => ?_
  split
  · exact settles_jumpAbs target returnAddr hc
  split
  · exact settles_jumpBoolean hnext target hc
  · refine settles_bind (settles_one rfl hc) fun hc => ?_
    refine settles_bind (settles_one rfl hc) fun hc => ?_
    exact settles_bind (settles_one rfl hc) fun hc => settles_jumpAbs _ returnAddr hc

theorem settles_conditionalJump (condition : Operand OpReg) (target : Operand Reg)
    (hc : c.AtWork k) :
    Settles next inner k (Ctx.AtWork k) (conditionalJump condition target) c := by
  refine settles_bind (settles_one rfl hc) fun hc => ?_
  refine settles_bind (settles_one rfl hc) fun hc => ?_
  refine settles_bind (settles_one rfl hc) fun hc => ?_
  refine settles_bind (settles_one rfl hc) fun hc => ?_
  exact settles_bind (settles_jump hnext target 0 hc) fun hc => settles_one rfl hc

theorem settles_callTo (target : Operand Reg) (s : Stk) (hc : c.AtWork k) :
    Settles next inner k (Ctx.AtWork k) (callTo target s) c := by
  refine settles_bind (settles_one rfl hc) fun hc => ?_
  refine settles_bind (settles_one rfl hc) fun hc => ?_
  refine settles_bind (settles_one rfl hc) fun hc => ?_
  refine settles_bind (settles_one rfl hc) fun hc => ?_
  exact settles_bind (settles_one rfl hc) fun hc => settles_jump hnext target _ hc

omit hnext in
theorem settles_finalize (hc : c.AtWork k) : Settles next inner k (Ctx.AtRest k) finalize c :=
  ⟨⟨⟨nofun, nofun⟩, trivial⟩, .refl _, .inr rfl, hc.spRegs⟩

omit hnext in
theorem only_linkless {mn : Mnemonic} (h : mn ≠ .BRK ∧ mn ≠ .JMI ∧ mn ≠ .JCI ∧ mn ≠ .JSI)
    (h' : mn ≠ .JMP ∧ mn ≠ .JCN ∧ mn ≠ .JSR) :
    Only (F := micro) (fun o => o.linkless) (dispatch mn) := by
  by_cases hst : mn.straight
  · refine (only_straight hst).mono fun o ho => ?_
    cases o <;> first | rfl | simp [Micro.straight] at ho
  · cases mn <;> first
      | exact absurd rfl hst
      | simp at h; done
      | simp at h'; done
      | simp [Only, Micro.linkless, Micro.requestless, dispatch, DEI, DEO, popByte, pop, popEx, push,
          pushEx, allocReg, clearStackCaches, flag2, cur, ask, perform, bind_eq, pure_eq, Prog.bind]

/-- **An opcode settles its links.** -/
theorem settles_dispatch (mn : Mnemonic) (hc : c.AtWork k) :
    Settles next inner k (Ctx.AtRest k) (dispatch mn) c := by
  have hrest : ∀ c : Ctx, c.AtWork k → c.AtRest k := fun c h => ⟨.inl h.compiler_eq, h.spRegs⟩
  have hpop : ∀ {c : Ctx}, c.AtWork k → Settles next inner k (Ctx.AtWork k) pop c :=
    fun hc => settles_of_only (by simp [Only, Micro.linkless, Micro.requestless, pop, popEx, flag2,
      cur, ask, perform, bind_eq, pure_eq, Prog.bind]) hc
  by_cases h : mn ≠ .BRK ∧ mn ≠ .JMI ∧ mn ≠ .JCI ∧ mn ≠ .JSI
  · by_cases h' : mn ≠ .JMP ∧ mn ≠ .JCN ∧ mn ≠ .JSR
    · exact settles_mono hrest (settles_of_only (only_linkless h h') hc)
    · have hmn : mn = .JMP ∨ mn = .JCN ∨ mn = .JSR := by grind
      rcases hmn with rfl | rfl | rfl
      · refine settles_bind (hpop hc) fun hc => ?_
        refine settles_bind (settles_jump hnext _ 0 hc) fun hc => ?_
        split
        · exact settles_finalize hc
        · exact settles_mono hrest ⟨trivial, .refl _, hc⟩
      · refine settles_mono hrest (settles_bind (hpop hc) fun hc => ?_)
        refine settles_bind (settles_of_only ?_ hc) fun hc => settles_conditionalJump hnext _ _ hc
        simp [Only, Micro.linkless, Micro.requestless, popByte, popEx, cur, ask, perform, bind_eq,
          pure_eq, Prog.bind]
      · refine settles_mono hrest (settles_bind (hpop hc) fun hc => ?_)
        refine settles_bind (settles_of_only ?_ hc) fun hc => settles_callTo hnext _ _ hc
        simp [Only, Micro.linkless, Micro.requestless, cur, ask, perform, bind_eq, pure_eq, Prog.bind]
  · have hmn : mn = .BRK ∨ mn = .JMI ∨ mn = .JCI ∨ mn = .JSI := by grind
    rcases hmn with rfl | rfl | rfl | rfl
    · refine settles_bind (settles_one rfl hc) fun hc => ?_
      exact settles_bind (settles_one rfl hc) fun hc => settles_finalize hc
    · refine settles_bind (settles_one rfl hc) fun hc => ?_
      exact settles_bind (settles_jump hnext _ 0 hc) fun hc => settles_finalize hc
    · refine settles_mono hrest (settles_bind (settles_one rfl hc) fun hc => ?_)
      exact settles_bind (settles_one rfl hc) fun hc => settles_conditionalJump hnext _ _ hc
    · refine settles_mono hrest (settles_bind (settles_one rfl hc) fun hc => ?_)
      exact settles_callTo hnext _ _ hc

end Inlining

end Settles

theorem links_beginOpcode (ctx : Ctx) : Links [] ctx.toGen ctx.beginOpcode.toGen :=
  ctx.toGen.beginOpcode_preserves (I := Links [] ctx.toGen) _
    (fun _ _ hch ha => ha.trans (Links.emits (Gen.Emits.loose (.single hch))))
    (fun _ _ _ ha => ha.trans (Links.of_code le_rfl rfl)) (Links.refl _)

/-- **An opcode makes its requests in the name of its compiler**, one for each rewritable
instruction. -/
theorem nextOpcode_links (k : CompilerId) (fuel : ℕ) (c : Ctx) (hc : c.AtWork k) :
    (nextOpcode fuel c).AtRest k ∧ Links (requests fuel c) c.toGen (nextOpcode fuel c).toGen ∧
      (nextOpcode fuel c).jit = c.jit.linkAll k (requests fuel c) := by
  induction fuel generalizing c with
  | zero => exact ⟨⟨.inl hc.compiler_eq, hc.spRegs⟩, .refl _, rfl⟩
  | succ fuel ih =>
    rw [nextOpcode, requests]
    split
    · have h : Gen.Emits Gen.Loose c.toGen c.toGen.clearStackCaches :=
        c.toGen.spills_clearStackCaches.emits.loose
      have hsp : c.clearStackCaches.SpRegs := spRegs_of_emits hc.spRegs h
      exact ⟨⟨.inr rfl, hsp⟩, (Links.emits h).emit rfl, rfl⟩
    · have hbegin : c.beginOpcode.AtWork k := ⟨hc.compiler_eq, Gen.spRegs_beginOpcode _ _⟩
      have hrun := settles_dispatch (fun c hc => ⟨(ih c hc).1, (ih c hc).2.1⟩)
        (decode c.beginOpcode.currentOpcode) hbegin
      refine ⟨hrun.after, (links_beginOpcode c).trans hrun.links, ?_⟩
      refine Prog.run_gather (X := Ctx.jit) (fun o c' ho => ?_) hrun.owned
      cases o with
      | nextOpcode => exact (ih c' (ho.inlined rfl)).2.2
      | linkEntry t jump target =>
        change c'.jit.linkEntry t ⟨c'.compiler.getD 0, jump⟩ target = _
        rw [ho.requested t jump target rfl]
        rfl
      | setCompiler => rfl
      | _ => exact handle_jit rfl c'

/-- **A block makes its requests in the name of its compiler.** -/
theorem compileBlock_links (k : CompilerId) (fuel n : ℕ) (c : Ctx) (hc : c.AtRest k) :
    Links (blockRequests fuel n c) c.toGen (c.compileBlock fuel n).toGen ∧
      (c.compileBlock fuel n).jit = c.jit.linkAll k (blockRequests fuel n c) := by
  induction n generalizing c with
  | zero => exact ⟨.refl _, rfl⟩
  | succ n ih =>
    rw [Ctx.compileBlock, blockRequests]
    split
    · exact ⟨.refl _, rfl⟩
    next hdone =>
      obtain ⟨hrest, hlinks, hjit⟩ :=
        nextOpcode_links k fuel c ⟨hc.compiler_eq.resolve_right hdone, hc.spRegs⟩
      obtain ⟨hlinks', hjit'⟩ := ih _ hrest
      refine ⟨hlinks.trans hlinks', ?_⟩
      rw [hjit', hjit, Jit.linkAll, Jit.linkAll, Jit.linkAll, List.foldl_append]

end BuxnJit
