import BuxnJit.Jit.Control
import BuxnJit.Jit.Linking

/-!
# Termination

Compiling an opcode moves the address on, until it wraps around to the zero page, which ends the
block. `remaining` is the measure; it bounds the depth of the inlining and the number of opcodes of
a block (`compileBlock_returns`). A call compiles a block at most once for every address, so that
its loops end as well. `Returns` is a call without fuel, and `Reachable.returns` says that it exists
in every state that such calls reach.
-/

namespace BuxnJit

open Foundations

/-- How many bytes there are up to the end of memory, where the zero page is not compiled. -/
def remaining (pc : Short) : ℕ := if pc < 256 then 0 else 65536 - pc.toNat

theorem remaining_le (pc : Short) : remaining pc ≤ 65280 := by
  unfold remaining
  split
  · omega
  next h =>
    have : 256 ≤ pc.toNat := BitVec.le_def.mp (BitVec.not_lt.mp h)
    omega

/-- The addresses within an opcode, also where they wrap around. -/
theorem remaining_add {pc : Short} (hpc : 256 ≤ pc) {d : Short} (hd : 0 < d) (hd' : d ≤ 3) :
    remaining (pc + d) < remaining pc := by
  have h₁ : 256 ≤ pc.toNat := BitVec.le_def.mp hpc
  have h₂ : 0 < d.toNat := BitVec.lt_def.mp hd
  have h₃ : d.toNat ≤ 3 := BitVec.le_def.mp hd'
  have h₄ := pc.isLt
  have hlt : ∀ x : Short, x < 256 ↔ x.toNat < 256 := fun x => BitVec.lt_def
  simp only [remaining, hlt, BitVec.toNat_add]
  split <;> split <;> omega

/-! ## The address within an opcode -/

/-- The operations that leave the address alone. -/
def Micro.keepsPc : Micro → Bool
  | .immediate _ | .immediateJumpTarget | .nextOpcode => false
  | _ => true

theorem handle_keepsPc {next : Ctx → Ctx} {o : Micro} (ho : o.keepsPc) (ctx : Ctx) :
    (handle next o ctx).2.pc = ctx.pc := by
  cases o <;> first
    | simp [Micro.keepsPc] at ho; done
    | simp [handle, Ctx.lift, Ctx.liftReg, Ctx.discard, Ctx.newLabel, Ctx.linkEntry]

section Shape

open Emit Prog

attribute [local simp] dispatch BRK INC POP NIP SWP ROT DUP OVR EQU NEQ GTH LTH STH LDZ STZ LDR STR
  LDA STA DEI DEO ADD SUB MUL DIV AND ORA EOR SFT arith compareOp loadPush relative pop popByte
  push popEx pushEx allocReg alu wrapAround flag2 cur ask perform clearStackCaches finalize emit
  newLabel Prog.bind bind_eq pure_eq ite_bind

theorem only_jumpAbs_keepsPc (target : Operand Reg) (returnAddr : Short) :
    Only (F := micro) (fun o => o.keepsPc) (jumpAbs target returnAddr) := by
  simp [jumpAbs, Only, Micro.keepsPc, only_ite]

theorem only_jump_keepsPc {target : Operand Reg} (h : target.isShort = true) (returnAddr : Short) :
    Only (F := micro) (fun o => o.keepsPc) (jump target returnAddr) := by
  refine only_bind (by simp [Only, Micro.keepsPc]) fun _ => ?_
  rw [if_pos h]
  exact only_jumpAbs_keepsPc target returnAddr

/-- The operations of a jump that may inline an opcode. -/
theorem only_jump (target : Operand Reg) (returnAddr : Short) :
    Only (F := micro) (fun o => o.keepsPc ∨ o = .nextOpcode) (jump target returnAddr) := by
  have habs : ∀ t, Only (F := micro) (fun o => o.keepsPc ∨ o = .nextOpcode) (jumpAbs t returnAddr) :=
    fun t => (only_jumpAbs_keepsPc t returnAddr).mono fun o ho => .inl ho
  refine only_bind (by simp [Only, Micro.keepsPc]) fun _ => ?_
  refine (only_ite _ _ _).mpr ⟨fun _ => habs target, fun _ => ?_⟩
  refine (only_ite _ _ _).mpr ⟨fun _ => ?_, fun _ => ?_⟩
  · simp [jumpBoolean, Only, Micro.keepsPc]
  · refine only_bind (by simp [Only, Micro.keepsPc]) fun _ => ?_
    refine only_bind (by simp [Only, Micro.keepsPc]) fun _ => ?_
    exact only_bind (by simp [Only, Micro.keepsPc]) fun _ => habs _

theorem only_conditionalJump {Q : Micro → Prop} (hQ : ∀ o : Micro, o.keepsPc → Q o)
    (condition : Operand OpReg) {target : Operand Reg} (h : Only (F := micro) Q (jump target 0)) :
    Only (F := micro) Q (conditionalJump condition target) := by
  have hone : ∀ o : Micro, o.keepsPc → Only (F := micro) Q (Prog.perform (F := micro) o) :=
    fun o ho => ⟨hQ o ho, fun _ => trivial⟩
  refine only_bind (hone _ rfl) fun _ => only_bind (hone _ rfl) fun _ => ?_
  refine only_bind (hone _ rfl) fun _ => only_bind (hone _ rfl) fun _ => ?_
  exact only_bind h fun _ => hone _ rfl

theorem only_callTo {Q : Micro → Prop} (hQ : ∀ o : Micro, o.keepsPc → Q o)
    {target : Operand Reg} (s : Stk) (h : ∀ ret, Only (F := micro) Q (jump target ret)) :
    Only (F := micro) Q (callTo target s) := by
  have hone : ∀ o : Micro, o.keepsPc → Only (F := micro) Q (Prog.perform (F := micro) o) :=
    fun o ho => ⟨hQ o ho, fun _ => trivial⟩
  refine only_bind (hone _ rfl) fun _ => only_bind (hone _ rfl) fun _ => ?_
  refine only_bind (hone _ rfl) fun _ => only_bind (hone _ rfl) fun _ => ?_
  exact only_bind (hone _ rfl) fun _ => h _

/-- The opcodes without operands that inline nothing. -/
theorem only_keepsPc {mn : Mnemonic} (h : mn ≠ .LIT ∧ mn ≠ .JMI ∧ mn ≠ .JCI ∧ mn ≠ .JSI)
    (h' : mn ≠ .JMP ∧ mn ≠ .JCN ∧ mn ≠ .JSR) :
    Only (F := micro) (fun o => o.keepsPc) (dispatch mn) := by
  cases mn <;> first
    | simp at h; done
    | simp at h'; done
    | simp [Only, Micro.keepsPc, only_ite]

/-- The jumps that may inline an opcode. -/
theorem only_jumps {mn : Mnemonic} (h : mn = .JMP ∨ mn = .JCN ∨ mn = .JSR) :
    Only (F := micro) (fun o => o.keepsPc ∨ o = .nextOpcode) (dispatch mn) := by
  have hpop : ∀ flag2 s, Only (F := micro) (fun o => o.keepsPc ∨ o = .nextOpcode) (popEx flag2 s) :=
    fun _ _ => ⟨.inl rfl, fun _ => trivial⟩
  have hpop' : Only (F := micro) (fun o => o.keepsPc ∨ o = .nextOpcode) pop := by
    simp [Only, Micro.keepsPc]
  rcases h with rfl | rfl | rfl
  · refine only_bind hpop' fun o => only_bind (only_jump _ _) fun _ => ?_
    split
    · exact ⟨.inl rfl, fun _ => trivial⟩
    · exact trivial
  · refine only_bind hpop' fun o => only_bind (by simp [Only, Micro.keepsPc]) fun _ => ?_
    exact only_conditionalJump (fun _ h => .inl h) _ (only_jump _ _)
  · refine only_bind hpop' fun o => only_bind (by simp [Only, Micro.keepsPc]) fun _ => ?_
    exact only_callTo (fun _ h => .inl h) _ fun _ => only_jump _ _

end Shape

/-- **An opcode moves the address on**, and what it inlines comes after it. -/
theorem dispatch_remaining {next : Ctx → Ctx} (hnext : ∀ c, remaining (next c).pc ≤ remaining c.pc)
    {ctx : Ctx} (hpc : 256 ≤ ctx.pc) (mn : Mnemonic) :
    Prog.Throughout (handle next) (fun o c => o = .nextOpcode → remaining c.pc < remaining ctx.pc)
      (fun c => remaining c.pc < remaining ctx.pc) (Emit.dispatch mn) ctx.beginOpcode := by
  have hone : remaining (ctx.pc + 1) < remaining ctx.pc :=
    remaining_add hpc (by decide) (by decide)
  have htwo : remaining (ctx.pc + 1 + 1) < remaining ctx.pc := by
    rw [BitVec.add_assoc]
    exact remaining_add hpc (by decide) (by decide)
  have hthree : remaining (ctx.pc + 1 + 2) < remaining ctx.pc := by
    rw [BitVec.add_assoc]
    exact remaining_add hpc (by decide) (by decide)
  have hstay : ∀ {α : Type} {p : Emit.Op α} {c : Ctx},
      Prog.Only (F := micro) (fun o => o.keepsPc ∨ o = .nextOpcode) p →
      remaining c.pc < remaining ctx.pc →
      Prog.Throughout (handle next) (fun o c => o = .nextOpcode → remaining c.pc < remaining ctx.pc)
        (fun c => remaining c.pc < remaining ctx.pc) p c := by
    intro α p c hp hc
    apply Prog.throughout_of_only _ _ hp
    · exact hc
    · intro o c _ hc _
      exact hc
    · intro o c ho hc
      rcases ho with ho | rfl
      · rwa [handle_keepsPc ho]
      · exact (hnext c).trans_lt hc
  have hkeep : ∀ {α : Type} {p : Emit.Op α}, Prog.Only (F := micro) (fun o => o.keepsPc) p →
      Prog.Only (F := micro) (fun o => o.keepsPc ∨ o = .nextOpcode) p :=
    fun hp => hp.mono fun _ ho => .inl ho
  by_cases himm : mn ≠ .LIT ∧ mn ≠ .JMI ∧ mn ≠ .JCI ∧ mn ≠ .JSI
  · by_cases hjump : mn ≠ .JMP ∧ mn ≠ .JCN ∧ mn ≠ .JSR
    · exact hstay (hkeep (only_keepsPc himm hjump)) hone
    · exact hstay (only_jumps (by grind)) hone
  · have hop : mn = .LIT ∨ mn = .JMI ∨ mn = .JCI ∨ mn = .JSI := by grind
    have htarget : ∀ c : Ctx, c.immediateJumpTarget.1.isShort = true := fun _ => rfl
    rcases hop with rfl | rfl | rfl | rfl
    · refine Prog.throughout_op (by simp) (Prog.throughout_op (by simp) ?_)
      refine hstay ⟨.inl rfl, fun _ => ⟨.inl rfl, fun _ => trivial⟩⟩ ?_
      change remaining (ctx.pc + 1 + if opFlag2 _ then 2 else 1) < _
      split
      exacts [hthree, htwo]
    · refine Prog.throughout_op (by simp) (hstay (hkeep ?_) hthree)
      have hfinal : Prog.Only (F := micro) (fun o => o.keepsPc) Emit.finalize :=
        ⟨rfl, fun _ => trivial⟩
      change Prog.Only (F := micro) _
        (Emit.jump ctx.beginOpcode.immediateJumpTarget.1 0 >>= fun _ => Emit.finalize)
      exact Prog.only_bind (only_jump_keepsPc (htarget ctx.beginOpcode) 0) fun _ => hfinal
    · refine Prog.throughout_op (by simp) (Prog.throughout_op (by simp) (hstay (hkeep ?_) ?_))
      · exact only_conditionalJump (fun _ h => h) _ (only_jump_keepsPc (htarget _) 0)
      · change remaining ((ctx.beginOpcode.popEx false .wst).2.pc + 2) < _
        rw [Ctx.popEx_pc]
        exact hthree
    · refine Prog.throughout_op (by simp) (hstay (hkeep ?_) hthree)
      exact only_callTo (fun _ h => h) _ fun _ => only_jump_keepsPc (htarget ctx.beginOpcode) _

/-! ## Running without fuel -/

mutual

/-- `buxn_jit_next_opcode` compiles an opcode and returns. -/
inductive NextOpcode : Ctx → Ctx → Prop
  | zeroPage {ctx : Ctx} (h : ctx.pc < 256) : NextOpcode ctx ctx.leaveZeroPage
  | dispatch {ctx ctx' : Ctx} (h : 256 ≤ ctx.pc)
    (hp : Performs (Emit.dispatch (decode ctx.beginOpcode.currentOpcode)) ctx.beginOpcode ctx') :
    NextOpcode ctx ctx'

/-- The emitter of an opcode returns. -/
inductive Performs : Emit.Op Unit → Ctx → Ctx → Prop
  | pure (u : Unit) (ctx : Ctx) : Performs (.pure u) ctx ctx
  | op {o : Micro} {k : o.Res → Emit.Op Unit} {ctx ctx' : Ctx} (h : o ≠ .nextOpcode)
    (hp : Performs (k (handle id o ctx).1) (handle id o ctx).2 ctx') : Performs (.op o k) ctx ctx'
  | nextOpcode {k : Unit → Emit.Op Unit} {ctx c ctx' : Ctx} (hc : NextOpcode ctx c)
    (hp : Performs (k ()) c ctx') : Performs (.op .nextOpcode k) ctx ctx'

end

/-- The loop of `buxn_jit_compile` ends. -/
inductive CompileLoop : Ctx → Ctx → Prop
  | done {ctx : Ctx} (h : ctx.compiler = none) : CompileLoop ctx ctx
  | next {ctx c ctx' : Ctx} (h : ctx.compiler ≠ none) (hc : NextOpcode ctx c)
    (hloop : CompileLoop c ctx') : CompileLoop ctx ctx'

theorem handle_eq_id {next : Ctx → Ctx} {o : Micro} (h : o ≠ .nextOpcode) (ctx : Ctx) :
    handle next o ctx = handle id o ctx := by
  cases o <;> first
    | rfl
    | exact absurd rfl h

theorem performs_run {next : Ctx → Ctx} {p : Emit.Op Unit} {ctx : Ctx}
    (h : Prog.Along (handle next) (fun o c => o = .nextOpcode → NextOpcode c (next c)) p ctx) :
    Performs p ctx (Prog.run (handle next) p ctx).2 := by
  induction p generalizing ctx with
  | pure u => exact .pure u ctx
  | op o k ih =>
    rw [Prog.run]
    by_cases ho : o = .nextOpcode
    · subst ho
      exact .nextOpcode (h.1 rfl) (ih _ h.2)
    · have hrun := ih _ h.2
      rw [handle_eq_id ho] at hrun ⊢
      exact .op ho hrun

theorem remaining_nextOpcode (fuel : ℕ) (ctx : Ctx) :
    remaining (nextOpcode fuel ctx).pc ≤ remaining ctx.pc := by
  induction fuel generalizing ctx with
  | zero => exact le_rfl
  | succ fuel ih =>
    by_cases hpc : ctx.pc < 256
    · rw [nextOpcode, if_pos hpc]
      exact le_rfl
    · rw [nextOpcode, if_neg hpc]
      exact (dispatch_remaining ih (BitVec.not_lt.mp hpc) _).2.le

/-- **Inlining ends**: fuel for the bytes that remain is enough. -/
theorem nextOpcode_returns (fuel : ℕ) (ctx : Ctx) (h : remaining ctx.pc < fuel) :
    NextOpcode ctx (nextOpcode fuel ctx) := by
  induction fuel generalizing ctx with
  | zero => omega
  | succ fuel ih =>
    by_cases hpc : ctx.pc < 256
    · rw [nextOpcode, if_pos hpc]
      exact .zeroPage hpc
    · have hle : 256 ≤ ctx.pc := BitVec.not_lt.mp hpc
      rw [nextOpcode, if_neg hpc]
      refine .dispatch hle (performs_run ?_)
      refine (dispatch_remaining (remaining_nextOpcode fuel) hle _).1.mono fun o c hc ho => ?_
      exact ih c (by have := hc ho; omega)

/-- **The opcode loop of a block ends.** -/
theorem compileBlock_returns {fuel : ℕ} (hfuel : 65280 < fuel) (n : ℕ) (ctx : Ctx)
    (h : ctx.compiler = none ∨ remaining ctx.pc < n) :
    CompileLoop ctx (ctx.compileBlock fuel n) := by
  induction n generalizing ctx with
  | zero => exact .done (h.resolve_right (Nat.not_lt_zero _))
  | succ n ih =>
    rw [Ctx.compileBlock]
    split
    · exact .done ‹_›
    next hdone =>
      have hnext := nextOpcode_returns fuel ctx ((remaining_le ctx.pc).trans_lt hfuel)
      refine .next hdone hnext (ih _ ?_)
      obtain ⟨fuel, rfl⟩ := Nat.exists_eq_add_of_lt hfuel
      by_cases hpc : ctx.pc < 256
      · left
        rw [nextOpcode, if_pos hpc]
        rfl
      · right
        rw [nextOpcode, if_neg hpc]
        have hlt := (dispatch_remaining (remaining_nextOpcode (65280 + fuel)) (BitVec.not_lt.mp hpc)
          (decode ctx.beginOpcode.currentOpcode)).2
        exact hlt.trans_le (Nat.lt_succ_iff.mp (h.resolve_left hdone))

mutual

theorem NextOpcode.eq {ctx c c' : Ctx} : NextOpcode ctx c → NextOpcode ctx c' → c = c'
  | .zeroPage hpc, h' => by
    cases h' with
    | zeroPage => rfl
    | dispatch hpc' => exact absurd hpc (BitVec.not_lt.mpr hpc')
  | .dispatch hpc hp, h' => by
    cases h' with
    | zeroPage hpc' => exact absurd hpc' (BitVec.not_lt.mpr hpc)
    | dispatch _ hp' => exact hp.eq hp'

theorem Performs.eq {p : Emit.Op Unit} {ctx c c' : Ctx} :
    Performs p ctx c → Performs p ctx c' → c = c'
  | .pure _ _, h' => by
    cases h' with
    | pure => rfl
  | .op ho hp, h' => by
    cases h' with
    | op _ hp' => exact hp.eq hp'
    | nextOpcode => exact absurd rfl ho
  | .nextOpcode hc hp, h' => by
    cases h' with
    | op ho => exact absurd rfl ho
    | nextOpcode hc' hp' =>
      obtain rfl := hc.eq hc'
      exact hp.eq hp'

end

theorem CompileLoop.eq {ctx c c' : Ctx} (h : CompileLoop ctx c) (h' : CompileLoop ctx c') :
    c = c' := by
  induction h with
  | done hnone =>
    cases h' with
    | done => rfl
    | next hsome => exact absurd hnone hsome
  | next hsome hc _ ih =>
    cases h' with
    | done hnone => exact absurd hnone hsome
    | next _ hc' hloop' =>
      obtain rfl := hc.eq hc'
      exact ih hloop'

/-! ## The loops of the allocator -/

namespace Gen

/-- The loop of `buxn_jit_alloc_reg` ends: with a register, or out of cells. -/
inductive AllocLoop : Gen → Option OpReg × Gen → Prop
  | found {g : Gen} {r : OpReg} (h : g.findFreeReg = some r) : AllocLoop g (some r, g)
  | empty {g : Gen} (h : g.findFreeReg = none) (hcells : g.numCells = 0) : AllocLoop g (none, g)
  | spill {g : Gen} {x : Option OpReg × Gen} (h : g.findFreeReg = none) (hcells : 0 < g.numCells)
    (hloop : AllocLoop g.spillForReg x) : AllocLoop g x

/-- The loop of `buxn_jit_stack_cache_clear` ends. -/
inductive ClearLoop (s : Stk) : Gen → Gen → Prop
  | done {g g' : Gen} (h : stackCacheSpill s g = (false, g')) : ClearLoop s g g'
  | next {g g' g'' : Gen} (h : stackCacheSpill s g = (true, g')) (hloop : ClearLoop s g' g'') :
    ClearLoop s g g''

/-- A spill for a register leaves a cell less. -/
theorem numCells_spillForReg {g : Gen} (hcells : 0 < g.numCells) :
    g.spillForReg.numCells + 1 = g.numCells := by
  unfold spillForReg
  cases h : g.cache g.cur with
  | cons c cs =>
    rw [stackCacheSpill_eq g _ h]
    exact g.numCells_spillCell _ h
  | nil =>
    cases hother : g.cache g.cur.other with
    | cons c cs =>
      rw [stackCacheSpill_nil g _ h]
      simp only [stackCacheSpill_eq g _ hother]
      exact g.numCells_spillCell _ hother
    | nil =>
      exfalso
      cases hcur : g.cur <;> rw [hcur] at h hother <;> simp [numCells, Stk.other] at h hother hcells <;>
        simp [h, hother] at hcells

/-- **Allocation ends**: the caches become shorter. -/
theorem allocLoop_returns (g : Gen) : AllocLoop g (allocLoop g.numCells g) := by
  induction hn : g.numCells generalizing g with
  | zero =>
    rw [allocLoop]
    cases h : g.findFreeReg with
    | some r => exact .found h
    | none => exact .empty h hn
  | succ n ih =>
    rw [allocLoop]
    cases h : g.findFreeReg with
    | some r => exact .found h
    | none =>
      have hcells : 0 < g.numCells := by
        omega
      have hless := numCells_spillForReg hcells
      apply AllocLoop.spill h hcells
      apply ih
      omega

/-- **Clearing a cache ends.** -/
theorem stackCacheClear_returns (s : Stk) (g : Gen) : ClearLoop s g (g.stackCacheClear s) := by
  unfold stackCacheClear
  induction hn : (g.cache s).length generalizing g with
  | zero =>
    apply ClearLoop.done
    exact g.stackCacheSpill_nil s (List.length_eq_zero_iff.mp hn)
  | succ n ih =>
    obtain ⟨c, cs, hc⟩ := List.exists_cons_of_length_eq_add_one hn
    have hspill := g.stackCacheSpill_eq s hc
    rw [Function.iterate_succ_apply, hspill]
    apply ClearLoop.next hspill
    apply ih
    rw [hc, List.length_cons] at hn
    simpa using hn

end Gen

/-! ## Calls -/

namespace Jit

/-- A loop over a queue ends, where `body` tells what the handling of an entry does. -/
inductive Drains (q : Queue) (body : EntryId → Jit → Jit → Prop) : Jit → Jit → Prop
  | done {j j' : Jit} (h : j.dequeue q = (none, j')) : Drains q body j j'
  | next {j j₁ j₂ j' : Jit} {e : EntryId} (h : j.dequeue q = (some e, j₁)) (hbody : body e j₁ j₂)
    (hloop : Drains q body (j₂.enqueue .pool e) j') : Drains q body j j'

/-- `buxn_jit_compile` returns. -/
def Compiles (S : Sljit) (e : EntryId) (j j' : Jit) : Prop :=
  ∃ ctx, CompileLoop (.start j (j.entries e).compiler (j.entries e).payload.toPc) ctx ∧
    j' = ctx.jit.generate S e

/-- `buxn_jit` returns. -/
inductive Returns (S : Sljit) (pc : Short) (j : Jit) : BlockId × Jit → Prop
  | compiled (h : ((j.queueBlock pc).2.blocks (j.queueBlock pc).1).fn ≠ 0) :
    Returns S pc j (j.queueBlock pc)
  | new (h : ((j.queueBlock pc).2.blocks (j.queueBlock pc).1).fn = 0) {j₁ j₂ j₃ : Jit}
    (hcompile : Drains .compile (Compiles S) (j.queueBlock pc).2 j₁)
    (hlink : Drains .link (fun e j j' => j' = j.link e) j₁ j₂)
    (hcleanup : Drains .cleanup (fun e j j' => j' = j.free e) j₂ j₃) :
    Returns S pc j ((j.queueBlock pc).1, j₃)

/-- The states that calls reach. -/
inductive Reachable (S : Sljit) : Jit → Prop
  | init (m : Short → Byte) : Reachable S (.init m)
  | call {j j' : Jit} (h : Reachable S j) (m : Short → Byte) (pc : Short) {b : BlockId}
    (hcall : Returns S pc { j with memory := m } (b, j')) : Reachable S j'

section Calls

variable {S : Sljit} {fuel : ℕ} {pc : Short} {j j' : Jit}

theorem Drains.eq {q : Queue} {body : EntryId → Jit → Jit → Prop} {j₁ j₂ : Jit}
    (hbody : ∀ e j j₁ j₂, body e j j₁ → body e j j₂ → j₁ = j₂) (h : Drains q body j j₁)
    (h' : Drains q body j j₂) : j₁ = j₂ := by
  induction h with
  | done hnone =>
    cases h' with
    | done hnone' => exact (Prod.mk.inj (hnone.symm.trans hnone')).2
    | next hsome => cases hnone.symm.trans hsome
  | next hsome hone _ ih =>
    cases h' with
    | done hnone => cases hnone.symm.trans hsome
    | next hsome' hone' hloop' =>
      obtain ⟨he, rfl⟩ := Prod.mk.inj (hsome.symm.trans hsome')
      obtain rfl := Option.some.inj he
      obtain rfl := hbody _ _ _ _ hone hone'
      exact ih hloop'

theorem Compiles.eq {e : EntryId} {j₁ j₂ : Jit} (h : Compiles S e j j₁) (h' : Compiles S e j j₂) :
    j₁ = j₂ := by
  obtain ⟨ctx, hloop, rfl⟩ := h
  obtain ⟨ctx', hloop', rfl⟩ := h'
  rw [hloop.eq hloop']

/-- **A call returns one result.** -/
theorem Returns.eq {r r' : BlockId × Jit} (h : Returns S pc j r) (h' : Returns S pc j r') :
    r = r' := by
  cases h with
  | compiled hfn =>
    cases h' with
    | compiled => rfl
    | new hnew => exact absurd hnew hfn
  | new hnew hcompile hlink hcleanup =>
    cases h' with
    | compiled hfn => exact absurd hnew hfn
    | new _ hcompile' hlink' hcleanup' =>
      obtain rfl := hcompile.eq (fun _ _ _ _ h h' => h.eq h') hcompile'
      obtain rfl := hlink.eq (fun _ _ _ _ h h' => h.trans h'.symm) hlink'
      obtain rfl := hcleanup.eq (fun _ _ _ _ h h' => h.trans h'.symm) hcleanup'
      rfl

/-- With enough fuel a block is compiled. -/
theorem compiles (hfuel : 65280 < fuel) (e : EntryId) (j : Jit) :
    Compiles S e j (j.compile S fuel e) := by
  refine ⟨_, compileBlock_returns hfuel fuel _ (.inr ?_), rfl⟩
  exact (remaining_le _).trans_lt hfuel

/-- **The compile loop ends**: a round for every address at most. -/
theorem Midway.drains {n : ℕ} {ev : List Event} {done pending : List BlockId}
    (h : Midway S fuel n ev j done pending) (hfuel : 65280 < fuel) {k : ℕ}
    (hk : 65536 < done.length + k) :
    Drains .compile (Compiles S) j (j.drain .compile (Jit.compile S fuel) k) := by
  induction k generalizing j done pending with
  | zero => exact absurd h.length_done_le (by omega)
  | succ k ih =>
    rw [Jit.drain]
    cases pending with
    | nil =>
      have hnone := h.managed.stores.dequeue_nil (q := .compile) (by simp) rfl
      rw [hnone]
      exact .done hnone
    | cons b pending =>
      obtain ⟨e, j₁, hpop, hnext, -⟩ := h.compile
      rw [hpop]
      apply Drains.next hpop (compiles hfuel e j₁)
      apply ih hnext
      rw [List.length_cons]
      omega

/-- **A loop that logs ends**: it queues nothing. -/
theorem Stores.drains {q : Queue} (hq : q ≠ .pool) {body : EntryId → Jit → Jit}
    {f : (BlockId → Block) → Item → List Event}
    (hbody : ∀ e j, body e j = j.logAll (f j.blocks ((j.entries e).item q)))
    {items : Queue → List Item} (h : j.Stores [] items) {k : ℕ} (hk : (items q).length < k) :
    Drains q (fun e j j' => j' = body e j) j (j.drain q body k) := by
  induction k generalizing j items with
  | zero => omega
  | succ k ih =>
    rw [Jit.drain]
    cases hi : items q with
    | nil =>
      have hnone := h.dequeue_nil hq hi
      rw [hnone]
      exact .done hnone
    | cons i is =>
      obtain ⟨e, j₁, hpop, hstores, -, -⟩ := h.round hq hbody hi
      rw [hpop]
      apply Drains.next hpop rfl
      apply ih hstores
      rw [Function.update_self]
      rw [hi, List.length_cons] at hk
      omega

/-- **With enough fuel a call returns.** -/
theorem Idle.call_returns (h : Idle S j) (hfuel : 65536 < fuel) (pc : Short) :
    Returns S pc j (j.buxnJit S fuel pc) := by
  by_cases hfn : ((j.queueBlock pc).2.blocks (j.queueBlock pc).1).fn = 0
  · obtain ⟨pending, hmid⟩ := h.midway_queueBlock fuel pc
    obtain ⟨done, hend, -⟩ := hmid.drain hfuel
    have hstores := hend.managed.stores
    obtain ⟨hlinked, -⟩ := hstores.drain (q := .link) (by simp) link_eq
      ((j.afterCompile S fuel pc).numEntries + 1)
    have hcompile : Drains .compile (Compiles S) (j.queueBlock pc).2 (j.afterCompile S fuel pc) := by
      apply hmid.drains (by omega)
      rw [List.length_nil]
      omega
    have hlink : Drains .link (fun e j j' => j' = j.link e) (j.afterCompile S fuel pc)
        (j.afterLink S fuel pc) := by
      apply hstores.drains (by simp) link_eq
      exact Nat.lt_succ_of_le (hstores.length_le .link (by simp))
    rw [buxnJit_eq hfn]
    apply Returns.new hfn hcompile hlink
    apply hlinked.drains (by simp) free_eq
    exact Nat.lt_succ_of_le (hlinked.length_le .cleanup (by simp))
  · have hrun : j.buxnJit S fuel pc = j.queueBlock pc := by
      unfold Jit.buxnJit
      exact if_pos hfn
    rw [hrun]
    exact .compiled hfn

/-- Reachable states are those that enough fuel reaches. -/
theorem Reachable.idle (h : Reachable S j) : Idle S j := by
  induction h with
  | init m => exact idle_init S m
  | call h m pc hcall ih =>
    have hfuel : 65536 < 65537 := by
      omega
    have heq := hcall.eq ((ih.memory m).call_returns hfuel pc)
    have hidle := ((ih.memory m).buxnJit hfuel pc).1
    rwa [← heq] at hidle

/-- **Compilation terminates**, for every memory and address in every reachable state: the call
returns one result, which is that of any run with enough fuel. The loops of the allocator end in
every state of the code generator. -/
theorem Reachable.returns (h : Reachable S j) (m : Short → Byte) (pc : Short) :
    (∃ r, Returns S pc { j with memory := m } r ∧
      ∀ fuel, 65536 < fuel → { j with memory := m }.buxnJit S fuel pc = r) ∧
    (∀ g, Gen.AllocLoop g (Gen.allocLoop g.numCells g)) ∧
      ∀ s g, Gen.ClearLoop s g (Gen.stackCacheClear s g) := by
  refine ⟨?_, Gen.allocLoop_returns, Gen.stackCacheClear_returns⟩
  have hreturns : ∀ fuel, 65536 < fuel →
      Returns S pc { j with memory := m } ({ j with memory := m }.buxnJit S fuel pc) :=
    fun fuel hfuel => (h.idle.memory m).call_returns hfuel pc
  refine ⟨_, hreturns 65537 (by omega), fun fuel hfuel => ?_⟩
  exact (hreturns fuel hfuel).eq (hreturns 65537 (by omega))

/-- A loop at the reset vector. -/
theorem returns_selfLoop :
    let S : Sljit := ⟨fun _ => 1, fun _ => 2, fun _ => 3, fun _ => 0⟩
    let j := { Jit.init (rom []) with memory := rom [0x40, 0xff, 0xfd] }
    (∃ r, Returns S 0x100 j r ∧ ∀ fuel, 65536 < fuel → j.buxnJit S fuel 0x100 = r) ∧
      (∀ g, Gen.AllocLoop g (Gen.allocLoop g.numCells g)) ∧
        ∀ s g, Gen.ClearLoop s g (Gen.stackCacheClear s g) :=
  (Reachable.init (rom [])).returns _ 0x100

end Calls

end Jit

end BuxnJit
