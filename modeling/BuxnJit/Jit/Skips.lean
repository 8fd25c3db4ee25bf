import BuxnJit.Jit.Control

/-!
# The base behind a skipped opcode

A boolean jump inlines the opcode that it may skip. Which base is tracked behind this opcode is
clear before it is compiled: the one of the array that it accesses last (`lastAccess`), or none if
it ends with a callback or a call (`Forgets`). If that is the base before it, or none, the opcode is
`Skippable`: the paths around it and through it agree (`foreseen_nextOpcode`).
-/

namespace BuxnJit

open Foundations

/-! ## The last access -/

/-- The array of the last access of an opcode on the stack `s` whose operands are in memory, the
write-back of its results included. -/
def Mnemonic.lastAccess (s : Stk) : Mnemonic → Option Region
  | .BRK | .JMI | .POP => none
  | .JCI => some .ws
  | .JSI => some .rs
  | .STZ | .STR | .STA => some .memory
  | .DEO => some .device
  | .STH | .JSR => some s.other.region
  | _ => some s.region

def lastAccess (op : Byte) : Option Region :=
  (decode op).lastAccess (if opFlagR op then .rst else .wst)

/-- The target of a jump to be compiled next. -/
def Ctx.jumpOperand (ctx : Ctx) : Operand OpReg :=
  (ctx.beginOpcode.popEx (opFlag2 (ctx.jit.memory ctx.pc)) ctx.beginOpcode.cur).1

/-- The jump to be compiled next is a boolean one. -/
def Ctx.jumpsByBoolean (ctx : Ctx) : Bool :=
  !ctx.jumpOperand.isShort && ctx.jumpOperand.semantics.boolean

/-- The opcode ends with a callback or with a call to a known target. So does a boolean jump if the
opcode that it inlines does. -/
def Forgets : ℕ → Ctx → Prop
  | 0, _ => False
  | fuel + 1, ctx => 256 ≤ ctx.pc ∧
    let inlined := Prog.Along (handle (nextOpcode fuel)) (fun o c => o = .nextOpcode → Forgets fuel c)
      (Emit.dispatch (decode (ctx.jit.memory ctx.pc))) ctx.beginOpcode
    match decode (ctx.jit.memory ctx.pc) with
    | .DEO => True
    | .JSI => ctx.pc + 3 ≠ 0
    | .JMP | .JCN => ctx.jumpsByBoolean ∧ inlined
    | .JSR => if ctx.jumpsByBoolean then inlined
        else ctx.jumpOperand.semantics.const ∧ ctx.pc + 1 ≠ 0
    | _ => False

instance Forgets.decidable : (fuel : ℕ) → (ctx : Ctx) → Decidable (Forgets fuel ctx)
  | 0, _ => .isFalse id
  | fuel + 1, ctx =>
    have := Forgets.decidable fuel
    have (mn : Mnemonic) (p q : Prop) [Decidable p] [Decidable q] : Decidable (match mn with
        | .DEO => True
        | .JSI => ctx.pc + 3 ≠ 0
        | .JMP | .JCN => ctx.jumpsByBoolean ∧ p
        | .JSR => if ctx.jumpsByBoolean then p else q
        | _ => False) := by
      cases mn <;> infer_instance
    inferInstanceAs (Decidable (256 ≤ ctx.pc ∧ _))

/-- The opcode that a boolean jump inlines accesses nothing, or nothing but the array whose base is
tracked before it at last, or it forgets the base. -/
def Skippable (fuel : ℕ) (o : Micro) (ctx : Ctx) : Prop :=
  o = .nextOpcode → ctx.pc < 256 ∨ lastAccess (ctx.jit.memory ctx.pc) = none ∨
    lastAccess (ctx.jit.memory ctx.pc) = ctx.memBase ∨ Forgets fuel ctx

instance (fuel : ℕ) (o : Micro) (ctx : Ctx) : Decidable (Skippable fuel o ctx) :=
  inferInstanceAs (Decidable (_ → _))

/-! ## Code on empty caches -/

namespace Gen

variable {g g' : Gen} {s : Stk}

theorem Uncached.spills (hg : g.Uncached) (h : Spills g g') : g' = g := by
  rcases Relation.ReflTransGen.cases_head h with rfl | ⟨_, hs, _⟩
  · rfl
  · obtain ⟨hc⟩ := hs
    simp [hg _] at hc

theorem Uncached.allocReg (hg : g.Uncached) :
    g.allocReg.2.Uncached ∧ g.allocReg.2.memBase = g.memBase := by
  refine ⟨fun s => Shrinks.nil (hg s ▸ g.shrinks_allocReg s), ?_⟩
  obtain ⟨g', hspills, ⟨r, -, heq⟩ | ⟨-, -, heq⟩⟩ := g.allocReg_spec <;>
    rw [heq, hg.spills hspills.spills] <;> simp

@[simp] theorem popCode_memBase (flag2 : Bool) (s : Stk) (sp : Reg) (reg : OpReg) :
    (g.popCode flag2 s sp reg).memBase = g.memBase := by
  cases flag2 <;> simp [popCode]

/-- A pop from an empty cache reads the memory. -/
theorem Uncached.stackCachePop (hg : g.Uncached) (flag2 : Bool) :
    (g.stackCachePop flag2 s).2.Uncached ∧
      (g.stackCachePop flag2 s).2.memBase = some s.region := by
  refine ⟨fun s' => Shrinks.nil (hg s' ▸ g.shrinks_stackCachePop s flag2 s'), ?_⟩
  have hmem : g.stackCachePop flag2 s = g.popFromMem flag2 s := by
    cases flag2 <;> simp [Gen.stackCachePop, stackCachePopByte, hg s]
  have hbase : (g.setMemBase s.region).Uncached := fun s' => by simp [hg s']
  rw [hmem, popFromMem_eq]
  simp [hbase.allocReg.2]

/-- A value that is pushed to empty caches is written at last. -/
theorem Uncached.clear_push (hg : g.Uncached) (o : Operand OpReg) (b : Bool) :
    ((g.assert b).stackCachePush s o).clearStackCaches.memBase = some s.region := by
  have hcs : ((g.assert b).stackCachePush s o).cache =
      Function.update (fun _ => []) s [⟨o, true⟩] := by
    funext s'
    by_cases h : s' = s <;> simp [Gen.stackCachePush, hg s, hg s', h, cacheSize, setCache]
  generalize (g.assert b).stackCachePush s o = x at hcs
  cases s <;>
    simp [clearStackCaches, stackCacheClear, stackCacheSpill, hcs, spillCell_memBase]

/-- Code that works on one stack, whose base is tracked. -/
structure On (s : Stk) (g : Gen) : Prop where
  other : g.cache s.other = []
  base : g.memBase = some s.region

namespace On

variable (hg : On s g)

include hg

theorem spills (h : Spills g g') : On s g' := by
  refine h.preserves (I := On s) (fun x s' c cs hc hx => ?_) hg
  rcases s.eq_or_eq_other s' with rfl | rfl
  · exact ⟨by rw [spillCell_cache_of_ne _ _ _ _ s'.other_ne, hx.other], by
      rw [spillCell_memBase, hx.base, ite_self]⟩
  · rw [hx.other] at hc
    cases hc

theorem of_eq (hcache : g'.cache s.other = g.cache s.other) (hbase : g'.memBase = g.memBase) :
    On s g' := ⟨hcache.trans hg.other, hbase.trans hg.base⟩

theorem allocReg : On s g.allocReg.2 := by
  obtain ⟨g', hspills, ⟨r, -, heq⟩ | ⟨-, -, heq⟩⟩ := g.allocReg_spec <;> rw [heq] <;>
    exact (hg.spills hspills.spills).of_eq (by simp) (by simp)

theorem popFromMem (flag2 : Bool) : On s (g.popFromMem flag2 s).2 := by
  rw [popFromMem_eq]
  have hset : On s (g.setMemBase s.region) := hg.of_eq (by simp) (by simp [hg.base])
  exact hset.allocReg.of_eq (by simp) (by simp)

theorem setCache (cs : List Cell) : On s (g.setCache s cs) :=
  hg.of_eq (by simp) (by simp)

theorem retainReg (r : OpReg) : On s (g.retainReg r) := hg.of_eq (by simp) (by simp)

theorem releaseReg (r : OpReg) : On s (g.releaseReg r) := hg.of_eq (by simp) (by simp)

theorem emit (i : Instr) : On s (g.emit i) := hg.of_eq rfl rfl

theorem stackCachePopByte : On s (g.stackCachePopByte s).2 := by
  unfold Gen.stackCachePopByte
  cases htop : (g.cache s).getLast? with
  | none => exact hg.popFromMem false
  | some top =>
    simp only
    split
    · split
      · exact (hg.allocReg.releaseReg _).popFromMem false
      · exact ((hg.allocReg.emit _).emit _).setCache _
    · exact hg.setCache _

theorem stackCachePop (flag2 : Bool) : On s (g.stackCachePop flag2 s).2 := by
  unfold Gen.stackCachePop
  cases flag2 with
  | false => exact hg.stackCachePopByte
  | true =>
    simp only [if_true]
    cases htop : (g.cache s).getLast? with
    | none => exact hg.popFromMem true
    | some top =>
      simp only
      split
      · exact hg.setCache _
      · exact (((hg.setCache _).stackCachePopByte.emit _).emit _).releaseReg _

theorem stackCacheDiscardByte : On s (g.stackCacheDiscardByte s) := by
  unfold Gen.stackCacheDiscardByte
  cases htop : (g.cache s).getLast? with
  | none => exact hg.emit _
  | some top =>
    simp only
    split
    · exact (hg.emit _).setCache _
    · exact (hg.setCache _).releaseReg _

theorem stackCacheDiscard (flag2 : Bool) : On s (g.stackCacheDiscard flag2 s) := by
  unfold Gen.stackCacheDiscard
  cases flag2 with
  | false => exact hg.stackCacheDiscardByte
  | true =>
    simp only [if_true]
    cases htop : (g.cache s).getLast? with
    | none => exact hg.emit _
    | some top =>
      simp only
      split
      · exact (hg.setCache _).releaseReg _
      · exact ((hg.setCache _).releaseReg _).stackCacheDiscardByte

theorem stackCachePush (o : Operand OpReg) : On s (g.stackCachePush s o) := by
  have hspill := hg.spills (g.spills_stackCacheSpill s)
  unfold Gen.stackCachePush
  split
  · exact (hspill.setCache _).retainReg _
  · exact (hg.setCache _).retainReg _

theorem clearStackCaches : On s g.clearStackCaches := hg.spills g.spills_clearStackCaches

end On

end Gen

/-! ## Straight-line opcodes -/

/-- The operations on the current stack that access no other array. -/
def Micro.OnCur : Micro → Ctx → Prop
  | .popEx _ s, ctx | .pushEx _ s, ctx | .discard _ s, ctx => s = ctx.cur
  | .load .., _ | .store .., _ | .immediate _, _ => False
  | o, _ => o.straight

theorem handle_on {next : Ctx → Ctx} {o : Micro} {ctx : Ctx} (ho : o.OnCur ctx)
    (h : Gen.On ctx.cur ctx.toGen) : Gen.On ctx.cur (handle next o ctx).2.toGen := by
  cases o <;> simp only [Micro.OnCur, Micro.straight, Bool.false_eq_true] at ho
  case ask => exact h
  case popEx flag2 s =>
    subst ho
    rw [handle, Ctx.popEx_toGen]
    exact h.stackCachePop flag2
  case pushEx operand s =>
    subst ho
    rw [handle, Ctx.pushEx_toGen]
    exact (h.of_eq rfl rfl : Gen.On _ (ctx.toGen.assert _)).stackCachePush operand
  case discard flag2 s =>
    subst ho
    exact h.stackCacheDiscard flag2
  case allocReg => exact h.allocReg
  case alu a => exact h.emit _
  case divide c a b => exact h.of_eq (by simp [handle, Ctx.lift]) (by simp [handle, Ctx.lift])

/-- The opcodes whose operands and results are on the current stack. -/
def Mnemonic.onCur : Mnemonic → Bool
  | .INC | .NIP | .SWP | .ROT | .DUP | .OVR | .EQU | .NEQ | .GTH | .LTH | .ADD | .SUB | .MUL
  | .DIV | .AND | .ORA | .EOR | .SFT => true
  | _ => false

section Shape

open Emit Prog

attribute [local simp] dispatch INC POP NIP SWP ROT DUP OVR EQU NEQ GTH LTH ADD SUB MUL DIV AND ORA
  EOR SFT arith compareOp pop popByte push popEx pushEx allocReg alu wrapAround flag2 cur ask
  perform Prog.bind bind_eq pure_eq ite_bind

theorem along_onCur (next : Ctx → Ctx) {mn : Mnemonic} (h : mn.onCur) (ctx : Ctx) :
    Along (handle next) Micro.OnCur (dispatch mn) ctx := by
  cases mn
  case NIP =>
    refine (along_bind _ _ _).mpr ⟨⟨rfl, rfl, rfl, trivial⟩, ?_⟩
    refine (along_bind _ _ _).mpr ⟨?_, rfl, rfl, trivial⟩
    refine ⟨rfl, ?_⟩
    show Along _ _ (if _ then _ else _) _
    split
    · exact trivial
    · exact ⟨rfl, rfl, rfl, trivial⟩
  all_goals first
    | simp [Mnemonic.onCur] at h; done
    | simp [Along, Micro.OnCur, Micro.straight]

end Shape

/-- An opcode that works on the current stack goes on tracking its base. -/
theorem run_onCur (next : Ctx → Ctx) {mn : Mnemonic} (h : mn.onCur) {ctx : Ctx}
    (hsp : ctx.SpRegs) (hon : Gen.On ctx.cur ctx.toGen) :
    Gen.On ctx.cur (Prog.run (handle next) (Emit.dispatch mn) ctx).2.toGen := by
  have hst : mn.straight := by cases mn <;> first | rfl | simp [Mnemonic.onCur] at h
  refine (Prog.run_invariant (I := fun c : Ctx => c.SpRegs ∧ c.cur = ctx.cur ∧
    Gen.On ctx.cur c.toGen) (fun o c ho hcur ⟨hsp, hc, hon⟩ => ?_) (only_straight hst)
    (along_onCur next h ctx) ⟨hsp, rfl, hon⟩).2.2
  obtain ⟨hsp', hcur'⟩ := handle_cur next ho hsp
  rw [← hc] at hon ⊢
  exact ⟨hsp', hcur', handle_on hcur hon⟩

/-! ## Between opcodes -/

namespace Gen

variable {g : Gen}

theorem Uncached.beginOpcode (hg : g.Uncached) (op : Byte) :
    (g.beginOpcode op).Uncached ∧ (g.beginOpcode op).memBase = g.memBase := by
  have hret : g.retained = { g with refCounts := fun _ => 0, cache := fun _ => [] } := by
    have hnil : Function.update g.cache .wst [] = fun _ => [] := by
      funext s
      cases s <;> simp [hg .rst]
    simp [retained, stackCacheRetain, setCache, hg .wst, hnil]
  rw [beginOpcode_eq, hret]
  split
  · have hshadow : ∀ x : Gen, x.Uncached → x.enterKeep.Uncached ∧
        x.enterKeep.memBase = x.memBase := by
      intro x hx
      have hcopy : x.copyPointers.Uncached ∧ x.copyPointers.memBase = x.memBase := by
        have h₁ := hx.allocReg
        have h₂ := h₁.1.allocReg
        exact ⟨h₂.1, h₂.2.trans h₁.2⟩
      have hcache : ∀ s, x.shadowPointers.cache s = [] := fun s => by
        rw [shadowPointers_eq]
        exact hcopy.1 s
      refine ⟨fun s => ?_, ?_⟩
      · rw [enterKeep, stackCacheFlush_cache]
        by_cases h : s = x.cur <;> simp [h, hcache]
      · rw [enterKeep, stackCacheFlush, hcache, flushCells, setCache_memBase, shadowPointers_eq]
        exact hcopy.2
    exact hshadow _ fun _ => rfl
  · exact ⟨fun _ => rfl, rfl⟩

end Gen

/-! ## Jumps -/

/-- Nothing is cached, and the base is forgotten or `b`. -/
def Leaves (b : Option Region) (c : Ctx) : Prop :=
  c.Uncached ∧ (c.memBase = none ∨ c.memBase = b)

theorem Leaves.mono {b b' : Option Region} {c : Ctx} (h : Leaves b c) (hb : b = b') :
    Leaves b' c := hb ▸ h

section Jumps

variable {fuel : ℕ} {ctx : Ctx} {target : Operand Reg} {returnAddr : Short}

theorem uncached_clear (g : Gen) : g.clearStackCaches.Uncached := g.clearStackCaches_cache

theorem jumpAbs_leaves (hctx : ctx.Uncached) (target : Operand Reg) (returnAddr : Short) :
    (Prog.run (handle (nextOpcode fuel)) (Emit.jumpAbs target returnAddr) ctx).2.Uncached ∧
      (Prog.run (handle (nextOpcode fuel)) (Emit.jumpAbs target returnAddr) ctx).2.memBase =
        if target.semantics.const && returnAddr != 0 then none else ctx.memBase := by
  rw [Gen.Uncached, run_jumpAbs_toGen]
  exact ⟨hctx, rfl⟩

variable (fuel ctx returnAddr) in
/-- A jump that inlines nothing. -/
theorem jump_leaves (h : ¬(target.isShort = false ∧ target.semantics.boolean = true)) :
    (Prog.run (handle (nextOpcode fuel)) (Emit.jump target returnAddr) ctx).2.Uncached ∧
      (Prog.run (handle (nextOpcode fuel)) (Emit.jump target returnAddr) ctx).2.memBase =
        if target.semantics.const && returnAddr != 0 then none
        else ctx.clearStackCaches.memBase := by
  have hrun : Prog.run (handle (nextOpcode fuel)) (Emit.jump target returnAddr) ctx =
      Prog.run (handle (nextOpcode fuel)) (if target.isShort then Emit.jumpAbs target returnAddr else
        if target.semantics.boolean then Emit.jumpBoolean target
        else Emit.jumpRelative target returnAddr) (ctx.lift Gen.clearStackCaches) := rfl
  rw [hrun]
  split
  · exact jumpAbs_leaves (uncached_clear ctx.toGen) target returnAddr
  next hbyte =>
    rw [if_neg fun hb => h ⟨by simpa using hbyte, hb⟩]
    have hnil : ((ctx.lift Gen.clearStackCaches).lift fun g =>
        (g.emit (.op1 .movS8 target.reg (.reg target.reg))).emit
          (.op2 .add target.reg target.reg (.imm (ctx.pc.setWidth 64)))).Uncached :=
      uncached_clear ctx.toGen
    exact jumpAbs_leaves hnil _ returnAddr

variable (fuel ctx returnAddr) in
/-- A jump that inlines the next opcode. -/
theorem jump_inlines (hbyte : target.isShort = false) (hbool : target.semantics.boolean = true) :
    ∃ c : Ctx, c.Uncached ∧ c.memBase = ctx.clearStackCaches.memBase ∧
      (∀ b, Leaves b ((nextOpcode fuel c).lift Gen.clearStackCaches) →
        Leaves b (Prog.run (handle (nextOpcode fuel)) (Emit.jump target returnAddr) ctx).2) ∧
      ∀ P : Micro → Ctx → Prop,
        Prog.Along (handle (nextOpcode fuel)) P (Emit.jump target returnAddr) ctx →
          P .nextOpcode c := by
  have hjump : Emit.jump target returnAddr = (Emit.clearStackCaches >>= fun _ =>
      if target.isShort then Emit.jumpAbs target returnAddr else
        if target.semantics.boolean then Emit.jumpBoolean target
        else Emit.jumpRelative target returnAddr) := rfl
  rw [hjump, if_neg (by simp [hbyte]), if_pos hbool]
  let inner : Ctx := { ctx.lift Gen.clearStackCaches with
    labels := ctx.clearStackCaches.labels + 1 }.lift (·.emit (.cmpJump .notEqual target.reg (.imm 0)
      ctx.clearStackCaches.labels))
  exact ⟨inner, uncached_clear ctx.toGen, rfl, fun b hb => ⟨hb.1, hb.2⟩, fun P hP => hP.2.2.2.2.1⟩

end Jumps

/-! ## Opcodes -/

section Opcodes

variable {fuel : ℕ} {ctx : Ctx}

theorem handle_uncached {next : Ctx → Ctx} {o : Micro} (ho : o.plain) (hpush : ∀ v s, o ≠ .pushEx v s)
    (hctx : ctx.Uncached) : (handle next o ctx).2.Uncached := by
  have of_shrinks : ∀ {ctx' : Ctx}, (∀ s, Shrinks (ctx.cache s) (ctx'.cache s)) → ctx'.Uncached :=
    fun h s => Shrinks.nil (hctx s ▸ h s)
  cases o with
  | ask | linkEntry | setCompiler | alu | immediateJumpTarget => exact hctx
  | popEx flag2 s =>
    refine of_shrinks fun s' => ?_
    rw [handle, Ctx.popEx_toGen]
    exact Gen.shrinks_stackCachePop _ _ flag2 s'
  | pushEx v s => exact absurd rfl (hpush v s)
  | discard flag2 s => exact of_shrinks (Gen.shrinks_stackCacheDiscard _ s flag2)
  | allocReg => exact hctx.allocReg.1
  | load reg addr => exact of_shrinks fun s => by rw [handle, Ctx.lift, Gen.load_cache]
  | store addr value => exact of_shrinks fun s => by rw [handle, Ctx.lift, Gen.store_cache]
  | immediate isShort =>
    refine of_shrinks fun s => ?_
    rw [handle, Ctx.immediate_toGen, Gen.immediate_cache]
    exact ctx.toGen.shrinks_allocReg s
  | clearStackCaches => exact uncached_clear ctx.toGen
  | deviceStore addr value =>
    exact of_shrinks fun s => by rw [handle, Ctx.lift, Gen.deviceStore_cache]
  | _ => simp [Micro.plain] at ho

/-- The result of an opcode is written to the current stack at last. -/
theorem leaves_push (hctx : ctx.Uncached) (o : Operand OpReg) (s : Stk) :
    Leaves (some s.region) ((ctx.pushEx o s).lift Gen.clearStackCaches) := by
  refine ⟨uncached_clear _, .inr ?_⟩
  rw [Ctx.lift, Ctx.pushEx_toGen]
  exact hctx.clear_push o _

theorem leaves_clear (hctx : ctx.Uncached) : Leaves ctx.memBase (ctx.lift Gen.clearStackCaches) := by
  refine ⟨uncached_clear _, .inr ?_⟩
  rw [Ctx.lift, Gen.clearStackCaches_of_nil _ hctx]

@[simp] theorem store_memBase (g : Gen) (addr value : Operand OpReg) :
    (g.store addr value).memBase = some .memory := by
  unfold Gen.store
  split <;> simp

/-- The loads and the literals. -/
theorem leaves_load (hctx : ctx.Uncached) (hsp : ctx.SpRegs) {mn : Mnemonic}
    (h : mn = .LIT ∨ mn = .LDZ ∨ mn = .LDR ∨ mn = .LDA) :
    Leaves (some ctx.cur.region) ((Prog.run (handle (nextOpcode fuel)) (Emit.dispatch mn)
      ctx).2.lift Gen.clearStackCaches) := by
  have keep : ∀ (o : Micro) (c : Ctx), o.straight → o.plain → (∀ v s, o ≠ .pushEx v s) →
      c.Uncached ∧ c.SpRegs ∧ c.cur = ctx.cur → (handle (nextOpcode fuel) o c).2.Uncached ∧
        (handle (nextOpcode fuel) o c).2.SpRegs ∧ (handle (nextOpcode fuel) o c).2.cur = ctx.cur := by
    rintro o c ho hplain hpush ⟨hc, hsp, hcur⟩
    obtain ⟨hsp', hcur'⟩ := handle_cur (nextOpcode fuel) ho hsp
    exact ⟨handle_uncached hplain hpush hc, hsp', hcur'.trans hcur⟩
  have hload : ∀ (addr : Operand OpReg) (c : Ctx), c.Uncached ∧ c.SpRegs ∧ c.cur = ctx.cur →
      Leaves (some ctx.cur.region) ((Prog.run (handle (nextOpcode fuel)) (Emit.loadPush addr)
        c).2.lift Gen.clearStackCaches) := by
    intro addr c hc
    have h₁ := keep .allocReg c rfl rfl (by simp) hc
    have h₂ := keep (.load c.toGen.allocReg.1 addr) _ rfl rfl (by simp) h₁
    rw [← h₂.2.2]
    exact leaves_push h₂.1 _ _
  have hpop := fun flag2 => keep (.popEx flag2 ctx.cur) ctx rfl rfl (by simp) ⟨hctx, hsp, rfl⟩
  have halu := fun a (c : Ctx) hc => keep (.alu a) c rfl rfl (by simp) hc
  rcases h with rfl | rfl | rfl | rfl
  · have h₁ := keep (.immediate (opFlag2 ctx.currentOpcode)) ctx rfl rfl (by simp) ⟨hctx, hsp, rfl⟩
    rw [← h₁.2.2]
    exact leaves_push h₁.1 _ _
  · exact hload _ _ (hpop false)
  · exact hload _ _ (halu _ _ (halu _ _ (hpop false)))
  · exact hload _ _ (hpop true)

/-- An opcode that ends with a jump, before which `b` is tracked. -/
def EndsInJump (fuel : ℕ) (mn : Mnemonic) (ctx : Ctx) (target : Operand Reg) (returnAddr : Short)
    (b : Option Region) : Prop :=
  ∃ c : Ctx, c.clearStackCaches.memBase = b ∧
    (∀ P, Prog.Along (handle (nextOpcode fuel)) P (Emit.dispatch mn) ctx →
      Prog.Along (handle (nextOpcode fuel)) P (Emit.jump target returnAddr) c) ∧
    ∀ b, Leaves b (Prog.run (handle (nextOpcode fuel)) (Emit.jump target returnAddr) c).2 →
      Leaves b (Prog.run (handle (nextOpcode fuel)) (Emit.dispatch mn) ctx).2

theorem popEx_uncached (hctx : ctx.Uncached) (flag2 : Bool) (s : Stk) :
    (ctx.popEx flag2 s).2.Uncached ∧ (ctx.popEx flag2 s).2.memBase = some s.region := by
  rw [Ctx.popEx_toGen]
  exact hctx.stackCachePop flag2

theorem leaves_finalize {b : Option Region} {c : Ctx} (h : Leaves b c) (p : Prop) [Decidable p] :
    Leaves b (Prog.run (handle (nextOpcode fuel)) (if p then Emit.finalize else pure ()) c).2 := by
  split
  · exact h
  · exact h

variable (fuel) in
theorem endsInJump_JMP (hctx : ctx.Uncached) : EndsInJump fuel .JMP ctx
    (Emit.target (ctx.popEx (opFlag2 ctx.currentOpcode) ctx.cur).1) 0 (some ctx.cur.region) := by
  obtain ⟨hpop, hbase⟩ := popEx_uncached hctx (opFlag2 ctx.currentOpcode) ctx.cur
  refine ⟨(ctx.popEx (opFlag2 ctx.currentOpcode) ctx.cur).2, ?_, fun P h => ?_, fun b h => ?_⟩
  · rw [Gen.clearStackCaches_of_nil _ hpop, hbase]
  · have h' := ((Prog.along_bind _ _ _).mp h).2
    exact ((Prog.along_bind _ _ _).mp h').1
  · have hrun : (Prog.run (handle (nextOpcode fuel)) (Emit.dispatch .JMP) ctx).2 =
        (Prog.run (handle (nextOpcode fuel)) (do
          Emit.jump (Emit.target (ctx.popEx (opFlag2 ctx.currentOpcode) ctx.cur).1) 0
          if !(ctx.popEx (opFlag2 ctx.currentOpcode) ctx.cur).1.semantics.boolean then
            Emit.finalize)
          (ctx.popEx (opFlag2 ctx.currentOpcode) ctx.cur).2).2 := rfl
    rw [hrun, Prog.run_bind]
    exact leaves_finalize h _

variable (fuel) in
theorem endsInJump_JMI (hctx : ctx.Uncached) :
    EndsInJump fuel .JMI ctx ctx.immediateJumpTarget.1 0 ctx.memBase := by
  refine ⟨ctx.immediateJumpTarget.2, ?_, fun P h => ?_, fun b h => ?_⟩
  · rw [Gen.clearStackCaches_of_nil ctx.immediateJumpTarget.2.toGen hctx]
    rfl
  · have h' : Prog.Along (handle (nextOpcode fuel)) P (Emit.jump ctx.immediateJumpTarget.1 0 >>=
        fun _ => Emit.finalize) ctx.immediateJumpTarget.2 := h.2
    exact ((Prog.along_bind _ _ _).mp h').1
  · have hrun : (Prog.run (handle (nextOpcode fuel)) (Emit.dispatch .JMI) ctx).2 =
        (Prog.run (handle (nextOpcode fuel)) (do
          Emit.jump ctx.immediateJumpTarget.1 0
          Emit.finalize) ctx.immediateJumpTarget.2).2 := rfl
    rw [hrun, Prog.run_bind]
    exact h

/-- The conditional jumps, with their condition popped. -/
theorem conditionalJump_ends {mn : Mnemonic} {c : Ctx} {condition : Operand OpReg}
    {target : Operand Reg} {b : Option Region} (hc : c.Uncached) (hbase : c.memBase = b)
    (halong : ∀ P, Prog.Along (handle (nextOpcode fuel)) P (Emit.dispatch mn) ctx →
      Prog.Along (handle (nextOpcode fuel)) P (Emit.conditionalJump condition target) c)
    (hrun : (Prog.run (handle (nextOpcode fuel)) (Emit.dispatch mn) ctx).2 =
      (Prog.run (handle (nextOpcode fuel)) (Emit.conditionalJump condition target) c).2) :
    EndsInJump fuel mn ctx target 0 b := by
  let before : Ctx := { (c.lift Gen.clearStackCaches).lift
    (·.emit (.andFlags (.op condition.reg) 0xff)) with
    labels := c.clearStackCaches.labels + 1 }.lift (·.emit (.jumpFlag .equal
      c.clearStackCaches.labels))
  have hnil : before.Uncached := uncached_clear c.toGen
  refine ⟨before, ?_, fun P h => ?_, fun b' h => ?_⟩
  · rw [Gen.clearStackCaches_of_nil _ hnil, ← hbase]
    show c.clearStackCaches.memBase = c.memBase
    rw [Gen.clearStackCaches_of_nil _ hc]
  · have h' : Prog.Along (handle (nextOpcode fuel)) P (Emit.jump target 0 >>= fun _ =>
        Emit.emit (.label c.clearStackCaches.labels)) before := (halong P h).2.2.2.2
    exact ((Prog.along_bind _ _ _).mp h').1
  · have hcond : (Prog.run (handle (nextOpcode fuel)) (Emit.conditionalJump condition target) c).2 =
        (Prog.run (handle (nextOpcode fuel)) (Emit.jump target 0 >>= fun _ =>
          Emit.emit (.label c.clearStackCaches.labels)) before).2 := rfl
    rw [hrun, hcond, Prog.run_bind]
    exact ⟨h.1, h.2⟩

variable (fuel) in
theorem endsInJump_JCN (hctx : ctx.Uncached) : EndsInJump fuel .JCN ctx
    (Emit.target (ctx.popEx (opFlag2 ctx.currentOpcode) ctx.cur).1) 0
    (some (ctx.popEx (opFlag2 ctx.currentOpcode) ctx.cur).2.cur.region) := by
  have hpop := popEx_uncached hctx (opFlag2 ctx.currentOpcode) ctx.cur
  obtain ⟨hnil, hbase⟩ := popEx_uncached hpop.1 false
    (ctx.popEx (opFlag2 ctx.currentOpcode) ctx.cur).2.cur
  refine conditionalJump_ends hnil hbase (fun P h => ?_) rfl
  exact (((Prog.along_bind _ _ _).mp h).2).2.2

variable (fuel) in
theorem endsInJump_JCI (hctx : ctx.Uncached) : EndsInJump fuel .JCI ctx
    (ctx.popEx false .wst).2.immediateJumpTarget.1 0 (some .ws) := by
  obtain ⟨hnil, hbase⟩ := popEx_uncached hctx false .wst
  exact conditionalJump_ends (c := (ctx.popEx false .wst).2.immediateJumpTarget.2) hnil hbase
    (fun P h => h.2.2) rfl

/-- The calls, with their target known. -/
theorem callTo_ends {mn : Mnemonic} {c : Ctx} {target : Operand Reg} {s : Stk} (hc : c.Uncached)
    (halong : ∀ P, Prog.Along (handle (nextOpcode fuel)) P (Emit.dispatch mn) ctx →
      Prog.Along (handle (nextOpcode fuel)) P (Emit.callTo target s) c)
    (hrun : (Prog.run (handle (nextOpcode fuel)) (Emit.dispatch mn) ctx).2 =
      (Prog.run (handle (nextOpcode fuel)) (Emit.callTo target s) c).2) :
    EndsInJump fuel mn ctx target c.pc (some s.region) := by
  let c₁ : Ctx := (c.liftReg Gen.allocReg).2.lift
    (·.emit (.op1 .movU16 (.op c.toGen.allocReg.1) (.imm (c.pc.setWidth 64))))
  let pushed : Ctx := c₁.pushEx ⟨.none, true, 0, c.toGen.allocReg.1⟩ s
  have hnil : c₁.Uncached := hc.allocReg.1
  refine ⟨pushed, ?_, fun P h => ?_, fun b h => ?_⟩
  · rw [Ctx.pushEx_toGen]
    exact hnil.clear_push _ _
  · exact (halong P h).2.2.2.2.2
  · rw [hrun]
    exact h

variable (fuel) in
theorem endsInJump_JSI (hctx : ctx.Uncached) :
    EndsInJump fuel .JSI ctx ctx.immediateJumpTarget.1 (ctx.pc + 2) (some .rs) :=
  callTo_ends (c := ctx.immediateJumpTarget.2) (s := .rst) hctx (fun _ h => h.2) rfl

variable (fuel) in
theorem endsInJump_JSR (hctx : ctx.Uncached) : EndsInJump fuel .JSR ctx
    (Emit.target (ctx.popEx (opFlag2 ctx.currentOpcode) ctx.cur).1)
    (ctx.popEx (opFlag2 ctx.currentOpcode) ctx.cur).2.pc
    (some (ctx.popEx (opFlag2 ctx.currentOpcode) ctx.cur).2.cur.other.region) :=
  callTo_ends (popEx_uncached hctx _ _).1
    (fun _ h => (((Prog.along_bind _ _ _).mp h).2).2) rfl

/-- What the induction on the depth of the inlining shows of an opcode. -/
def Foreseen (fuel : ℕ) (ctx : Ctx) : Prop :=
  (Forgets fuel ctx → Leaves none ((nextOpcode fuel ctx).lift Gen.clearStackCaches)) ∧
    (Skippable fuel .nextOpcode ctx →
      Leaves ctx.memBase ((nextOpcode fuel ctx).lift Gen.clearStackCaches))

/-- What is assumed of an operation, and of the opcode that it inlines. -/
abbrev AlongSkippable (fuel : ℕ) (o : Micro) (ctx : Ctx) : Prop :=
  Skippable fuel o ctx ∧ (o = .nextOpcode → AlongOpcode Skippable fuel ctx)

variable (ih : ∀ c : Ctx, c.Uncached → AlongOpcode Skippable fuel c → Foreseen fuel c)

include ih

theorem jump_foreseen {target : Operand Reg} {returnAddr : Short}
    (halong : Prog.Along (handle (nextOpcode fuel)) (AlongSkippable fuel)
      (Emit.jump target returnAddr) ctx) :
    Leaves ctx.clearStackCaches.memBase
      (Prog.run (handle (nextOpcode fuel)) (Emit.jump target returnAddr) ctx).2 := by
  by_cases h : target.isShort = false ∧ target.semantics.boolean = true
  · obtain ⟨c, hc, hbase, hleaves, hinner⟩ := jump_inlines fuel ctx returnAddr
      h.1 h.2
    obtain ⟨hskip, hopcode⟩ := hinner _ halong
    exact (hleaves _ ((ih c hc (hopcode rfl)).2 hskip)).mono hbase
  · obtain ⟨hnil, hbase⟩ := jump_leaves fuel ctx returnAddr h
    refine ⟨hnil, ?_⟩
    rw [hbase]
    split
    exacts [.inl rfl, .inr rfl]

theorem jump_forgets {target : Operand Reg} {returnAddr : Short}
    (h : target.isShort = false ∧ target.semantics.boolean = true)
    (halong : Prog.Along (handle (nextOpcode fuel)) (AlongSkippable fuel)
      (Emit.jump target returnAddr) ctx)
    (hforgets : Prog.Along (handle (nextOpcode fuel)) (fun o c => o = .nextOpcode → Forgets fuel c)
      (Emit.jump target returnAddr) ctx) :
    Leaves none (Prog.run (handle (nextOpcode fuel)) (Emit.jump target returnAddr) ctx).2 := by
  obtain ⟨c, hc, hbase, hleaves, hinner⟩ := jump_inlines fuel ctx returnAddr
    h.1 h.2
  exact hleaves _ ((ih c hc ((hinner _ halong).2 rfl)).1 (hinner _ hforgets rfl))

omit ih in
theorem leaves_STH (hctx : ctx.Uncached) (hsp : ctx.SpRegs) : Leaves (some ctx.cur.other.region)
    ((Prog.run (handle (nextOpcode fuel)) (Emit.dispatch .STH) ctx).2.lift
      Gen.clearStackCaches) := by
  have hcur := (handle_cur (nextOpcode fuel)
    (o := .popEx (opFlag2 ctx.currentOpcode) ctx.cur) rfl hsp).2
  rw [← hcur]
  exact leaves_push (popEx_uncached hctx _ _).1 _ _

omit ih in
theorem leaves_store (hctx : ctx.Uncached) {mn : Mnemonic}
    (h : mn = .STZ ∨ mn = .STR ∨ mn = .STA) : Leaves (some .memory)
      ((Prog.run (handle (nextOpcode fuel)) (Emit.dispatch mn) ctx).2.lift
        Gen.clearStackCaches) := by
  have hstore : ∀ (c : Ctx) (addr value : Operand OpReg), c.Uncached →
      Leaves (some .memory) ((c.lift (·.store addr value)).lift Gen.clearStackCaches) := by
    intro c addr value hc
    have hc' : (c.lift (·.store addr value)).Uncached := fun s => by
      rw [Ctx.lift, Gen.store_cache, hc s]
    exact (leaves_clear hc').mono (store_memBase _ _ _)
  have hpops : ∀ flag2 : Bool, ∀ s s' flag2', ((ctx.popEx flag2 s).2.popEx flag2' s').2.Uncached :=
    fun flag2 s s' flag2' => (popEx_uncached (popEx_uncached hctx flag2 s).1 flag2' s').1
  rcases h with rfl | rfl | rfl
  · exact hstore _ _ _ (hpops false _ _ _)
  · refine hstore ((((ctx.popEx false ctx.cur).2.popEx (opFlag2
      (ctx.popEx false ctx.cur).2.currentOpcode) (ctx.popEx false ctx.cur).2.cur).2.lift
        (·.emit _)).lift (·.emit _)) _ _ ?_
    exact hpops false _ _ _
  · exact hstore _ _ _ (hpops true _ _ _)

omit ih in
theorem leaves_POP (hctx : ctx.Uncached) : Leaves ctx.memBase
    ((Prog.run (handle (nextOpcode fuel)) (Emit.dispatch .POP) ctx).2.lift
      Gen.clearStackCaches) := by
  have hrun : (Prog.run (handle (nextOpcode fuel)) (Emit.dispatch .POP) ctx).2 =
      if opFlagK ctx.currentOpcode then ctx
      else ctx.discard (opFlag2 ctx.currentOpcode) ctx.cur := by
    have hpop : (Prog.run (handle (nextOpcode fuel)) (Emit.dispatch .POP) ctx).2 =
        (Prog.run (handle (nextOpcode fuel)) (if opFlagK ctx.currentOpcode then pure ()
          else do Prog.perform (F := micro) (.discard (← Emit.flag2) (← Emit.cur))) ctx).2 := rfl
    rw [hpop]
    split <;> rfl
  rw [hrun]
  split
  · exact leaves_clear hctx
  · have hdiscard : (ctx.discard (opFlag2 ctx.currentOpcode) ctx.cur).toGen =
        ctx.toGen.discardFromMem (opFlag2 ctx.currentOpcode) ctx.cur := by
      rw [Ctx.discard_toGen]
      cases opFlag2 ctx.currentOpcode <;>
        simp [Gen.stackCacheDiscard, Gen.stackCacheDiscardByte, hctx ctx.cur]
    have hnil : (ctx.discard (opFlag2 ctx.currentOpcode) ctx.cur).Uncached := by
      rw [hdiscard]
      exact hctx
    refine (leaves_clear hnil).mono ?_
    rw [hdiscard]
    rfl

omit ih in
/-- Behind its callback DEI tracks no base, until its result is written. -/
theorem leaves_callDevice (hctx : ctx.Uncached) (h : Helper) (addr : OpReg)
    (result : Option OpReg) (o : Operand OpReg) : Leaves (some ctx.cur.region)
      (((ctx.lift (·.callDevice h addr result)).pushEx o
        (ctx.lift (·.callDevice h addr result)).cur).lift Gen.clearStackCaches) := by
  have hnil : (ctx.lift (·.callDevice h addr result)).Uncached := fun s => by
    rw [Ctx.lift, Gen.callDevice_cache, hctx s]
  have hcur : (ctx.lift (·.callDevice h addr result)).cur = ctx.cur := Gen.callDevice_cur _ _ _ _
  rw [hcur]
  exact leaves_push hnil _ _

omit ih in
theorem leaves_DEI (hsp : ctx.SpRegs) : Leaves (some ctx.cur.region)
    ((Prog.run (handle (nextOpcode fuel)) (Emit.dispatch .DEI) ctx).2.lift
      Gen.clearStackCaches) := by
  have hpop := handle_emits (nextOpcode fuel) (o := .popEx false ctx.cur) rfl hsp
  have halloc := Gen.emits_allocReg (ctx.popEx false ctx.cur).2.toGen
  have hclear := (Gen.spills_clearStackCaches
    ((ctx.popEx false ctx.cur).2.liftReg Gen.allocReg).2.toGen).emits.loose
  have hcur : (((ctx.popEx false ctx.cur).2.liftReg Gen.allocReg).2.lift
      Gen.clearStackCaches).cur = ctx.cur :=
    Gen.Emits.cur ((hpop.trans halloc.loose).trans hclear)
  rw [← hcur]
  exact leaves_callDevice (uncached_clear _) _ _ _ _

omit ih in
theorem leaves_BRK (hctx : ctx.Uncached) : Leaves ctx.memBase
    ((Prog.run (handle (nextOpcode fuel)) (Emit.dispatch .BRK) ctx).2.lift
      Gen.clearStackCaches) := by
  have hbase : ctx.clearStackCaches.memBase = ctx.memBase := by
    rw [Gen.clearStackCaches_of_nil _ hctx]
  have hnil : ({ (ctx.lift Gen.clearStackCaches).lift (·.emit (.ret (.imm 0x10000))) with
      compiler := none } : Ctx).Uncached := uncached_clear ctx.toGen
  exact (leaves_clear hnil).mono hbase

omit ih in
/-- DEO ends with its callback. -/
theorem leaves_DEO : Leaves none
    ((Prog.run (handle (nextOpcode fuel)) (Emit.dispatch .DEO) ctx).2.lift
      Gen.clearStackCaches) := by
  have hcall : ∀ (c : Ctx) (h : Helper) (addr : OpReg), c.Uncached →
      Leaves none ((c.lift (·.callDevice h addr none)).lift Gen.clearStackCaches) := by
    intro c h addr hc
    have hnil : (c.lift (·.callDevice h addr none)).Uncached := fun s => by
      rw [Ctx.lift, Gen.callDevice_cache, hc s]
    exact (leaves_clear hnil).mono (Gen.callDevice_memBase _ _ _ _)
  exact hcall _ _ _ (uncached_clear _)

omit ih in
theorem leaves_onCur (hctx : ctx.Uncached) (hsp : ctx.SpRegs) {mn : Mnemonic} (hmn : mn.onCur)
    (hbase : some ctx.cur.region = ctx.memBase) : Leaves ctx.memBase
      ((Prog.run (handle (nextOpcode fuel)) (Emit.dispatch mn) ctx).2.lift
        Gen.clearStackCaches) := by
  have hon : Gen.On ctx.cur ctx.toGen := ⟨hctx _, hbase.symm⟩
  have hrun := (run_onCur (nextOpcode fuel) hmn hsp hon).clearStackCaches
  exact ⟨uncached_clear _, .inr (hrun.base.trans hbase)⟩

omit ih in
/-- The opcodes that neither jump nor end with a callback. -/
theorem leaves_dispatch (hctx : ctx.Uncached) (hsp : ctx.SpRegs) {mn : Mnemonic}
    (hmn : mn.straight ∨ mn = .BRK ∨ mn = .DEI)
    (hb : mn.lastAccess ctx.cur = none ∨ mn.lastAccess ctx.cur = ctx.memBase) :
    Leaves ctx.memBase ((Prog.run (handle (nextOpcode fuel)) (Emit.dispatch mn) ctx).2.lift
      Gen.clearStackCaches) := by
  cases mn
  case BRK => exact leaves_BRK hctx
  case POP => exact leaves_POP hctx
  case DEI => exact (leaves_DEI hsp).mono (hb.resolve_left (Option.some_ne_none _))
  case STH => exact (leaves_STH hctx hsp).mono (hb.resolve_left (Option.some_ne_none _))
  case STZ | STR | STA =>
    exact (leaves_store hctx (by simp)).mono (hb.resolve_left (Option.some_ne_none _))
  case LIT | LDZ | LDR | LDA =>
    exact (leaves_load hctx hsp (by simp)).mono (hb.resolve_left (Option.some_ne_none _))
  case JCI | JMI | JSI | JMP | JCN | JSR | DEO => simp [Mnemonic.straight] at hmn
  all_goals exact leaves_onCur hctx hsp rfl (hb.resolve_left (Option.some_ne_none _))

omit ih in
theorem Leaves.clear {b : Option Region} {c : Ctx} (h : Leaves b c) :
    Leaves b (c.lift Gen.clearStackCaches) := by
  refine ⟨uncached_clear _, ?_⟩
  rw [Ctx.lift, Gen.clearStackCaches_of_nil _ h.1]
  exact h.2

theorem leaves_of_ends {mn : Mnemonic} {target : Operand Reg} {returnAddr : Short}
    {b : Option Region} (hend : EndsInJump fuel mn ctx target returnAddr b)
    (halong : Prog.Along (handle (nextOpcode fuel)) (AlongSkippable fuel) (Emit.dispatch mn) ctx) :
    Leaves b ((Prog.run (handle (nextOpcode fuel)) (Emit.dispatch mn) ctx).2.lift
      Gen.clearStackCaches) := by
  obtain ⟨c, hbase, halong', hleaves⟩ := hend
  exact (hleaves b ((jump_foreseen ih (halong' _ halong)).mono hbase)).clear

theorem forgets_of_ends {mn : Mnemonic} {target : Operand Reg} {returnAddr : Short}
    {b : Option Region} (hend : EndsInJump fuel mn ctx target returnAddr b)
    (h : target.isShort = false ∧ target.semantics.boolean = true)
    (halong : Prog.Along (handle (nextOpcode fuel)) (AlongSkippable fuel) (Emit.dispatch mn) ctx)
    (hforgets : Prog.Along (handle (nextOpcode fuel)) (fun o c => o = .nextOpcode → Forgets fuel c)
      (Emit.dispatch mn) ctx) :
    Leaves none ((Prog.run (handle (nextOpcode fuel)) (Emit.dispatch mn) ctx).2.lift
      Gen.clearStackCaches) := by
  obtain ⟨c, -, halong', hleaves⟩ := hend
  exact (hleaves none (jump_forgets ih h (halong' _ halong) (halong' _ hforgets))).clear

omit ih in
/-- A call to a known target. -/
theorem call_of_ends {mn : Mnemonic} {target : Operand Reg} {returnAddr : Short}
    {b : Option Region} (hend : EndsInJump fuel mn ctx target returnAddr b)
    (h : ¬(target.isShort = false ∧ target.semantics.boolean = true))
    (hconst : target.semantics.const = true) (hret : returnAddr ≠ 0) :
    Leaves none ((Prog.run (handle (nextOpcode fuel)) (Emit.dispatch mn) ctx).2.lift
      Gen.clearStackCaches) := by
  obtain ⟨c, -, -, hleaves⟩ := hend
  obtain ⟨hnil, hbase⟩ := jump_leaves fuel c returnAddr h
  refine (hleaves none ⟨hnil, .inl ?_⟩).clear
  rw [hbase, if_pos]
  simpa using ⟨hconst, hret⟩

end Opcodes

section

variable {fuel : ℕ}

theorem Ctx.jumpOperand_eq (ctx : Ctx) : ctx.jumpOperand =
    (ctx.beginOpcode.popEx (opFlag2 ctx.beginOpcode.currentOpcode) ctx.beginOpcode.cur).1 := by
  rw [jumpOperand, Ctx.beginOpcode_currentOpcode]

theorem Ctx.jumpsByBoolean_iff (ctx : Ctx) : ctx.jumpsByBoolean = true ↔
    (Emit.target ctx.jumpOperand).isShort = false ∧
      (Emit.target ctx.jumpOperand).semantics.boolean = true := by
  simp [jumpsByBoolean, Emit.target]

/-- **Foresight.** What is tracked behind an opcode that is compiled with empty caches is known
before. The induction is on the depth of the inlining. -/
theorem foreseen_nextOpcode (fuel : ℕ) : ∀ c : Ctx, c.Uncached →
    AlongOpcode Skippable fuel c → Foreseen fuel c := by
  induction fuel with
  | zero => exact fun c hc _ => ⟨False.elim, fun _ => leaves_clear hc⟩
  | succ fuel ih =>
    intro c hc halong
    rcases Nat.lt_or_ge c.pc.toNat 256 with hpc | hpc
    · have hzero : c.pc < 256 := BitVec.lt_def.mpr hpc
      have hnext : nextOpcode (fuel + 1) c = c.leaveZeroPage := by
        rw [nextOpcode, if_pos hzero]
      refine ⟨fun h => absurd hzero (BitVec.not_lt.mpr h.1), fun _ => ?_⟩
      rw [hnext]
      have hbase : c.clearStackCaches.memBase = c.memBase := by
        rw [Gen.clearStackCaches_of_nil _ hc]
      exact Leaves.clear ⟨uncached_clear c.toGen, .inr hbase⟩
    · have hle : 256 ≤ c.pc := BitVec.le_def.mpr hpc
      have hdispatch := halong.resolve_left (BitVec.not_lt.mpr hle)
      obtain ⟨hnil, hbase⟩ := hc.beginOpcode (c.jit.memory c.pc)
      have hsp : c.beginOpcode.SpRegs := c.toGen.spRegs_beginOpcode (c.jit.memory c.pc)
      have hcur := c.toGen.beginOpcode_cur (c.jit.memory c.pc)
      have hoperand := c.jumpOperand_eq
      rw [Foreseen, nextOpcode_of_le fuel hle]
      suffices h : (Forgets (fuel + 1) c → Leaves none _) ∧
          (lastAccess (c.jit.memory c.pc) = none ∨ lastAccess (c.jit.memory c.pc) = c.memBase →
            Leaves c.memBase _) by
        refine ⟨h.1, fun hskip => ?_⟩
        rcases hskip rfl with hlt | hnone | hsame | hforgets
        · exact absurd hlt (BitVec.not_lt.mpr hle)
        · exact h.2 (.inl hnone)
        · exact h.2 (.inr hsame)
        · exact ⟨(h.1 hforgets).1, .inl ((h.1 hforgets).2.elim id id)⟩
      rw [Forgets, lastAccess, ← hcur, ← hbase]
      have hbool := c.jumpsByBoolean_iff
      rw [hoperand] at hbool ⊢
      have hnil' : c.beginOpcode.Uncached := hnil
      have hpc' : c.beginOpcode.pc = c.pc + 1 := rfl
      change (_ → Leaves none _) ∧ (Mnemonic.lastAccess c.beginOpcode.cur _ = none ∨
        Mnemonic.lastAccess c.beginOpcode.cur _ = c.beginOpcode.memBase →
          Leaves c.beginOpcode.memBase _)
      have hpopcur := (handle_cur (nextOpcode fuel) (o := .popEx (opFlag2
        c.beginOpcode.currentOpcode) c.beginOpcode.cur) rfl hsp).2
      change (c.beginOpcode.popEx _ _).2.cur = _ at hpopcur
      generalize decode (c.jit.memory c.pc) = mn at hdispatch ⊢
      generalize c.beginOpcode = c₀ at *
      cases mn
      case JMP =>
        have hend := endsInJump_JMP fuel hnil'
        exact ⟨fun h => forgets_of_ends ih hend (hbool.mp h.2.1) hdispatch h.2.2,
          fun h => (leaves_of_ends ih hend hdispatch).mono (h.resolve_left (Option.some_ne_none _))⟩
      case JCN =>
        have hend := endsInJump_JCN fuel hnil'
        rw [hpopcur] at hend
        exact ⟨fun h => forgets_of_ends ih hend (hbool.mp h.2.1) hdispatch h.2.2,
          fun h => (leaves_of_ends ih hend hdispatch).mono (h.resolve_left (Option.some_ne_none _))⟩
      case JSR =>
        have hend := endsInJump_JSR fuel hnil'
        rw [hpopcur] at hend
        refine ⟨fun h => ?_,
          fun h => (leaves_of_ends ih hend hdispatch).mono (h.resolve_left (Option.some_ne_none _))⟩
        by_cases hb : c.jumpsByBoolean = true
        · exact forgets_of_ends ih hend (hbool.mp hb) hdispatch (by simpa [hb] using h.2)
        · have hcall : (c₀.popEx (opFlag2 c₀.currentOpcode) c₀.cur).1.semantics.const = true ∧
              c.pc + 1 ≠ 0 := by simpa [hb] using h.2
          refine call_of_ends hend (fun h' => hb (hbool.mpr h')) hcall.1 ?_
          rw [Ctx.popEx_pc, hpc']
          exact hcall.2
      case JMI =>
        exact ⟨fun h => h.2.elim, fun _ => leaves_of_ends ih (endsInJump_JMI fuel hnil') hdispatch⟩
      case JCI =>
        exact ⟨fun h => h.2.elim, fun h => (leaves_of_ends ih (endsInJump_JCI fuel hnil') hdispatch).mono
          (h.resolve_left (Option.some_ne_none _))⟩
      case JSI =>
        have hend := endsInJump_JSI fuel hnil'
        refine ⟨fun h => call_of_ends hend (by simp [Ctx.immediateJumpTarget]) rfl ?_,
          fun h => (leaves_of_ends ih hend hdispatch).mono (h.resolve_left (Option.some_ne_none _))⟩
        rw [hpc', add_assoc]
        exact h.2
      case DEO =>
        refine ⟨fun _ => leaves_DEO, fun _ => ?_⟩
        exact ⟨leaves_DEO.1, .inl (leaves_DEO.2.elim id id)⟩
      all_goals
        exact ⟨fun h => h.2.elim, fun h => leaves_dispatch hnil' hsp (by simp [Mnemonic.straight]) h⟩

end

end BuxnJit
