import BuxnJit.Jit.Constants
import BuxnJit.Jit.Depth
import BuxnJit.Uxn.Effect

/-!
# Conservation of the stack depth

The depth of a stack, counted from the block entry on, against the compile-time pointer
(`Ctx.surplus`) and the stack effect of the opcodes in the reference.

Every micro operation moves depth and pointer alike (`handle_surplus`), but for a byte pop that
splits a short cell and misses it, since the allocation spilled cells from below: the depth is then
one too large. An opcode pops three times at most, so that no misses can cancel each other before
its end (`depth_conserved_iff`).
-/

namespace BuxnJit

open Foundations Prog

/-! ## Pops that miss -/

/-- The pop moves the stack, and misses the cell that it splits. -/
def Micro.Misses : Micro → Ctx → Prop
  | .popEx flag2 s, ctx => opFlagK ctx.currentOpcode = false ∧ ctx.misses flag2 s = true
  | _, _ => False

instance (o : Micro) (ctx : Ctx) : Decidable (o.Misses ctx) :=
  match o with
  | .popEx flag2 s => inferInstanceAs
      (Decidable (opFlagK ctx.currentOpcode = false ∧ ctx.misses flag2 s = true))
  | .ask | .pushEx .. | .discard .. | .allocReg | .alu _ | .divide .. | .load .. | .store ..
  | .immediate _ | .clearStackCaches | .deviceStore .. | .callDevice .. | .immediateJumpTarget
  | .newLabel | .emit _ | .forgetMemBase | .linkEntry .. | .nextOpcode | .setCompiler _ =>
    .isFalse id

/-- No pop of the sequence misses a cell that it splits. -/
def NeverMisses (fuel n : ℕ) (ctx : Ctx) : Prop := AlongOpcodes fuel (fun o c => ¬o.Misses c) n ctx

def Micro.pops : Micro → Bool
  | .popEx .. | .discard .. => true
  | _ => false

def Micro.pushes : Micro → Bool
  | .pushEx .. => true
  | _ => false

section Shape

open Emit

attribute [local simp] dispatch LIT INC POP NIP SWP ROT DUP OVR EQU NEQ GTH LTH STH LDZ STZ LDR STR
  LDA STA ADD SUB MUL DIV AND ORA EOR SFT arith compareOp loadPush relative pop popByte push popEx
  pushEx allocReg alu wrapAround flag2 cur ask perform Prog.bind bind_eq pure_eq ite_bind

/-- A straight-line opcode pops three times at most, and before it pushes. -/
theorem phased_straight {mn : Mnemonic} (h : mn.straight) :
    Phased (F := micro) Micro.pops Micro.pushes 3 (dispatch mn) := by
  cases mn <;> first
    | simp [Mnemonic.straight] at h; done
    | simp [Phased, Only, Micro.pops, Micro.pushes, phased_ite]

end Shape

/-! ## Compile-time pointers -/

namespace Ctx

variable (ctx : Ctx) (flag2 : Bool) (s s' : Stk)

theorem popValue_ptr : (ctx.popValue s).2.ptr s' =
    ctx.ptr s' - if s' = s then Gen.popped ctx.shadow.isSome 1 else 0 := by
  unfold popValue ePtr Gen.popped
  cases ctx.shadow with
  | none =>
    by_cases hs : s' = s
    · subst hs
      simp
    · simp [hs]
  | some p => simp

theorem popValue_keeps : (ctx.popValue s).2.shadow.isSome = ctx.shadow.isSome := by
  unfold popValue
  cases ctx.shadow <;> rfl

theorem popEx_shadow : (ctx.popEx flag2 s).2.shadow = (ctx.popSemantics flag2 s).2.shadow := rfl

theorem popEx_keeps : (ctx.popEx flag2 s).2.shadow.isSome = ctx.shadow.isSome := by
  rw [popEx_shadow, popSemantics_snd]
  split
  · rw [popValue_keeps, popValue_keeps]
  · rw [popValue_keeps]

theorem popEx_ptr : (ctx.popEx flag2 s).2.ptr s' = ctx.ptr s' -
    if s' = s then Gen.popped ctx.shadow.isSome (if flag2 then 2 else 1) else 0 := by
  have hptr : (ctx.popEx flag2 s).2.ptr = (ctx.popSemantics flag2 s).2.ptr := rfl
  have htwo : Gen.popped ctx.shadow.isSome 2 =
      Gen.popped ctx.shadow.isSome 1 + Gen.popped ctx.shadow.isSome 1 := Gen.popped_add 1 1
  rw [hptr, popSemantics_snd]
  cases flag2 with
  | false => exact ctx.popValue_ptr s s'
  | true =>
    simp only [if_true, popValue_ptr, popValue_keeps, htwo, sub_sub]
    by_cases hs : s' = s <;> simp [hs]

theorem pushEx_ptr (o : Operand OpReg) : (ctx.pushEx o s).ptr s' =
    ctx.ptr s' + if s' = s then (o.size : Byte) else 0 := by
  have hvalue : ∀ (c : Ctx) (v : Value),
      (c.pushValue s v).ptr s' = c.ptr s' + if s' = s then 1 else 0 := by
    intro c v
    by_cases hs : s' = s
    · subst hs
      simp [pushValue]
    · simp [pushValue, hs]
  unfold pushEx Operand.size
  simp only
  cases o.isShort with
  | false =>
    refine (hvalue _ _).trans ?_
    simp [lift]
  | true =>
    refine (hvalue _ _).trans ?_
    rw [hvalue, add_assoc]
    by_cases hs : s' = s <;> simp [hs, lift]

theorem pushEx_shadow (o : Operand OpReg) : (ctx.pushEx o s).shadow = ctx.shadow := by
  unfold pushEx
  simp only
  split <;> rfl

theorem discard_ptr : (ctx.discard flag2 s).ptr s' =
    ctx.ptr s' - if s' = s then (if flag2 then 2 else 1) else 0 := by
  by_cases hs : s' = s
  · subst hs
    simp [discard, lift]
  · simp [discard, lift, hs]

/-- By how much the depth of a stack exceeds the compile-time pointer. -/
def surplus (E : Env) (σ₀ : Mach) (ctx : Ctx) (s : Stk) : Byte :=
  ctx.toGen.depth E σ₀ s - ctx.ptr s

end Ctx

/-! ## Micro operations -/

/-- While the opcode `op` is compiled. -/
structure Engaged (E : Env) (σ₀ : Mach) (op : Byte) (ctx : Ctx) : Prop where
  running : (ctx.toGen.mach E σ₀).status = .running
  spRegs : ctx.SpRegs
  opcode : ctx.currentOpcode = op
  keep : ctx.shadow.isSome = opFlagK op
  first : ∀ s, WrittenFirst (ctx.cache s)

section Operations

variable {E : Env} {σ₀ : Mach} {op : Byte} {next : Ctx → Ctx} {o : Micro} {c : Ctx}

/-- Operations but pushes take away from the caches only. -/
theorem handle_shrinks (ho : o.straight) (hpush : o.pushes = false) (s : Stk) :
    Shrinks (c.cache s) ((handle next o c).2.cache s) := by
  cases o with
  | ask => exact .refl
  | popEx flag2 s' =>
    rw [handle, Ctx.popEx_toGen]
    exact c.toGen.shrinks_stackCachePop s' flag2 s
  | pushEx operand s' => simp [Micro.pushes] at hpush
  | discard flag2 s' => exact c.toGen.shrinks_stackCacheDiscard s' flag2 s
  | allocReg => exact c.toGen.shrinks_allocReg s
  | alu a => exact .refl
  | divide a b d => rw [handle, Ctx.lift, Gen.divide_cache]
  | load reg addr => rw [handle, Ctx.lift, Gen.load_cache]
  | store addr value => rw [handle, Ctx.lift, Gen.store_cache]
  | immediate isShort =>
    rw [handle, Ctx.immediate_toGen, Gen.immediate_cache]
    exact c.toGen.shrinks_allocReg s
  | _ => simp [Micro.straight] at ho

theorem handle_first (ho : o.straight) (h : ∀ s, WrittenFirst (c.cache s)) (s : Stk) :
    WrittenFirst ((handle next o c).2.cache s) := by
  cases hpush : o.pushes with
  | false => exact (h s).shrinks (handle_shrinks ho hpush s)
  | true =>
    cases o with
    | pushEx operand s' =>
      obtain ⟨cs, hcs, hcache⟩ :=
        (c.toGen.assert (c.refCounts operand.reg != 0)).stackCachePush_cache s' operand
      rw [handle, Ctx.pushEx_toGen, hcache]
      by_cases hs : s = s'
      · subst hs
        rw [Function.update_self]
        exact ((h s).shrinks hcs).concat rfl
      · rw [Function.update_of_ne hs]
        exact h s
    | _ => simp [Micro.pushes] at hpush

theorem handle_keeps (ho : o.straight) :
    (handle next o c).2.shadow.isSome = c.shadow.isSome := by
  cases o with
  | popEx flag2 s => exact c.popEx_keeps flag2 s
  | pushEx operand s => rw [handle, Ctx.pushEx_shadow]
  | ask | discard | allocReg | alu | divide | load | store | immediate =>
    simp [handle, Ctx.lift, Ctx.liftReg, Ctx.discard, Ctx.immediate]
  | _ => simp [Micro.straight] at ho

theorem handle_ptr (ho : o.straight) (hpop : o.pops = false) (hpush : o.pushes = false) :
    (handle next o c).2.ptr = c.ptr := by
  cases o with
  | popEx | discard => simp [Micro.pops] at hpop
  | pushEx => simp [Micro.pushes] at hpush
  | ask | allocReg | alu | divide | load | store | immediate =>
    simp [handle, Ctx.lift, Ctx.liftReg, Ctx.immediate]
  | _ => simp [Micro.straight] at ho

theorem handle_engaged (ho : o.straight) (h : Engaged E σ₀ op c) :
    Engaged E σ₀ op (handle next o c).2 := by
  by_cases hplain : o.plain
  · have hemits := handle_emits next hplain h.spRegs
    exact ⟨(Gen.status_of_emits hemits).trans h.running, spRegs_of_emits h.spRegs hemits,
      hemits.currentOpcode.trans h.opcode, (handle_keeps ho).trans h.keep, handle_first ho h.first⟩
  · cases o with
    | divide a b d =>
      have hrun := (Gen.mach_divide (g := c.toGen) a b d h.running).1
      refine ⟨hrun, fun s => ?_, ?_, (handle_keeps ho).trans h.keep, handle_first ho h.first⟩
      · rw [handle, Ctx.lift, Gen.divide_spReg]
        exact h.spRegs s
      · rw [handle, Ctx.lift, Gen.divide_currentOpcode]
        exact h.opcode
    | _ => simp [Micro.straight, Micro.plain] at ho hplain

/-- **One micro operation** moves the depth as it does the pointer, but for a pop that misses. -/
theorem handle_surplus (ho : o.straight) (hcur : o.Current c) (h : Engaged E σ₀ op c)
    (hpop : o.pops → Gen.Popping c.cur c.toGen (opFlagK op)) (s : Stk) :
    (handle next o c).2.surplus E σ₀ s =
      c.surplus E σ₀ s + if s = c.cur ∧ o.Misses c then 1 else 0 := by
  have hsame : ∀ {c' : Ctx}, c'.toGen.depth E σ₀ s = c.toGen.depth E σ₀ s → c'.ptr = c.ptr →
      ¬o.Misses c → c'.surplus E σ₀ s =
        c.surplus E σ₀ s + if s = c.cur ∧ o.Misses c then 1 else 0 := by
    intro c' hdepth hptr hmiss
    rw [if_neg fun hand => hmiss hand.2, add_zero, Ctx.surplus, hdepth, hptr, Ctx.surplus]
  have hptr : o.pops = false → o.pushes = false → (handle next o c).2.ptr = c.ptr := handle_ptr ho
  cases o with
  | ask => exact hsame rfl rfl id
  | popEx flag2 s' =>
    obtain rfl : s' = c.cur := hcur
    have hmiss : (Micro.popEx flag2 c.cur).Misses c ↔ (!opFlagK op && c.misses flag2 c.cur) := by
      rw [Micro.Misses, h.opcode]
      simp
    rw [handle, Ctx.surplus, Ctx.popEx_toGen, Ctx.popEx_ptr, h.keep,
      Gen.depth_stackCachePop h.running (hpop rfl), Ctx.surplus]
    by_cases hs : s = c.cur
    · have hsub : ∀ d p m q : Byte, d - (p - m) - (q - p) = d - q + m := by
        intros
        abel
      simp only [hs, true_and, hmiss, Gen.missed]
      exact hsub _ _ _ _
    · simp only [hs, false_and, if_false, sub_zero, add_zero]
  | pushEx operand s' =>
    have hrun : ((c.toGen.assert (c.refCounts operand.reg != 0)).mach E σ₀).status = .running :=
      h.running
    have hassert : (c.toGen.assert (c.refCounts operand.reg != 0)).depth E σ₀ s =
      c.toGen.depth E σ₀ s := rfl
    rw [if_neg fun hand => hand.2, add_zero, handle, Ctx.surplus, Ctx.pushEx_toGen, Ctx.pushEx_ptr,
      Gen.depth_stackCachePush hrun, hassert, add_sub_add_right_eq_sub, Ctx.surplus]
  | discard flag2 s' =>
    obtain ⟨rfl, hk⟩ := hcur
    have hkeep : opFlagK op = false := h.opcode ▸ hk
    have hpop' := hpop rfl
    rw [hkeep] at hpop'
    rw [if_neg fun hand => hand.2, add_zero, handle, Ctx.surplus, Ctx.discard_toGen,
      Ctx.discard_ptr, Gen.depth_stackCacheDiscard h.running hpop', sub_sub_sub_cancel_right,
      Ctx.surplus]
  | allocReg => exact hsame (Gen.depth_allocReg h.running s) (hptr rfl rfl) id
  | alu a => exact hsame (Gen.depth_of_emits (Gen.unmoving_alu _ a) rfl s) (hptr rfl rfl) id
  | divide a b d => exact hsame (Gen.depth_divide h.running a b d s) (hptr rfl rfl) id
  | load reg addr =>
    exact hsame (Gen.depth_of_emits (Gen.unmoving_load _ reg addr) (Gen.load_cache _ _ _) s)
      (hptr rfl rfl) id
  | store addr value =>
    exact hsame (Gen.depth_of_emits (Gen.unmoving_store _ addr value) (Gen.store_cache _ _ _) s)
      (hptr rfl rfl) id
  | immediate isShort =>
    refine hsame ?_ (hptr rfl rfl) id
    refine (Gen.depth_of_emits (Gen.unmoving_immediate _ _ isShort _)
      (Gen.immediate_cache _ _ _ _) s).trans ?_
    exact Gen.depth_allocReg h.running s
  | _ => simp [Micro.straight] at ho

/-- Operations but pushes leave the opcode where it pops. -/
theorem handle_popping (ho : o.straight) (hpush : o.pushes = false) (h : Engaged E σ₀ op c)
    {keep : Bool} (hpop : Gen.Popping c.cur c.toGen keep) :
    Gen.Popping (handle next o c).2.cur (handle next o c).2.toGen keep := by
  have hspReg : (handle next o c).2.spReg = c.spReg := by
    by_cases hplain : o.plain
    · exact (handle_emits next hplain h.spRegs).spReg
    · cases o with
      | divide a b d => rw [handle, Ctx.lift, Gen.divide_spReg]
      | _ => simp [Micro.straight, Micro.plain] at ho hplain
  rw [(handle_cur next ho h.spRegs).2]
  exact hpop.shrinks hspReg (handle_shrinks ho hpush _)

end Operations

/-! ## Opcodes -/

section Opcodes

variable {E : Env} {σ₀ : Mach} {c : Ctx}

theorem Gen.beginOpcode_popping {g : Gen} (hfirst : ∀ s, WrittenFirst (g.cache s)) (op : Byte) :
    Popping (g.beginOpcode op).cur (g.beginOpcode op) (opFlagK op) := by
  cases hk : opFlagK op with
  | false =>
    refine .move ?_ (beginOpcode_unwritten hk hfirst _)
    rw [beginOpcode_eq, hk]
    rfl
  | true =>
    refine .keep ({ g.retained with currentOpcode := op }.shadowReg (g.beginOpcode op).cur) ?_
      (beginOpcode_written hk)
    rw [beginOpcode_eq, hk, if_pos rfl, enterKeep, (emits_stackCacheFlush _ _).spReg,
      shadowPointers_eq]

/-- The bookkeeping before an opcode. -/
theorem engaged_beginOpcode (hrun : (c.toGen.mach E σ₀).status = .running)
    (hfirst : ∀ s, WrittenFirst (c.cache s)) :
    Engaged E σ₀ (c.jit.memory c.pc) c.beginOpcode ∧
      ∀ s, c.beginOpcode.surplus E σ₀ s = c.surplus E σ₀ s := by
  have hgen : c.beginOpcode.toGen = c.toGen.beginOpcode (c.jit.memory c.pc) := rfl
  have hrunning : (c.beginOpcode.toGen.mach E σ₀).status = .running := by
    rw [hgen]
    refine c.toGen.beginOpcode_preserves (I := fun g => (g.mach E σ₀).status = .running) _
      (fun g g' hch hg => ?_) (fun g op sp hg => hg) hrun
    have hemits : Gen.Emits Aimed g g' := .single hch
    exact (Gen.status_of_emits hemits.loose).trans hg
  have hkeep : c.beginOpcode.shadow.isSome = opFlagK (c.jit.memory c.pc) := by
    have hshadow : c.beginOpcode.shadow =
      if opFlagK (c.jit.memory c.pc) then some c.ptr else none := rfl
    rw [hshadow]
    cases opFlagK (c.jit.memory c.pc) <;> rfl
  have hcells : ∀ s, WrittenFirst (c.beginOpcode.cache s) := by
    intro s
    rw [hgen]
    cases hk : opFlagK (c.jit.memory c.pc) with
    | false => exact (Gen.beginOpcode_unwritten hk hfirst s).writtenFirst
    | true =>
      rcases Stk.eq_or_eq_other (c.toGen.beginOpcode (c.jit.memory c.pc)).cur s with rfl | rfl
      exacts [(Gen.beginOpcode_written hk).writtenFirst,
        (Gen.beginOpcode_other _ hfirst).writtenFirst]
  refine ⟨⟨hrunning, c.toGen.spRegs_beginOpcode _, c.beginOpcode_currentOpcode, hkeep, hcells⟩,
    fun s => ?_⟩
  have hptr : c.beginOpcode.ptr = c.ptr := rfl
  rw [Ctx.surplus, hgen, Gen.depth_beginOpcode hrun hfirst, hptr, Ctx.surplus]

/-- How many pops of the next opcode miss. -/
def Ctx.misses (fuel : ℕ) (c : Ctx) : ℕ :=
  count (handle (nextOpcode fuel)) Micro.Misses (Emit.dispatch (decode (c.jit.memory c.pc)))
    c.beginOpcode

/-- **One opcode**: the surplus of its stack grows by the number of pops that miss. -/
theorem nextOpcode_surplus (fuel : ℕ) (hpc : 256 ≤ c.pc)
    (hst : (decode (c.jit.memory c.pc)).straight)
    (hrun : (c.toGen.mach E σ₀).status = .running) (hfirst : ∀ s, WrittenFirst (c.cache s)) :
    (((nextOpcode (fuel + 1) c).toGen.mach E σ₀).status = .running ∧
        ∀ s, WrittenFirst ((nextOpcode (fuel + 1) c).cache s)) ∧
      ∀ s, (nextOpcode (fuel + 1) c).surplus E σ₀ s = c.surplus E σ₀ s +
        if s = Uxn.opStack (c.jit.memory c.pc) then (c.misses fuel : Byte) else 0 := by
  obtain ⟨hengaged, hsurplus⟩ := engaged_beginOpcode hrun hfirst
  have hpop : Gen.Popping c.beginOpcode.cur c.beginOpcode.toGen (opFlagK (c.jit.memory c.pc)) :=
    Gen.beginOpcode_popping hfirst _
  have hmisses : c.misses fuel = count (handle (nextOpcode fuel)) Micro.Misses
    (Emit.dispatch (decode (c.jit.memory c.pc))) c.beginOpcode := rfl
  rw [nextOpcode_of_le fuel hpc, hmisses]
  generalize c.jit.memory c.pc = op at hst hengaged hpop
  generalize c.beginOpcode = d at hengaged hpop hsurplus
  have hcur : ∀ {x : Ctx}, Engaged E σ₀ op x → x.cur = Uxn.opStack op := by
    intro x hx
    rw [Gen.cur, hx.opcode]
    rfl
  -- the depth of the other stack is never touched by a pop
  have hstep : ∀ o x, o.straight → o.Current x → Engaged E σ₀ op x →
      (o.pops → Gen.Popping x.cur x.toGen (opFlagK op)) → ∀ s,
      (handle (nextOpcode fuel) o x).2.surplus E σ₀ s =
        (if s = Uxn.opStack op ∧ o.Misses x then 1 else 0) + x.surplus E σ₀ s := by
    intro o x ho hc hx hpop s
    rw [handle_surplus ho hc hx hpop, hcur hx, add_comm]
  have hmissing : ∀ (o : Micro) (x : Ctx), o.Misses x → o.pops := by
    intro o x hx
    cases o <;> first | rfl | exact hx.elim
  have hpush : ∀ o : Micro, o.pops → o.pushes = false := by
    intro o ho
    cases o <;> first | rfl | simp [Micro.pops] at ho
  let J : Ctx → Prop := fun x => Engaged E σ₀ op x ∧
    x.surplus E σ₀ (Uxn.opStack op).other = d.surplus E σ₀ (Uxn.opStack op).other
  have hstay : ∀ o x, o.straight → o.Current x → J x →
      (o.pops → Gen.Popping x.cur x.toGen (opFlagK op)) → J (handle (nextOpcode fuel) o x).2 := by
    rintro o x ho hc ⟨hx, hother⟩ hpop
    refine ⟨handle_engaged ho hx, ?_⟩
    rw [hstep o x ho hc hx hpop, hother]
    simp [Stk.other_ne]
  have hnone : ∀ (o : Micro) (x : Ctx), o.pops = false → ¬o.Misses x := by
    intro o x hpops hm
    rw [hmissing o x hm] at hpops
    cases hpops
  obtain ⟨hrun', hend⟩ := run_count (X := fun x : Ctx => x.surplus E σ₀ (Uxn.opStack op))
    (I := fun x => J x ∧ Gen.Popping x.cur x.toGen (opFlagK op)) (J := J) hmissing hpush
    (fun o x ho hc h => ⟨by simpa using hstep o x ho hc h.1.1 (fun _ => h.2) (Uxn.opStack op),
      fun hp => ⟨hstay o x ho hc h.1 fun _ => h.2, handle_popping ho hp h.1.1 h.2⟩,
      fun _ => hstay o x ho hc h.1 fun _ => h.2⟩)
    (fun o x ho hc hpops h => by
      have hnot : o.pops → Gen.Popping x.cur x.toGen (opFlagK op) := fun hp => by simp [hpops] at hp
      refine ⟨?_, hstay o x ho hc h hnot⟩
      simpa [hnone o x hpops] using hstep o x ho hc h.1 hnot (Uxn.opStack op))
    (phased_straight hst) (only_straight hst) (along_current _ hst d) ⟨⟨hengaged, rfl⟩, hpop⟩
  have hend' : J (run (handle (nextOpcode fuel)) (Emit.dispatch (decode op)) d).2 :=
    hend.elim And.left id
  refine ⟨⟨hend'.1.running, hend'.1.first⟩, fun s => ?_⟩
  rw [← hsurplus s]
  rcases Stk.eq_or_eq_other (Uxn.opStack op) s with rfl | rfl
  · rw [if_pos rfl, hrun', add_comm]
  · rw [if_neg (Stk.other_ne _), hend'.2, add_zero]

end Opcodes

/-! ## Sequences -/

section Sequences

variable (E : Env) (σ₀ : Mach) (fuel : ℕ) {n : ℕ} {c : Ctx}

theorem compile_surplus_iff (hn : StraightLine c.jit.memory n c.pc)
    (hrun : (c.toGen.mach E σ₀).status = .running) (hfirst : ∀ s, WrittenFirst (c.cache s)) :
    (∀ k ≤ n, ∀ s, (c.compile fuel k).surplus E σ₀ s = c.surplus E σ₀ s) ↔
      NeverMisses fuel n c := by
  induction n generalizing c with
  | zero =>
    refine iff_of_true (fun k hk s => ?_) trivial
    rw [Nat.le_zero.mp hk]
    rfl
  | succ n ih =>
    obtain ⟨hpc, hst, hn⟩ := hn
    obtain ⟨⟨hrun', hfirst'⟩, hstep⟩ := nextOpcode_surplus fuel hpc hst hrun hfirst
    have hnext : StraightLine (nextOpcode (fuel + 1) c).jit.memory n
        (nextOpcode (fuel + 1) c).pc := by
      rwa [nextOpcode_pc fuel hpc hst, (nextOpcode_frame fuel hpc hst).1]
    have hcompile : ∀ k, c.compile fuel (k + 1) = (nextOpcode (fuel + 1) c).compile fuel k :=
      fun k => Function.iterate_succ_apply _ _ _
    have hle : c.misses fuel ≤ 3 := by
      refine (phased_straight hst).count_le fun o x hx => ?_
      cases o <;> first | rfl | exact hx.elim
    -- three misses are not enough to come back to the surplus from before
    have hone : (∀ s, (nextOpcode (fuel + 1) c).surplus E σ₀ s = c.surplus E σ₀ s) ↔
        Along (handle (nextOpcode fuel)) (fun o c => ¬o.Misses c)
          (Emit.dispatch (decode (c.jit.memory c.pc))) c.beginOpcode := by
      rw [← count_eq_zero]
      constructor
      · intro h
        have hzero := (hstep (Uxn.opStack (c.jit.memory c.pc))).symm.trans (h _)
        rw [if_pos rfl, add_eq_left] at hzero
        have hmod := congrArg BitVec.toNat hzero
        rw [BitVec.natCast_eq_ofNat, BitVec.toNat_ofNat] at hmod
        have hmisses : c.misses fuel = 0 := by
          simpa [Nat.mod_eq_of_lt (show c.misses fuel < 256 by omega)] using hmod
        exact hmisses
      · intro h s
        have hmisses : c.misses fuel = 0 := h
        rw [hstep, hmisses]
        simp
    rw [NeverMisses, AlongOpcodes, ← hone]
    constructor
    · intro h
      have hfirst : ∀ s, (nextOpcode (fuel + 1) c).surplus E σ₀ s = c.surplus E σ₀ s :=
        fun s => h 1 (by omega) s
      refine ⟨hfirst, (ih hnext hrun' hfirst').mp fun k hk s => ?_⟩
      rw [hfirst, ← hcompile]
      exact h (k + 1) (by omega) s
    · rintro ⟨hfirst, hrest⟩ k hk s
      have hlater := (ih hnext hrun' hfirst').mpr hrest
      cases k with
      | zero => rfl
      | succ k => rw [hcompile, hlater k (by omega), hfirst]

/-- The compile-time pointers move as the reference does. -/
theorem nextOpcode_ptr (hpc : 256 ≤ c.pc) (hst : (decode (c.jit.memory c.pc)).straight) (s : Stk) :
    (nextOpcode (fuel + 1) c).ptr s = c.ptr s + Uxn.effect (c.jit.memory c.pc) s := by
  -- a reference machine whose stacks hold the compile-time values
  let u : Uxn := ⟨c.jit.memory, fun s => ⟨fun i => (c.tags s i).constValue, c.ptr s, fun _ => false⟩⟩
  have habreast : Abreast 0 c.jit.memory c.pc c u := by
    refine ⟨rfl, rfl, fun s => (zero_add _).symm, fun s i _ => ?_⟩
    rw [Pi.zero_apply, zero_add]
  have hnext : Abreast 0 c.jit.memory _ (nextOpcode (fuel + 1) c) _ :=
    habreast.next hpc (c.fallsThrough_iff.mpr (.inl hst)) fun _ => ⟨rfl, fun _ => rfl⟩
  have hpass : u.pass (c.jit.memory c.pc) (c.pc + 1) = u.step (c.jit.memory c.pc) (c.pc + 1) := by
    rw [Uxn.pass, Uxn.opens, opening_straight hst]
    rfl
  have htop := hnext.top s
  rw [hpass, Uxn.step_top hst, Pi.zero_apply, zero_add] at htop
  exact htop.symm

theorem compile_ptr (hn : StraightLine c.jit.memory n c.pc) {k : ℕ} (hk : k ≤ n) (s : Stk) :
    (c.compile fuel k).ptr s = c.ptr s + Uxn.netEffect c.jit.memory k c.pc s := by
  induction k generalizing n c with
  | zero => exact (add_zero _).symm
  | succ k ih =>
    cases n with
    | zero => omega
    | succ n =>
      obtain ⟨hpc, hst, hn⟩ := hn
      have hjit := (nextOpcode_frame fuel hpc hst).1
      have hpc' := nextOpcode_pc fuel hpc hst
      have hnext := ih (c := nextOpcode (fuel + 1) c) (n := n) (by rwa [hpc', hjit]) (by omega)
      rw [Ctx.compile, Function.iterate_succ_apply]
      refine hnext.trans ?_
      rw [hjit, hpc', nextOpcode_ptr fuel hpc hst, add_assoc, Uxn.netEffect]

end Sequences

/-- The bytes by which the code has moved a stack pointer since `σ₀`, with those of the cells that
are still to be written. -/
def Ctx.moved (E : Env) (σ₀ : Mach) (ctx : Ctx) (s : Stk) : Byte :=
  ctx.toGen.pointer E σ₀ s - (σ₀.regs (.sp s)).setWidth 8 + (pendingBytes (ctx.cache s) : Byte)

/-- **Conservation of the stack depth.** After every opcode of a straight-line sequence the bytes by
which a stack has moved since the block entry are the compile-time pointer, and the stack effect of
the opcodes, exactly if no pop misses a cell that it splits. -/
theorem depth_conserved_iff (E : Env) (σ₀ : Mach) (fuel : ℕ) {n : ℕ} {jit : Jit}
    {compiler : CompilerId} {pc : Short} (hn : StraightLine jit.memory n pc)
    (hrun : σ₀.status = .running) :
    (∀ k ≤ n, ∀ s,
      ((Ctx.start jit compiler pc).compile fuel k).moved E σ₀ s =
        ((Ctx.start jit compiler pc).compile fuel k).ptr s ∧
      ((Ctx.start jit compiler pc).compile fuel k).ptr s = Uxn.netEffect jit.memory k pc s) ↔
      NeverMisses fuel n (Ctx.start jit compiler pc) := by
  have hstart : ∀ s, (Ctx.start jit compiler pc).surplus E σ₀ s = (σ₀.regs (.sp s)).setWidth 8 :=
    fun s => (sub_zero _).trans (add_zero _)
  have hn' : StraightLine (Ctx.start jit compiler pc).jit.memory n (Ctx.start jit compiler pc).pc :=
    hn
  have hsub : ∀ p₀ p b d : Byte, p - p₀ + b = d ↔ p + b - d = p₀ := by
    intro p₀ p b d
    rw [sub_add_eq_add_sub, sub_eq_iff_eq_add, sub_eq_iff_eq_add, add_comm p₀]
  rw [← compile_surplus_iff E σ₀ fuel hn' hrun fun _ => .nil]
  refine forall_congr' fun k => forall_congr' fun hk => forall_congr' fun s => ?_
  have hptr : ((Ctx.start jit compiler pc).compile fuel k).ptr s =
      Uxn.netEffect jit.memory k pc s := by
    rw [compile_ptr fuel hn' hk]
    exact zero_add _
  rw [and_iff_left hptr, hstart]
  exact hsub _ _ _ _

/-- `LIT2r` twice, `LIT2` four times and `INC`, which splits the last short while all registers hold
cells. -/
def splitInc : List Byte :=
  [0xe0, 0x01, 0x02, 0xe0, 0x03, 0x04, 0xa0, 0x05, 0x06, 0xa0, 0x07, 0x08, 0xa0, 0x09, 0x0a,
    0xa0, 0x0b, 0x0c, 0x01]

/-- The working stack gets one byte deeper than the compiler believes, and than it should. -/
theorem splitInc_not_conserved : StraightLine (rom splitInc) 7 0x100 ∧
    ((Ctx.boot splitInc).compile 0 7).moved default (.start default fun _ _ => 0) .wst = 9 ∧
      ((Ctx.boot splitInc).compile 0 7).ptr .wst = 8 ∧
      Uxn.netEffect (rom splitInc) 7 0x100 .wst = 8 := by decide +kernel

theorem depth_conserved_iff_splitInc :
    (∀ k ≤ 7, ∀ s,
      ((Ctx.boot splitInc).compile 0 k).moved default (.start default fun _ _ => 0) s =
        ((Ctx.boot splitInc).compile 0 k).ptr s ∧
      ((Ctx.boot splitInc).compile 0 k).ptr s = Uxn.netEffect (rom splitInc) k 0x100 s) ↔
      NeverMisses 0 7 (Ctx.boot splitInc) :=
  depth_conserved_iff default (.start default fun _ _ => 0) 0 (by decide +kernel) rfl

end BuxnJit
