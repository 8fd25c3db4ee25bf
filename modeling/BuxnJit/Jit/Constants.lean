import BuxnJit.Foundations.Relational
import BuxnJit.Jit.Contexts
import BuxnJit.Jit.Requests
import BuxnJit.Jit.Skips
import BuxnJit.Uxn.Machine

/-!
# Compile-time values

What the compiler takes for constant is what the reference machine pops. Both are run side by side:
the tag arrays and their pointers stand for the stacks of the reference from the pointers at the
block entry on (`Level`), and in keep mode the shadow pointers for the copy of the stack pointer
(`Popping`).

* `Foretold`: the operands that were popped at compile time against the bytes popped at run time;
* `Ctx.Line`: opcodes that let control pass to the one behind them, which are all but calls, device
  accesses, boolean jumps and jumps that are always taken;
* `constants_foretold`: the **main result**, for every such sequence and the opcode behind it.
-/

namespace BuxnJit

open Foundations Prog

/-! ## What is popped -/

/-- The operands against the bytes that are popped, in the order of the pops: an operand that is
tagged constant has the value of its bytes. -/
inductive Foretold : List (Operand OpReg) → List Byte → Prop
  | nil : Foretold [] []
  | byte {o : Operand OpReg} {b : Byte} {os : List (Operand OpReg)} {bs : List Byte}
      (hsize : o.isShort = false) (hvalue : o.semantics.const → o.constValue = b.setWidth 16)
      (hrest : Foretold os bs) : Foretold (o :: os) (b :: bs)
  | short {o : Operand OpReg} {l h : Byte} {os : List (Operand OpReg)} {bs : List Byte}
      (hsize : o.isShort = true) (hvalue : o.semantics.const → o.constValue = h ++ l)
      (hrest : Foretold os bs) : Foretold (o :: os) (l :: h :: bs)

theorem Foretold.append {os ps : List (Operand OpReg)} {bs cs : List Byte} (h : Foretold os bs)
    (h' : Foretold ps cs) : Foretold (os ++ ps) (bs ++ cs) := by
  induction h with
  | nil => exact h'
  | byte hsize hvalue _ ih => exact .byte hsize hvalue ih
  | short hsize hvalue _ ih => exact .short hsize hvalue ih

/-- The operand that a micro operation pops. -/
def Micro.popped (o : Micro) (ctx : Ctx) : List (Operand OpReg) :=
  match o with
  | .popEx flag2 s => [(ctx.popEx flag2 s).1]
  | _ => []

namespace Uxn

/-- The byte that an access pops. -/
def Access.popped (a : Access) (f : Frame) : List Byte :=
  match a with
  | .pop => [(f.stack f.cur).data (f.pointer - 1)]
  | _ => []

/-- The opcode `mn` as in `opcode`, until control or a device takes over: of an opcode that jumps or
accesses a device, only the pops. -/
def opening (isShort : Bool) (s : Stk) (pc : Short) : Mnemonic → Op Unit
  | .JMP | .JSR => do let _ ← pop isShort
  | .JCN => do
    let _ ← pop isShort
    let _ ← popByte
  | .JCI | .DEI => do let _ ← popByte
  | .DEO => do
    let _ ← popByte
    let _ ← pop isShort
  | mn => opcode isShort s pc mn

/-- The opening of an opcode byte before `pc`. -/
def opens (op : Byte) (pc : Short) : Op Unit := opening (opFlag2 op) (opStack op) pc (decode op)

/-- Execute the opcode `op` before `pc`, where control passes to the opcode behind it. -/
def pass (op : Byte) (pc : Short) (u : Uxn) : Uxn :=
  ((opens op pc).run perform (u.enter op)).2.toUxn

/-- The bytes popped by the `n` opcodes that `m` holds from `pc` on. -/
def popped (m : Short → Byte) : ℕ → Short → Uxn → List Byte
  | 0, _, _ => []
  | n + 1, pc, u => gather perform Access.popped (opens (m pc) (pc + 1)) (u.enter (m pc)) ++
      popped m n (pc + opLength (m pc)) (u.pass (m pc) (pc + 1))

/-- The literal at `pc` has the operand bytes that `m` holds. -/
def SameLiteral (m : Short → Byte) (pc : Short) (u : Uxn) : Prop :=
  decode (m pc) = .LIT → u.memory (pc + 1) = m (pc + 1) ∧
    (opFlag2 (m pc) → u.memory (pc + 2) = m (pc + 2))

/-- Each of the `n` opcodes that is a literal has at run time the operand bytes that `m` holds. -/
def SameLiterals (m : Short → Byte) : ℕ → Short → Uxn → Prop
  | 0, _, _ => True
  | n + 1, pc, u => u.SameLiteral m pc ∧
      SameLiterals m n (pc + opLength (m pc)) (u.pass (m pc) (pc + 1))

instance (m : Short → Byte) (pc : Short) (u : Uxn) : Decidable (u.SameLiteral m pc) :=
  inferInstanceAs (Decidable (_ → _))

instance SameLiterals.decidable (m : Short → Byte) :
    (n : ℕ) → (pc : Short) → (u : Uxn) → Decidable (SameLiterals m n pc u)
  | 0, _, _ => .isTrue trivial
  | n + 1, pc, u =>
    have := SameLiterals.decidable m n (pc + opLength (m pc)) (u.pass (m pc) (pc + 1))
    inferInstanceAs (Decidable (_ ∧ _))

end Uxn

namespace Ctx

/-- The operands popped by the next `n` opcodes. -/
def popped (fuel : ℕ) : ℕ → Ctx → List (Operand OpReg)
  | 0, _ => []
  | n + 1, ctx =>
    gather (handle (nextOpcode fuel)) Micro.popped (Emit.dispatch (decode (ctx.jit.memory ctx.pc)))
      ctx.beginOpcode ++ popped fuel n (nextOpcode (fuel + 1) ctx)

/-- The next opcode can let control pass to the one behind it, without a call, a device access or a
boolean skip. -/
def FallsThrough (ctx : Ctx) : Prop :=
  match decode (ctx.jit.memory ctx.pc) with
  | .JCI => True
  | .JCN => ctx.jumpsByBoolean = false
  | mn => mn.straight

theorem fallsThrough_iff (ctx : Ctx) : ctx.FallsThrough ↔
    (decode (ctx.jit.memory ctx.pc)).straight ∨ decode (ctx.jit.memory ctx.pc) = .JCI ∨
      decode (ctx.jit.memory ctx.pc) = .JCN ∧ ctx.jumpsByBoolean = false := by
  unfold FallsThrough
  cases decode (ctx.jit.memory ctx.pc) <;> simp [Mnemonic.straight]

instance (ctx : Ctx) : Decidable ctx.FallsThrough := decidable_of_iff _ ctx.fallsThrough_iff.symm

/-- The next `n` opcodes fall through to the one behind them; neither they nor this one are in the
zero page. -/
def Line (fuel : ℕ) : ℕ → Ctx → Prop
  | 0, ctx => 256 ≤ ctx.pc
  | n + 1, ctx => 256 ≤ ctx.pc ∧ ctx.FallsThrough ∧ Line fuel n (nextOpcode (fuel + 1) ctx)

instance Line.decidable (fuel : ℕ) : (n : ℕ) → (ctx : Ctx) → Decidable (Line fuel n ctx)
  | 0, ctx => inferInstanceAs (Decidable (256 ≤ ctx.pc))
  | n + 1, ctx =>
    have := Line.decidable fuel n (nextOpcode (fuel + 1) ctx)
    inferInstanceAs (Decidable (_ ∧ _ ∧ _))

end Ctx

/-! ## Tags and stack slots -/

open Uxn (opStack)

/-- While the opcode `op` is compiled and executed: the pointers agree from the block entry on,
where they are `base`, and slots that are tagged constant have these values. -/
structure Level (op : Byte) (base : Stk → Byte) (c : Ctx) (f : Uxn.Frame) : Prop where
  spRegs : c.SpRegs
  opcode : c.currentOpcode = op
  cur : f.cur = opStack op
  top : ∀ s, (f.stack s).top = base s + c.ptr s
  tags : ∀ s i, (c.tags s i).semantics.const →
    (f.stack s).data (base s + i) = (c.tags s i).constValue

/-- As long as the opcode pops: the shadow pointers stand for the copy of the pointer. -/
structure Popping (op : Byte) (base : Stk → Byte) (c : Ctx) (f : Uxn.Frame) : Prop extends
    Level op base c f where
  keep : c.shadow.isSome = opFlagK op
  copy : f.copy = c.shadow.map fun p => base (opStack op) + p (opStack op)

/-- The operand is a byte or a short as `isShort` says, and `v` if it is tagged constant. -/
structure Tells (isShort : Bool) (o : Operand OpReg) (v : Short) : Prop where
  size : o.isShort = isShort
  value : o.semantics.const → o.constValue = v

section Tracking

variable {op : Byte} {base : Stk → Byte} {c c' : Ctx} {f f' : Uxn.Frame}

theorem Level.ctx_cur (h : Level op base c f) : c.cur = opStack op := by
  rw [Gen.cur, h.opcode]
  rfl

theorem Level.congr (h : Level op base c f) (hsp : c'.SpRegs)
    (hop : c'.currentOpcode = c.currentOpcode) (hptr : c'.ptr = c.ptr) (htags : c'.tags = c.tags) :
    Level op base c' f where
  spRegs := hsp
  opcode := hop.trans h.opcode
  cur := h.cur
  top s := by rw [hptr]; exact h.top s
  tags s i := by rw [htags]; exact h.tags s i

theorem Popping.congr (h : Popping op base c f) (hsp : c'.SpRegs)
    (hop : c'.currentOpcode = c.currentOpcode) (hptr : c'.ptr = c.ptr) (htags : c'.tags = c.tags)
    (hshadow : c'.shadow = c.shadow) : Popping op base c' f :=
  ⟨h.toLevel.congr hsp hop hptr htags, by rw [hshadow]; exact h.keep, by rw [hshadow]; exact h.copy⟩

theorem Popping.pointer (h : Popping op base c f) :
    f.pointer = base (opStack op) + c.ePtr (opStack op) := by
  rw [Uxn.Frame.pointer, h.copy, h.cur, Ctx.ePtr]
  cases c.shadow with
  | none => exact h.top _
  | some p => rfl

/-- Popping one byte at compile time and at run time. -/
theorem Popping.popValue (h : Popping op base c f) :
    Popping op base (c.popValue (opStack op)).2 f.drop ∧
      ((c.popValue (opStack op)).1.semantics.const →
        (c.popValue (opStack op)).1.constValue = (f.stack f.cur).data (f.pointer - 1)) := by
  constructor
  · have hcopy := h.copy
    have hkeep := h.keep
    have htop := h.top
    unfold Ctx.popValue Ctx.ePtr Uxn.Frame.drop
    cases hs : c.shadow with
    | none =>
      rw [hs] at hcopy hkeep
      simp only [hcopy, Option.map_none]
      refine ⟨⟨h.spRegs, h.opcode, h.cur, fun s => ?_, fun s i hc => ?_⟩, hkeep, hcopy⟩
      · rw [Uxn.Frame.setStack, h.cur]
        by_cases he : s = opStack op
        · subst he
          simp [htop, add_sub_assoc]
        · simp [he, htop]
      · rw [Uxn.Frame.setStack, ← h.tags s i hc]
        by_cases he : s = f.cur
        · subst he
          simp
        · simp [he]
    | some p =>
      rw [hs] at hcopy hkeep
      simp only [hcopy, Option.map_some]
      refine ⟨⟨h.spRegs, h.opcode, h.cur, htop, h.tags⟩, hkeep, ?_⟩
      simp [add_sub_assoc]
  · intro hconst
    rw [h.pointer, h.cur, add_sub_assoc]
    exact (h.tags _ _ hconst).symm

theorem Popping.popEx (h : Popping op base c f) (isShort : Bool) :
    Popping op base (c.popEx isShort (opStack op)).2 (run Uxn.perform (Uxn.pop isShort) f).2 ∧
      Tells isShort (c.popEx isShort (opStack op)).1 (run Uxn.perform (Uxn.pop isShort) f).1 := by
  obtain ⟨h₁, hv₁⟩ := h.popValue
  obtain ⟨h₂, hv₂⟩ := h₁.popValue
  have hemits := handle_emits id (o := .popEx isShort (opStack op)) rfl h.spRegs
  have hsp := spRegs_of_emits h.spRegs hemits
  have hop := hemits.currentOpcode
  cases isShort with
  | false =>
    refine ⟨h₁.congr hsp (hop.trans (h.opcode.trans h₁.opcode.symm)) rfl rfl rfl, rfl, ?_⟩
    intro hconst
    exact congrArg (BitVec.setWidth 16) (hv₁ hconst)
  | true =>
    have hsnd : (c.popSemantics true (opStack op)).2 =
        ((c.popValue (opStack op)).2.popValue (opStack op)).2 := c.popSemantics_snd true _
    refine ⟨h₂.congr hsp (hop.trans (h.opcode.trans h₂.opcode.symm)) ?_ ?_ ?_, rfl, ?_⟩
    · exact (congrArg Ctx.ptr hsnd :)
    · exact (congrArg Ctx.tags hsnd :)
    · exact (congrArg Ctx.shadow hsnd :)
    · intro hconst
      generalize hlo : (c.popValue (opStack op)).1 = lo at hv₁
      generalize hhi : ((c.popValue (opStack op)).2.popValue (opStack op)).1 = hi at hv₂
      have hfst : (c.popSemantics true (opStack op)).1 =
          if hi.semantics.const && lo.semantics.const then
            (Semantics.onlyConst, hi.constValue ++ lo.constValue) else (Semantics.none, 0) := by
        rw [← hlo, ← hhi, Ctx.popSemantics, if_pos rfl]
        simp only
        split <;> rfl
      have hsem : (c.popEx true (opStack op)).1.semantics =
          (c.popSemantics true (opStack op)).1.1 := rfl
      have hval : (c.popEx true (opStack op)).1.constValue =
          (c.popSemantics true (opStack op)).1.2 := rfl
      rw [hsem, hfst] at hconst
      rw [hval, hfst]
      split at hconst
      next hboth =>
        rw [Bool.and_eq_true] at hboth
        rw [if_pos (by simp [hboth]), hv₁ hboth.2, hv₂ hboth.1]
        rfl
      next => exact absurd hconst (by simp [Semantics.none])

/-- Pushing one byte at compile time and at run time. -/
theorem Level.pushValue (h : Level op base c f) (s : Stk) {v : Value} {b : Byte}
    (hv : v.semantics.const → v.constValue = b) :
    Level op base (c.pushValue s v) (f.push s b) := by
  refine ⟨h.spRegs, h.opcode, h.cur, fun s' => ?_, fun s' i hc => ?_⟩
  · by_cases he : s' = s
    · subst he
      simp [Uxn.Frame.push, Uxn.Frame.setStack, Ctx.pushValue, h.top, add_assoc]
    · simp [Uxn.Frame.push, Uxn.Frame.setStack, Ctx.pushValue, he, h.top]
  · by_cases he : s' = s
    · subst he
      by_cases hi : i = c.ptr s'
      · subst hi
        simp only [Ctx.pushValue, Function.update_self] at hc ⊢
        simp [Uxn.Frame.push, Uxn.Frame.setStack, CStack.push, h.top, hv hc]
      · simp only [Ctx.pushValue, Function.update_self, Function.update_of_ne hi] at hc ⊢
        simp [Uxn.Frame.push, Uxn.Frame.setStack, CStack.push, h.top, hi, h.tags s' i hc]
    · simp only [Ctx.pushValue, Function.update_of_ne he] at hc ⊢
      simp [Uxn.Frame.push, Uxn.Frame.setStack, he, h.tags s' i hc]

theorem Level.pushEx (h : Level op base c f) {isShort : Bool} {o : Operand OpReg} {v : Short}
    (ho : Tells isShort o v) (s : Stk) :
    Level op base (c.pushEx o s) (run Uxn.perform (Uxn.push s isShort v) f).2 := by
  have hemits := handle_emits id (o := .pushEx o s) rfl h.spRegs
  have hlifted : Level op base (c.lift fun g =>
      (g.assert (g.refCounts o.reg != 0)).stackCachePush s o) f := by
    have hto : (c.pushEx o s).toGen = (c.lift fun g =>
        (g.assert (g.refCounts o.reg != 0)).stackCachePush s o).toGen := c.pushEx_toGen s o
    refine h.congr ?_ ?_ rfl rfl
    · rw [← hto]
      exact spRegs_of_emits h.spRegs hemits
    · rw [← hto]
      exact hemits.currentOpcode
  cases isShort with
  | false =>
    rw [Ctx.pushEx, if_neg (by simp [ho.size])]
    refine hlifted.pushValue s fun hc => ?_
    rw [ho.value hc]
    rfl
  | true =>
    rw [Ctx.pushEx, if_pos ho.size]
    refine (hlifted.pushValue s fun hc => ?_).pushValue s fun hc => ?_
    · rw [ho.value hc]
      rfl
    · rw [ho.value hc]
      rfl

/-- In keep mode nothing is dropped at compile time, and at run time only the copy moves. -/
theorem Level.dropKept (h : Level op base c f) {p : Byte} (hcopy : f.copy = some p)
    (isShort : Bool) : Level op base c (run Uxn.perform (Uxn.drop isShort) f).2 := by
  have hdrop : ∀ f : Uxn.Frame, ∀ p, f.copy = some p →
      f.drop = { f with copy := some (p - 1) } := by
    intro f p hp
    rw [Uxn.Frame.drop, hp]
  cases isShort with
  | false =>
    show Level op base c f.drop
    rw [hdrop f p hcopy]
    exact ⟨h.spRegs, h.opcode, h.cur, h.top, h.tags⟩
  | true =>
    show Level op base c f.drop.drop
    rw [hdrop f p hcopy, hdrop _ (p - 1) rfl]
    exact ⟨h.spRegs, h.opcode, h.cur, h.top, h.tags⟩

theorem Level.discard (h : Level op base c f) (hcopy : f.copy = none) (isShort : Bool) :
    Level op base (c.discard isShort (opStack op)) (run Uxn.perform (Uxn.drop isShort) f).2 := by
  have hemits := (Gen.emits_stackCacheDiscard _ (opStack op) h.spRegs isShort).loose
  have hdrop : ∀ f : Uxn.Frame, f.copy = none →
      f.drop = f.setStack f.cur (f.stack f.cur).drop := by
    intro f hf
    rw [Uxn.Frame.drop, hf]
  have hrun : (run Uxn.perform (Uxn.drop isShort) f).2 = f.setStack (opStack op)
      (if isShort then (f.stack (opStack op)).drop.drop else (f.stack (opStack op)).drop) := by
    rw [← h.cur]
    cases isShort with
    | false => exact hdrop f hcopy
    | true =>
      have htwice : (run Uxn.perform (Uxn.drop true) f).2 = f.drop.drop := rfl
      rw [htwice, hdrop f hcopy, hdrop (f.setStack f.cur (f.stack f.cur).drop) hcopy]
      simp [Uxn.Frame.setStack]
  rw [hrun]
  refine ⟨spRegs_of_emits h.spRegs hemits, hemits.currentOpcode.trans h.opcode, h.cur,
    fun s => ?_, fun s i hc => ?_⟩
  · by_cases he : s = opStack op
    · subst he
      have htop := h.top (opStack op)
      cases isShort
      · simp [Uxn.Frame.setStack, Ctx.discard, Ctx.lift, htop, add_sub_assoc]
      · simp [Uxn.Frame.setStack, Ctx.discard, Ctx.lift, htop, add_sub_assoc, sub_sub]
    · simp [Uxn.Frame.setStack, Ctx.discard, Ctx.lift, he, h.top]
  · refine Eq.trans ?_ (h.tags s i hc)
    by_cases he : s = opStack op
    · subst he
      cases isShort <;> simp [Uxn.Frame.setStack]
    · simp [Uxn.Frame.setStack, he]

end Tracking

/-! ## Opcodes side by side -/

/-- The compilation of an opcode beside its execution. -/
def alongside (fuel : ℕ) : Pairing micro Uxn.accesses Ctx Uxn.Frame where
  Seen := Operand OpReg
  Seen' := Byte
  left := handle (nextOpcode fuel)
  right := Uxn.perform
  seen := Micro.popped
  seen' := Uxn.Access.popped
  Match := Foretold
  nil := .nil
  append := Foretold.append

/-- The operations that leave the compile-time values alone. -/
def Micro.quiet : Micro → Bool
  | .popEx .. | .pushEx .. | .discard .. | .nextOpcode => false
  | _ => true

/-- The accesses to memory. -/
def Uxn.Access.quiet : Uxn.Access → Bool
  | .peek _ | .poke .. => true
  | _ => false

/-- Programs of such operations. -/
abbrev Quiet {α : Type} (p : Emit.Op α) : Prop := Only (F := micro) (fun o => o.quiet) p

abbrev Uxn.Quiet {α : Type} (p : Uxn.Op α) : Prop := Only (F := accesses) (fun a => a.quiet) p

section Opcodes

variable {fuel : ℕ} {op : Byte} {base : Stk → Byte} {c c' : Ctx} {f f' : Uxn.Frame} {α β γ : Type}

/-- What quiet operations leave alone. -/
structure Quietly (c c' : Ctx) : Prop where
  spRegs : c'.SpRegs
  opcode : c'.currentOpcode = c.currentOpcode
  ptr : c'.ptr = c.ptr
  tags : c'.tags = c.tags
  shadow : c'.shadow = c.shadow

theorem handle_quiet (next : Ctx → Ctx) {o : Micro} (ho : o.quiet) (hsp : c.SpRegs) :
    Quietly c (handle next o c).2 := by
  have hvalues : (handle next o c).2.ptr = c.ptr ∧ (handle next o c).2.tags = c.tags ∧
      (handle next o c).2.shadow = c.shadow := by
    cases o <;> first
      | simp [Micro.quiet] at ho; done
      | simp [handle, Ctx.lift, Ctx.liftReg, Ctx.immediate, Ctx.immediateJumpTarget, Ctx.newLabel,
          Ctx.linkEntry]
  have hgen : (handle next o c).2.SpRegs ∧ (handle next o c).2.currentOpcode = c.currentOpcode := by
    by_cases hplain : o.plain
    · have hemits := handle_emits next hplain hsp
      exact ⟨spRegs_of_emits hsp hemits, hemits.currentOpcode⟩
    · cases o with
      | divide a b d =>
        simp only [handle, Ctx.lift, Gen.SpRegs, Gen.divide_spReg, Gen.divide_currentOpcode]
        exact ⟨hsp, trivial⟩
      | callDevice h addr result =>
        cases result <;> exact ⟨hsp, rfl⟩
      | newLabel => exact ⟨hsp, rfl⟩
      | emit i => exact ⟨hsp, rfl⟩
      | forgetMemBase => exact ⟨hsp, rfl⟩
      | nextOpcode => simp [Micro.quiet] at ho
      | _ => simp [Micro.plain] at hplain
  exact ⟨hgen.1, hgen.2, hvalues.1, hvalues.2.1, hvalues.2.2⟩

theorem Level.quietly (h : Level op base c f) (hq : Quietly c c') : Level op base c' f :=
  h.congr hq.spRegs hq.opcode hq.ptr hq.tags

theorem run_quiet (next : Ctx → Ctx) {p : Emit.Op α} (hp : Quiet p)
    (hsp : c.SpRegs) : Quietly c (run (handle next) p c).2 := by
  refine run_invariant (I := Quietly c) (P := fun _ _ => True) ?_ hp
    (along_of_only (fun _ _ _ => trivial) hp) ⟨hsp, rfl, rfl, rfl, rfl⟩
  intro o d ho _ hd
  have hq := handle_quiet next ho hd.spRegs
  exact ⟨hq.spRegs, hq.opcode.trans hd.opcode, hq.ptr.trans hd.ptr, hq.tags.trans hd.tags,
    hq.shadow.trans hd.shadow⟩

theorem gather_quiet (h : Handler micro Ctx) {p : Emit.Op α} (hp : Quiet p) :
    gather h Micro.popped p c = [] := by
  refine gather_of_only ?_ hp
  intro o d ho
  cases o <;> first
    | rfl
    | simp [Micro.quiet] at ho

/-- Quiet operations of the compiler. -/
theorem beside_quiet {p : Emit.Op α} {k : α → Emit.Op β} {q : Uxn.Op γ}
    {Ψ : β → γ → Ctx → Uxn.Frame → Prop} (hp : Quiet p) (h : Level op base c f)
    (hk : ∀ a c', Level op base c' f → Beside (alongside fuel) (k a) q Ψ c' f) :
    Beside (alongside fuel) (p >>= k) q Ψ c f :=
  beside_left (gather_quiet _ hp) (hk _ _ (h.quietly (run_quiet _ hp h.spRegs)))

/-- Accesses of the reference to memory. -/
theorem memory_quiet {q : Uxn.Op β} (hq : Uxn.Quiet q)
    (h : Level op base c f) :
    gather Uxn.perform Uxn.Access.popped q f = [] ∧ Level op base c (run Uxn.perform q f).2 := by
  constructor
  · refine gather_of_only ?_ hq
    intro a f ha
    cases a <;> first
      | rfl
      | simp [Uxn.Access.quiet] at ha
  · refine run_invariant (I := Level op base c) (P := fun _ _ => True) ?_ hq
      (along_of_only (fun _ _ _ => trivial) hq) h
    intro a f ha _ hf
    cases a <;> first
      | exact ⟨hf.spRegs, hf.opcode, hf.cur, hf.top, hf.tags⟩
      | simp [Uxn.Access.quiet] at ha

theorem beside_memory {p : Emit.Op α} {q : Uxn.Op β} {k : β → Uxn.Op γ}
    {Ψ : α → γ → Ctx → Uxn.Frame → Prop} (hq : Uxn.Quiet q)
    (h : Level op base c f)
    (hk : ∀ b f', Level op base c f' → Beside (alongside fuel) p (k b) Ψ c f') :
    Beside (alongside fuel) p (q >>= k) Ψ c f :=
  beside_right (memory_quiet hq h).1 (hk _ _ (memory_quiet hq h).2)

/-- The end of an opcode that pushes nothing. -/
theorem beside_last {p : Emit.Op α} {q : Uxn.Op β}
    (hp : Quiet p)
    (hq : Uxn.Quiet q) (h : Level op base c f) :
    Beside (alongside fuel) p q (fun _ _ => Level op base) c f := by
  obtain ⟨hnone, hlevel⟩ := memory_quiet hq h
  have hnil : gather (handle (nextOpcode fuel)) Micro.popped p c = [] := gather_quiet _ hp
  constructor
  · show Foretold (gather (handle (nextOpcode fuel)) Micro.popped p c)
      (gather Uxn.perform Uxn.Access.popped q f)
    rw [hnil, hnone]
    exact .nil
  · exact hlevel.quietly (run_quiet _ hp h.spRegs)

theorem beside_flag2 {k : Bool → Emit.Op α} {q : Uxn.Op β} {Ψ : α → β → Ctx → Uxn.Frame → Prop}
    (h : Level op base c f) (hk : Beside (alongside fuel) (k (opFlag2 op)) q Ψ c f) :
    Beside (alongside fuel) (Emit.flag2 >>= k) q Ψ c f := by
  refine beside_left rfl ?_
  have hflag : opFlag2 c.currentOpcode = opFlag2 op := congrArg opFlag2 h.opcode
  rw [← hflag] at hk
  exact hk

theorem beside_cur {k : Stk → Emit.Op α} {q : Uxn.Op β} {Ψ : α → β → Ctx → Uxn.Frame → Prop}
    (h : Level op base c f) (hk : Beside (alongside fuel) (k (opStack op)) q Ψ c f) :
    Beside (alongside fuel) (Emit.cur >>= k) q Ψ c f := by
  refine beside_left rfl ?_
  rw [← h.ctx_cur] at hk
  exact hk

variable (fuel) in
theorem beside_popEx (h : Popping op base c f) (isShort : Bool) :
    Beside (alongside fuel) (Emit.popEx isShort (opStack op)) (Uxn.pop isShort)
      (fun o v c f => Popping op base c f ∧ Tells isShort o v) c f := by
  refine ⟨?_, h.popEx isShort⟩
  obtain ⟨-, hsize, hvalue⟩ := h.popEx isShort
  show Foretold [(c.popEx isShort (opStack op)).1] (gather _ _ _ f)
  cases isShort with
  | false => exact .byte hsize hvalue .nil
  | true => exact .short hsize hvalue .nil

theorem beside_pop (h : Popping op base c f) :
    Beside (alongside fuel) Emit.pop (Uxn.pop (opFlag2 op))
      (fun o v c f => Popping op base c f ∧ Tells (opFlag2 op) o v) c f := by
  refine beside_flag2 h.toLevel ?_
  refine beside_cur h.toLevel ?_
  exact beside_popEx _ h (opFlag2 op)

/-- The byte that is popped, as a short. -/
theorem beside_popByte (h : Popping op base c f) :
    Beside (alongside fuel) Emit.popByte Uxn.popByte
      (fun o b c f => Popping op base c f ∧ Tells false o (b.setWidth 16)) c f := by
  refine beside_cur h.toLevel ?_
  have hpop := beside_popEx fuel h false
  exact ⟨hpop.matched, hpop.ends⟩

theorem beside_pushEx (h : Level op base c f) {isShort : Bool} {o : Operand OpReg} {v : Short}
    (ho : Tells isShort o v) (s : Stk) :
    Beside (alongside fuel) (Emit.pushEx o s) (Uxn.push s isShort v)
      (fun _ _ => Level op base) c f := by
  refine ⟨?_, h.pushEx ho s⟩
  cases isShort <;> exact .nil

theorem beside_push (h : Level op base c f) {isShort : Bool} {o : Operand OpReg} {v : Short}
    (ho : Tells isShort o v) :
    Beside (alongside fuel) (Emit.push o) (Uxn.push (opStack op) isShort v)
      (fun _ _ => Level op base) c f := by
  refine beside_cur h ?_
  exact beside_pushEx h ho (opStack op)

/-! ### Shared shapes -/

variable {isShort b₂ a₂ : Bool} {o a b : Operand OpReg} {v x y : Short}

/-- An operand that is not tagged constant tells its size only. -/
theorem tells_none (hsize : o.isShort = isShort) (hsem : o.semantics.const = false) :
    Tells isShort o v := ⟨hsize, fun h => absurd h (by simp [hsem])⟩

/-- The result of a binary operation is evaluated if both operands are tagged constant. -/
theorem tells_result (hb : Tells b₂ b y) (ha : Tells a₂ a x) {z : Short} {reg : OpReg}
    (hz : a.semantics.const → b.semantics.const → a.constValue = x → b.constValue = y → v = z) :
    Tells isShort (Emit.result a b isShort v reg) z := by
  refine ⟨rfl, fun h => ?_⟩
  rw [Emit.result] at h ⊢
  simp only at h ⊢
  split at h
  next hboth =>
    rw [Bool.and_eq_true] at hboth
    exact hz hboth.1 hboth.2 (ha.value hboth.1) (hb.value hboth.2)
  next => exact absurd h (by simp [Semantics.none])

theorem quiet_perform {o : Micro} (ho : o.quiet) :
    Quiet (perform o) := ⟨ho, fun _ => trivial⟩

theorem quiet_alu (i : Alu) : Quiet (Emit.alu i) :=
  quiet_perform rfl

theorem quiet_allocReg : Quiet Emit.allocReg :=
  quiet_perform rfl

theorem quiet_wrapAround (reg : OpReg) :
    Quiet (Emit.wrapAround reg) :=
  ⟨rfl, fun _ => ⟨rfl, fun _ => trivial⟩⟩

theorem quiet_relative (addr : Operand OpReg) :
    Quiet (Emit.relative addr) :=
  ⟨rfl, fun _ => ⟨rfl, fun _ => ⟨rfl, fun _ => trivial⟩⟩⟩

/-- POP, also as a part of NIP. -/
theorem beside_POP (h : Popping op base c f) :
    Beside (alongside fuel) Emit.POP (Uxn.drop (opFlag2 op)) (fun _ _ => Level op base) c f := by
  have hnone : gather Uxn.perform Uxn.Access.popped (Uxn.drop (opFlag2 op)) f = [] := by
    cases opFlag2 op <;> rfl
  refine beside_left (p := Emit.ask) rfl ?_
  show Beside _ (if opFlagK c.currentOpcode = true then _ else _) _ _ c f
  have hkeep := h.keep
  have hcopy := h.copy
  rw [h.opcode]
  split
  next hk =>
    obtain ⟨p, hp⟩ := Option.isSome_iff_exists.mp (hkeep.trans hk)
    rw [hp] at hcopy
    refine ⟨?_, h.dropKept hcopy _⟩
    show Foretold [] (gather Uxn.perform Uxn.Access.popped (Uxn.drop (opFlag2 op)) f)
    rw [hnone]
    exact .nil
  next hk =>
    have hp : c.shadow = none := by
      rw [← Option.isNone_iff_eq_none, ← Option.not_isSome, hkeep]
      simpa using hk
    rw [hp] at hcopy
    refine beside_flag2 h.toLevel ?_
    refine beside_cur h.toLevel ?_
    refine ⟨?_, h.discard hcopy _⟩
    show Foretold [] (gather Uxn.perform Uxn.Access.popped (Uxn.drop (opFlag2 op)) f)
    rw [hnone]
    exact .nil

theorem beside_arith (h : Popping op base c f) (k : Op2) (eval : Short → Short → Short)
    (wraps : Bool) :
    Beside (alongside fuel) (Emit.arith k eval wraps)
      (Uxn.opcode.arith (opFlag2 op) (opStack op) eval) (fun _ _ => Level op base) c f := by
  refine beside_bind (beside_pop h) fun b y c f ⟨h, hb⟩ => ?_
  refine beside_bind (beside_pop h) fun a x c f ⟨h, ha⟩ => ?_
  refine beside_quiet quiet_allocReg h.toLevel fun reg c h => ?_
  refine beside_quiet (quiet_alu _) h fun _ c h => ?_
  have hpush : ∀ c, Level op base c f → Beside (alongside fuel)
      (Emit.push (Emit.result a b b.isShort (eval a.constValue b.constValue) reg))
      (Uxn.push (opStack op) (opFlag2 op) (eval x y)) (fun _ _ => Level op base) c f := by
    intro c h
    rw [hb.size]
    refine beside_push h (tells_result hb ha fun _ _ hx hy => ?_)
    rw [hx, hy]
  show Beside _ (if wraps = true then _ else _) _ _ _ _
  split
  · exact beside_quiet (quiet_wrapAround reg) h fun _ c h => hpush c h
  · exact hpush c h

theorem beside_compare (h : Popping op base c f) (cond : Cond) (test : Short → Short → Bool) :
    Beside (alongside fuel) (Emit.compareOp cond)
      (Uxn.opcode.compare (opFlag2 op) (opStack op) test) (fun _ _ => Level op base) c f := by
  refine beside_bind (beside_pop h) fun b y c f ⟨h, hb⟩ => ?_
  refine beside_bind (beside_pop h) fun a x c f ⟨h, ha⟩ => ?_
  refine beside_quiet quiet_allocReg h.toLevel fun reg c h => ?_
  refine beside_quiet (quiet_alu _) h fun _ c h => ?_
  refine beside_quiet (quiet_alu _) h fun _ c h => ?_
  have hbyte : Uxn.pushByte (opStack op) (if test x y then 1 else 0) =
      Uxn.push (opStack op) false (if test x y then 1 else 0) := by
    cases test x y <;> rfl
  rw [hbyte]
  exact beside_push h (tells_none rfl rfl)

variable (isShort) in
theorem quiet_load (mask w : Short) :
    Uxn.Quiet (Uxn.load isShort mask w) := by
  cases isShort with
  | false => exact ⟨rfl, fun _ => trivial⟩
  | true => exact ⟨rfl, fun _ => ⟨rfl, fun _ => trivial⟩⟩

theorem quiet_store (mask w : Short) :
    Uxn.Quiet (Uxn.store isShort mask w v) := by
  cases isShort with
  | false => exact ⟨rfl, fun _ => trivial⟩
  | true => exact ⟨rfl, fun _ => ⟨rfl, fun _ => trivial⟩⟩

theorem beside_loadPush (h : Level op base c f) (addr : Operand OpReg) (mask w : Short) :
    Beside (alongside fuel) (Emit.loadPush addr)
      (do Uxn.push (opStack op) (opFlag2 op) (← Uxn.load (opFlag2 op) mask w))
      (fun _ _ => Level op base) c f := by
  refine beside_quiet quiet_allocReg h fun reg c h => ?_
  refine beside_quiet (p := perform _) ⟨rfl, fun _ => trivial⟩ h fun _ c h => ?_
  refine beside_flag2 h ?_
  refine beside_memory (quiet_load _ mask w) h fun v f h => ?_
  exact beside_push h (tells_none rfl rfl)

/-! ### The opcodes -/

/-- Division by zero gives zero at compile time and at run time. -/
theorem evalDiv_eq (x y : Short) :
    (if (true && true && y != 0) = true then x / y else 0) = x / y := by
  rcases eq_or_ne y 0 with rfl | hy
  · exact BitVec.udiv_zero.symm
  · rw [if_pos (by simpa using hy)]

/-- SFT reads both nibbles of the byte, as the compiler does of its extension to a short. -/
theorem evalShift_eq (x : Short) (shift : Byte) :
    x >>> (shift.setWidth 16 &&& 0x0f) <<< ((shift.setWidth 16 &&& 0xf0) >>> 4) =
      x >>> (shift &&& 0x0f) <<< (shift >>> 4) := by
  have hlow : (shift.setWidth 16 &&& (0x0f : Short)).toNat = (shift &&& 0x0f).toNat := by
    revert shift
    decide +kernel
  have hhigh : ((shift.setWidth 16 &&& (0xf0 : Short)) >>> 4).toNat = (shift >>> 4).toNat := by
    revert shift
    decide +kernel
  simp only [BitVec.shiftLeft_eq', BitVec.ushiftRight_eq', hlow, hhigh]

theorem beside_dispatch (h : Popping op base c f) {pc : Short} {mn : Mnemonic} (hmn : mn.straight)
    (hlit : mn ≠ .LIT) : Beside (alongside fuel) (Emit.dispatch mn)
      (Uxn.opcode (opFlag2 op) (opStack op) pc mn) (fun _ _ => Level op base) c f := by
  cases mn with
  | INC =>
    refine beside_bind (beside_pop h) fun o v c f ⟨h, ho⟩ => ?_
    refine beside_quiet (quiet_alu _) h.toLevel fun _ c h => ?_
    refine beside_quiet (quiet_wrapAround _) h fun _ c h => ?_
    refine beside_push h ⟨ho.size, fun hc => ?_⟩
    change o.semantics.const = true at hc
    show (if o.semantics.const then o.constValue + 1 else o.constValue) = v + 1
    rw [if_pos hc, ho.value hc]
  | POP => exact beside_POP h
  | NIP =>
    refine beside_bind (beside_pop h) fun b y c f ⟨h, hb⟩ => ?_
    refine beside_bind (beside_POP h) fun _ _ c f h => ?_
    exact beside_push h hb
  | SWP =>
    refine beside_bind (beside_pop h) fun b y c f ⟨h, hb⟩ => ?_
    refine beside_bind (beside_pop h) fun a x c f ⟨h, ha⟩ => ?_
    refine beside_bind (beside_push h.toLevel hb) fun _ _ c f h => ?_
    exact beside_push h ha
  | ROT =>
    refine beside_bind (beside_pop h) fun z _ c f ⟨h, hz⟩ => ?_
    refine beside_bind (beside_pop h) fun b _ c f ⟨h, hb⟩ => ?_
    refine beside_bind (beside_pop h) fun a _ c f ⟨h, ha⟩ => ?_
    refine beside_bind (beside_push h.toLevel hb) fun _ _ c f h => ?_
    refine beside_bind (beside_push h hz) fun _ _ c f h => ?_
    exact beside_push h ha
  | DUP =>
    refine beside_bind (beside_pop h) fun a _ c f ⟨h, ha⟩ => ?_
    refine beside_bind (beside_push h.toLevel ha) fun _ _ c f h => ?_
    exact beside_push h ha
  | OVR =>
    refine beside_bind (beside_pop h) fun b _ c f ⟨h, hb⟩ => ?_
    refine beside_bind (beside_pop h) fun a _ c f ⟨h, ha⟩ => ?_
    refine beside_bind (beside_push h.toLevel ha) fun _ _ c f h => ?_
    refine beside_bind (beside_push h hb) fun _ _ c f h => ?_
    exact beside_push h ha
  | EQU => exact beside_compare h .equal _
  | NEQ => exact beside_compare h .notEqual _
  | GTH => exact beside_compare h .greater _
  | LTH => exact beside_compare h .less _
  | STH =>
    refine beside_bind (beside_pop h) fun a x c f ⟨h, ha⟩ => ?_
    refine beside_cur h.toLevel ?_
    exact beside_pushEx h.toLevel ha (opStack op).other
  | LDZ =>
    refine beside_bind (beside_popByte h) fun addr w c f ⟨h, _⟩ => ?_
    exact beside_loadPush h.toLevel addr _ _
  | STZ =>
    refine beside_bind (beside_popByte h) fun addr w c f ⟨h, _⟩ => ?_
    refine beside_bind (beside_pop h) fun value v c f ⟨h, _⟩ => ?_
    exact beside_last (quiet_perform rfl) (quiet_store _ _) h.toLevel
  | LDR =>
    refine beside_bind (beside_popByte h) fun addr w c f ⟨h, _⟩ => ?_
    refine beside_quiet (quiet_relative addr) h.toLevel fun addr c h => ?_
    exact beside_loadPush h addr _ _
  | STR =>
    refine beside_bind (beside_popByte h) fun addr w c f ⟨h, _⟩ => ?_
    refine beside_bind (beside_pop h) fun value v c f ⟨h, _⟩ => ?_
    refine beside_quiet (quiet_relative addr) h.toLevel fun addr c h => ?_
    exact beside_last (quiet_perform rfl) (quiet_store _ _) h
  | LDA =>
    refine beside_cur h.toLevel ?_
    refine beside_bind (beside_popEx _ h true) fun addr w c f ⟨h, _⟩ => ?_
    exact beside_loadPush h.toLevel addr _ _
  | STA =>
    refine beside_cur h.toLevel ?_
    refine beside_bind (beside_popEx _ h true) fun addr w c f ⟨h, _⟩ => ?_
    refine beside_bind (beside_pop h) fun value v c f ⟨h, _⟩ => ?_
    exact beside_last (quiet_perform rfl) (quiet_store _ _) h.toLevel
  | ADD => exact beside_arith h .add _ true
  | SUB => exact beside_arith h .sub _ true
  | MUL => exact beside_arith h .mul _ true
  | DIV =>
    refine beside_bind (beside_pop h) fun b y c f ⟨h, hb⟩ => ?_
    refine beside_bind (beside_pop h) fun a x c f ⟨h, ha⟩ => ?_
    refine beside_quiet quiet_allocReg h.toLevel fun reg c h => ?_
    refine beside_quiet (quiet_perform rfl) h fun _ c h => ?_
    rw [hb.size]
    refine beside_push h (tells_result hb ha fun hca hcb hx hy => ?_)
    rw [hca, hcb, hx, hy]
    exact evalDiv_eq x y
  | AND => exact beside_arith h .and _ false
  | ORA => exact beside_arith h .or _ false
  | EOR => exact beside_arith h .xor _ false
  | SFT =>
    refine beside_bind (beside_popByte h) fun b shift c f ⟨h, hb⟩ => ?_
    refine beside_bind (beside_pop h) fun a x c f ⟨h, ha⟩ => ?_
    refine beside_quiet quiet_allocReg h.toLevel fun reg c h => ?_
    refine beside_quiet (quiet_alu _) h fun _ c h => ?_
    refine beside_quiet (quiet_alu _) h fun _ c h => ?_
    refine beside_quiet (quiet_alu _) h fun _ c h => ?_
    refine beside_quiet (quiet_alu _) h fun _ c h => ?_
    refine beside_quiet (quiet_wrapAround reg) h fun _ c h => ?_
    rw [ha.size]
    refine beside_push h (tells_result hb ha fun _ _ hx hy => ?_)
    rw [hx, hy, evalShift_eq]
  | LIT => exact absurd rfl hlit
  | _ => simp [Mnemonic.straight] at hmn

theorem beside_LIT (h : Popping op base c f) {pc : Short} (hpc : c.pc = pc)
    (hhi : f.memory pc = c.jit.memory pc)
    (hlo : opFlag2 op → f.memory (pc + 1) = c.jit.memory (pc + 1)) :
    Beside (alongside fuel) Emit.LIT (Uxn.opcode (opFlag2 op) (opStack op) pc .LIT)
      (fun _ _ => Level op base) c f := by
  subst hpc
  have hq := run_quiet (nextOpcode fuel) (p := perform (F := micro) (.immediate (opFlag2 op)))
    (quiet_perform rfl) h.spRegs
  have hload := memory_quiet (quiet_load (opFlag2 op) 0xffff c.pc) (h.toLevel.quietly hq)
  refine beside_flag2 h.toLevel ?_
  refine beside_left rfl ?_
  refine beside_right hload.1 ?_
  refine beside_push hload.2 ⟨rfl, fun _ => ?_⟩
  show (if opFlag2 op then c.jit.memory c.pc ++ c.jit.memory (c.pc + 1)
    else (c.jit.memory c.pc).setWidth 16) = _
  cases hs : opFlag2 op with
  | false => exact congrArg (BitVec.setWidth 16) hhi.symm
  | true =>
    have hmask : (c.pc + 1) &&& 0xffff = c.pc + 1 := BitVec.and_allOnes
    show (c.jit.memory c.pc ++ c.jit.memory (c.pc + 1) : Short) =
      (f.memory c.pc ++ f.memory ((c.pc + 1) &&& 0xffff) : Short)
    rw [hmask, hhi, hlo hs]

/-! ### Opcodes that jump or access a device -/

theorem Micro.quiet_of_jumping {o : Micro} (h : o.jumping) : o.quiet := by
  cases o <;> first
    | rfl
    | simp [Micro.jumping] at h

theorem beside_JCN (h : Popping op base c f) (pc : Short)
    (hb : ¬((c.popEx (opFlag2 op) (opStack op)).1.isShort = false ∧
      (c.popEx (opFlag2 op) (opStack op)).1.semantics.boolean = true)) :
    Beside (alongside fuel) Emit.JCN (Uxn.opening (opFlag2 op) (opStack op) pc .JCN)
      (fun _ _ => Level op base) c f := by
  have hrun : (run (handle (nextOpcode fuel)) Emit.pop c).1 =
      (c.popEx (opFlag2 op) (opStack op)).1 := by
    rw [← h.ctx_cur, ← h.opcode]
    rfl
  refine beside_bind (beside_pop h).result fun o _ c f ⟨ho, h, _⟩ => ?_
  refine beside_bind (beside_popByte h) fun condition _ c f ⟨h, _⟩ => ?_
  refine beside_last ?_ (only_pure _) h.toLevel
  refine (jumping_conditionalJump _ condition ?_).mono fun _ => Micro.quiet_of_jumping
  rw [← hrun] at hb
  rw [ho]
  exact hb

theorem beside_popWst (h : Popping op base c f) (hop : opStack op = .wst) :
    Beside (alongside fuel) (Emit.popEx false .wst) Uxn.popByte (fun _ _ => Popping op base)
      c f := by
  have hpop := beside_popEx fuel h false
  rw [hop] at hpop
  exact ⟨hpop.matched, hpop.ends.1⟩

theorem beside_JCI (h : Popping op base c f) (hop : opStack op = .wst) (pc : Short) :
    Beside (alongside fuel) Emit.JCI (Uxn.opening (opFlag2 op) (opStack op) pc .JCI)
      (fun _ _ => Level op base) c f := by
  refine beside_bind (beside_popWst h hop) fun condition _ c f h => ?_
  have hq := run_quiet (nextOpcode fuel) (p := Emit.immediateJumpTarget)
    (quiet_perform rfl) h.spRegs
  refine beside_left rfl ?_
  refine beside_last ?_ (only_pure _) (h.toLevel.quietly hq)
  refine (jumping_conditionalJump _ condition ?_).mono fun _ => Micro.quiet_of_jumping
  have hshort : (run (handle (nextOpcode fuel)) Emit.immediateJumpTarget c).1.isShort = true := rfl
  exact fun ht => Bool.false_ne_true (ht.1.symm.trans hshort)

/-- Everything but pops. -/
def Micro.popless : Micro → Bool
  | .popEx .. => false
  | _ => true

abbrev Popless (p : Emit.Op α) : Prop := Only (F := micro) (fun o => o.popless) p

theorem beside_popless {p : Emit.Op α} (hp : Popless p) (b : β) :
    Beside (alongside fuel) p (Pure.pure b : Uxn.Op β) (fun _ _ _ _ => True) c f := by
  have hnil : gather (handle (nextOpcode fuel)) Micro.popped p c = [] := by
    refine gather_of_only ?_ hp
    intro o d ho
    cases o <;> first
      | rfl
      | simp [Micro.popless] at ho
  refine ⟨?_, trivial⟩
  show Foretold (gather (handle (nextOpcode fuel)) Micro.popped p c) []
  rw [hnil]
  exact .nil

theorem popless_perform {o : Micro} (ho : o.popless) :
    Popless (perform o) := ⟨ho, fun _ => trivial⟩

section Popless

variable (t : Operand Reg) (returnAddr : Short)

theorem popless_offStack {p : Emit.Op Unit} (hp : OffStack p) : Popless p := by
  refine hp.mono fun o ho => ?_
  cases o <;> first
    | rfl
    | simp [Micro.offStack, Micro.jumping] at ho

theorem popless_jump : Popless (Emit.jump t returnAddr) :=
  popless_offStack (offStack_jump t returnAddr)

theorem popless_conditionalJump (condition : Operand OpReg) :
    Popless (Emit.conditionalJump condition t) :=
  popless_offStack (offStack_conditionalJump t condition)

theorem popless_callTo (s : Stk) : Popless (Emit.callTo t s) :=
  ⟨rfl, fun _ => ⟨rfl, fun _ => ⟨rfl, fun _ => ⟨rfl, fun _ => ⟨rfl, fun _ =>
    popless_jump t _⟩⟩⟩⟩⟩

end Popless

/-- Whatever becomes of the control, an opcode pops what is foretold. -/
theorem beside_leaving (h : Popping op base c f) (hop : decode op = .JCI → opStack op = .wst)
    (pc : Short) {mn : Mnemonic} (hmn : decode op = mn) (hst : mn.straight = false) :
    Beside (alongside fuel) (Emit.dispatch mn) (Uxn.opening (opFlag2 op) (opStack op) pc mn)
      (fun _ _ _ _ => True) c f := by
  cases mn with
  | BRK =>
    apply beside_popless
    exact ⟨rfl, fun _ => ⟨rfl, fun _ => ⟨rfl, fun _ => trivial⟩⟩⟩
  | JMI =>
    apply beside_popless
    refine ⟨rfl, fun t => ?_⟩
    show Popless (Emit.jump t 0 >>= fun _ => Emit.finalize)
    exact only_bind (popless_jump t 0) fun _ => popless_perform rfl
  | JSI =>
    apply beside_popless
    exact ⟨rfl, fun t => popless_callTo t .rst⟩
  | JMP =>
    refine beside_bind (beside_pop h) fun o _ c f ⟨h, _⟩ => ?_
    apply beside_popless
    refine only_bind (popless_jump _ 0) fun _ => ?_
    split
    · exact popless_perform rfl
    · trivial
  | JSR =>
    refine beside_bind (beside_pop h) fun o _ c f ⟨h, _⟩ => ?_
    apply beside_popless
    exact ⟨rfl, fun _ => popless_callTo _ _⟩
  | JCN =>
    refine beside_bind (beside_pop h) fun o _ c f ⟨h, _⟩ => ?_
    refine beside_bind (beside_popByte h) fun condition _ c f ⟨h, _⟩ => ?_
    exact beside_popless (popless_conditionalJump _ condition) _
  | JCI =>
    refine beside_bind (beside_popWst h (hop hmn)) fun condition _ c f h => ?_
    apply beside_popless
    exact ⟨rfl, fun t => popless_conditionalJump t condition⟩
  | DEI =>
    refine beside_bind (beside_popByte h) fun addr _ c f ⟨h, _⟩ => ?_
    apply beside_popless
    exact ⟨rfl, fun _ => ⟨rfl, fun _ => ⟨rfl, fun _ => ⟨rfl, fun _ => ⟨rfl, fun _ =>
      ⟨rfl, fun _ => trivial⟩⟩⟩⟩⟩⟩
  | DEO =>
    refine beside_bind (beside_popByte h) fun addr _ c f ⟨h, _⟩ => ?_
    refine beside_bind (beside_pop h) fun value _ c f ⟨h, _⟩ => ?_
    apply beside_popless
    exact ⟨rfl, fun _ => ⟨rfl, fun _ => ⟨rfl, fun _ => trivial⟩⟩⟩
  | _ => simp [Mnemonic.straight] at hst

end Opcodes

/-! ## Sequences of opcodes -/

/-- Between two opcodes, with the next one at `pc` in the memory `m`. -/
structure Abreast (base : Stk → Byte) (m : Short → Byte) (pc : Short) (c : Ctx) (u : Uxn) :
    Prop where
  pc : c.pc = pc
  memory : c.jit.memory = m
  top : ∀ s, (u.stack s).top = base s + c.ptr s
  tags : ∀ s i, (c.tags s i).semantics.const →
    (u.stack s).data (base s + i) = (c.tags s i).constValue

section Sequence

variable {fuel : ℕ} {base : Stk → Byte} {m : Short → Byte} {pc : Short} {c : Ctx} {u : Uxn}

theorem opStack_JCI {op : Byte} : decode op = .JCI → opStack op = .wst := by
  revert op
  decide +kernel

theorem Abreast.enter (h : Abreast base m pc c u) :
    Popping (m pc) base c.beginOpcode (u.enter (m pc)) := by
  have hop : c.jit.memory c.pc = m pc := by rw [h.memory, h.pc]
  have hshadow : c.beginOpcode.shadow = if opFlagK (m pc) then some c.ptr else none := by
    rw [← hop]
    rfl
  refine ⟨⟨c.toGen.spRegs_beginOpcode _, ?_, rfl, h.top, h.tags⟩, ?_, ?_⟩
  · rw [c.beginOpcode_currentOpcode, hop]
  · rw [hshadow]
    cases opFlagK (m pc) <;> rfl
  · rw [hshadow, Uxn.enter]
    cases opFlagK (m pc) with
    | false => rfl
    | true => exact congrArg some (h.top _)

theorem opening_straight {isShort : Bool} {s : Stk} {mn : Mnemonic} (h : mn.straight) :
    Uxn.opening isShort s pc mn = Uxn.opcode isShort s pc mn := by
  cases mn <;> first
    | rfl
    | simp [Mnemonic.straight] at h

theorem Abreast.beside_straight (h : Abreast base m pc c u) (hst : (decode (m pc)).straight)
    (hlit : u.SameLiteral m pc) : Beside (alongside fuel) (Emit.dispatch (decode (m pc)))
      (Uxn.opens (m pc) (pc + 1)) (fun _ _ => Level (m pc) base) c.beginOpcode
      (u.enter (m pc)) := by
  rw [Uxn.opens, opening_straight hst]
  by_cases hd : decode (m pc) = .LIT
  · have hmem : c.beginOpcode.jit.memory = m := h.memory
    obtain ⟨hhi, hlo⟩ := hlit hd
    rw [hd]
    refine beside_LIT h.enter (congrArg (· + 1) h.pc) ?_ fun hs => ?_
    · rw [hmem]
      exact hhi
    · rw [hmem, add_assoc]
      exact hlo hs
  · exact beside_dispatch h.enter hst hd

/-- What is popped while the next opcode is compiled is what it pops. -/
theorem Abreast.foretold (h : Abreast base m pc c u) (hlit : u.SameLiteral m pc) :
    Foretold
      (gather (handle (nextOpcode fuel)) Micro.popped (Emit.dispatch (decode (m pc))) c.beginOpcode)
      (gather Uxn.perform Uxn.Access.popped (Uxn.opens (m pc) (pc + 1)) (u.enter (m pc))) := by
  cases hst : (decode (m pc)).straight with
  | true => exact (h.beside_straight hst hlit).matched
  | false => exact (beside_leaving h.enter opStack_JCI _ rfl hst).matched

variable (fuel) in
theorem Abreast.beside_fall (h : Abreast base m pc c u) (hfall : c.FallsThrough)
    (hlit : u.SameLiteral m pc) : Beside (alongside fuel) (Emit.dispatch (decode (m pc)))
      (Uxn.opens (m pc) (pc + 1)) (fun _ _ => Level (m pc) base) c.beginOpcode
      (u.enter (m pc)) := by
  have hop : c.jit.memory c.pc = m pc := by rw [h.memory, h.pc]
  have hcases := c.fallsThrough_iff.mp hfall
  rw [hop] at hcases
  obtain hst | hd | ⟨hd, hb⟩ := hcases
  · exact h.beside_straight hst hlit
  · rw [Uxn.opens, hd]
    exact beside_JCI h.enter (opStack_JCI hd) _
  · rw [Uxn.opens, hd]
    refine beside_JCN h.enter _ fun ht => ?_
    rw [Ctx.jumpsByBoolean, c.jumpOperand_eq, h.enter.opcode, h.enter.ctx_cur, ht.1, ht.2] at hb
    exact absurd hb (by simp)

/-- A jump that inlines nothing leaves the address and the memory alone. -/
theorem run_jumping (next : Ctx → Ctx) {p : Emit.Op Unit}
    (hp : Jumping p) :
    (run (handle next) p c).2.pc = c.pc ∧ (run (handle next) p c).2.jit.memory = c.jit.memory := by
  refine run_invariant (I := fun d : Ctx => d.pc = c.pc ∧ d.jit.memory = c.jit.memory)
    (P := fun _ _ => True) ?_ hp (along_of_only (fun _ _ _ => trivial) hp) ⟨rfl, rfl⟩
  intro o d ho _ hd
  cases o with
  | linkEntry t jump target => exact ⟨hd.1, (d.jit.linkEntry_memory t _ target).trans hd.2⟩
  | ask | clearStackCaches | emit | newLabel | forgetMemBase => exact hd
  | _ => simp [Micro.jumping] at ho

variable (fuel) in
theorem nextOpcode_passes (hpc : 256 ≤ c.pc) (hfall : c.FallsThrough) :
    (nextOpcode (fuel + 1) c).pc = c.pc + opLength (c.jit.memory c.pc) ∧
      (nextOpcode (fuel + 1) c).jit.memory = c.jit.memory := by
  obtain hst | hd | ⟨hd, hb⟩ := c.fallsThrough_iff.mp hfall
  · exact ⟨nextOpcode_pc fuel hpc hst, congrArg Jit.memory (nextOpcode_frame fuel hpc hst).1⟩
  · let d := (c.beginOpcode.popEx false .wst).2.immediateJumpTarget
    have hrun : nextOpcode (fuel + 1) c = (run (handle (nextOpcode fuel))
        (Emit.conditionalJump (c.beginOpcode.popEx false .wst).1 d.1) d.2).2 := by
      rw [nextOpcode_of_le fuel hpc, hd]
      rfl
    obtain ⟨hpc', hmem⟩ := run_jumping (c := d.2) (nextOpcode fuel)
      (jumping_conditionalJump d.1 (c.beginOpcode.popEx false .wst).1 fun ht =>
        Bool.false_ne_true (ht.1.symm.trans rfl))
    have hlen : opLength (c.jit.memory c.pc) = 3 := by rw [opLength, hd]
    have hd₁ : d.2.pc = (c.beginOpcode.popEx false .wst).2.pc + 2 := rfl
    have hd₂ : d.2.jit = (c.beginOpcode.popEx false .wst).2.jit := rfl
    have hbegin : c.beginOpcode.pc = c.pc + 1 := rfl
    rw [hrun, hpc', hmem, hd₁, hd₂, hlen, Ctx.popEx_pc, Ctx.popEx_jit, hbegin, add_assoc]
    exact ⟨rfl, rfl⟩
  · let o := c.beginOpcode.popEx (opFlag2 c.beginOpcode.currentOpcode) c.beginOpcode.cur
    let d := o.2.popEx false o.2.cur
    have hrun : nextOpcode (fuel + 1) c = (run (handle (nextOpcode fuel))
        (Emit.conditionalJump d.1 (Emit.target o.1)) d.2).2 := by
      rw [nextOpcode_of_le fuel hpc, hd]
      rfl
    have ho : c.jumpOperand = o.1 := c.jumpOperand_eq
    obtain ⟨hpc', hmem⟩ := run_jumping (c := d.2) (nextOpcode fuel)
      (jumping_conditionalJump (Emit.target o.1) d.1 fun ht => by
        rw [Ctx.jumpsByBoolean, ho] at hb
        have hs : o.1.isShort = false := ht.1
        have hbool : o.1.semantics.boolean = true := ht.2
        simp [hs, hbool] at hb)
    have hlen : opLength (c.jit.memory c.pc) = 1 := by rw [opLength, hd]
    have hbegin : c.beginOpcode.pc = c.pc + 1 := rfl
    rw [hrun, hpc', hmem, hlen, Ctx.popEx_pc, Ctx.popEx_jit, Ctx.popEx_pc, Ctx.popEx_jit, hbegin]
    exact ⟨rfl, rfl⟩

theorem Abreast.next (h : Abreast base m pc c u) (hpc : 256 ≤ pc) (hfall : c.FallsThrough)
    (hlit : u.SameLiteral m pc) :
    Abreast base m (pc + opLength (m pc)) (nextOpcode (fuel + 1) c) (u.pass (m pc) (pc + 1)) := by
  have hop : c.jit.memory c.pc = m pc := by rw [h.memory, h.pc]
  have hend := (h.beside_fall fuel hfall hlit).ends
  rw [← h.pc] at hpc
  obtain ⟨hpc', hmem⟩ := nextOpcode_passes fuel hpc hfall
  rw [nextOpcode_of_le fuel hpc] at hpc' hmem ⊢
  rw [hop] at hpc' hmem ⊢
  exact ⟨by rw [hpc', h.pc], hmem.trans h.memory, hend.top, hend.tags⟩

theorem Abreast.popped {n : ℕ} (h : Abreast base m pc c u) (hline : c.Line fuel n)
    (hlit : u.SameLiterals m (n + 1) pc) :
    Foretold (c.popped fuel (n + 1)) (u.popped m (n + 1) pc) := by
  induction n generalizing pc c u with
  | zero =>
    rw [Ctx.popped, Uxn.popped, h.memory, h.pc]
    exact (h.foretold hlit.1).append .nil
  | succ n ih =>
    obtain ⟨hpc, hfall, hline⟩ := hline
    rw [h.pc] at hpc
    rw [Ctx.popped, Uxn.popped, h.memory, h.pc]
    exact (h.foretold hlit.1).append (ih (h.next hpc hfall hlit.1) hline hlit.2)

end Sequence

/-- **Constant tracking agrees with the reference.** Of `n` opcodes from the block entry on that
fall through, and the opcode behind them, every operand that is tagged constant when it is popped
has the value of the bytes that the reference pops there, whatever the stacks and the memory are, if
the literals have the operand bytes that were compiled. -/
theorem constants_foretold (fuel : ℕ) {n : ℕ} {jit : Jit} {compiler : CompilerId} {pc : Short}
    {u : Uxn} (hline : (Ctx.start jit compiler pc).Line fuel n)
    (hlit : u.SameLiterals jit.memory (n + 1) pc) :
    Foretold ((Ctx.start jit compiler pc).popped fuel (n + 1))
      (u.popped jit.memory (n + 1) pc) := by
  have habreast : Abreast (fun s => (u.stack s).top) jit.memory pc (.start jit compiler pc) u := by
    refine ⟨rfl, rfl, fun s => ?_, fun s i hc => ?_⟩
    · exact (add_zero _).symm
    · exact absurd hc Bool.false_ne_true
  exact habreast.popped hline hlit

/-- LIT2 0102, INC2k, ADD2, JMP2: a jump to a computed constant. -/
def computedJump : List Byte := [0xa0, 0x01, 0x02, 0xa1, 0x38, 0x2c]

/-- The reference before a program, with pointers that are about to wrap around. -/
def Uxn.loaded (program : List Byte) : Uxn where
  memory := rom program
  stack _ := ⟨fun _ => 0, 0xff, fun _ => false⟩

theorem constants_foretold_computedJump :
    (Ctx.boot computedJump).Line 0 3 ∧
      Foretold ((Ctx.boot computedJump).popped 0 4)
        ((Uxn.loaded computedJump).popped (rom computedJump) 4 0x100) :=
  ⟨by decide +kernel, constants_foretold 0 (by decide +kernel) (by decide +kernel)⟩

/-- Its target is tagged constant, and the operands are the bytes on the stack. -/
example : ((Ctx.boot computedJump).popped 0 4).map (fun o => (o.semantics.const, o.constValue)) =
      [(true, 0x102), (true, 0x103), (true, 0x102), (true, 0x205)] ∧
    (Uxn.loaded computedJump).popped (rom computedJump) 4 0x100 =
      [0x02, 0x01, 0x03, 0x01, 0x02, 0x01, 0x05, 0x02] := by decide +kernel

end BuxnJit
