import BuxnJit.Uxn.Machine
import Mathlib.Data.BitVec
import Mathlib.Tactic.Abel

/-!
# The stack effect of opcodes

How many bytes an opcode pops and pushes, and by how much it moves the stack pointers of the
reference machine.
-/

namespace BuxnJit

open Foundations

namespace Uxn

/-- The bytes of a value. -/
def size (isShort : Bool) : Byte := if isShort then 2 else 1

/-- How many bytes an opcode pops. -/
def pops (isShort : Bool) : Mnemonic → Byte
  | .INC | .POP | .DUP | .STH => size isShort
  | .NIP | .SWP | .OVR | .EQU | .NEQ | .GTH | .LTH | .ADD | .SUB | .MUL | .DIV | .AND | .ORA | .EOR =>
    size isShort + size isShort
  | .ROT => size isShort + size isShort + size isShort
  | .LDZ | .LDR => 1
  | .LDA => 2
  | .STZ | .STR | .SFT => 1 + size isShort
  | .STA => 2 + size isShort
  | _ => 0

/-- How many bytes an opcode pushes. -/
def pushes (isShort : Bool) : Mnemonic → Byte
  | .LIT | .INC | .NIP | .STH | .LDZ | .LDR | .LDA | .ADD | .SUB | .MUL | .DIV | .AND | .ORA
  | .EOR | .SFT => size isShort
  | .SWP | .DUP => size isShort + size isShort
  | .ROT | .OVR => size isShort + size isShort + size isShort
  | .EQU | .NEQ | .GTH | .LTH => 1
  | _ => 0

/-- The stack that an opcode pushes on. -/
def target (op : Byte) : Stk := if decode op = .STH then (opStack op).other else opStack op

/-- By how much an opcode moves the pointer of a stack. In keep mode it pops nothing. -/
def effect (op : Byte) (s : Stk) : Byte :=
  (if s = target op then pushes (opFlag2 op) (decode op) else 0) -
    if s = opStack op ∧ opFlagK op = false then pops (opFlag2 op) (decode op) else 0

/-- The net effect of the `n` opcodes that `m` holds from `pc` on. -/
def netEffect (m : Short → Byte) : ℕ → Short → Stk → Byte
  | 0, _, _ => 0
  | n + 1, pc, s => effect (m pc) s + netEffect m n (pc + opLength (m pc)) s

/-! ## Pointers of the reference -/

/-- Working on the stack `c`, in keep mode or not, a program moves the pointers by `d`, whatever it
pops and reads. -/
def Shifts (c : Stk) (keep : Bool) {α : Type} (p : Op α) (d : Stk → Byte) : Prop :=
  ∀ f : Frame, f.cur = c → f.copy.isSome = keep →
    (p.run perform f).2.cur = c ∧ (p.run perform f).2.copy.isSome = keep ∧
      ∀ s, ((p.run perform f).2.stack s).top = (f.stack s).top + d s

/-- A move of one pointer. -/
def moves (s : Stk) (n : Byte) (s' : Stk) : Byte := if s' = s then n else 0

/-- What a pop of `n` bytes does to the pointers. -/
def takes (c : Stk) (keep : Bool) (n : Byte) : Stk → Byte := moves c (if keep then 0 else -n)

section Shifts

variable {c : Stk} {keep : Bool} {α β : Type} {d e : Stk → Byte}

theorem shifts_pure (a : α) : Shifts c keep (Pure.pure a : Op α) 0 := by
  intro f hcur hcopy
  exact ⟨hcur, hcopy, fun s => (add_zero _).symm⟩

theorem shifts_bind {p : Op α} {k : α → Op β} (hp : Shifts c keep p d)
    (hk : ∀ a, Shifts c keep (k a) e) : Shifts c keep (p >>= k) (d + e) := by
  intro f hcur hcopy
  obtain ⟨hcur', hcopy', htop⟩ := hp f hcur hcopy
  obtain ⟨hcur'', hcopy'', htop'⟩ := hk (p.run perform f).1 _ hcur' hcopy'
  rw [Prog.run_bind]
  refine ⟨hcur'', hcopy'', fun s => ?_⟩
  rw [htop', htop, Pi.add_apply, add_assoc]

theorem Shifts.congr {p : Op α} (h : Shifts c keep p d) (hd : d = e) : Shifts c keep p e := hd ▸ h

theorem Frame.drop_spec {f : Frame} (hcur : f.cur = c) (hcopy : f.copy.isSome = keep) :
    f.drop.cur = c ∧ f.drop.copy.isSome = keep ∧
      ∀ s, (f.drop.stack s).top = (f.stack s).top + takes c keep 1 s := by
  unfold Frame.drop takes moves
  cases hp : f.copy with
  | none =>
    rw [hp] at hcopy
    obtain rfl : keep = false := hcopy.symm
    refine ⟨hcur, by simp [Frame.setStack, hp], fun s => ?_⟩
    rw [hcur]
    by_cases hs : s = c
    · subst hs
      simp [Frame.setStack, sub_eq_add_neg]
    · simp [Frame.setStack, hs]
  | some p =>
    rw [hp] at hcopy
    obtain rfl : keep = true := hcopy.symm
    exact ⟨hcur, rfl, fun s => by simp⟩

theorem shifts_popByte : Shifts c keep popByte (takes c keep 1) :=
  fun _ hcur hcopy => Frame.drop_spec hcur hcopy

theorem shifts_dropByte : Shifts c keep (Prog.perform (F := accesses) .drop) (takes c keep 1) :=
  fun _ hcur hcopy => Frame.drop_spec hcur hcopy

theorem takes_add (m n : Byte) : takes c keep m + takes c keep n = takes c keep (m + n) := by
  ext1 s
  unfold takes moves
  by_cases hs : s = c <;> cases keep <;> simp [hs, add_comm]

theorem shifts_pop (isShort : Bool) : Shifts c keep (pop isShort) (takes c keep (size isShort)) := by
  unfold pop size
  cases isShort with
  | false => exact (shifts_bind shifts_popByte fun _ => shifts_pure _).congr (add_zero _)
  | true =>
    refine (shifts_bind shifts_popByte fun _ => shifts_bind shifts_popByte fun _ =>
      shifts_pure _).congr ?_
    rw [add_zero, takes_add]
    rfl

theorem shifts_drop (isShort : Bool) :
    Shifts c keep (drop isShort) (takes c keep (size isShort)) := by
  unfold drop size
  cases isShort with
  | false => exact (shifts_bind shifts_dropByte fun _ => shifts_pure _).congr (add_zero _)
  | true =>
    refine (shifts_bind shifts_dropByte fun _ => shifts_dropByte).congr ?_
    rw [takes_add]
    rfl

theorem shifts_pushByte (s : Stk) (b : Byte) : Shifts c keep (pushByte s b) (moves s 1) := by
  intro f hcur hcopy
  refine ⟨hcur, hcopy, fun s' => ?_⟩
  have hrun : ((pushByte s b).run perform f).2 = f.push s b := rfl
  rw [hrun, Frame.push, Frame.setStack, moves]
  by_cases hs : s' = s
  · subst hs
    simp
  · simp [hs]

theorem shifts_push (s : Stk) (isShort : Bool) (v : Short) :
    Shifts c keep (push s isShort v) (moves s (size isShort)) := by
  unfold push size
  cases isShort with
  | false => exact shifts_pushByte s _
  | true =>
    refine (shifts_bind (shifts_pushByte s _) fun _ => shifts_pushByte s _).congr ?_
    ext1 s'
    rw [Pi.add_apply, moves, moves]
    by_cases hs : s' = s <;> simp [hs]

theorem shifts_peek (addr : Short) : Shifts c keep (peek addr) 0 :=
  fun _ hcur hcopy => ⟨hcur, hcopy, fun _ => (add_zero _).symm⟩

theorem shifts_poke (addr : Short) (b : Byte) : Shifts c keep (poke addr b) 0 :=
  fun _ hcur hcopy => ⟨hcur, hcopy, fun _ => (add_zero _).symm⟩

theorem shifts_load (isShort : Bool) (mask addr : Short) :
    Shifts c keep (load isShort mask addr) 0 := by
  unfold load
  cases isShort with
  | false => exact (shifts_bind (shifts_peek _) fun _ => shifts_pure _).congr (add_zero _)
  | true =>
    refine (shifts_bind (shifts_peek _) fun _ => shifts_bind (shifts_peek _) fun _ =>
      shifts_pure _).congr ?_
    rw [add_zero, add_zero]

theorem shifts_store (isShort : Bool) (mask addr v : Short) :
    Shifts c keep (store isShort mask addr v) 0 := by
  unfold store
  cases isShort with
  | false => exact shifts_poke _ _
  | true => exact (shifts_bind (shifts_poke _ _) fun _ => shifts_poke _ _).congr (add_zero _)

theorem moves_add (s : Stk) (m n : Byte) : moves s m + moves s n = moves s (m + n) := by
  ext1 s'
  unfold moves
  by_cases hs : s' = s <;> simp [hs]

theorem moves_zero (s : Stk) : moves s 0 = 0 := by
  ext1 s'
  simp [moves]

theorem takes_zero : takes c keep 0 = 0 := by
  ext1 s
  cases keep <;> simp [takes, moves]

theorem shifts_compare (isShort : Bool) (test : Short → Short → Bool) :
    Shifts c keep (opcode.compare isShort c test)
      (takes c keep (size isShort + size isShort) + moves c 1) :=
  (shifts_bind (shifts_pop _) fun _ => shifts_bind (shifts_pop _) fun _ =>
    shifts_pushByte _ _).congr (by rw [← add_assoc, takes_add])

theorem shifts_arith (isShort : Bool) (eval : Short → Short → Short) :
    Shifts c keep (opcode.arith isShort c eval)
      (takes c keep (size isShort + size isShort) + moves c (size isShort)) :=
  (shifts_bind (shifts_pop _) fun _ => shifts_bind (shifts_pop _) fun _ =>
    shifts_push _ _ _).congr (by rw [← add_assoc, takes_add])

/-- A value is popped with an address of `n` bytes, and stored. -/
theorem shifts_stores {α : Type} {p : Op α} {n : Byte} (hp : Shifts c keep p (takes c keep n))
    (isShort : Bool) (mask : Short) (addr : α → Short) :
    Shifts c keep (do
      let a ← p
      store isShort mask (addr a) (← pop isShort)) (takes c keep (n + size isShort) + moves c 0) :=
  (shifts_bind hp fun _ => shifts_bind (shifts_pop _) fun _ => shifts_store _ _ _ _).congr
    (by rw [← add_assoc, takes_add, moves_zero])

/-- An address of `n` bytes is popped, and the value that it holds is pushed. -/
theorem shifts_loads {α : Type} {p : Op α} {n : Byte} (hp : Shifts c keep p (takes c keep n))
    (isShort : Bool) (mask : Short) (addr : α → Short) :
    Shifts c keep (do
      let a ← p
      push c isShort (← load isShort mask (addr a))) (takes c keep n + moves c (size isShort)) :=
  (shifts_bind hp fun _ => shifts_bind (shifts_load _ _ _) fun _ => shifts_push _ _ _).congr
    (by rw [zero_add])

/-- **Every opcode moves the pointers by its stack effect.** -/
theorem shifts_opcode {mn : Mnemonic} (hmn : mn.straight) (isShort : Bool) (pc : Short) :
    Shifts c keep (opcode isShort c pc mn)
      (takes c keep (pops isShort mn) +
        moves (if mn = .STH then c.other else c) (pushes isShort mn)) := by
  have hpop : Shifts c keep (pop isShort) (takes c keep (size isShort)) := shifts_pop isShort
  have hpush : ∀ v, Shifts c keep (push c isShort v) (moves c (size isShort)) := shifts_push c isShort
  cases mn with
  | LIT =>
    exact (shifts_bind (shifts_load _ _ _) hpush).congr
      (congrArg (· + moves c (size isShort)) takes_zero.symm)
  | INC => exact shifts_bind hpop fun _ => hpush _
  | POP =>
    exact (shifts_drop _).congr ((add_zero _).symm.trans
      (congrArg (takes c keep (size isShort) + ·) (moves_zero c).symm))
  | NIP =>
    refine (shifts_bind hpop fun _ => shifts_bind (shifts_drop _) fun _ => hpush _).congr ?_
    simp [pops, pushes, ← takes_add, add_assoc]
  | SWP =>
    refine (shifts_bind hpop fun _ => shifts_bind hpop fun _ => shifts_bind (hpush _) fun _ =>
      hpush _).congr ?_
    simp [pops, pushes, ← takes_add, ← moves_add, add_assoc]
  | ROT =>
    refine (shifts_bind hpop fun _ => shifts_bind hpop fun _ => shifts_bind hpop fun _ =>
      shifts_bind (hpush _) fun _ => shifts_bind (hpush _) fun _ => hpush _).congr ?_
    simp [pops, pushes, ← takes_add, ← moves_add, add_assoc]
  | DUP =>
    refine (shifts_bind hpop fun _ => shifts_bind (hpush _) fun _ => hpush _).congr ?_
    simp [pops, pushes, ← moves_add]
  | OVR =>
    refine (shifts_bind hpop fun _ => shifts_bind hpop fun _ => shifts_bind (hpush _) fun _ =>
      shifts_bind (hpush _) fun _ => hpush _).congr ?_
    simp [pops, pushes, ← takes_add, ← moves_add, add_assoc]
  | EQU => exact shifts_compare isShort _
  | NEQ => exact shifts_compare isShort _
  | GTH => exact shifts_compare isShort _
  | LTH => exact shifts_compare isShort _
  | STH => exact shifts_bind hpop fun _ => shifts_push _ _ _
  | LDZ => exact shifts_loads shifts_popByte isShort _ _
  | LDR => exact shifts_loads shifts_popByte isShort _ _
  | LDA => exact shifts_loads (shifts_pop true) isShort _ _
  | STZ => exact shifts_stores shifts_popByte isShort _ _
  | STR => exact shifts_stores shifts_popByte isShort _ _
  | STA => exact shifts_stores (shifts_pop true) isShort _ _
  | ADD => exact shifts_arith isShort _
  | SUB => exact shifts_arith isShort _
  | MUL => exact shifts_arith isShort _
  | DIV => exact shifts_arith isShort _
  | AND => exact shifts_arith isShort _
  | ORA => exact shifts_arith isShort _
  | EOR => exact shifts_arith isShort _
  | SFT =>
    refine (shifts_bind shifts_popByte fun _ => shifts_bind hpop fun _ => hpush _).congr ?_
    simp [pops, pushes, ← takes_add, add_assoc]
  | _ => simp [Mnemonic.straight] at hmn

end Shifts

/-- **The stack effect of an opcode.** -/
theorem step_top {op : Byte} (hop : (decode op).straight) (pc : Short) (u : Uxn) (s : Stk) :
    ((u.step op pc).stack s).top = (u.stack s).top + effect op s := by
  have hcopy : (u.enter op).copy.isSome = opFlagK op := by
    unfold enter
    cases opFlagK op <;> rfl
  have hcur : (u.enter op).cur = opStack op := rfl
  have htop : ((u.step op pc).stack s).top = (u.stack s).top + _ :=
    (shifts_opcode hop (opFlag2 op) pc (u.enter op) hcur hcopy).2.2 s
  rw [htop, effect, target, sub_eq_neg_add, Pi.add_apply, takes, moves, moves]
  congr 2
  cases opFlagK op <;> by_cases hs : s = opStack op <;> simp [hs]

end Uxn

end BuxnJit
