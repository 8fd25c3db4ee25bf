import BuxnJit.Jit.Native
import BuxnJit.Jit.Renaming

/-!
# Execution beside the reference

A run of the reference machine is covered as long as its opcodes are those that were compiled, read
live bytes and jump within the memory (`Console.Covered`). The native code follows such a run from
block to block (`Host.native_departs`), through the trampoline (`Host.trampoline_ends`), until control
goes back to the host (`Host.buxnJitExecute_ends`).
-/

namespace BuxnJit

open Foundations Prog

/-! ## Blocks in the zero page -/

theorem sites_zeroPage (fuel : ℕ) (m : Short → Byte) (b : BlockId) {pc : Short} (hpc : pc < 256) :
    Jit.sites fuel m b pc = [] := by
  have hpc' : (Ctx.start (.init m) b pc).pc < 256 := hpc
  rw [Jit.sites]
  cases fuel with
  | zero => rfl
  | succ f =>
    rw [blockRequests, requests, if_pos hpc', nextOpcode, if_pos hpc', List.nil_append]
    cases f with
    | zero => exact ite_self _
    | succ f =>
      rw [blockRequests]
      exact (congrArg _ (if_pos rfl)).trans (ite_self _)

/-! ## Runs of the reference -/

/-- Native code does not go on there: the program halts, or goes to the zero page. -/
def Next.Ends : Next → Prop
  | .goto pc => pc < 256
  | .halt => True

/-- The compilation of a block from there is `Clean`, when `m` is in memory. -/
def Next.Clean (fuel : ℕ) (m : Short → Byte) : Next → Prop
  | .goto pc => AlongBlock (fun _ => Micro.Clean) fuel fuel (.start (.init m) 0 pc)
  | .halt => True

theorem Next.clean_zeroPage (fuel : ℕ) (m : Short → Byte) {pc : Short} (hpc : pc < 256) :
    (Next.goto pc).Clean fuel m := by
  have hpc' : (Ctx.start (.init m) 0 pc).pc < 256 := hpc
  cases fuel with
  | zero => trivial
  | succ f =>
    refine .inr ⟨.inl hpc, ?_⟩
    rw [nextOpcode, if_pos hpc']
    cases f with
    | zero => trivial
    | succ f => exact .inl rfl

namespace Console

instance (fuel : ℕ) (m : Short → Byte) (nx : Next) : Decidable (nx.Clean fuel m) :=
  match nx with
  | .halt => .isTrue trivial
  | .goto pc => inferInstanceAs
    (Decidable (AlongBlock (fun _ => Micro.Clean) fuel fuel (.start (.init m) 0 pc)))

variable (D : Devices)

/-- After `n` opcodes, which are `Tame`, native code does not go on; wherever a block can begin, its
compilation is `Clean`. -/
def TameRun (fuel : ℕ) (m : Short → Byte) : ℕ → Next → Console → Prop
  | 0, nx, _ => nx.Ends
  | _ + 1, .halt, _ => False
  | n + 1, .goto pc, v => 256 ≤ pc ∧ Uxn.Tame m pc v.toUxn ∧
      ((decode (m pc)).transfers → (v.next D pc).1.Clean fuel m) ∧
        TameRun fuel m n (v.next D pc).1 (v.next D pc).2

instance TameRun.decidable (fuel : ℕ) (m : Short → Byte) : (n : ℕ) → (nx : Next) → (v : Console) →
    Decidable (TameRun D fuel m n nx v)
  | 0, .halt, _ => .isTrue trivial
  | 0, .goto pc, _ => inferInstanceAs (Decidable (pc < 256))
  | _ + 1, .halt, _ => .isFalse id
  | n + 1, .goto pc, v =>
    have := TameRun.decidable fuel m n (v.next D pc).1 (v.next D pc).2
    inferInstanceAs (Decidable (256 ≤ pc ∧ Uxn.Tame m pc v.toUxn ∧
      ((decode (m pc)).transfers → (v.next D pc).1.Clean fuel m) ∧ _))

/-- The run ends with `out` after `n` opcodes, and is tame for all memories in `M`. These occur. -/
structure Covered (fuel : ℕ) (M : (Short → Byte) → Prop) (out : Next × Console) (n : ℕ) (nx : Next)
    (v : Console) : Prop where
  tame : ∀ m, M m → TameRun D fuel m n nx v
  memory : ∀ k ≤ n, M (steps D k nx v).2.memory
  ends : steps D n nx v = out

/-- The run is covered, and ends after `n` opcodes at most. -/
def Within (fuel : ℕ) (M : (Short → Byte) → Prop) (out : Next × Console) (n : ℕ) (nx : Next)
    (v : Console) : Prop := ∃ k ≤ n, Covered D fuel M out k nx v

/-- The same, where a block can begin. -/
def Arrives (fuel : ℕ) (M : (Short → Byte) → Prop) (out : Next × Console) (n : ℕ) (nx : Next)
    (v : Console) : Prop := ∃ k ≤ n, Covered D fuel M out k nx v ∧ ∀ m, M m → nx.Clean fuel m

section

variable {D} {fuel n n' : ℕ} {M : (Short → Byte) → Prop} {m : Short → Byte} {out : Next × Console}
  {nx : Next} {pc : Short} {v : Console}

theorem Arrives.mono (h : Arrives D fuel M out n nx v) (hle : n ≤ n') : Arrives D fuel M out n' nx v := by
  obtain ⟨k, hk, hrest⟩ := h
  exact ⟨k, hk.trans hle, hrest⟩

theorem Covered.here (h : Covered D fuel M out n nx v) : M v.memory := h.memory 0 (Nat.zero_le n)

/-- Native code goes on where there are opcodes left. -/
theorem Covered.ends_iff (h : Covered D fuel M out n nx v) : nx.Ends ↔ n = 0 := by
  have htame := h.tame _ h.here
  cases n with
  | zero => exact iff_of_true htame rfl
  | succ n =>
    refine iff_of_false (fun hends => ?_) (Nat.succ_ne_zero n)
    cases nx with
    | halt => exact htame
    | goto pc => exact BitVec.not_lt.mpr htame.1 hends

theorem TameRun.ends (h : TameRun D fuel m n nx v) : (steps D n nx v).1.Ends := by
  induction n generalizing nx v with
  | zero => exact h
  | succ n ih =>
    cases nx with
    | halt => exact h.elim
    | goto pc => exact ih h.2.2.2

theorem Covered.next (h : Covered D fuel M out (n + 1) (.goto pc) v) :
    (∀ m, M m → Uxn.Tame m pc v.toUxn) ∧
      ((decode (v.memory pc)).transfers → ∀ m, M m → (v.next D pc).1.Clean fuel m) ∧
        Covered D fuel M out n (v.next D pc).1 (v.next D pc).2 := by
  refine ⟨fun m hm => (h.tame m hm).2.1, fun hst m hm => ?_, fun m hm => (h.tame m hm).2.2.2, ?_, h.ends⟩
  · obtain ⟨-, htame, hclean, -⟩ := h.tame m hm
    rw [htame.finds] at hst
    exact hclean hst
  · intro k hk
    exact h.memory (k + 1) (Nat.succ_le_succ hk)

/-- A covered run escorts a block that is compiled from one of the memories. -/
theorem escorts (hm : M m) : Escorts D m (Within D fuel M out n) (Arrives D fuel M out (n - 1)) := by
  have hgoes : ∀ pc v, Within D fuel M out n (.goto pc) v → 256 ≤ pc →
      ∃ k, k + 1 ≤ n ∧ Covered D fuel M out (k + 1) (.goto pc) v := by
    rintro pc v ⟨k, hk, hcov⟩ hpc
    obtain ⟨k, rfl⟩ := Nat.exists_eq_succ_of_ne_zero fun hzero =>
      BitVec.not_lt.mpr hpc (hcov.ends_iff.mpr hzero)
    exact ⟨k, hk, hcov⟩
  constructor
  · intro pc v h hpc
    obtain ⟨k, -, hcov⟩ := hgoes pc v h hpc
    exact hcov.next.1 m hm
  · intro pc v h hpc
    obtain ⟨k, hk, hcov⟩ := hgoes pc v h hpc
    exact ⟨k, Nat.le_of_succ_le hk, hcov.next.2.2⟩
  · intro pc v h hpc hst
    obtain ⟨k, hk, hcov⟩ := hgoes pc v h hpc
    obtain ⟨htame, hclean, hnext⟩ := hcov.next
    rw [← (htame m hm).finds] at hst
    exact ⟨k, Nat.le_sub_of_add_le hk, hnext, hclean hst⟩
  · rintro pc v ⟨k, hk, hcov⟩ hpc
    obtain rfl := hcov.ends_iff.mp hpc
    exact ⟨0, Nat.zero_le _, hcov, fun m _ => Next.clean_zeroPage fuel m hpc⟩
  · rintro nx v ⟨k, hk, hcov, -⟩
    exact ⟨k, hk.trans (Nat.sub_le n 1), hcov⟩

end

end Console

/-! ## Blocks -/

section Start

variable {fuel : ℕ} {m : Short → Byte} {pc : Short}

theorem Next.Clean.start (h : (Next.goto pc).Clean fuel m) (b : BlockId) :
    AlongBlock (fun _ => Micro.Clean) fuel fuel (.start (.init m) b pc) := by
  refine alongBlock_renamed fuel fuel ?_ h
  exact ⟨.init m, some b, rfl, by simp [Ctx.start], rfl⟩

/-- Compilation ends. -/
theorem compiler_compileBlock (hfuel : 65280 < fuel) (m : Short → Byte) (b : BlockId) (pc : Short) :
    ((Ctx.start (.init m) b pc).compileBlock fuel fuel).compiler = none := by
  have hends : ∀ c c', CompileLoop c c' → c'.compiler = none := by
    intro c c' h
    induction h with
    | done h => exact h
    | next _ _ _ ih => exact ih
  exact hends _ _ (compileBlock_returns hfuel fuel _ (.inr ((remaining_le pc).trans_lt hfuel)))

variable (E : Env) {σ : Mach}

theorem tracked_start (hrun : σ.status = .running) (m : Short → Byte) (b : BlockId) (pc : Short) :
    Tracked E σ m (.start (.init m) b pc, .none) := by
  refine ⟨⟨[], ⟨false, none, false, []⟩, ?_⟩, fun s i => rfl, rfl⟩
  refine ⟨⟨?_, ?_, ?_, rfl⟩, ?_, ?_, by simp, by simp, by simp, by simp, ?_, ?_⟩
  · simp [Ctx.start, cacheSize]
  · simp [Ctx.start, WrittenFirst]
  · simp [Ctx.start]
  · simp [Ctx.start, Gen.SpRegs]
  · simp [Given.none]
  · intro l hl
    change σ.status = _ at hl
    rw [hrun] at hl
    cases hl
  · intro _
    exact ⟨fun s => rfl, by simp [Given.none]⟩

theorem onward_start (hrun : σ.status = .running) (hvm : σ.regs .vm = E.layout.vm) {v : Console}
    (h : Agrees σ v) (m : Short → Byte) (b : BlockId) (pc : Short) :
    Onward E σ (.start (.init m) b pc, .none) (.goto pc) v := by
  refine ⟨rfl, by simp [Ctx.start], hrun, ?_⟩
  exact Gen.mirrors_of_agrees ⟨hvm, by simp [Ctx.start]⟩ h fun s => rfl

end Start

namespace Host

open Jit

variable {S : Sljit} {fuel n : ℕ} {E : Env} {D : Devices} {h : Host} {pc : Short} {b : BlockId} {σ : Mach}
  {M : (Short → Byte) → Prop} {out : Next × Console} {nx : Next} {v : Console}

theorem returned_of_departed (hd : Departed E [] nx σ v) : Returned nx v σ.returned ∧
    σ.returned.regs .vm = E.layout.vm ∧ σ.returned.status = .running := by
  obtain ⟨hagrees, hvm, e, he, hleads⟩ := hd
  cases e with
  | link jump =>
    obtain ⟨target, hr, -⟩ := hleads
    cases hr
  | ret w =>
    obtain rfl : w = nx.word := hleads
    rw [Mach.returned, he]
    exact ⟨⟨hagrees.idle ⟨rfl, fun _ => rfl, rfl⟩, rfl⟩, hvm, rfl⟩

/-- **Native code goes where the reference goes**, and comes back to its caller. -/
theorem native_departs (hE : E.Implements D) (hs : h.Serves S fuel) (hM : ∀ b < h.jit.numBlocks, M (h.src b)) {k : ℕ}
    (hk : k < n) (hb : h.Holds pc b) (hrun : σ.status = .running) (hvm : σ.regs .vm = E.layout.vm)
    (hagrees : Agrees σ v) (hcov : Console.Covered D fuel M out k (.goto pc) v)
    (hclean : ∀ m, M m → (Next.goto pc).Clean fuel m) :
    ∃ nx v', Console.Arrives D fuel M out (k - 1) nx v' ∧
      Departed E [] nx (h.native fuel E n b σ) v' := by
  induction n generalizing k pc b σ v with
  | zero => exact absurd hk (Nat.not_lt_zero k)
  | succ n ih =>
    obtain ⟨hlt, hkey⟩ := hs.key hb
    have hm := hM b hlt
    -- a block without requests can be entered at the end of the run
    have hdepth : ∀ r ∈ sites fuel (h.src b) b pc, ∀ i ≤ k - 1, i < n := by
      intro r hr i hi
      have hpos : k ≠ 0 := fun hzero => by
        rw [sites_zeroPage fuel _ b (hcov.ends_iff.mpr hzero)] at hr
        cases hr
      omega
    have hgoes : ∀ r ∈ sites fuel (h.src b) b pc, ∀ (σ : Mach) (v : Console),
        σ.regs .vm = E.layout.vm → Agrees σ v → Console.Arrives D fuel M out (k - 1) (.goto r.target) v →
        ∃ nx v', Console.Arrives D fuel M out (k - 1) nx v' ∧ Departed E [] nx (h.follow (h.native fuel E n)
          (if r.type = .toHead then Block.headAddr else Block.bodyAddr) b r.jump σ) v' := by
      rintro r hr σ v hvm hagrees ⟨i, hi, hcov, hclean⟩
      obtain ⟨t, ht, hfollow⟩ := hs.follow hb hr (h.native fuel E n) σ
      rw [hfollow]
      obtain ⟨nx, v', harrives, hdeparts⟩ := ih (hdepth r hr i hi) ht
        (σ := { σ with status := .running }) rfl hvm (hagrees.idle ⟨rfl, fun _ => rfl, rfl⟩) hcov hclean
      exact ⟨nx, v', harrives.mono ((Nat.sub_le i 1).trans hi), hdeparts⟩
    let E' : Env := { E with
      call := fun jump τ => (h.follow (h.native fuel E n) Block.headAddr b jump τ).returned }
    have hcalls : CallsWell E' (sites fuel (h.src b) b pc) (Console.Arrives D fuel M out (k - 1)) := by
      intro jump target hr σ v _ hvm hagrees harrives
      obtain ⟨nx, v', harrives', hdeparts⟩ := hgoes _ hr σ v hvm hagrees harrives
      exact ⟨nx, v', harrives', (returned_of_departed hdeparts).1⟩
    have hblock : ∃ nx v', Console.Arrives D fuel M out (k - 1) nx v' ∧
        Departed E' (sites fuel (h.src b) b pc) nx (Mach.exec E' (h.code fuel b) σ) v' := by
      have hfuel := hs.enough
      obtain ⟨f, rfl⟩ := Nat.exists_eq_succ_of_ne_zero (Nat.ne_of_gt (Nat.zero_lt_of_lt hfuel))
      have hdeparts := block_departs (E := E') ⟨hE.dei, hE.deo⟩ hcalls (Console.escorts hm) (f + 1)
        (tracked_start E' hrun (h.src b) b pc) (onward_start E' hrun hvm hagrees (h.src b) b pc)
        ⟨k, le_rfl, hcov⟩ ((hclean _ hm).start b) (List.Subset.refl _)
      have hcode : h.code (f + 1) b = blockCode (f + 1) (h.src b) b pc := by rw [code, hkey]
      rw [hcode]
      refine hdeparts.resolve_left fun hnone => hnone ?_
      exact compiler_compileBlock (Nat.lt_of_le_of_lt (by omega) hfuel) (h.src b) b pc
    obtain ⟨nx, v', harrives, hdeparts⟩ := hblock
    obtain ⟨hagrees', hvm', e, he, hleads⟩ := hdeparts
    have hnative : h.native fuel E (n + 1) b σ =
        h.leave (h.native fuel E n) b (Mach.exec E' (h.code fuel b) σ) := rfl
    rw [hnative, leave, he]
    cases e with
    | ret w => exact ⟨nx, v', harrives, hagrees', hvm', .ret w, he, hleads⟩
    | link jump =>
      obtain ⟨target, hr, rfl⟩ := hleads
      exact hgoes _ hr _ v' hvm' hagrees' harrives

/-- In the trampoline, with the next address in `SLJIT_R0`. -/
structure Resumed (E : Env) (nx : Next) (v : Console) (σ : Mach) : Prop extends Returned nx v σ where
  vm : σ.regs .vm = E.layout.vm
  running : σ.status = .running

theorem ends_iff_word : nx.Ends ↔ (0xffff < (nx.word.setWidth 64 : Word) ∨
    (nx.word.setWidth 64 : Word) < 0x100) := by
  cases nx with
  | halt => exact iff_of_true trivial (.inl (by decide))
  | goto pc =>
    have hpc := pc.isLt
    have hword : ((Next.goto pc).word.setWidth 64 : Word).toNat = pc.toNat := by
      simp only [Next.word, BitVec.toNat_setWidth]
      omega
    rw [Next.Ends, BitVec.lt_def, BitVec.lt_def, BitVec.lt_def, hword]
    change pc.toNat < 256 ↔ 65535 < pc.toNat ∨ pc.toNat < 256
    omega

variable (S fuel) in
/-- Blocks that are compiled on demand are compiled from what is in memory. -/
theorem src_translate (hM : ∀ b < h.jit.numBlocks, M (h.src b)) {m : Short → Byte} (hm : M m)
    (pc : Short) : ∀ b < (h.translate S fuel m pc).2.jit.numBlocks,
      M ((h.translate S fuel m pc).2.src b) := by
  intro b _
  change M (if b < h.jit.numBlocks then h.src b else m)
  split
  next hb => exact hM b hb
  next => exact hm

/-- **The trampoline goes on where the reference goes**, to its end. -/
theorem trampoline_ends (hE : E.Implements D) (hs : h.Serves S fuel) (hM : ∀ b < h.jit.numBlocks, M (h.src b)) {i k : ℕ}
    (hk : i < k) (hn : i < n) (hresumed : Resumed E nx v σ)
    (harrives : Console.Arrives D fuel M out i nx v) :
    ∃ h' σ', trampoline S fuel E n k h σ = (out.1.word, h', σ') ∧ h'.Serves S fuel ∧
      (∀ b < h'.jit.numBlocks, M (h'.src b)) ∧ Resumed E out.1 out.2 σ' := by
  induction k generalizing i h σ nx v with
  | zero => exact absurd hk (Nat.not_lt_zero i)
  | succ k ih =>
    obtain ⟨l, hl, hcov, hclean⟩ := harrives
    rw [trampoline, hresumed.back]
    by_cases hends : nx.Ends
    · rw [if_pos (ends_iff_word.mp hends)]
      obtain rfl := hcov.ends_iff.mp hends
      obtain rfl : (nx, v) = out := hcov.ends
      exact ⟨h, σ, by simp, hs, hM, hresumed⟩
    · rw [if_neg fun hw => hends (ends_iff_word.mpr hw)]
      obtain ⟨pc, rfl⟩ : ∃ pc, nx = .goto pc := by
        cases nx with
        | goto pc => exact ⟨pc, rfl⟩
        | halt => exact absurd trivial hends
      have hpos : l ≠ 0 := fun hzero => hends (hcov.ends_iff.mpr hzero)
      have hmem : σ.mem.cells .memory = v.memory := hresumed.agrees.memory
      have hword : ((Next.goto pc).word.setWidth 64 : Word).setWidth 16 = pc := by
        simp [Next.word]
      obtain ⟨hs', hb⟩ := hs.translate v.memory pc
      have hM' := src_translate S fuel hM hcov.here pc
      rw [hmem, hword]
      generalize h.translate S fuel v.memory pc = r at hs' hb hM'
      obtain ⟨b, h⟩ := r
      have hfind := (hs'.blockAt (hs'.key hb).1).1
      simp only [Mach.afterICall, hfind]
      obtain ⟨nx, v', harrives, hdeparts⟩ := native_departs hE hs' hM' (hl.trans_lt hn) hb
        (σ := σ.afterICall E ((h.jit.blocks b).headAddr, σ.mem, σ.trace)) hresumed.running hresumed.vm
        (hresumed.agrees.idle ⟨rfl, fun _ => rfl, rfl⟩) hcov hclean
      obtain ⟨hreturned, hvm, hrunning⟩ := returned_of_departed hdeparts
      exact ih hs' hM' (by omega) (by omega) ⟨hreturned, hvm, hrunning⟩ harrives

end Host

/-! ## `buxn_jit_execute` -/

namespace Host

open Jit

variable {S : Sljit} {fuel n : ℕ} {E : Env} {D : Devices} {h : Host} {pc : Short} {b : BlockId}
  {σ : Mach} {M : (Short → Byte) → Prop} {out : Next × Console} {v : Console}

/-- **The code of a block returns where native code ends.** -/
theorem fn_ends (hE : E.Implements D) (hs : h.Serves S fuel) (hM : ∀ b < h.jit.numBlocks, M (h.src b))
    {k : ℕ} (hk : k < n) (hb : h.Holds pc b) (hrun : σ.status = .running)
    (hbefore : Resembles σ.mem σ.trace v) (hcov : Console.Covered D fuel M out k (.goto pc) v)
    (hclean : ∀ m, M m → (Next.goto pc).Clean fuel m) :
    ∃ h' σ', fn S fuel E n b h σ = (out.1.word, h', σ') ∧ h'.Serves S fuel ∧
      (∀ b < h'.jit.numBlocks, M (h'.src b)) ∧ Resembles σ'.mem σ'.trace out.2 := by
  obtain ⟨hagrees, hvm, hrunning, -⟩ := Resembles.load (E := E) (σ := σ.set .vm E.layout.vm) hbefore
    hrun (by simp [Mach.set])
  obtain ⟨nx, v', harrives, hdeparts⟩ := native_departs hE hs hM hk hb hrunning hvm hagrees hcov hclean
  obtain ⟨hreturned, hvm', hrunning'⟩ := returned_of_departed hdeparts
  obtain ⟨h', σ', htrampoline, hs', hM', hresumed⟩ := trampoline_ends (k := n) hE hs hM
    ((Nat.sub_le k 1).trans_lt hk) ((Nat.sub_le k 1).trans_lt hk) ⟨hreturned, hvm', hrunning'⟩ harrives
  refine ⟨h', Mach.exec E saveStateCode σ', ?_, hs', hM', ?_⟩
  · simp only [fn, htrampoline]
  · exact (hresumed.agrees.save hresumed.running hresumed.vm).1

/-- What is left to do at the end of native code. -/
def finish (interpret : Short → Memory × List DeviceCall → Memory × List DeviceCall)
    (s : Memory × List DeviceCall) : Next → Memory × List DeviceCall
  | .halt => s
  | .goto pc => interpret pc s

variable (interpret : Short → Memory × List DeviceCall → Memory × List DeviceCall)

/-- After `buxn_jit_execute`, the memory and the calls resemble the reference at the end of native code,
but for what is left to do. -/
theorem execute_resembles (hE : E.Implements D) (hs : h.Serves S fuel)
    (hM : ∀ b < h.jit.numBlocks, M (h.src b)) {k : ℕ} (hk : k < n) (hrun : σ.status = .running)
    (hbefore : Resembles σ.mem σ.trace v) (hcov : Console.Covered D fuel M out k (.goto pc) v)
    (hclean : ∀ m, M m → (Next.goto pc).Clean fuel m) :
    ∃ m' t', (buxnJitExecute S fuel E interpret n pc h σ).2 = finish interpret (m', t') out.1 ∧
      Resembles m' t' out.2 ∧ (buxnJitExecute S fuel E interpret n pc h σ).1.Serves S fuel ∧
        ∀ b < (buxnJitExecute S fuel E interpret n pc h σ).1.jit.numBlocks,
          M ((buxnJitExecute S fuel E interpret n pc h σ).1.src b) := by
  have hmem : σ.mem.cells .memory = v.memory := hbefore.synced.memory
  obtain ⟨hs', hb⟩ := hs.translate v.memory pc
  have hM' := src_translate S fuel hM hcov.here pc
  obtain ⟨h', σ', hfn, hs'', hM'', hafter⟩ := fn_ends hE hs' hM' hk hb hrun hbefore hcov hclean
  have hends : out.1.Ends := hcov.ends ▸ (hcov.tame _ hcov.here).ends
  rw [buxnJitExecute, hmem]
  simp only [hfn]
  refine ⟨σ'.mem, σ'.trace, ?_, hafter, hs'', hM''⟩
  obtain ⟨nx, v'⟩ := out
  cases nx with
  | halt => rfl
  | goto pc =>
    have hle : ¬0xffff < (Next.goto pc).word := by
      have hpc := pc.isLt
      simp only [Next.word, BitVec.lt_def, BitVec.toNat_setWidth]
      change ¬65535 < _
      omega
    rw [if_neg hle]
    simp [finish, Next.word]

end Host

/-! ## Programs that do not write to memory -/

def Mnemonic.stores : Mnemonic → Bool
  | .STZ | .STR | .STA => true
  | _ => false

namespace Uxn

def Access.isPoke : Access → Bool
  | .poke .. => true
  | _ => false

theorem only_flow {mn : Mnemonic} (h : mn.stores = false) (isShort : Bool) (s : Stk) (pc : Short) :
    Only (F := accesses) (fun a => a.isPoke = false) (flow isShort s pc mn) := by
  cases mn <;> first
    | exact absurd h (by decide)
    | simp [flow, opcode, opcode.compare, opcode.arith, pop, popByte, push, pushByte, load, peek, drop,
        Prog.perform, Prog.bind, bind_eq, pure_eq, ite_bind, only_ite, Only, Access.isPoke]

theorem only_ports (isShort : Bool) (mn : Mnemonic) :
    Only (F := accesses) (fun a => a.isPoke = false) (ports isShort mn) := by
  cases mn <;>
    simp [ports, pop, popByte, Prog.perform, Prog.bind, bind_eq, pure_eq, ite_bind, only_ite, Only,
      Access.isPoke]

theorem memory_run {α : Type} {p : Op α} (h : Only (F := accesses) (fun a => a.isPoke = false) p) (f : Frame) :
    (p.run perform f).2.memory = f.memory := by
  refine run_invariant (h := perform) (I := fun g => g.memory = f.memory) (P := fun _ _ => True)
    (fun a g ha _ hg => ?_) h (along_of_forall fun _ _ => trivial) rfl
  cases a with
  | poke => cases ha
  | pop | drop => exact (memory_drop g).trans hg
  | push | peek => exact hg

theorem memory_push (s : Stk) (isShort : Bool) (v : Short) (f : Frame) :
    ((push s isShort v).run perform f).2.memory = f.memory := by
  rw [run_push]
  exact Gen.pushAll_memory _ _

end Uxn

/-- The handlers leave `vm->memory` as it is. -/
structure Devices.Spare (D : Devices) : Prop where
  dei : ∀ vm a, (D.dei vm a).2.memory = vm.memory
  deo : ∀ vm a, (D.deo vm a).memory = vm.memory

namespace Console

variable (D : Devices)

/-- No opcode of the run writes to memory. -/
def Storeless (m : Short → Byte) : ℕ → Next → Console → Prop
  | 0, _, _ | _ + 1, .halt, _ => True
  | n + 1, .goto pc, v => (decode (m pc)).stores = false ∧ Storeless m n (v.next D pc).1 (v.next D pc).2

instance Storeless.decidable (m : Short → Byte) : (n : ℕ) → (nx : Next) → (v : Console) →
    Decidable (Storeless D m n nx v)
  | 0, _, _ | _ + 1, .halt, _ => .isTrue trivial
  | n + 1, .goto pc, v =>
    have := Storeless.decidable m n (v.next D pc).1 (v.next D pc).2
    inferInstanceAs (Decidable (_ = _ ∧ _))

variable {D}

theorem memory_input (hD : D.Spare) (isShort : Bool) (a : Byte) (v : Console) :
    (v.input D isShort a).2.memory = v.memory := by
  have hdei : ∀ a (v : Console), (v.dei D a).2.memory = v.memory := fun a v => hD.dei v.vm a
  cases isShort with
  | false => exact hdei a v
  | true => exact (hdei (a + 1) _).trans (hdei a v)

theorem memory_notify (hD : D.Spare) (isShort : Bool) (a : Byte) (v : Console) :
    (v.notify D isShort a).memory = v.memory := by
  have hdeo : ∀ a (v : Console), (v.deo D a).memory = v.memory := fun a v => hD.deo v.vm a
  cases isShort with
  | false => exact hdeo a v
  | true => exact (hdeo (a + 1) _).trans (hdeo a v)

theorem memory_next (hD : D.Spare) {pc : Short} {v : Console}
    (h : (decode (v.memory pc)).stores = false) : (v.next D pc).2.memory = v.memory := by
  have hports := Uxn.memory_run (Uxn.only_ports (opFlag2 (v.memory pc)) (decode (v.memory pc)))
    (v.enter (v.memory pc))
  have hflow := Uxn.memory_run (Uxn.only_flow h (opFlag2 (v.memory pc)) (Uxn.opStack (v.memory pc))
    (pc + 1)) (v.enter (v.memory pc))
  rw [next]
  cases hmn : decode (v.memory pc) with
  | DEI =>
    rw [hmn] at hports
    exact (Uxn.memory_push ..).trans ((memory_input hD ..).trans hports)
  | DEO =>
    rw [hmn] at hports
    exact (memory_notify hD ..).trans hports
  | _ => exact hflow

/-- A tame run of such a program is covered. -/
theorem covered_of_storeless (hD : D.Spare) {fuel n : ℕ} {m : Short → Byte} {nx : Next} {v : Console}
    (hv : v.memory = m) (htame : TameRun D fuel m n nx v) (hstoreless : Storeless D m n nx v) :
    Covered D fuel (· = m) (steps D n nx v) n nx v := by
  refine ⟨fun m' hm' => hm' ▸ htame, ?_, rfl⟩
  induction n generalizing nx v with
  | zero =>
    intro k hk
    obtain rfl := Nat.le_zero.mp hk
    exact hv
  | succ n ih =>
    intro k hk
    cases nx with
    | halt => exact htame.elim
    | goto pc =>
      cases k with
      | zero => exact hv
      | succ k =>
        refine ih ?_ htame.2.2.2 hstoreless.2 k (Nat.le_of_succ_le_succ hk)
        rw [memory_next hD (by rw [hv]; exact hstoreless.1), hv]

/-- A new machine. -/
def boot (m : Short → Byte) : Console :=
  ⟨⟨m, fun _ => ⟨fun _ => 0, 0, fun _ => false⟩⟩, fun _ => 0, fun _ => 0, []⟩

end Console

/-- Handlers that do nothing. -/
instance : Inhabited Devices := ⟨fun vm _ => (0, vm), fun vm _ => vm⟩

/-- Every block has addresses of its own. -/
def Sljit.apart : Sljit where
  fn _ := 1
  headAddr c := .ofNat 64 (c % 65536 + 1)
  bodyAddr c := .ofNat 64 (c % 65536 + 1)
  executableOffset _ := 0

theorem Sljit.sound_apart : Sljit.apart.Sound := by
  have haddr : ∀ c, (BitVec.ofNat 64 (c % 65536 + 1)).toNat = c % 65536 + 1 := by
    intro c
    rw [BitVec.toNat_ofNat]
    omega
  have hinj : ∀ c < 65536, ∀ c' < 65536,
      BitVec.ofNat 64 (c % 65536 + 1) = BitVec.ofNat 64 (c' % 65536 + 1) → c = c' := by
    intro c hc c' hc' h
    have hnat := congrArg BitVec.toNat h
    rw [haddr, haddr] at hnat
    omega
  have hne : ∀ c, BitVec.ofNat 64 (c % 65536 + 1) ≠ 0 := by
    intro c h
    have hnat := congrArg BitVec.toNat h
    rw [haddr] at hnat
    simp at hnat
  exact ⟨fun c => ⟨by simp [Sljit.apart], hne c, hne c⟩, fun _ _ => rfl, hinj, hinj⟩

/-- A loop from two down to zero that writes the counter to a device, and a call of a routine that
increments the result. -/
def countdown : Short → Byte :=
  rom [0x80, 0x02, 0x80, 0x01, 0x19, 0x06, 0x80, 0x18, 0x17, 0x06, 0x20, 0xff, 0xf5, 0x60, 0x00, 0x01,
    0x00, 0x01, 0x6c]

end BuxnJit
