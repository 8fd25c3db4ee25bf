import BuxnJit.Jit.Blocks

/-!
# Native code at work

Compiled blocks as they run: calls and rewritable jumps go to the addresses that they were patched
with (`Host.native`), and the trampoline has `buxn_jit` translate the other targets
(`Host.trampoline`). After any number of calls of `buxn_jit` the addresses are those of the blocks that
the jumps were requested for (`Host.Serves.follow`).
-/

namespace BuxnJit

open Foundations Prog

/-! ## The code around a block -/

namespace Mach

/-- The stub `call_fallback`. -/
def fallback (σ : Mach) : Mach := { σ with status := .left (.ret 0x10000) }

/-- Back at the caller, with the returned value in `SLJIT_R0`. -/
def returned (σ : Mach) : Mach :=
  match σ.status with
  | .left (.ret v) => { σ.set .memBase (v.setWidth 64) with status := .running }
  | _ => σ

end Mach

/-- The pipeline, and the memories from which the blocks were compiled. -/
structure Host where
  jit : Jit
  src : BlockId → Short → Byte

namespace Host

variable (S : Sljit) (fuel : ℕ) (E : Env)

/-- `buxn_jit`, when `m` is in memory. -/
def translate (m : Short → Byte) (pc : Short) (h : Host) : BlockId × Host :=
  let r := Jit.buxnJit S fuel pc { h.jit with memory := m }
  (r.1, ⟨r.2, fun b => if b < h.jit.numBlocks then h.src b else m⟩)

/-- The code of a block. -/
def code (h : Host) (b : BlockId) : List Instr :=
  Jit.blockCode fuel (h.src b) b (h.jit.blocks b).key

/-- The address that a jump of the block `b` was patched with. A patch with the offset of another
mapping does not change the code of `b`. -/
def patched (h : Host) (b : BlockId) (jump : Label) : Option Word :=
  match h.jit.events.find? (·.sets ⟨b, jump⟩) with
  | some (.setJumpAddr _ target offset) =>
    if offset = (h.jit.blocks b).executableOffset then some target else none
  | _ => none

/-- The block with the address `a`. -/
def blockAt (h : Host) (address : Block → Word) (a : Word) : Option BlockId :=
  (List.range h.jit.numBlocks).find? fun b => decide (address (h.jit.blocks b) = a)

/-- Go where a jump of the block `b` was patched to go. -/
def follow (h : Host) (run : BlockId → Mach → Mach) (address : Block → Word) (b : BlockId)
    (jump : Label) (σ : Mach) : Mach :=
  match (h.patched b jump).bind (h.blockAt address) with
  | some t => run t { σ with status := .running }
  | none => σ.fallback

/-- Leave the code of the block `b`. -/
def leave (h : Host) (run : BlockId → Mach → Mach) (b : BlockId) (σ : Mach) : Mach :=
  match σ.status with
  | .left (.link jump) => h.follow run Block.bodyAddr b jump σ
  | _ => σ

/-- Run the block `b`, and the blocks that it jumps to and calls, to a depth of `n`, until control
returns to the caller. -/
def native (h : Host) : ℕ → BlockId → Mach → Mach
  | 0, _, σ => σ.fallback
  | n + 1, b, σ => h.leave (native h n) b <| Mach.exec
    { E with call := fun jump τ => (h.follow (native h n) Block.headAddr b jump τ).returned }
    (h.code fuel b) σ

/-- The trampoline of the prologue, for `k` rounds at most; `buxn_jit_translate_jump_addr` is a C
function that is called. -/
def trampoline (n : ℕ) : ℕ → Host → Mach → BitVec 32 × Host × Mach
  | 0, h, σ => (0x10000, h, σ)
  | k + 1, h, σ =>
    if 0xffff < σ.regs .memBase ∨ σ.regs .memBase < 0x100 then
      ((σ.regs .memBase).setWidth 32, h, σ)
    else
      let (b, h) := h.translate S fuel (σ.mem.cells .memory) ((σ.regs .memBase).setWidth 16)
      let σ := σ.afterICall E ((h.jit.blocks b).headAddr, σ.mem, σ.trace)
      match h.blockAt Block.headAddr (σ.regs .memBase) with
      | some t => trampoline n k h (h.native fuel E n t σ).returned
      | none => (0x10000, h, σ)

/-- `block->fn`, the code of the block `b` with its prologue: what it returns, and the state then. -/
def fn (n : ℕ) (b : BlockId) (h : Host) (σ : Mach) : BitVec 32 × Host × Mach :=
  let σ := Mach.exec E loadStateCode (σ.set .vm E.layout.vm)
  let (v, h, σ) := trampoline S fuel E n n h (h.native fuel E n b σ).returned
  (v, h, Mach.exec E saveStateCode σ)

/-- `buxn_jit_execute`: the memory and the device calls behind it. `interpret` is `buxn_vm_execute`. -/
def buxnJitExecute (interpret : Short → Memory × List DeviceCall → Memory × List DeviceCall) (n : ℕ)
    (pc : Short) (h : Host) (σ : Mach) : Host × Memory × List DeviceCall :=
  let (b, h) := h.translate S fuel (σ.mem.cells .memory) pc
  let (next, h, σ) := fn S fuel E n b h σ
  -- The zero page is interpreted
  (h, if 0xffff < next then (σ.mem, σ.trace) else interpret (next.setWidth 16) (σ.mem, σ.trace))

end Host

/-! ## Where jumps go -/

/-- Memory is mapped once, and blocks have addresses of their own. -/
structure Sljit.Sound (S : Sljit) : Prop where
  succeeds : S.Succeeds
  offset : ∀ c c', S.executableOffset c = S.executableOffset c'
  head : ∀ c < 65536, ∀ c' < 65536, S.headAddr c = S.headAddr c' → c = c'
  body : ∀ c < 65536, ∀ c' < 65536, S.bodyAddr c = S.bodyAddr c' → c = c'

section Pipeline

open Jit

variable {S : Sljit} {fuel : ℕ} {j : Jit} {pc : Short} {b : BlockId} {src : BlockId → Short → Byte}

/-- **The block that `buxn_jit` returns** has the address. -/
theorem Jit.Idle.lookup_buxnJit (h : Idle S j) (hfuel : 65536 < fuel) (pc : Short) :
    (j.buxnJit S fuel pc).2.lookup pc = some (j.buxnJit S fuel pc).1 := by
  cases hold : j.lookup pc with
  | some b =>
    have hrun : j.buxnJit S fuel pc = (b, j) := by
      rw [Jit.buxnJit, queueBlock_old hold]
      simp only [h.drain (q := .compile) (by simp), h.drain (q := .link) (by simp),
        h.drain (q := .cleanup) (by simp), ite_self]
    rw [hrun, hold]
  | none =>
    have hfn : ((j.queueBlock pc).2.blocks (j.queueBlock pc).1).fn = 0 := by
      rw [(queueBlock_new hold).2.2.2.1, (queueBlock_new hold).1, Function.update_self]
    obtain ⟨done, hmid, hgrown⟩ := (h.start fuel hold).drain hfuel
    obtain ⟨-, hsame, -⟩ := hmid.finish
    rw [buxnJit_eq hfn]
    exact hsame.grown.lookup _ _ (hgrown.lookup _ _ (j.lookup_queueBlock_self pc))

/-- **A request is met**: its jump was patched, once. -/
theorem Jit.Settled.request (h : Settled S fuel src j) (hb : j.lookup pc = some b) {r : Request}
    (hr : r ∈ sites fuel (src b) b pc) : ∃ t, j.lookup r.target = some t ∧
      j.events.filter (·.sets ⟨b, r.jump⟩) = [.setJumpAddr ⟨b, r.jump⟩
        (if r.type = .toHead then (j.blocks t).headAddr else (j.blocks t).bodyAddr)
        (j.blocks t).executableOffset] := by
  have hrest : (Ctx.start (.init (src b)) b pc).AtRest b := by
    refine ⟨.inl rfl, fun s => ?_⟩
    simp [Ctx.start]
  obtain ⟨hlinks, -⟩ := compileBlock_links b fuel fuel _ hrest
  have hcode : (blockCode fuel (src b) b pc).filterMap Instr.site =
      ((sites fuel (src b) b pc).map Request.site).reverse ++ [] := hlinks.code
  have hsite : (r.type, r.jump) ∈ (blockCode fuel (src b) b pc).filterMap Instr.site := by
    rw [hcode, List.append_nil, List.mem_reverse]
    exact List.mem_map_of_mem hr
  obtain ⟨r', hr', hsame, t, ht, hevents⟩ := h.patched pc b hb _ _ hsite
  obtain ⟨htype, hjump⟩ := Prod.mk.inj hsame
  have hjumps : ((sites fuel (src b) b pc).map Request.jump).Nodup := by
    apply List.Pairwise.map _ _ hlinks.sorted
    intro r r' hlt
    exact Nat.ne_of_lt hlt
  obtain rfl : r' = r := List.inj_on_of_nodup_map hjumps hr' hr hjump
  exact ⟨t, ht, hevents⟩

end Pipeline

namespace Host

open Jit

variable {S : Sljit} {fuel : ℕ} {E : Env} {h : Host} {pc : Short} {b t : BlockId}

/-- The code of a host comes from calls of `buxn_jit`. -/
structure Serves (S : Sljit) (fuel : ℕ) (h : Host) : Prop where
  sound : S.Sound
  enough : 65536 < fuel
  reached : Reached S fuel h.jit h.src

theorem Serves.idle (hs : h.Serves S fuel) : Idle S h.jit := hs.reached.idle hs.enough

/-- The block `b` is that of the address `pc`. -/
def Holds (h : Host) (pc : Short) (b : BlockId) : Prop := h.jit.lookup pc = some b

theorem Serves.key (hs : h.Serves S fuel) (hb : h.Holds pc b) :
    b < h.jit.numBlocks ∧ (h.jit.blocks b).key = pc := by
  obtain ⟨keys, hmapped⟩ := hs.idle.mapped
  exact hmapped.key pc b hb

theorem Serves.translate (hs : h.Serves S fuel) (m : Short → Byte) (pc : Short) :
    (h.translate S fuel m pc).2.Serves S fuel ∧
      (h.translate S fuel m pc).2.Holds pc (h.translate S fuel m pc).1 :=
  ⟨⟨hs.sound, hs.enough, hs.reached.call m pc⟩, (hs.idle.memory m).lookup_buxnJit hs.enough pc⟩

theorem find_range {p : ℕ → Bool} {n b : ℕ} (hb : b < n) (hp : p b = true)
    (huniq : ∀ c < n, p c = true → c = b) : (List.range n).find? p = some b := by
  cases hfind : (List.range n).find? p with
  | none => exact absurd hp (List.find?_eq_none.mp hfind b (List.mem_range.mpr hb))
  | some c =>
    rw [huniq c (List.mem_range.mp (List.mem_of_find?_eq_some hfind)) (List.find?_some hfind)]

/-- **Blocks are found at their addresses.** -/
theorem Serves.blockAt (hs : h.Serves S fuel) (hb : b < h.jit.numBlocks) :
    h.blockAt Block.headAddr (h.jit.blocks b).headAddr = some b ∧
      h.blockAt Block.bodyAddr (h.jit.blocks b).bodyAddr = some b := by
  obtain ⟨keys, hmapped⟩ := hs.idle.mapped
  have hle := hmapped.numBlocks_le
  refine ⟨find_range hb (decide_eq_true rfl) fun c hc hp => ?_,
    find_range hb (decide_eq_true rfl) fun c hc hp => ?_⟩
  · have heq := of_decide_eq_true hp
    rw [(hs.idle.hasCode c hc).headAddr, (hs.idle.hasCode b hb).headAddr] at heq
    exact hs.sound.head c (hc.trans_le hle) b (hb.trans_le hle) heq
  · have heq := of_decide_eq_true hp
    rw [(hs.idle.hasCode c hc).bodyAddr, (hs.idle.hasCode b hb).bodyAddr] at heq
    exact hs.sound.body c (hc.trans_le hle) b (hb.trans_le hle) heq

/-- **A jump is followed** to the block that it was requested for. -/
theorem Serves.follow (hs : h.Serves S fuel) (hb : h.Holds pc b) {r : Request}
    (hr : r ∈ sites fuel (h.src b) b pc) (run : BlockId → Mach → Mach) (σ : Mach) :
    ∃ t, h.Holds r.target t ∧
      h.follow run (if r.type = .toHead then Block.headAddr else Block.bodyAddr) b r.jump σ =
        run t { σ with status := .running } := by
  have hsettled := hs.idle.settled_of_recorded hs.sound.succeeds (hs.reached.recorded hs.enough)
  obtain ⟨t, ht, hevents⟩ := hsettled.request hb hr
  have hlt := (hs.key ht).1
  obtain ⟨hhead, hbody⟩ := hs.blockAt hlt
  have hoffset : (h.jit.blocks t).executableOffset = (h.jit.blocks b).executableOffset := by
    rw [(hs.idle.hasCode t hlt).executableOffset,
      (hs.idle.hasCode b (hs.key hb).1).executableOffset]
    exact hs.sound.offset t b
  have hfind : h.jit.events.find? (·.sets ⟨b, r.jump⟩) = some (.setJumpAddr ⟨b, r.jump⟩
      (if r.type = .toHead then (h.jit.blocks t).headAddr else (h.jit.blocks t).bodyAddr)
      (h.jit.blocks t).executableOffset) := by
    rw [← List.head?_filter, hevents, List.head?_cons]
  refine ⟨t, ht, ?_⟩
  rw [Host.follow, patched, hfind]
  simp only [hoffset, if_true, Option.bind_some]
  cases r.type with
  | toHead => simp only [if_true, hhead]
  | toBody => simp only [reduceCtorEq, if_false, hbody]

end Host

end BuxnJit
