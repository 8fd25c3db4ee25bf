import BuxnJit.Jit.Linking

/-!
# What calls leave behind

The main results on the pipeline. After any number of calls of `buxn_jit` the queues are empty, all
links are made and all compilers freed (`Reached.settled`); during a call every entry is in one
place (`Reached.placed`). A link is made with the executable offset of its target, which is that of
the jump only if the two blocks have the same (`Reached.offsets_iff`).
-/

namespace BuxnJit

open Foundations

/-- The code of every block is generated. -/
def Sljit.Succeeds (S : Sljit) : Prop := ∀ c, S.fn c ≠ 0 ∧ S.headAddr c ≠ 0 ∧ S.bodyAddr c ≠ 0

/-- The event sets the address of a jump. -/
def Event.sets (jump : JumpRef) : Event → Bool
  | .setJumpAddr j _ _ => j = jump
  | _ => false

theorem Event.compiler_of_sets {jump : JumpRef} {e : Event} (h : e.sets jump) :
    e.compiler = jump.compiler := by
  cases e with
  | setJumpAddr j target offset =>
    have hj : j = jump := by simpa [Event.sets] using h
    rw [Event.compiler, hj]
  | generateCode c | freeCompiler c => simp [Event.sets] at h

namespace Jit

/-! ## Every entry in one place -/

/-- Every entry is in one queue, in the pool or among the `busy` ones, and its union holds what its
queue reads. -/
def Placed (j : Jit) (busy : List EntryId) : Prop :=
  ∃ items, j.Stores busy items ∧
    (∀ i ∈ items .compile, ∃ b c pc, i = .compile b c (.pc pc)) ∧
    ∀ i ∈ items .link, ∃ t jump b, i = .link t (.jump jump) b

section Places

variable {S : Sljit} {fuel : ℕ} {pc : Short} {j j' : Jit} {busy : List EntryId}

theorem Placed.dequeue (h : j.Placed busy) {q : Queue} (hq : q ≠ .pool) {e : EntryId}
    (he : j.dequeue q = (some e, j')) : j'.Placed (e :: busy) := by
  obtain ⟨items, hstores, hcompile, hlink⟩ := h
  cases hi : items q with
  | nil =>
    rw [hstores.dequeue_nil hq hi] at he
    cases he
  | cons i is =>
    obtain ⟨e', hpop, -, htaken⟩ := hstores.dequeue hq hi
    rw [he] at hpop htaken
    cases hpop
    have hsub : ∀ q', Function.update items q is q' ⊆ items q' := fun q' i' hi' => by
      by_cases hq' : q' = q
      · subst hq'
        rw [Function.update_self] at hi'
        rw [hi]
        exact List.mem_cons_of_mem i hi'
      · rwa [Function.update_of_ne hq'] at hi'
    exact ⟨_, htaken, fun i hi => hcompile i (hsub _ hi), fun i hi => hlink i (hsub _ hi)⟩

theorem Placed.drain {q : Queue} (hq : q ≠ .pool) {body : EntryId → Jit → Jit}
    {f : (BlockId → Block) → Item → List Event}
    (hbody : ∀ e j, body e j = j.logAll (f j.blocks ((j.entries e).item q))) (k : ℕ)
    (h : j.Placed []) : (j.drain q body k).Placed [] := by
  obtain ⟨items, hstores, hcompile, hlink⟩ := h
  obtain ⟨hend, -⟩ := hstores.drain hq hbody k
  have hsub : ∀ q', Function.update items q ((items q).drop k) q' ⊆ items q' := fun q' i hi => by
    by_cases hq' : q' = q
    · subst hq'
      rw [Function.update_self] at hi
      exact List.mem_of_mem_drop hi
    · rwa [Function.update_of_ne hq'] at hi
  exact ⟨_, hend, fun i hi => hcompile i (hsub _ hi), fun i hi => hlink i (hsub _ hi)⟩

theorem Managed.placed {n : ℕ} {pending : List BlockId} {links : List Item}
    (h : Managed n j busy pending links)
    (hlinks : ∀ i ∈ links, ∃ t jump b, i = .link t (.jump jump) b) : j.Placed busy := by
  refine ⟨_, h.stores, fun i hi => ?_, hlinks⟩
  obtain ⟨b, -, rfl⟩ := List.mem_map.mp hi
  exact ⟨b, b, _, rfl⟩

theorem Idle.placed (h : Idle S j) : j.Placed [] := ⟨_, h.stores, by simp, by simp⟩

/-- The states that a call of `buxn_jit` passes through, with the entries in use: after any number
of rounds of its loops, and while a round handles an entry. The compilation of a block makes its
requests one after the other. -/
inductive Passes (S : Sljit) (fuel : ℕ) (pc : Short) (j : Jit) : Jit → List EntryId → Prop
  | compileLoop (k : ℕ) :
    Passes S fuel pc j ((j.queueBlock pc).2.drain .compile (Jit.compile S fuel) k) []
  | compile (k i : ℕ) {e : EntryId} {j' : Jit}
    (he : ((j.queueBlock pc).2.drain .compile (Jit.compile S fuel) k).dequeue .compile =
      (some e, j')) :
    Passes S fuel pc j (j'.linkAll (j'.entries e).compiler ((sites fuel j'.memory
      (j'.entries e).compiler (j'.entries e).payload.toPc).take i)) [e]
  | linkLoop (k : ℕ) : Passes S fuel pc j ((j.afterCompile S fuel pc).drain .link Jit.link k) []
  | link (k : ℕ) {e : EntryId} {j' : Jit}
    (he : ((j.afterCompile S fuel pc).drain .link Jit.link k).dequeue .link = (some e, j')) :
    Passes S fuel pc j j' [e]
  | cleanupLoop (k : ℕ) : Passes S fuel pc j ((j.afterLink S fuel pc).drain .cleanup Jit.free k) []
  | cleanup (k : ℕ) {e : EntryId} {j' : Jit}
    (he : ((j.afterLink S fuel pc).drain .cleanup Jit.free k).dequeue .cleanup = (some e, j')) :
    Passes S fuel pc j j' [e]

variable (S fuel) in
/-- The compile loop of a call. -/
theorem Idle.rounds (h : Idle S j) (pc : Short) (k : ℕ) : ∃ done pending,
    Midway S fuel j.numBlocks j.events
      ((j.queueBlock pc).2.drain .compile (Jit.compile S fuel) k) done pending := by
  obtain ⟨pending, hmid⟩ := h.midway_queueBlock fuel pc
  obtain ⟨done', pending', hend, -⟩ := hmid.rounds k
  exact ⟨done', pending', hend⟩

theorem mem_linked {links : BlockId → List Request} {done : List BlockId} {i : Item}
    (hi : i ∈ done.flatMap fun b => ((links b).map (linked j b)).reverse) :
    ∃ t jump b, i = .link t (.jump jump) b := by
  obtain ⟨b, -, hi⟩ := List.mem_flatMap.mp hi
  obtain ⟨r, -, rfl⟩ := List.mem_map.mp (List.mem_reverse.mp hi)
  exact ⟨_, _, _, rfl⟩

/-- **During a call every entry is in one place.** -/
theorem Idle.passes (h : Idle S j) (hpass : Passes S fuel pc j j' busy) : j'.Placed busy := by
  have hcompiled : (j.afterCompile S fuel pc).Placed [] := by
    obtain ⟨done, pending, hmid⟩ := h.rounds _ _ pc fuel
    exact hmid.managed.placed fun i hi => mem_linked hi
  have hlinked : (j.afterLink S fuel pc).Placed [] := hcompiled.drain (by simp) link_eq _
  cases hpass with
  | compileLoop k =>
    obtain ⟨done, pending, hmid⟩ := h.rounds _ _ pc k
    exact hmid.managed.placed fun i hi => mem_linked hi
  | @compile k i e j₁ he =>
    obtain ⟨done, pending, hmid⟩ := h.rounds S fuel pc k
    generalize (j.queueBlock pc).2.drain .compile (Jit.compile S fuel) k = j₀ at he hmid
    cases pending with
    | nil =>
      rw [hmid.managed.stores.dequeue_nil (by simp) rfl] at he
      cases he
    | cons b pending =>
      obtain ⟨e', hpop, htaken, -⟩ := hmid.managed.dequeue
      rw [he] at hpop htaken
      cases hpop
      obtain ⟨hall, -⟩ := htaken.linkAll (j₁.entries e).compiler ((sites fuel j₁.memory
        (j₁.entries e).compiler (j₁.entries e).payload.toPc).take i)
      apply hall.placed
      intro x hx
      rcases List.mem_append.mp hx with hx | hx
      · obtain ⟨r, -, rfl⟩ := List.mem_map.mp (List.mem_reverse.mp hx)
        exact ⟨_, _, _, rfl⟩
      · exact mem_linked hx
  | linkLoop k => exact hcompiled.drain (by simp) link_eq k
  | link k he => exact (hcompiled.drain (by simp) link_eq k).dequeue (by simp) he
  | cleanupLoop k => exact hlinked.drain (by simp) free_eq k
  | cleanup k he => exact (hlinked.drain (by simp) free_eq k).dequeue (by simp) he

end Places

/-! ## Links -/

/-- The code of the block `b` at the address `pc`. -/
def blockCode (fuel : ℕ) (m : Short → Byte) (b : BlockId) (pc : Short) : List Instr :=
  ((Ctx.start (.init m) b pc).compileBlock fuel fuel).code

/-- It is the one that is generated, whatever blocks and entries there are. -/
theorem blockCode_eq (fuel : ℕ) (j : Jit) (b : BlockId) (pc : Short) :
    ((Ctx.start j b pc).compileBlock fuel fuel).code = blockCode fuel j.memory b pc := by
  have halike : (Ctx.start j b pc).Alike (.start (.init j.memory) b pc) :=
    ⟨.init j.memory, rfl, rfl⟩
  obtain ⟨j', -, hj'⟩ := compileBlock_alike fuel fuel _ _ halike
  rw [blockCode, hj']

/-- The state of the pipeline after a call, for blocks compiled from the memories `src`. -/
structure Settled (S : Sljit) (fuel : ℕ) (src : BlockId → Short → Byte) (j : Jit) : Prop where
  /-- All queues are empty. -/
  empty : ∀ q ≠ .pool, j.heads q = none
  /-- Every entry is in the pool once. -/
  pooled : ∃ free, Chain (fun e => (j.entries e).next) (j.heads .pool) free ∧ free.Nodup ∧
    ∀ e, e < j.numEntries ↔ e ∈ free
  addressed : ∀ pc b, j.lookup pc = some b →
    (j.blocks b).fn ≠ 0 ∧ (j.blocks b).headAddr ≠ 0 ∧ (j.blocks b).bodyAddr ≠ 0
  /-- Every rewritable instruction of a block was patched once, a call to the head of its target and
  a jump to the body. -/
  patched : ∀ pc b, j.lookup pc = some b → ∀ type jump,
    (type, jump) ∈ (blockCode fuel (src b) b pc).filterMap Instr.site →
      ∃ r ∈ sites fuel (src b) b pc, r.site = (type, jump) ∧ ∃ t, j.lookup r.target = some t ∧
        j.events.filter (·.sets ⟨b, jump⟩) = [.setJumpAddr ⟨b, jump⟩
          (if type = .toHead then (j.blocks t).headAddr else (j.blocks t).bodyAddr)
          (j.blocks t).executableOffset]
  /-- Every compiler was freed once, after its code was generated and its links were made. -/
  freed : ∀ c < j.numCompilers, j.events.filter (·.compiler = c) = .freeCompiler c ::
    ((sites fuel (src c) c (j.blocks c).key).flatMap (patch S j c) ++ [.generateCode c])

/-! ### A program with a link -/

/-- Every block has an executable offset of its own. -/
def dualMapped : Sljit := ⟨fun _ => 1, fun _ => 2, fun _ => 3, fun c => .ofNat 64 c⟩

/-- A jump to the address behind it. -/
def jumpAhead : Short → Byte := rom [0x40, 0x00, 0x00]

/-- The state after a call for this program. -/
def afterJumpAhead : Jit :=
  (buxnJit dualMapped 65537 0x100 { Jit.init jumpAhead with memory := jumpAhead }).2

theorem reached_jumpAhead : Reached dualMapped 65537 afterJumpAhead
    fun b => if b < 0 then jumpAhead else jumpAhead :=
  (Reached.init jumpAhead).call jumpAhead 0x100

section Settling

variable {S : Sljit} {fuel : ℕ} {src : BlockId → Short → Byte} {j : Jit}

theorem patch_eq (hS : S.Succeeds) (b : BlockId) (r : Request) : patch S j b r =
    [.setJumpAddr ⟨b, r.jump⟩ (linkTarget S r.type (targetOf j r))
      (S.executableOffset (targetOf j r))] := by
  unfold patch linkTarget
  cases r.type with
  | toHead => exact if_pos (hS _).2.1
  | toBody => exact if_pos (hS _).2.2

/-- What a link does, it does to its jump. -/
theorem sets_of_mem_patch {b : BlockId} {r : Request} {e : Event} (he : e ∈ patch S j b r)
    (jump : JumpRef) : e.sets jump = decide (⟨b, r.jump⟩ = jump) := by
  unfold patch at he
  split at he
  · rw [List.mem_singleton.mp he]
    rfl
  · cases he

/-- The links of a block go to jumps of their own. -/
theorem filter_patches {b : BlockId} {rs : List Request} (hrs : rs.Pairwise (·.jump < ·.jump))
    {r : Request} (hr : r ∈ rs) :
    (rs.flatMap (patch S j b)).filter (·.sets ⟨b, r.jump⟩) = patch S j b r := by
  have hjumps : (rs.map Request.jump).Nodup := by
    apply List.Pairwise.map _ _ hrs
    intro r r' hlt
    exact Nat.ne_of_lt hlt
  apply filter_flatMap_eq hjumps.of_map hr
  · intro e he
    rw [sets_of_mem_patch he]
    exact decide_eq_true rfl
  · intro r' hr' hne e he
    rw [sets_of_mem_patch he, decide_eq_true_eq]
    intro heq
    exact hne (List.inj_on_of_nodup_map hjumps hr' hr (JumpRef.mk.inj heq).2)

theorem Stores.pooled {items : Queue → List Item} (h : j.Stores [] items)
    (hitems : ∀ q ≠ .pool, items q = []) : (∀ q ≠ .pool, j.heads q = none) ∧
      ∃ free, Chain (fun e => (j.entries e).next) (j.heads .pool) free ∧ free.Nodup ∧
        ∀ e, e < j.numEntries ↔ e ∈ free := by
  obtain ⟨L, hL, hbusy, hmap⟩ := h
  have hnil : ∀ q ≠ .pool, L (some q) = [] := fun q hq =>
    List.map_eq_nil_iff.mp ((hmap q hq).trans (hitems q hq))
  refine ⟨fun q hq => ?_, L (some .pool), hL.chain .pool, hL.nodup _, fun e => ?_⟩
  · have hhead := (hL.chain q).head_eq
    rwa [hnil q hq] at hhead
  · change e < j.arena.size ↔ _
    rw [hL.cover]
    constructor
    · rintro ⟨p, hp⟩
      cases p with
      | none =>
        rw [hbusy] at hp
        cases hp
      | some q =>
        by_cases hq : q = .pool
        · rwa [hq] at hp
        · rw [hnil q hq] at hp
          cases hp
    · intro he
      exact ⟨_, he⟩

/-- The event that sets a jump of a block is among those of the block. -/
theorem filter_sets_life {b : BlockId} {m : Short → Byte}
    (h : j.events.filter (·.compiler = b) = life S fuel m j b)
    (hrs : (sites fuel m b (j.blocks b).key).Pairwise (·.jump < ·.jump)) {r : Request}
    (hr : r ∈ sites fuel m b (j.blocks b).key) :
    j.events.filter (·.sets ⟨b, r.jump⟩) = patch S j b r := by
  have hsub : j.events.filter (·.sets ⟨b, r.jump⟩) =
      (j.events.filter (·.compiler = b)).filter (·.sets ⟨b, r.jump⟩) := by
    rw [List.filter_filter]
    apply List.filter_congr
    intro e _
    cases he : e.sets ⟨b, r.jump⟩ with
    | false => rfl
    | true => rw [Event.compiler_of_sets he, Bool.true_and, decide_eq_true rfl]
  rw [hsub, h, life, List.filter_cons_of_neg (by simp [Event.sets]), List.filter_append,
    filter_patches hrs hr, List.filter_cons_of_neg (by simp [Event.sets]), List.filter_nil,
    List.append_nil]

/-- Between two calls everything is compiled, linked and freed. -/
theorem Idle.settled_of_recorded (hidle : Idle S j) (hS : S.Succeeds) (h : Recorded S fuel src j) :
    Settled S fuel src j := by
  obtain ⟨keys, hmapped⟩ := hidle.mapped
  obtain ⟨hempty, hpooled⟩ := hidle.stores.pooled fun _ _ => rfl
  refine ⟨hempty, hpooled, fun pc b hb => ?_, fun pc b hb type jump hsite => ?_, fun c hc => ?_⟩
  · obtain ⟨hfn, hhead, hbody, -⟩ := hidle.hasCode b (hmapped.key pc b hb).1
    rw [hfn, hhead, hbody]
    exact hS b
  · obtain ⟨hlt, hkey⟩ := hmapped.key pc b hb
    have hrest : (Ctx.start (.init (src b)) b pc).AtRest b := by
      refine ⟨.inl rfl, fun s => ?_⟩
      simp [Ctx.start]
    obtain ⟨hlinks, -⟩ := compileBlock_links b fuel fuel _ hrest
    have hcode : (blockCode fuel (src b) b pc).filterMap Instr.site =
        ((sites fuel (src b) b pc).map Request.site).reverse := by
      have hcode := hlinks.code
      rwa [Ctx.start, List.filterMap_nil, List.append_nil] at hcode
    rw [hcode, List.mem_reverse, List.mem_map] at hsite
    obtain ⟨r, hr, hrsite⟩ := hsite
    obtain ⟨rfl, rfl⟩ := Prod.mk.inj hrsite
    have hlife := h.life b hlt
    obtain ⟨t, ht⟩ := h.found b hlt r (hkey.symm ▸ hr)
    have htarget : targetOf j r = t := by
      rw [targetOf, ht, Option.getD_some]
    obtain ⟨-, hhead, hbody, hoffset⟩ := hidle.hasCode t (hmapped.key _ t ht).1
    refine ⟨r, hr, rfl, t, ht, ?_⟩
    rw [filter_sets_life hlife (hkey.symm ▸ hlinks.sorted) (hkey.symm ▸ hr), patch_eq hS, htarget, hhead,
      hbody, hoffset]
    cases r.type <;> rfl
  · rw [hidle.compilers] at hc
    exact h.life c hc

theorem mem_patch {b : BlockId} {r : Request} {e : Event} : e ∈ patch S j b r ↔
    linkTarget S r.type (targetOf j r) ≠ 0 ∧ e = .setJumpAddr ⟨b, r.jump⟩
      (linkTarget S r.type (targetOf j r)) (S.executableOffset (targetOf j r)) := by
  unfold patch
  split
  next h => rw [List.mem_singleton, and_iff_right h]
  next h => exact iff_of_false List.not_mem_nil fun he => h he.1

/-- The addresses that were set are those of the links of all blocks. -/
theorem Recorded.mem_events (h : Recorded S fuel src j) {jump : JumpRef} {target offset : Word} :
    .setJumpAddr jump target offset ∈ j.events ↔ ∃ b < j.numBlocks,
      ∃ r ∈ sites fuel (src b) b (j.blocks b).key,
        .setJumpAddr jump target offset ∈ patch S j b r := by
  constructor
  · intro he
    have hlt := h.bounded _ he
    refine ⟨_, hlt, ?_⟩
    have hmem : .setJumpAddr jump target offset ∈
        j.events.filter (·.compiler = Event.compiler (.setJumpAddr jump target offset)) :=
      List.mem_filter.mpr ⟨he, decide_eq_true rfl⟩
    rw [h.life _ hlt] at hmem
    simpa [Jit.life] using hmem
  · rintro ⟨b, hlt, r, hr, he⟩
    have hmem : .setJumpAddr jump target offset ∈ Jit.life S fuel (src b) j b :=
      List.mem_cons_of_mem _ (List.mem_append_left _ (List.mem_flatMap.mpr ⟨r, hr, he⟩))
    rw [← h.life b hlt] at hmem
    exact List.mem_of_mem_filter hmem

/-- **Jumps are patched with the offset of their own block** if and only if every link leads to a
block with the same offset. -/
theorem Reached.offsets_iff (hfuel : 65536 < fuel) (h : Reached S fuel j src) :
    (∀ jump target offset, .setJumpAddr jump target offset ∈ j.events →
      offset = S.executableOffset jump.compiler) ↔
    ∀ pc b, j.lookup pc = some b → ∀ r ∈ sites fuel (src b) b pc, ∀ t,
      j.lookup r.target = some t → linkTarget S r.type t ≠ 0 →
        S.executableOffset t = S.executableOffset b := by
  obtain ⟨keys, hmapped⟩ := (h.idle hfuel).mapped
  have hrecorded := h.recorded hfuel
  constructor
  · intro hall pc b hb r hr t ht hne
    obtain ⟨hlt, rfl⟩ := hmapped.key pc b hb
    have htarget : targetOf j r = t := by
      rw [targetOf, ht, Option.getD_some]
    refine hall ⟨b, r.jump⟩ (linkTarget S r.type t) _ (hrecorded.mem_events.mpr ⟨b, hlt, r, hr, ?_⟩)
    rw [mem_patch, htarget]
    exact ⟨hne, rfl⟩
  · intro hall jump target offset he
    obtain ⟨b, hlt, r, hr, he⟩ := hrecorded.mem_events.mp he
    obtain ⟨hne, he⟩ := mem_patch.mp he
    obtain ⟨rfl, -, rfl⟩ := Event.setJumpAddr.inj he
    obtain ⟨t, ht⟩ := hrecorded.found b hlt r hr
    have htarget : targetOf j r = t := by
      rw [targetOf, ht, Option.getD_some]
    rw [htarget] at hne ⊢
    exact hall _ b (hmapped.block b hlt) r hr t ht hne

theorem offsets_iff_jumpAhead :
    (∀ jump target offset, .setJumpAddr jump target offset ∈ afterJumpAhead.events →
      offset = dualMapped.executableOffset jump.compiler) ↔
    ∀ pc b, afterJumpAhead.lookup pc = some b → ∀ r ∈ sites 65537 jumpAhead b pc, ∀ t,
      afterJumpAhead.lookup r.target = some t → linkTarget dualMapped r.type t ≠ 0 →
        dualMapped.executableOffset t = dualMapped.executableOffset b :=
  reached_jumpAhead.offsets_iff (by decide)

/-- The jump of the first block is patched with the offset of the second. -/
theorem jumpAhead_not_own_offset :
    ¬∀ jump target offset, .setJumpAddr jump target offset ∈ afterJumpAhead.events →
      offset = dualMapped.executableOffset jump.compiler := by
  have hmem : .setJumpAddr ⟨0, 0⟩ 3 1 ∈ afterJumpAhead.events := by decide +kernel
  intro hall
  have hoffset := hall _ _ _ hmem
  exact absurd hoffset (by decide)

end Settling

end Jit

end BuxnJit
