import BuxnJit.Jit.Lifecycle

/-!
# Linking and cleaning up

The link and the cleanup loop only log what they do with the entries of their queue
(`Stores.drain`). At the end of a call of `buxn_jit` all queues are empty and every block has code
(`Idle`), and the events of each compiler are known, in their order (`Reached.recorded`).
-/

namespace BuxnJit

open Foundations

namespace Jit

/-! ## Loops that log -/

/-- The same block map and memory. -/
structure SameMap (j j' : Jit) : Prop where
  root : j'.root = j.root
  first : j'.first = j.first
  blocks : j'.blocks = j.blocks
  numBlocks : j'.numBlocks = j.numBlocks
  numCompilers : j'.numCompilers = j.numCompilers
  memory : j'.memory = j.memory

theorem SameMap.refl (j : Jit) : SameMap j j := ⟨rfl, rfl, rfl, rfl, rfl, rfl⟩

theorem SameMap.grown {j j' : Jit} (h : SameMap j j') : Grown j j' :=
  ⟨h.numBlocks.ge, fun pc b hb => by rwa [lookup, h.root], fun b _ => by rw [h.blocks], h.memory⟩

theorem SameMap.trans {j j' j'' : Jit} (h : SameMap j j') (h' : SameMap j' j'') : SameMap j j'' :=
  ⟨h'.root.trans h.root, h'.first.trans h.first, h'.blocks.trans h.blocks,
    h'.numBlocks.trans h.numBlocks, h'.numCompilers.trans h.numCompilers, h'.memory.trans h.memory⟩

/-- What the link loop does for an item. -/
def linkEvents (blocks : BlockId → Block) : Item → List Event
  | .link t p b =>
    let target := if t = .toHead then (blocks b).headAddr else (blocks b).bodyAddr
    if target ≠ 0 then [.setJumpAddr p.toJump target (blocks b).executableOffset] else []
  | _ => []

/-- What the cleanup loop does for an item. -/
def freeEvents (_ : BlockId → Block) : Item → List Event
  | .cleanup c => [.freeCompiler c]
  | _ => []

def logAll (es : List Event) (j : Jit) : Jit := { j with events := es ++ j.events }

theorem link_eq (e : EntryId) (j : Jit) :
    link e j = j.logAll (linkEvents j.blocks ((j.entries e).item .link)) := by
  unfold link linkEvents Entry.item
  simp only
  split <;> split <;> rfl

theorem free_eq (e : EntryId) (j : Jit) :
    free e j = j.logAll (freeEvents j.blocks ((j.entries e).item .cleanup)) := rfl

/-- One round of a loop that logs. -/
theorem Stores.round {q : Queue} (hq : q ≠ .pool) {body : EntryId → Jit → Jit}
    {f : (BlockId → Block) → Item → List Event}
    (hbody : ∀ e j, body e j = j.logAll (f j.blocks ((j.entries e).item q))) {j : Jit}
    {items : Queue → List Item} (h : j.Stores [] items) {i : Item} {is : List Item}
    (hi : items q = i :: is) : ∃ e j₁, j.dequeue q = (some e, j₁) ∧
      ((body e j₁).enqueue .pool e).Stores [] (Function.update items q is) ∧
      SameMap j ((body e j₁).enqueue .pool e) ∧
      ((body e j₁).enqueue .pool e).events = f j.blocks i ++ j.events := by
  obtain ⟨e, hpop, hitem, hstores⟩ := h.dequeue hq hi
  obtain ⟨-, -, hj₁⟩ := j.dequeue_arena q
  have hsame : SameMap j (j.dequeue q).2 := by
    rw [hj₁]
    exact ⟨rfl, rfl, rfl, rfl, rfl, rfl⟩
  have hevents : (j.dequeue q).2.events = j.events := by rw [hj₁]
  have hentries : (j.dequeue q).2.entries = j.entries := by rw [hj₁]
  refine ⟨e, (j.dequeue q).2, Prod.ext hpop rfl, ?_⟩
  generalize (j.dequeue q).2 = j₁ at hstores hsame hevents hentries
  have hlog : (j₁.logAll (f j₁.blocks ((j₁.entries e).item q))).Stores [e]
      (Function.update items q is) := hstores.congr rfl rfl rfl fun _ _ => rfl
  have hsame' : SameMap j₁ ((j₁.logAll (f j₁.blocks ((j₁.entries e).item q))).enqueue .pool e) :=
    ⟨rfl, rfl, rfl, rfl, rfl, rfl⟩
  rw [hbody]
  refine ⟨?_, hsame.trans hsame', ?_⟩
  · apply (hlog.enqueue .pool).congr rfl rfl rfl
    intro q' hq'
    exact (Function.update_of_ne hq' ..).symm
  · rw [hsame.blocks, hentries, hitem, ← hevents]
    rfl

/-- **A loop that logs** handles the items of its queue in their order. -/
theorem Stores.drain {q : Queue} (hq : q ≠ .pool) {body : EntryId → Jit → Jit}
    {f : (BlockId → Block) → Item → List Event}
    (hbody : ∀ e j, body e j = j.logAll (f j.blocks ((j.entries e).item q))) (k : ℕ) {j : Jit}
    {items : Queue → List Item} (h : j.Stores [] items) :
    (j.drain q body k).Stores [] (Function.update items q ((items q).drop k)) ∧
      SameMap j (j.drain q body k) ∧
      (j.drain q body k).events = ((items q).take k).reverse.flatMap (f j.blocks) ++ j.events := by
  induction k generalizing j items with
  | zero =>
    rw [Jit.drain, List.drop_zero, Function.update_eq_self]
    exact ⟨h, .refl j, rfl⟩
  | succ k ih =>
    rw [Jit.drain]
    cases hi : items q with
    | nil =>
      have hupdate : Function.update items q [] = items := by rw [← hi, Function.update_eq_self]
      rw [h.dequeue_nil hq hi, List.drop_nil, hupdate]
      exact ⟨h, .refl j, rfl⟩
    | cons i is =>
      obtain ⟨e, j₁, hpop, hstores, hsame, hevents⟩ := h.round hq hbody hi
      rw [hpop]
      obtain ⟨hend, hmap, hlist⟩ := ih hstores
      rw [Function.update_self, Function.update_idem] at hend
      refine ⟨hend, hsame.trans hmap, ?_⟩
      rw [hlist, Function.update_self, hevents, hsame.blocks]
      simp

/-- Enough rounds empty the queue. -/
theorem Stores.drain_all {q : Queue} (hq : q ≠ .pool) {body : EntryId → Jit → Jit}
    {f : (BlockId → Block) → Item → List Event}
    (hbody : ∀ e j, body e j = j.logAll (f j.blocks ((j.entries e).item q))) {k : ℕ} {j : Jit}
    {items : Queue → List Item} (h : j.Stores [] items) (hk : (items q).length ≤ k) :
    (j.drain q body k).Stores [] (Function.update items q []) ∧ SameMap j (j.drain q body k) ∧
      (j.drain q body k).events = (items q).reverse.flatMap (f j.blocks) ++ j.events := by
  have hdrain := h.drain hq hbody k
  rwa [List.drop_of_length_le hk, List.take_of_length_le hk] at hdrain

theorem Stores.length_le {j : Jit} {busy : List EntryId} {items : Queue → List Item}
    (h : j.Stores busy items) (q : Queue) (hq : q ≠ .pool) : (items q).length ≤ j.numEntries := by
  obtain ⟨L, hL, -, hmap⟩ := h
  rw [← hmap q hq, List.length_map]
  exact hL.length_le (some q)

/-! ## A call -/

/-- Between two calls nothing is queued, and every block has code. -/
structure Idle (S : Sljit) (j : Jit) : Prop where
  mapped : ∃ keys, Mapped keys j
  compilers : j.numCompilers = j.numBlocks
  stores : j.Stores [] fun _ => []
  hasCode : ∀ b < j.numBlocks, HasCode S j b

/-- What a call adds, where `done` are the blocks that it compiled, the latest first. -/
structure Called (fuel : ℕ) (j j' : Jit) (done : List BlockId) : Prop extends Grown j j' where
  mem_iff : ∀ b, b ∈ done ↔ j.numBlocks ≤ b ∧ b < j'.numBlocks
  nodup : done.Nodup
  found : ∀ b ∈ done, ∀ r ∈ sites fuel j.memory b (j'.blocks b).key,
    ∃ b', j'.lookup r.target = some b'
  events : j'.events =
    (List.range' j.numBlocks (j'.numBlocks - j.numBlocks)).map .freeCompiler ++
      ((done.flatMap fun b => ((sites fuel j.memory b (j'.blocks b).key).map
        (linked j' b)).reverse).reverse.flatMap (linkEvents j'.blocks) ++
          (done.map .generateCode ++ j.events))

/-- The state after the compile loop of a call. -/
def afterCompile (S : Sljit) (fuel : ℕ) (pc : Short) (j : Jit) : Jit :=
  (j.queueBlock pc).2.drain .compile (Jit.compile S fuel) fuel

/-- The state after its link loop. -/
def afterLink (S : Sljit) (fuel : ℕ) (pc : Short) (j : Jit) : Jit :=
  (j.afterCompile S fuel pc).drain .link Jit.link ((j.afterCompile S fuel pc).numEntries + 1)

section Call

variable {S : Sljit} {fuel : ℕ} {j : Jit} {pc : Short}

theorem Idle.drain (h : Idle S j) {q : Queue} (hq : q ≠ .pool) (body : EntryId → Jit → Jit)
    (k : ℕ) : j.drain q body k = j := by
  cases k with
  | zero => rfl
  | succ k => rw [Jit.drain, h.stores.dequeue_nil hq rfl]

theorem Idle.managed (h : Idle S j) : Managed j.numBlocks j [] [] [] := by
  refine ⟨h.mapped, h.compilers, by simp, le_rfl, h.stores.congr rfl rfl rfl fun q hq => ?_⟩
  cases q with
  | compile | link => rfl
  | cleanup => simp
  | pool => exact absurd rfl hq

/-- A call that has nothing to compile. -/
theorem Idle.midway (h : Idle S j) : Midway S fuel j.numBlocks j.events j [] [] := by
  refine ⟨h.managed, fun b => ?_, .nil, fun b hb _ => h.hasCode b hb, by simp, rfl⟩
  exact iff_of_false (by simp) fun hb => Nat.not_lt.mpr hb.1 hb.2

variable (fuel) in
/-- The first request of a call, for a block that is new. -/
theorem Idle.start (h : Idle S j) (hnew : j.lookup pc = none) :
    Midway S fuel j.numBlocks j.events (j.queueBlock pc).2 [] [j.numBlocks] := by
  have hext := j.extended_queueBlock pc
  have hnum : (j.queueBlock pc).2.numBlocks = j.numBlocks + 1 := (queueBlock_new hnew).2.2.2.2
  have hask := h.managed.queueBlock pc
  rw [newBlocks_succ hnum] at hask
  refine ⟨hask, fun b => ?_, by simp, fun b hb hpending => ?_, by simp, hext.events⟩
  · have hlast : ∀ x n : ℕ, x = n ↔ n ≤ x ∧ x < n + 1 := by omega
    rw [hnum, List.nil_append, List.mem_singleton]
    exact hlast b j.numBlocks
  · have hne : b ≠ j.numBlocks := by simpa using hpending
    rw [hnum] at hb
    have hlt : b < j.numBlocks := lt_of_le_of_ne (Nat.lt_succ_iff.mp hb) hne
    obtain ⟨hfn, hhead, hbody, hoffset⟩ := h.hasCode b hlt
    constructor <;> rwa [hext.blocks b hlt]

variable (fuel) in
/-- The first request of a call. -/
theorem Idle.midway_queueBlock (h : Idle S j) (pc : Short) : ∃ pending,
    Midway S fuel j.numBlocks j.events (j.queueBlock pc).2 [] pending := by
  cases hold : j.lookup pc with
  | some b =>
    rw [queueBlock_old hold]
    exact ⟨[], h.midway⟩
  | none => exact ⟨[j.numBlocks], h.start _ hold⟩

/-- A call for a block without code. -/
theorem buxnJit_eq (hfn : ((j.queueBlock pc).2.blocks (j.queueBlock pc).1).fn = 0) :
    j.buxnJit S fuel pc = ((j.queueBlock pc).1, (j.afterLink S fuel pc).drain .cleanup
      free ((j.afterLink S fuel pc).numEntries + 1)) := by
  rw [Jit.buxnJit]
  simp only [hfn, ne_eq, not_true_eq_false, if_false]
  rfl

/-- The link and the cleanup loop, when all blocks are compiled. -/
theorem Midway.finish {n : ℕ} {ev : List Event} {done : List BlockId}
    (h : Midway S fuel n ev j done []) :
    let j₂ := j.drain .link link (j.numEntries + 1)
    let j₃ := j₂.drain .cleanup free (j₂.numEntries + 1)
    (j₂.dequeue .link).1 = none ∧ SameMap j j₃ ∧ Idle S j₃ ∧ j₃.events =
      (List.range' n (j.numBlocks - n)).map .freeCompiler ++
        ((done.flatMap fun b => ((sites fuel j.memory b (j.blocks b).key).map
          (linked j b)).reverse).reverse.flatMap (linkEvents j.blocks) ++
            (done.map .generateCode ++ ev)) := by
  obtain ⟨hstores₂, hsame₂, hevents₂⟩ := h.managed.stores.drain_all (q := .link) (by simp) link_eq
    (k := j.numEntries + 1) ((h.managed.stores.length_le .link (by simp)).trans (Nat.le_succ _))
  intro j₂ j₃
  obtain ⟨hstores₃, hsame₃, hevents₃⟩ := hstores₂.drain_all (q := .cleanup) (by simp) free_eq
    (k := j₂.numEntries + 1) ((hstores₂.length_le .cleanup (by simp)).trans (Nat.le_succ _))
  have hsame : SameMap j j₃ := hsame₂.trans hsame₃
  have hnone : (j₂.dequeue .link).1 = none :=
    congrArg Prod.fst (hstores₂.dequeue_nil (by simp) (Function.update_self ..))
  refine ⟨hnone, hsame, ⟨?_, ?_, hstores₃.congr rfl rfl rfl fun q hq => ?_, fun b hb => ?_⟩, ?_⟩
  · obtain ⟨keys, hmapped⟩ := h.managed.mapped
    exact ⟨keys, hmapped.congr hsame.root hsame.first hsame.numBlocks
      fun b => by rw [hsame.blocks]; exact ⟨rfl, rfl⟩⟩
  · rw [hsame.numCompilers, hsame.numBlocks, h.managed.compilers]
  · cases q with
    | compile | link | cleanup => simp
    | pool => exact absurd rfl hq
  · obtain ⟨hfn, hhead, hbody, hoffset⟩ := h.hasCode b (hsame.numBlocks ▸ hb) (by simp)
    constructor <;> rwa [hsame.blocks]
  · rw [hevents₃, hevents₂, h.events]
    have hfree : ∀ (blocks : BlockId → Block) (cs : List CompilerId),
        (cs.map Item.cleanup).flatMap (freeEvents blocks) = cs.map .freeCompiler := by
      intro blocks cs
      induction cs with
      | nil => rfl
      | cons c cs ih => rw [List.map_cons, List.flatMap_cons, ih]; rfl
    rw [Function.update_of_ne (by simp), ← List.map_reverse, List.reverse_reverse, hfree]

/-- **A call of `buxn_jit`.** -/
theorem Idle.buxnJit (h : Idle S j) (hfuel : 65536 < fuel) (pc : Short) :
    Idle S (j.buxnJit S fuel pc).2 ∧ ∃ done, Called fuel j (j.buxnJit S fuel pc).2 done := by
  cases hold : j.lookup pc with
  | some b =>
    have hrun : (j.buxnJit S fuel pc).2 = j := by
      rw [Jit.buxnJit, queueBlock_old hold]
      simp only [h.drain (q := .compile) (by simp), h.drain (q := .link) (by simp),
        h.drain (q := .cleanup) (by simp), ite_self]
    rw [hrun]
    refine ⟨h, [], .refl j, fun b => ?_, .nil, by simp, by simp⟩
    exact iff_of_false (by simp) fun hb => Nat.not_lt.mpr hb.1 hb.2
  | none =>
    have hstart := h.start fuel hold
    have hfn : ((j.queueBlock pc).2.blocks (j.queueBlock pc).1).fn = 0 := by
      rw [(queueBlock_new hold).2.2.2.1, (queueBlock_new hold).1, Function.update_self]
    have hext := j.extended_queueBlock pc
    obtain ⟨done, hmid, hgrown⟩ := hstart.drain hfuel
    have hfinish := hmid.finish
    rw [buxnJit_eq hfn]
    simp only [afterLink, afterCompile]
    generalize (j.queueBlock pc).2.drain .compile (Jit.compile S fuel) fuel = j₁ at *
    obtain ⟨-, hsame, hidle, hevents⟩ := hfinish
    generalize (j₁.drain .link link (j₁.numEntries + 1)).drain .cleanup free
      ((j₁.drain .link link (j₁.numEntries + 1)).numEntries + 1) = j₃ at *
    have hgrown₁ : Grown j j₁ := hext.toGrown.trans hgrown
    have hgrown₃ := hgrown₁.trans hsame.grown
    have hlinked : ∀ c r, linked j₃ c r = linked j₁ c r := fun c r => by
      rw [linked, linked, targetOf, targetOf, lookup, lookup, hsame.root]
    refine ⟨hidle, done, hgrown₃, fun b => ?_, ?_, fun b hb r hr => ?_, ?_⟩
    · rw [hsame.numBlocks, ← hmid.mem_iff, List.append_nil]
    · simpa using hmid.nodup
    · rw [hsame.blocks, ← hgrown₁.memory] at hr
      obtain ⟨b', hb'⟩ := hmid.found b hb r hr
      exact ⟨b', hsame.grown.lookup _ _ hb'⟩
    · rw [hevents, hsame.numBlocks, hsame.blocks, hgrown₁.memory]
      simp only [funext (hlinked _)]

end Call

/-! ## Any number of calls -/

/-- The states that calls of `buxn_jit` reach, whatever is in memory at each of them. `src` tells
from which memory every block was compiled. -/
inductive Reached (S : Sljit) (fuel : ℕ) : Jit → (BlockId → Short → Byte) → Prop
  | init (m : Short → Byte) : Reached S fuel (.init m) fun _ => m
  | call {j : Jit} {src : BlockId → Short → Byte} (h : Reached S fuel j src) (m : Short → Byte)
    (pc : Short) : Reached S fuel (buxnJit S fuel pc { j with memory := m }).2
      fun b => if b < j.numBlocks then src b else m

theorem idle_init (S : Sljit) (m : Short → Byte) : Idle S (.init m) := by
  refine ⟨⟨∅, mapped_init m⟩, rfl, ⟨fun _ => [], ⟨fun _ => .nil, by simp, by simp, ?_⟩, rfl, by simp⟩,
    fun b hb => absurd hb (Nat.not_lt_zero b)⟩
  simp [arena, Jit.init]

/-- Changing the memory. -/
theorem Idle.memory {S : Sljit} {j : Jit} (h : Idle S j) (m : Short → Byte) :
    Idle S { j with memory := m } := by
  obtain ⟨keys, hmapped⟩ := h.mapped
  refine ⟨⟨keys, hmapped.congr rfl rfl rfl fun _ => ⟨rfl, rfl⟩⟩, h.compilers,
    h.stores.congr rfl rfl rfl fun _ _ => rfl, fun b hb => ?_⟩
  obtain ⟨hfn, hhead, hbody, hoffset⟩ := h.hasCode b hb
  exact ⟨hfn, hhead, hbody, hoffset⟩

/-- **Every call leaves the queues empty.** -/
theorem Reached.idle {S : Sljit} {fuel : ℕ} (hfuel : 65536 < fuel) {j : Jit}
    {src : BlockId → Short → Byte} (h : Reached S fuel j src) : Idle S j := by
  induction h with
  | init m => exact idle_init S m
  | call h m pc ih => exact ((ih.memory m).buxnJit hfuel pc).1

end Jit

/-- The compiler that an event concerns. -/
def Event.compiler : Event → CompilerId
  | .generateCode c | .freeCompiler c => c
  | .setJumpAddr jump _ _ => jump.compiler

namespace Jit

/-- Where a link to the block `t` leads. -/
def linkTarget (S : Sljit) (type : LinkType) (t : BlockId) : Word :=
  match type with
  | .toHead => S.headAddr t
  | .toBody => S.bodyAddr t

/-- What the link of a jump of the block `b` does: without an address of the target it is left
out. -/
def patch (S : Sljit) (j : Jit) (b : BlockId) (r : Request) : List Event :=
  if linkTarget S r.type (targetOf j r) ≠ 0 then
    [.setJumpAddr ⟨b, r.jump⟩ (linkTarget S r.type (targetOf j r))
      (S.executableOffset (targetOf j r))]
  else []

section History

variable {S : Sljit} {fuel : ℕ} {j j' : Jit} {b : BlockId}

/-- The elements that only `a` contributes. -/
theorem filter_flatMap_eq {α ε : Type} {l : List α} {a : α} {f : α → List ε} {p : ε → Bool}
    (hl : l.Nodup) (ha : a ∈ l) (hself : ∀ e ∈ f a, p e)
    (hother : ∀ a' ∈ l, a' ≠ a → ∀ e ∈ f a', ¬p e) : (l.flatMap f).filter p = f a := by
  induction l with
  | nil => cases ha
  | cons a' l ih =>
    obtain ⟨hnot, hl⟩ := List.nodup_cons.mp hl
    rw [List.flatMap_cons, List.filter_append]
    rcases List.mem_cons.mp ha with rfl | ha
    · have hnil : (l.flatMap f).filter p = [] := by
        rw [List.filter_eq_nil_iff]
        intro e he
        obtain ⟨a', ha', he⟩ := List.mem_flatMap.mp he
        exact hother a' (List.mem_cons_of_mem a ha') (fun heq => hnot (heq ▸ ha')) e he
      rw [hnil, List.append_nil, List.filter_eq_self.mpr hself]
    · have hne : a' ≠ a := fun heq => hnot (heq ▸ ha)
      rw [List.filter_eq_nil_iff.mpr (hother a' List.mem_cons_self hne), List.nil_append]
      exact ih hl ha fun b hb => hother b (List.mem_cons_of_mem a' hb)

theorem filter_flatMap_single {l : List BlockId} (hl : l.Nodup) (hb : b ∈ l)
    {f : BlockId → List Event} (hf : ∀ b', ∀ e ∈ f b', e.compiler = b') :
    (l.flatMap f).filter (·.compiler = b) = f b := by
  apply filter_flatMap_eq hl hb
  · intro e he
    exact decide_eq_true (hf b e he)
  · intro b' _ hne e he
    rw [hf b' e he, decide_eq_true_eq]
    exact hne

theorem filter_flatMap_none {l : List BlockId} (hb : b ∉ l) {f : BlockId → List Event}
    (hf : ∀ b', ∀ e ∈ f b', e.compiler = b') : (l.flatMap f).filter (·.compiler = b) = [] := by
  rw [List.filter_flatMap, List.flatMap_eq_nil_iff]
  intro b' hb'
  refine List.filter_eq_nil_iff.mpr fun e he => ?_
  rw [hf b' e he]
  simpa using fun he : b' = b => hb (he ▸ hb')

/-- What a call does for the block `b`, the latest first. -/
def life (S : Sljit) (fuel : ℕ) (m : Short → Byte) (j : Jit) (b : BlockId) : List Event :=
  .freeCompiler b :: ((sites fuel m b (j.blocks b).key).flatMap (patch S j b) ++ [.generateCode b])

theorem linkEvents_linked {r : Request} (hcode : HasCode S j (targetOf j r)) :
    linkEvents j.blocks (linked j b r) = patch S j b r := by
  simp only [linkEvents, linked, patch, Payload.toJump, hcode.headAddr, hcode.bodyAddr,
    hcode.executableOffset]
  cases r.type <;> rfl

variable {done : List BlockId}

theorem targetOf_lt (hidle : Idle S j) {r : Request} (h : ∃ b, j.lookup r.target = some b) :
    targetOf j r < j.numBlocks := by
  obtain ⟨keys, hmapped⟩ := hidle.mapped
  obtain ⟨t, ht⟩ := h
  rw [targetOf, ht]
  exact (hmapped.key _ _ ht).1

/-- The events of the link loop, block for block. -/
theorem Called.patches (h : Called fuel j j' done) (hidle : Idle S j') :
    (done.flatMap fun b => ((sites fuel j.memory b (j'.blocks b).key).map
      (linked j' b)).reverse).reverse.flatMap (linkEvents j'.blocks) =
        done.reverse.flatMap fun b =>
          (sites fuel j.memory b (j'.blocks b).key).flatMap (patch S j' b) := by
  rw [List.reverse_flatMap, List.flatMap_assoc]
  apply List.flatMap_congr
  intro b hb
  rw [Function.comp_apply, List.reverse_reverse, List.flatMap_map]
  apply List.flatMap_congr
  intro r hr
  apply linkEvents_linked
  apply hidle.hasCode
  exact targetOf_lt hidle (h.found b (List.mem_reverse.mp hb) r hr)

/-- The events of a call, each part as a list of blocks. -/
theorem Called.events_eq (h : Called fuel j j' done) (hidle : Idle S j') :
    j'.events =
      (List.range' j.numBlocks (j'.numBlocks - j.numBlocks)).flatMap (fun b => [.freeCompiler b]) ++
        ((done.reverse.flatMap fun b =>
          (sites fuel j.memory b (j'.blocks b).key).flatMap (patch S j' b)) ++
            (done.flatMap (fun b => [.generateCode b]) ++ j.events)) := by
  rw [h.events, h.patches hidle, List.map_eq_flatMap, List.map_eq_flatMap]

theorem compiler_free : ∀ b', ∀ e ∈ [Event.freeCompiler b'], e.compiler = b' := by
  simp [Event.compiler]

theorem compiler_generate : ∀ b', ∀ e ∈ [Event.generateCode b'], e.compiler = b' := by
  simp [Event.compiler]

theorem compiler_patch (rs : BlockId → List Request) :
    ∀ b', ∀ e ∈ (rs b').flatMap (patch S j b'), e.compiler = b' := by
  intro b' e he
  obtain ⟨r, -, he⟩ := List.mem_flatMap.mp he
  unfold patch at he
  split at he
  · rw [List.mem_singleton.mp he]
    rfl
  · cases he

/-- **A new block lives through the call**: its code is generated, then its jumps are linked, then
its compiler is freed. -/
theorem Called.filter_new (h : Called fuel j j' done) (hidle : Idle S j')
    (hold : ∀ e ∈ j.events, e.compiler < j.numBlocks) (hb : b ∈ done) :
    j'.events.filter (·.compiler = b) = life S fuel j.memory j' b := by
  obtain ⟨hge, hlt⟩ := (h.mem_iff b).mp hb
  have hrange : b ∈ List.range' j.numBlocks (j'.numBlocks - j.numBlocks) := by
    rw [List.mem_range'_1, Nat.add_sub_cancel' h.numBlocks]
    exact ⟨hge, hlt⟩
  have hnone : j.events.filter (·.compiler = b) = [] :=
    List.filter_eq_nil_iff.mpr fun e he => by simpa using ((hold e he).trans_le hge).ne
  rw [h.events_eq hidle]
  simp only [List.filter_append]
  rw [filter_flatMap_single List.nodup_range' hrange compiler_free,
    filter_flatMap_single (List.nodup_reverse.mpr h.nodup) (List.mem_reverse.mpr hb)
      (compiler_patch _), filter_flatMap_single h.nodup hb compiler_generate, hnone, List.append_nil]
  rfl

/-- An old block is left alone. -/
theorem Called.filter_old (h : Called fuel j j' done) (hidle : Idle S j')
    (hb : b < j.numBlocks) :
    j'.events.filter (·.compiler = b) = j.events.filter (·.compiler = b) := by
  have hnot : b ∉ done := fun hmem => Nat.not_lt.mpr ((h.mem_iff b).mp hmem).1 hb
  have hrange : b ∉ List.range' j.numBlocks (j'.numBlocks - j.numBlocks) := fun hmem =>
    Nat.not_lt.mpr (List.mem_range'_1.mp hmem).1 hb
  rw [h.events_eq hidle]
  simp only [List.filter_append]
  rw [filter_flatMap_none hrange compiler_free,
    filter_flatMap_none (fun hmem => hnot (List.mem_reverse.mp hmem)) (compiler_patch _),
    filter_flatMap_none hnot compiler_generate]
  rfl

/-- The events of a call concern compilers that exist. -/
theorem Called.bounded (h : Called fuel j j' done) (hidle : Idle S j')
    (hold : ∀ e ∈ j.events, e.compiler < j.numBlocks) : ∀ e ∈ j'.events,
      e.compiler < j'.numBlocks := by
  intro e he
  rw [h.events_eq hidle] at he
  simp only [List.mem_append, List.mem_flatMap, List.mem_singleton] at he
  rcases he with ⟨b, hb, rfl⟩ | ⟨b, hb, he⟩ | ⟨b, hb, rfl⟩ | he
  · rw [List.mem_range'_1, Nat.add_sub_cancel' h.numBlocks] at hb
    exact hb.2
  · have hcompiler : e.compiler = b := by
      apply compiler_patch (S := S) (j := j') fun b => sites fuel j.memory b (j'.blocks b).key
      exact List.mem_flatMap.mpr he
    rw [hcompiler]
    exact ((h.mem_iff b).mp (List.mem_reverse.mp hb)).2
  · exact ((h.mem_iff b).mp hb).2
  · exact (hold e he).trans_le h.numBlocks

/-- What is known of the events in a state that calls reach. -/
structure Recorded (S : Sljit) (fuel : ℕ) (src : BlockId → Short → Byte) (j : Jit) : Prop where
  bounded : ∀ e ∈ j.events, e.compiler < j.numBlocks
  found : ∀ b < j.numBlocks, ∀ r ∈ sites fuel (src b) b (j.blocks b).key,
    ∃ t, j.lookup r.target = some t
  life : ∀ b < j.numBlocks, j.events.filter (·.compiler = b) = life S fuel (src b) j b

/-- **The events of every compiler.** -/
theorem Reached.recorded (hfuel : 65536 < fuel) {src : BlockId → Short → Byte}
    (h : Reached S fuel j src) : Recorded S fuel src j := by
  induction h with
  | init m =>
    exact ⟨by simp [Jit.init], fun b hb => absurd hb (Nat.not_lt_zero b),
      fun b hb => absurd hb (Nat.not_lt_zero b)⟩
  | @call j src h m pc ih =>
    obtain ⟨hidle, done, hcalled⟩ := ((h.idle hfuel).memory m).buxnJit hfuel pc
    generalize (buxnJit S fuel pc { j with memory := m }).2 = j' at hidle hcalled ⊢
    have hnew : ∀ b, b < j'.numBlocks → ¬b < j.numBlocks → b ∈ done := fun b hb hge =>
      (hcalled.mem_iff b).mpr ⟨Nat.not_lt.mp hge, hb⟩
    refine ⟨hcalled.bounded hidle ih.bounded, fun b hb r hr => ?_, fun b hb => ?_⟩
    · split at hr
      next hlt =>
        rw [hcalled.key b hlt] at hr
        obtain ⟨t, ht⟩ := ih.found b hlt r hr
        exact ⟨t, hcalled.lookup _ _ ht⟩
      next hge => exact hcalled.found b (hnew b hb hge) r hr
    · split
      next hlt =>
        have hkey : (j'.blocks b).key = (j.blocks b).key := hcalled.key b hlt
        have hfilter := hcalled.filter_old hidle hlt
        rw [hfilter]
        refine (ih.life b hlt).trans ?_
        rw [Jit.life, Jit.life, hkey]
        congr 2
        apply List.flatMap_congr
        intro r hr
        obtain ⟨t, ht⟩ := ih.found b hlt r hr
        rw [patch, patch, targetOf, targetOf, ht, hcalled.lookup _ _ ht]
      next hge => exact hcalled.filter_new hidle ih.bounded (hnew b hb hge)

end History

end Jit

end BuxnJit
