import BuxnJit.Jit.Entries
import BuxnJit.Jit.Pipeline
import BuxnJit.Jit.Requests

/-!
# The life of a compiler

What a call of `buxn_jit` does to the block map and the queues. `Managed` relates the state to the
blocks that wait for compilation and the links that wait for their targets; requests, the
compilation of a block and the three loops keep it.
-/

namespace BuxnJit

open Foundations

namespace Jit

/-! ## Growing -/

/-- Blocks are added, and stay. -/
structure Grown (j j' : Jit) : Prop where
  numBlocks : j.numBlocks ≤ j'.numBlocks
  lookup : ∀ pc b, j.lookup pc = some b → j'.lookup pc = some b
  key : ∀ b < j.numBlocks, (j'.blocks b).key = (j.blocks b).key
  memory : j'.memory = j.memory

/-- So they do after requests, which neither generate code nor free anything. -/
structure Extended (j j' : Jit) : Prop extends Grown j j' where
  blocks : ∀ b < j.numBlocks, j'.blocks b = j.blocks b
  events : j'.events = j.events

section Growing

variable {j j' j'' : Jit}

theorem Grown.refl (j : Jit) : Grown j j := ⟨le_rfl, fun _ _ h => h, fun _ _ => rfl, rfl⟩

theorem Grown.trans (h : Grown j j') (h' : Grown j' j'') : Grown j j'' where
  numBlocks := h.numBlocks.trans h'.numBlocks
  lookup pc b hb := h'.lookup pc b (h.lookup pc b hb)
  key b hb := (h'.key b (hb.trans_le h.numBlocks)).trans (h.key b hb)
  memory := h'.memory.trans h.memory

theorem Extended.refl (j : Jit) : Extended j j := ⟨.refl j, fun _ _ => rfl, rfl⟩

theorem Extended.trans (h : Extended j j') (h' : Extended j' j'') : Extended j j'' where
  toGrown := h.toGrown.trans h'.toGrown
  blocks b hb := (h'.blocks b (hb.trans_le h.numBlocks)).trans (h.blocks b hb)
  events := h'.events.trans h.events

theorem Extended.of_blocks (hnum : j.numBlocks ≤ j'.numBlocks)
    (hlookup : ∀ pc b, j.lookup pc = some b → j'.lookup pc = some b)
    (hblocks : ∀ b < j.numBlocks, j'.blocks b = j.blocks b) (hmemory : j'.memory = j.memory)
    (hevents : j'.events = j.events) : Extended j j' :=
  ⟨⟨hnum, hlookup, fun b hb => by rw [hblocks b hb], hmemory⟩, hblocks, hevents⟩

theorem queueBlock_events (j : Jit) (pc : Short) : (j.queueBlock pc).2.events = j.events := by
  have halloc : ∀ j : Jit, j.allocEntry.2.events = j.events := fun j => by
    rw [j.allocEntry_arena.2.2]
  unfold queueBlock
  simp only
  split
  · rfl
  · simp [enqueue, setEntry, setBlock, halloc]

theorem extended_queueBlock (j : Jit) (pc : Short) : Extended j (j.queueBlock pc).2 := by
  refine .of_blocks ?_ (fun pc' b h => lookup_queueAll [pc] h) ?_ (j.queueBlock_memory pc)
    (j.queueBlock_events pc)
  · cases h : j.lookup pc with
    | some b => rw [queueBlock_old h]
    | none =>
      rw [(queueBlock_new h).2.2.2.2]
      omega
  · intro b hb
    cases h : j.lookup pc with
    | some b => rw [queueBlock_old h]
    | none => rw [(queueBlock_new h).2.2.2.1, Function.update_of_ne hb.ne]

end Growing

/-- What the map of blocks consists of. -/
theorem Mapped.congr {keys : Finset Short} {j j' : Jit} (h : Mapped keys j)
    (hroot : j'.root = j.root) (hfirst : j'.first = j.first) (hnum : j'.numBlocks = j.numBlocks)
    (hblocks : ∀ b, (j'.blocks b).key = (j.blocks b).key ∧ (j'.blocks b).next = (j.blocks b).next) :
    Mapped keys j' := by
  have hlookup : ∀ pc, j'.lookup pc = j.lookup pc := fun pc => by rw [lookup, lookup, hroot]
  refine ⟨hnum.trans h.numBlocks, fun pc => ?_, fun pc b hb => ?_, fun b hb => ?_, ?_⟩
  · rw [hlookup]
    exact h.found pc
  · rw [hlookup] at hb
    rw [hnum, (hblocks b).1]
    exact h.key pc b hb
  · rw [hlookup, (hblocks b).1]
    exact h.block b (hnum ▸ hb)
  · rw [hfirst, hnum]
    exact h.list.congr fun b _ => (hblocks b).2

/-- There are no more blocks than addresses. -/
theorem Mapped.numBlocks_le {keys : Finset Short} {j : Jit} (h : Mapped keys j) :
    j.numBlocks ≤ 65536 := by
  rw [h.numBlocks]
  have hcard := Finset.card_le_card_of_injOn (t := Finset.range 65536) BitVec.toNat
    (fun pc _ => by simpa using pc.isLt) (s := keys) fun a _ b _ h => BitVec.eq_of_toNat_eq h
  rwa [Finset.card_range] at hcard

/-! ## The state between two requests -/

/-- The blocks that `j'` has and `j` has not, the latest first. -/
def newBlocks (j j' : Jit) : List BlockId :=
  (List.range' j.numBlocks (j'.numBlocks - j.numBlocks)).reverse

/-- The `pending` blocks wait for compilation, the `links` for their targets, and the compilers from
`n` on for cleanup. -/
structure Managed (n : ℕ) (j : Jit) (busy : List EntryId) (pending : List BlockId)
    (links : List Item) : Prop where
  mapped : ∃ keys, Mapped keys j
  compilers : j.numCompilers = j.numBlocks
  bound : ∀ b ∈ pending, b < j.numBlocks
  first : n ≤ j.numBlocks
  stores : j.Stores busy fun
    | .compile => pending.map fun b => .compile b b (.pc (j.blocks b).key)
    | .link => links
    | .cleanup => (List.range' n (j.numBlocks - n)).reverse.map .cleanup
    | .pool => []

section Requests

variable {n : ℕ} {j j' : Jit} {busy : List EntryId} {pending : List BlockId} {links : List Item}

theorem newBlocks_self (h : j'.numBlocks = j.numBlocks) : newBlocks j j' = [] := by
  rw [newBlocks, h, Nat.sub_self]
  rfl

theorem newBlocks_succ (h : j'.numBlocks = j.numBlocks + 1) : newBlocks j j' = [j.numBlocks] := by
  rw [newBlocks, h, Nat.add_sub_cancel_left]
  rfl

theorem newBlocks_trans {j'' : Jit} (h : j.numBlocks ≤ j'.numBlocks)
    (h' : j'.numBlocks ≤ j''.numBlocks) :
    newBlocks j' j'' ++ newBlocks j j' = newBlocks j j'' := by
  rw [newBlocks, newBlocks, newBlocks, ← List.reverse_append, List.reverse_inj]
  have hsum : j'.numBlocks = j.numBlocks + 1 * (j'.numBlocks - j.numBlocks) := by omega
  conv => lhs; arg 2; rw [hsum]
  rw [List.range'_append]
  congr 1
  omega

theorem queueBlock_numCompilers (h : j.numCompilers = j.numBlocks) (pc : Short) :
    (j.queueBlock pc).2.numCompilers = (j.queueBlock pc).2.numBlocks := by
  have hqueue : ∀ (q : Queue) (f : Entry → Entry) (j : Jit),
      (j.queueEntry q f).numCompilers = j.numCompilers := fun q f j => by
    rw [queueEntry, j.allocEntry_arena.2.2]
    rfl
  cases hnew : j.lookup pc with
  | some b => rwa [queueBlock_old hnew]
  | none =>
    rw [(queueBlock_new hnew).2.2.2.2, queueBlock_eq hnew, hqueue, hqueue, addBlock, h]

/-- **A request for a block.** -/
theorem Managed.queueBlock (h : Managed n j busy pending links) (pc : Short) :
    Managed n (j.queueBlock pc).2 busy (newBlocks j (j.queueBlock pc).2 ++ pending) links := by
  obtain ⟨keys, hmapped⟩ := h.mapped
  obtain ⟨hstores, -⟩ := h.stores.queueBlock pc
  have hext := j.extended_queueBlock pc
  have hcompilers := queueBlock_numCompilers h.compilers pc
  refine ⟨⟨_, hmapped.queueBlock pc⟩, hcompilers, fun b hb => ?_, h.first.trans hext.numBlocks,
    hstores.congr rfl rfl rfl fun q hq => ?_⟩
  · rcases List.mem_append.mp hb with hb | hb
    · have hle : j.numBlocks ≤ (j.queueBlock pc).2.numBlocks := hext.numBlocks
      obtain ⟨-, hlt⟩ := List.mem_range'_1.mp (List.mem_reverse.mp hb)
      rwa [Nat.add_sub_cancel' hle] at hlt
    · exact (h.bound b hb).trans_le hext.numBlocks
  · have hkeys : ∀ b ∈ pending, ((j.queueBlock pc).2.blocks b).key = (j.blocks b).key :=
      fun b hb => hext.key b (h.bound b hb)
    unfold asked
    cases hnew : j.lookup pc with
    | some b =>
      rw [queueBlock_old hnew, newBlocks_self rfl]
      rfl
    | none =>
      obtain ⟨-, -, -, hblocks, hnum⟩ := queueBlock_new hnew
      rw [newBlocks_succ hnum]
      cases q with
      | compile =>
        simp only [List.singleton_append, List.map_cons]
        rw [Function.update_of_ne (by simp), Function.update_self, h.compilers, hblocks,
          Function.update_self, ← hblocks, List.map_congr_left fun b hb => by rw [hkeys b hb]]
      | link => rfl
      | cleanup =>
        have hlen : j.numBlocks + 1 - n = j.numBlocks - n + 1 := Nat.succ_sub h.first
        have hlast : n + (j.numBlocks - n) = j.numBlocks := Nat.add_sub_cancel' h.first
        simp only [hnum]
        rw [Function.update_self, hlen, List.range'_concat, List.reverse_append, h.compilers,
          Nat.one_mul, hlast]
        rfl
      | pool => exact absurd rfl hq

theorem extended_startLink (j : Jit) (t : LinkType) : Extended j (j.startLink t) := by
  obtain ⟨hroot, -, hblocks, hnum, -, hevents, hmemory⟩ := j.startLink_frame t
  refine .of_blocks hnum.ge (fun pc b h => ?_) (fun b _ => by rw [hblocks]) hmemory hevents
  rwa [lookup, hroot]

/-- Queueing an entry only changes the entries and the queues. -/
theorem extended_enqueue (j : Jit) (e : EntryId) (x : Entry) (q : Queue) :
    Extended j ((j.setEntry e x).enqueue q e) :=
  .of_blocks le_rfl (fun _ _ h => h) (fun _ _ => rfl) rfl rfl

theorem lookup_enqueue (j : Jit) (e : EntryId) (x : Entry) (q : Queue) (pc : Short) :
    ((j.setEntry e x).enqueue q e).lookup pc = j.lookup pc := rfl

theorem newBlocks_enqueue (j j' : Jit) (e : EntryId) (x : Entry) (q : Queue) :
    newBlocks j ((j'.setEntry e x).enqueue q e) = newBlocks j j' := rfl

theorem extended_linkEntry (j : Jit) (t : LinkType) (jump : JumpRef) (target : Short) :
    Extended j (j.linkEntry t jump target) := by
  have hask := (j.extended_startLink t).trans ((j.startLink t).extended_queueBlock target)
  rw [linkEntry_eq]
  exact hask.trans (extended_enqueue _ _ _ _)

/-- The block that a request leads to. -/
def targetOf (j : Jit) (r : Request) : BlockId := (j.lookup r.target).getD 0

/-- The item of a link request. -/
def linked (j : Jit) (c : CompilerId) (r : Request) : Item :=
  .link r.type (.jump ⟨c, r.jump⟩) (targetOf j r)

theorem lookup_linkEntry (j : Jit) (t : LinkType) (jump : JumpRef) (target : Short) :
    (j.linkEntry t jump target).lookup target =
      some ((j.startLink t).queueBlock target).1 := by
  rw [linkEntry_eq, lookup_enqueue, lookup_queueBlock_self]

/-- Queueing the link that was taken last. -/
theorem Managed.enqueueLink {e : EntryId} (h : Managed n j (e :: busy) pending links) {x : Entry}
    (hx : x.next = (j.entries e).next) :
    Managed n ((j.setEntry e x).enqueue .link e) busy pending (x.item .link :: links) := by
  obtain ⟨keys, hmapped⟩ := h.mapped
  refine ⟨⟨keys, hmapped.congr rfl rfl rfl fun _ => ⟨rfl, rfl⟩⟩, h.compilers, h.bound, h.first, ?_⟩
  refine ((h.stores.setEntry hx).enqueue .link).congr rfl rfl rfl fun q hq => ?_
  rw [setEntry_entries_self]
  cases q with
  | compile | link | cleanup => rfl
  | pool => exact absurd rfl hq

/-- **A request for a link.** -/
theorem Managed.linkEntry (h : Managed n j busy pending links) (c : CompilerId) (r : Request) :
    Managed n (j.linkEntry r.type ⟨c, r.jump⟩ r.target) busy
        (newBlocks j (j.linkEntry r.type ⟨c, r.jump⟩ r.target) ++ pending)
        (linked (j.linkEntry r.type ⟨c, r.jump⟩ r.target) c r :: links) ∧
      ∀ e ∈ busy, (j.linkEntry r.type ⟨c, r.jump⟩ r.target).entries e = j.entries e := by
  obtain ⟨keys, hmapped⟩ := h.mapped
  obtain ⟨hroot, hfirst, hblocks, hnum, hcompilers, -⟩ := j.startLink_frame r.type
  have hstart : Managed n (j.startLink r.type) (j.allocEntry.1 :: busy) pending links := by
    refine ⟨⟨keys, hmapped.congr hroot hfirst hnum fun b => by rw [hblocks]; exact ⟨rfl, rfl⟩⟩,
      by rw [hcompilers, hnum, h.compilers], ?_, ?_, ?_⟩
    · rw [hnum]
      exact h.bound
    · rw [hnum]
      exact h.first
    · rw [hblocks, hnum]
      exact h.stores.startLink r.type
  have hask := hstart.queueBlock r.target
  obtain ⟨-, hframe⟩ := hstart.stores.queueBlock r.target
  have htype : (((j.startLink r.type).queueBlock r.target).2.entries j.allocEntry.1).linkType =
      r.type := by
    rw [hframe _ List.mem_cons_self, startLink, setEntry_entries_self]
  have hnew : newBlocks j (j.linkEntry r.type ⟨c, r.jump⟩ r.target) =
      newBlocks (j.startLink r.type) ((j.startLink r.type).queueBlock r.target).2 := by
    rw [linkEntry_eq, newBlocks_enqueue, newBlocks, newBlocks, hnum]
  rw [hnew, linked, targetOf, lookup_linkEntry, linkEntry_eq, Option.getD_some]
  refine ⟨?_, fun e he => ?_⟩
  · have hput := hask.enqueueLink (x := { ((j.startLink r.type).queueBlock r.target).2.entries
      j.allocEntry.1 with
        block := ((j.startLink r.type).queueBlock r.target).1
        compiler := c
        payload := .jump ⟨c, r.jump⟩ }) rfl
    simpa only [Entry.item, htype] using hput
  · have hne : e ≠ j.allocEntry.1 := by
      rintro rfl
      exact hstart.stores.not_mem he
    rw [enqueue_entries_of_ne _ _ hne, setEntry_entries_of_ne _ _ hne,
      hframe e (List.mem_cons_of_mem _ he), startLink, setEntry_entries_of_ne _ _ hne,
      allocEntry_entries]

/-- **The requests of a block.** -/
theorem Managed.linkAll (h : Managed n j busy pending links) (c : CompilerId) (rs : List Request) :
    Managed n (j.linkAll c rs) busy (newBlocks j (j.linkAll c rs) ++ pending)
        ((rs.map (linked (j.linkAll c rs) c)).reverse ++ links) ∧
      Extended j (j.linkAll c rs) ∧ (∀ e ∈ busy, (j.linkAll c rs).entries e = j.entries e) ∧
      ∀ r ∈ rs, ∃ b, (j.linkAll c rs).lookup r.target = some b := by
  induction rs generalizing j pending links with
  | nil =>
    have hself : j.linkAll c [] = j := rfl
    rw [hself, newBlocks_self rfl]
    exact ⟨h, .refl j, fun _ _ => rfl, by simp⟩
  | cons r rs ih =>
    obtain ⟨hone, hframe⟩ := h.linkEntry c r
    have hext := j.extended_linkEntry r.type ⟨c, r.jump⟩ r.target
    have hfound := lookup_linkEntry j r.type ⟨c, r.jump⟩ r.target
    have hcons : j.linkAll c (r :: rs) = (j.linkEntry r.type ⟨c, r.jump⟩ r.target).linkAll c rs := rfl
    rw [hcons]
    obtain ⟨hall, hext', hframe', hfound'⟩ := ih hone
    generalize j.linkEntry r.type ⟨c, r.jump⟩ r.target = j₁ at *
    have hlater := hext'.lookup _ _ hfound
    refine ⟨?_, hext.trans hext', fun e he => (hframe' e he).trans (hframe e he), ?_⟩
    · have hlinked : linked j₁ c r = linked (j₁.linkAll c rs) c r := by
        rw [linked, linked, targetOf, targetOf, hfound, hlater]
      rw [List.map_cons, List.reverse_cons, List.append_assoc, List.singleton_append, ← hlinked]
      rwa [← List.append_assoc, newBlocks_trans hext.numBlocks hext'.numBlocks] at hall
    · intro r' hr'
      rcases List.mem_cons.mp hr' with rfl | hr'
      · exact ⟨_, hlater⟩
      · exact hfound' r' hr'

end Requests

/-! ## Compiling a block -/

/-- The requests of the block `b` at the address `pc`. -/
def sites (fuel : ℕ) (m : Short → Byte) (b : BlockId) (pc : Short) : List Request :=
  blockRequests fuel fuel (.start (.init m) b pc)

/-- The block has the addresses of the code that was generated for it. -/
structure HasCode (S : Sljit) (j : Jit) (b : BlockId) : Prop where
  fn : (j.blocks b).fn = S.fn b
  headAddr : (j.blocks b).headAddr = S.headAddr b
  bodyAddr : (j.blocks b).bodyAddr = S.bodyAddr b
  executableOffset : (j.blocks b).executableOffset = S.executableOffset b

section Compiling

variable {S : Sljit} {fuel n : ℕ} {j : Jit} {pending : List BlockId} {links : List Item}
  {b : BlockId}

theorem compileBlock_start (j : Jit) (b : BlockId) (pc : Short) :
    ((Ctx.start j b pc).compileBlock fuel fuel).jit = j.linkAll b (sites fuel j.memory b pc) := by
  have hrest : (Ctx.start j b pc).AtRest b := by
    refine ⟨.inl rfl, fun s => ?_⟩
    simp [Ctx.start]
  have halike : (Ctx.start j b pc).Alike (.start (.init j.memory) b pc) := ⟨.init j.memory, rfl, rfl⟩
  rw [(compileBlock_links b fuel fuel _ hrest).2, blockRequests_alike _ _ _ _ halike]
  rfl

theorem generate_key (j : Jit) (e : EntryId) (b' : BlockId) :
    ((j.generate S e).blocks b').key = (j.blocks b').key ∧
      ((j.generate S e).blocks b').next = (j.blocks b').next := by
  unfold generate
  by_cases hb : b' = (j.entries e).block
  · subst hb
    simp [log, setBlock]
  · simp [log, setBlock, hb]

theorem generate_blocks (j : Jit) {e : EntryId} {b' : BlockId} (hb : b' ≠ (j.entries e).block) :
    (j.generate S e).blocks b' = j.blocks b' := Function.update_of_ne hb ..

theorem hasCode_generate (j : Jit) {e : EntryId} (hb : (j.entries e).block = b)
    (hc : (j.entries e).compiler = b) : HasCode S (j.generate S e) b := by
  subst hb
  constructor <;> simp [generate, log, setBlock, hc]

/-- The entry of the block that was compiled goes to the pool. -/
theorem Managed.generate {e : EntryId} {busy : List EntryId}
    (h : Managed n j (e :: busy) pending links) :
    Managed n ((j.generate S e).enqueue .pool e) busy pending links := by
  obtain ⟨keys, hmapped⟩ := h.mapped
  refine ⟨⟨keys, hmapped.congr rfl rfl rfl (j.generate_key e)⟩, h.compilers, h.bound, h.first, ?_⟩
  have hstores := h.stores.enqueue .pool
  refine hstores.congr rfl rfl rfl fun q hq => ?_
  cases q with
  | compile =>
    refine List.map_congr_left fun b' _ => ?_
    have hkey := (j.generate_key (S := S) e b').1
    change _ = Item.compile b' b' (.pc (j.blocks b').key)
    rw [← hkey]
    rfl
  | link | cleanup => rfl
  | pool => exact absurd rfl hq

/-- What the compilation of the block `b` adds. -/
structure Compiled (S : Sljit) (fuel : ℕ) (b : BlockId) (j j' : Jit) : Prop extends Grown j j' where
  hasCode : HasCode S j' b
  blocks : ∀ b' < j.numBlocks, b' ≠ b → j'.blocks b' = j.blocks b'
  events : j'.events = .generateCode b :: j.events
  found : ∀ r ∈ sites fuel j.memory b (j.blocks b).key, ∃ b', j'.lookup r.target = some b'

/-- Taking the next block to be compiled. -/
theorem Managed.dequeue (h : Managed n j [] (b :: pending) links) : ∃ e,
    (j.dequeue .compile).1 = some e ∧ Managed n (j.dequeue .compile).2 [e] pending links ∧
      (j.entries e).block = b ∧ (j.entries e).compiler = b ∧
      (j.entries e).payload = .pc (j.blocks b).key := by
  obtain ⟨keys, hmapped⟩ := h.mapped
  obtain ⟨e, hpop, hitem, hstores⟩ := h.stores.dequeue (q := .compile) (by simp) rfl
  obtain ⟨hblock, hcompiler, hpayload⟩ := Item.compile.inj hitem
  refine ⟨e, hpop, ?_, hblock, hcompiler, hpayload⟩
  rw [(j.dequeue_arena .compile).2.2] at hstores ⊢
  refine ⟨⟨keys, hmapped.congr rfl rfl rfl fun _ => ⟨rfl, rfl⟩⟩, h.compilers, fun b' hb' => ?_,
    h.first, hstores.congr rfl rfl rfl fun q hq => ?_⟩
  · exact h.bound b' (List.mem_cons_of_mem b hb')
  · cases q with
    | compile | link | cleanup => rfl
    | pool => exact absurd rfl hq

theorem extended_dequeue (j : Jit) (q : Queue) : Extended j (j.dequeue q).2 := by
  rw [(j.dequeue_arena q).2.2]
  exact .of_blocks le_rfl (fun _ _ h => h) (fun _ _ => rfl) rfl rfl

theorem compiled_generate {j₂ : Jit} {e : EntryId} (hext : Extended j j₂) (hb : b < j.numBlocks)
    (hblock : (j₂.entries e).block = b) (hcompiler : (j₂.entries e).compiler = b)
    (hfound : ∀ r ∈ sites fuel j.memory b (j.blocks b).key, ∃ b', j₂.lookup r.target = some b') :
    Compiled S fuel b j ((j₂.generate S e).enqueue .pool e) where
  numBlocks := hext.numBlocks
  lookup := hext.lookup
  key b' hb' := ((j₂.generate_key e b').1).trans (hext.key b' hb')
  memory := hext.memory
  hasCode := by
    obtain ⟨hfn, hhead, hbody, hoffset⟩ := hasCode_generate (S := S) j₂ hblock hcompiler
    exact ⟨hfn, hhead, hbody, hoffset⟩
  blocks b' hb' hne := (j₂.generate_blocks (hblock ▸ hne)).trans (hext.blocks b' hb')
  events := by
    change Event.generateCode (j₂.entries e).compiler :: j₂.events = _
    rw [hcompiler, hext.events]
  found := hfound

variable (S fuel) in
/-- **One round of the compile loop.** -/
theorem Managed.compile (h : Managed n j [] (b :: pending) links) : ∃ e j₁,
    j.dequeue .compile = (some e, j₁) ∧
      Managed n ((j₁.compile S fuel e).enqueue .pool e) []
        (newBlocks j ((j₁.compile S fuel e).enqueue .pool e) ++ pending)
        (((sites fuel j.memory b (j.blocks b).key).map
          (linked ((j₁.compile S fuel e).enqueue .pool e) b)).reverse ++ links) ∧
      Compiled S fuel b j ((j₁.compile S fuel e).enqueue .pool e) := by
  obtain ⟨e, hpop, htake, hblock, hcompiler, hpayload⟩ := h.dequeue
  have hb : b < j.numBlocks := h.bound b List.mem_cons_self
  have htaken := j.extended_dequeue .compile
  have hentries : (j.dequeue .compile).2.entries = j.entries := by
    rw [(j.dequeue_arena .compile).2.2]
  have hnum : (j.dequeue .compile).2.numBlocks = j.numBlocks := by
    rw [(j.dequeue_arena .compile).2.2]
  refine ⟨e, (j.dequeue .compile).2, Prod.ext hpop rfl, ?_⟩
  generalize (j.dequeue .compile).2 = j₁ at htake htaken hentries hnum ⊢
  obtain ⟨hlink, hext, hframe, hfound⟩ := htake.linkAll b (sites fuel j.memory b (j.blocks b).key)
  have hcompile : j₁.compile S fuel e =
      (j₁.linkAll b (sites fuel j.memory b (j.blocks b).key)).generate S e := by
    rw [Jit.compile]
    simp only [hentries, hcompiler, hpayload, Payload.toPc, compileBlock_start, htaken.memory]
  rw [hcompile]
  have hentry := hframe e List.mem_cons_self
  rw [hentries] at hentry
  generalize j₁.linkAll b (sites fuel j.memory b (j.blocks b).key) = j₂ at hlink hext hfound hentry ⊢
  refine ⟨?_, compiled_generate (htaken.trans hext) hb (hentry ▸ hblock) (hentry ▸ hcompiler) hfound⟩
  have hnew : newBlocks j ((j₂.generate S e).enqueue .pool e) = newBlocks j₁ j₂ := by
    rw [newBlocks, newBlocks, hnum]
    rfl
  rw [hnew]
  exact hlink.generate

/-- In a call that began with `n` blocks and the events `ev`: the blocks `done` were compiled, the
latest first, and those in `pending` are still to be. -/
structure Midway (S : Sljit) (fuel n : ℕ) (ev : List Event) (j : Jit) (done pending : List BlockId) :
    Prop where
  managed : Managed n j [] pending (done.flatMap fun b =>
    ((sites fuel j.memory b (j.blocks b).key).map (linked j b)).reverse)
  mem_iff : ∀ b, b ∈ done ++ pending ↔ n ≤ b ∧ b < j.numBlocks
  nodup : (done ++ pending).Nodup
  hasCode : ∀ b < j.numBlocks, b ∉ pending → HasCode S j b
  found : ∀ b ∈ done, ∀ r ∈ sites fuel j.memory b (j.blocks b).key,
    ∃ b', j.lookup r.target = some b'
  events : j.events = done.map .generateCode ++ ev

theorem linked_grown {j' : Jit} (h : Grown j j') {c : CompilerId} {r : Request}
    (hr : ∃ b, j.lookup r.target = some b) : linked j' c r = linked j c r := by
  obtain ⟨b, hb⟩ := hr
  rw [linked, linked, targetOf, targetOf, hb, h.lookup _ _ hb]

theorem mem_newBlocks {j' : Jit} (h : j.numBlocks ≤ j'.numBlocks) :
    b ∈ newBlocks j j' ↔ j.numBlocks ≤ b ∧ b < j'.numBlocks := by
  rw [newBlocks, List.mem_reverse, List.mem_range'_1, Nat.add_sub_cancel' h]

/-- **One round of the compile loop**, with the blocks compiled so far. -/
theorem Midway.compile {ev : List Event} {done : List BlockId}
    (h : Midway S fuel n ev j done (b :: pending)) : ∃ e j₁, j.dequeue .compile = (some e, j₁) ∧
      Midway S fuel n ev ((j₁.compile S fuel e).enqueue .pool e) (b :: done)
        (newBlocks j ((j₁.compile S fuel e).enqueue .pool e) ++ pending) ∧
      Grown j ((j₁.compile S fuel e).enqueue .pool e) := by
  obtain ⟨e, j₁, hpop, hmanaged, hcompiled⟩ := h.managed.compile S fuel
  refine ⟨e, j₁, hpop, ?_, hcompiled.toGrown⟩
  generalize (j₁.compile S fuel e).enqueue .pool e = j' at hmanaged hcompiled ⊢
  have hb : n ≤ b ∧ b < j.numBlocks := (h.mem_iff b).mp (by simp)
  have hdone : ∀ b' ∈ done, b' < j.numBlocks := fun b' hb' => ((h.mem_iff b').mp (by simp [hb'])).2
  have hsites : ∀ b' < j.numBlocks, sites fuel j'.memory b' (j'.blocks b').key =
      sites fuel j.memory b' (j.blocks b').key := fun b' hb' => by
    rw [hcompiled.memory, hcompiled.key b' hb']
  have hperm : (done ++ b :: pending).Perm (b :: done ++ pending) := List.perm_middle
  have hnew : (b :: done ++ (newBlocks j j' ++ pending)).Perm
      (newBlocks j j' ++ (done ++ b :: pending)) := by
    refine List.Perm.trans ?_ (hperm.symm.append_left _)
    rw [← List.append_assoc, ← List.append_assoc]
    exact List.perm_append_comm.append_right _
  refine ⟨?_, fun b' => ?_, ?_, fun b' hb' hpending => ?_, fun b' hb' r hr => ?_, ?_⟩
  · rw [List.flatMap_cons, hsites b hb.2]
    have hlinks : (done.flatMap fun b => ((sites fuel j'.memory b (j'.blocks b).key).map
        (linked j' b)).reverse) = done.flatMap fun b =>
          ((sites fuel j.memory b (j.blocks b).key).map (linked j b)).reverse := by
      refine List.flatMap_congr fun b' hb' => ?_
      rw [hsites b' (hdone b' hb')]
      congr 1
      exact List.map_congr_left fun r hr => linked_grown hcompiled.toGrown (h.found b' hb' r hr)
    rw [hlinks]
    exact hmanaged
  · have hsplit : ∀ n₁ n₂ n₃ x : ℕ, n₁ ≤ n₂ → n₂ ≤ n₃ →
        (n₂ ≤ x ∧ x < n₃ ∨ n₁ ≤ x ∧ x < n₂ ↔ n₁ ≤ x ∧ x < n₃) := by
      omega
    rw [hnew.mem_iff, List.mem_append, mem_newBlocks hcompiled.numBlocks, h.mem_iff]
    exact hsplit _ _ _ b' h.managed.first hcompiled.numBlocks
  · rw [hnew.nodup_iff, List.nodup_append]
    refine ⟨List.nodup_reverse.mpr List.nodup_range', h.nodup, fun b₁ hb₁ b₂ hb₂ => ?_⟩
    have hlt := ((h.mem_iff b₂).mp hb₂).2
    have hge := ((mem_newBlocks hcompiled.numBlocks).mp hb₁).1
    exact (hlt.trans_le hge).ne'
  · by_cases hself : b' = b
    · rw [hself]
      exact hcompiled.hasCode
    · have hold : b' < j.numBlocks := by
        by_contra hge
        exact hpending (List.mem_append_left _
          ((mem_newBlocks hcompiled.numBlocks).mpr ⟨Nat.not_lt.mp hge, hb'⟩))
      have hnot : b' ∉ b :: pending := fun hmem => by
        rcases List.mem_cons.mp hmem with he | hmem
        · exact hself he
        · exact hpending (List.mem_append_right _ hmem)
      obtain ⟨hfn, hhead, hbody, hoffset⟩ := h.hasCode b' hold hnot
      constructor <;> rwa [hcompiled.blocks b' hold hself]
  · rcases List.mem_cons.mp hb' with rfl | hb'
    · rw [hsites b' hb.2] at hr
      exact hcompiled.found r hr
    · rw [hsites b' (hdone b' hb')] at hr
      obtain ⟨b'', hb''⟩ := h.found b' hb' r hr
      exact ⟨b'', hcompiled.lookup _ _ hb''⟩
  · rw [hcompiled.events, h.events]
    rfl

theorem Midway.length_done_le {ev : List Event} {done : List BlockId}
    (h : Midway S fuel n ev j done pending) : done.length ≤ 65536 := by
  obtain ⟨keys, hmapped⟩ := h.managed.mapped
  have hnodup := (List.nodup_append.mp h.nodup).1
  have hsub : done ⊆ List.range j.numBlocks := fun b hb =>
    List.mem_range.mpr ((h.mem_iff b).mp (List.mem_append_left _ hb)).2
  have hle := (hnodup.subperm hsub).length_le
  rw [List.length_range] at hle
  exact hle.trans hmapped.numBlocks_le

/-- **Any number of rounds**: each compiles another block, until there is none left. -/
theorem Midway.rounds {ev : List Event} {done : List BlockId} (k : ℕ)
    (h : Midway S fuel n ev j done pending) : ∃ done' pending',
      Midway S fuel n ev (j.drain .compile (Jit.compile S fuel) k) done' pending' ∧
        Grown j (j.drain .compile (Jit.compile S fuel) k) ∧
          (pending' = [] ∨ done'.length = done.length + k) := by
  induction k generalizing j done pending with
  | zero => exact ⟨done, pending, h, .refl j, .inr rfl⟩
  | succ k ih =>
    rw [Jit.drain]
    cases pending with
    | nil =>
      rw [h.managed.stores.dequeue_nil (by simp) rfl]
      exact ⟨done, [], h, .refl j, .inl rfl⟩
    | cons b pending =>
      obtain ⟨e, j₁, hpop, hnext, hgrown⟩ := h.compile
      rw [hpop]
      obtain ⟨done', pending', hend, hgrown', hcount⟩ := ih hnext
      refine ⟨done', pending', hend, hgrown.trans hgrown', hcount.imp_right fun hlen => ?_⟩
      rw [hlen, List.length_cons]
      omega

/-- **The compile loop empties its queue**: there are at most as many blocks as addresses. -/
theorem Midway.drain {ev : List Event} {done : List BlockId} {k : ℕ}
    (h : Midway S fuel n ev j done pending) (hk : 65536 < k) :
    ∃ done', Midway S fuel n ev (j.drain .compile (Jit.compile S fuel) k) done' [] ∧
      Grown j (j.drain .compile (Jit.compile S fuel) k) := by
  obtain ⟨done', pending', hend, hgrown, hcount⟩ := h.rounds k
  rcases hcount with rfl | hlen
  · exact ⟨done', hend, hgrown⟩
  · have := hend.length_done_le
    omega

end Compiling

end Jit

end BuxnJit
