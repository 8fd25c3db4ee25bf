import BuxnJit.Foundations.Arena
import BuxnJit.Lir.Machine

/-!
# Recorded addresses

Both debug hooks record the addresses of opcodes in a list of chunks, each with room for 16 of them,
and recycle the chunks through a pool at the end of a block. `Holds` says what the list holds, and
that every chunk is in exactly one place; recording (`Holds.record`) and recycling
(`Holds.recycle`) keep it.
-/

namespace BuxnJit

open Foundations

/-- `buxn_jit_addr_mark_t`: a label of the code. -/
abbrev Mark := ℕ

/-- `buxn_jit_addr_mapping_t`. -/
structure AddrMapping where
  mark : Mark
  addr : Short
  deriving DecidableEq

/-- `BUXN_JIT_MAPPING_CHUNK_SIZE`. -/
def chunkSize : ℕ := 16

abbrev ChunkId := ℕ

/-- `buxn_jit_addr_mapping_chunk_t`. A recycled chunk keeps its old mappings. -/
structure Chunk where
  next : Option ChunkId
  len : ℕ
  mappings : ℕ → AddrMapping

def Chunk.entries (c : Chunk) : List AddrMapping := (List.range c.len).map c.mappings

/-- The fields `addr_mappings` and `addr_mapping_chunk_pool` of a hook, with its chunks. These are
numbered in the order of their allocation. -/
structure Recorder where
  chunks : ChunkId → Chunk
  numChunks : ℕ
  len : ℕ
  first : Option ChunkId
  last : Option ChunkId
  pool : Option ChunkId

namespace Recorder

def init : Recorder := ⟨fun _ => ⟨none, 0, fun _ => ⟨0, 0⟩⟩, 0, 0, none, none, none⟩

def setChunk (c : ChunkId) (x : Chunk) (r : Recorder) : Recorder :=
  { r with chunks := Function.update r.chunks c x }

/-- A chunk from the pool, or a new one. -/
def allocChunk (r : Recorder) : ChunkId × Recorder :=
  match r.pool with
  | some c => (c, { r with pool := (r.chunks c).next })
  | none => (r.numChunks, { r with numChunks := r.numChunks + 1 })

/-- A new last chunk. -/
def addChunk (r : Recorder) : ChunkId × Recorder :=
  let (c, r) := r.allocChunk
  let r := r.setChunk c { r.chunks c with len := 0, next := none }
  let r := match r.first, r.last with
    | some _, some l => r.setChunk l { r.chunks l with next := some c }
    | some _, none => r
    | none, _ => { r with first := some c }
  (c, { r with last := some c })

/-- The chunk that takes the next mapping. -/
def openChunk (r : Recorder) : ChunkId × Recorder :=
  match r.last with
  | some c => if (r.chunks c).len = chunkSize then r.addChunk else (c, r)
  | none => r.addChunk

/-- `buxn_jit_perf_jit_opcode`, and `buxn_jit_gdb_jit_opcode` for an opcode that it records. -/
def record (m : AddrMapping) (r : Recorder) : Recorder :=
  let (c, r) := r.openChunk
  let x := r.chunks c
  { r.setChunk c { x with mappings := Function.update x.mappings x.len m, len := x.len + 1 } with
    len := r.len + 1 }

section Loops

variable {σ : Type} (visit : σ → AddrMapping → Option σ)

/-- Visit the mappings of a list of at most `n` chunks. -/
def forEach (r : Recorder) : ℕ → Option ChunkId → σ → Option σ
  | _, none, s => some s
  | 0, some _, _ => none
  | n + 1, some c, s => do
    let s ← (r.chunks c).entries.foldlM visit s
    r.forEach n (r.chunks c).next s

/-- Visit them, and put every chunk into the pool. -/
def recycle : ℕ → Option ChunkId → σ → Recorder → Option (σ × Recorder)
  | _, none, s, r => some (s, { r with first := none, last := none, len := 0 })
  | 0, some _, _, _ => none
  | n + 1, some c, s, r => do
    let next := (r.chunks c).next
    let s ← (r.chunks c).entries.foldlM visit s
    recycle n next s { r.setChunk c { r.chunks c with next := r.pool } with pool := some c }

end Loops

/-! ## What the list holds -/

/-- The chunks `xs` are the list and `ps` the pool, every chunk is in exactly one place, and the
list holds the mappings `ms`. -/
structure Holds (r : Recorder) (xs ps : List ChunkId) (ms : List AddrMapping) : Prop where
  list : Chain (fun c => (r.chunks c).next) r.first xs
  last : r.last = xs.getLast?
  pool : Chain (fun c => (r.chunks c).next) r.pool ps
  nodup : (xs ++ ps).Nodup
  cover : ∀ c, c < r.numChunks ↔ c ∈ xs ++ ps
  bound : ∀ c, (r.chunks c).len ≤ chunkSize
  entries : xs.flatMap (fun c => (r.chunks c).entries) = ms
  len : r.len = ms.length

theorem holds_init : init.Holds [] [] [] :=
  ⟨.nil, rfl, .nil, List.nodup_nil, by simp [init], fun _ => Nat.zero_le _, rfl, rfl⟩

namespace Holds

variable {r : Recorder} {xs ps : List ChunkId} {ms : List AddrMapping}

theorem list_nodup (h : r.Holds xs ps ms) : xs.Nodup := (List.nodup_append.mp h.nodup).1

theorem length_le (h : r.Holds xs ps ms) : xs.length ≤ r.numChunks := by
  have hsub : xs ⊆ List.range r.numChunks := fun c hc =>
    List.mem_range.mpr ((h.cover c).mpr (List.mem_append_left ps hc))
  have hle := (h.list_nodup.subperm hsub).length_le
  rwa [List.length_range] at hle

theorem eq_nil (h : r.Holds xs ps ms) (hlen : r.len = 0) : ms = [] :=
  List.eq_nil_of_length_eq_zero (h.len.symm.trans hlen)

/-- A chunk is taken out of the pool, or made. -/
theorem allocChunk (h : r.Holds xs ps ms) : ∃ qs, r.allocChunk.1 ∉ xs ++ qs ∧ qs.Nodup ∧
    (∀ c, c < r.allocChunk.2.numChunks ↔ c = r.allocChunk.1 ∨ c ∈ xs ++ qs) ∧
    Chain (fun c => (r.chunks c).next) r.allocChunk.2.pool qs ∧ (∀ c ∈ qs, c ∉ xs) ∧
    r.allocChunk.2.chunks = r.chunks ∧ r.allocChunk.2.first = r.first ∧
    r.allocChunk.2.last = r.last ∧ r.allocChunk.2.len = r.len := by
  obtain ⟨-, hps, hdisj⟩ := List.nodup_append.mp h.nodup
  have hpool := h.pool
  unfold Recorder.allocChunk
  cases hhead : r.pool with
  | none =>
    rw [hhead] at hpool
    obtain rfl : ps = [] := by cases hpool; rfl
    have hnew : r.numChunks ∉ xs ++ [] := fun hmem => Nat.lt_irrefl _ ((h.cover _).mpr hmem)
    refine ⟨[], hnew, List.nodup_nil, fun c => ?_, ?_, by simp, rfl, rfl, rfl, rfl⟩
    · rw [← h.cover c]
      exact Nat.lt_succ_iff_lt_or_eq.trans or_comm
    · exact .nil
  | some p =>
    rw [hhead] at hpool
    cases hpool with
    | @cons _ qs htail =>
      obtain ⟨hp, hqs⟩ := List.nodup_cons.mp hps
      refine ⟨qs, ?_, hqs, fun c => ?_, htail, fun c hc hx => ?_, rfl, rfl, rfl, rfl⟩
      · rw [List.mem_append, not_or]
        exact ⟨fun hx => hdisj p hx p List.mem_cons_self rfl, hp⟩
      · rw [h.cover c]
        simp only [List.mem_append, List.mem_cons]
        tauto
      · exact hdisj c hx c (List.mem_cons_of_mem p hc) rfl

/-- The chunks once a chunk `c` has become the last one. -/
structure Extended (chunks chunks' : ChunkId → Chunk) (xs : List ChunkId) (c : ChunkId) : Prop where
  new : (chunks' c).next = none ∧ (chunks' c).len = 0
  last : ∀ l, xs.getLast? = some l → chunks' l = { chunks l with next := some c }
  other : ∀ y, y ≠ c → xs.getLast? ≠ some y → chunks' y = chunks y

theorem addChunk_eq (h : r.Holds xs ps ms) (hnew : r.allocChunk.1 ∉ xs)
    (hchunks : r.allocChunk.2.chunks = r.chunks) (hfirst : r.allocChunk.2.first = r.first)
    (hlast : r.allocChunk.2.last = r.last) :
    r.addChunk.1 = r.allocChunk.1 ∧ Extended r.chunks r.addChunk.2.chunks xs r.allocChunk.1 ∧
      r.addChunk.2.first = r.first.or (some r.allocChunk.1) ∧
      r.addChunk.2.last = some r.allocChunk.1 ∧
      r.addChunk.2.pool = r.allocChunk.2.pool ∧
      r.addChunk.2.numChunks = r.allocChunk.2.numChunks ∧ r.addChunk.2.len = r.allocChunk.2.len := by
  have hhead := h.list.head_eq
  have hend := h.last
  unfold Recorder.addChunk
  generalize r.allocChunk = a at *
  obtain ⟨c, a⟩ := a
  simp only [setChunk] at *
  rw [hfirst, hlast]
  obtain rfl | ⟨A, l, rfl⟩ := List.eq_nil_or_concat xs
  · rw [hhead, hend]
    refine ⟨trivial, ⟨by simp, by simp, fun y hy _ => ?_⟩, rfl, trivial, rfl, rfl, rfl⟩
    simp [hy, hchunks]
  · have hlc : l ≠ c := by
      rintro rfl
      simp at hnew
    obtain ⟨x, hx⟩ : ∃ x, r.first = some x := by
      rw [hhead]
      cases A <;> simp
    have hl : (A.concat l).getLast? = some l := by simp
    rw [hend, hl, hx]
    refine ⟨trivial, ⟨?_, ?_, ?_⟩, rfl, trivial, rfl, rfl, rfl⟩
    · simp [hlc.symm]
    · rintro l' hl'
      obtain rfl := Option.some_inj.mp (hl.symm.trans hl')
      simp [hlc, hchunks]
    · intro y hy hyl
      have hyl' : y ≠ l := by
        rintro rfl
        exact hyl hl
      simp [hy, hyl', hchunks]

/-- **A new last chunk** is empty. -/
theorem addChunk (h : r.Holds xs ps ms) : ∃ qs,
    r.addChunk.2.Holds (xs ++ [r.addChunk.1]) qs ms ∧ (r.addChunk.2.chunks r.addChunk.1).len = 0 := by
  obtain ⟨qs, hnew, hqs, hcover, hpool, hdisj, hchunks, hfirst, hlast, hlen⟩ := h.allocChunk
  rw [List.mem_append, not_or] at hnew
  obtain ⟨hcx, hcq⟩ := hnew
  obtain ⟨hid, ⟨⟨hnext, hzero⟩, hl, hother⟩, hfirst', hlast', hpool', hnum, hlen'⟩ :=
    h.addChunk_eq hcx hchunks hfirst hlast
  rw [hid]
  generalize r.allocChunk.1 = c at *
  have hmapping : ∀ y, y ≠ c → (r.addChunk.2.chunks y).len = (r.chunks y).len ∧
      (r.addChunk.2.chunks y).entries = (r.chunks y).entries := by
    intro y hy
    by_cases hyl : xs.getLast? = some y
    · rw [hl y hyl]
      exact ⟨rfl, rfl⟩
    · rw [hother y hy hyl]
      exact ⟨rfl, rfl⟩
  refine ⟨qs, ⟨?_, ?_, ?_, ?_, fun y => ?_, fun y => ?_, ?_, ?_⟩, hzero⟩
  · rw [hfirst']
    refine h.list.concat hnext (fun l hl' => by rw [hl l hl']) fun y hy => ?_
    have hne : y ≠ c := fun he => hcx (he ▸ List.mem_of_mem_dropLast hy)
    rw [hother y hne]
    intro hyl
    obtain ⟨A, rfl⟩ := List.getLast?_eq_some_iff.mp hyl
    have hnodup := h.list_nodup
    rw [List.dropLast_concat] at hy
    exact (List.nodup_append.mp hnodup).2.2 y hy y (by simp) rfl
  · rw [hlast', List.getLast?_concat]
  · rw [hpool']
    refine hpool.congr fun q hq => ?_
    rw [hother q (fun he => hcq (he ▸ hq))]
    exact fun hqx => hdisj q hq (List.mem_of_getLast? hqx)
  · rw [List.append_assoc, List.singleton_append]
    refine List.nodup_append.mpr ⟨h.list_nodup, List.nodup_cons.mpr ⟨hcq, hqs⟩, ?_⟩
    rintro y hy z hz rfl
    obtain rfl | hz := List.mem_cons.mp hz
    · exact hcx hy
    · exact hdisj y hz hy
  · rw [hnum, hcover y]
    simp only [List.mem_append, List.mem_singleton]
    tauto
  · by_cases hy : y = c
    · rw [hy, hzero]
      exact Nat.zero_le _
    · rw [(hmapping y hy).1]
      exact h.bound y
  · have hempty : (r.addChunk.2.chunks c).entries = [] := by simp [Chunk.entries, hzero]
    rw [List.flatMap_append, List.flatMap_singleton, hempty, List.append_nil, ← h.entries]
    exact List.flatMap_congr fun y hy => (hmapping y fun he => hcx (he ▸ hy)).2
  · rw [hlen', hlen, h.len]

/-- The chunk that takes the next mapping is the last one, and has room for it. -/
theorem openChunk (h : r.Holds xs ps ms) : ∃ A qs,
    r.openChunk.2.Holds (A ++ [r.openChunk.1]) qs ms ∧
      (r.openChunk.2.chunks r.openChunk.1).len < chunkSize := by
  have hadd := h.addChunk
  unfold Recorder.openChunk
  split
  next c hlast =>
    split
    · obtain ⟨qs, hnew, hzero⟩ := hadd
      exact ⟨xs, qs, hnew, by rw [hzero]; decide⟩
    next hroom =>
      obtain ⟨A, rfl⟩ := List.getLast?_eq_some_iff.mp (h.last.symm.trans hlast)
      exact ⟨A, ps, h, lt_of_le_of_ne (h.bound c) hroom⟩
  next =>
    obtain ⟨qs, hnew, hzero⟩ := hadd
    exact ⟨xs, qs, hnew, by rw [hzero]; decide⟩

/-- **Recording** a mapping appends it. -/
theorem record (h : r.Holds xs ps ms) (m : AddrMapping) :
    ∃ xs' ps', (r.record m).Holds xs' ps' (ms ++ [m]) := by
  obtain ⟨A, qs, hopen, hroom⟩ := h.openChunk
  have hlen : r.openChunk.2.len = ms.length := hopen.len
  unfold Recorder.record
  generalize r.openChunk = o at *
  obtain ⟨c, o⟩ := o
  simp only at *
  have hcA : c ∉ A := by
    have hnodup := hopen.list_nodup
    intro hc
    exact (List.nodup_append.mp hnodup).2.2 c hc c (by simp) rfl
  have hnext : ∀ y, (Function.update o.chunks c { o.chunks c with
      mappings := Function.update (o.chunks c).mappings (o.chunks c).len m,
      len := (o.chunks c).len + 1 } y).next = (o.chunks y).next := by
    intro y
    by_cases hy : y = c
    · subst hy
      rw [Function.update_self]
    · rw [Function.update_of_ne hy]
  refine ⟨A ++ [c], qs, ⟨?_, hopen.last, ?_, hopen.nodup, hopen.cover, fun y => ?_, ?_, ?_⟩⟩
  · exact hopen.list.congr fun y _ => hnext y
  · exact hopen.pool.congr fun y _ => hnext y
  · by_cases hy : y = c
    · subst hy
      simp only [setChunk, Function.update_self]
      exact hroom
    · simpa [setChunk, hy] using hopen.bound y
  · have hentries := hopen.entries
    rw [List.flatMap_append, List.flatMap_singleton] at hentries ⊢
    rw [← hentries, List.append_assoc]
    congr 1
    · refine List.flatMap_congr fun y hy => ?_
      have hne : y ≠ c := fun he => hcA (he ▸ hy)
      simp [setChunk, hne]
    · simp only [setChunk, Function.update_self, Chunk.entries, List.range_succ, List.map_append,
        List.map_cons, List.map_nil]
      congr 1
      refine List.map_congr_left fun i hi => ?_
      exact Function.update_of_ne (List.mem_range.mp hi).ne _ _
  · simp [hlen]

/-! ## Visiting the mappings -/

section Loops

variable {σ : Type} (visit : σ → AddrMapping → Option σ)

theorem forEach_of_chain {next : Option ChunkId} {ys : List ChunkId} {n : ℕ}
    (h : Chain (fun c => (r.chunks c).next) next ys) (hn : ys.length ≤ n) (s : σ) :
    r.forEach visit n next s = (ys.flatMap fun c => (r.chunks c).entries).foldlM visit s := by
  induction h generalizing n s with
  | nil => cases n <;> rfl
  | @cons c ys _ ih =>
    obtain ⟨n, rfl⟩ := Nat.exists_eq_add_one_of_ne_zero (Nat.ne_zero_of_lt hn)
    rw [Recorder.forEach, List.flatMap_cons, List.foldlM_append]
    congr 1
    funext s'
    exact ih (Nat.le_of_succ_le_succ hn) s'

/-- **Visiting** goes through the mappings in their order. -/
theorem forEach (h : r.Holds xs ps ms) (s : σ) :
    r.forEach visit r.numChunks r.first s = ms.foldlM visit s := by
  rw [forEach_of_chain visit h.list h.length_le, h.entries]

/-- What recycling has done when the chunks `ys` are left. -/
theorem recycle_of_chain {next : Option ChunkId} {ys qs : List ChunkId} {n : ℕ}
    (h : Chain (fun c => (r.chunks c).next) next ys)
    (hpool : Chain (fun c => (r.chunks c).next) r.pool qs) (hnodup : (ys ++ qs).Nodup)
    (hcover : ∀ c, c < r.numChunks ↔ c ∈ ys ++ qs) (hbound : ∀ c, (r.chunks c).len ≤ chunkSize)
    (hn : ys.length ≤ n) : ∃ r', r'.Holds [] (ys.reverse ++ qs) [] ∧ ∀ s,
      Recorder.recycle visit n next s r =
        ((ys.flatMap fun c => (r.chunks c).entries).foldlM visit s).map fun s' => (s', r') := by
  induction ys generalizing n next qs r with
  | nil =>
    cases h
    refine ⟨{ r with first := none, last := none, len := 0 }, ?_, fun s => ?_⟩
    · exact ⟨.nil, rfl, hpool, hnodup, hcover, hbound, rfl, rfl⟩
    · cases n <;> rfl
  | cons c ys ih =>
    obtain ⟨n, rfl⟩ := Nat.exists_eq_add_one_of_ne_zero (Nat.ne_zero_of_lt hn)
    rw [List.cons_append] at hnodup
    obtain ⟨hc, hrest⟩ := List.nodup_cons.mp hnodup
    rw [List.mem_append, not_or] at hc
    obtain ⟨hcy, hcq⟩ := hc
    cases h with
    | cons _ htail =>
      -- the chunk is moved to the head of the pool
      have hother : ∀ y, y ≠ c → Function.update r.chunks c { r.chunks c with next := r.pool } y =
          r.chunks y := fun y hy => Function.update_of_ne hy _ _
      have hlist : Chain (fun y => (Function.update r.chunks c
          { r.chunks c with next := r.pool } y).next) (r.chunks c).next ys :=
        htail.congr fun y hy => by rw [hother y fun he => hcy (he ▸ hy)]
      have hpool' : Chain (fun y => (Function.update r.chunks c
          { r.chunks c with next := r.pool } y).next) (some c) (c :: qs) := by
        apply Chain.cons
        rw [Function.update_self]
        exact hpool.congr fun y hy => by rw [hother y fun he => hcq (he ▸ hy)]
      have hnodup' : (ys ++ c :: qs).Nodup :=
        List.nodup_middle.mpr (List.nodup_cons.mpr ⟨by simp [hcy, hcq], hrest⟩)
      have hcover' : ∀ y, y < r.numChunks ↔ y ∈ ys ++ c :: qs := by
        intro y
        rw [hcover y]
        simp only [List.cons_append, List.mem_cons, List.mem_append]
        tauto
      have hbound' : ∀ y, (Function.update r.chunks c
          { r.chunks c with next := r.pool } y).len ≤ chunkSize := by
        intro y
        by_cases hy : y = c
        · subst hy
          simpa using hbound y
        · simpa [hy] using hbound y
      obtain ⟨r', hr', hrun⟩ :=
        ih (r := { r.setChunk c { r.chunks c with next := r.pool } with pool := some c })
          hlist hpool' hnodup' hcover' hbound' (Nat.le_of_succ_le_succ hn)
      refine ⟨r', by simpa using hr', fun s => ?_⟩
      have hentries : (ys.flatMap fun y => (Function.update r.chunks c
          { r.chunks c with next := r.pool } y).entries) =
          ys.flatMap fun y => (r.chunks y).entries :=
        List.flatMap_congr fun y hy => by rw [hother y fun he => hcy (he ▸ hy)]
      rw [Recorder.recycle, List.flatMap_cons, List.foldlM_append]
      simp only [setChunk, hentries] at hrun ⊢
      cases hvisit : (r.chunks c).entries.foldlM visit s with
      | none => rfl
      | some s' => exact hrun s'

/-- **Recycling** goes through the mappings in their order, and leaves the list empty and all chunks
in the pool. -/
theorem recycle (h : r.Holds xs ps ms) : ∃ r', r'.Holds [] (xs.reverse ++ ps) [] ∧ ∀ s,
    Recorder.recycle visit r.numChunks r.first s r = (ms.foldlM visit s).map fun s' => (s', r') := by
  have hrun := recycle_of_chain visit h.list h.pool h.nodup h.cover h.bound h.length_le
  rwa [h.entries] at hrun

end Loops

end Holds

/-- The list holds the mappings `ms`, and no chunk if there are none. -/
def Lists (r : Recorder) (ms : List AddrMapping) : Prop :=
  ∃ xs ps, r.Holds xs ps ms ∧ (ms = [] → xs = [])

namespace Lists

variable {r : Recorder} {ms : List AddrMapping}

theorem len (h : r.Lists ms) : r.len = ms.length := by
  obtain ⟨xs, ps, h, -⟩ := h
  exact h.len

theorem record (h : r.Lists ms) (m : AddrMapping) : (r.record m).Lists (ms ++ [m]) := by
  obtain ⟨xs, ps, h, -⟩ := h
  obtain ⟨xs', ps', h'⟩ := h.record m
  exact ⟨xs', ps', h', by simp⟩

/-- An empty list has no chunk. -/
theorem empty (h : r.Lists []) : r.first = none ∧ r.last = none := by
  obtain ⟨xs, ps, h, hxs⟩ := h
  obtain rfl := hxs rfl
  exact ⟨h.list.head_eq, h.last⟩

variable {σ : Type} (visit : σ → AddrMapping → Option σ)

theorem forEach (h : r.Lists ms) (s : σ) :
    r.forEach visit r.numChunks r.first s = ms.foldlM visit s := by
  obtain ⟨xs, ps, h, -⟩ := h
  exact h.forEach visit s

theorem recycle (h : r.Lists ms) : ∃ r', r'.Lists [] ∧ ∀ s,
    Recorder.recycle visit r.numChunks r.first s r = (ms.foldlM visit s).map fun s' => (s', r') := by
  obtain ⟨xs, ps, h, -⟩ := h
  obtain ⟨r', h', hrun⟩ := h.recycle visit
  exact ⟨r', ⟨[], _, h', fun _ => rfl⟩, hrun⟩

end Lists

theorem lists_init : init.Lists [] := ⟨[], [], holds_init, fun _ => rfl⟩

end Recorder

end BuxnJit
