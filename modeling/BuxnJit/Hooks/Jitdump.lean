import BuxnJit.Hooks.Recording

/-!
# The format of the dump file

The record grammar of `jitdump.hexpat`. Every record has a header with its size, a body that depends
on its type, and raw bytes, at whose start the body is read. Records that are as long as they say
are read back from their encodings (`untilEof_encode`), and nothing else is read as them
(`untilEof_readRecord`).
-/

namespace BuxnJit

open Foundations Binary

namespace Jitdump

/-! ## The grammar -/

structure Header where
  magic : BitVec 32
  version : BitVec 32
  totalSize : BitVec 32
  elfMach : BitVec 32
  pad1 : BitVec 32
  pid : BitVec 32
  timestamp : BitVec 64
  flags : BitVec 64
  deriving DecidableEq

structure CodeLoad where
  pid : BitVec 32
  tid : BitVec 32
  vma : Word
  addr : Word
  size : Word
  index : Word
  name : Bytes
  deriving DecidableEq

structure DebugEntry where
  addr : Word
  line : BitVec 32
  discrim : BitVec 32
  name : Bytes
  deriving DecidableEq

structure DebugInfo where
  addr : Word
  nrEntry : Word
  entries : List DebugEntry
  deriving DecidableEq

/-- What a record is besides its raw bytes. -/
inductive Body
  | codeLoad (x : CodeLoad)
  | debugInfo (x : DebugInfo)
  | none
  deriving DecidableEq

structure Record where
  type : BitVec 32
  totalSize : BitVec 32
  timestamp : BitVec 64
  body : Body
  raw : Bytes
  deriving DecidableEq

def readHeader : Parser Header := fun bs => do
  let (magic, bs) ← number 4 32 bs
  let (version, bs) ← number 4 32 bs
  let (totalSize, bs) ← number 4 32 bs
  let (elfMach, bs) ← number 4 32 bs
  let (pad1, bs) ← number 4 32 bs
  let (pid, bs) ← number 4 32 bs
  let (timestamp, bs) ← number 8 64 bs
  let (flags, bs) ← number 8 64 bs
  return (⟨magic, version, totalSize, elfMach, pad1, pid, timestamp, flags⟩, bs)

def readCodeLoad : Parser CodeLoad := fun bs => do
  let (pid, bs) ← number 4 32 bs
  let (tid, bs) ← number 4 32 bs
  let (vma, bs) ← number 8 64 bs
  let (addr, bs) ← number 8 64 bs
  let (size, bs) ← number 8 64 bs
  let (index, bs) ← number 8 64 bs
  let (name, bs) ← cstring bs
  return (⟨pid, tid, vma, addr, size, index, name⟩, bs)

def readDebugEntry : Parser DebugEntry := fun bs => do
  let (addr, bs) ← number 8 64 bs
  let (line, bs) ← number 4 32 bs
  let (discrim, bs) ← number 4 32 bs
  let (name, bs) ← cstring bs
  return (⟨addr, line, discrim, name⟩, bs)

def readDebugInfo : Parser DebugInfo := fun bs => do
  let (addr, bs) ← number 8 64 bs
  let (nrEntry, bs) ← number 8 64 bs
  let (entries, bs) ← many readDebugEntry nrEntry.toNat bs
  return (⟨addr, nrEntry, entries⟩, bs)

/-- The `match` over the type. The body does not move the position. -/
def readBody (type : BitVec 32) (bs : Bytes) : Option Body :=
  if type = 0 then (readCodeLoad bs).map fun x => .codeLoad x.1
  else if type = 2 then (readDebugInfo bs).map fun x => .debugInfo x.1
  else some .none

def readRecord : Parser Record := fun bs => do
  let (type, bs) ← number 4 32 bs
  let (totalSize, bs) ← number 4 32 bs
  let (timestamp, bs) ← number 8 64 bs
  let body ← readBody type bs
  if totalSize < 16 then none
  else
    let (raw, bs) ← slice (totalSize.toNat - 16) bs
    return (⟨type, totalSize, timestamp, body, raw⟩, bs)

/-- `Jitdump`. -/
def read (bs : Bytes) : Option (Header × List Record) := do
  let (header, bs) ← readHeader bs
  return (header, ← untilEof readRecord bs.length bs)

/-! ## Encodings -/

def CodeLoad.encode (x : CodeLoad) : Bytes :=
  bytes 4 x.pid ++ bytes 4 x.tid ++ bytes 8 x.vma ++ bytes 8 x.addr ++ bytes 8 x.size ++
    bytes 8 x.index ++ x.name ++ [0]

def DebugEntry.encode (x : DebugEntry) : Bytes := Perf.debugEntry x.addr x.line x.discrim x.name

def DebugInfo.encode (x : DebugInfo) : Bytes :=
  bytes 8 x.addr ++ bytes 8 x.nrEntry ++ x.entries.flatMap DebugEntry.encode

def Record.encode (r : Record) : Bytes :=
  Perf.recordHeader r.type r.totalSize r.timestamp ++ r.raw

theorem readCodeLoad_encode {x : CodeLoad} (hx : 0#8 ∉ x.name) (rest : Bytes) :
    readCodeLoad (x.encode ++ rest) = some (x, rest) := by
  simp [readCodeLoad, CodeLoad.encode, number_bytes, cstring_append hx]

theorem readDebugEntry_encode {x : DebugEntry} (hx : 0#8 ∉ x.name) (rest : Bytes) :
    readDebugEntry (x.encode ++ rest) = some (x, rest) := by
  simp [readDebugEntry, DebugEntry.encode, Perf.debugEntry, number_bytes, cstring_append hx]

theorem readDebugInfo_encode {x : DebugInfo} (hlen : x.nrEntry.toNat = x.entries.length)
    (hx : ∀ e ∈ x.entries, 0#8 ∉ e.name) (rest : Bytes) :
    readDebugInfo (x.encode ++ rest) = some (x, rest) := by
  have hentries := many_append (fun e he => readDebugEntry_encode (hx e he)) rest
  rw [← hlen] at hentries
  simp [readDebugInfo, DebugInfo.encode, number_bytes, hentries]

/-- A record that is as long as it says, and whose body is at the start of its raw bytes. -/
structure Record.Valid (r : Record) : Prop where
  size : r.totalSize.toNat = 16 + r.raw.length
  body : ∀ rest, readBody r.type (r.raw ++ rest) = some r.body

theorem readRecord_encode {r : Record} (h : r.Valid) (rest : Bytes) :
    readRecord (r.encode ++ rest) = some (r, rest) := by
  have hsize : 16#32 ≤ r.totalSize := by
    have hle := h.size
    have hmin : (16#32).toNat ≤ r.totalSize.toNat := hle ▸ Nat.le_add_right 16 _
    exact hmin
  have hraw : slice (r.totalSize.toNat - 16) (r.raw ++ rest) = some (r.raw, rest) :=
    slice_append (by rw [h.size, Nat.add_sub_cancel_left]) rest
  simp [readRecord, Record.encode, Perf.recordHeader, number_bytes, h.body, hsize, hraw]

theorem Record.encode_ne_nil (r : Record) : r.encode ≠ [] := by
  intro hnil
  have hlen := congrArg List.length hnil
  simp [Record.encode, Perf.recordHeader] at hlen

/-- What a record that is read says of the bytes. -/
theorem of_readRecord {bs rest : Bytes} {r : Record} (h : readRecord bs = some (r, rest)) :
    bs = r.encode ++ rest ∧ r.totalSize.toNat = 16 + r.raw.length := by
  obtain ⟨⟨type, bs₁⟩, htype, h⟩ := Option.bind_eq_some_iff.mp h
  obtain ⟨⟨totalSize, bs₂⟩, hsize, h⟩ := Option.bind_eq_some_iff.mp h
  obtain ⟨⟨timestamp, bs₃⟩, htime, h⟩ := Option.bind_eq_some_iff.mp h
  obtain ⟨body, -, h⟩ := Option.bind_eq_some_iff.mp h
  simp only at h
  split at h
  · cases h
  next hmin =>
    obtain ⟨⟨raw, rest'⟩, hraw, h⟩ := Option.bind_eq_some_iff.mp h
    cases h
    have hlen := slice_length hraw
    rw [number_sound 4 _ _ _ htype, number_sound 4 _ _ _ hsize, number_sound 8 _ _ _ htime,
      slice_sound _ _ _ _ hraw]
    constructor
    · simp [Record.encode, Perf.recordHeader]
    · simp only
      rw [BitVec.lt_def, not_lt] at hmin
      have hmin' : 16 ≤ totalSize.toNat := hmin
      omega

/-- **What the records of a file say of its bytes.** -/
theorem untilEof_readRecord {n : ℕ} {bs : Bytes} {rs : List Record}
    (h : untilEof readRecord n bs = some rs) :
    bs = rs.flatMap Record.encode ∧ ∀ r ∈ rs, r.totalSize.toNat = 16 + r.raw.length :=
  ⟨untilEof_sound (fun _ _ _ hr => (of_readRecord hr).1) h,
    mem_untilEof (fun _ _ _ hr => (of_readRecord hr).2) h⟩

/-- **Valid records are read back.** -/
theorem untilEof_encode {rs : List Record} (h : ∀ r ∈ rs, r.Valid) :
    untilEof readRecord (rs.flatMap Record.encode).length (rs.flatMap Record.encode) = some rs := by
  refine untilEof_flatMap (fun r hr => ⟨r.encode_ne_nil, readRecord_encode (h r hr)⟩) ?_
  clear h
  induction rs with
  | nil => exact Nat.zero_le _
  | cons r rs ih =>
    have hpos := List.length_pos_of_ne_nil r.encode_ne_nil
    rw [List.flatMap_cons, List.length_append, List.length_cons]
    omega

end Jitdump

end BuxnJit
