import BuxnJit.Hooks.Jitdump

/-!
# The dump file

What the perf hook is expected to write for the blocks reported to it. The file is read back as
exactly that if every symbol is found, no record is longer than its size can tell, and every name
fits into its buffer; it is in no other case (`dump_wellFormed_iff`), since of a longer name the
hook writes the bytes behind the buffer.
-/

namespace BuxnJit

open Foundations Binary Jitdump

namespace Perf

/-! ## The records that are expected -/

/-- A record whose size is that of its bytes. -/
def recordOf (type : BitVec 32) (time : BitVec 64) (body : Body) (raw : Bytes) : Record :=
  ⟨type, BitVec.ofNat 32 (16 + raw.length), time, body, raw⟩

def entryOf (cfg : HookConfig) (b : BlockEnd) (p : AddrMapping × Sym) : DebugEntry :=
  ⟨b.resolve p.1.mark, p.2.line, p.2.col, (cfg.str p.2.filename).bytes⟩

/-- One entry for every opcode, and the dummy. -/
def debugInfoOf (cfg : HookConfig) (b : BlockEnd) (ps : List (AddrMapping × Sym)) : DebugInfo :=
  ⟨b.start, BitVec.ofNat 64 (ps.length + 1),
    ps.map (entryOf cfg b) ++ [⟨b.start + b.size - 1, 0, 0, []⟩]⟩

def codeLoadOf (cfg : HookConfig) (pid index : BitVec 32) (b : BlockEnd) (sys : System) : CodeLoad :=
  ⟨pid, sys.tid, b.start, b.start, b.size, index.setWidth 64, blockName cfg b.entryAddr⟩

def debugRecordOf (cfg : HookConfig) (b : BlockEnd) (sys : System)
    (ps : List (AddrMapping × Sym)) : Record :=
  let x := debugInfoOf cfg b ps
  recordOf 2 sys.debugTime (.debugInfo x) x.encode

def codeRecordOf (cfg : HookConfig) (pid index : BitVec 32) (b : BlockEnd) (sys : System) : Record :=
  let x := codeLoadOf cfg pid index b sys
  recordOf 0 sys.loadTime (.codeLoad x) (x.encode ++ b.code)

/-- The opcodes of a block with their symbols. -/
def opcodes (cfg : HookConfig) (calls : List OpcodeCall) : List (AddrMapping × Sym) :=
  (cfg.recorded calls).zip ((cfg.symbols 0 ((cfg.recorded calls).map AddrMapping.addr)).getD [])

/-- The records of a block. -/
def recordsOf (cfg : HookConfig) (pid index : BitVec 32) (b : Report × System) : List Record :=
  let ps := opcodes cfg b.1.calls
  (if ps = [] then [] else [debugRecordOf cfg b.1.blockEnd b.2 ps]) ++
    [codeRecordOf cfg pid index b.1.blockEnd b.2]

/-- The records of all blocks; the code is counted. -/
def allRecords (cfg : HookConfig) (pid : BitVec 32) : BitVec 32 → List (Report × System) → List Record
  | _, [] => []
  | i, b :: blocks => recordsOf cfg pid i b ++ allRecords cfg pid (i + 1) blocks

variable {cfg : HookConfig} {b : BlockEnd} {sys : System} {d : HookData} {pid index : BitVec 32}

/-! ## The debug info record -/

theorem entries_eq (ps : List (AddrMapping × Sym)) :
    entries cfg b ps = (ps.map (entryOf cfg b)).flatMap DebugEntry.encode := by
  rw [List.flatMap_map]
  rfl

theorem foldl_addSize (ps : List (AddrMapping × Sym)) (n : ℕ) :
    ps.foldl (fun x p => addSize cfg x p.1 p.2) (BitVec.ofNat 32 n) =
      BitVec.ofNat 32 (n + (entries cfg b ps).length) := by
  induction ps generalizing n with
  | nil => simp [entries]
  | cons p ps ih =>
    have hsize : addSize cfg (BitVec.ofNat 32 n) p.1 p.2 =
        BitVec.ofNat 32 (n + ((cfg.str p.2.filename).bytes.length + 17)) := by
      simp only [addSize, BitVec.ofNat_add]
      bv_omega
    rw [List.foldl_cons, hsize, ih]
    congr 1
    simp [entries, debugEntry]
    omega

theorem length_le_entries (ps : List (AddrMapping × Sym)) :
    ps.length ≤ (entries cfg b ps).length := by
  induction ps with
  | nil => exact Nat.zero_le _
  | cons p ps ih =>
    rw [entries, List.flatMap_cons, List.length_append, List.length_cons]
    have hpos : 1 ≤ (debugEntry (b.resolve p.1.mark) p.2.line p.2.col
        (cfg.str p.2.filename).bytes).length := by
      simp [debugEntry]
      omega
    exact (Nat.add_le_add ih hpos).trans_eq (Nat.add_comm _ _)

theorem length_debugInfoOf (ps : List (AddrMapping × Sym)) :
    (debugInfoOf cfg b ps).encode.length = 33 + (entries cfg b ps).length := by
  simp [debugInfoOf, DebugInfo.encode, ← entries_eq, DebugEntry.encode, debugEntry]
  omega

theorem debugRecord_eq (ps : List (AddrMapping × Sym)) :
    debugRecord cfg b sys ps = (debugRecordOf cfg b sys ps).encode := by
  have hsize : ps.foldl (fun x p => addSize cfg x p.1 p.2) 49 =
      BitVec.ofNat 32 (16 + (debugInfoOf cfg b ps).encode.length) := by
    rw [length_debugInfoOf, ← Nat.add_assoc]
    exact foldl_addSize ps 49
  rw [debugRecord, hsize, entries_eq]
  simp [debugRecordOf, recordOf, Record.encode, debugInfoOf, DebugInfo.encode, DebugEntry.encode]

/-- The record of a block is valid, unless its size overflows. -/
theorem debugRecord_valid {ps : List (AddrMapping × Sym)}
    (h : 16 + (debugRecordOf cfg b sys ps).raw.length < 2 ^ 32) :
    (debugRecordOf cfg b sys ps).Valid := by
  refine ⟨Nat.mod_eq_of_lt h, fun rest => ?_⟩
  have hlen : (debugInfoOf cfg b ps).nrEntry.toNat = (debugInfoOf cfg b ps).entries.length := by
    have hle : ps.length ≤ (entries cfg b ps).length := length_le_entries ps
    have hraw : (debugRecordOf cfg b sys ps).raw.length = _ := length_debugInfoOf ps
    simp only [debugInfoOf, BitVec.toNat_ofNat, List.length_append, List.length_map,
      List.length_singleton]
    omega
  have hnames : ∀ e ∈ (debugInfoOf cfg b ps).entries, 0#8 ∉ e.name := by
    intro e he
    rw [debugInfoOf, List.mem_append, List.mem_map, List.mem_singleton] at he
    obtain ⟨p, -, rfl⟩ | rfl := he
    · exact (cfg.str p.2.filename).nonzero
    · exact List.not_mem_nil
  have hread := readDebugInfo_encode hlen hnames rest
  simp [debugRecordOf, recordOf, readBody, hread]

/-! ## The code load record -/

theorem hexDigit_ne_zero (x : BitVec 4) : hexDigit x ≠ 0#8 := by
  revert x
  decide

/-- The formatted name has no terminator in it. -/
theorem zero_notMem_blockName (addr : Short) : 0#8 ∉ blockName cfg addr := by
  have hlabel : ∀ name, 0#8 ∉ precision name := by
    intro name hmem
    have hne := List.mem_takeWhile_imp hmem
    simp at hne
  have hhex : 0#8 ∉ hex 4 addr := by
    rw [hex, List.mem_map]
    rintro ⟨i, -, hi⟩
    exact hexDigit_ne_zero _ hi
  unfold blockName
  cases cfg.closestLabel addr with
  | none => simp [ascii, hhex]
  | some e =>
    have hat : (if e.addr = addr then ascii '@' else ascii '~') ≠ 0#8 := by
      split <;> decide
    simp [ascii, hhex, hlabel e.name] at hat ⊢
    exact Ne.symm hat

/-- A name that fits into the buffer is written with its terminator. -/
theorem nameBytes_of_le (behind : ℕ → Byte) {text : Bytes} (h : text.length ≤ 511) :
    nameBytes behind text (text.length + 1) = text ++ [0] := by
  simp [nameBytes, List.take_of_length_le h]

/-- Of a longer one, the terminator comes early. -/
theorem nameBytes_of_gt (behind : ℕ → Byte) {text : Bytes} (h : 511 < text.length) {n : ℕ}
    (hn : 512 ≤ n) : ∃ rest, nameBytes behind text n = text.take 511 ++ 0 :: rest := by
  have hlen : (text.take 511 ++ [0] : Bytes).length = 512 := by
    rw [List.length_append, List.length_take_of_le h.le]
    rfl
  refine ⟨(List.range (n - 512)).map fun i => behind (512 + i), ?_⟩
  simp only [nameBytes, hlen]
  rw [List.take_of_length_le (hlen.le.trans hn), List.append_assoc]
  rfl

/-- The code load record before the name. -/
def codeFields (pid index : BitVec 32) (b : BlockEnd) (sys : System) : Bytes :=
  bytes 4 pid ++ bytes 4 sys.tid ++ bytes 8 b.start ++ bytes 8 b.start ++ bytes 8 b.size ++
    bytes 8 (index.setWidth 64 : Word)

/-- The record that is written, with as many bytes of the name as were counted. -/
theorem writeCodeLoad_eq (text : Bytes) {written : ℕ} (h : (nameLen text + 1).toNat = written) :
    writeCodeLoad b sys text d =
      recordHeader 0 (BitVec.ofNat 32 (56 + written + b.code.length)) sys.loadTime ++
        (codeFields d.pid d.codeIndex b sys ++ (nameBytes sys.behind text written ++ b.code)) := by
  rw [writeCodeLoad, BitVec.ofNat_add, BitVec.ofNat_add]
  simp [h, codeFields]

/-- The record that is expected. -/
theorem codeRecord_encode : (codeRecordOf cfg pid index b sys).encode =
    recordHeader 0 (BitVec.ofNat 32 (16 + (codeRecordOf cfg pid index b sys).raw.length))
      sys.loadTime ++ (codeFields pid index b sys ++ (blockName cfg b.entryAddr ++ [0] ++ b.code)) := by
  simp [codeRecordOf, recordOf, Record.encode, codeLoadOf, CodeLoad.encode, codeFields]

theorem length_codeRecord : (codeRecordOf cfg pid index b sys).raw.length =
    41 + (blockName cfg b.entryAddr).length + b.code.length := by
  simp [codeRecordOf, recordOf, codeLoadOf, CodeLoad.encode]
  omega

/-- **A name that fits** is written as expected. -/
theorem writeCodeLoad_of_le (h : (blockName cfg b.entryAddr).length ≤ 511) :
    writeCodeLoad b sys (blockName cfg b.entryAddr) d =
      (codeRecordOf cfg d.pid d.codeIndex b sys).encode := by
  have hwritten : (nameLen (blockName cfg b.entryAddr) + 1).toNat =
      (blockName cfg b.entryAddr).length + 1 := by
    rw [nameLen, if_pos (by omega)]
    omega
  rw [writeCodeLoad_eq _ hwritten, codeRecord_encode, length_codeRecord, nameBytes_of_le _ h]
  congr 3
  omega

theorem recordHeader_inj {id size size' : BitVec 32} {time : BitVec 64} {xs ys : Bytes}
    (h : recordHeader id size time ++ xs = recordHeader id size' time ++ ys) :
    size = size' ∧ xs = ys := by
  obtain ⟨hheader, hrest⟩ := List.append_inj h (by simp [recordHeader])
  refine ⟨?_, hrest⟩
  simp only [recordHeader, List.append_assoc] at hheader
  have hsize := List.append_cancel_left hheader
  have hbytes := (List.append_inj hsize (by simp)).1
  rw [← word_bytes (w := 32) (n := 4) (by decide) size, hbytes, word_bytes (by decide)]

/-- **A name is written as expected only if it fits**, whatever follows. -/
theorem le_of_writeCodeLoad {xs ys : Bytes}
    (hsize : 16 + (codeRecordOf cfg d.pid d.codeIndex b sys).raw.length < 2 ^ 32)
    (h : writeCodeLoad b sys (blockName cfg b.entryAddr) d ++ xs =
      (codeRecordOf cfg d.pid d.codeIndex b sys).encode ++ ys) :
    (blockName cfg b.entryAddr).length ≤ 511 := by
  have hzero : 0#8 ∉ blockName cfg b.entryAddr := zero_notMem_blockName b.entryAddr
  rw [writeCodeLoad_eq _ rfl, codeRecord_encode] at h
  simp only [List.append_assoc] at h
  obtain ⟨htotal, hrest⟩ := recordHeader_inj h
  rw [length_codeRecord] at htotal hsize
  generalize blockName cfg b.entryAddr = text at *
  have hname := List.append_cancel_left hrest
  by_contra hlong
  rw [not_le] at hlong
  -- the count is that of the whole name, or else the size tells the difference
  have hwritten : (nameLen text + 1).toNat = text.length + 1 := by
    have htotal' := congrArg BitVec.toNat htotal
    rw [BitVec.toNat_ofNat, BitVec.toNat_ofNat, Nat.mod_eq_of_lt hsize] at htotal'
    unfold nameLen at htotal' ⊢
    split at htotal' <;> omega
  obtain ⟨rest, hbytes⟩ := nameBytes_of_gt sys.behind hlong (n := text.length + 1) (by omega)
  rw [hwritten, hbytes] at hname
  conv_rhs at hname => rw [← List.take_append_drop 511 text]
  simp only [List.append_assoc] at hname
  have hdrop := List.append_cancel_left hname
  obtain ⟨x, tail, hx⟩ := List.exists_cons_of_ne_nil
    (List.ne_nil_of_length_pos (by rw [List.length_drop]; omega : 0 < (text.drop 511).length))
  rw [hx] at hdrop
  have hhead : (0 : Byte) = x := (List.cons.inj hdrop).1
  have hmem : x ∈ text.drop 511 := hx ▸ List.mem_cons_self
  rw [← hhead] at hmem
  exact hzero (List.mem_of_mem_drop hmem)

theorem codeRecord_valid (h : 16 + (codeRecordOf cfg pid index b sys).raw.length < 2 ^ 32) :
    (codeRecordOf cfg pid index b sys).Valid := by
  refine ⟨Nat.mod_eq_of_lt h, fun rest => ?_⟩
  have hread := readCodeLoad_encode (x := codeLoadOf cfg pid index b sys)
    (zero_notMem_blockName b.entryAddr) (b.code ++ rest)
  rw [← List.append_assoc] at hread
  simp only [codeRecordOf, recordOf, readBody, hread]
  rfl

/-! ## Blocks -/

/-- The debug info record of a block, if it has one. -/
def debugRecords (cfg : HookConfig) (b : Report × System) : List Record :=
  let ps := opcodes cfg b.1.calls
  if ps = [] then [] else [debugRecordOf cfg b.1.blockEnd b.2 ps]

theorem recordsOf_eq (b : Report × System) :
    recordsOf cfg pid index b = debugRecords cfg b ++ [codeRecordOf cfg pid index b.1.blockEnd b.2] :=
  rfl

variable {out : Bytes} {blocks : List (Report × System)}

/-- **What a block adds**, if its symbols are found. -/
theorem endBlock_bytes (h : d.recorder.Lists []) (hdump : d.dumpFile = some out)
    {b : Report × System} (hfound : cfg.Found (cfg.recorded b.1.calls)) :
    ∃ d', endBlock cfg b.1.blockEnd b.2 (atEnd cfg d b.1) = some d' ∧ d'.recorder.Lists [] ∧
      d'.pid = d.pid ∧ d'.codeIndex = d.codeIndex + 1 ∧
      d'.dumpFile = some (out ++ ((debugRecords cfg b).flatMap Record.encode ++
        writeCodeLoad b.1.blockEnd b.2 (blockName cfg b.1.blockEnd.entryAddr) d)) := by
  obtain ⟨⟨xs, ps, hold, hxs⟩, heq⟩ := atEnd_lists h b.1
  obtain ⟨ss, hss⟩ := Option.isSome_iff_exists.mp hfound
  have hdump' : (atEnd cfg d b.1).dumpFile = some out := by rw [heq, hdump]
  obtain ⟨r', hr', hend⟩ := endBlock_found hold hxs hss hdump' b.1.blockEnd b.2
  have hopcodes : opcodes cfg b.1.calls = (cfg.recorded b.1.calls).zip ss := by
    rw [opcodes, hss, Option.getD_some]
  refine ⟨_, hend, ⟨[], _, hr', fun _ => rfl⟩, by rw [heq], by rw [heq], ?_⟩
  have hload : ∀ text, writeCodeLoad b.1.blockEnd b.2 text (atEnd cfg d b.1) =
      writeCodeLoad b.1.blockEnd b.2 text d := fun text => by rw [heq]; rfl
  simp only [blockBytes, debugRecords, hopcodes, hload]
  split
  · rfl
  · rw [debugRecord_eq, List.flatMap_singleton]

theorem run_cons (b : Report × System) (blocks : List (Report × System)) :
    run cfg (b :: blocks) d =
      (endBlock cfg b.1.blockEnd b.2 (atEnd cfg d b.1)).bind (run cfg blocks) := rfl

/-- **The expected records are written** for blocks whose symbols are found and whose names fit. -/
theorem run_expected (h : d.recorder.Lists []) (hdump : d.dumpFile = some out)
    (hblocks : ∀ b ∈ blocks, cfg.Found (cfg.recorded b.1.calls) ∧
      (blockName cfg b.1.blockEnd.entryAddr).length ≤ 511) :
    ∃ d', run cfg blocks d = some d' ∧
      d'.dumpFile = some (out ++ (allRecords cfg d.pid d.codeIndex blocks).flatMap Record.encode) := by
  induction blocks generalizing d out with
  | nil => exact ⟨d, rfl, by rw [hdump]; simp [allRecords]⟩
  | cons b blocks ih =>
    obtain ⟨⟨hfound, hname⟩, hrest⟩ := List.forall_mem_cons.mp hblocks
    obtain ⟨d₁, hend, hlists, hpid, hindex, hdump₁⟩ := endBlock_bytes h hdump hfound
    obtain ⟨d', hrun, hdump'⟩ := ih hlists hdump₁ hrest
    refine ⟨d', by rw [run_cons, hend]; exact hrun, ?_⟩
    rw [hdump', hpid, hindex, writeCodeLoad_of_le hname, allRecords, recordsOf_eq]
    simp

/-- The file grows by what is written. -/
theorem run_append (h : d.recorder.Lists []) (hdump : d.dumpFile = some out) {d' : HookData}
    (hrun : run cfg blocks d = some d') : ∃ more, d'.dumpFile = some (out ++ more) := by
  induction blocks generalizing d out with
  | nil =>
    cases hrun
    exact ⟨[], by rw [hdump, List.append_nil]⟩
  | cons b blocks ih =>
    have hfound := (run_isSome_iff h (by rw [hdump]; rfl)).mp (by rw [hrun]; rfl) b
      List.mem_cons_self
    obtain ⟨d₁, hend, hlists, -, -, hdump₁⟩ := endBlock_bytes h hdump hfound
    rw [run_cons, hend] at hrun
    obtain ⟨more, hmore⟩ := ih hlists hdump₁ hrun
    exact ⟨_, by rw [hmore, List.append_assoc]⟩

/-- **Only for such blocks** they are, unless a size overflows. -/
theorem fits_of_run (h : d.recorder.Lists []) (hdump : d.dumpFile = some out) {d' : HookData}
    (hrun : run cfg blocks d = some d')
    (hdump' : d'.dumpFile =
      some (out ++ (allRecords cfg d.pid d.codeIndex blocks).flatMap Record.encode))
    (hsize : ∀ r ∈ allRecords cfg d.pid d.codeIndex blocks, 16 + r.raw.length < 2 ^ 32) :
    ∀ b ∈ blocks, cfg.Found (cfg.recorded b.1.calls) ∧
      (blockName cfg b.1.blockEnd.entryAddr).length ≤ 511 := by
  induction blocks generalizing d out with
  | nil => exact fun b hb => absurd hb List.not_mem_nil
  | cons b blocks ih =>
    have hfound := (run_isSome_iff h (by rw [hdump]; rfl)).mp (by rw [hrun]; rfl) b
      List.mem_cons_self
    obtain ⟨d₁, hend, hlists, hpid, hindex, hdump₁⟩ := endBlock_bytes h hdump hfound
    rw [run_cons, hend] at hrun
    obtain ⟨more, hmore⟩ := run_append hlists hdump₁ hrun
    rw [allRecords, recordsOf_eq] at hdump' hsize
    have hbytes := Option.some_inj.mp (hmore.symm.trans hdump')
    simp only [List.flatMap_append, List.flatMap_singleton, List.append_assoc] at hbytes
    have hload := List.append_cancel_left (List.append_cancel_left hbytes)
    have hname := le_of_writeCodeLoad (hsize _ (by simp)) hload
    rw [writeCodeLoad_of_le hname] at hload
    have hrest := List.append_cancel_left hload
    refine List.forall_mem_cons.mpr ⟨⟨hfound, hname⟩, ?_⟩
    rw [← hpid, ← hindex] at hrest hsize
    refine ih hlists hdump₁ hrun (by rw [hmore, hrest]) fun r hr => hsize r ?_
    exact List.mem_append_right _ hr

/-! ## The file -/

def headerOf (mach pid : BitVec 32) (time : BitVec 64) : Header :=
  ⟨0x4a695444, 1, 40, mach, 0, pid, time, 0⟩

/-- What the debug info records say of a block, and the code behind its name. -/
structure Described (cfg : HookConfig) (b : Report) : Prop where
  opcodes : (opcodes cfg b.calls).map Prod.fst = cfg.recorded b.calls
  symbols : ∀ p ∈ Perf.opcodes cfg b.calls, ∃ t, cfg.symtab = some t ∧ p.2 ∈ t ∧ p.2.Covers p.1.addr
  code : b.blockEnd.size.toNat = b.blockEnd.code.length

/-- The file is read as its header and exactly the records that are expected. -/
structure WellFormed (cfg : HookConfig) (mach pid : BitVec 32) (time : BitVec 64)
    (blocks : List (Report × System)) (file : Bytes) : Prop where
  read : Jitdump.read file = some (headerOf mach pid time, allRecords cfg pid 0 blocks)
  size : ∀ r ∈ allRecords cfg pid 0 blocks, r.totalSize.toNat = 16 + r.raw.length
  blocks : ∀ b ∈ blocks, Described cfg b.1

theorem readHeader_append (mach pid : BitVec 32) (time : BitVec 64) (rest : Bytes) :
    readHeader (fileHeader mach pid time ++ rest) = some (headerOf mach pid time, rest) := by
  simp [readHeader, fileHeader, number_bytes, headerOf]

theorem read_append (mach pid : BitVec 32) (time : BitVec 64) (rest : Bytes) :
    Jitdump.read (fileHeader mach pid time ++ rest) =
      (untilEof readRecord rest.length rest).map fun rs => (headerOf mach pid time, rs) := by
  rw [Jitdump.read, readHeader_append, Option.map_eq_bind]
  rfl

theorem mem_allRecords {b : Report × System} (hb : b ∈ blocks) (index : BitVec 32) :
    ∃ i, codeRecordOf cfg pid i b.1.blockEnd b.2 ∈ allRecords cfg pid index blocks := by
  induction blocks generalizing index with
  | nil => exact absurd hb List.not_mem_nil
  | cons b' blocks ih =>
    obtain rfl | hb := List.mem_cons.mp hb
    · exact ⟨index, by simp [allRecords, recordsOf_eq]⟩
    · obtain ⟨i, hi⟩ := ih hb (index + 1)
      exact ⟨i, List.mem_append_right _ hi⟩

theorem valid_of_mem {r : Record} (hr : r ∈ allRecords cfg pid index blocks)
    (hsize : 16 + r.raw.length < 2 ^ 32) : r.Valid := by
  induction blocks generalizing index with
  | nil => exact absurd hr List.not_mem_nil
  | cons b blocks ih =>
    rw [allRecords, recordsOf_eq, List.mem_append, List.mem_append, List.mem_singleton] at hr
    obtain (hr | rfl) | hr := hr
    · rw [debugRecords] at hr
      split at hr
      · exact absurd hr List.not_mem_nil
      · obtain rfl := List.mem_singleton.mp hr
        exact debugRecord_valid hsize
    · exact codeRecord_valid hsize
    · exact ih hr

theorem described {b : Report} (hfound : cfg.Found (cfg.recorded b.calls))
    (hcode : b.blockEnd.code.length < 2 ^ 32) : Described cfg b := by
  obtain ⟨ss, hss⟩ := Option.isSome_iff_exists.mp hfound
  have hopcodes : opcodes cfg b.calls = (cfg.recorded b.calls).zip ss := by
    rw [opcodes, hss, Option.getD_some]
  have hlen := HookConfig.symbols_length hss
  have hcovers := HookConfig.covers_of_symbols hss
  rw [List.length_map] at hlen
  rw [List.forall₂_map_left_iff] at hcovers
  refine ⟨?_, fun p hp => ?_, ?_⟩
  · rw [hopcodes, List.map_fst_zip hlen.ge]
  · rw [hopcodes] at hp
    exact (List.forall₂_iff_zip.mp hcovers).2 hp
  · rw [BlockEnd.size, BitVec.toNat_ofNat]
    exact Nat.mod_eq_of_lt (by omega)

/-- A file that is well-formed has neither a longer name nor a larger record. -/
theorem fits_of_wellFormed {mapFile : Bool} {mach : BitVec 32} {time : BitVec 64} {file : Bytes}
    (hrun : run cfg blocks (.init mapFile true mach pid time) = some d)
    (hfile : d.dumpFile = some file) (h : WellFormed cfg mach pid time blocks file) :
    (∀ b ∈ blocks, cfg.Found (cfg.recorded b.1.calls) ∧
      (blockName cfg b.1.blockEnd.entryAddr).length ≤ 511) ∧
    ∀ r ∈ allRecords cfg pid 0 blocks, 16 + r.raw.length < 2 ^ 32 := by
  have hsize : ∀ r ∈ allRecords cfg pid 0 blocks, 16 + r.raw.length < 2 ^ 32 :=
    fun r hr => (h.size r hr).symm.trans_lt r.totalSize.isLt
  refine ⟨?_, hsize⟩
  obtain ⟨more, hmore⟩ := run_append Recorder.lists_init rfl hrun
  obtain rfl := Option.some_inj.mp (hfile.symm.trans hmore)
  have hread := h.read
  rw [read_append] at hread
  obtain ⟨rs, hrs, hread⟩ := Option.map_eq_some_iff.mp hread
  cases hread
  obtain ⟨hbytes, -⟩ := untilEof_readRecord hrs
  refine fits_of_run Recorder.lists_init rfl hrun ?_ hsize
  rw [hfile, hbytes]
  rfl

/-- **The dump file is well-formed** exactly if for all blocks the symbols are found and the names
fit into the buffer, and the size of no record overflows. -/
theorem dump_wellFormed_iff (cfg : HookConfig) (mapFile : Bool) (mach pid : BitVec 32)
    (time : BitVec 64) (blocks : List (Report × System)) :
    (∃ d file, run cfg blocks (.init mapFile true mach pid time) = some d ∧
      d.dumpFile = some file ∧ WellFormed cfg mach pid time blocks file) ↔
    (∀ b ∈ blocks, cfg.Found (cfg.recorded b.1.calls) ∧
      (blockName cfg b.1.blockEnd.entryAddr).length ≤ 511) ∧
    ∀ r ∈ allRecords cfg pid 0 blocks, 16 + r.raw.length < 2 ^ 32 := by
  constructor
  · rintro ⟨d, file, hrun, hfile, h⟩
    exact fits_of_wellFormed hrun hfile h
  · rintro ⟨hblocks, hsize⟩
    have hvalid : ∀ r ∈ allRecords cfg pid 0 blocks, r.Valid :=
      fun r hr => valid_of_mem hr (hsize r hr)
    obtain ⟨d, hrun, hdump⟩ := run_expected (d := .init mapFile true mach pid time)
      Recorder.lists_init rfl hblocks
    refine ⟨d, _, hrun, hdump, ⟨?_, fun r hr => (hvalid r hr).size, fun b hb => ?_⟩⟩
    · refine (read_append mach pid time _).trans ?_
      exact congrArg (Option.map fun rs => (headerOf mach pid time, rs)) (untilEof_encode hvalid)
    · obtain ⟨i, hi⟩ : ∃ i, codeRecordOf cfg pid i b.1.blockEnd b.2 ∈ allRecords cfg pid 0 blocks :=
        mem_allRecords hb 0
      have hlen := hsize _ hi
      rw [length_codeRecord] at hlen
      exact described (hblocks b hb).1 (by omega)

/-- A label of 501 bytes makes the name of its block one byte too long. -/
theorem long_name_not_wellFormed :
    let cfg : HookConfig := ⟨some [⟨0x100, List.replicate 501 (ascii 'a')⟩], none,
      fun _ => ⟨[], List.not_mem_nil⟩⟩
    let blocks : List (Report × System) :=
      [(⟨[], ⟨0x100, 0x1000, [0xc3], fun _ => 0⟩⟩, ⟨0, 0, 1, fun _ => 0⟩)]
    ¬∃ d file, run cfg blocks (.init false true 62 1 0) = some d ∧ d.dumpFile = some file ∧
      WellFormed cfg 62 1 0 blocks file := by
  rintro cfg blocks ⟨d, file, hrun, hfile, h⟩
  have hname := ((fits_of_wellFormed hrun hfile h).1 _ List.mem_cons_self).2
  have hlen : (blockName cfg 0x100).length = 512 := by decide +kernel
  rw [hlen] at hname
  exact absurd hname (by decide)

end Perf

end BuxnJit
