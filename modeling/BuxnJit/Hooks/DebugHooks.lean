import BuxnJit.Foundations.Binary
import BuxnJit.Hooks.AddrMapping
import BuxnJit.Hooks.Symbols

/-!
# The debug hooks

The gdb and the perf hook: what `jit_opcode` records, and what `end_block` makes of it. A hook that
dereferences the NULL that `buxn_dbg_find_symbol` may return has crashed, which is `none` here.
-/

namespace BuxnJit

open Foundations Binary

/-! ## Names -/

/-- A NUL-terminated string, without its terminator. -/
structure CStr where
  bytes : List Byte
  nonzero : 0#8 ∉ bytes

def ascii (c : Char) : Byte := BitVec.ofNat 8 c.toNat

/-- `buxn_label_map_entry_t`; `name_len` is the length of the name. -/
structure LabelEntry where
  addr : Short
  name : List Byte

/-- `buxn_pc_to_label`: the closest label before the address, neither in the zero page nor
anonymous. -/
def pcToLabel (labels : List LabelEntry) (pc : Short) : Option LabelEntry :=
  labels.foldl (fun closest e =>
    if e.addr > 0x00ff ∧ e.name.head?.any (· ≠ ascii '@') ∧ e.addr ≤ pc ∧
      e.addr > closest.elim 0 LabelEntry.addr then some e else closest) none

/-! ## Calls of the hooks -/

/-- What both hooks are configured with, and the strings that the symbols refer to. -/
structure HookConfig where
  labelMap : Option (List LabelEntry)
  symtab : Option Symtab
  str : Word → CStr

/-- A call of `jit_opcode`, with the mark that the hook gets for the address of the code. -/
structure OpcodeCall where
  pc : Short
  opcode : Byte
  mark : Mark

/-- A call of `end_block`: what the hook is passed, the code that was generated, and the addresses
that marks are resolved to. -/
structure BlockEnd where
  entryAddr : Short
  start : Word
  code : List Byte
  resolve : Mark → Word

def BlockEnd.size (b : BlockEnd) : Word := BitVec.ofNat 64 b.code.length

namespace HookConfig

variable (cfg : HookConfig)

def closestLabel (addr : Short) : Option LabelEntry := cfg.labelMap.bind (pcToLabel · addr)

/-- A symbol that is dereferenced as soon as it is looked up. -/
def lookup (a : Short) (hint : ℕ) : Option (Sym × ℕ) := do
  let t ← cfg.symtab
  let (s, hint) := t.findSymbol a hint
  return (← s, hint)

/-- The body of the loops over the recorded addresses: the symbol of the next one is looked up. -/
def visit {α : Type} (f : α → AddrMapping → Sym → α) : α × ℕ → AddrMapping → Option (α × ℕ)
  | (x, hint), m => do
    let (s, hint) ← cfg.lookup m.addr hint
    return (f x m s, hint)

/-- A hook whose `jit_opcode` is installed only with a symbol table. -/
def record (m : AddrMapping) (r : Recorder) : Recorder :=
  if cfg.symtab.isSome then r.record m else r

end HookConfig

/-! ## The gdb hook -/

namespace Gdb

/-- `buxn_jit_dbg_str_t`. -/
structure DbgStr where
  len : ℕ
  str : Word
  deriving DecidableEq

/-- `buxn_jit_dbg_line_mapping_t`. -/
structure LineMapping where
  line : BitVec 32
  pc : Word
  file : DbgStr
  deriving DecidableEq

/-- `buxn_jit_dbg_info_t`, with the bytes of the name. -/
structure DbgInfo where
  addr : Short
  start : Word
  size : Word
  name : List Byte
  mappings : List LineMapping

/-- The part of `buxn_jit_dbg_hook_data_t` that belongs to the hook alone; `blocks` has the latest
first. -/
structure HookData where
  recorder : Recorder
  blocks : List DbgInfo

def HookData.init : HookData := ⟨.init, []⟩

/-- The opcodes that are recorded: the entry, and those that call and return. -/
def records (entryAddr : Short) (c : OpcodeCall) : Bool :=
  let base := c.opcode &&& 0x1f
  c.pc == entryAddr || c.opcode == 0x60 || base == 0x0e || base == 0x16 || base == 0x17

/-- `buxn_jit_gdb_jit_opcode`. -/
def jitOpcode (cfg : HookConfig) (entryAddr : Short) (d : HookData) (c : OpcodeCall) : HookData :=
  if records entryAddr c then { d with recorder := cfg.record ⟨c.mark, c.pc⟩ d.recorder } else d

/-- The mapping that is written to the next place of the array. -/
def addMapping (cfg : HookConfig) (b : BlockEnd) (mappings : List LineMapping) (m : AddrMapping)
    (s : Sym) : List LineMapping :=
  mappings ++ [⟨s.line, b.resolve m.mark, (cfg.str s.filename).bytes.length, s.filename⟩]

/-- `buxn_jit_gdb_end_block` before the registration. -/
def endBlock (cfg : HookConfig) (b : BlockEnd) (d : HookData) : Option HookData := do
  let name := (cfg.closestLabel b.entryAddr).elim [] fun e =>
    (if e.addr = b.entryAddr then ascii '@' else ascii '~') :: e.name
  let (mappings, recorder) ←
    if d.recorder.len > 0 then
      let ((mappings, _), recorder) ←
        Recorder.recycle (cfg.visit (addMapping cfg b)) d.recorder.numChunks d.recorder.first ([], 0)
          d.recorder
      pure (mappings, recorder)
    else pure ([], d.recorder)
  return ⟨recorder, ⟨b.entryAddr, b.start, b.size, name, mappings⟩ :: d.blocks⟩

end Gdb

/-! ## The perf hook -/

namespace Perf

/-- `buxn_jit_perf_hook_data_t`, with the bytes written to the files that are open. -/
structure HookData where
  recorder : Recorder
  mapFile : Option Bytes
  dumpFile : Option Bytes
  pid : BitVec 32
  codeIndex : BitVec 32

/-- `perf_jitdump_hdr_t`. -/
def fileHeader (mach pid : BitVec 32) (time : BitVec 64) : Bytes :=
  bytes 4 (0x4a695444 : BitVec 32) ++ bytes 4 (1 : BitVec 32) ++ bytes 4 (40 : BitVec 32) ++
    bytes 4 mach ++ bytes 4 (0 : BitVec 32) ++ bytes 4 pid ++ bytes 8 time ++
    bytes 8 (0 : BitVec 64)

/-- `buxn_jit_init_perf_hook`, which may have opened the files. -/
def HookData.init (mapFile dumpFile : Bool) (mach pid : BitVec 32) (time : BitVec 64) : HookData :=
  ⟨.init, if mapFile then some [] else none,
    if dumpFile then some (fileHeader mach pid time) else none, pid, 0⟩

/-- What `end_block` learns from the system: the times at which it makes its two records, the
thread, and the memory behind `name`. -/
structure System where
  debugTime : BitVec 64
  loadTime : BitVec 64
  tid : BitVec 32
  behind : ℕ → Byte

/-- `buxn_jit_perf_jit_opcode`. -/
def jitOpcode (cfg : HookConfig) (d : HookData) (c : OpcodeCall) : HookData :=
  { d with recorder := cfg.record ⟨c.mark, c.pc⟩ d.recorder }

/-! ### The name of a block -/

def hexDigit (d : BitVec 4) : Byte :=
  if d < 10 then ascii '0' + d.setWidth 8 else ascii 'a' + (d - 10).setWidth 8

/-- The lowest `n` hexadecimal digits of a word. -/
def hex {w : ℕ} (n : ℕ) (x : BitVec w) : Bytes :=
  (List.range n).map fun i => hexDigit ((x >>> (4 * (n - 1 - i))).setWidth 4)

/-- `%zx` and `PRIxPTR`. -/
def hexWord (x : Word) : Bytes :=
  match (hex 16 x).dropWhile (· = ascii '0') with
  | [] => [ascii '0']
  | ds => ds

/-- What `%.*s` makes of a name of `len` bytes, with the `int` of its length. A negative precision
counts as none. -/
def precision (name : Bytes) : Bytes :=
  let p := (BitVec.ofNat 32 name.length).toInt
  (if p < 0 then name else name.take p.toNat).takeWhile (· ≠ 0#8)

/-- The text `uxn:0x%04x%s%.*s` of a block. -/
def blockName (cfg : HookConfig) (addr : Short) : Bytes :=
  let (atStr, label) := (cfg.closestLabel addr).elim (ascii '@', [ascii '?']) fun e =>
    (if e.addr = addr then ascii '@' else ascii '~', precision e.name)
  [ascii 'u', ascii 'x', ascii 'n', ascii ':', ascii '0', ascii 'x'] ++ hex 4 addr ++ [atStr] ++ label

/-- The result of `snprintf`: the length of the whole text, or -1 if that is no `int`. -/
def nameLen (text : Bytes) : ℤ := if text.length < 2 ^ 31 then text.length else -1

/-- `name[512]` after `snprintf`, and the memory behind it: its first `n` bytes. -/
def nameBytes (behind : ℕ → Byte) (text : Bytes) (n : ℕ) : Bytes :=
  let buffer := text.take 511 ++ [0]
  buffer.take n ++ (List.range (n - buffer.length)).map fun i => behind (buffer.length + i)

/-! ### Records -/

/-- `perf_jitdump_rec_hdr_t`. -/
def recordHeader (id totalSize : BitVec 32) (time : BitVec 64) : Bytes :=
  bytes 4 id ++ bytes 4 totalSize ++ bytes 8 time

/-- `perf_jitdump_debug_entry_t`, and the name of the file. -/
def debugEntry (addr : Word) (line discrim : BitVec 32) (filename : Bytes) : Bytes :=
  bytes 8 addr ++ bytes 4 line ++ bytes 4 discrim ++ filename ++ [0]

/-- What the first pass adds to `total_size`. -/
def addSize (cfg : HookConfig) (size : BitVec 32) (_ : AddrMapping) (s : Sym) : BitVec 32 :=
  size + 16 + BitVec.ofNat 32 ((cfg.str s.filename).bytes.length + 1)

/-- What the second pass writes. -/
def addEntry (cfg : HookConfig) (b : BlockEnd) (out : Bytes) (m : AddrMapping) (s : Sym) : Bytes :=
  out ++ debugEntry (b.resolve m.mark) s.line s.col (cfg.str s.filename).bytes

/-- The debug info record, for at least one recorded address. -/
def writeDebugInfo (cfg : HookConfig) (b : BlockEnd) (sys : System) (r : Recorder) :
    Option (Bytes × Recorder) := do
  let start : BitVec 32 := 16 + 16 + 16 + 1
  let (size, _) ← r.forEach (cfg.visit (addSize cfg)) r.numChunks r.first (start, 0)
  let out := recordHeader 2 size sys.debugTime ++ bytes 8 b.start ++
    bytes 8 (BitVec.ofNat 64 (r.len + 1))
  let ((out, _), r) ← Recorder.recycle (cfg.visit (addEntry cfg b)) r.numChunks r.first (out, 0) r
  -- Dummy line
  return (out ++ debugEntry (b.start + b.size - 1) 0 0 [], r)

/-- The code load record. -/
def writeCodeLoad (b : BlockEnd) (sys : System) (text : Bytes) (d : HookData) : Bytes :=
  let written := (nameLen text + 1).toNat
  recordHeader 0 (16 + 40 + BitVec.ofNat 32 written + BitVec.ofNat 32 b.code.length) sys.loadTime ++
    bytes 4 d.pid ++ bytes 4 sys.tid ++ bytes 8 b.start ++ bytes 8 b.start ++ bytes 8 b.size ++
    bytes 8 (d.codeIndex.setWidth 64) ++ nameBytes sys.behind text written ++ b.code

/-- The line of the map file, where the name ends with the buffer at the latest. -/
def mapLine (b : BlockEnd) (text : Bytes) : Bytes :=
  hexWord b.start ++ [ascii ' '] ++ hexWord b.size ++ [ascii ' '] ++ text.take 511 ++ [ascii '\n']

/-- `buxn_jit_perf_end_block`. -/
def endBlock (cfg : HookConfig) (b : BlockEnd) (sys : System) (d : HookData) :
    Option HookData := do
  let text := blockName cfg b.entryAddr
  let d := { d with mapFile := d.mapFile.map (· ++ mapLine b text) }
  match d.dumpFile with
  | none => return d
  | some out =>
    let (out, r) ←
      if d.recorder.len > 0 then
        let (debug, r) ← writeDebugInfo cfg b sys d.recorder
        pure (out ++ debug, r)
      else pure (out, d.recorder)
    return { d with
      recorder := r
      dumpFile := some (out ++ writeCodeLoad b sys text d)
      codeIndex := d.codeIndex + 1 }

end Perf

end BuxnJit
