import BuxnJit.Lir.Machine
import Mathlib.Logic.Function.Basic

/-!
# The block map and the queues

The long-lived state of the JIT: the hash trie that finds the block of an address, and the queue
entries that are recycled through a pool. Entries are linked through their own `next` field, and
the address of a jump and the address to compile share one field, as in `buxn_jit_entry_t`.
-/

namespace BuxnJit

abbrev BlockId := ℕ
abbrev EntryId := ℕ
abbrev CompilerId := ℕ

/-! ## The hash trie -/

def prospector32 (x : BitVec 32) : BitVec 32 :=
  let x := x ^^^ (x >>> 15)
  let x := x * 0x2c1b3c6d#32
  let x := x ^^^ (x >>> 12)
  let x := x * 0x297a2d39#32
  x ^^^ (x >>> 15)

/-- The blocks as nodes of the trie: their keys and their four children. -/
inductive Trie
  | null
  | node (block : BlockId) (key : Short) (children : BitVec 2 → Trie)

namespace Trie

/-- `BHAMT_SEARCH`: the block with the key, if the search ends at one. -/
def search (key : Short) : BitVec 32 → Trie → Option BlockId
  | _, null => none
  | hash, node b k cs =>
    if k = key then some b else (cs (hash.setWidth 2)).search key (hash >>> 2)

/-- The trie with a new block in the empty slot where the search for its key ends. -/
def insert (b : BlockId) (key : Short) : BitVec 32 → Trie → Trie
  | _, null => node b key fun _ => null
  | hash, node b' k cs =>
    if k = key then node b' k cs
    else node b' k (Function.update cs (hash.setWidth 2)
      ((cs (hash.setWidth 2)).insert b key (hash >>> 2)))

end Trie

/-! ## Blocks and entries -/

/-- `buxn_jit_block_t`, whose `key` and `children` are in the trie. Addresses are 0 until the block
is compiled. -/
structure Block where
  key : Short
  fn : Word
  headAddr : Word
  bodyAddr : Word
  executableOffset : Word
  next : Option BlockId

inductive LinkType
  | toHead | toBody
  deriving DecidableEq

/-- A jump emitted by a compiler. -/
structure JumpRef where
  compiler : CompilerId
  id : Label
  deriving DecidableEq

/-- The union of `jump` and `pc`. -/
inductive Payload
  | jump (j : JumpRef)
  | pc (pc : Short)
  deriving DecidableEq

/-- `buxn_jit_entry_t`. -/
structure Entry where
  next : Option EntryId
  linkType : LinkType
  block : BlockId
  compiler : CompilerId
  payload : Payload

/-- The heads of the lists of entries. -/
inductive Queue
  | compile | link | cleanup | pool
  deriving DecidableEq

/-- The calls of sljit that end the life of what compilation creates. -/
inductive Event
  | generateCode (c : CompilerId)
  | setJumpAddr (j : JumpRef) (target offset : Word)
  | freeCompiler (c : CompilerId)
  deriving DecidableEq

/-- `buxn_jit_t`, with the memory of its `vm` as the compiler reads it. Objects are numbered in the
order of their allocation. -/
structure Jit where
  memory : Short → Byte
  root : Trie
  first : Option BlockId
  blocks : BlockId → Block
  numBlocks : ℕ
  entries : EntryId → Entry
  numEntries : ℕ
  heads : Queue → Option EntryId
  numCompilers : ℕ
  /-- What was done so far, the latest first. -/
  events : List Event

namespace Jit

def log (e : Event) (j : Jit) : Jit := { j with events := e :: j.events }

def setEntry (e : EntryId) (x : Entry) (j : Jit) : Jit :=
  { j with entries := Function.update j.entries e x }

def setBlock (b : BlockId) (x : Block) (j : Jit) : Jit :=
  { j with blocks := Function.update j.blocks b x }

/-- `buxn_jit_dequeue`. -/
def dequeue (q : Queue) (j : Jit) : Option EntryId × Jit :=
  match j.heads q with
  | none => (none, j)
  | some e => (some e, { j with heads := Function.update j.heads q (j.entries e).next })

/-- `buxn_jit_enqueue`. -/
def enqueue (q : Queue) (e : EntryId) (j : Jit) : Jit :=
  { j.setEntry e { j.entries e with next := j.heads q } with
    heads := Function.update j.heads q (some e) }

/-- `buxn_jit_alloc_entry`: a recycled entry keeps its old contents. -/
def allocEntry (j : Jit) : EntryId × Jit :=
  match j.dequeue .pool with
  | (some e, j) => (e, j)
  | (none, j) => (j.numEntries, { j with numEntries := j.numEntries + 1 })

/-- `buxn_jit_queue_block`. -/
def queueBlock (pc : Short) (j : Jit) : BlockId × Jit :=
  let hash := prospector32 (pc.setWidth 32)
  match j.root.search pc hash with
  | some b => (b, j)
  | none =>
    let b := j.numBlocks
    let j := { j.setBlock b ⟨pc, 0, 0, 0, 0, j.first⟩ with
      root := j.root.insert b pc hash
      first := some b
      numBlocks := j.numBlocks + 1 }
    let c := j.numCompilers
    let j := { j with numCompilers := j.numCompilers + 1 }
    let (e, j) := j.allocEntry
    let j := j.setEntry e { j.entries e with block := b, compiler := c, payload := .pc pc }
    let j := j.enqueue .compile e
    let (e, j) := j.allocEntry
    let j := j.setEntry e { j.entries e with compiler := c }
    (b, j.enqueue .cleanup e)

/-- The end of `buxn_jit_jump_abs` for a known target: an entry that links the jump to the block of
the target. -/
def linkEntry (t : LinkType) (jump : JumpRef) (target : Short) (j : Jit) : Jit :=
  let (e, j) := j.allocEntry
  let j := j.setEntry e { j.entries e with linkType := t }
  let (b, j) := j.queueBlock target
  let j := j.setEntry e { j.entries e with block := b, compiler := jump.compiler,
                                           payload := .jump jump }
  j.enqueue .link e

/-- The walk of `buxn_jit_cleanup` over at most `n` blocks: those whose functions are freed. -/
def freed (j : Jit) : ℕ → Option BlockId → List BlockId
  | n + 1, some b =>
    if (j.blocks b).fn ≠ 0 then b :: j.freed n (j.blocks b).next else j.freed n (j.blocks b).next
  | _, _ => []

/-- `buxn_jit_cleanup`. -/
def cleanup (j : Jit) : List BlockId := j.freed (j.numBlocks + 1) j.first

end Jit

end BuxnJit
