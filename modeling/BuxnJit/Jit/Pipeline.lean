import BuxnJit.Jit.Compile

/-!
# Compiling, linking, cleaning up

`buxn_jit_compile` and `buxn_jit`, with its loops over the three queues. What sljit reports of the
code it generates is a parameter; `fuel` bounds the number of opcodes of a block, the depth of the
inlining and the number of blocks compiled in one call.
-/

namespace BuxnJit

/-- What sljit tells of the code it generated for a compiler. -/
structure Sljit where
  fn : CompilerId → Word
  headAddr : CompilerId → Word
  bodyAddr : CompilerId → Word
  executableOffset : CompilerId → Word

/-- The field `pc` of the union. -/
def Payload.toPc : Payload → Short
  | .pc addr => addr
  | .jump _ => 0

/-- The field `jump` of the union. -/
def Payload.toJump : Payload → JumpRef
  | .jump j => j
  | .pc _ => ⟨0, 0⟩

namespace Jit

variable (S : Sljit) (fuel : ℕ)

/-- The end of `buxn_jit_compile`: the code of the block is generated. -/
def generate (e : EntryId) (j : Jit) : Jit :=
  let x := j.entries e
  (j.setBlock x.block { j.blocks x.block with
    fn := S.fn x.compiler
    headAddr := S.headAddr x.compiler
    bodyAddr := S.bodyAddr x.compiler
    executableOffset := S.executableOffset x.compiler }).log (.generateCode x.compiler)

/-- `buxn_jit_compile`. -/
def compile (e : EntryId) (j : Jit) : Jit :=
  let x := j.entries e
  ((Ctx.start j x.compiler x.payload.toPc).compileBlock fuel fuel).jit.generate S e

/-- The body of the link loop. -/
def link (e : EntryId) (j : Jit) : Jit :=
  let x := j.entries e
  let block := j.blocks x.block
  let target := if x.linkType = .toHead then block.headAddr else block.bodyAddr
  if target ≠ 0 then j.log (.setJumpAddr x.payload.toJump target block.executableOffset) else j

/-- The body of the cleanup loop. -/
def free (e : EntryId) (j : Jit) : Jit := j.log (.freeCompiler (j.entries e).compiler)

/-- A loop that handles the entries of a queue, and puts them into the pool, for at most `n` of
them. -/
def drain (q : Queue) (body : EntryId → Jit → Jit) : ℕ → Jit → Jit
  | 0, j => j
  | n + 1, j =>
    match j.dequeue q with
    | (none, j) => j
    | (some e, j) => drain q body n ((body e j).enqueue .pool e)

/-- `buxn_jit`. The link and the cleanup loop handle each entry at most once. -/
def buxnJit (pc : Short) (j : Jit) : BlockId × Jit :=
  let (b, j) := j.queueBlock pc
  if (j.blocks b).fn ≠ 0 then (b, j)
  else
    let j := j.drain .compile (compile S fuel) fuel
    let j := j.drain .link link (j.numEntries + 1)
    (b, j.drain .cleanup free (j.numEntries + 1))

end Jit

end BuxnJit
