import BuxnJit.Jit.Opcodes

/-!
# Compiling a block

`buxn_jit_init`, the context in which `buxn_jit_compile` starts a block, and its loop over the
opcodes.
-/

namespace BuxnJit

/-- `buxn_jit_init`, for a virtual machine with this memory. -/
def Jit.init (memory : Short → Byte) : Jit where
  memory := memory
  root := .null
  first := none
  blocks _ := ⟨0, 0, 0, 0, 0, none⟩
  numBlocks := 0
  entries _ := ⟨none, .toHead, 0, 0, .pc 0⟩
  numEntries := 0
  heads _ := none
  numCompilers := 0
  events := []

/-- The context at the entry of a block. -/
def Ctx.start (jit : Jit) (compiler : CompilerId) (pc : Short) : Ctx where
  currentOpcode := 0
  memBase := none
  spReg := .sp
  refCounts _ := 0
  cache _ := []
  labels := 0
  code := []
  failed := false
  jit := jit
  compiler := some compiler
  entryPc := pc
  pc := pc
  tags _ _ := ⟨.none, 0⟩
  ptr _ := 0
  shadow := none

/-- A memory that holds a program from the reset vector on. -/
def rom (program : List Byte) (addr : Short) : Byte := program.getD (addr - 0x100).toNat 0

/-- The context at the entry of a program. -/
def Ctx.boot (program : List Byte) : Ctx := .start (.init (rom program)) 0 0x100

/-- The loop of `buxn_jit_compile`, for at most `n` opcodes. -/
def Ctx.compileBlock (fuel : ℕ) : ℕ → Ctx → Ctx
  | 0, ctx => ctx
  | n + 1, ctx => if ctx.compiler = none then ctx else compileBlock fuel n (nextOpcode fuel ctx)

end BuxnJit
