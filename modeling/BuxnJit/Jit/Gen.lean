import BuxnJit.Lir.Machine

/-!
# Registers and stack caches

The state of the code generator and the functions of `jit.c` that allocate operand registers and
keep the top of both stacks in them. `buxn_jit_ctx_t` is split in two: `Gen` has what code
generation depends on, `Ctx` (in `MicroOps`) adds the compile-time values and the address being
compiled, which none of the functions here reads.
-/

namespace BuxnJit

/-! ## Opcode flags -/

def opFlag2 (op : Byte) : Bool :=
  op &&& 0x20 != 0 && op != 0x20 && op != 0x40 && op != 0x60

def opFlagK (op : Byte) : Bool :=
  op &&& 0x80 != 0 && op != 0x20 && op != 0x40 && op != 0x60 && op != 0x80 && op != 0xa0 &&
    op != 0xc0 && op != 0xe0

def opFlagR (op : Byte) : Bool :=
  op &&& 0x40 != 0 && op != 0x20 && op != 0x40 && op != 0x60

/-! ## Operands and cells -/

/-- The bits `BUXN_JIT_SEM_*`. -/
structure Semantics where
  const : Bool
  boolean : Bool
  immJmp : Bool
  deriving DecidableEq

namespace Semantics

def none : Semantics := ⟨false, false, false⟩
def onlyConst : Semantics := ⟨true, false, false⟩
def onlyBoolean : Semantics := ⟨false, true, false⟩

end Semantics

/-- `buxn_jit_operand_t`, for a register of kind `ρ`: an operand register, or any register for a
jump target. -/
structure Operand (ρ : Type) where
  semantics : Semantics
  isShort : Bool
  constValue : Short
  reg : ρ
  deriving DecidableEq

/-- `buxn_jit_stack_cache_cell_t`. -/
structure Cell where
  value : Operand OpReg
  needFlush : Bool
  deriving DecidableEq

/-- The cell once its low byte is gone. -/
def Cell.halve (c : Cell) : Cell := { c with value := { c.value with isShort := false } }

def Cell.flushed (c : Cell) : Cell := { c with needFlush := false }

/-- `BUXN_JIT_CACHE_SIZE`. -/
def cacheSize : ℕ := 4

/-- The code generator. Caches list the deepest cell first, the code its latest instruction
first. -/
structure Gen where
  currentOpcode : Byte
  /-- `mem_base`, where `none` is 0. -/
  memBase : Option Region
  /-- `wsp_reg` and `rsp_reg`. -/
  spReg : Stk → Reg
  refCounts : OpReg → ℕ
  /-- `wst_cache` and `rst_cache`. -/
  cache : Stk → List Cell
  /-- The number of labels and jumps made so far. -/
  labels : ℕ
  code : List Instr
  /-- A `BUXN_JIT_ASSERT` did not hold: the program has aborted. -/
  failed : Bool

namespace Gen

def emit (i : Instr) (g : Gen) : Gen := { g with code := i :: g.code }

def setCache (s : Stk) (cs : List Cell) (g : Gen) : Gen :=
  { g with cache := Function.update g.cache s cs }

def assert (b : Bool) (g : Gen) : Gen := { g with failed := g.failed || !b }

/-- The stack that the current opcode pops. -/
def cur (g : Gen) : Stk := if opFlagR g.currentOpcode then .rst else .wst

/-! ## Operand registers -/

def findFreeReg (g : Gen) : Option OpReg :=
  (List.finRange 6).find? fun r => g.refCounts r == 0

def retainReg (r : OpReg) (g : Gen) : Gen :=
  { g with refCounts := Function.update g.refCounts r (g.refCounts r + 1) }

def releaseReg (r : OpReg) (g : Gen) : Gen :=
  { g.assert (g.refCounts r != 0) with
    refCounts := Function.update g.refCounts r (g.refCounts r - 1) }

/-! ## Writing cells back -/

def setMemBase (base : Region) (g : Gen) : Gen :=
  if g.memBase = some base then g
  else { g.emit (.op2 .add .memBase .vm (.off base)) with memBase := some base }

/-- The code that pushes an operand to the stack in memory. -/
def doPush (operand : Operand OpReg) (s : Stk) (g : Gen) : Gen :=
  let g := g.setMemBase s.region
  if operand.isShort then
    g |>.emit (.op1 .movU8 .memOffset (.reg (.sp s)))
      |>.emit (.op2 .lshr .tmp (.op operand.reg) (.imm 8))
      |>.emit (.storeU8 s.region .tmp)
      |>.emit (.op2 .add (.sp s) (.sp s) (.imm 1))
      |>.emit (.op1 .movU8 .memOffset (.reg (.sp s)))
      |>.emit (.op2 .and .tmp (.op operand.reg) (.imm 0xff))
      |>.emit (.storeU8 s.region .tmp)
      |>.emit (.op2 .add (.sp s) (.sp s) (.imm 1))
  else
    g |>.emit (.op1 .movU8 .memOffset (.reg (.sp s)))
      |>.emit (.storeU8 s.region (.op operand.reg))
      |>.emit (.op2 .add (.sp s) (.sp s) (.imm 1))

/-- `buxn_jit_flush_cell`, where the cell needs it. -/
def flushCell (c : Cell) (s : Stk) (g : Gen) : Gen :=
  if c.needFlush then g.doPush c.value s else g

/-- Write the deepest cell `c` of a cache back and leave the others, `cs`. -/
def spillCell (s : Stk) (c : Cell) (cs : List Cell) (g : Gen) : Gen :=
  ((g.flushCell c s).releaseReg c.value.reg).setCache s cs

/-- `buxn_jit_stack_cache_spill`, which tells whether there was a cell. -/
def stackCacheSpill (s : Stk) (g : Gen) : Bool × Gen :=
  match g.cache s with
  | [] => (false, g)
  | c :: cs => (true, g.spillCell s c cs)

def flushCells (s : Stk) : List Cell → Gen → Gen
  | [], g => g
  | c :: cs, g => flushCells s cs (g.flushCell c s)

/-- Write all cells back, and keep them. -/
def stackCacheFlush (s : Stk) (g : Gen) : Gen :=
  (flushCells s (g.cache s) g).setCache s ((g.cache s).map Cell.flushed)

/-- Spill until the cache is empty; every spill makes it shorter. -/
def stackCacheClear (s : Stk) (g : Gen) : Gen :=
  (fun g => (stackCacheSpill s g).2)^[(g.cache s).length] g

def clearStackCaches (g : Gen) : Gen := (g.stackCacheClear .wst).stackCacheClear .rst

/-- Drop as many of the deepest cells as are flushed, and count the references of the others. -/
def stackCacheRetain (s : Stk) (g : Gen) : Gen :=
  let cs := (g.cache s).drop ((g.cache s).countP fun c => !c.needFlush)
  cs.foldl (fun g c => g.retainReg c.value.reg) (g.setCache s cs)

/-! ## Allocating a register -/

/-- Spill from the cache of the current stack, and from the other one if it is empty. -/
def spillForReg (g : Gen) : Gen :=
  match g.stackCacheSpill g.cur with
  | (true, g) => g
  | (false, g) => (g.stackCacheSpill g.cur.other).2

/-- The loop of `buxn_jit_alloc_reg`, with as many rounds as there are cells to spill. -/
def allocLoop : ℕ → Gen → Option OpReg × Gen
  | 0, g => (g.findFreeReg, g)
  | n + 1, g =>
    match g.findFreeReg with
    | some r => (some r, g)
    | none => allocLoop n g.spillForReg

/-- `buxn_jit_alloc_reg`. Out of registers the program aborts; the register is then immaterial. -/
def allocReg (g : Gen) : OpReg × Gen :=
  match allocLoop ((g.cache .wst).length + (g.cache .rst).length) g with
  | (some r, g) => (r, g.retainReg r)
  | (none, g) => (0, g.assert false)

/-! ## The stack caches -/

def stackCachePush (s : Stk) (value : Operand OpReg) (g : Gen) : Gen :=
  let g := if (g.cache s).length ≥ cacheSize then (g.stackCacheSpill s).2 else g
  (g.setCache s (g.cache s ++ [⟨value, true⟩])).retainReg value.reg

def popFromMem (flag2 : Bool) (s : Stk) (g : Gen) : OpReg × Gen :=
  let g := g.setMemBase s.region
  let sp := g.spReg s
  let (reg, g) := g.allocReg
  let g := g |>.emit (.op2 .sub sp sp (.imm 1))
    |>.emit (.op1 .movU8 .memOffset (.reg sp))
    |>.emit (.loadU8 (.op reg) s.region)
  if flag2 then
    (reg, g |>.emit (.op2 .sub sp sp (.imm 1))
      |>.emit (.op1 .movU8 .memOffset (.reg sp))
      |>.emit (.loadU8 .tmp s.region)
      |>.emit (.op2 .shl .tmp .tmp (.imm 8))
      |>.emit (.op2 .or (.op reg) (.op reg) (.reg .tmp)))
  else (reg, g)

/-- `buxn_jit_stack_cache_pop` for a byte. `top` stays the address of the cell that was last before
the allocation, although the spills of an allocation move the cells down. -/
def stackCachePopByte (s : Stk) (g : Gen) : OpReg × Gen :=
  match (g.cache s).getLast? with
  | none => g.popFromMem false s
  | some top =>
    if top.value.isShort then
      let (reg, g') := g.allocReg
      if g'.cache s = [] then (g'.releaseReg reg).popFromMem false s
      else
        let g'' := g' |>.emit (.op1 .movU8 (.op reg) (.reg (.op top.value.reg)))
          |>.emit (.op2 .lshr (.op top.value.reg) (.op top.value.reg) (.imm 8))
        (reg, g''.setCache s ((g''.cache s).modify ((g.cache s).length - 1) Cell.halve))
    else (top.value.reg, g.setCache s (g.cache s).dropLast)

/-- `buxn_jit_stack_cache_pop`. -/
def stackCachePop (flag2 : Bool) (s : Stk) (g : Gen) : OpReg × Gen :=
  if flag2 then
    match (g.cache s).getLast? with
    | none => g.popFromMem true s
    | some top =>
      let g := g.setCache s (g.cache s).dropLast
      if top.value.isShort then (top.value.reg, g)
      else
        let (hi, g) := g.stackCachePopByte s
        (hi, (g |>.emit (.op2 .shl (.op hi) (.op hi) (.imm 8))
          |>.emit (.op2 .or (.op hi) (.op hi) (.reg (.op top.value.reg)))).releaseReg top.value.reg)
  else g.stackCachePopByte s

def discardFromMem (flag2 : Bool) (s : Stk) (g : Gen) : Gen :=
  g.emit (.op2 .sub (g.spReg s) (g.spReg s) (.imm (if flag2 then 2 else 1)))

/-- `buxn_jit_stack_cache_discard` for a byte. -/
def stackCacheDiscardByte (s : Stk) (g : Gen) : Gen :=
  match (g.cache s).getLast? with
  | none => g.discardFromMem false s
  | some top =>
    if top.value.isShort then
      (g.emit (.op2 .lshr (.op top.value.reg) (.op top.value.reg) (.imm 8))).setCache s
        ((g.cache s).modify ((g.cache s).length - 1) Cell.halve)
    else (g.setCache s (g.cache s).dropLast).releaseReg top.value.reg

/-- `buxn_jit_stack_cache_discard`. -/
def stackCacheDiscard (flag2 : Bool) (s : Stk) (g : Gen) : Gen :=
  if flag2 then
    match (g.cache s).getLast? with
    | none => g.discardFromMem true s
    | some top =>
      let g := (g.setCache s (g.cache s).dropLast).releaseReg top.value.reg
      if top.value.isShort then g else g.stackCacheDiscardByte s
  else g.stackCacheDiscardByte s

end Gen

end BuxnJit
