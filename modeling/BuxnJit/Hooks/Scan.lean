import BuxnJit.Hooks.Recording
import BuxnJit.Jit.Pipeline

/-!
# The opcodes that are reported

The calls of `jit_opcode` while blocks are compiled, in any calls of `buxn_jit`. A block is scanned
past its calls, so that data behind them may be reported as an opcode, and both hooks dereference
the symbol of every address that they recorded, without a check. They crash unless the search finds
one for each (`dereferenced_iff_found`).
-/

namespace BuxnJit

open Foundations

/-- The calls of `jit_opcode` in `buxn_jit_next_opcode`. -/
def hookCalls : ℕ → Ctx → List (Short × Byte)
  | 0, _ => []
  | fuel + 1, ctx =>
    if ctx.pc < 256 then []
    else
      let opcode := ctx.jit.memory ctx.pc
      let inlined : Micro → Ctx → List (Short × Byte)
        | .nextOpcode, ctx => hookCalls fuel ctx
        | _, _ => []
      (ctx.pc, opcode) ::
        Prog.gather (handle (nextOpcode fuel)) inlined (Emit.dispatch (decode opcode)) ctx.beginOpcode

namespace Ctx

/-- Those in the loop of `buxn_jit_compile`. -/
def hookCalls (fuel : ℕ) : ℕ → Ctx → List (Short × Byte)
  | 0, _ => []
  | n + 1, ctx =>
    if ctx.compiler = none then []
    else BuxnJit.hookCalls fuel ctx ++ hookCalls fuel n (nextOpcode fuel ctx)

/-- What the hooks are told of the block that starts here; the code is the work of sljit. -/
def report (fuel : ℕ) (generated : Ctx → BlockEnd) (ctx : Ctx) : Report where
  calls := (ctx.hookCalls fuel fuel).mapIdx fun i c => ⟨c.1, c.2, i⟩
  blockEnd := { generated ctx with entryAddr := ctx.entryPc }

end Ctx

namespace Jit

variable (S : Sljit) (fuel : ℕ)

/-- Where the blocks start that the compile loop of `buxn_jit` compiles. -/
def starts : ℕ → Jit → List Ctx
  | 0, _ => []
  | n + 1, j =>
    match j.dequeue .compile with
    | (none, _) => []
    | (some e, j) =>
      let x := j.entries e
      Ctx.start j x.compiler x.payload.toPc :: starts n ((j.compile S fuel e).enqueue .pool e)

/-- The blocks compiled in calls of `buxn_jit`, with the memory at each call. -/
def compiled : List ((Short → Byte) × Short) → Jit → List Ctx
  | [], _ => []
  | (m, pc) :: calls, j =>
    let j := { j with memory := m }
    let (b, j') := j.queueBlock pc
    (if (j'.blocks b).fn ≠ 0 then [] else starts S fuel fuel j') ++
      compiled calls (j.buxnJit S fuel pc).2

end Jit

/-! ## Both hooks -/

/-- **A symbol that is dereferenced must be found.** For all calls of `buxn_jit` with any memory,
and any symbol table, each hook survives the blocks compiled exactly if the search finds the symbol
of every address it recorded of a block; perf does so, too, without a dump file. An address that is
found has an opcode symbol, and in a sorted table this is enough. -/
theorem dereferenced_iff_found (labelMap : Option (List LabelEntry)) (t : Symtab) (str : Word → CStr)
    (S : Sljit) (fuel : ℕ) (memory : Short → Byte) (calls : List ((Short → Byte) × Short))
    (generated : Ctx → BlockEnd) (sys : Ctx → Perf.System) (mapFile : Bool) (mach pid : BitVec 32)
    (time : BitVec 64) :
    let cfg : HookConfig := ⟨labelMap, some t, str⟩
    let starts := (Jit.init memory).compiled S fuel calls
    let blocks := starts.map (Ctx.report fuel generated)
    let run (dumpFile : Bool) := Perf.run cfg (starts.map fun ctx => (ctx.report fuel generated, sys ctx))
      (.init mapFile dumpFile mach pid time)
    ((Gdb.run cfg blocks .init).isSome ↔
      ∀ b ∈ blocks, cfg.Found (Gdb.recorded b.blockEnd.entryAddr b.calls)) ∧
    ((run true).isSome ↔ ∀ b ∈ blocks, cfg.Found (b.calls.map OpcodeCall.mapping)) ∧
    (run false).isSome ∧
    (∀ ms, cfg.Found ms → ∀ m ∈ ms, ∃ s ∈ t, s.Covers m.addr) ∧
    (t.Sorted → ∀ ms, (∀ m ∈ ms, ∃ s ∈ t, s.Covers m.addr) → cfg.Found ms) := by
  intro cfg starts blocks run
  refine ⟨Gdb.run_isSome_iff rfl Recorder.lists_init, ?_, Perf.run_of_no_dump rfl, ?_, ?_⟩
  · rw [Perf.run_isSome_iff Recorder.lists_init rfl]
    simp [blocks, HookConfig.recorded, cfg]
  · intro ms h m hm
    obtain ⟨ss, hss⟩ := Option.isSome_iff_exists.mp h
    exact HookConfig.exists_covers rfl hss m.addr (List.mem_map_of_mem hm)
  · intro hsorted ms h
    refine HookConfig.symbols_of_covers rfl hsorted (fun a ha => ?_) 0
    obtain ⟨m, hm, rfl⟩ := List.mem_map.mp ha
    exact h m hm

/-- A call, the byte 0x0e behind it, and the subroutine, which ends the program. -/
def dataAfterCall : Short → Byte := rom [0x60, 0x00, 0x01, 0x0e, 0x00]

/-- The byte has no symbol, and both hooks crash on it. -/
theorem missing_symbol_dereferenced :
    let cfg : HookConfig := ⟨none, some [⟨.opcode, 0x100, 0x102, 0x5000, 1, 1⟩,
      ⟨.opcode, 0x104, 0x104, 0x5000, 3, 1⟩], fun _ => ⟨[ascii 'a'], by decide⟩⟩
    let starts := (Jit.init dataAfterCall).compiled ⟨fun _ => 1, fun _ => 1, fun _ => 1, fun _ => 0⟩
      8 [(dataAfterCall, 0x100)]
    let reports := starts.map (Ctx.report 8 fun ctx => ⟨ctx.entryPc, 0x1000, [0xc3], fun _ => 0x1000⟩)
    Gdb.run cfg reports .init = none ∧
    Perf.run cfg (reports.map fun r => (r, ⟨0, 0, 1, fun _ => 0⟩)) (.init true true 62 1 0) = none := by
  exact ⟨rfl, rfl⟩

end BuxnJit
