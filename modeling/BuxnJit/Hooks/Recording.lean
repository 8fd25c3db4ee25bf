import BuxnJit.Hooks.DebugHooks

/-!
# Blocks reported to the hooks

Runs of both hooks over any blocks: the calls of `jit_opcode` and `end_block` for each. At every
`end_block` the list of recorded addresses holds those of the block, and afterwards it is empty
(`addresses_kept`). The hooks crash exactly if one of the lookups of a block fails.
-/

namespace BuxnJit

open Foundations Binary

namespace HookConfig

variable (cfg : HookConfig)

/-- The symbols of addresses that are looked up one after the other. -/
def symbols : ℕ → List Short → Option (List Sym)
  | _, [] => some []
  | hint, a :: as => do
    let (s, hint) ← cfg.lookup a hint
    return s :: (← symbols hint as)

/-- The symbols of all recorded addresses are found. -/
def Found (ms : List AddrMapping) : Prop := (cfg.symbols 0 (ms.map AddrMapping.addr)).isSome

variable {cfg} {α : Type} {ms : List AddrMapping} {ss : List Sym} {hint : ℕ}

theorem symbols_length {as : List Short} (h : cfg.symbols hint as = some ss) :
    ss.length = as.length := by
  induction as generalizing hint ss with
  | nil =>
    cases h
    rfl
  | cons a as ih =>
    rw [symbols] at h
    obtain ⟨⟨s, hint'⟩, -, h⟩ := Option.bind_eq_some_iff.mp h
    obtain ⟨ss', hss', h⟩ := Option.bind_eq_some_iff.mp h
    cases h
    rw [List.length_cons, List.length_cons, ih hss']

/-- **A loop over the mappings** that looks up their symbols. -/
theorem foldlM_visit (f : α → AddrMapping → Sym → α)
    (h : cfg.symbols hint (ms.map AddrMapping.addr) = some ss) (x : α) :
    ∃ hint', ms.foldlM (cfg.visit f) (x, hint) =
      some ((ms.zip ss).foldl (fun x p => f x p.1 p.2) x, hint') := by
  induction ms generalizing hint ss x with
  | nil =>
    cases h
    exact ⟨hint, rfl⟩
  | cons m ms ih =>
    rw [List.map_cons, symbols] at h
    obtain ⟨⟨s, hint₁⟩, hlookup, h⟩ := Option.bind_eq_some_iff.mp h
    obtain ⟨ss', hss', h⟩ := Option.bind_eq_some_iff.mp h
    cases h
    obtain ⟨hint', hrest⟩ := ih hss' (f x m s)
    refine ⟨hint', ?_⟩
    rw [List.foldlM_cons, visit, hlookup]
    exact hrest

/-- It fails if a lookup fails. -/
theorem foldlM_visit_none (f : α → AddrMapping → Sym → α)
    (h : cfg.symbols hint (ms.map AddrMapping.addr) = none) (x : α) :
    ms.foldlM (cfg.visit f) (x, hint) = none := by
  induction ms generalizing hint x with
  | nil => cases h
  | cons m ms ih =>
    rw [List.map_cons, symbols] at h
    rw [List.foldlM_cons, visit]
    cases hlookup : cfg.lookup m.addr hint with
    | none => rfl
    | some p =>
      rw [hlookup] at h
      refine @ih p.2 ?_ (f x m p.1)
      cases hrest : cfg.symbols p.2 (ms.map AddrMapping.addr) with
      | none => rfl
      | some ss =>
        simp only [Option.bind_eq_bind, Option.bind_some, hrest] at h
        cases h

/-- A symbol that is found covers its address. -/
theorem covers_of_lookup {a : Short} {s : Sym} {hint' : ℕ} (h : cfg.lookup a hint = some (s, hint')) :
    ∃ t, cfg.symtab = some t ∧ s ∈ t ∧ s.Covers a := by
  obtain ⟨t, ht, h⟩ := Option.bind_eq_some_iff.mp h
  obtain ⟨s', hs', h⟩ := Option.bind_eq_some_iff.mp h
  cases h
  exact ⟨t, ht, Symtab.covers_of_findSymbol hs'⟩

/-- So do all symbols that are found. -/
theorem covers_of_symbols {as : List Short} (h : cfg.symbols hint as = some ss) :
    List.Forall₂ (fun a s => ∃ t, cfg.symtab = some t ∧ s ∈ t ∧ s.Covers a) as ss := by
  induction as generalizing hint ss with
  | nil =>
    cases h
    exact .nil
  | cons a as ih =>
    obtain ⟨⟨s, hint'⟩, hs, h⟩ := Option.bind_eq_some_iff.mp h
    obtain ⟨ss', hss', h⟩ := Option.bind_eq_some_iff.mp h
    cases h
    exact .cons (covers_of_lookup hs) (ih hss')

theorem exists_covers {t : Symtab} (ht : cfg.symtab = some t) {as : List Short}
    (h : cfg.symbols hint as = some ss) : ∀ a ∈ as, ∃ s ∈ t, s.Covers a := by
  intro a ha
  obtain ⟨i, hi, rfl⟩ := List.mem_iff_getElem.mp ha
  obtain ⟨t', ht', hmem, hcovers⟩ := (covers_of_symbols h).get hi ((symbols_length h).symm ▸ hi)
  obtain rfl := Option.some_inj.mp (ht.symm.trans ht')
  exact ⟨_, hmem, hcovers⟩

/-- In a sorted table every address with an opcode symbol is found. -/
theorem symbols_of_covers {t : Symtab} (ht : cfg.symtab = some t) (hsorted : t.Sorted)
    {as : List Short} (h : ∀ a ∈ as, ∃ s ∈ t, s.Covers a) (hint : ℕ) :
    (cfg.symbols hint as).isSome := by
  induction as generalizing hint with
  | nil => rfl
  | cons a as ih =>
    obtain ⟨s, hmem, hcovers⟩ := h a List.mem_cons_self
    obtain ⟨i, hi⟩ := List.mem_iff_getElem?.mp hmem
    have hlookup : cfg.lookup a hint = some (s, i) := by
      rw [lookup, ht, Option.bind_eq_bind, Option.bind_some, hsorted.findSymbol hi hcovers]
      rfl
    obtain ⟨ss, hss⟩ := Option.isSome_iff_exists.mp
      (ih (fun a' ha' => h a' (List.mem_cons_of_mem a ha')) i)
    simp [symbols, hlookup, hss]

theorem record_lists (hsym : cfg.symtab.isSome) {r : Recorder} (h : r.Lists ms) (m : AddrMapping) :
    (cfg.record m r).Lists (ms ++ [m]) := by
  rw [record, if_pos hsym]
  exact h.record m

end HookConfig

/-- What a hook is told of a block. -/
structure Report where
  calls : List OpcodeCall
  blockEnd : BlockEnd

def OpcodeCall.mapping (c : OpcodeCall) : AddrMapping := ⟨c.mark, c.pc⟩

/-- What a hook that records every opcode keeps of the calls for a block. -/
def HookConfig.recorded (cfg : HookConfig) (calls : List OpcodeCall) : List AddrMapping :=
  if cfg.symtab.isSome then calls.map OpcodeCall.mapping else []

variable {cfg : HookConfig} {xs ps : List ChunkId} {ms : List AddrMapping} {ss : List Sym}

/-! ## The gdb hook -/

namespace Gdb

variable {b : BlockEnd} {d : HookData}

/-- What is recorded of the calls for a block. -/
def recorded (entryAddr : Short) (calls : List OpcodeCall) : List AddrMapping :=
  (calls.filter (records entryAddr)).map OpcodeCall.mapping

/-- The state at the end of a block, before `end_block`. -/
def atEnd (cfg : HookConfig) (d : HookData) (b : Report) : HookData :=
  b.calls.foldl (jitOpcode cfg b.blockEnd.entryAddr) d

/-- The hook for one block after the other. -/
def run (cfg : HookConfig) (blocks : List Report) (d : HookData) : Option HookData :=
  blocks.foldlM (fun d b => endBlock cfg b.blockEnd (atEnd cfg d b)) d

/-- A mapping of the debug info. -/
def lineMapping (cfg : HookConfig) (b : BlockEnd) (m : AddrMapping) (s : Sym) : LineMapping :=
  ⟨s.line, b.resolve m.mark, (cfg.str s.filename).bytes.length, s.filename⟩

theorem atEnd_lists (hsym : cfg.symtab.isSome) (h : d.recorder.Lists []) (b : Report) :
    (atEnd cfg d b).recorder.Lists (recorded b.blockEnd.entryAddr b.calls) ∧
      (atEnd cfg d b).blocks = d.blocks := by
  have hcalls : ∀ (calls : List OpcodeCall) (d : HookData) (ms : List AddrMapping),
      d.recorder.Lists ms →
      (calls.foldl (jitOpcode cfg b.blockEnd.entryAddr) d).recorder.Lists
        (ms ++ recorded b.blockEnd.entryAddr calls) ∧
      (calls.foldl (jitOpcode cfg b.blockEnd.entryAddr) d).blocks = d.blocks := by
    intro calls
    induction calls with
    | nil => exact fun d ms h => ⟨by simpa [recorded] using h, rfl⟩
    | cons c calls ih =>
      intro d ms h
      rw [List.foldl_cons, jitOpcode]
      split
      next hrec =>
        have hrest := ih { d with recorder := cfg.record c.mapping d.recorder } _
          (HookConfig.record_lists hsym h c.mapping)
        simpa [recorded, hrec, OpcodeCall.mapping] using hrest
      next hrec => simpa [recorded, hrec] using ih d ms h
  exact hcalls b.calls d [] h

theorem foldl_addMapping (b : BlockEnd) (ps : List (AddrMapping × Sym)) (out : List LineMapping) :
    ps.foldl (fun x p => addMapping cfg b x p.1 p.2) out =
      out ++ ps.map fun p => lineMapping cfg b p.1 p.2 := by
  induction ps generalizing out with
  | nil => simp
  | cons p ps ih =>
    rw [List.foldl_cons, ih, addMapping, List.map_cons, List.append_assoc]
    rfl

/-- **The end of a block** whose symbols are found. -/
theorem endBlock_found (h : d.recorder.Holds xs ps ms) (hxs : ms = [] → xs = [])
    (hss : cfg.symbols 0 (ms.map AddrMapping.addr) = some ss) (b : BlockEnd) :
    ∃ r' info, r'.Holds [] (xs.reverse ++ ps) [] ∧ endBlock cfg b d = some ⟨r', info :: d.blocks⟩ ∧
      info.mappings = (ms.zip ss).map fun p => lineMapping cfg b p.1 p.2 := by
  unfold endBlock
  split
  next hpos =>
    obtain ⟨r', hr', hrun⟩ := h.recycle (cfg.visit (addMapping cfg b))
    obtain ⟨hint', hfold⟩ := HookConfig.foldlM_visit (addMapping cfg b) hss []
    rw [hrun, hfold, foldl_addMapping]
    exact ⟨r', _, hr', rfl, rfl⟩
  next hzero =>
    obtain rfl := h.eq_nil (Nat.eq_zero_of_not_pos hzero)
    obtain rfl := hxs rfl
    exact ⟨d.recorder, _, h, rfl, rfl⟩

theorem endBlock_none (h : d.recorder.Holds xs ps ms)
    (hss : cfg.symbols 0 (ms.map AddrMapping.addr) = none) (b : BlockEnd) :
    endBlock cfg b d = none := by
  unfold endBlock
  split
  next hpos =>
    obtain ⟨r', hr', hrun⟩ := h.recycle (cfg.visit (addMapping cfg b))
    rw [hrun, HookConfig.foldlM_visit_none (addMapping cfg b) hss []]
    rfl
  next hzero =>
    obtain rfl := h.eq_nil (Nat.eq_zero_of_not_pos hzero)
    cases hss

/-- A block, with an empty list before it: what is recorded, and what becomes of it. -/
theorem kept (hsym : cfg.symtab.isSome) (h : d.recorder.Lists []) (b : Report) :
    ∃ xs ps, (atEnd cfg d b).recorder.Holds xs ps (recorded b.blockEnd.entryAddr b.calls) ∧
      ((endBlock cfg b.blockEnd (atEnd cfg d b)).isSome ↔
        cfg.Found (recorded b.blockEnd.entryAddr b.calls)) ∧
      ∀ d', endBlock cfg b.blockEnd (atEnd cfg d b) = some d' →
        d'.recorder.Holds [] (xs.reverse ++ ps) [] ∧ ∃ info, d'.blocks = info :: d.blocks ∧
          info.mappings.length = (atEnd cfg d b).recorder.len ∧
          info.mappings.map LineMapping.pc =
            (recorded b.blockEnd.entryAddr b.calls).map fun m => b.blockEnd.resolve m.mark := by
  obtain ⟨⟨xs, ps, hold, hxs⟩, hblocks⟩ := atEnd_lists hsym h b
  refine ⟨xs, ps, hold, ?_⟩
  unfold HookConfig.Found
  cases hss : cfg.symbols 0 ((recorded b.blockEnd.entryAddr b.calls).map AddrMapping.addr) with
  | none =>
    rw [endBlock_none hold hss]
    exact ⟨Iff.rfl, by simp⟩
  | some ss =>
    obtain ⟨r', info, hr', hend, hinfo⟩ := endBlock_found hold hxs hss b.blockEnd
    have hlen := HookConfig.symbols_length hss
    rw [List.length_map] at hlen
    rw [hend]
    refine ⟨by simp, fun d' hd' => ?_⟩
    cases hd'
    refine ⟨hr', info, by rw [hblocks], ?_, ?_⟩
    · rw [hinfo, hold.len, List.length_map, List.length_zip, hlen, min_self]
    · rw [hinfo, List.map_map]
      have hfst : ((recorded b.blockEnd.entryAddr b.calls).zip ss).map Prod.fst =
          recorded b.blockEnd.entryAddr b.calls := List.map_fst_zip hlen.ge
      conv_rhs => rw [← hfst, List.map_map]
      rfl

/-- **The list is empty** whenever no block is being compiled. -/
theorem run_lists (hsym : cfg.symtab.isSome) {blocks : List Report} {d' : HookData}
    (h : d.recorder.Lists []) (hrun : run cfg blocks d = some d') : d'.recorder.Lists [] := by
  induction blocks generalizing d with
  | nil =>
    cases hrun
    exact h
  | cons b blocks ih =>
    obtain ⟨d₁, hend, hrest⟩ := Option.bind_eq_some_iff.mp hrun
    obtain ⟨xs, ps, -, -, hkept⟩ := kept hsym h b
    exact ih ⟨[], _, (hkept d₁ hend).1, fun _ => rfl⟩ hrest

/-- **The hook survives** the blocks whose symbols are found. -/
theorem run_isSome_iff (hsym : cfg.symtab.isSome) {blocks : List Report}
    (h : d.recorder.Lists []) : (run cfg blocks d).isSome ↔
      ∀ b ∈ blocks, cfg.Found (recorded b.blockEnd.entryAddr b.calls) := by
  induction blocks generalizing d with
  | nil => simp [run]
  | cons b blocks ih =>
    obtain ⟨xs, ps, -, hreturns, hkept⟩ := kept hsym h b
    rw [List.forall_mem_cons, ← hreturns, run, List.foldlM_cons]
    cases hend : endBlock cfg b.blockEnd (atEnd cfg d b) with
    | none => simp
    | some d₁ =>
      have hrest := ih ⟨[], _, (hkept d₁ hend).1, fun _ => rfl⟩
      simpa [run] using hrest

end Gdb

/-! ## The perf hook -/

namespace Perf

variable {b : BlockEnd} {d : HookData} {sys : System}

def atEnd (cfg : HookConfig) (d : HookData) (b : Report) : HookData := b.calls.foldl (jitOpcode cfg) d

/-- The hook for one block after the other. -/
def run (cfg : HookConfig) (blocks : List (Report × System)) (d : HookData) : Option HookData :=
  blocks.foldlM (fun d b => endBlock cfg b.1.blockEnd b.2 (atEnd cfg d b.1)) d

theorem atEnd_lists (h : d.recorder.Lists []) (b : Report) :
    (atEnd cfg d b).recorder.Lists (cfg.recorded b.calls) ∧
      atEnd cfg d b = { d with recorder := (atEnd cfg d b).recorder } := by
  have hcalls : ∀ (calls : List OpcodeCall) (d : HookData) (ms : List AddrMapping),
      d.recorder.Lists ms →
      (calls.foldl (jitOpcode cfg) d).recorder.Lists (ms ++ cfg.recorded calls) ∧
      calls.foldl (jitOpcode cfg) d =
        { d with recorder := (calls.foldl (jitOpcode cfg) d).recorder } := by
    intro calls
    induction calls with
    | nil => exact fun d ms h => ⟨by simpa [HookConfig.recorded] using h, rfl⟩
    | cons c calls ih =>
      intro d ms h
      by_cases hsym : cfg.symtab.isSome
      · obtain ⟨hlists, heq⟩ := ih (jitOpcode cfg d c) _ (HookConfig.record_lists hsym h c.mapping)
        exact ⟨by simpa [HookConfig.recorded, hsym] using hlists, heq⟩
      · have hsame : jitOpcode cfg d c = d := by
          rw [jitOpcode, HookConfig.record, if_neg hsym]
        rw [List.foldl_cons, hsame]
        simpa [HookConfig.recorded, hsym] using ih d ms h
  exact hcalls b.calls d [] h

/-- What the debug info record says of the recorded addresses. -/
def entries (cfg : HookConfig) (b : BlockEnd) (ps : List (AddrMapping × Sym)) : Bytes :=
  ps.flatMap fun p =>
    debugEntry (b.resolve p.1.mark) p.2.line p.2.col (cfg.str p.2.filename).bytes

/-- The debug info record of a block. -/
def debugRecord (cfg : HookConfig) (b : BlockEnd) (sys : System) (ps : List (AddrMapping × Sym)) :
    Bytes :=
  recordHeader 2 (ps.foldl (fun x p => addSize cfg x p.1 p.2) 49) sys.debugTime ++
    bytes 8 b.start ++ bytes 8 (BitVec.ofNat 64 (ps.length + 1)) ++ entries cfg b ps ++
    debugEntry (b.start + b.size - 1) 0 0 []

theorem foldl_addEntry (b : BlockEnd) (ps : List (AddrMapping × Sym)) (out : Bytes) :
    ps.foldl (fun x p => addEntry cfg b x p.1 p.2) out = out ++ entries cfg b ps := by
  induction ps generalizing out with
  | nil => simp [entries]
  | cons p ps ih =>
    rw [List.foldl_cons, ih, addEntry, List.append_assoc]
    rfl

theorem writeDebugInfo_found {r : Recorder} (h : r.Holds xs ps ms)
    (hss : cfg.symbols 0 (ms.map AddrMapping.addr) = some ss) (b : BlockEnd) (sys : System) :
    ∃ r', r'.Holds [] (xs.reverse ++ ps) [] ∧
      writeDebugInfo cfg b sys r = some (debugRecord cfg b sys (ms.zip ss), r') := by
  obtain ⟨r', hr', hrun⟩ := h.recycle (cfg.visit (addEntry cfg b))
  refine ⟨r', hr', ?_⟩
  obtain ⟨_, hsize⟩ := HookConfig.foldlM_visit (addSize cfg) hss 49
  have hlen : (ms.zip ss).length = r.len := by
    rw [h.len, List.length_zip, HookConfig.symbols_length hss, List.length_map, min_self]
  unfold writeDebugInfo
  simp only [h.forEach, hrun]
  rw [show (16 + 16 + 16 + 1 : BitVec 32) = 49 from rfl, hsize]
  simp only [Option.bind_eq_bind, Option.bind_some]
  obtain ⟨_, hentries⟩ := HookConfig.foldlM_visit (addEntry cfg b) hss
    (recordHeader 2 ((ms.zip ss).foldl (fun x p => addSize cfg x p.1 p.2) 49) sys.debugTime ++
      bytes 8 b.start ++ bytes 8 (BitVec.ofNat 64 (r.len + 1)))
  rw [hentries, foldl_addEntry, ← hlen]
  rfl

theorem writeDebugInfo_none {r : Recorder} (h : r.Holds xs ps ms)
    (hss : cfg.symbols 0 (ms.map AddrMapping.addr) = none) (b : BlockEnd) (sys : System) :
    writeDebugInfo cfg b sys r = none := by
  unfold writeDebugInfo
  simp only [h.forEach]
  rw [HookConfig.foldlM_visit_none (addSize cfg) hss]
  rfl

/-- What a block adds to the dump file. -/
def blockBytes (cfg : HookConfig) (b : BlockEnd) (sys : System) (d : HookData)
    (ps : List (AddrMapping × Sym)) : Bytes :=
  (if ps = [] then [] else debugRecord cfg b sys ps) ++
    writeCodeLoad b sys (blockName cfg b.entryAddr) d

/-- **The end of a block** whose symbols are found. -/
theorem endBlock_found {out : Bytes} (h : d.recorder.Holds xs ps ms) (hxs : ms = [] → xs = [])
    (hss : cfg.symbols 0 (ms.map AddrMapping.addr) = some ss) (hdump : d.dumpFile = some out)
    (b : BlockEnd) (sys : System) :
    ∃ r', r'.Holds [] (xs.reverse ++ ps) [] ∧ endBlock cfg b sys d = some
      { d with
        recorder := r'
        mapFile := d.mapFile.map (· ++ mapLine b (blockName cfg b.entryAddr))
        dumpFile := some (out ++ blockBytes cfg b sys d (ms.zip ss))
        codeIndex := d.codeIndex + 1 } := by
  unfold endBlock
  simp only [hdump]
  split
  next hpos =>
    obtain ⟨r', hr', hdebug⟩ := writeDebugInfo_found h hss b sys
    refine ⟨r', hr', ?_⟩
    have hne : ms.zip ss ≠ [] := by
      have hlen := HookConfig.symbols_length hss
      have hms := h.len
      rintro hnil
      have hzip := congrArg List.length hnil
      simp only [List.length_zip, List.length_nil, List.length_map] at hzip hlen
      omega
    rw [hdebug, blockBytes, if_neg hne, ← List.append_assoc]
    rfl
  next hzero =>
    obtain rfl := h.eq_nil (Nat.eq_zero_of_not_pos hzero)
    obtain rfl := hxs rfl
    exact ⟨d.recorder, h, rfl⟩

theorem endBlock_none {out : Bytes} (h : d.recorder.Holds xs ps ms)
    (hss : cfg.symbols 0 (ms.map AddrMapping.addr) = none) (hdump : d.dumpFile = some out)
    (b : BlockEnd) (sys : System) : endBlock cfg b sys d = none := by
  unfold endBlock
  simp only [hdump]
  split
  next hpos =>
    rw [writeDebugInfo_none h hss b sys]
    rfl
  next hzero =>
    obtain rfl := h.eq_nil (Nat.eq_zero_of_not_pos hzero)
    cases hss

/-- A block, with an empty list before it: what is recorded, and what becomes of it. -/
theorem kept (h : d.recorder.Lists []) (hdump : d.dumpFile.isSome)
    (b : Report) (sys : System) :
    ∃ xs ps, (atEnd cfg d b).recorder.Holds xs ps (cfg.recorded b.calls) ∧
      ((endBlock cfg b.blockEnd sys (atEnd cfg d b)).isSome ↔
        cfg.Found (cfg.recorded b.calls)) ∧
      ∀ d', endBlock cfg b.blockEnd sys (atEnd cfg d b) = some d' →
        d'.recorder.Holds [] (xs.reverse ++ ps) [] ∧ d'.dumpFile.isSome := by
  obtain ⟨⟨xs, ps, hold, hxs⟩, heq⟩ := atEnd_lists h b
  obtain ⟨out, hout⟩ := Option.isSome_iff_exists.mp hdump
  have hdump' : (atEnd cfg d b).dumpFile = some out := by rw [heq, hout]
  refine ⟨xs, ps, hold, ?_⟩
  unfold HookConfig.Found
  cases hss : cfg.symbols 0 ((cfg.recorded b.calls).map AddrMapping.addr) with
  | none =>
    rw [endBlock_none hold hss hdump']
    exact ⟨Iff.rfl, by simp⟩
  | some ss =>
    obtain ⟨r', hr', hend⟩ := endBlock_found hold hxs hss hdump' b.blockEnd sys
    rw [hend]
    refine ⟨by simp, fun d' hd' => ?_⟩
    cases hd'
    exact ⟨hr', rfl⟩

/-- **The list is empty** whenever no block is being compiled. -/
theorem run_lists {blocks : List (Report × System)} {d' : HookData}
    (h : d.recorder.Lists []) (hdump : d.dumpFile.isSome) (hrun : run cfg blocks d = some d') :
    d'.recorder.Lists [] ∧ d'.dumpFile.isSome := by
  induction blocks generalizing d with
  | nil =>
    cases hrun
    exact ⟨h, hdump⟩
  | cons b blocks ih =>
    obtain ⟨d₁, hend, hrest⟩ := Option.bind_eq_some_iff.mp hrun
    obtain ⟨xs, ps, -, -, hkept⟩ := kept h hdump b.1 b.2
    obtain ⟨hempty, hdump₁⟩ := hkept d₁ hend
    exact ih ⟨[], _, hempty, fun _ => rfl⟩ hdump₁ hrest

/-- **The hook survives** the blocks whose symbols are found. -/
theorem run_isSome_iff {blocks : List (Report × System)}
    (h : d.recorder.Lists []) (hdump : d.dumpFile.isSome) : (run cfg blocks d).isSome ↔
      ∀ b ∈ blocks, cfg.Found (cfg.recorded b.1.calls) := by
  induction blocks generalizing d with
  | nil => simp [run]
  | cons b blocks ih =>
    obtain ⟨xs, ps, -, hreturns, hkept⟩ := kept h hdump b.1 b.2
    rw [List.forall_mem_cons, ← hreturns, run, List.foldlM_cons]
    cases hend : endBlock cfg b.1.blockEnd b.2 (atEnd cfg d b.1) with
    | none => simp
    | some d₁ =>
      obtain ⟨hempty, hdump₁⟩ := hkept d₁ hend
      have hrest := ih ⟨[], _, hempty, fun _ => rfl⟩ hdump₁
      simpa [run] using hrest

/-- Without a dump file no symbol is looked up. -/
theorem run_of_no_dump {blocks : List (Report × System)} (hdump : d.dumpFile = none) :
    (run cfg blocks d).isSome := by
  induction blocks generalizing d with
  | nil => rfl
  | cons b blocks ih =>
    have hcalls : ∀ (calls : List OpcodeCall) (d : HookData), d.dumpFile = none →
        (calls.foldl (jitOpcode cfg) d).dumpFile = none := by
      intro calls
      induction calls with
      | nil => exact fun d h => h
      | cons c calls ih => exact fun d h => ih (jitOpcode cfg d c) h
    have hatEnd : (atEnd cfg d b.1).dumpFile = none := hcalls b.1.calls d hdump
    rw [run, List.foldlM_cons, endBlock]
    simp only [hatEnd]
    exact ih rfl

end Perf

/-! ## Every block -/

/-- **Addresses stay with their block**: with a symbol table, and for perf an open dump file, the
list holds at each `end_block` the mappings recorded for the block, in their order; the hook returns
if it finds their symbols, and then has moved all chunks of the list to the pool. -/
theorem addresses_kept (cfg : HookConfig) (hsym : cfg.symtab.isSome) (b : Report) :
    (∀ blocks d, Gdb.run cfg blocks .init = some d →
      ∃ xs ps, (Gdb.atEnd cfg d b).recorder.Holds xs ps
          (Gdb.recorded b.blockEnd.entryAddr b.calls) ∧
        ((Gdb.endBlock cfg b.blockEnd (Gdb.atEnd cfg d b)).isSome ↔
          cfg.Found (Gdb.recorded b.blockEnd.entryAddr b.calls)) ∧
        ∀ d', Gdb.endBlock cfg b.blockEnd (Gdb.atEnd cfg d b) = some d' →
          d'.recorder.Holds [] (xs.reverse ++ ps) [] ∧ ∃ info, d'.blocks = info :: d.blocks ∧
            info.mappings.length = (Gdb.atEnd cfg d b).recorder.len ∧
            info.mappings.map Gdb.LineMapping.pc =
              (Gdb.recorded b.blockEnd.entryAddr b.calls).map fun m => b.blockEnd.resolve m.mark) ∧
    (∀ mapFile mach pid time blocks d sys,
      Perf.run cfg blocks (.init mapFile true mach pid time) = some d →
      ∃ xs ps, (Perf.atEnd cfg d b).recorder.Holds xs ps (b.calls.map OpcodeCall.mapping) ∧
        ((Perf.endBlock cfg b.blockEnd sys (Perf.atEnd cfg d b)).isSome ↔
          cfg.Found (b.calls.map OpcodeCall.mapping)) ∧
        ∀ d', Perf.endBlock cfg b.blockEnd sys (Perf.atEnd cfg d b) = some d' →
          d'.recorder.Holds [] (xs.reverse ++ ps) []) := by
  constructor
  · intro blocks d hrun
    exact Gdb.kept hsym (Gdb.run_lists hsym Recorder.lists_init hrun) b
  · intro mapFile mach pid time blocks d sys hrun
    obtain ⟨hempty, hdump⟩ := Perf.run_lists Recorder.lists_init rfl hrun
    obtain ⟨xs, ps, hold, hreturns, hkept⟩ := Perf.kept hempty hdump b sys
    rw [HookConfig.recorded, if_pos hsym] at hold hreturns
    exact ⟨xs, ps, hold, hreturns, fun d' hd' => (hkept d' hd').1⟩

/-- Two blocks of one opcode: the second finds the chunk of the first in the pool. -/
theorem addresses_kept_sample :
    let cfg : HookConfig :=
      ⟨none, some [⟨.opcode, 0x100, 0x100, 0x5000, 1, 1⟩], fun _ => ⟨[ascii 'a'], by decide⟩⟩
    let b : Report := ⟨[⟨0x100, 0x00, 0⟩], ⟨0x100, 0x1000, [0xc3], fun _ => 0x1000⟩⟩
    ∃ d xs ps, Gdb.run cfg [b] .init = some d ∧
      (Gdb.atEnd cfg d b).recorder.Holds xs ps [⟨0, 0x100⟩] := by
  intro cfg b
  obtain ⟨d, hd⟩ : ∃ d, Gdb.run cfg [b] .init = some d := ⟨_, rfl⟩
  obtain ⟨xs, ps, hold, -⟩ := (addresses_kept cfg rfl b).1 [b] d hd
  exact ⟨d, xs, ps, hd, hold⟩

end BuxnJit
