import BuxnJit.Hooks.Recording
import BuxnJit.Hooks.SymbolCalls

/-!
# The gdb reader

`buxn_jit_gdb_read`, which opens a symbol table for every run of line mappings with the same file.
It handles its tables as gdb expects, and adds the mappings under the names of their files, if it
can read every file name that it wants to, or not even the mappings (`read_proper_iff`). Where a
file name cannot be read, it closes the table of the previous file again, which it has just closed.
-/

namespace BuxnJit

open Foundations Binary

namespace Gdb

/-- Which reads of the target succeed: that of the name of the block, that of the array of line
mappings, and that of the file name of the mapping at a position. -/
structure Reads where
  name : Bool
  mappings : Bool
  file : ℕ → Bool

/-- Where the terminator is put into `name_buf`. -/
def nameEnd (info : DbgInfo) : ℤ := 10 + (BitVec.ofNat 32 info.name.length).toInt

/-- The text `uxn:0x%04x`. -/
def addrText (addr : Short) : Bytes :=
  [ascii 'u', ascii 'x', ascii 'n', ascii ':', ascii '0', ascii 'x'] ++ Perf.hex 4 addr

/-- The string in `name_buf`, which has 256 bytes. -/
def nameBuf (read : Bool) (info : DbgInfo) : Option Bytes :=
  let text := addrText info.addr
  if info.name.length > 0 ∧ read then
    if 0 ≤ nameEnd info ∧ nameEnd info < 256 then
      some (((text ++ info.name.take 245).take (nameEnd info).toNat).takeWhile (· ≠ 0))
    else none
  else some text

def uxn : Bytes := [ascii 'u', ascii 'x', ascii 'n']

/-- What is read of a string in the target. -/
def fileName (str : Word → CStr) (file : DbgStr) : Bytes := (str file.str).bytes.take file.len

/-- The variables of `buxn_jit_gdb_read`, and the calls so far. gdb returns a new table whenever one
is opened. -/
structure ReadState where
  symtab : SymtabId
  previousFile : Word
  codeStart : Word
  gdbMappings : List GdbLineMapping
  calls : List Call

namespace ReadState

def addMappings (st : ReadState) : ReadState :=
  if st.gdbMappings.length > 0 then
    { st with calls := st.calls ++ [.lineMappingAdd st.symtab st.gdbMappings], gdbMappings := [] }
  else st

/-- The end of a symbol table: in the loop, and behind it. -/
def closeSymtab (name : Bytes) (last : Word) (st : ReadState) : ReadState :=
  let st := st.addMappings
  { st with
    calls := st.calls ++ [.blockOpen st.symtab st.codeStart last name, .symtabClose st.symtab] }

def openSymtab (name : Bytes) (file first : Word) (st : ReadState) : ReadState :=
  { st with
    symtab := st.symtab + 1
    previousFile := file
    codeStart := first
    calls := st.calls ++ [.symtabOpen (st.symtab + 1) name] }

def push (m : LineMapping) (st : ReadState) : ReadState :=
  { st with gdbMappings := st.gdbMappings ++ [(m.line, m.pc)] }

end ReadState

section

variable (str : Word → CStr) (file : ℕ → Bool) (name : Bytes) (last : Word)

/-- The loop over the mappings, from a position on. -/
def readMappings : ℕ → List LineMapping → ReadState → ReadState
  | _, [], st => st
  | i, m :: ms, st =>
    if m.file.str ≠ st.previousFile then
      let st := st.closeSymtab name (m.pc - 1)
      if file i then
        readMappings (i + 1) ms ((st.openSymtab (fileName str m.file) m.file.str m.pc).push m)
      -- goto end_read_mapping
      else st
    else readMappings (i + 1) ms (st.push m)

/-- `buxn_jit_gdb_read`: its calls, unless it writes past `name_buf`. -/
def read (reads : Reads) (info : DbgInfo) : Option (List Call) := do
  let name ← nameBuf reads.name info
  let last := info.start + info.size
  let calls :=
    if info.mappings.length > 0 then
      let st : ReadState := ⟨0, 0, info.start, [], [.objectOpen, .symtabOpen 0 uxn]⟩
      let st := if reads.mappings then readMappings str reads.file name 0 info.mappings st else st
      (st.closeSymtab name last).calls
    else [.objectOpen, .symtabOpen 0 uxn, .blockOpen 0 info.start last name, .symtabClose 0]
  return calls ++ [.objectClose]

/-! ## What is expected -/

/-- Every file name that is wanted can be read: that of the first mapping of each file. -/
def FilesRead : Word → ℕ → List LineMapping → Prop
  | _, _, [] => True
  | previous, i, m :: ms => (m.file.str ≠ previous → file i) ∧ FilesRead m.file.str (i + 1) ms

/-- The mappings before the first file name that cannot be read. -/
def preceding : Word → ℕ → List LineMapping → List LineMapping
  | _, _, [] => []
  | previous, i, m :: ms =>
    if m.file.str ≠ previous ∧ ¬file i then [] else m :: preceding m.file.str (i + 1) ms

/-- The mappings that are read: all of them or none. -/
def readable (reads : Reads) (info : DbgInfo) : List LineMapping :=
  if reads.mappings then info.mappings else []

/-- The name of the block, where it is read, ends within `name_buf`. -/
def NameFits (reads : Reads) (info : DbgInfo) : Prop :=
  info.name.length > 0 ∧ reads.name → 0 ≤ nameEnd info ∧ nameEnd info < 256

/-- A line mapping as `buxn_jit_gdb_end_block` writes it: with a file, and the length of its name. -/
structure Written (m : LineMapping) : Prop where
  file : m.file.str ≠ 0
  len : m.file.len = (str m.file.str).bytes.length

/-- A mapping, and the name of its file. -/
def own (m : LineMapping) : Option Bytes × GdbLineMapping :=
  (some (fileName str m.file), (m.line, m.pc))

end

/-- **The hook writes its mappings so**, where all symbols have a file. -/
theorem written_of_endBlock {cfg : HookConfig} {b : BlockEnd} {d d' : HookData}
    {ms : List AddrMapping} (hfile : ∀ t s, cfg.symtab = some t → s ∈ t → s.filename ≠ 0)
    (h : d.recorder.Lists ms) (hend : endBlock cfg b d = some d') :
    ∃ info, d'.blocks = info :: d.blocks ∧ ∀ m ∈ info.mappings, Written cfg.str m := by
  obtain ⟨xs, ps, hold, hxs⟩ := h
  cases hss : cfg.symbols 0 (ms.map AddrMapping.addr) with
  | none =>
    rw [endBlock_none hold hss] at hend
    cases hend
  | some ss =>
    obtain ⟨r', info, -, hend', hinfo⟩ := endBlock_found hold hxs hss b
    obtain rfl := Option.some_inj.mp (hend'.symm.trans hend)
    refine ⟨info, rfl, fun m hm => ?_⟩
    rw [hinfo] at hm
    obtain ⟨p, hp, rfl⟩ := List.mem_map.mp hm
    have hcovers := HookConfig.covers_of_symbols hss
    rw [List.forall₂_map_left_iff] at hcovers
    obtain ⟨t, ht, hmem, -⟩ := (List.forall₂_iff_zip.mp hcovers).2 hp
    exact ⟨hfile t p.2 ht hmem, rfl⟩

/-! ## A run of the loop -/

section

variable {str : Word → CStr} {file : ℕ → Bool} {name : Bytes} {last previous : Word} {i : ℕ}
  {ms : List LineMapping} {st : ReadState} {x : Session} {before : List Call}

/-- The sessions of the loop: the one that is open goes on to the end of its file. -/
def sessions (str : Word → CStr) (last : Word) : Session → Word → List LineMapping → List Session
  | x, _, [] => [{ x with last := last }]
  | x, previous, m :: ms =>
    if m.file.str ≠ previous then
      { x with last := m.pc - 1 } ::
        sessions str last ⟨x.id + 1, fileName str m.file, [(m.line, m.pc)], m.pc, 0⟩ m.file.str ms
    else sessions str last { x with mappings := x.mappings ++ [(m.line, m.pc)] } previous ms

/-- In the middle of a session, behind other calls. -/
structure During (before : List Call) (x : Session) (previous : Word) (st : ReadState) : Prop where
  symtab : st.symtab = x.id
  previousFile : st.previousFile = previous
  codeStart : st.codeStart = x.first
  gdbMappings : st.gdbMappings = x.mappings
  calls : st.calls = before ++ [.symtabOpen x.id x.fileName]

/-- The end of a session. -/
theorem During.closeSymtab (h : During before x previous st) (name : Bytes) (last : Word) :
    (st.closeSymtab name last).calls = before ++ Session.calls name { x with last := last } ∧
      (st.closeSymtab name last).gdbMappings = [] ∧
      (st.closeSymtab name last).symtab = x.id := by
  rw [ReadState.closeSymtab, ReadState.addMappings, h.gdbMappings]
  split
  next hpos =>
    have hne : x.mappings ≠ [] := List.ne_nil_of_length_pos hpos
    simp [h.calls, h.symtab, h.codeStart, Session.calls, Session.adds, hne]
  next hzero =>
    have hnil : x.mappings = [] := List.eq_nil_of_length_eq_zero (Nat.eq_zero_of_not_pos hzero)
    simp [h.calls, h.symtab, h.codeStart, h.gdbMappings, Session.calls, Session.adds, hnil]

theorem During.push (h : During before x previous st) (m : LineMapping) :
    During before { x with mappings := x.mappings ++ [(m.line, m.pc)] } previous (st.push m) :=
  ⟨h.symtab, h.previousFile, h.codeStart, by rw [ReadState.push, h.gdbMappings], h.calls⟩

/-- A mapping of another file. -/
theorem During.next (h : During before x previous st) (name : Bytes) (m : LineMapping) :
    During (before ++ Session.calls name { x with last := m.pc - 1 })
      ⟨x.id + 1, fileName str m.file, [(m.line, m.pc)], m.pc, 0⟩ m.file.str
      (((st.closeSymtab name (m.pc - 1)).openSymtab (fileName str m.file) m.file.str m.pc).push
        m) := by
  obtain ⟨hcalls, hmappings, hsymtab⟩ := h.closeSymtab name (m.pc - 1)
  refine ⟨?_, rfl, rfl, ?_, ?_⟩
  · exact congrArg (· + 1) hsymtab
  · exact congrArg (· ++ [(m.line, m.pc)]) hmappings
  · simp only [ReadState.push, ReadState.openSymtab, hcalls, hsymtab]

/-- **If all file names are read**, the calls are those of the sessions. -/
theorem During.readMappings (h : During before x previous st)
    (hfiles : FilesRead file previous i ms) :
    ((Gdb.readMappings str file name i ms st).closeSymtab name last).calls =
      before ++ (sessions str last x previous ms).flatMap (Session.calls name) := by
  induction ms generalizing before x previous i st with
  | nil =>
    rw [Gdb.readMappings, sessions, List.flatMap_singleton]
    exact (h.closeSymtab name last).1
  | cons m ms ih =>
    obtain ⟨hfile, hrest⟩ := hfiles
    rw [Gdb.readMappings, sessions, h.previousFile]
    split
    next hnew =>
      rw [if_pos (hfile hnew), List.flatMap_cons, ← List.append_assoc]
      exact ih (h.next name m) hrest
    next hsame =>
      rw [not_not] at hsame
      rw [hsame] at hrest
      exact ih (h.push m) hrest

variable (str name last) in
/-- **If one is not**, the table that was closed is closed again. -/
theorem During.readMappings_fails (h : During before x previous st)
    (hfiles : ¬FilesRead file previous i ms) :
    ∃ calls s first, ((Gdb.readMappings str file name i ms st).closeSymtab name last).calls =
      calls ++ [.symtabClose s, .blockOpen s first last name, .symtabClose s] := by
  induction ms generalizing before x previous i st with
  | nil => exact absurd trivial hfiles
  | cons m ms ih =>
    rw [FilesRead, not_and_or, Classical.not_imp] at hfiles
    rw [Gdb.readMappings, h.previousFile]
    split
    next hnew =>
      split
      next hread =>
        obtain ⟨-, hread'⟩ | hrest := hfiles
        · exact absurd hread hread'
        · exact ih (h.next name m) hrest
      next hfail =>
        obtain ⟨hcalls, hmappings, hsymtab⟩ := h.closeSymtab name (m.pc - 1)
        have hadd : (st.closeSymtab name (m.pc - 1)).addMappings =
            st.closeSymtab name (m.pc - 1) := by
          rw [ReadState.addMappings, hmappings]
          rfl
        rw [ReadState.closeSymtab, hadd]
        simp only [hcalls, hsymtab, Session.calls]
        rw [← List.append_assoc, List.append_assoc]
        exact ⟨_, x.id, _, rfl⟩
    next hsame =>
      rw [not_not] at hsame
      obtain ⟨hnew, -⟩ | hrest := hfiles
      · exact absurd hsame hnew
      · rw [hsame] at hrest
        exact ih (h.push m) hrest

/-! ## The sessions of the loop -/

theorem sessions_ids : ∃ n, (sessions str last x previous ms).map Session.id = List.range' x.id n := by
  induction ms generalizing x previous with
  | nil => exact ⟨1, rfl⟩
  | cons m ms ih =>
    rw [sessions]
    split
    · obtain ⟨n, hn⟩ := @ih m.file.str ⟨x.id + 1, fileName str m.file, [(m.line, m.pc)], m.pc, 0⟩
      exact ⟨n + 1, by rw [List.map_cons, hn, List.range'_succ]⟩
    · exact @ih previous { x with mappings := x.mappings ++ [(m.line, m.pc)] }

theorem fileName_written {m : LineMapping} (h : Written str m) :
    fileName str m.file = (str m.file.str).bytes := by
  rw [fileName, h.len, List.take_length]

/-- **Every mapping is in a session of its own file.** -/
theorem sessions_mappings (hms : ∀ m ∈ ms, Written str m)
    (hx : previous ≠ 0 → x.fileName = (str previous).bytes) :
    ((sessions str last x previous ms).flatMap fun y => y.mappings.map fun m => (some y.fileName, m)) =
      (x.mappings.map fun m => (some x.fileName, m)) ++ ms.map (own str) := by
  induction ms generalizing x previous with
  | nil => simp [sessions]
  | cons m ms ih =>
    obtain ⟨hm, hms⟩ := List.forall_mem_cons.mp hms
    have hname := fileName_written hm
    rw [sessions]
    split
    next hnew =>
      rw [List.flatMap_cons, ih hms fun _ => hname]
      simp [own]
    next hsame =>
      rw [not_not] at hsame
      have hx' : x.fileName = fileName str m.file := by
        rw [hx (hsame ▸ hm.file), hname, hsame]
      rw [ih (x := { x with mappings := x.mappings ++ [(m.line, m.pc)] }) hms hx]
      simp [own, hx']

theorem preceding_eq (h : FilesRead file previous i ms) : preceding file previous i ms = ms := by
  induction ms generalizing previous i with
  | nil => rfl
  | cons m ms ih =>
    obtain ⟨hfile, hrest⟩ := h
    rw [preceding, if_neg fun hfail => hfail.2 (hfile hfail.1), ih hrest]

/-! ## The calls of the reader -/

theorem nodup_sessions : ((sessions str last x previous ms).map Session.id).Nodup := by
  obtain ⟨n, hn⟩ : ∃ n, (sessions str last x previous ms).map Session.id = List.range' x.id n :=
    sessions_ids
  rw [hn]
  exact List.nodup_range'

/-- Sessions within an object are proper. -/
theorem proper_object {xs : List Session} (hnodup : (xs.map Session.id).Nodup) :
    Proper (.objectOpen :: (xs.flatMap (Session.calls name) ++ [.objectClose])) := by
  intro s
  have hsame : callsOf s (.objectOpen :: (xs.flatMap (Session.calls name) ++ [.objectClose])) =
      callsOf s (xs.flatMap (Session.calls name)) := by
    simp [callsOf, Call.symtab]
  rw [hsame]
  exact Session.proper_sessions hnodup s

/-- **A table that is closed twice** is not handled as it should. -/
theorem not_proper_of_closed {s : SymtabId} {first : Word} {calls : List Call} :
    ¬Proper (calls ++ [.symtabClose s, .blockOpen s first last name, .symtabClose s] ++
      [.objectClose]) := by
  intro hproper
  have hcalls : callsOf s (calls ++ [.symtabClose s, .blockOpen s first last name, .symtabClose s] ++
      [.objectClose]) =
        (callsOf s calls ++ [.symtabClose s, .blockOpen s first last name]) ++ [.symtabClose s] := by
    simp [callsOf, Call.symtab]
  obtain hnil | ⟨fileName, used, heq, -, hclose, -⟩ := hproper s
  · rw [hcalls] at hnil
    simp at hnil
  · rw [hcalls] at heq
    have hused := (List.append_inj_left' heq rfl)
    have hmem : Call.symtabClose s ∈ Call.symtabOpen s fileName :: used := by
      rw [← hused]
      simp
    obtain hopen | hmem := List.mem_cons.mp hmem
    · cases hopen
    · exact hclose hmem

variable {reads : Reads} {info : DbgInfo}

/-- The session that the reader starts with. -/
def uxnSession (info : DbgInfo) : Session := ⟨0, uxn, [], info.start, 0⟩

theorem nameBuf_isSome_iff : (nameBuf reads.name info).isSome ↔ NameFits reads info := by
  unfold nameBuf NameFits
  simp only
  split
  next hread =>
    split
    next hin => simp [hin]
    next hout => simp [hread, hout]
  next hnone => simp [hnone]

/-- **The calls of the reader** if it reads all file names that it wants to. -/
theorem read_eq (hname : nameBuf reads.name info = some name)
    (hfiles : FilesRead reads.file 0 0 (readable reads info)) :
    read str reads info = some (.objectOpen ::
      ((sessions str (info.start + info.size) (uxnSession info) 0 (readable reads info)).flatMap
        (Session.calls name) ++ [.objectClose])) := by
  have hduring : During [.objectOpen] (uxnSession info) 0
      ⟨0, 0, info.start, [], [.objectOpen, .symtabOpen 0 uxn]⟩ := ⟨rfl, rfl, rfl, rfl, rfl⟩
  rw [read, hname, Option.bind_eq_bind, Option.bind_some]
  split
  next hpos =>
    unfold readable at hfiles ⊢
    by_cases hread : reads.mappings
    · rw [if_pos hread] at hfiles ⊢
      simp only [hread, if_true]
      rw [hduring.readMappings hfiles]
      rfl
    · simp only [hread, Bool.false_eq_true, if_false]
      rw [(hduring.closeSymtab name (info.start + info.size)).1, sessions, List.flatMap_singleton]
      rfl
  next hzero =>
    have hnil : info.mappings = [] := List.eq_nil_of_length_eq_zero (Nat.eq_zero_of_not_pos hzero)
    rw [readable, hnil, ite_self]
    rfl

/-- If not, it closes a table twice. -/
theorem read_not_proper (hfiles : ¬FilesRead reads.file 0 0 (readable reads info))
    {calls : List Call} (hread : read str reads info = some calls) : ¬Proper calls := by
  have hduring : During [.objectOpen] (uxnSession info) 0
      ⟨0, 0, info.start, [], [.objectOpen, .symtabOpen 0 uxn]⟩ := ⟨rfl, rfl, rfl, rfl, rfl⟩
  obtain ⟨name, -, hread⟩ := Option.bind_eq_some_iff.mp hread
  cases hread
  unfold readable at hfiles
  split at hfiles
  next hmappings =>
    have hpos : info.mappings.length > 0 := by
      rw [gt_iff_lt, List.length_pos_iff]
      intro hnil
      rw [hnil] at hfiles
      exact hfiles trivial
    simp only [hpos, hmappings, if_true]
    obtain ⟨before, s, first, hcalls⟩ :=
      hduring.readMappings_fails str name (info.start + info.size) hfiles
    rw [hcalls]
    exact not_proper_of_closed
  next => exact absurd trivial hfiles

end

/-- **The reader handles its tables** exactly if the name of the block fits, and all file names that
are wanted can be read: then each table is opened and closed once, with one block before its end,
and every mapping is added under the name of its file, in order. -/
theorem read_proper_iff (str : Word → CStr) (reads : Reads) (info : DbgInfo)
    (hms : ∀ m ∈ info.mappings, Written str m) :
    (∃ calls, read str reads info = some calls ∧ Proper calls ∧
      addedTo calls = (preceding reads.file 0 0 (readable reads info)).map (own str)) ↔
    NameFits reads info ∧ FilesRead reads.file 0 0 (readable reads info) := by
  constructor
  · rintro ⟨calls, hread, hproper, -⟩
    obtain ⟨name, hname, -⟩ := Option.bind_eq_some_iff.mp hread
    refine ⟨nameBuf_isSome_iff.mp (by rw [hname]; rfl), ?_⟩
    by_contra hfiles
    exact read_not_proper hfiles hread hproper
  · rintro ⟨hfits, hfiles⟩
    obtain ⟨name, hname⟩ := Option.isSome_iff_exists.mp (nameBuf_isSome_iff.mpr hfits)
    have hreadable : ∀ m ∈ readable reads info, Written str m := by
      intro m hm
      rw [readable] at hm
      split at hm
      · exact hms m hm
      · exact absurd hm List.not_mem_nil
    refine ⟨_, read_eq hname hfiles, proper_object nodup_sessions, ?_⟩
    rw [Session.addedTo_sessions nodup_sessions (fun _ => rfl), preceding_eq hfiles,
      sessions_mappings hreadable fun hne => absurd rfl hne]
    rfl

/-- Three mappings from two files, all of which are read. -/
theorem read_proper_iff_sample :
    let str : Word → CStr := fun _ => ⟨uxn, by decide⟩
    let info : DbgInfo := ⟨0x100, 0x1000, 0x30, [], [⟨1, 0x1000, 3, 0x5000⟩, ⟨2, 0x1010, 3, 0x5000⟩,
      ⟨1, 0x1020, 3, 0x6000⟩]⟩
    ∃ calls, read str ⟨true, true, fun _ => true⟩ info = some calls ∧ Proper calls ∧
      addedTo calls = info.mappings.map (own str) := by
  intro str info
  refine (read_proper_iff str ⟨true, true, fun _ => true⟩ info ?_).mpr ⟨?_, ?_⟩
  · simp only [info, List.forall_mem_cons]
    exact ⟨⟨by decide, rfl⟩, ⟨by decide, rfl⟩, ⟨by decide, rfl⟩, by simp⟩
  · exact fun h => absurd h.1 (by decide)
  · exact ⟨fun _ => rfl, fun _ => rfl, fun _ => rfl, trivial⟩

/-- One mapping, whose file name cannot be read: the table that the reader starts with is closed
twice. -/
theorem read_closes_twice :
    let str : Word → CStr := fun _ => ⟨uxn, by decide⟩
    let info : DbgInfo := ⟨0x100, 0x1000, 0x30, [], [⟨1, 0x1000, 3, 0x5000⟩]⟩
    ∃ calls, read str ⟨true, true, fun _ => false⟩ info = some calls ∧
      callsOf 0 calls = [.symtabOpen 0 uxn,
        .blockOpen 0 0x1000 0x0fff (addrText 0x100), .symtabClose 0,
        .blockOpen 0 0x1000 0x1030 (addrText 0x100), .symtabClose 0] ∧
      ¬Proper calls := by
  intro str info
  obtain ⟨calls, hread⟩ : ∃ calls, read str ⟨true, true, fun _ => false⟩ info = some calls :=
    ⟨_, rfl⟩
  have hfails : ¬FilesRead (fun _ => false) 0 0 (readable ⟨true, true, fun _ => false⟩ info) :=
    fun hfiles => absurd (hfiles.1 (by decide)) (by decide)
  have hproper : ¬Proper calls := read_not_proper hfails hread
  refine ⟨calls, hread, ?_, hproper⟩
  cases hread
  rfl

end Gdb

end BuxnJit
