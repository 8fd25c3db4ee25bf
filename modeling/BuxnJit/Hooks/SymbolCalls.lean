import BuxnJit.Hooks.DebugHooks

/-!
# The callbacks of a gdb reader

The calls that a reader makes while it describes an object, and what gdb expects of them: every
symbol table is opened, given its line mappings and one block, and closed, and not used any more
(`Proper`). A `Session` does this for one table; any sessions with different tables, one after the
other, are proper (`proper_sessions`), and add the mappings of each under its name
(`addedTo_sessions`).
-/

namespace BuxnJit

open Foundations Binary

namespace Gdb

/-- `struct gdb_symtab *`: the tables of an object in the order in which they are opened. -/
abbrev SymtabId := ℕ

/-- `struct gdb_line_mapping`: a line, and the address of its code. -/
abbrev GdbLineMapping := BitVec 32 × Word

/-- The calls of `struct gdb_symbol_callbacks`. -/
inductive Call
  | objectOpen
  | symtabOpen (s : SymtabId) (fileName : Bytes)
  | lineMappingAdd (s : SymtabId) (ms : List GdbLineMapping)
  | blockOpen (s : SymtabId) (first last : Word) (name : Bytes)
  | symtabClose (s : SymtabId)
  | objectClose
  deriving DecidableEq

namespace Call

/-- The table that a call is about. -/
def symtab : Call → Option SymtabId
  | .symtabOpen s _ | .lineMappingAdd s _ | .blockOpen s _ _ _ | .symtabClose s => some s
  | .objectOpen | .objectClose => none

def isBlockOpen : Call → Bool
  | .blockOpen .. => true
  | _ => false

end Call

/-- The calls about one table. -/
def callsOf (s : SymtabId) (calls : List Call) : List Call := calls.filter (·.symtab = some s)

/-- A table is opened first and closed last, and once each, and in between gets one block. -/
def Handled (s : SymtabId) (calls : List Call) : Prop :=
  ∃ fileName used, calls = .symtabOpen s fileName :: used ++ [.symtabClose s] ∧
    (∀ fileName', .symtabOpen s fileName' ∉ used) ∧ .symtabClose s ∉ used ∧
    used.countP Call.isBlockOpen = 1

/-- Every table that occurs is handled so. -/
def Proper (calls : List Call) : Prop :=
  ∀ s, callsOf s calls = [] ∨ Handled s (callsOf s calls)

/-- The name that a table was opened with. -/
def fileNameOf (s : SymtabId) (calls : List Call) : Option Bytes :=
  calls.findSome? fun
    | .symtabOpen s' fileName => if s' = s then some fileName else none
    | _ => none

/-- The line mappings of a call, with the name of their table. -/
def Call.added (fileName : SymtabId → Option Bytes) : Call → List (Option Bytes × GdbLineMapping)
  | .lineMappingAdd s ms => ms.map fun m => (fileName s, m)
  | _ => []

/-- The line mappings that are added, in their order, and the names of their tables. -/
def addedTo (calls : List Call) : List (Option Bytes × GdbLineMapping) :=
  calls.flatMap (Call.added fun s => fileNameOf s calls)

/-! ## Sessions -/

/-- A table from its opening to its end. -/
structure Session where
  id : SymtabId
  fileName : Bytes
  mappings : List GdbLineMapping
  first : Word
  last : Word

namespace Session

/-- The mappings are only added if there are some. -/
def adds (s : SymtabId) (ms : List GdbLineMapping) : List Call :=
  if ms = [] then [] else [.lineMappingAdd s ms]

def calls (name : Bytes) (x : Session) : List Call :=
  .symtabOpen x.id x.fileName :: (adds x.id x.mappings ++ [.blockOpen x.id x.first x.last name]) ++
    [.symtabClose x.id]

variable {name : Bytes} {x : Session} {xs : List Session}

theorem symtab_of_mem {c : Call} (hc : c ∈ x.calls name) : c.symtab = some x.id := by
  have hadds : ∀ c ∈ adds x.id x.mappings, c.symtab = some x.id := by
    intro c hc
    rw [adds] at hc
    split at hc
    · exact absurd hc List.not_mem_nil
    · rw [List.mem_singleton.mp hc, Call.symtab]
  simp only [calls, List.cons_append, List.append_assoc, List.mem_cons, List.mem_append,
    List.not_mem_nil, or_false, false_or] at hc
  obtain rfl | hc | rfl | rfl := hc
  · rfl
  · exact hadds c hc
  · rfl
  · rfl

theorem handled_calls : Handled x.id (x.calls name) := by
  refine ⟨x.fileName, _, rfl, fun fileName' => ?_, ?_, ?_⟩ <;> rw [adds] <;> split <;>
    simp [Call.isBlockOpen]

/-- Sessions with other tables make no calls about this one. -/
theorem callsOf_other {s : SymtabId} (h : ∀ x ∈ xs, x.id ≠ s) :
    callsOf s (xs.flatMap (calls name)) = [] := by
  rw [callsOf, List.filter_eq_nil_iff]
  intro c hc
  obtain ⟨x, hx, hc⟩ := List.mem_flatMap.mp hc
  simpa [symtab_of_mem hc] using h x hx

theorem callsOf_self : callsOf x.id (x.calls name) = x.calls name := by
  rw [callsOf, List.filter_eq_self]
  intro c hc
  simp [symtab_of_mem hc]

/-- **The calls about the table of a session** are those of the session. -/
theorem callsOf_sessions (hnodup : (xs.map id).Nodup) (hx : x ∈ xs) :
    callsOf x.id (xs.flatMap (calls name)) = x.calls name := by
  induction xs with
  | nil => exact absurd hx List.not_mem_nil
  | cons y xs ih =>
    rw [List.map_cons, List.nodup_cons] at hnodup
    obtain ⟨hy, hnodup⟩ := hnodup
    rw [List.flatMap_cons, callsOf, List.filter_append, ← callsOf, ← callsOf]
    obtain rfl | hx := List.mem_cons.mp hx
    · rw [callsOf_self, callsOf_other, List.append_nil]
      intro z hz he
      exact hy (he ▸ List.mem_map_of_mem hz)
    · have hne : y.id ≠ x.id := fun he => hy (he ▸ List.mem_map_of_mem hx)
      have hother : callsOf x.id (y.calls name) = [] := by
        rw [← List.flatMap_singleton (calls name) y]
        exact callsOf_other (by simpa using hne)
      rw [hother, ih hnodup hx, List.nil_append]

/-- **Sessions are proper**, one after the other with different tables. -/
theorem proper_sessions (hnodup : (xs.map id).Nodup) : Proper (xs.flatMap (calls name)) := by
  intro s
  by_cases hs : ∃ x ∈ xs, x.id = s
  · obtain ⟨x, hx, rfl⟩ := hs
    rw [callsOf_sessions hnodup hx]
    exact .inr handled_calls
  · exact .inl (callsOf_other fun x hx he => hs ⟨x, hx, he⟩)

/-- A table was opened with the name of its session. -/
theorem fileNameOf_sessions (hnodup : (xs.map id).Nodup) (hx : x ∈ xs) (rest : List Call) :
    fileNameOf x.id (xs.flatMap (calls name) ++ rest) = some x.fileName := by
  induction xs with
  | nil => exact absurd hx List.not_mem_nil
  | cons y xs ih =>
    rw [List.map_cons, List.nodup_cons] at hnodup
    obtain ⟨hy, hnodup⟩ := hnodup
    obtain rfl | hx := List.mem_cons.mp hx
    · simp [fileNameOf, calls]
    · have hne : y.id ≠ x.id := fun he => hy (he ▸ List.mem_map_of_mem hx)
      have hskip : fileNameOf x.id (y.calls name) = none := by
        rw [fileNameOf, List.findSome?_eq_none_iff]
        intro c hc
        have hsymtab := symtab_of_mem hc
        cases c with
        | symtabOpen s fileName =>
          obtain rfl := Option.some_inj.mp hsymtab
          exact if_neg hne
        | _ => rfl
      rw [List.flatMap_cons, List.append_assoc, fileNameOf, List.findSome?_append]
      rw [fileNameOf] at hskip
      rw [hskip, Option.none_or]
      exact ih hnodup hx

/-- **The mappings of all sessions are added**, under their names. -/
theorem addedTo_sessions (hnodup : (xs.map id).Nodup) {rest : List Call}
    (hrest : ∀ fileName, rest.flatMap (Call.added fileName) = []) :
    addedTo (.objectOpen :: (xs.flatMap (calls name) ++ rest)) =
      xs.flatMap fun x => x.mappings.map fun m => (some x.fileName, m) := by
  rw [addedTo]
  obtain ⟨f, hf⟩ : ∃ f, f = fun s =>
    fileNameOf s (.objectOpen :: (xs.flatMap (calls name) ++ rest)) := ⟨_, rfl⟩
  have hnames : ∀ x ∈ xs, f x.id = some x.fileName := fun x hx => by
    rw [hf]
    exact fileNameOf_sessions hnodup hx rest
  rw [← hf]
  rw [List.flatMap_cons, List.flatMap_append, hrest, List.append_nil, List.flatMap_assoc]
  refine List.flatMap_congr fun x hx => ?_
  have hname := hnames x hx
  rw [calls, adds]
  split
  next hnil => simp [Call.added, hnil]
  next => simp [Call.added, hname]

end Session

end Gdb

end BuxnJit
