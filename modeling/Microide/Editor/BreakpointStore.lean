/-
The breakpoint store.

The breakpoints of a project by file: toggled and edited by the user, verified by the debug
adapter, shifted with the text and restored from a saved session. The table by path is an
unordered map, so its entries may come in any order; the one reader of the order is the
adapter event that names no file.

`WellKept` is what the binary searches rely on: each file's breakpoints are in strictly
increasing lines, and no file keeps an empty list.
-/

import Mathlib.Data.List.AList
import Microide.Editor.EditTypes
import Microide.Lib.BinarySearch
import Microide.Lib.LastWins
import Microide.Util.PathMatch

namespace Microide.Editor

open Lib Util

structure Breakpoint where
  line : Nat := 0
  enabled : Bool := true
  condition : Option (List UInt8) := none
  hitCondition : Option (List UInt8) := none
  logMessage : Option (List UInt8) := none
  -- what the adapter answered; never persisted
  verified : Bool := false
  adapterId : Int := 0
  verifyMessage : List UInt8 := []

/-- An adapter's answer. `line` counts from one, `0` where there is none. -/
structure VerifiedBreakpoint where
  id : Int := 0
  verified : Bool := false
  line : Int := 0
  message : List UInt8 := []

structure FileBreakpoints where
  path : PathText := []
  breakpoints : List Breakpoint := []

/-- `util::Revision::Bump`: never back to 0. -/
def bumpRevision (revision : UInt64) : UInt64 := if revision + 1 = 0 then 1 else revision + 1

structure BreakpointStore where
  byPath : AList fun _ : PathText => FileBreakpoints := ∅
  revision : UInt64 := 0

/-! ### The breakpoints of one file -/

def lowerBoundLine (breakpoints : List Breakpoint) (line : Nat) : Nat :=
  partitionPoint (·.line < line) breakpoints

/-- The index of the breakpoint on exactly `line`. -/
def findLine (breakpoints : List Breakpoint) (line : Nat) : Option Nat :=
  let found := lowerBoundLine breakpoints line
  match breakpoints[found]? with
  | some bp => if bp.line = line then some found else none
  | none => none

def insertAt (breakpoints : List Breakpoint) (index : Nat) (bp : Breakpoint) : List Breakpoint :=
  breakpoints.take index ++ bp :: breakpoints.drop index

def Breakpoint.withoutVerification (bp : Breakpoint) : Breakpoint :=
  { bp with verified := false, adapterId := 0, verifyMessage := [] }

/-- One result of `ApplyVerification`. -/
def verifyLine (breakpoints : List Breakpoint) (result : VerifiedBreakpoint) : List Breakpoint :=
  if result.line ≤ 0 then breakpoints
  else
    match findLine breakpoints (result.line - 1).toNat with
    | some found => breakpoints.modify found fun bp =>
        { bp with verified := result.verified, adapterId := result.id,
                  verifyMessage := result.message }
    | none => breakpoints

/-- The breakpoint an event is about: by the adapter's id, else an unbound one by its line. -/
def eventTarget (result : VerifiedBreakpoint) (breakpoints : List Breakpoint) : Option Nat :=
  match if result.id ≠ 0 then breakpoints.findIdx? (·.adapterId = result.id) else none with
  | some found => some found
  | none =>
    if 0 < result.line then
      breakpoints.findIdx? fun bp => bp.line = (result.line - 1).toNat && bp.adapterId = 0
    else none

def bindEvent (result : VerifiedBreakpoint) (bp : Breakpoint) : Breakpoint :=
  { bp with verified := result.verified
            adapterId := if result.id ≠ 0 then result.id else bp.adapterId
            verifyMessage := result.message }

/-- The line a breakpoint is on after the edit. -/
def shiftedLine (edit : AppliedEdit) (line : Nat) : Nat :=
  let newEndLine := edit.firstLine + edit.newlineCount
  if line ≤ edit.firstLine then line
  else if edit.lastLine < line then
    ((line : Int) + ((newEndLine : Int) - (edit.lastLine : Int))).toNat
  else newEndLine

/-- The loop of `ShiftForAppliedEdit` over a file, then its sort and its `unique`. -/
def shiftBreakpoints (edit : AppliedEdit) (breakpoints : List Breakpoint) : List Breakpoint :=
  (sortBy Breakpoint.line
    (breakpoints.map fun bp => { bp with line := shiftedLine edit bp.line })).destutter
      fun a b => a.line ≠ b.line

/-- A field of a breakpoint that may be absent; writing it leaves the line. -/
structure OptionalField where
  read : Breakpoint → Option (List UInt8)
  write : Option (List UInt8) → Breakpoint → Breakpoint
  line_write : ∀ value bp, (write value bp).line = bp.line

namespace BreakpointStore

/-! ### Keys and entries -/

def pathKey (path : PathText) : PathText :=
  if path = [] then []
  else if pathTextNeedsNormalizing path then lexicallyNormal path
  else path

/-- Every entry changed in place. -/
def mapEntries (s : BreakpointStore) (f : PathText → FileBreakpoints → FileBreakpoints) :
    BreakpointStore :=
  { s with
    byPath :=
      { entries := s.byPath.entries.map fun e => ⟨e.1, f e.1 e.2⟩
        nodupKeys := by
          have keys : (s.byPath.entries.map fun e =>
              (⟨e.1, f e.1 e.2⟩ : Sigma fun _ : PathText => FileBreakpoints)).keys =
              s.byPath.entries.keys := by
            rw [List.keys, List.map_map]
            rfl
          rw [List.NodupKeys, keys]
          exact s.byPath.nodupKeys } }

/-- The breakpoints of one file changed in place. -/
def updateFile (s : BreakpointStore) (key : PathText) (f : List Breakpoint → List Breakpoint) :
    BreakpointStore :=
  s.mapEntries fun k file =>
    if k = key then { file with breakpoints := f file.breakpoints } else file

def bump (s : BreakpointStore) : BreakpointStore :=
  { s with revision := bumpRevision s.revision }

/-- The breakpoints under a key; none where there is no entry. -/
def breakpointsOf (s : BreakpointStore) (key : PathText) : List Breakpoint :=
  match s.byPath.lookup key with
  | some file => file.breakpoints
  | none => []

def ensureFileEntry (s : BreakpointStore) (path : PathText) : Option (PathText × BreakpointStore) :=
  let normalized := lexicallyNormal path
  let key := pathKey normalized
  if key = [] then none
  else
    match s.byPath.lookup key with
    | none => some (key, { s with byPath := s.byPath.insert key { path := normalized } })
    | some file =>
      if file.path = [] then
        some (key, s.mapEntries fun k file =>
          if k = key then { file with path := normalized } else file)
      else some (key, s)

/-- The breakpoint at an index erased, and the entry with it when it was the last. -/
def eraseAt (s : BreakpointStore) (key : PathText) (index : Nat) : BreakpointStore :=
  let s := s.updateFile key (·.eraseIdx index)
  if s.breakpointsOf key = [] then { s with byPath := s.byPath.erase key } else s

/-! ### Operations -/

/-- Whether a breakpoint exists on the line now, and the store. -/
def toggle (s : BreakpointStore) (path : PathText) (line : Nat) : Bool × BreakpointStore :=
  match s.ensureFileEntry path with
  | none => (false, s)
  | some (key, s) =>
    match findLine (s.breakpointsOf key) line with
    | some found => (false, (s.eraseAt key found).bump)
    | none =>
      (true, (s.updateFile key fun bps =>
        insertAt bps (lowerBoundLine bps line) { line := line }).bump)

def set (s : BreakpointStore) (path : PathText) (line : Nat) (enabled : Bool) : BreakpointStore :=
  match s.ensureFileEntry path with
  | none => s
  | some (key, s) =>
    match findLine (s.breakpointsOf key) line with
    | some found =>
      if ((s.breakpointsOf key)[found]?).map (·.enabled) = some enabled then s
      else (s.updateFile key (·.modify found fun bp => { bp with enabled := enabled })).bump
    | none =>
      (s.updateFile key fun bps =>
        insertAt bps (lowerBoundLine bps line) { line := line, enabled := enabled }).bump

def toggleEnabled (s : BreakpointStore) (path : PathText) (line : Nat) : Bool × BreakpointStore :=
  match findLine (s.breakpointsOf (pathKey path)) line with
  | some found =>
    (true, (s.updateFile (pathKey path)
      (·.modify found fun bp => { bp with enabled := !bp.enabled })).bump)
  | none => (false, s)

/-- The key and the index of the breakpoint on a line, created where there is none. -/
def mutableBreakpoint (s : BreakpointStore) (path : PathText) (line : Nat) :
    Option (PathText × Nat × BreakpointStore) :=
  match s.ensureFileEntry path with
  | none => none
  | some (key, s) =>
    match findLine (s.breakpointsOf key) line with
    | some found => some (key, found, s)
    | none =>
      some (key, lowerBoundLine (s.breakpointsOf key) line, s.updateFile key fun bps =>
        insertAt bps (lowerBoundLine bps line) { line := line })

def hasBreakpoint (s : BreakpointStore) (path : PathText) (line : Nat) : Bool :=
  (findLine (s.breakpointsOf (pathKey path)) line).isSome

def setOptionalField (field : OptionalField) (s : BreakpointStore) (path : PathText) (line : Nat)
    (value : Option (List UInt8)) : BreakpointStore :=
  -- clearing a field of a line with no breakpoint must not make one
  if value.isNone && !s.hasBreakpoint path line then s
  else
    match s.mutableBreakpoint path line with
    | none => s
    | some (key, found, s) =>
      if ((s.breakpointsOf key)[found]?).map field.read = some value then s
      else (s.updateFile key (·.modify found (field.write value))).bump

def setCondition : BreakpointStore → PathText → Nat → Option (List UInt8) → BreakpointStore :=
  setOptionalField ⟨(·.condition), fun value bp => { bp with condition := value }, fun _ _ => rfl⟩

def setHitCondition : BreakpointStore → PathText → Nat → Option (List UInt8) → BreakpointStore :=
  setOptionalField
    ⟨(·.hitCondition), fun value bp => { bp with hitCondition := value }, fun _ _ => rfl⟩

def setLogMessage : BreakpointStore → PathText → Nat → Option (List UInt8) → BreakpointStore :=
  setOptionalField ⟨(·.logMessage), fun value bp => { bp with logMessage := value }, fun _ _ => rfl⟩

def remove (s : BreakpointStore) (path : PathText) (line : Nat) : BreakpointStore :=
  match findLine (s.breakpointsOf (pathKey path)) line with
  | some found => (s.eraseAt (pathKey path) found).bump
  | none => s

def clearFile (s : BreakpointStore) (path : PathText) : BreakpointStore :=
  match s.byPath.lookup (pathKey path) with
  | some _ => bump { s with byPath := s.byPath.erase (pathKey path) }
  | none => s

def clear (s : BreakpointStore) : BreakpointStore :=
  if s.byPath.entries = [] then s else bump { s with byPath := ∅ }

def applyVerification (s : BreakpointStore) (path : PathText) (results : List VerifiedBreakpoint) :
    BreakpointStore :=
  match s.byPath.lookup (pathKey path) with
  | some _ => (s.updateFile (pathKey path) fun bps => results.foldl verifyLine bps).bump
  | none => s

/-- The event applied under a key. -/
def applyEventAt (s : BreakpointStore) (key : PathText) (result : VerifiedBreakpoint) :
    BreakpointStore :=
  match eventTarget result (s.breakpointsOf key) with
  | some found => (s.updateFile key (·.modify found (bindEvent result))).bump
  | none => s

def applyBreakpointEvent (s : BreakpointStore) (path : PathText) (result : VerifiedBreakpoint) :
    BreakpointStore :=
  if path ≠ [] then s.applyEventAt (pathKey path) result
  else
    -- no path on the event: the first file, in the order of the map, that it fits
    match s.byPath.entries.find? fun e => (eventTarget result e.2.breakpoints).isSome with
    | some e => s.applyEventAt e.1 result
    | none => s

def resetVerification (s : BreakpointStore) : BreakpointStore :=
  if s.byPath.entries.any fun e => e.2.breakpoints.any fun bp =>
      bp.verified || bp.adapterId ≠ 0 || bp.verifyMessage ≠ [] then
    (s.mapEntries fun _ file =>
      { file with breakpoints := file.breakpoints.map Breakpoint.withoutVerification }).bump
  else s

def shiftForAppliedEdit (s : BreakpointStore) (path : PathText) (edit : AppliedEdit) :
    Bool × BreakpointStore :=
  let breakpoints := s.breakpointsOf (pathKey path)
  if breakpoints = [] then (false, s)
  else if edit.firstLine = edit.lastLine ∧ edit.firstLine + edit.newlineCount = edit.lastLine then
    (false, s)
  else if breakpoints.all fun bp => shiftedLine edit bp.line = bp.line then (false, s)
  else (true, (s.updateFile (pathKey path) (shiftBreakpoints edit)).bump)

def fileKey (file : FileBreakpoints) : PathText := pathKey (lexicallyNormal file.path)

/-- What `ReplaceAll` keeps of a file. The source's sort is not stable; which of two breakpoints
on one line comes first is unspecified there. -/
def loadedFile (file : FileBreakpoints) : FileBreakpoints where
  path := lexicallyNormal file.path
  breakpoints := (sortBy Breakpoint.line file.breakpoints).map Breakpoint.withoutVerification

/-- One round of `ReplaceAll`. -/
def loadFile (byPath : AList fun _ : PathText => FileBreakpoints) (file : FileBreakpoints) :
    AList fun _ : PathText => FileBreakpoints :=
  if fileKey file = [] ∨ file.breakpoints = [] then byPath
  else byPath.insert (fileKey file) (loadedFile file)

def replaceAll (s : BreakpointStore) (files : List FileBreakpoints) : BreakpointStore :=
  bump { s with byPath := files.foldl loadFile ∅ }

/-! ### Runs -/

inductive Op where
  | toggle (path : PathText) (line : Nat)
  | set (path : PathText) (line : Nat) (enabled : Bool)
  | toggleEnabled (path : PathText) (line : Nat)
  | setCondition (path : PathText) (line : Nat) (value : Option (List UInt8))
  | setHitCondition (path : PathText) (line : Nat) (value : Option (List UInt8))
  | setLogMessage (path : PathText) (line : Nat) (value : Option (List UInt8))
  | remove (path : PathText) (line : Nat)
  | clearFile (path : PathText)
  | clear
  | applyVerification (path : PathText) (results : List VerifiedBreakpoint)
  | applyBreakpointEvent (path : PathText) (result : VerifiedBreakpoint)
  | resetVerification
  | shiftForAppliedEdit (path : PathText) (edit : AppliedEdit)
  | replaceAll (files : List FileBreakpoints)

def perform (s : BreakpointStore) : Op → BreakpointStore
  | .toggle path line => (s.toggle path line).2
  | .set path line enabled => s.set path line enabled
  | .toggleEnabled path line => (s.toggleEnabled path line).2
  | .setCondition path line value => s.setCondition path line value
  | .setHitCondition path line value => s.setHitCondition path line value
  | .setLogMessage path line value => s.setLogMessage path line value
  | .remove path line => s.remove path line
  | .clearFile path => s.clearFile path
  | .clear => s.clear
  | .applyVerification path results => s.applyVerification path results
  | .applyBreakpointEvent path result => s.applyBreakpointEvent path result
  | .resetVerification => s.resetVerification
  | .shiftForAppliedEdit path edit => (s.shiftForAppliedEdit path edit).2
  | .replaceAll files => s.replaceAll files

/-- The stores a run of operations can reach from a new one. The map may order its entries
anew at any time. -/
inductive Reached : List Op → BreakpointStore → Prop
  | new : Reached [] {}
  | perform {ops : List Op} {s : BreakpointStore} (op : Op) :
      Reached ops s → Reached (ops ++ [op]) (s.perform op)
  | rehash {ops : List Op} {s s' : BreakpointStore} :
      Reached ops s → s.byPath.entries.Perm s'.byPath.entries → s.revision = s'.revision →
      Reached ops s'

end BreakpointStore

end Microide.Editor
