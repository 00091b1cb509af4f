/-
The diagnostics store.

Each owner publishes a list for a file. The store keeps the lists by owner and path key, and beside them,
for the drawing of a file, one merged list by path key with its counts; the counts of all files are the
badges. Every operation changes the owners' lists and then rebuilds the merged list of each path it
touched, the badges by what went and what came.
-/

import Mathlib.Data.Prod.Lex
import Microide.Editor.BreakpointStore
import Microide.Editor.OwnerPathIndexOps

namespace Microide.Editor

open Lib Util

inductive DiagnosticSeverity where
  | error
  | warning
  | info
  | hint
  deriving DecidableEq

def DiagnosticSeverity.rank : DiagnosticSeverity → Nat
  | error => 0
  | warning => 1
  | info => 2
  | hint => 3

structure Diagnostic where
  range : SelectionRange
  severity : DiagnosticSeverity := .error
  message : List UInt8

structure PublishedDiagnostic where
  owner : List UInt8
  path : PathText
  range : SelectionRange
  severity : DiagnosticSeverity := .error
  message : List UInt8
  deriving DecidableEq

structure SeveritySummary where
  errors : Nat := 0
  warnings : Nat := 0
  infos : Nat := 0
  hints : Nat := 0
  deriving DecidableEq

structure FileDiagnostics where
  path : PathText := []
  diagnostics : List PublishedDiagnostic := []
  summary : SeveritySummary := {}
  truncated : Bool := false
  originalCount : Nat := 0
  deriving DecidableEq

/-- The fields in the order the comparison reads them. -/
def PublishedDiagnostic.rank (diagnostic : PublishedDiagnostic) :
    Lex (List Nat × Lex (Nat × Lex (Nat × Lex (Nat × Lex (Nat × Lex (Nat ×
      Lex (List Nat × List Nat))))))) :=
  toLex (diagnostic.path.map UInt8.toNat, toLex (diagnostic.range.start.line,
    toLex (diagnostic.range.start.column, toLex (diagnostic.range.stop.line,
      toLex (diagnostic.range.stop.column, toLex (diagnostic.severity.rank,
        toLex (diagnostic.owner.map UInt8.toNat, diagnostic.message.map UInt8.toNat)))))))

def sortDiagnostics (diagnostics : List PublishedDiagnostic) : List PublishedDiagnostic :=
  sortBy PublishedDiagnostic.rank diagnostics

def SeveritySummary.count (summary : SeveritySummary) : DiagnosticSeverity → SeveritySummary
  | .error => { summary with errors := summary.errors + 1 }
  | .warning => { summary with warnings := summary.warnings + 1 }
  | .info => { summary with infos := summary.infos + 1 }
  | .hint => { summary with hints := summary.hints + 1 }

def summarizeDiagnostics (diagnostics : List PublishedDiagnostic) : SeveritySummary :=
  diagnostics.foldl (fun summary diagnostic => summary.count diagnostic.severity) {}

def collectPublishedDiagnostics (owner : List UInt8) (path : PathText)
    (diagnostics : List Diagnostic) : List PublishedDiagnostic :=
  diagnostics.map fun diagnostic =>
    ⟨owner, path, diagnostic.range, diagnostic.severity, diagnostic.message⟩

def kMaxDiagnosticsPerOwnerFile : Nat := 10000

def kMaxMergedDiagnosticsPerFile : Nat := 20000

structure DiagnosticsStore where
  diagnosticsByOwner : OwnerIndex FileDiagnostics := ∅
  mergedByPath : Table PathText FileDiagnostics := ∅
  /-- The four badges. -/
  counts : SeveritySummary := {}
  truncatedFileCount : Nat := 0
  revision : UInt64 := 0
  /-- Not of the source: whether a counter was ever to lose more than it had. -/
  clamped : Bool := false

namespace DiagnosticsStore

def addSummary (s : DiagnosticsStore) (summary : SeveritySummary) : DiagnosticsStore :=
  { s with
    counts :=
      { errors := s.counts.errors + summary.errors
        warnings := s.counts.warnings + summary.warnings
        infos := s.counts.infos + summary.infos
        hints := s.counts.hints + summary.hints } }

def removeSummary (s : DiagnosticsStore) (summary : SeveritySummary) : DiagnosticsStore :=
  { s with
    counts :=
      { errors := s.counts.errors - min s.counts.errors summary.errors
        warnings := s.counts.warnings - min s.counts.warnings summary.warnings
        infos := s.counts.infos - min s.counts.infos summary.infos
        hints := s.counts.hints - min s.counts.hints summary.hints }
    clamped := s.clamped || s.counts.errors < summary.errors || s.counts.warnings < summary.warnings ||
      s.counts.infos < summary.infos || s.counts.hints < summary.hints }

def addTruncated (s : DiagnosticsStore) : DiagnosticsStore :=
  { s with truncatedFileCount := s.truncatedFileCount + 1 }

def removeTruncated (s : DiagnosticsStore) : DiagnosticsStore :=
  { s with
    truncatedFileCount := s.truncatedFileCount - 1
    clamped := s.clamped || s.truncatedFileCount = 0 }

def bump (s : DiagnosticsStore) : DiagnosticsStore :=
  { s with revision := bumpRevision s.revision }

/-- One more owner's file. -/
def mergeFile (merged file : FileDiagnostics) : FileDiagnostics :=
  { merged with
    path := if merged.path = [] then file.path else merged.path
    diagnostics := merged.diagnostics ++ file.diagnostics
    truncated := merged.truncated || file.truncated
    originalCount := merged.originalCount + file.originalCount }

/-- What the owners' files are merged to. -/
def mergeOwners (s : DiagnosticsStore) (key : PathText) : FileDiagnostics :=
  s.diagnosticsByOwner.entries.foldl
    (fun merged owner =>
      match owner.2.lookup key with
      | none => merged
      | some file => mergeFile merged file)
    {}

/-- Sorted, counted, and then cut at the cap. -/
def finishMerge (merged : FileDiagnostics) : FileDiagnostics :=
  let sorted := sortDiagnostics merged.diagnostics
  let merged := { merged with diagnostics := sorted, summary := summarizeDiagnostics sorted }
  if kMaxMergedDiagnosticsPerFile < sorted.length then
    { merged with diagnostics := sorted.take kMaxMergedDiagnosticsPerFile, truncated := true }
  else merged

def rebuildPath (s : DiagnosticsStore) (key : PathText) : DiagnosticsStore :=
  if key = [] then s
  else
    let merged := s.mergeOwners key
    if merged.diagnostics = [] then
      match s.mergedByPath.lookup key with
      | none => s
      | some existing =>
        let s := s.removeSummary existing.summary
        let s := if existing.truncated then s.removeTruncated else s
        bump { s with mergedByPath := s.mergedByPath.erase key }
    else
      let merged := finishMerge merged
      match s.mergedByPath.lookup key with
      | none =>
        let s := s.addSummary merged.summary
        let s := if merged.truncated then s.addTruncated else s
        bump { s with mergedByPath := s.mergedByPath.insert key merged }
      | some existing =>
        if existing = merged then s
        else
          let s := (s.removeSummary existing.summary).addSummary merged.summary
          let s :=
            if existing.truncated && !merged.truncated then s.removeTruncated
            else if !existing.truncated && merged.truncated then s.addTruncated
            else s
          bump { s with mergedByPath := s.mergedByPath.insert key merged }

/-- The index after an operation, and the view rebuilt where it was touched. -/
def sweep (s : DiagnosticsStore) (swept : Swept FileDiagnostics) : DiagnosticsStore × Bool :=
  (swept.affected.foldl rebuildPath { s with diagnosticsByOwner := swept.byOwner }, swept.changed)

/-! ### Operations -/

def replaceForOwnerFile (s : DiagnosticsStore) (owner : List UInt8) (path : PathText)
    (diagnostics : List Diagnostic) : DiagnosticsStore × Bool :=
  let normalized := lexicallyNormal path
  let key := normalizedPathKey normalized
  if owner = [] ∨ key = [] then (s, false)
  else
    let originalCount := diagnostics.length
    let truncated : Bool := kMaxDiagnosticsPerOwnerFile < diagnostics.length
    let diagnostics := diagnostics.take kMaxDiagnosticsPerOwnerFile
    let entries := (s.diagnosticsByOwner.lookup owner).getD ∅
    if diagnostics = [] then
      let changed := (entries.lookup key).isSome
      let entries := entries.erase key
      let byOwner :=
        if entries.entries.isEmpty then s.diagnosticsByOwner.erase owner
        else s.diagnosticsByOwner.insert owner entries
      s.sweep ⟨byOwner, if changed then [key] else [], changed⟩
    else
      let published := sortDiagnostics (collectPublishedDiagnostics owner normalized diagnostics)
      let next : FileDiagnostics :=
        ⟨normalized, published, summarizeDiagnostics published, truncated, originalCount⟩
      if entries.lookup key = some next then (s, false)
      else s.sweep ⟨s.diagnosticsByOwner.insert owner (entries.insert key next), [key], true⟩

/-- `transform` is none where the function given is empty. -/
def transformOwnerFile (s : DiagnosticsStore) (owner : List UInt8) (path : PathText)
    (transform : Option (SelectionRange → SelectionRange)) : DiagnosticsStore × Bool :=
  match transform with
  | none => (s, false)
  | some transform =>
    if owner = [] ∨ path = [] then (s, false)
    else
      match s.diagnosticsByOwner.lookup owner with
      | none => (s, false)
      | some entries =>
        let key := normalizedPathKey path
        if key = [] then (s, false)
        else
          match entries.lookup key with
          | none => (s, false)
          | some file =>
            if file.diagnostics = [] then (s, false)
            else
              let moved := file.diagnostics.map fun diagnostic =>
                { diagnostic with range := transform diagnostic.range }
              let file := { file with diagnostics := sortDiagnostics moved }
              s.sweep ⟨s.diagnosticsByOwner.insert owner (entries.insert key file), [key], true⟩

def clearOwner (s : DiagnosticsStore) (owner : List UInt8) : DiagnosticsStore × Bool :=
  s.sweep (clearOwnerEntries s.diagnosticsByOwner owner)

def clearOwnerFile (s : DiagnosticsStore) (owner : List UInt8) (path : PathText) :
    DiagnosticsStore × Bool :=
  s.sweep (clearOwnerFileEntry s.diagnosticsByOwner owner (normalizedPathKey path))

/-- The diagnostics carry their file's path too. -/
def rewriteDiagnostics (moved : FileDiagnostics) (old new : PathText) : FileDiagnostics :=
  { moved with
    diagnostics := moved.diagnostics.map fun diagnostic =>
      { diagnostic with path := replacePathPrefix diagnostic.path old new } }

def retargetPathPrefix (s : DiagnosticsStore) (oldPrefix newPrefix : PathText) :
    DiagnosticsStore × Bool :=
  s.sweep (retargetEntriesUnderPrefix FileDiagnostics.path
    (fun file path => { file with path := path }) rewriteDiagnostics s.diagnosticsByOwner oldPrefix
    newPrefix)

def clearPathPrefix (s : DiagnosticsStore) (pathPrefix : PathText) : DiagnosticsStore × Bool :=
  s.sweep (clearEntriesUnderPrefix FileDiagnostics.path s.diagnosticsByOwner pathPrefix)

def clear (s : DiagnosticsStore) : DiagnosticsStore :=
  if s.diagnosticsByOwner.entries.isEmpty && s.mergedByPath.entries.isEmpty then s
  else
    bump { s with
      diagnosticsByOwner := ∅
      mergedByPath := ∅
      counts := {}
      truncatedFileCount := 0 }

end DiagnosticsStore

end Microide.Editor
