/-
The manifest of a served tree across watch batches.

After a batch the host takes the last manifest's rows, drops what was touched or is under a
deleted directory, and merges in the rows it reads again: of the members touched, and of the new
paths the content-set rules admit. Of two manifests it sends the difference.

**Main results.** `updateRows_merged_iff`: when the merge is in order and holds what it is to
hold; `diffManifests_exact`: a difference turns the one manifest into the other;
`updateManifest_iff`.
-/

import Microide.Lib.LastWins
import Microide.Lib.SortedRows
import Microide.Remote.RemoteManifest

namespace Microide.Remote

open List Lib ManifestRow

/-- What a watcher reported since the last manifest. -/
structure Changes where
  touched : List Path
  deletedDirectories : List Path := []
  full : Bool := false

/-- What an update asks the host: whether a path exists, whether the project scanner includes it,
the members `git ls-files` answers for paths relative to a repository, and the row read at a path,
none where it is no content or went away. `build` is the answer of a full build. -/
structure ManifestAnswers (Hash : Type) where
  pathExists : Path → Bool
  includes : Path → Bool
  listGitRepository : Path → List Path → Option (List Path)
  rowAt : Path → Option (ManifestRow Hash)
  rowAt_path : ∀ path row, rowAt path = some row → row.path = path
  build : Option (List (ManifestRow Hash))

/-- What the host keeps of a served tree; `rows` are `last_rows_`. -/
structure WorkspaceTree (Hash : Type) where
  built : Bool
  lastGit : Bool
  submoduleRoots : List Path := []
  rows : List (ManifestRow Hash)
  maxFiles : Nat := 50000

/-- Under the directory, not the directory itself. -/
def isUnder (directory path : Path) : Bool := (directory ++ [slash]).isPrefixOf path

/-- Sorted, and of each run of equals one. -/
def sortedUnique (paths : List Path) : List Path := (sortBy id paths).destutter (· ≠ ·)

/-- `".gitignore"`, `".git/info/exclude"`, `".git/"`. -/
def kGitIgnoreName : Path := [0x2E, 0x67, 0x69, 0x74, 0x69, 0x67, 0x6E, 0x6F, 0x72, 0x65]

def kGitInfoExclude : Path :=
  [0x2E, 0x67, 0x69, 0x74, 0x2F, 0x69, 0x6E, 0x66, 0x6F, 0x2F, 0x65, 0x78, 0x63, 0x6C, 0x75, 0x64, 0x65]

def kGitDirectory : Path := [0x2E, 0x67, 0x69, 0x74, 0x2F]

def changesMembershipRules (path : Path) : Bool :=
  (path.splitOn slash).getLastD [] = kGitIgnoreName || path = kGitInfoExclude ||
    kGitDirectory.isPrefixOf path

namespace WorkspaceTree

variable {Hash : Type} (tree : WorkspaceTree Hash)

/-- The deepest submodule a path is in, the top repository where there is none. -/
def ownerOf (path : Path) : Path :=
  tree.submoduleRoots.foldl (fun owner root =>
    if isUnder root path && owner.length < root.length then root else owner) []

/-- A path as its owner's repository names it. -/
def relativeTo (owner path : Path) : Path :=
  if owner.isEmpty then path else path.drop (owner.length + 1)

/-- The answers of each repository asked, none if one fails. -/
def listOwners (host : ManifestAnswers Hash) (candidates : List Path) : List Path → Option (List Path)
  | [] => some []
  | owner :: owners => do
    let members ← host.listGitRepository owner
      ((candidates.filter fun path => tree.ownerOf path = owner).map (relativeTo owner))
    let rest ← listOwners host candidates owners
    pure (members ++ rest)

def admitCandidates (host : ManifestAnswers Hash) (candidates : List Path) : Option (List Path) :=
  if tree.lastGit then
    (tree.listOwners host candidates (sortedUnique (candidates.map tree.ownerOf))).map sortedUnique
  else some (candidates.filter host.includes)

def listed (path : Path) : Bool := hasKey ManifestRow.path tree.rows path

/-- The members touched that are still there. -/
def touchedMembers (host : ManifestAnswers Hash) (changes : Changes) : List Path :=
  (sortedUnique changes.touched).filter fun path =>
    isSafeRelativePath path && (tree.listed path && host.pathExists path)

/-- The paths touched that are there and new. -/
def candidates (host : ManifestAnswers Hash) (changes : Changes) : List Path :=
  (sortedUnique changes.touched).filter fun path =>
    isSafeRelativePath path && (!tree.listed path && host.pathExists path)

/-- The new paths that belong to the content set. -/
def admitted (host : ManifestAnswers Hash) (changes : Changes) : Option (List Path) :=
  if (tree.candidates host changes).isEmpty then some []
  else tree.admitCandidates host (tree.candidates host changes)

/-- The paths whose row is read again. -/
def recompute (host : ManifestAnswers Hash) (changes : Changes) (admitted : List Path) : List Path :=
  if (tree.candidates host changes).isEmpty then tree.touchedMembers host changes
  else sortBy id (tree.touchedMembers host changes ++ admitted)

/-- The rows read again, `RowsFor`. -/
def freshRows (host : ManifestAnswers Hash) (changes : Changes) (admitted : List Path) :
    List (ManifestRow Hash) := (tree.recompute host changes admitted).filterMap host.rowAt

def underDeletedDirectory (changes : Changes) (path : Path) : Bool :=
  changes.deletedDirectories.any fun directory => isUnder directory path

/-- A previous row that is not kept. -/
def dropped (changes : Changes) (row : ManifestRow Hash) : Bool :=
  hasKey id (sortedUnique changes.touched) row.path || underDeletedDirectory changes row.path

def mergedRows (host : ManifestAnswers Hash) (changes : Changes) (admitted : List Path) :
    List (ManifestRow Hash) :=
  mergeOver ManifestRow.path (dropped changes) (tree.freshRows host changes admitted) tree.rows

/-- The next manifest's rows, where the last one's are a base for them. -/
def updateRows (host : ManifestAnswers Hash) (changes : Changes) : Option (List (ManifestRow Hash)) := do
  let admitted ← tree.admitted host changes
  let rows := tree.mergedRows host changes admitted
  if tree.maxFiles < rows.length then none else some rows

def updateManifest (host : ManifestAnswers Hash) (changes : Changes) : Option (List (ManifestRow Hash)) :=
  if !tree.built || changes.full || changes.touched.any changesMembershipRules then host.build
  else tree.updateRows host changes

end WorkspaceTree

/-- The rows of `after` that are new or differ, and the paths of `before` that `after` lacks. -/
def diffManifests {Hash : Type} [DecidableEq Hash] (before after : List (ManifestRow Hash)) :
    List (ManifestRow Hash) × List Path := diffRows ManifestRow.path before after

/-! ### Sorted paths -/

theorem mem_sortedUnique {paths : List Path} {path : Path} :
    path ∈ sortedUnique paths ↔ path ∈ paths := by
  rw [sortedUnique, mem_destutter, mem_sortBy]

theorem sortedUnique_lt (paths : List Path) : (sortedUnique paths).Pairwise (· < ·) :=
  pairwise_lt_destutter id (sortBy_pairwise id paths)

/-! ### The merge of an update -/

/-- What the merged rows are to be: in order, no path twice, the fresh rows and of the others
those neither touched nor under a deleted directory. -/
structure ManifestMerged {Hash : Type} (before fresh : List (ManifestRow Hash)) (changes : Changes)
    (rows : List (ManifestRow Hash)) : Prop where
  rising : Rising ManifestRow.path rows
  holds : ∀ row, row ∈ rows ↔ row ∈ fresh ∨ row ∈ before ∧ row.path ∉ changes.touched ∧
    ∀ directory ∈ changes.deletedDirectories, isUnder directory row.path = false

section Update

variable {Hash : Type} {tree : WorkspaceTree Hash} {host : ManifestAnswers Hash} {changes : Changes}
  {admitted : List Path}

/-- Where git answers with a path that has a row, no member touched is read twice, and a member
not reported changed has the row it had. -/
def AdmitsNew (tree : WorkspaceTree Hash) (host : ManifestAnswers Hash) (changes : Changes)
    (admitted : List Path) : Prop :=
  ∀ row ∈ tree.rows, row.path ∈ admitted → ∀ new, host.rowAt row.path = some new →
    row.path ∉ tree.touchedMembers host changes ∧
      (row.path ∈ changes.touched ∨
        (∃ directory ∈ changes.deletedDirectories, isUnder directory row.path = true) ∨ new = row)

theorem listed_iff (rising : Rising path tree.rows) {path : Path} :
    tree.listed path = true ↔ ∃ row ∈ tree.rows, row.path = path := hasKey_iff rising.sorted

theorem dropped_eq_false {row : ManifestRow Hash} :
    WorkspaceTree.dropped changes row = false ↔ row.path ∉ changes.touched ∧
      ∀ directory ∈ changes.deletedDirectories, isUnder directory row.path = false := by
  have touched : hasKey id (sortedUnique changes.touched) row.path = true ↔
      row.path ∈ changes.touched := by
    have sorted : (sortedUnique changes.touched).Pairwise fun a b => id a ≤ id b :=
      (sortedUnique_lt changes.touched).imp fun lt => lt.le
    rw [hasKey_iff sorted]
    simp [mem_sortedUnique]
  rw [WorkspaceTree.dropped, Bool.or_eq_false_iff, Bool.eq_false_iff, ne_eq, touched,
    WorkspaceTree.underDeletedDirectory, any_eq_false]
  simp only [Bool.not_eq_true]

/-- The paths admitted are in order, none twice. -/
theorem admitted_lt (found : tree.admitted host changes = some admitted) :
    admitted.Pairwise (· < ·) := by
  unfold WorkspaceTree.admitted WorkspaceTree.admitCandidates at found
  split at found
  · obtain rfl := Option.some.inj found
    exact .nil
  · split at found
    · obtain ⟨paths, -, rfl⟩ := Option.map_eq_some_iff.mp found
      exact sortedUnique_lt paths
    · obtain rfl := Option.some.inj found
      exact ((sortedUnique_lt changes.touched).filter _).filter _

theorem touchedMembers_lt : (tree.touchedMembers host changes).Pairwise (· < ·) :=
  (sortedUnique_lt changes.touched).filter _

section

variable (found : tree.admitted host changes = some admitted)

include found

/-- The paths read again: the members touched, the new paths. -/
theorem recompute_perm :
    (tree.recompute host changes admitted).Perm (tree.touchedMembers host changes ++ admitted) ∧
      (tree.recompute host changes admitted).Pairwise (· ≤ ·) := by
  unfold WorkspaceTree.recompute
  unfold WorkspaceTree.admitted at found
  split
  next none_ =>
    rw [if_pos none_] at found
    obtain rfl := Option.some.inj found
    rw [append_nil]
    exact ⟨.refl _, touchedMembers_lt.imp fun lt => lt.le⟩
  · exact ⟨perm_sortBy id _, sortBy_pairwise id _⟩

theorem mem_freshRows {row : ManifestRow Hash} : row ∈ tree.freshRows host changes admitted ↔
      (row.path ∈ tree.touchedMembers host changes ∨ row.path ∈ admitted) ∧
        host.rowAt row.path = some row := by
  rw [WorkspaceTree.freshRows, mem_filterMap]
  constructor
  · rintro ⟨path, mem, read⟩
    obtain rfl := host.rowAt_path path row read
    exact ⟨mem_append.mp ((recompute_perm found).1.mem_iff.mp mem), read⟩
  · rintro ⟨mem, read⟩
    exact ⟨row.path, (recompute_perm found).1.mem_iff.mpr (mem_append.mpr mem), read⟩

theorem freshRows_sorted :
    (tree.freshRows host changes admitted).Pairwise fun a b => a.path ≤ b.path := by
  refine Pairwise.filterMap host.rowAt (fun path path' le row read row' read' => ?_)
    (recompute_perm found).2
  rw [host.rowAt_path path row read, host.rowAt_path path' row' read']
  exact le

/-- The fresh rows name no path twice where no member touched is admitted again. -/
theorem freshRows_rising_iff : Rising path (tree.freshRows host changes admitted) ↔
      ∀ path ∈ tree.touchedMembers host changes, path ∈ admitted → host.rowAt path = none := by
  have paths : ∀ paths : List Path, (paths.filterMap host.rowAt).map path =
      paths.filter fun path => (host.rowAt path).isSome := by
    intro paths
    induction paths with
    | nil => rfl
    | cons path paths ih =>
      cases read : host.rowAt path with
      | none => rw [filterMap_cons_none read, filter_cons_of_neg (by simp [read]), ih]
      | some row =>
        rw [filterMap_cons_some read, map_cons, host.rowAt_path path row read, ih,
          filter_cons_of_pos (by simp [read])]
  have perm : ((tree.freshRows host changes admitted).map path).Perm
      ((tree.touchedMembers host changes).filter (fun path => (host.rowAt path).isSome) ++
        admitted.filter fun path => (host.rowAt path).isSome) := by
    rw [WorkspaceTree.freshRows, paths, ← filter_append]
    exact (recompute_perm found).1.filter _
  have sides : ∀ {paths : List Path}, paths.Pairwise (· < ·) →
      (paths.filter fun path => (host.rowAt path).isSome).Nodup := fun rises =>
    (rises.filter _).imp fun lt => lt.ne
  have nodup : Rising path (tree.freshRows host changes admitted) ↔
      ((tree.freshRows host changes admitted).map path).Nodup := by
    rw [List.Nodup, pairwise_map]
    constructor
    · exact fun rises => rises.imp fun lt => lt.ne
    · exact fun apart => ((freshRows_sorted found).and apart).imp fun both =>
        lt_of_le_of_ne both.1 both.2
  rw [nodup, perm.nodup_iff, nodup_append']
  simp only [sides touchedMembers_lt, sides (admitted_lt found), true_and, disjoint_left,
    mem_filter, not_and, Option.isSome_iff_ne_none]
  constructor
  · intro apart path mem memAdmitted
    by_contra some_
    exact apart ⟨mem, some_⟩ memAdmitted some_
  · intro apart path mem memAdmitted some_
    exact some_ (apart path mem.1 memAdmitted)

end

theorem mem_touched {path : Path} (mem : path ∈ tree.touchedMembers host changes) :
    path ∈ changes.touched := mem_sortedUnique.mp (mem_filter.mp mem).1

/-- **When the merge of an update is what it is to be.** -/
theorem mergedRows_merged_iff (rising : Rising path tree.rows)
    (found : tree.admitted host changes = some admitted) :
    ManifestMerged tree.rows (tree.freshRows host changes admitted) changes
        (tree.mergedRows host changes admitted) ↔ AdmitsNew tree host changes admitted := by
  have sorted := freshRows_sorted found
  have members := fun row => @mem_mergeOver _ _ _ _ _ (WorkspaceTree.dropped changes) _ rising sorted row
  constructor
  · rintro ⟨risingRows, holds⟩ row mem memAdmitted new read
    have risingFresh := (mergeOver_rising_iff rising sorted).mp risingRows
    have once : row.path ∉ tree.touchedMembers host changes := fun memTouched =>
      absurd (read.symm.trans ((freshRows_rising_iff found).mp risingFresh _ memTouched memAdmitted))
        (Option.some_ne_none new)
    refine ⟨once, ?_⟩
    by_contra reported
    push Not at reported
    obtain ⟨untouched, clear, differs⟩ := reported
    have kept := (holds row).mpr (.inr ⟨mem, untouched, fun directory memDirectory =>
      Bool.eq_false_iff.mpr (clear directory memDirectory)⟩)
    have path := host.rowAt_path _ _ read
    have memNew : new ∈ tree.freshRows host changes admitted :=
      (mem_freshRows found).mpr ⟨.inr (path ▸ memAdmitted), path ▸ read⟩
    rcases (members row).mp kept with fresh | ⟨-, -, apart⟩
    · have own := ((mem_freshRows found).mp fresh).2
      exact differs (Option.some.inj (read.symm.trans own))
    · exact apart new memNew path
  · intro new
    have risingFresh : Rising path (tree.freshRows host changes admitted) := by
      rw [freshRows_rising_iff found]
      intro path memTouched memAdmitted
      by_contra some_
      obtain ⟨row, read⟩ := Option.ne_none_iff_exists'.mp some_
      have listed := (mem_filter.mp memTouched).2
      rw [Bool.and_eq_true, Bool.and_eq_true] at listed
      obtain ⟨before, mem, rfl⟩ := (listed_iff rising).mp listed.2.1
      exact (new before mem memAdmitted row read).1 memTouched
    refine ⟨rising.mergeOver risingFresh, fun row => ?_⟩
    rw [WorkspaceTree.mergedRows, members, dropped_eq_false]
    constructor
    · rintro (fresh | ⟨mem, ⟨untouched, clear⟩, -⟩)
      · exact .inl fresh
      · exact .inr ⟨mem, untouched, clear⟩
    · rintro (fresh | ⟨mem, untouched, clear⟩)
      · exact .inl fresh
      · by_cases read : ∃ next ∈ tree.freshRows host changes admitted, next.path = row.path
        · obtain ⟨next, memNext, path⟩ := read
          obtain ⟨memBoth, own⟩ := (mem_freshRows found).mp memNext
          rw [path] at memBoth own
          have memAdmitted := memBoth.resolve_left fun memTouched => untouched (mem_touched memTouched)
          rcases (new row mem memAdmitted next own).2 with touched | ⟨directory, memDirectory, under⟩ | rfl
          · exact absurd touched untouched
          · exact absurd under (ne_true_of_eq_false (clear directory memDirectory))
          · exact .inl memNext
        · push Not at read
          exact .inr ⟨mem, ⟨untouched, clear⟩, read⟩

end Update

/-- A difference deletes and upserts the one manifest into the other, no path is in both of its
lists, and no row the first manifest had is reported. -/
structure DiffExact {Hash : Type} [DecidableEq Hash] (before after : List (ManifestRow Hash)) :
    Prop where
  patched : (diffManifests before after).1.foldl (upsertRow ManifestRow.path)
    (before.filter fun row => row.path ∉ (diffManifests before after).2) = after
  apart : ∀ row ∈ (diffManifests before after).1, row.path ∉ (diffManifests before after).2
  changed : ∀ row ∈ (diffManifests before after).1, row ∉ before

theorem diffManifests_exact {Hash : Type} [DecidableEq Hash] {before after : List (ManifestRow Hash)}
    (rising : Rising path before) (risingAfter : Rising path after) :
    DiffExact before after := by
  obtain ⟨changed, deleted⟩ := mem_diffRows rising risingAfter
  refine ⟨?_, fun row mem gone => ?_, fun row mem => ((changed row).mp mem).2⟩
  · unfold diffManifests
    convert diffRows_upserts rising risingAfter
  exact ((deleted row.path).mp gone).2 row ((changed row).mp mem).1 rfl

/-- What an update and the differences of manifests are to do. -/
structure ManifestLaws {Hash : Type} [DecidableEq Hash] (tree : WorkspaceTree Hash)
    (host : ManifestAnswers Hash) (changes : Changes) (admitted : List Path)
    (rows : List (ManifestRow Hash)) : Prop where
  merged : ManifestMerged tree.rows (tree.freshRows host changes admitted) changes rows
  diffs : ∀ before after : List (ManifestRow Hash), Rising ManifestRow.path before →
    Rising ManifestRow.path after → DiffExact before after

/-- **An update keeps the laws exactly where git answers with new paths only**, a member with an
unchanged row apart. -/
theorem updateRows_laws_iff {Hash : Type} [DecidableEq Hash] {tree : WorkspaceTree Hash}
    {host : ManifestAnswers Hash} {changes : Changes} {admitted : List Path}
    {rows : List (ManifestRow Hash)} (rising : Rising ManifestRow.path tree.rows)
    (found : tree.admitted host changes = some admitted)
    (updated : tree.updateRows host changes = some rows) :
    ManifestLaws tree host changes admitted rows ↔ AdmitsNew tree host changes admitted := by
  have merged : rows = tree.mergedRows host changes admitted := by
    rw [WorkspaceTree.updateRows, found] at updated
    simp only [Option.bind_eq_bind, Option.bind_some] at updated
    split at updated
    · exact absurd updated.symm (Option.some_ne_none rows)
    · exact (Option.some.inj updated).symm
  rw [← mergedRows_merged_iff rising found, merged]
  exact ⟨ManifestLaws.merged, fun merged => ⟨merged, fun _ _ => diffManifests_exact⟩⟩

/-! ### A new file, and a directory made again while its members are reported -/

/-- `"d"`, `"d/f"`, `"e"`. -/
def madeAgain : Path := [0x64]

def memberOfMadeAgain : Path := [0x64, 0x2F, 0x66]

def newFile : Path := [0x65]

def rowOf (path : Path) : WireRow := { path, hash := .zero }

/-- A repository in which the directory, its member and the new file exist; `git ls-files`
answers for the directory with the member. -/
def madeAgainHost : ManifestAnswers ContentHash where
  pathExists _ := true
  includes _ := true
  listGitRepository _ paths :=
    some (paths.map fun path => if path = madeAgain then memberOfMadeAgain else path)
  rowAt path := if path = madeAgain then none else some (rowOf path)
  rowAt_path path row read := by
    split at read
    · exact absurd read.symm (Option.some_ne_none row)
    · rw [← Option.some.inj read, rowOf]
  build := none

def madeAgainTree : WorkspaceTree ContentHash :=
  { built := true, lastGit := true, rows := [rowOf memberOfMadeAgain] }

theorem updateRows_laws_newFile : ManifestLaws madeAgainTree madeAgainHost ⟨[newFile], [], false⟩
    [newFile] [rowOf memberOfMadeAgain, rowOf newFile] := by
  have rising : Rising ManifestRow.path madeAgainTree.rows := pairwise_singleton _ _
  refine (updateRows_laws_iff rising (by decide) (by decide)).mpr ?_
  intro row mem memAdmitted
  obtain rfl := mem_singleton.mp mem
  exact absurd memAdmitted (by decide)

theorem updateRows_repeats : ¬∀ (tree : WorkspaceTree ContentHash) (host : ManifestAnswers ContentHash)
    (changes : Changes) (admitted : List Path) (rows : List WireRow),
    Rising ManifestRow.path tree.rows → tree.admitted host changes = some admitted →
      tree.updateRows host changes = some rows →
        ManifestLaws tree host changes admitted rows := by
  intro all
  obtain ⟨⟨rising, -⟩, -⟩ := all madeAgainTree madeAgainHost ⟨[madeAgain, memberOfMadeAgain], [], false⟩
    [memberOfMadeAgain] [rowOf memberOfMadeAgain, rowOf memberOfMadeAgain]
    (pairwise_singleton _ _) (by decide) (by decide)
  exact absurd (rel_of_pairwise_cons rising mem_cons_self) (lt_irrefl _)

end Microide.Remote
