/-
The mirror's record of its paths.

Per path, what the host last reported and the base: the content the host and the mirror
last agreed on. With them the tree operations not acknowledged yet and the manifest the
rows come from. Where the state is written to disk, and when, is left out.
-/

import Microide.Remote.TreeFiles

namespace Microide.Remote

open Lib

inductive ManifestEntryKind where
  | file
  | symlink
  | submodule
  deriving DecidableEq

/-- What the host's content set holds at a path. -/
structure ManifestRow (Hash : Type) where
  path : Path
  kind : ManifestEntryKind := .file
  size : Nat := 0
  mode : Nat := 0
  mtimeNs : Int := 0
  hash : Hash
  linkTarget : Path := []
  deriving DecidableEq

/-- A row without its path. -/
structure RemoteContent (Hash : Type) where
  hash : Hash
  size : Nat := 0
  mtimeNs : Int := 0
  mode : Nat := 0
  kind : ManifestEntryKind := .file
  linkTarget : Path := []
  deriving DecidableEq

def ManifestRow.content {Hash : Type} (row : ManifestRow Hash) : RemoteContent Hash where
  hash := row.hash
  size := row.size
  mtimeNs := row.mtimeNs
  mode := row.mode
  kind := row.kind
  linkTarget := row.linkTarget

structure Entry (Hash : Type) where
  remote : RemoteContent Hash
  /-- The content the host and the mirror last agreed on. -/
  base : Option Hash := none
  hasRemote : Bool := false
  /-- `localStat` is known to be that of a file that holds `base`. -/
  localKnown : Bool := false
  /-- The local bytes are newer than the base and not acknowledged. -/
  pushPending : Bool := false
  /-- The host and the mirror both moved from the base. -/
  conflict : Bool := false
  /-- Made here and not in the host's content set. -/
  localOnly : Bool := false
  localStat : FileStat := {}
  /-- The host's newest manifest when it acknowledged this path's last push. -/
  pushedManifest : Nat := 0
  /-- The path a refused rename moved this from. -/
  renamedFrom : Path := []
  /-- The bytes of pushes whose answer never came, newest last. -/
  unacknowledged : List Hash := []
  deriving DecidableEq

inductive PendingTreeOp where
  | createDirectory (path : Path)
  | rename (path newPath : Path)
  | delete (path : Path)

variable {Hash : Type} [DecidableEq Hash] [ContentHashing Hash]

/-- What `entries[path]` makes where there is none. -/
def Entry.fresh : Entry Hash := { remote := { hash := zeroHash } }

abbrev Entries (Hash : Type) := OrderedTable Path (Entry Hash)

/-- `entries[path]`. -/
def Entries.at (entries : Entries Hash) (path : Path) : Entry Hash :=
  (entries.find path).getD .fresh

end Microide.Remote
