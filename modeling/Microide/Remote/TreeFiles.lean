/-
Paths and files of a mirrored tree.

What both ends of a remote project know of a file: its path, relative to the tree's root, its
content, the content's hash and what `stat` tells of it. A write names what it expects to replace.
-/

import Mathlib
import Microide.Lib.OrderedTable

namespace Microide.Remote

open Lib

/-! ### Paths -/

/-- A path relative to a tree's root: its bytes. -/
abbrev Path := List UInt8

instance pathLawfulBEq : LawfulBEq Path := inferInstance

abbrev Content := List UInt8

instance byteOrder : LinearOrder UInt8 where
  le_refl := UInt8.le_refl
  le_trans _ _ _ := UInt8.le_trans
  le_antisymm _ _ := UInt8.le_antisymm
  le_total := UInt8.le_total
  lt_iff_le_not_ge a b := by
    rw [UInt8.lt_iff_le_and_ne]
    constructor
    · rintro ⟨le, ne⟩
      exact ⟨le, fun ge => ne (UInt8.le_antisymm le ge)⟩
    · rintro ⟨le, nge⟩
      exact ⟨le, fun same => nge (same ▸ UInt8.le_refl a)⟩
  toDecidableLE := inferInstance

/-- `'/'`. -/
def slash : UInt8 := 0x2F

def kMaxManifestPathBytes : Nat := 4096

def kMaxComponentBytes : Nat := 255

def isSafeComponent (component : Path) : Bool :=
  component ≠ [] && component ≠ [0x2E] && component ≠ [0x2E, 0x2E] &&
    component.length ≤ kMaxComponentBytes && component.all fun c => c ≠ 0 && c ≠ 0x5C

def isSafeRelativePath (path : Path) : Bool :=
  path.length ≤ kMaxManifestPathBytes && (path.splitOn slash).all isSafeComponent

/-- `path` itself, and for a directory everything under it. -/
def atOrUnder (path key : Path) : Bool :=
  key = path || (path ++ [slash]).isPrefixOf key

/-- The directories on the way to a path, outermost first, from what is already behind. -/
def parentsFrom (behind : Path) : Path → List Path
  | [] => []
  | c :: rest =>
      if c = slash then behind :: parentsFrom (behind ++ [c]) rest
      else parentsFrom (behind ++ [c]) rest

def parents (path : Path) : List Path := parentsFrom [] path

/-! ### Files -/

/-- What `stat` tells of a regular file. -/
structure FileStat where
  size : Nat := 0
  mtimeNs : Int := 0
  ctimeNs : Int := 0
  deriving DecidableEq

/-- The hash of a content, `util::HashContent`, and the one a default value holds. -/
class ContentHashing (Hash : Type) where
  hashContent : Content → Hash
  zeroHash : Hash

export ContentHashing (hashContent zeroHash)

/-- Contents as their own hashes. -/
instance : ContentHashing Content where
  hashContent content := content
  zeroHash := []

/-- What a write expects of the path it replaces. -/
inductive Precondition (Hash : Type) where
  | of (hash : Hash)
  | notThere
  | anything

end Microide.Remote
