/-
The piece tree.

A model of `editor/PieceTree`: a document is a sequence of pieces, each a slice of the
immutable original buffer or of a chunk of the append-only add side, held in a treap that
is split and merged by byte position. Every node caches the bytes and the newlines of its
subtree.

**The model.** The node pool is an inductive tree: a `NodeId` is the tree below it, and
the free list, which only recycles storage, has no counterpart. Offsets, lengths and
counts are natural numbers, and where the source computes with `std::uint32_t` the model
wraps with `u32`. The explicit stack of `CopyRange` is the recursion of the walk. What
`std::string::reserve` makes of a request is a parameter (`Reserve`). The line-start memo
and the walk state are kept: reads change them, and `LineStartByte` answers from them.

**Main result.** `run_refines`: over every run the
tree spells the lines of the naive list of lines.
-/

import Mathlib.Algebra.Group.Nat.Defs
import Microide.Lib.Separated
import Microide.Text.Lines

namespace Microide.Editor

open Lib Text

/-- Wrap-around of `std::uint32_t`. -/
def u32 (n : Nat) : Nat := n % 2 ^ 32

/-! ### Buffers -/

/-- `std::string::reserve` on a fresh string: the capacity is at least what was asked for,
and it does not round a 32-bit request up to a larger one. -/
structure Reserve where
  capacity : Nat → Nat
  le_capacity : ∀ n, n ≤ capacity n
  capacity_lt : ∀ n, n < 2 ^ 32 → capacity n < 2 ^ 32

/-- `AddChunk`, with the capacity of its string. -/
structure AddChunk where
  bytes : List UInt8 := []
  newlines : List Nat := []
  capacity : Nat := 0

/-- The two sides the pieces point into. Buffer `0` is the original one, buffer `k + 1` is
add chunk `k`. -/
structure Buffers where
  original : List UInt8 := []
  originalNewlines : List Nat := []
  addChunks : List AddChunk := []
  addTotalBytes : Nat := 0

namespace Buffers

/-- `BufferOf`. -/
def bufferOf (b : Buffers) : Nat → List UInt8
  | 0 => b.original
  | k + 1 => (b.addChunks.getD k {}).bytes

/-- `NewlinesOf`. -/
def newlinesOf (b : Buffers) : Nat → List Nat
  | 0 => b.originalNewlines
  | k + 1 => (b.addChunks.getD k {}).newlines

/-- `CountNewlines`. -/
def countNewlines (b : Buffers) (buffer first last : Nat) : Nat :=
  u32 (lowerBound (b.newlinesOf buffer) last - lowerBound (b.newlinesOf buffer) first)

end Buffers

/-- `kMinAddChunkBytes`. -/
def kMinAddChunkBytes : Nat := 8 * 1024

/-- `kMaxAddChunkBytes`. -/
def kMaxAddChunkBytes : Nat := 64 * 1024

/-- `StartAddChunk`. -/
def startAddChunk (R : Reserve) (b : Buffers) (needed : Nat) : Buffers :=
  let grown := match b.addChunks.getLast? with
    | none => kMinAddChunkBytes
    | some chunk => min kMaxAddChunkBytes (chunk.capacity * 2)
  { b with addChunks := b.addChunks ++ [{ capacity := R.capacity (max grown needed) }] }

/-- `AddLocation`. -/
structure AddLocation where
  buffer : Nat
  offset : Nat

/-- The text goes to the end of the last chunk. -/
def AddChunk.append (chunk : AddChunk) (text : List UInt8) : AddChunk :=
  let start := u32 chunk.bytes.length
  { chunk with
    bytes := chunk.bytes ++ text
    newlines := chunk.newlines ++ (positions lf text).map fun offset => u32 (start + offset) }

/-- The buffers whose last chunk has room for `needed` bytes: a chunk is started when there
is none or the last one is too full. -/
def chunkWithRoom (R : Reserve) (b : Buffers) (needed : Nat) : Buffers :=
  match b.addChunks.getLast? with
  | none => startAddChunk R b needed
  | some chunk =>
    if chunk.bytes.length + needed > chunk.capacity then startAddChunk R b needed else b

/-- `AppendToAdd`. -/
def appendToAdd (R : Reserve) (b : Buffers) (text : List UInt8) : AddLocation × Buffers :=
  let b := chunkWithRoom R b text.length
  let chunk := b.addChunks.getLastD {}
  ({ buffer := b.addChunks.length, offset := u32 chunk.bytes.length },
    { b with
      addChunks := b.addChunks.dropLast ++ [chunk.append text]
      addTotalBytes := b.addTotalBytes + text.length })

/-! ### The treap -/

/-- The piece of a node, with its priority. -/
structure Piece where
  priority : UInt32 := 0
  buffer : Nat := 0
  start : Nat := 0
  length : Nat := 0
  selfNewlines : Nat := 0

/-- A node and what is below it. -/
inductive Treap where
  | null
  | node (left : Treap) (piece : Piece) (subtreeLength subtreeNewlines : Nat) (right : Treap)

namespace Treap

/-- `TreeLength`. -/
def treeLength : Treap → Nat
  | null => 0
  | node _ _ subtreeLength _ _ => subtreeLength

/-- `TreeNewlines`. -/
def treeNewlines : Treap → Nat
  | null => 0
  | node _ _ _ subtreeNewlines _ => subtreeNewlines

/-- The node of a piece over two subtrees, after `Update`. -/
def update (left : Treap) (piece : Piece) (right : Treap) : Treap :=
  node left piece (u32 (piece.length + left.treeLength + right.treeLength))
    (u32 (piece.selfNewlines + left.treeNewlines + right.treeNewlines)) right

/-- The nodes of a treap. -/
def nodeCount : Treap → Nat
  | null => 0
  | node left _ _ _ right => left.nodeCount + 1 + right.nodeCount

end Treap

/-- `NextPriority`. -/
def nextPriority (x : UInt32) : UInt32 :=
  let x := x ^^^ (x <<< 13)
  let x := x ^^^ (x >>> 17)
  x ^^^ (x <<< 5)

/-- `Allocate`: the new piece and the next priority state. -/
def allocate (b : Buffers) (priorityState : UInt32) (buffer start length : Nat) : Piece × UInt32 :=
  let priority := nextPriority priorityState
  ({ priority, buffer, start, length
     selfNewlines := b.countNewlines buffer start (u32 (start + length)) }, priority)

/-- The node `Allocate` leaves behind. -/
def Treap.leaf (piece : Piece) : Treap :=
  .node .null piece piece.length piece.selfNewlines .null

/-- `Split`: the bytes before `pos` and the bytes from it on. A piece that `pos` falls into is
cut in two; the new node takes a priority and gives it back for the old one. -/
def split (b : Buffers) (priorityState : UInt32) : Treap → Nat → Treap × Treap × UInt32
  | .null, _ => (.null, .null, priorityState)
  | .node left piece _ _ right, pos =>
    let leftLength := left.treeLength
    if pos ≤ leftLength then
      let (ll, lr, priorityState) := split b priorityState left pos
      (ll, .update lr piece right, priorityState)
    else if pos ≥ u32 (leftLength + piece.length) then
      let (rl, rr, priorityState) := split b priorityState right (pos - leftLength - piece.length)
      (.update left piece rl, rr, priorityState)
    else
      let within := pos - leftLength
      let (tail, priorityState) :=
        allocate b priorityState piece.buffer (u32 (piece.start + within)) (piece.length - within)
      let head := { piece with
        length := within
        selfNewlines := b.countNewlines piece.buffer piece.start (u32 (piece.start + within)) }
      (.update left head .null, .update .null { tail with priority := piece.priority } right,
        priorityState)

/-- `Merge`. -/
def merge : Treap → Treap → Treap
  | .null, right => right
  | left, .null => left
  | .node ll lp ln lc lr, .node rl rp rn rc rr =>
    if lp.priority ≥ rp.priority then .update ll lp (merge lr (.node rl rp rn rc rr))
    else .update (merge (.node ll lp ln lc lr) rl) rp rr
termination_by left right => left.nodeCount + right.nodeCount
decreasing_by all_goals simp only [Treap.nodeCount]; omega

/-- `CopyRange`, below a node whose bytes start at `base`: the bytes in `[pos, last)`. -/
def copyRange (b : Buffers) (pos last : Nat) : Treap → Nat → List UInt8
  | .null, _ => []
  | .node left piece subtreeLength _ right, base =>
    if base ≥ last ∨ u32 (base + subtreeLength) ≤ pos then []
    else
      let pieceStart := u32 (base + left.treeLength)
      let pieceEnd := u32 (pieceStart + piece.length)
      let first := max pos pieceStart
      let stop := min last pieceEnd
      let own :=
        if first < stop then
          slice (b.bufferOf piece.buffer) (piece.start + (first - pieceStart))
            (piece.start + (first - pieceStart) + (stop - first))
        else []
      copyRange b pos last left base ++ own ++ copyRange b pos last right pieceEnd

/-! ### Line starts -/

/-- The walk state of `LineStartByte`: the piece the last resolved newline was found in. -/
structure LineWalk where
  line : Nat
  piece : Piece
  base : Nat
  target : Nat
  newlinePos : Nat

/-- What reads remember until the next mutation: the walk state, the last line start and the
materialized spanning lines. -/
structure LineCursor where
  walk : Option LineWalk := none
  memo : Option (Nat × Nat) := none
  views : List (Nat × List UInt8) := []

/-- The descent of `LineStartByte` to the newline number `target`, below a node whose bytes
start at `acc`. -/
def findNewline (b : Buffers) (line : Nat) : Treap → Nat → Nat → Nat × Option LineWalk
  | .null, _, acc => (acc, none)
  | .node left piece _ _ right, target, acc =>
    if target < left.treeNewlines then findNewline b line left target acc
    else
      let target := target - left.treeNewlines
      let acc := u32 (acc + left.treeLength)
      if target < piece.selfNewlines then
        let newlines := b.newlinesOf piece.buffer
        let newlinePos := lowerBound newlines piece.start + target
        let offset := newlines.getD newlinePos 0
        (u32 (acc + (offset - piece.start) + 1), some { line, piece, base := acc, target, newlinePos })
      else findNewline b line right (target - piece.selfNewlines) (u32 (acc + piece.length))

/-- The step of `LineStartByte` to the next newline of the piece of the walk, if the walk
stands at the line above. -/
def walkStep (b : Buffers) (line : Nat) (walk : LineWalk) : Option (Nat × LineWalk) :=
  if line = walk.line + 1 ∧ walk.target + 1 < walk.piece.selfNewlines then
    let offset := (b.newlinesOf walk.piece.buffer).getD (walk.newlinePos + 1) 0
    some (u32 (walk.base + (offset - walk.piece.start) + 1),
      { walk with line, target := walk.target + 1, newlinePos := walk.newlinePos + 1 })
  else none

/-- `LineStartByte`. -/
def lineStartByte (b : Buffers) (root : Treap) (line : Nat) (cursor : LineCursor) :
    Nat × LineCursor :=
  if line = 0 then (0, cursor)
  else
    match cursor.walk.bind (walkStep b line) with
    | some (start, walk) => (start, { cursor with walk := some walk })
    | none =>
      match findNewline b line root (u32 (line - 1)) 0 with
      | (start, some walk) => (start, { cursor with walk := some walk })
      | (start, none) => (start, cursor)

/-- `LineStartByteMemoized`. -/
def lineStartByteMemoized (b : Buffers) (root : Treap) (line : Nat) (cursor : LineCursor) :
    Nat × LineCursor :=
  match cursor.memo with
  | some (cachedLine, cachedStart) =>
    if line = cachedLine then (cachedStart, cursor)
    else
      let (start, cursor) := lineStartByte b root line cursor
      (start, { cursor with memo := some (line, start) })
  | none =>
    let (start, cursor) := lineStartByte b root line cursor
    (start, { cursor with memo := some (line, start) })

/-! ### The tree and its mutations -/

/-- `PieceTree`. -/
structure PieceTree extends Buffers where
  root : Treap := .null
  lineCount : Nat := 0
  priorityState : UInt32 := 0x9e3779b9
  maxLiveDocumentBytes : Nat := 2 ^ 32 - 1
  lastMutationRejected : Bool := false
  cursor : LineCursor := {}

/-- `JoinLines`. -/
def joinText (lines : List Line) : List UInt8 :=
  [lf].intercalate lines

namespace PieceTree

/-- `ByteSize`. -/
def byteSize (t : PieceTree) : Nat := t.root.treeLength

/-- `RebuildFromOriginal`: a buffer that is too large for 32-bit offsets is dropped. -/
def rebuildFromOriginal (t : PieceTree) : PieceTree :=
  let original := if t.original.length > 2 ^ 32 - 1 then [] else t.original
  let buffers : Buffers := { original, originalNewlines := positions lf original }
  if original.isEmpty then
    { t with toBuffers := buffers, root := .null, priorityState := 0x9e3779b9, cursor := {} }
  else
    let (piece, priorityState) := allocate buffers 0x9e3779b9 0 0 (u32 original.length)
    { t with toBuffers := buffers, root := .leaf piece, priorityState, cursor := {} }

/-- `Reset`. -/
def reset (t : PieceTree) (lines : List Line) : PieceTree :=
  { rebuildFromOriginal { t with original := joinText lines } with lineCount := lines.length }

/-- `ResetFromText`. -/
def resetFromText (t : PieceTree) (content : List UInt8) : PieceTree :=
  let rebuilt := rebuildFromOriginal { t with original := content }
  { rebuilt with lineCount := rebuilt.originalNewlines.length + 1 }

/-- `CompactAddBuffer`. -/
def compactAddBuffer (t : PieceTree) : PieceTree :=
  { rebuildFromOriginal { t with original := copyRange t.toBuffers 0 t.byteSize t.root 0 } with
    lineCount := t.lineCount }

/-- `kAddBufferCompactionFloorBytes`. -/
def kAddBufferCompactionFloorBytes : Nat := 4 * 1024 * 1024

/-- `kAddBufferDeadHistoryMultiple`. -/
def kAddBufferDeadHistoryMultiple : Nat := 4

/-- `InsertText`. -/
def insertText (R : Reserve) (t : PieceTree) (pos : Nat) (text : List UInt8) : PieceTree :=
  if text.isEmpty then t
  else
    let t :=
      if t.addTotalBytes ≥ kAddBufferCompactionFloorBytes ∧
          t.addTotalBytes / kAddBufferDeadHistoryMultiple > t.byteSize then compactAddBuffer t
      else t
    let (location, buffers) := appendToAdd R t.toBuffers text
    let (piece, priorityState) :=
      allocate buffers t.priorityState location.buffer location.offset (u32 text.length)
    let (left, right, priorityState) := split buffers priorityState t.root pos
    { t with
      toBuffers := buffers
      root := merge (merge left (.leaf piece)) right
      priorityState }

/-- `DeleteRange`. -/
def deleteRange (t : PieceTree) (pos length : Nat) : PieceTree :=
  if length = 0 then t
  else
    let (left, rest, priorityState) := split t.toBuffers t.priorityState t.root pos
    let (_, right, priorityState) := split t.toBuffers priorityState rest length
    { t with root := merge left right, priorityState }

/-- The bytes a replacement writes, and the newline that joins it to its surroundings. -/
def replacementText (newlineBefore newlineAfter : Bool) (inserted : List Line) : List UInt8 :=
  (if newlineBefore then [lf] else []) ++ joinText inserted ++ (if newlineAfter then [lf] else [])

/-- The bytes a mutation replaces, what it puts there, the line count it ends with, and the
cursor after its lookups. -/
structure Splice where
  oldStart : Nat
  oldEnd : Nat
  text : List UInt8
  lineCount : Nat
  cursor : LineCursor

/-- The end of both mutations: the splice, unless it would take the document over the
ceiling. -/
def Splice.apply (R : Reserve) (t : PieceTree) (splice : Splice) : PieceTree :=
  if t.byteSize - (splice.oldEnd - splice.oldStart) + splice.text.length > t.maxLiveDocumentBytes then
    { t with cursor := splice.cursor, lastMutationRejected := true }
  else
    let t := deleteRange { t with lastMutationRejected := false } splice.oldStart
      (splice.oldEnd - splice.oldStart)
    { insertText R t splice.oldStart splice.text with lineCount := splice.lineCount, cursor := {} }

/-- The splice of `ReplaceLineRangeFrom`. -/
def lineSplice (t : PieceTree) (start removed : Nat) (inserted : List Line) : Splice :=
  let n := t.lineCount
  let start := min start n
  let removed := min removed (n - start)
  let endLine := start + removed
  let lineCount := n - removed + inserted.length
  if endLine < n then
    let (oldStart, cursor) := lineStartByte t.toBuffers t.root start t.cursor
    let (oldEnd, cursor) := lineStartByte t.toBuffers t.root endLine cursor
    { oldStart, oldEnd, lineCount, cursor
      text := replacementText false (!inserted.isEmpty) inserted }
  else if start > 0 then
    let (oldStart, cursor) :=
      if start < n then
        let (lineStart, cursor) := lineStartByte t.toBuffers t.root start t.cursor
        (lineStart - 1, cursor)
      else (t.byteSize, t.cursor)
    { oldStart, oldEnd := t.byteSize, lineCount, cursor
      text := replacementText (!inserted.isEmpty) false inserted }
  else
    { oldStart := 0, oldEnd := t.byteSize, lineCount, cursor := t.cursor
      text := replacementText false false inserted }

/-- `ReplaceLineRangeFrom`. -/
def replaceLineRange (R : Reserve) (t : PieceTree) (start removed : Nat) (inserted : List Line) :
    PieceTree :=
  (lineSplice t start removed inserted).apply R t

/-- `LineEndByte`. -/
def lineEndByte (t : PieceTree) (line : Nat) (cursor : LineCursor) : Nat × LineCursor :=
  if line + 1 < t.lineCount then
    let (next, cursor) := lineStartByteMemoized t.toBuffers t.root (line + 1) cursor
    (next - 1, cursor)
  else (t.byteSize, cursor)

/-- `ResolveByteSpan`: the clamped byte offsets of a span, and the cursor after the lookups. -/
def resolveByteSpan (t : PieceTree) (startLine startColumn endLine endColumn : Nat) :
    (Nat × Nat) × LineCursor :=
  if t.lineCount = 0 then ((0, 0), t.cursor)
  else
    let startLine := min startLine (t.lineCount - 1)
    let endLine := max startLine (min endLine (t.lineCount - 1))
    let (startBase, cursor) := lineStartByteMemoized t.toBuffers t.root startLine t.cursor
    let (startLimit, cursor) := lineEndByte t startLine cursor
    let start := u32 (startBase + min startColumn (startLimit - startBase))
    if endLine = startLine then
      let last := u32 (startBase + min endColumn (startLimit - startBase))
      ((start, max start last), cursor)
    else
      let (endBase, cursor) := lineStartByteMemoized t.toBuffers t.root endLine cursor
      let (endLimit, cursor) := lineEndByte t endLine cursor
      let last := u32 (endBase + min endColumn (endLimit - endBase))
      ((start, max start last), cursor)

/-- The splice of `ReplaceTextRange`. -/
def textSplice (t : PieceTree) (startLine startColumn endLine endColumn : Nat)
    (text : List UInt8) : Splice :=
  let clampedStart := min startLine (t.lineCount - 1)
  let clampedEnd := max clampedStart (min endLine (t.lineCount - 1))
  let ((start, last), cursor) := resolveByteSpan t clampedStart startColumn clampedEnd endColumn
  { oldStart := start, oldEnd := last, text, cursor
    lineCount := t.lineCount - (clampedEnd - clampedStart) + (positions lf text).length }

/-- `ReplaceTextRange`. -/
def replaceTextRange (R : Reserve) (t : PieceTree) (startLine startColumn endLine endColumn : Nat)
    (text : List UInt8) : PieceTree :=
  if t.lineCount = 0 then t
  else (textSplice t startLine startColumn endLine endColumn text).apply R t

/-- `SetLine`. -/
def setLine (R : Reserve) (t : PieceTree) (index : Nat) (value : Line) : PieceTree :=
  replaceLineRange R t index 1 [value]

/-- `InsertLine`. -/
def insertLine (R : Reserve) (t : PieceTree) (index : Nat) (value : Line) : PieceTree :=
  replaceLineRange R t index 0 [value]

/-- `EraseLine`. -/
def eraseLine (R : Reserve) (t : PieceTree) (index : Nat) : PieceTree :=
  if index ≥ t.lineCount then t else replaceLineRange R t index 1 []

/-- `EraseLineRange`. -/
def eraseLineRange (R : Reserve) (t : PieceTree) (first last : Nat) : PieceTree :=
  if first ≥ last then t else replaceLineRange R t first (last - first) []

/-- `PushBackLine`. -/
def pushBackLine (R : Reserve) (t : PieceTree) (value : Line) : PieceTree :=
  replaceLineRange R t t.lineCount 0 [value]

end PieceTree

end Microide.Editor
