/-
The byte ceiling.

Offsets, lengths and newline counts of the piece tree are 32 bits wide. For every modelled
function this module lists the sums it computes, and the sizes it narrows, before they are
wrapped; a sum of several terms stands for its partial sums. None of them reaches `2 ^ 32`
in any run.

**Main result.** `byteCeiling_sufficient`.
-/

import Microide.Editor.PieceTreeRefinement

namespace Microide.Editor

open List Lib Text Treap

/-- Every listed number fits into 32 bits. -/
def Fits (sums : List Nat) : Prop := ∀ n ∈ sums, n < 2 ^ 32

@[simp] theorem fits_nil : Fits [] := by simp [Fits]

@[simp] theorem fits_cons {n : Nat} {sums : List Nat} : Fits (n :: sums) ↔ n < 2 ^ 32 ∧ Fits sums := by
  simp [Fits]

@[simp] theorem fits_append {sums more : List Nat} : Fits (sums ++ more) ↔ Fits sums ∧ Fits more := by
  simp only [Fits, mem_append]
  exact ⟨fun h => ⟨fun n hn => h n (.inl hn), fun n hn => h n (.inr hn)⟩,
    fun h n hn => hn.elim (h.1 n) (h.2 n)⟩

/-! ### The sums of the treap -/

/-- The sums of `Update`. -/
def updateSums (left : Treap) (piece : Piece) (right : Treap) : List Nat :=
  [piece.length + left.treeLength + right.treeLength,
    piece.selfNewlines + left.treeNewlines + right.treeNewlines]

/-- The sums of `Split`. -/
def splitSums (b : Buffers) (priorityState : UInt32) : Treap → Nat → List Nat
  | .null, _ => []
  | .node left piece _ _ right, pos =>
    let leftLength := left.treeLength
    if pos ≤ leftLength then
      splitSums b priorityState left pos ++
        updateSums (split b priorityState left pos).2.1 piece right
    else if pos ≥ u32 (leftLength + piece.length) then
      (leftLength + piece.length) ::
        splitSums b priorityState right (pos - leftLength - piece.length) ++
        updateSums left piece (split b priorityState right (pos - leftLength - piece.length)).1
    else
      let within := pos - leftLength
      let tail := allocate b priorityState piece.buffer (u32 (piece.start + within))
        (piece.length - within)
      let head := { piece with
        length := within
        selfNewlines := b.countNewlines piece.buffer piece.start (u32 (piece.start + within)) }
      [leftLength + piece.length, piece.start + within,
          u32 (piece.start + within) + (piece.length - within)] ++
        updateSums .null { tail.1 with priority := piece.priority } right ++
        updateSums left head .null

/-- The sums of `Merge`. -/
def mergeSums : Treap → Treap → List Nat
  | .null, _ => []
  | .node _ _ _ _ _, .null => []
  | .node ll lp ln lc lr, .node rl rp rn rc rr =>
    if lp.priority ≥ rp.priority then
      mergeSums lr (.node rl rp rn rc rr) ++ updateSums ll lp (merge lr (.node rl rp rn rc rr))
    else
      mergeSums (.node ll lp ln lc lr) rl ++ updateSums (merge (.node ll lp ln lc lr) rl) rp rr
termination_by left right => left.nodeCount + right.nodeCount
decreasing_by all_goals simp only [Treap.nodeCount]; omega

/-- The sums of the walks of `CopyRange` and `ExtractLineRangeInto` below a node whose bytes
start at `base`. Both prune subtrees, and the second may stop early. -/
def walkSums : Treap → Nat → List Nat
  | .null, _ => []
  | .node left piece subtreeLength _ right, base =>
    let pieceStart := u32 (base + left.treeLength)
    let pieceEnd := u32 (pieceStart + piece.length)
    [base + left.treeLength, pieceStart + piece.length, base + subtreeLength] ++
      walkSums left base ++ walkSums right pieceEnd

section Treap

variable {b : Buffers}

theorem updateSums_fit {left right : Treap} {piece : Piece} (hleft : left.Valid b)
    (hpiece : piece.Valid b) (hright : right.Valid b)
    (hsize : (left.text b ++ piece.text b ++ right.text b).length < 2 ^ 32) :
    Fits (updateSums left piece right) := by
  have hcount := count_le_length (a := lf) (l := left.text b ++ piece.text b ++ right.text b)
  simp only [length_append, count_append] at hsize hcount
  have hlength := hpiece.length_text
  simp only [updateSums, fits_cons, fits_nil, and_true, treeLength_eq hleft,
    treeLength_eq hright, treeNewlines_eq hleft, treeNewlines_eq hright,
    hpiece.newlines]
  omega

theorem splitSums_fit (h : b.Valid) (priorityState : UInt32) {t : Treap} (ht : t.Valid b)
    (hsize : (t.text b).length < 2 ^ 32) (pos : Nat) : Fits (splitSums b priorityState t pos) := by
  induction t generalizing pos with
  | null => simp [splitSums]
  | node left piece subtreeLength subtreeNewlines right ihl ihr =>
      obtain ⟨hleft, hpiece, hright, -, -⟩ := ht
      have hlength := hpiece.length_text
      have hwithin := hpiece.within
      have hbuffer := h.length_lt piece.buffer
      simp only [text, length_append] at hsize
      rw [splitSums]
      simp only [treeLength_eq hleft, u32_of_lt
        (show (left.text b).length + piece.length < 2 ^ 32 by omega)]
      split
      · obtain ⟨-, -, hlr, htextlr⟩ := split_spec h priorityState hleft (by omega) pos
        rw [fits_append]
        refine ⟨ihl hleft (by omega) pos, updateSums_fit hlr hpiece hright ?_⟩
        rw [htextlr]
        simp only [length_append, length_drop]
        omega
      · split
        · obtain ⟨hrl, htextrl, -, -⟩ := split_spec h priorityState hright (by omega)
            (pos - (left.text b).length - piece.length)
          rw [fits_append, fits_cons]
          refine ⟨⟨by omega, ihr hright (by omega) _⟩, updateSums_fit hleft hpiece hrl ?_⟩
          rw [htextrl]
          simp only [length_append, length_take]
          omega
        · obtain ⟨hhead, htextHead, htail, htextTail⟩ := Piece.Valid.cut h hpiece
            (show pos - (left.text b).length ≤ piece.length by omega) priorityState
          rw [fits_append, fits_append]
          refine ⟨⟨?_, updateSums_fit trivial htail hright ?_⟩,
            updateSums_fit hleft hhead trivial ?_⟩
          · rw [u32_of_lt (by omega)]
            simp only [fits_cons, fits_nil, and_true]
            omega
          · rw [htextTail]
            simp only [text, length_append, length_drop, length_nil]
            omega
          · rw [htextHead]
            simp only [text, length_append, length_take, length_nil]
            omega

theorem mergeSums_fit {left right : Treap} (hleft : left.Valid b) (hright : right.Valid b)
    (hsize : (left.text b ++ right.text b).length < 2 ^ 32) : Fits (mergeSums left right) := by
  induction left, right using mergeSums.induct with
  | case1 right => simp [mergeSums]
  | case2 => simp [mergeSums]
  | case3 ll lp ln lc lr rl rp rn rc rr hpriority ih =>
      obtain ⟨hll, hlp, hlr, -, -⟩ := hleft
      simp only [text, length_append] at hsize
      have hsmall : (lr.text b ++ (node rl rp rn rc rr).text b).length < 2 ^ 32 := by
        simp only [text, length_append]
        omega
      obtain ⟨hvalid, htext⟩ := merge_spec hlr hright hsmall
      rw [mergeSums, if_pos hpriority, fits_append]
      refine ⟨ih hlr hright hsmall, updateSums_fit hll hlp hvalid ?_⟩
      rw [htext]
      simp only [text, length_append]
      omega
  | case4 ll lp ln lc lr rl rp rn rc rr hpriority ih =>
      obtain ⟨hrl, hrp, hrr, -, -⟩ := hright
      simp only [text, length_append] at hsize
      have hsmall : ((node ll lp ln lc lr).text b ++ rl.text b).length < 2 ^ 32 := by
        simp only [text, length_append]
        omega
      obtain ⟨hvalid, htext⟩ := merge_spec hleft hrl hsmall
      rw [mergeSums, if_neg hpriority, fits_append]
      refine ⟨ih hleft hrl hsmall, updateSums_fit hvalid hrp hrr ?_⟩
      rw [htext]
      simp only [text, length_append]
      omega

theorem walkSums_fit {t : Treap} (ht : t.Valid b) {base : Nat}
    (hsize : base + (t.text b).length < 2 ^ 32) : Fits (walkSums t base) := by
  induction t generalizing base with
  | null => simp [walkSums]
  | node left piece subtreeLength subtreeNewlines right ihl ihr =>
      obtain ⟨hleft, hpiece, hright, hlength, -⟩ := ht
      have hpieceLength := hpiece.length_text
      simp only [text, length_append] at hsize hlength
      rw [walkSums, treeLength_eq hleft, hlength,
        u32_of_lt (show base + (left.text b).length < 2 ^ 32 by omega),
        u32_of_lt (show base + (left.text b).length + piece.length < 2 ^ 32 by omega), fits_append,
        fits_append]
      refine ⟨⟨?_, ihl hleft (by omega)⟩, ihr hright (by omega)⟩
      simp only [fits_cons, fits_nil, and_true]
      omega

end Treap

/-! ### The sums of the buffers -/

/-- The sums of `AppendToAdd`: the size of the chunk before and after, and the newline
offsets. -/
def appendToAddSums (R : Reserve) (b : Buffers) (text : List UInt8) : List Nat :=
  let chunk := (chunkWithRoom R b text.length).addChunks.getLastD {}
  [chunk.bytes.length, chunk.bytes.length + text.length] ++
    (positions lf text).map fun offset => chunk.bytes.length + offset

theorem appendToAddSums_fit (R : Reserve) {b : Buffers} (h : b.Valid) {text : List UInt8}
    (hsize : text.length < 2 ^ 32) : Fits (appendToAddSums R b text) := by
  obtain ⟨init, chunk, htarget, -, -, -, hroom, hcapacity⟩ := chunkWithRoom_spec R h hsize
  have hlast : (chunkWithRoom R b text.length).addChunks.getLastD {} = chunk := by simp [htarget]
  unfold appendToAddSums
  rw [hlast, fits_append]
  refine ⟨by simp only [fits_cons, fits_nil, and_true]; omega, ?_⟩
  intro n hn
  obtain ⟨offset, hoffset, rfl⟩ := mem_map.mp hn
  have := lt_of_mem_positions lf hoffset
  omega

/-- The sizes and offsets `RebuildFromOriginal` narrows, once it has dropped a buffer that is
too large. -/
def rebuildSums (original : List UInt8) : List Nat :=
  let original := if original.length > 2 ^ 32 - 1 then [] else original
  original.length :: positions lf original

theorem rebuildSums_fit (original : List UInt8) : Fits (rebuildSums original) := by
  have hfits (text : List UInt8) (hsize : text.length < 2 ^ 32) :
      Fits (text.length :: positions lf text) := by
    refine fits_cons.mpr ⟨hsize, fun n hn => ?_⟩
    have := lt_of_mem_positions lf hn
    omega
  unfold rebuildSums
  split
  · exact hfits [] (by simp)
  · exact hfits original (by omega)

namespace PieceTree

/-- The sums of `CompactAddBuffer`. -/
def compactSums (t : PieceTree) : List Nat :=
  t.byteSize :: walkSums t.root 0 ++ rebuildSums (copyRange t.toBuffers 0 t.byteSize t.root 0)

/-- The sums of the part of `InsertText` after the compaction. -/
def insertPieceSums (R : Reserve) (t : PieceTree) (pos : Nat) (text : List UInt8) : List Nat :=
  let location := (appendToAdd R t.toBuffers text).1
  let buffers := (appendToAdd R t.toBuffers text).2
  let allocated := allocate buffers t.priorityState location.buffer location.offset (u32 text.length)
  let halves := split buffers allocated.2 t.root pos
  text.length :: appendToAddSums R t.toBuffers text ++
    (location.offset + u32 text.length) :: splitSums buffers allocated.2 t.root pos ++
    mergeSums halves.1 (.leaf allocated.1) ++ mergeSums (merge halves.1 (.leaf allocated.1)) halves.2.1

/-- The sums of `InsertText`. -/
def insertTextSums (R : Reserve) (t : PieceTree) (pos : Nat) (text : List UInt8) : List Nat :=
  if text.isEmpty then []
  else if t.addTotalBytes ≥ kAddBufferCompactionFloorBytes ∧
      t.addTotalBytes / kAddBufferDeadHistoryMultiple > t.byteSize then
    compactSums t ++ insertPieceSums R (compactAddBuffer t) pos text
  else insertPieceSums R t pos text

/-- The sums of `DeleteRange`. -/
def deleteRangeSums (t : PieceTree) (pos length : Nat) : List Nat :=
  if length = 0 then []
  else
    let cut := split t.toBuffers t.priorityState t.root pos
    let cut' := split t.toBuffers cut.2.2 cut.2.1 length
    splitSums t.toBuffers t.priorityState t.root pos ++ splitSums t.toBuffers cut.2.2 cut.2.1 length ++
      mergeSums cut.1 cut'.2.1

/-- The sums of a splice. -/
def Splice.sums (R : Reserve) (t : PieceTree) (splice : Splice) : List Nat :=
  if t.byteSize - (splice.oldEnd - splice.oldStart) + splice.text.length > t.maxLiveDocumentBytes then []
  else
    let cleared := { t with lastMutationRejected := false }
    deleteRangeSums cleared splice.oldStart (splice.oldEnd - splice.oldStart) ++
      insertTextSums R (deleteRange cleared splice.oldStart (splice.oldEnd - splice.oldStart))
        splice.oldStart splice.text

variable {t : PieceTree} {text : List UInt8}

theorem compactSums_fit (h : t.Holds text) : Fits (compactSums t) := by
  have hwalk := @walkSums_fit t.toBuffers t.root h.root 0 (by
    rw [h.text, Nat.zero_add]
    exact h.fits)
  rw [compactSums, fits_append, fits_cons, h.byteSize]
  exact ⟨⟨h.fits, hwalk⟩, rebuildSums_fit _⟩

theorem insertPieceSums_fit (R : Reserve) (h : t.Holds text) (pos : Nat) {inserted : List UInt8}
    (hsize : text.length + inserted.length < 2 ^ 32) : Fits (insertPieceSums R t pos inserted) := by
  obtain ⟨hbuffers, hextends, hroom, hstored⟩ := appendToAdd_spec R h.buffers
    (show inserted.length < 2 ^ 32 by omega)
  obtain ⟨htext, hroot⟩ := h.root.extend hextends
  rw [h.text] at htext
  have hcast : u32 inserted.length = inserted.length := u32_of_lt (by omega)
  obtain ⟨hpiece, hpieceText⟩ := valid_allocate hbuffers t.priorityState hroom
  rw [hstored] at hpieceText
  have hend := hbuffers.length_lt (appendToAdd R t.toBuffers inserted).1.buffer
  unfold insertPieceSums
  dsimp only
  rw [hcast]
  generalize allocate (appendToAdd R t.toBuffers inserted).2 t.priorityState
    (appendToAdd R t.toBuffers inserted).1.buffer (appendToAdd R t.toBuffers inserted).1.offset
    inserted.length = allocated at *
  obtain ⟨hleft, hleftText, hright, hrightText⟩ := split_spec hbuffers allocated.2 hroot
    (by rw [htext]; exact h.fits) pos
  rw [htext] at hleftText hrightText
  have hjoinSize : (((split (appendToAdd R t.toBuffers inserted).2 allocated.2 t.root pos).1.text
      (appendToAdd R t.toBuffers inserted).2) ++
      (leaf allocated.1).text (appendToAdd R t.toBuffers inserted).2).length < 2 ^ 32 := by
    rw [hleftText, text_leaf, hpieceText, length_append, length_take]
    omega
  obtain ⟨hjoin, hjoinText⟩ := merge_spec hleft (valid_leaf hpiece) hjoinSize
  rw [hleftText, text_leaf, hpieceText] at hjoinText
  simp only [fits_append, fits_cons]
  refine ⟨⟨⟨⟨by omega, appendToAddSums_fit R h.buffers (by omega)⟩, by omega,
    splitSums_fit hbuffers allocated.2 hroot (by rw [htext]; exact h.fits) pos⟩,
    mergeSums_fit hleft (valid_leaf hpiece) hjoinSize⟩, mergeSums_fit hjoin hright ?_⟩
  rw [hjoinText, hrightText, length_append, length_append, length_take, length_drop]
  omega

theorem insertTextSums_fit (R : Reserve) (h : t.Holds text) (pos : Nat) {inserted : List UInt8}
    (hsize : text.length + inserted.length < 2 ^ 32) : Fits (insertTextSums R t pos inserted) := by
  unfold insertTextSums
  split
  · exact fits_nil
  · split
    · rw [fits_append]
      exact ⟨compactSums_fit h, insertPieceSums_fit R (compactAddBuffer_holds h) pos hsize⟩
    · exact insertPieceSums_fit R h pos hsize

theorem deleteRangeSums_fit (h : t.Holds text) (pos length : Nat) :
    Fits (deleteRangeSums t pos length) := by
  have hfits := h.fits
  unfold deleteRangeSums
  split
  · exact fits_nil
  · obtain ⟨hleft, hleftText, hrest, hrestText⟩ := split_spec h.buffers t.priorityState h.root
      (by rw [h.text]; exact h.fits) pos
    rw [h.text] at hleftText hrestText
    have hrestSize : ((split t.toBuffers t.priorityState t.root pos).2.1.text t.toBuffers).length <
        2 ^ 32 := by
      rw [hrestText, length_drop]
      omega
    obtain ⟨-, -, hright, hrightText⟩ := split_spec h.buffers
      (split t.toBuffers t.priorityState t.root pos).2.2 hrest hrestSize length
    rw [hrestText, drop_drop] at hrightText
    simp only [fits_append]
    refine ⟨⟨splitSums_fit h.buffers _ h.root (by rw [h.text]; exact hfits) pos,
      splitSums_fit h.buffers _ hrest hrestSize length⟩, mergeSums_fit hleft hright ?_⟩
    rw [hleftText, hrightText, length_append, length_take, length_drop]
    omega

theorem Splice.sums_fit (R : Reserve) (h : t.Holds text) (hceiling : t.maxLiveDocumentBytes < 2 ^ 32)
    {splice : Splice} (hle : splice.oldStart ≤ splice.oldEnd) (hend : splice.oldEnd ≤ text.length) :
    Fits (splice.sums R t) := by
  have hcleared : ({ t with lastMutationRejected := false } : PieceTree).Holds text :=
    ⟨h.buffers, h.root, h.fits, h.text⟩
  unfold Splice.sums
  split
  · exact fits_nil
  · next hbelow =>
    rw [h.byteSize] at hbelow
    rw [fits_append]
    refine ⟨deleteRangeSums_fit hcleared _ _,
      insertTextSums_fit R (deleteRange_holds hcleared _ _) _ ?_⟩
    simp only [length_append, length_take, length_drop]
    omega

end PieceTree

/-! ### The sums of line lookups -/

/-- The sums of the descent of `LineStartByte`. -/
def findNewlineSums (b : Buffers) : Treap → Nat → Nat → List Nat
  | .null, _, _ => []
  | .node left piece _ _ right, target, acc =>
    if target < left.treeNewlines then findNewlineSums b left target acc
    else
      let target := target - left.treeNewlines
      (acc + left.treeLength) ::
        let acc := u32 (acc + left.treeLength)
        if target < piece.selfNewlines then
          let newlines := b.newlinesOf piece.buffer
          let offset := newlines.getD (lowerBound newlines piece.start + target) 0
          [acc + (offset - piece.start) + 1]
        else
          (acc + piece.length) ::
            findNewlineSums b right (target - piece.selfNewlines) (u32 (acc + piece.length))

/-- The sums of `LineStartByte`. -/
def lineStartByteSums (b : Buffers) (root : Treap) (line : Nat) (cursor : LineCursor) : List Nat :=
  if line = 0 then []
  else
    match cursor.walk.bind (walkStep b line) with
    | some (_, walk) =>
      [walk.base + ((b.newlinesOf walk.piece.buffer).getD walk.newlinePos 0 - walk.piece.start) + 1]
    | none => (line - 1) :: findNewlineSums b root (u32 (line - 1)) 0

/-- The sums of `LineStartByteMemoized`, as if it never met its memo. -/
def lineStartByteMemoizedSums (b : Buffers) (root : Treap) (line : Nat) (cursor : LineCursor) :
    List Nat :=
  lineStartByteSums b root line cursor

theorem findNewlineSums_fit {b : Buffers} (h : b.Valid) {t : Treap} (ht : t.Valid b)
    (target acc : Nat) (hsize : acc + (t.text b).length < 2 ^ 32)
    (htarget : target < (t.text b).count lf) : Fits (findNewlineSums b t target acc) := by
  induction t generalizing target acc with
  | null => simp [findNewlineSums]
  | node left piece subtreeLength subtreeNewlines right ihl ihr =>
      obtain ⟨hleft, hpiece, hright, -, -⟩ := ht
      have hlength := hpiece.length_text
      rw [text, length_append, length_append] at hsize
      rw [text, count_append, count_append] at htarget
      rw [findNewlineSums, treeNewlines_eq hleft, treeLength_eq hleft]
      split
      · next hin => exact ihl hleft target acc (by omega) hin
      · dsimp only
        rw [u32_of_lt (show acc + (left.text b).length < 2 ^ 32 by omega), fits_cons]
        refine ⟨by omega, ?_⟩
        split
        · next hin =>
          obtain ⟨offset, hoffset, hindex⟩ := hpiece.newline h hin
          have := lt_of_mem_positions lf (mem_of_getElem? hoffset)
          simp only [fits_cons, fits_nil, and_true]
          omega
        · next hbehind =>
          rw [hpiece.newlines] at hbehind ⊢
          rw [u32_of_lt (by omega), fits_cons]
          exact ⟨by omega, ihr hright _ _ (by omega) (by omega)⟩

variable {cursor : LineCursor}

theorem lineStartByteSums_fit {b : Buffers} (h : b.Valid) {root : Treap} (hroot : root.Valid b)
    (hsize : (root.text b).length < 2 ^ 32) (hcursor : cursor.Located b (root.text b)) {line : Nat}
    (hline : line ≤ (root.text b).count lf) : Fits (lineStartByteSums b root line cursor) := by
  have hcount := count_le_length (a := lf) (l := root.text b)
  unfold lineStartByteSums
  split
  · exact fits_nil
  · split
    · next start walk hstep =>
      obtain ⟨last, hlast, hstep⟩ := Option.bind_eq_some_iff.mp hstep
      obtain ⟨target, -, hat⟩ := hcursor.walk last hlast
      obtain ⟨-, -, -, hat'⟩ := walkStep_spec hat hstep
      obtain ⟨hsum, hle⟩ := hat'.sum_eq h
      simp only [fits_cons, fits_nil, and_true]
      omega
    · rw [u32_of_lt (by omega), fits_cons]
      exact ⟨by omega, findNewlineSums_fit h hroot _ _ (by omega) (by omega)⟩

namespace PieceTree

variable {t : PieceTree} {lines : List Line}

theorem Spells.lineStartByteSums_fit (h : t.Spells lines) {line : Nat} (hline : line < lines.length)
    (hcursor : cursor.Valid t.toBuffers (joinText lines)) :
    Fits (lineStartByteSums t.toBuffers t.root line cursor) :=
  Editor.lineStartByteSums_fit h.buffers h.root (by rw [h.text]; exact h.fits)
    (by rw [h.text]; exact hcursor.toLocated) (by rw [h.text]; exact count_joinText_ge h hline)

/-- The sums of `LineEndByte`. -/
def lineEndByteSums (t : PieceTree) (line : Nat) (cursor : LineCursor) : List Nat :=
  if line + 1 < t.lineCount then lineStartByteMemoizedSums t.toBuffers t.root (line + 1) cursor else []

theorem lineEndByteSums_fit (h : t.Spells lines) (line : Nat)
    (hcursor : cursor.Valid t.toBuffers (joinText lines)) :
    Fits (lineEndByteSums t line cursor) := by
  unfold lineEndByteSums
  split
  · next hnext => exact h.lineStartByteSums_fit (by rwa [h.lineCount] at hnext) hcursor
  · exact fits_nil

/-- The sums of `ResolveByteSpan`. -/
def resolveByteSpanSums (t : PieceTree) (startLine startColumn endLine endColumn : Nat) : List Nat :=
  if t.lineCount = 0 then []
  else
    let startLine := min startLine (t.lineCount - 1)
    let endLine := max startLine (min endLine (t.lineCount - 1))
    let startBase := lineStartByteMemoized t.toBuffers t.root startLine t.cursor
    let startLimit := lineEndByte t startLine startBase.2
    let endBase := lineStartByteMemoized t.toBuffers t.root endLine startLimit.2
    let endLimit := lineEndByte t endLine endBase.2
    lineStartByteMemoizedSums t.toBuffers t.root startLine t.cursor ++
      lineEndByteSums t startLine startBase.2 ++
      [startBase.1 + min startColumn (startLimit.1 - startBase.1),
        startBase.1 + min endColumn (startLimit.1 - startBase.1)] ++
      if endLine = startLine then []
      else
        lineStartByteMemoizedSums t.toBuffers t.root endLine startLimit.2 ++
          lineEndByteSums t endLine endBase.2 ++
          [endBase.1 + min endColumn (endLimit.1 - endBase.1)]

theorem resolveByteSpanSums_fit (h : t.Spells lines) (startLine startColumn endLine endColumn : Nat) :
    Fits (resolveByteSpanSums t startLine startColumn endLine endColumn) := by
  have hn := h.lineCount
  have hfits := h.fits
  unfold resolveByteSpanSums
  split
  · exact fits_nil
  · dsimp only
    have hfirst : min startLine (t.lineCount - 1) < lines.length := by omega
    generalize min startLine (t.lineCount - 1) = first at *
    have hlast : max first (min endLine (t.lineCount - 1)) < lines.length := by omega
    generalize max first (min endLine (t.lineCount - 1)) = last at *
    obtain ⟨hbase, hcursor⟩ := h.lineStartByteMemoized hfirst h.cursor
    obtain ⟨hlimit, hcursor'⟩ := h.lineEndByte hfirst hcursor
    obtain ⟨hbaseEnd, hcursorEnd⟩ := h.lineStartByteMemoized hlast hcursor'
    obtain ⟨hlimitEnd, -⟩ := h.lineEndByte hlast hcursorEnd
    have hfirstIn := lineOffset_add_le hfirst
    have hlastIn := lineOffset_add_le hlast
    rw [hbase, hlimit, hbaseEnd, hlimitEnd, Nat.add_sub_cancel_left, Nat.add_sub_cancel_left]
    simp only [fits_append]
    refine ⟨⟨⟨h.lineStartByteSums_fit hfirst h.cursor, lineEndByteSums_fit h first hcursor⟩, ?_⟩, ?_⟩
    · simp only [fits_cons, fits_nil, and_true]
      omega
    · split
      · exact fits_nil
      · simp only [fits_append]
        refine ⟨⟨h.lineStartByteSums_fit hlast hcursor', lineEndByteSums_fit h last hcursorEnd⟩, ?_⟩
        simp only [fits_cons, fits_nil, and_true]
        omega

/-! ### The sums of an edit -/

/-- The sums of the lookups of `ReplaceLineRangeFrom`. -/
def lineLookupSums (t : PieceTree) (start removed : Nat) : List Nat :=
  let n := t.lineCount
  let start := min start n
  let removed := min removed (n - start)
  let endLine := start + removed
  if endLine < n then
    lineStartByteSums t.toBuffers t.root start t.cursor ++
      lineStartByteSums t.toBuffers t.root endLine
        (Editor.lineStartByte t.toBuffers t.root start t.cursor).2
  else if start > 0 ∧ start < n then lineStartByteSums t.toBuffers t.root start t.cursor
  else []

theorem lineLookupSums_fit (h : t.Spells lines) (start removed : Nat) :
    Fits (lineLookupSums t start removed) := by
  have hn := h.lineCount
  unfold lineLookupSums
  dsimp only
  split
  · next hlt =>
    rw [fits_append]
    have hfirst : min start t.lineCount < lines.length := by omega
    exact ⟨h.lineStartByteSums_fit hfirst h.cursor,
      h.lineStartByteSums_fit (by omega) (h.lineStartByte hfirst h.cursor).2⟩
  · split
    · next hin => exact h.lineStartByteSums_fit (by omega) h.cursor
    · exact fits_nil

/-- The sums of what an edit does before its splice. -/
def lookupSums (t : PieceTree) : Edit → List Nat
  | .reset lines => rebuildSums (joinText lines)
  | .resetFromText content => rebuildSums content
  | .replaceLineRange start removed _ => lineLookupSums t start removed
  | .setLine index _ | .eraseLine index => lineLookupSums t index 1
  | .insertLine index _ => lineLookupSums t index 0
  | .eraseLineRange first last => lineLookupSums t first (last - first)
  | .pushBackLine _ => lineLookupSums t t.lineCount 0
  | .replaceTextRange startLine startColumn endLine endColumn _ =>
    let clampedStart := min startLine (t.lineCount - 1)
    resolveByteSpanSums t clampedStart startColumn
      (max clampedStart (min endLine (t.lineCount - 1))) endColumn

/-- The sums of an edit. -/
def editSums (R : Reserve) (t : PieceTree) (edit : Edit) : List Nat :=
  lookupSums t edit ++ (t.spliceOf edit).elim [] (Splice.sums R t)

theorem editSums_fit (R : Reserve) (h : t.Spells lines) {edit : Edit} (hrange : edit.InRange lines) :
    Fits (editSums R t edit) := by
  have hlookup : Fits (lookupSums t edit) := by
    cases edit with
    | reset lines => exact rebuildSums_fit _
    | resetFromText content => exact rebuildSums_fit _
    | replaceTextRange => exact resolveByteSpanSums_fit h _ _ _ _
    | _ => exact lineLookupSums_fit h _ _
  rw [editSums, fits_append]
  refine ⟨hlookup, ?_⟩
  cases hsplice : t.spliceOf edit with
  | none => exact fits_nil
  | some splice =>
      have hreplaces := replaces_of_spliceOf_eq_some h hrange hsplice
      exact Splice.sums_fit R h.toHolds h.ceiling hreplaces.ordered hreplaces.within

/-! ### The sums of a read -/

/-- The sums of `TryViewRange`. -/
def tryViewRangeSums : Treap → Nat → Nat → List Nat
  | .null, _, _ => []
  | .node left piece _ _ right, pos, length =>
    let leftLength := left.treeLength
    if pos < leftLength then tryViewRangeSums left pos length
    else
      (leftLength + piece.length) ::
        if pos < u32 (leftLength + piece.length) then [pos - leftLength + length]
        else tryViewRangeSums right (pos - u32 (leftLength + piece.length)) length

theorem tryViewRangeSums_fit {b : Buffers} {root : Treap} (hroot : root.Valid b)
    (hsize : (root.text b).length < 2 ^ 32) {pos length : Nat} (hfits : pos + length < 2 ^ 32) :
    Fits (tryViewRangeSums root pos length) := by
  induction root generalizing pos with
  | null => simp [tryViewRangeSums]
  | node left piece subtreeLength subtreeNewlines right ihl ihr =>
      obtain ⟨hleft, hpiece, hright, -, -⟩ := hroot
      have hlength := hpiece.length_text
      simp only [text, length_append] at hsize
      rw [tryViewRangeSums, treeLength_eq hleft, u32_of_lt (by omega)]
      split
      · exact ihl hleft (by omega) hfits
      · rw [fits_cons]
        refine ⟨by omega, ?_⟩
        split
        · simp only [fits_cons, fits_nil, and_true]
          omega
        · exact ihr hright (by omega) (by omega)

/-- The sums of showing or copying a range. -/
def viewSums (t : PieceTree) (cursor : LineCursor) (start length : Nat) : List Nat :=
  (cursor.walk.elim [] fun walk => [start + length, walk.base + walk.piece.length]) ++
    tryViewRangeSums t.root start length ++ (start + length) :: walkSums t.root 0

section

variable (h : t.Spells lines)

include h

theorem viewSums_fit (hcursor : cursor.Valid t.toBuffers (joinText lines)) {start length : Nat}
    (hin : start + length ≤ (joinText lines).length) : Fits (viewSums t cursor start length) := by
  have hfits := h.fits
  have hsize : (t.root.text t.toBuffers).length < 2 ^ 32 := by rw [h.text]; exact hfits
  rw [viewSums, fits_append, fits_append, fits_cons]
  refine ⟨⟨?_, tryViewRangeSums_fit h.root hsize (by omega)⟩, by omega,
    walkSums_fit h.root (by rwa [Nat.zero_add])⟩
  cases hwalk : cursor.walk with
  | none => exact fits_nil
  | some walk =>
      obtain ⟨target, -, hlocates⟩ := hcursor.walk walk hwalk
      obtain ⟨before, after, htext, hbase, -⟩ := hlocates.place
      have hlength := hlocates.piece.length_text
      rw [htext] at hin hfits
      simp only [length_append] at hin hfits
      simp only [Option.elim_some, fits_cons, fits_nil, and_true]
      omega

/-- The sums of looking up where a line lies. -/
def lineExtentSums (t : PieceTree) (index : Nat) : List Nat :=
  lineStartByteMemoizedSums t.toBuffers t.root index t.cursor ++
    lineEndByteSums t index (Editor.lineStartByteMemoized t.toBuffers t.root index t.cursor).2

theorem lineExtentSums_fit {index : Nat} (hindex : index < lines.length) :
    Fits (lineExtentSums t index) := by
  rw [lineExtentSums, fits_append]
  exact ⟨h.lineStartByteSums_fit hindex h.cursor,
    lineEndByteSums_fit h index (h.lineStartByteMemoized hindex h.cursor).2⟩

/-- The sums of `ExtractLineRangeInto`. -/
def extractSums (t : PieceTree) (first last : Nat) : List Nat :=
  if first ≥ last ∨ first ≥ t.lineCount then []
  else
    lineStartByteSums t.toBuffers t.root first t.cursor ++
      (if last < t.lineCount then lineStartByteSums t.toBuffers t.root last
        (Editor.lineStartByte t.toBuffers t.root first t.cursor).2 else []) ++
      walkSums t.root 0

theorem extractSums_fit (first last : Nat) : Fits (extractSums t first last) := by
  have hn := h.lineCount
  have hfits := h.fits
  unfold extractSums
  split
  · exact fits_nil
  · next hsome =>
    rw [fits_append, fits_append]
    refine ⟨⟨h.lineStartByteSums_fit (by omega) h.cursor, ?_⟩,
      walkSums_fit h.root (by rw [h.text, Nat.zero_add]; exact hfits)⟩
    split
    · next hlast =>
      exact h.lineStartByteSums_fit (by omega)
        (h.lineStartByte (show first < lines.length by omega) h.cursor).2
    · exact fits_nil

/-- The sums of a read. -/
def readSums (t : PieceTree) : Read → List Nat
  | .lineView index =>
    lineExtentSums t index ++
      viewSums t (lineExtent t index).2 (lineExtent t index).1.1 (lineExtent t index).1.2
  | .lineLength index => lineExtentSums t index
  | .lineWindow index byteStart byteLen =>
    let extent := lineExtent t index
    lineExtentSums t index ++
      if byteStart ≥ extent.1.2 then []
      else
        (extent.1.1 + byteStart) ::
          viewSums t extent.2 (u32 (extent.1.1 + byteStart)) (min byteLen (extent.1.2 - byteStart))
  | .sliceLines first last | .appendLines first last _ | .appendLinesToBlob first last _ =>
    extractSums t first (min last t.lineCount)
  | .appendTextRange startLine startColumn endLine endColumn _ =>
    let span := (resolveByteSpan t startLine startColumn endLine endColumn).1
    resolveByteSpanSums t startLine startColumn endLine endColumn ++
      (span.1 + (span.2 - span.1)) :: walkSums t.root 0
  | .toVector => extractSums t 0 t.lineCount
  | .appendWholeText _ => t.root.treeLength :: walkSums t.root 0

theorem resolveByteSpan_within (startLine startColumn endLine endColumn : Nat) :
    (resolveByteSpan t startLine startColumn endLine endColumn).1.1 ≤
        (resolveByteSpan t startLine startColumn endLine endColumn).1.2 ∧
      (resolveByteSpan t startLine startColumn endLine endColumn).1.2 ≤ (joinText lines).length := by
  by_cases hempty : lines = []
  · have hzero : t.lineCount = 0 := by rw [h.lineCount, hempty, length_nil]
    rw [resolveByteSpan, if_pos hzero]
    exact ⟨Nat.le_refl 0, Nat.zero_le _⟩
  · have hreplaces := textSplice_replaces h hempty startLine startColumn endLine endColumn []
    rw [resolveByteSpan_clamped]
    exact ⟨hreplaces.ordered, hreplaces.within⟩

theorem readSums_fit {read : Read} (hread : read.Valid lines) : Fits (readSums t read) := by
  have hfits := h.fits
  have hwalk : Fits (walkSums t.root 0) := walkSums_fit h.root (by rw [h.text, Nat.zero_add]; exact hfits)
  cases read with
  | lineView index =>
      have hindex : index < lines.length := hread
      obtain ⟨cursor, hextent, hcursor⟩ := lineExtent_spec h hindex
      rw [readSums, hextent, fits_append]
      exact ⟨lineExtentSums_fit h hindex, viewSums_fit h hcursor (lineOffset_add_le hindex)⟩
  | lineLength index => exact lineExtentSums_fit h hread
  | lineWindow index byteStart byteLen =>
      have hindex : index < lines.length := hread
      have hin := lineOffset_add_le hindex
      obtain ⟨cursor, hextent, hcursor⟩ := lineExtent_spec h hindex
      rw [readSums, hextent, fits_append]
      refine ⟨lineExtentSums_fit h hindex, ?_⟩
      dsimp only
      split
      · exact fits_nil
      · rw [u32_of_lt (by omega), fits_cons]
        exact ⟨by omega, viewSums_fit h hcursor (by omega)⟩
  | sliceLines first last => exact extractSums_fit h _ _
  | appendLines first last out => exact extractSums_fit h _ _
  | appendLinesToBlob first last out => exact extractSums_fit h _ _
  | appendTextRange startLine startColumn endLine endColumn out =>
      obtain ⟨hordered, hwithin⟩ := resolveByteSpan_within h startLine startColumn endLine endColumn
      rw [readSums, fits_append, fits_cons]
      exact ⟨resolveByteSpanSums_fit h _ _ _ _, by omega, hwalk⟩
  | toVector => exact extractSums_fit h _ _
  | appendWholeText out =>
      rw [readSums, fits_cons]
      have hsize := h.byteSize
      rw [byteSize] at hsize
      exact ⟨by omega, hwalk⟩

end

/-- A mutation that was refused: the tree, its buffers and the line count are as before, and
the refusal is reported. -/
def Refuses (t after : PieceTree) : Prop :=
  after.root = t.root ∧ after.toBuffers = t.toBuffers ∧ after.lineCount = t.lineCount ∧
    after.lastMutationRejected = true

theorem replaceLineRange_refuses (R : Reserve) (h : t.Spells lines) {start removed : Nat}
    {inserted : List Line}
    (hover : t.maxLiveDocumentBytes < (joinText (replaceLines lines start removed inserted)).length) :
    t.Refuses (t.replaceLineRange R start removed inserted) := by
  rw [replaceLineRange, (lineSplice_replaces h start removed inserted).refused R h hover]
  exact ⟨rfl, rfl, rfl, rfl⟩

theorem replaceTextRange_refuses (R : Reserve) (h : t.Spells lines)
    {startLine startColumn endLine endColumn : Nat} {text : List UInt8}
    (hover : t.maxLiveDocumentBytes <
      (joinText (replaceText lines startLine startColumn endLine endColumn text)).length) :
    t.Refuses (t.replaceTextRange R startLine startColumn endLine endColumn text) := by
  by_cases hempty : lines = []
  · simp [hempty, replaceText, joinText] at hover
  · have hpos := length_pos_of_ne_nil hempty
    rw [replaceTextRange, if_neg (by rw [h.lineCount]; omega),
      (textSplice_replaces h hempty _ _ _ _ _).refused R h hover]
    exact ⟨rfl, rfl, rfl, rfl⟩

end PieceTree

/-- The sums of a step of a run. -/
def Op.sums (R : Reserve) (t : PieceTree) : Op → List Nat
  | edit e => t.editSums R e
  | read r => t.readSums r

/-! ### Main result -/

theorem PieceTree.run_ceiling (R : Reserve) {t : PieceTree} {lines : List Line} (h : t.Spells lines)
    (ops : List Op) (hops : ValidRun t.maxLiveDocumentBytes lines ops) :
    (t.run R ops).maxLiveDocumentBytes = t.maxLiveDocumentBytes := by
  induction ops generalizing t lines with
  | nil => rfl
  | cons op ops ih =>
      obtain ⟨hop, hrest⟩ := hops
      obtain ⟨hstep, hceiling⟩ := step_spells R h hop
      exact (ih hstep (by rwa [hceiling])).trans hceiling

/-- **The byte ceiling is atomic and sufficient.** After every run, a mutation that would take
the joined lines over the ceiling is refused as a whole and reported; and no step that can
come next computes a number that does not fit into 32 bits, compactions of the add side
included, whether edits were refused or not. -/
theorem byteCeiling_sufficient (R : Reserve) {ceiling : Nat} (hceiling : ceiling < 2 ^ 32)
    {lines : List Line} (hfree : ∀ line ∈ lines, lf ∉ line) (hsize : (joinText lines).length < 2 ^ 32)
    (ops : List Op) (hops : ValidRun ceiling lines ops) :
    let t := (PieceTree.new ceiling lines).run R ops
    let naive := ops.foldl (Op.applyBelow ceiling) lines
    (∀ start removed inserted,
      ceiling < (joinText (replaceLines naive start removed inserted)).length →
        t.Refuses (t.replaceLineRange R start removed inserted)) ∧
      (∀ startLine startColumn endLine endColumn text,
        ceiling < (joinText (replaceText naive startLine startColumn endLine endColumn text)).length →
          t.Refuses (t.replaceTextRange R startLine startColumn endLine endColumn text)) ∧
      ∀ op : Op, op.Valid naive → Fits (op.sums R t) := by
  have hceiling' := PieceTree.new_ceiling ceiling lines
  have hnew := PieceTree.new_spells hceiling hfree hsize
  have hspells := PieceTree.run_spells R hnew ops (by rwa [hceiling'])
  have hkept := PieceTree.run_ceiling R hnew ops (by rwa [hceiling'])
  rw [hceiling'] at hspells hkept
  refine ⟨fun start removed inserted hover => ?_,
    fun startLine startColumn endLine endColumn text hover => ?_, fun op hop => ?_⟩
  · exact PieceTree.replaceLineRange_refuses R hspells (by rwa [hkept])
  · exact PieceTree.replaceTextRange_refuses R hspells (by rwa [hkept])
  · cases op with
    | edit e => exact PieceTree.editSums_fit R hspells hop.inRange
    | read r => exact PieceTree.readSums_fit hspells hop

/-- With a ceiling of four bytes `ax / c` takes no further line. -/
theorem smallRun_refuses :
    let t := (PieceTree.new 4 [[97], [98]]).run exactReserve smallRun
    t.Refuses (t.replaceLineRange exactReserve 0 0 [[97, 98]]) :=
  (byteCeiling_sufficient exactReserve (by decide) (by decide) (by decide) smallRun
    (validRun_smallRun 4)).1 0 0 [[97, 98]] (by decide)

end Microide.Editor
