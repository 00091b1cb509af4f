/-
The memo of plain prefixes.

Where the first bytes of a line are plain, ASCII and no tab, byte offsets are visual columns. The
layout cache remembers for a few lines how far it has looked and what it found, stamped with the
revision of the content, and an edit carries what it leaves true over to the next revision.

**Main results.** `plainAsciiPrefixEndInto_spec`: a query answers from the line alone and leaves
the memo exact; `MemoRun.exact`: so it is in every run of queries and edits.
-/

import Microide.Editor.VisualColumns

namespace Microide.Editor

open List Text

/-! ### Scans -/

/-- Whether a byte is no plain ASCII: a tab, or a byte from `0x80` on. -/
def isNonPlain (c : UInt8) : Bool := 0x80 ≤ c || c == tabByte

theorem lt_of_plain {c : UInt8} (plain : isNonPlain c = false) : c < 0x80 ∧ c ≠ tabByte := by
  simpa [isNonPlain] using plain

/-- A plain byte takes one column. -/
theorem advanceVisualColumnAt_plain {tabSize visualColumn : Nat} {c : UInt8}
    (plain : isNonPlain c = false) :
    advanceVisualColumnAt tabSize visualColumn [c] = visualColumn + 1 := by
  obtain ⟨ascii, notTab⟩ := lt_of_plain plain
  rw [advanceVisualColumnAt, if_pos ascii, advanceVisualColumn, if_pos notTab]

/-- `util::FirstNonAsciiOrByte` for a tab. -/
def firstNonPlainAsciiByte (text : Line) : Nat := text.findIdx isNonPlain

def kPrefixScanChunkBytes : Nat := 4096

/-- `LineSpan::LineWindow`. -/
def lineWindow (text : Line) (offset length : Nat) : Line := (text.drop offset).take length

/-- The loop of `FirstNonPlainAsciiByteInRange`; a chunk takes at least a byte. -/
def firstNonPlainAsciiByteFrom (text : Line) (limit : Nat) : Nat → Nat → Nat
  | 0, _ => limit
  | rounds + 1, offset =>
    if offset < limit then
      let chunk := lineWindow text offset (min kPrefixScanChunkBytes (limit - offset))
      if chunk = [] then limit
      else
        let hit := firstNonPlainAsciiByte chunk
        if hit < chunk.length then offset + hit
        else firstNonPlainAsciiByteFrom text limit rounds (offset + chunk.length)
    else limit

/-- `FirstNonPlainAsciiByteInRange`. -/
def firstNonPlainAsciiByteInRange (text : Line) (start limit : Nat) : Nat :=
  firstNonPlainAsciiByteFrom text limit (limit - start) start

/-- The bytes before an offset are plain. -/
def PlainTo (text : Line) (offset : Nat) : Prop := ∀ c ∈ text.take offset, isNonPlain c = false

instance decidablePlainTo (text : Line) (offset : Nat) : Decidable (PlainTo text offset) :=
  List.decidableBAll _ _

section Scan

variable {text : Line} {offset limit : Nat}

theorem PlainTo.mono (plain : PlainTo text limit) (le : offset ≤ limit) : PlainTo text offset :=
  fun c mem => plain c (Sublist.mem mem (take_sublist_take_left le))

theorem plainTo_firstNonPlainAsciiByte (text : Line) :
    PlainTo text (firstNonPlainAsciiByte text) := by
  intro c mem
  obtain ⟨k, inside, rfl⟩ := mem_take_iff_getElem.mp mem
  exact not_of_lt_findIdx (inside.trans_le (min_le_left _ _))

/-- Up to a byte of the line, the first byte that is not plain comes no earlier exactly if the
bytes before are plain. -/
theorem le_firstNonPlainAsciiByte_iff (inside : offset ≤ text.length) :
    offset ≤ firstNonPlainAsciiByte text ↔ PlainTo text offset := by
  constructor
  · exact (plainTo_firstNonPlainAsciiByte text).mono
  · intro plain
    by_contra before
    have early : firstNonPlainAsciiByte text < offset := Nat.lt_of_not_le before
    have late := early.trans_le inside
    have plain_ := plain _ (mem_take_iff_getElem.mpr ⟨_, lt_min early late, rfl⟩)
    have found : isNonPlain (text.get ⟨firstNonPlainAsciiByte text, late⟩) = true :=
      findIdx_getElem
    exact Bool.false_ne_true (plain_.symm.trans found)

theorem firstNonPlainAsciiByte_take (text : Line) (limit : Nat) :
    firstNonPlainAsciiByte (text.take limit) = min limit (firstNonPlainAsciiByte text) :=
  findIdx_take

theorem firstNonPlainAsciiByte_drop (plain : PlainTo text offset) (inside : offset ≤ text.length) :
    firstNonPlainAsciiByte text = offset + firstNonPlainAsciiByte (text.drop offset) := by
  have far := (le_firstNonPlainAsciiByte_iff inside).mpr plain
  have size : (text.take offset).length = offset := length_take_of_le inside
  have whole : (text.take offset).findIdx isNonPlain = (text.take offset).length := by
    rw [findIdx_take, size]
    exact min_eq_left far
  conv_lhs => rw [firstNonPlainAsciiByte, ← take_append_drop offset text]
  rw [findIdx_append, whole, if_neg (lt_irrefl _), size, Nat.add_comm]
  rfl

/-- **The scan by chunks** finds the first byte that is not plain, clipped. -/
theorem firstNonPlainAsciiByteFrom_eq {rounds : Nat} (enough : limit - offset ≤ rounds)
    (plain : PlainTo text offset) (le : offset ≤ limit) (inside : limit ≤ text.length) :
    firstNonPlainAsciiByteFrom text limit rounds offset = min (firstNonPlainAsciiByte text) limit := by
  induction rounds generalizing offset with
  | zero =>
    obtain rfl : offset = limit := by omega
    exact (min_eq_right ((le_firstNonPlainAsciiByte_iff inside).mpr plain)).symm
  | succ rounds ih =>
    rw [firstNonPlainAsciiByteFrom]
    by_cases more : offset < limit
    · rw [if_pos more]
      dsimp only
      generalize size_ : min kPrefixScanChunkBytes (limit - offset) = size
      have chunk : (lineWindow text offset size).length = size := by
        rw [lineWindow, length_take, length_drop]
        omega
      have some_ : lineWindow text offset size ≠ [] := by
        have : 0 < kPrefixScanChunkBytes := Nat.succ_pos _
        exact ne_nil_of_length_pos (by omega)
      have found := firstNonPlainAsciiByte_drop plain (le.trans inside)
      have hit : firstNonPlainAsciiByte (lineWindow text offset size) =
          min size (firstNonPlainAsciiByte (text.drop offset)) := firstNonPlainAsciiByte_take _ _
      rw [if_neg some_, chunk, hit]
      split
      · omega
      next clean =>
        have low := length_pos_iff.mpr some_
        have onward : PlainTo text (offset + size) := by
          rw [← le_firstNonPlainAsciiByte_iff (by omega)]
          omega
        exact ih (by omega) onward (by omega)
    · obtain rfl : offset = limit := by omega
      rw [if_neg more]
      exact (min_eq_right ((le_firstNonPlainAsciiByte_iff inside).mpr plain)).symm

end Scan

/-! ### The memo -/

/-- `TextLayoutCache::PlainPrefixMemo`. -/
structure PlainPrefixMemo where
  lineIndex : Nat := 0
  lineLength : Nat := 0
  contentRevision : Nat := 0
  scannedThrough : Nat := 0
  firstNonPlain : Nat := 0
  valid : Bool := false

def kPlainPrefixMemoSlots : Nat := 4

/-- `plain_prefix_memo_` and `plain_prefix_memo_next_`. -/
structure PlainPrefixMemos where
  slots : List PlainPrefixMemo := List.replicate kPlainPrefixMemoSlots {}
  next : Nat := 0

/-- Whether a memo is the one for a line. -/
def PlainPrefixMemo.answersFor (memo : PlainPrefixMemo) (lineIndex lineLength contentRevision : Nat) :
    Bool :=
  memo.valid && memo.lineIndex == lineIndex && memo.lineLength == lineLength &&
    memo.contentRevision == contentRevision

/-- What a memo answers to a probe, and the memo with what had to be read for it. -/
def PlainPrefixMemo.probe (memo : PlainPrefixMemo) (text : Line) (probe : Nat) :
    Nat × PlainPrefixMemo :=
  if memo.firstNonPlain < memo.scannedThrough then (min memo.firstNonPlain probe, memo)
  else if probe ≤ memo.scannedThrough then (probe, memo)
  else
    let hit := firstNonPlainAsciiByteInRange text memo.scannedThrough probe
    (min hit probe, { memo with scannedThrough := probe, firstNonPlain := hit })

/-- `PlainAsciiPrefixEndInto`. -/
def PlainPrefixMemos.plainAsciiPrefixEndInto (memos : PlainPrefixMemos) (lines : List Line)
    (lineIndex probe contentRevision : Nat) : Nat × PlainPrefixMemos :=
  if probe = 0 then (0, memos)
  else
    let text := lines.getD lineIndex []
    let place := memos.slots.findIdx (·.answersFor lineIndex text.length contentRevision)
    match memos.slots[place]? with
    | some memo =>
      let found := memo.probe text probe
      (found.1, { memos with slots := memos.slots.set place found.2 })
    | none =>
      let hit := firstNonPlainAsciiByteInRange text 0 probe
      (hit, ⟨memos.slots.set memos.next ⟨lineIndex, text.length, contentRevision, probe, hit, true⟩,
        (memos.next + 1) % kPlainPrefixMemoSlots⟩)

/-- `TextLayoutCache::PlainAsciiThroughColumn`. -/
def PlainPrefixMemos.plainAsciiThroughColumn (memos : PlainPrefixMemos) (lines : List Line)
    (lineIndex column contentRevision : Nat) : Bool × PlainPrefixMemos :=
  if lines.length ≤ lineIndex then (false, memos)
  else
    let probe := min column (lines.getD lineIndex []).length
    let found := memos.plainAsciiPrefixEndInto lines lineIndex probe contentRevision
    (probe ≤ found.1, found.2)

/-- What a memo still knows of a line that is edited from a column on. -/
def PlainPrefixMemo.cutAt (memo : PlainPrefixMemo) (column : Nat) : PlainPrefixMemo :=
  if memo.firstNonPlain < memo.scannedThrough ∧ memo.firstNonPlain < column then
    { memo with scannedThrough := memo.firstNonPlain + 1 }
  else
    { memo with
      scannedThrough := min memo.scannedThrough column
      firstNonPlain := min memo.scannedThrough column }

/-- The step of `CarryPlainPrefixMemosAcrossEdit` over a memo. -/
def PlainPrefixMemo.carry (memo : PlainPrefixMemo) (lines : List Line) (startLine : Nat)
    (editColumn : Option Nat) (oldRevision newRevision : Nat) : PlainPrefixMemo :=
  if memo.valid = false ∨ memo.contentRevision ≠ oldRevision ∨ startLine < memo.lineIndex then memo
  else if memo.lineIndex < startLine then { memo with contentRevision := newRevision }
  else
    match editColumn with
    | none => { memo with valid := false }
    | some column =>
      if lines.length ≤ memo.lineIndex then { memo with valid := false }
      else
        { memo.cutAt column with
          lineLength := (lines.getD memo.lineIndex []).length
          contentRevision := newRevision }

/-- `CarryPlainPrefixMemosAcrossEdit`. -/
def PlainPrefixMemos.carryPlainPrefixMemosAcrossEdit (memos : PlainPrefixMemos)
    (lines : List Line) (startLine : Nat) (editColumn : Option Nat)
    (oldRevision newRevision : Nat) : PlainPrefixMemos :=
  { memos with
    slots := memos.slots.map (·.carry lines startLine editColumn oldRevision newRevision) }

/-! ### Exactness -/

/-- What a memo says of a line is so: it has found the line's first byte that is not plain, or it
has found none as far as it has looked. -/
def PlainPrefixMemo.Describes (memo : PlainPrefixMemo) (text : Line) : Prop :=
  (memo.firstNonPlain < memo.scannedThrough ∧
    memo.firstNonPlain = firstNonPlainAsciiByte text ∧ memo.firstNonPlain < text.length) ∨
  (memo.firstNonPlain = memo.scannedThrough ∧ memo.scannedThrough ≤ text.length ∧
    PlainTo text memo.scannedThrough)

/-- Every memo describes its line at the revision it is stamped with. -/
def PlainPrefixMemos.Exact (contents : Nat → List Line) (memos : PlainPrefixMemos) : Prop :=
  ∀ memo ∈ memos.slots, memo.valid = true → ∃ text,
    (contents memo.contentRevision)[memo.lineIndex]? = some text ∧
      memo.lineLength = text.length ∧ memo.Describes text

/-- What an edit leaves: the lines before its own, and of that the bytes before its column. -/
structure EditKeeps (old new : List Line) (startLine : Nat) (editColumn : Option Nat) : Prop where
  before : ∀ k < startLine, old[k]? = new[k]?
  column : ∀ column ∈ editColumn, ∀ text text', old[startLine]? = some text →
    new[startLine]? = some text' → text.take column = text'.take column

section Memo

variable {memo : PlainPrefixMemo} {text : Line} {probe : Nat}

/-- What a scan from bytes known to be plain finds is described by its memo. -/
theorem describes_scan {start : Nat} (plain : PlainTo text start) (le : start ≤ probe)
    (inside : probe ≤ text.length) (scanned : memo.scannedThrough = probe)
    (hit : memo.firstNonPlain = firstNonPlainAsciiByteInRange text start probe) :
    memo.firstNonPlain = min (firstNonPlainAsciiByte text) probe ∧ memo.Describes text := by
  have found : memo.firstNonPlain = min (firstNonPlainAsciiByte text) probe :=
    hit.trans (firstNonPlainAsciiByteFrom_eq le_rfl plain le inside)
  refine ⟨found, ?_⟩
  rcases Nat.lt_or_ge (firstNonPlainAsciiByte text) probe with early | late
  · rw [min_eq_left early.le] at found
    exact .inl ⟨by omega, found, by omega⟩
  · refine .inr ⟨by omega, by omega, ?_⟩
    rw [scanned]
    exact (le_firstNonPlainAsciiByte_iff inside).mp late

theorem PlainPrefixMemo.Describes.probe_spec (describes : memo.Describes text)
    (inside : probe ≤ text.length) :
    (memo.probe text probe).1 = min (firstNonPlainAsciiByte text) probe ∧
      (memo.probe text probe).2.Describes text := by
  rw [PlainPrefixMemo.probe]
  have kept := describes
  rcases describes with ⟨early, found, -⟩ | ⟨same, read, plain⟩
  · rw [if_pos early]
    exact ⟨by rw [found], kept⟩
  · rw [if_neg (by omega)]
    split
    next known =>
      have clean := (le_firstNonPlainAsciiByte_iff inside).mpr (plain.mono known)
      exact ⟨(min_eq_right clean).symm, kept⟩
    next further =>
      have scan := @describes_scan
        { memo with
          scannedThrough := probe
          firstNonPlain := firstNonPlainAsciiByteInRange text memo.scannedThrough probe }
        text probe _ plain (by omega) inside rfl rfl
      dsimp only at scan ⊢
      exact ⟨by omega, scan.2⟩

/-- What is left at an edit's column is true of every line with the same bytes before it. -/
theorem PlainPrefixMemo.Describes.cutAt_spec (describes : memo.Describes text) {text' : Line}
    {column : Nat} (same : text.take column = text'.take column) :
    (memo.cutAt column).Describes text' := by
  have size := congrArg List.length same
  rw [length_take, length_take] at size
  have plainBefore {offset : Nat} (le : offset ≤ column) (plain : PlainTo text offset) :
      PlainTo text' offset := by
    rw [PlainTo, ← min_eq_left le, ← take_take, same, take_take, min_eq_left le] at plain
    exact plain
  rw [PlainPrefixMemo.cutAt]
  split
  next early =>
    have first : memo.firstNonPlain = firstNonPlainAsciiByte text ∧
        memo.firstNonPlain < text.length := by
      rcases describes with found | same'
      · exact found.2
      · omega
    refine .inl ⟨Nat.lt_succ_self _, ?_, show memo.firstNonPlain < text'.length by omega⟩
    dsimp only
    have clip := congrArg firstNonPlainAsciiByte same
    rw [firstNonPlainAsciiByte_take, firstNonPlainAsciiByte_take] at clip
    omega
  next late =>
    have read : min memo.scannedThrough column ≤ text.length ∧
        PlainTo text (min memo.scannedThrough column) := by
      rcases describes with ⟨early, found, inside⟩ | ⟨-, inside, plain⟩
      · refine ⟨by omega, (plainTo_firstNonPlainAsciiByte text).mono ?_⟩
        omega
      · exact ⟨by omega, plain.mono (min_le_left _ _)⟩
    refine .inr ⟨rfl, ?_, plainBefore (min_le_right _ _) read.2⟩
    dsimp only
    omega

theorem PlainPrefixMemo.probe_key (memo : PlainPrefixMemo) (text : Line) (probe : Nat) :
    (memo.probe text probe).2.lineIndex = memo.lineIndex ∧
      (memo.probe text probe).2.lineLength = memo.lineLength ∧
      (memo.probe text probe).2.contentRevision = memo.contentRevision := by
  unfold PlainPrefixMemo.probe
  split
  · exact ⟨rfl, rfl, rfl⟩
  · split <;> exact ⟨rfl, rfl, rfl⟩

end Memo

section Exact

variable {contents : Nat → List Line} {memos : PlainPrefixMemos}

section

variable (exact_ : memos.Exact contents)

include exact_

theorem exact_set {place next : Nat} {memo : PlainPrefixMemo} {text : Line}
    (found : (contents memo.contentRevision)[memo.lineIndex]? = some text)
    (length : memo.lineLength = text.length) (describes : memo.Describes text) :
    PlainPrefixMemos.Exact contents ⟨memos.slots.set place memo, next⟩ := by
  intro other mem valid
  rcases mem_or_eq_of_mem_set mem with old | rfl
  · exact exact_ other old valid
  · exact ⟨text, found, length, describes⟩

/-- **A query answers from the line alone**, and the memo stays exact. -/
theorem plainAsciiPrefixEndInto_spec {lineIndex probe contentRevision : Nat} {text : Line}
    (found : (contents contentRevision)[lineIndex]? = some text) (inside : probe ≤ text.length) :
    let result := memos.plainAsciiPrefixEndInto (contents contentRevision) lineIndex probe
      contentRevision
    result.1 = min (firstNonPlainAsciiByte text) probe ∧ result.2.Exact contents := by
  have line : (contents contentRevision).getD lineIndex [] = text := by
    rw [getD_eq_getElem?_getD, found]
    rfl
  rw [PlainPrefixMemos.plainAsciiPrefixEndInto]
  split
  next zero =>
    exact ⟨by omega, exact_⟩
  · rw [line]
    dsimp only
    generalize place_ : memos.slots.findIdx
      (·.answersFor lineIndex text.length contentRevision) = place
    cases memo_ : memos.slots[place]? with
    | none =>
      have scan := @describes_scan
        ⟨lineIndex, text.length, contentRevision, probe, firstNonPlainAsciiByteInRange text 0 probe,
          true⟩ text probe 0 (fun c mem => absurd mem not_mem_nil) (Nat.zero_le _) inside rfl rfl
      exact ⟨scan.1, exact_set exact_ found rfl scan.2⟩
    | some memo =>
      have here : memo.answersFor lineIndex text.length contentRevision = true := by
        obtain ⟨inside', rfl⟩ := List.getElem?_eq_some_iff.mp memo_
        have := findIdx_getElem (w := place_ ▸ inside')
        simpa only [place_] using this
      simp only [PlainPrefixMemo.answersFor, Bool.and_eq_true, beq_iff_eq] at here
      obtain ⟨⟨⟨valid, index⟩, length⟩, revision⟩ := here
      obtain ⟨other, found', length', describes⟩ := exact_ memo (mem_of_getElem? memo_) valid
      rw [revision, index, found] at found'
      obtain rfl : text = other := Option.some.inj found'
      have probed := PlainPrefixMemo.Describes.probe_spec describes inside
      have key := memo.probe_key text probe
      have found'' : (contents (memo.probe text probe).2.contentRevision)[
          (memo.probe text probe).2.lineIndex]? = some text := by
        rw [key.1, key.2.2, revision, index, found]
      exact ⟨probed.1, exact_set exact_ found'' (key.2.1.trans length') probed.2⟩

/-- A probe through a column asks whether the bytes before it are plain. -/
theorem plainAsciiThroughColumn_spec {lineIndex contentRevision : Nat} {text : Line} (column : Nat)
    (found : (contents contentRevision)[lineIndex]? = some text) :
    let result := memos.plainAsciiThroughColumn (contents contentRevision) lineIndex column
      contentRevision
    (result.1 = true ↔ PlainTo text column) ∧ result.2.Exact contents := by
  have line : (contents contentRevision).getD lineIndex [] = text := by
    rw [getD_eq_getElem?_getD, found]
    rfl
  have shown : ¬(contents contentRevision).length ≤ lineIndex :=
    Nat.not_le_of_lt (List.getElem?_eq_some_iff.mp found).1
  rw [PlainPrefixMemos.plainAsciiThroughColumn, if_neg shown, line]
  have spec := plainAsciiPrefixEndInto_spec exact_ found (min_le_right column text.length)
  refine ⟨?_, spec.2⟩
  have clip : text.take (min column text.length) = text.take column := by
    rw [← take_take, take_length]
  rw [decide_eq_true_eq, spec.1, le_inf_iff, and_iff_left le_rfl,
    le_firstNonPlainAsciiByte_iff (min_le_right column text.length), PlainTo, clip, PlainTo]

end

/-- What an edit carries over is as true of the new content. -/
theorem carry_spec {old new startLine : Nat} {editColumn : Option Nat}
    (keeps : EditKeeps (contents old) (contents new) startLine editColumn)
    (exact_ : memos.Exact contents) :
    (memos.carryPlainPrefixMemosAcrossEdit (contents new) startLine editColumn old new).Exact
      contents := by
  intro carried mem valid
  obtain ⟨memo, old_, rfl⟩ := mem_map.mp mem
  have was := exact_ memo old_
  unfold PlainPrefixMemo.carry at valid ⊢
  split at valid
  next stays =>
    rw [if_pos stays]
    exact was valid
  next moves =>
    rw [if_neg moves]
    simp only [not_or, Bool.not_eq_false, not_not] at moves
    obtain ⟨valid', rfl, above⟩ := moves
    obtain ⟨text, found, length, describes⟩ := was valid'
    split at valid
    next untouched =>
      rw [if_pos untouched]
      exact ⟨text, by rw [← keeps.before _ untouched, found], length, describes⟩
    next edited =>
      rw [if_neg edited]
      obtain rfl : memo.lineIndex = startLine := by omega
      cases editColumn with
      | none => exact absurd valid Bool.false_ne_true
      | some column =>
        dsimp only at valid ⊢
        split at valid
        · exact absurd valid Bool.false_ne_true
        next inside =>
          rw [if_neg inside]
          obtain ⟨text', found'⟩ : ∃ text', (contents new)[memo.lineIndex]? = some text' :=
            ⟨_, getElem?_eq_getElem (Nat.lt_of_not_le inside)⟩
          have line : (contents new).getD memo.lineIndex [] = text' := by
            rw [getD_eq_getElem?_getD, found']
            rfl
          have index : (memo.cutAt column).lineIndex = memo.lineIndex := by
            unfold PlainPrefixMemo.cutAt
            split <;> rfl
          rw [line]
          refine ⟨_, (congrArg _ index).trans found', rfl, ?_⟩
          exact PlainPrefixMemo.Describes.cutAt_spec describes (keeps.column _ rfl _ _ found found')

/-- The memos of a viewport over runs of queries and edits; `contents` is what the document holds
at each revision. -/
inductive MemoRun (contents : Nat → List Line) : PlainPrefixMemos → Prop
  | cold : MemoRun contents {}
  | query {memos : PlainPrefixMemos} {lineIndex probe contentRevision : Nat} {text : Line}
      (run : MemoRun contents memos) (found : (contents contentRevision)[lineIndex]? = some text)
      (inside : probe ≤ text.length) :
      MemoRun contents (memos.plainAsciiPrefixEndInto (contents contentRevision) lineIndex probe
        contentRevision).2
  | edit {memos : PlainPrefixMemos} {old new startLine : Nat} {editColumn : Option Nat}
      (run : MemoRun contents memos)
      (keeps : EditKeeps (contents old) (contents new) startLine editColumn) :
      MemoRun contents
        (memos.carryPlainPrefixMemosAcrossEdit (contents new) startLine editColumn old new)

/-- **The memos are exact in every run.** -/
theorem MemoRun.exact (run : MemoRun contents memos) : memos.Exact contents := by
  induction run with
  | cold =>
    intro memo mem valid
    rw [eq_of_mem_replicate mem] at valid
    exact absurd valid Bool.false_ne_true
  | query run found inside ih => exact (plainAsciiPrefixEndInto_spec ih found inside).2
  | edit run keeps ih => exact carry_spec keeps ih

end Exact

end Microide.Editor
