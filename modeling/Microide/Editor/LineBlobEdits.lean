/-
Line blobs as lists of lines.

The operations of the undo history on a blob. A prepend writes into the slack at the front; a
replacement leaves none. What an operation leaves spells the lines the same operation leaves of
a list while the bytes, slack included, stay below `2 ^ 32`.

**Main results.** `run_lines`: the blobs of any run of operations; `refines_lists`: with their
comparisons; `wide_append_loses_line`: past 32 bits a line is lost.
-/

import Mathlib
import Microide.Editor.LineBlob

namespace Microide.Editor

open List Bool Lib Text Function

variable {i : Nat}

namespace LineBlob

/-- `static_cast<std::uint32_t>`. -/
def offset (position : Nat) : Nat := position % 2 ^ 32

/-- `Bytes`: the content without the front slack. -/
def bytes (blob : LineBlob) : List UInt8 := blob.data.drop blob.head

def contentBytes (blob : LineBlob) : Nat := blob.data.length - blob.head

/-- `LogicalStart`, a difference of two `std::size_t`. -/
def logicalStart (blob : LineBlob) (index : Nat) : Nat :=
  (blob.startOf index + 2 ^ 64 - blob.head) % 2 ^ 64

/-- `SubRange`. -/
def subRange (blob : LineBlob) (first last : Nat) : LineBlob :=
  if last ≤ first ∨ blob.size ≤ first then {}
  else
    let clampedLast := min last blob.size
    let byteBegin := blob.startOf first
    let byteEnd := blob.endOf (clampedLast - 1)
    { data := slice blob.data byteBegin byteEnd
      starts := (List.range' first (clampedLast - first)).map fun i =>
        offset (blob.startOf i + 2 ^ 64 - byteBegin) }

def append (blob other : LineBlob) : LineBlob :=
  { blob with
    data := blob.data ++ other.bytes
    starts := blob.starts ++ (List.range other.size).map fun i =>
      offset (blob.data.length + other.logicalStart i) }

/-- `GrowFront`. Nothing reads the bytes and slots of the slack before they are written. -/
def growFront (blob : LineBlob) (bytes lines : Nat) : LineBlob where
  data := List.replicate bytes 0 ++ blob.bytes
  head := bytes
  starts := List.replicate lines 0 ++ (List.range blob.size).map fun i =>
    offset (bytes + blob.logicalStart i)
  firstLine := lines

/-- The bytes and offsets of `other` written into the slack right before the content. -/
def placeFront (blob other : LineBlob) : LineBlob :=
  let head := blob.head - other.contentBytes
  let firstLine := blob.firstLine - other.size
  { data := blob.data.take head ++ other.bytes ++ blob.data.drop (head + other.contentBytes)
    head := head
    starts := blob.starts.take firstLine ++
      ((List.range other.size).map fun i => offset (head + other.logicalStart i)) ++
      blob.starts.drop (firstLine + other.size)
    firstLine := firstLine }

def prepend (blob other : LineBlob) : LineBlob :=
  if other.size = 0 then blob
  else if blob.size = 0 then other
  else if blob.head < other.contentBytes ∨ blob.firstLine < other.size then
    (blob.growFront (max other.contentBytes blob.contentBytes) (max other.size blob.size)).placeFront
      other
  else blob.placeFront other

/-- `replace_range`: lines `first` to `last` become those of `other`. -/
def replaceRange (blob : LineBlob) (first last : Nat) (other : LineBlob) : LineBlob :=
  let lineCount := blob.size
  let first := min first lineCount
  let last := min (max last first) lineCount
  let byteFirst := if first < lineCount then blob.logicalStart first else blob.bytes.length
  let byteLast := if last < lineCount then blob.logicalStart last else blob.bytes.length
  let shift : Int := (other.contentBytes : Int) - ((byteLast : Int) - byteFirst)
  { data := blob.bytes.take byteFirst ++ other.bytes ++ blob.bytes.drop byteLast
    starts := (List.range first).map (fun i => offset (blob.logicalStart i)) ++
      (List.range other.size).map (fun i => offset (byteFirst + other.logicalStart i)) ++
      (List.range' last (lineCount - last)).map fun i =>
        (((blob.logicalStart i : Int) + shift) % 2 ^ 32).toNat }

def rangeEquals (blob : LineBlob) (first : Nat) (other : LineBlob) : Bool :=
  first + other.size ≤ blob.size &&
    (List.range other.size).all fun i => blob.line (first + i) == other.line i

/-- `operator==`. -/
def equal (blob other : LineBlob) : Bool :=
  (blob.size == other.size && blob.bytes == other.bytes) &&
    (List.range blob.size).all fun i => blob.logicalStart i == other.logicalStart i

/-! ### Where the lines start -/

variable {blob other : LineBlob} {lines more : List Line}

theorem range_starts (base : Nat) (lines : List Line) :
    (List.range lines.length).map (fun i => base + (lines.take i).flatten.length) =
      startsFrom base lines := by
  refine ext_getElem? fun i => ?_
  by_cases inside : i < lines.length
  · rw [getElem?_startsFrom base lines inside]
    simp [inside]
  · rw [getElem?_eq_none (by simpa using inside),
      getElem?_eq_none (by rw [length_startsFrom]; omega)]

theorem length_take_flatten_le (lines : List Line) (i : Nat) :
    (lines.take i).flatten.length ≤ lines.flatten.length := by
  have split := congrArg (fun l => (List.flatten l).length) (take_append_drop i lines)
  simp only [flatten_append, length_append] at split
  omega

section

variable (spells : blob.Spells lines)

include spells

theorem Spells.startOf (inside : i < lines.length) :
    blob.startOf i = blob.head + (lines.take i).flatten.length := by
  rw [LineBlob.startOf, getD_eq_getElem?_getD, ← getElem?_drop, spells.starts,
    getElem?_startsFrom _ _ inside, Option.getD_some]

theorem Spells.endOf (inside : i < lines.length) :
    blob.endOf i = blob.head + (lines.take (i + 1)).flatten.length := by
  rw [LineBlob.endOf, getD_eq_getElem?_getD, Nat.add_assoc, ← getElem?_drop, spells.starts]
  by_cases next : i + 1 < lines.length
  · rw [getElem?_startsFrom _ _ next, Option.getD_some]
  · rw [getElem?_eq_none (by rw [length_startsFrom]; omega), Option.getD_none,
      spells.length_data, take_of_length_le (by omega)]

theorem Spells.bytes_eq : blob.bytes = lines.flatten := spells.data

theorem Spells.contentBytes_eq : blob.contentBytes = lines.flatten.length := by
  rw [contentBytes, spells.length_data, Nat.add_sub_cancel_left]

end

/-- A blob whose offsets fit spells `lines`. -/
structure Keeps (blob : LineBlob) (lines : List Line) : Prop extends blob.Spells lines where
  fits : blob.data.length < 2 ^ 32

theorem Keeps.logicalStart (keeps : blob.Keeps lines) (inside : i < lines.length) :
    blob.logicalStart i = (lines.take i).flatten.length := by
  have start := keeps.startOf inside
  have length := keeps.length_data
  have fits := keeps.fits
  have within := length_take_flatten_le lines i
  rw [LineBlob.logicalStart, start]
  omega

/-- The offsets of the lines of `other` from `base` on. -/
theorem Keeps.offsets (keeps : other.Keeps more) {base : Nat}
    (room : base + more.flatten.length < 2 ^ 32) :
    ((List.range other.size).map fun i => offset (base + other.logicalStart i)) =
      startsFrom base more := by
  rw [keeps.size_eq, ← range_starts]
  refine map_congr_left fun i mem => ?_
  have within := length_take_flatten_le more i
  rw [keeps.logicalStart (mem_range.mp mem), offset, Nat.mod_eq_of_lt (by omega)]

/-! ### The operations -/

theorem keeps_empty : Keeps {} [] := ⟨spells_empty, by decide⟩

section

variable (keeps : blob.Keeps lines)

include keeps

theorem Keeps.pushBack (line : Line) (fits : (blob.pushBack line).data.length < 2 ^ 32) :
    (blob.pushBack line).Keeps (lines ++ [line]) :=
  ⟨keeps.toSpells.pushBack line keeps.fits, fits⟩

theorem Keeps.append (kept : other.Keeps more) (fits : (blob.append other).data.length < 2 ^ 32) :
    (blob.append other).Keeps (lines ++ more) := by
  have bytes := kept.bytes_eq
  have length := keeps.length_data
  have head := keeps.head_le
  have first := keeps.firstLine_le
  have room : blob.data.length + more.flatten.length < 2 ^ 32 := by
    simpa [LineBlob.append, bytes] using fits
  refine ⟨⟨?_, ?_, ?_, ?_⟩, fits⟩
  · simp only [LineBlob.append, length_append]
    omega
  · simp only [LineBlob.append, length_append]
    omega
  · simp only [LineBlob.append]
    rw [drop_append_of_le_length head, keeps.data, bytes, flatten_append]
  · simp only [LineBlob.append]
    rw [drop_append_of_le_length first, keeps.starts, kept.offsets room, startsFrom_append, length]

theorem Keeps.growFront {bytes slots : Nat}
    (fits : (blob.growFront bytes slots).data.length < 2 ^ 32) :
    (blob.growFront bytes slots).Keeps lines := by
  have content := keeps.bytes_eq
  have room : bytes + lines.flatten.length < 2 ^ 32 := by
    simpa [LineBlob.growFront, content] using fits
  have data : (List.replicate bytes (0 : UInt8)).length = bytes := length_replicate
  have starts : (List.replicate slots 0).length = slots := length_replicate
  refine ⟨⟨?_, ?_, ?_, ?_⟩, fits⟩
  · simp [LineBlob.growFront]
  · simp [LineBlob.growFront]
  · simp only [LineBlob.growFront]
    rw [drop_left' data, content]
  · simp only [LineBlob.growFront]
    rw [drop_left' starts, keeps.offsets room]

/-- Lines written into a slack that has room for them. -/
theorem Keeps.placeFront (kept : other.Keeps more) (bytes : other.contentBytes ≤ blob.head)
    (slots : other.size ≤ blob.firstLine) : (blob.placeFront other).Keeps (more ++ lines) := by
  have firstLine_le := keeps.firstLine_le
  have length := keeps.length_data
  have fits := keeps.fits
  have content := kept.contentBytes_eq
  have before : (blob.data.take (blob.head - other.contentBytes)).length =
      blob.head - other.contentBytes := length_take_of_le (by omega)
  have slotsBefore : (blob.starts.take (blob.firstLine - other.size)).length =
      blob.firstLine - other.size := length_take_of_le (by omega)
  have room : blob.head - other.contentBytes + more.flatten.length < 2 ^ 32 := by omega
  have same : blob.head - other.contentBytes + other.contentBytes = blob.head := by omega
  have sameSlots : blob.firstLine - other.size + other.size = blob.firstLine := by omega
  have data : (blob.placeFront other).data = blob.data.take (blob.head - other.contentBytes) ++
      (more.flatten ++ lines.flatten) := by
    simp only [LineBlob.placeFront]
    rw [same, keeps.data, kept.bytes_eq, append_assoc]
  have starts : (blob.placeFront other).starts = blob.starts.take (blob.firstLine - other.size) ++
      (startsFrom (blob.head - other.contentBytes) more ++ startsFrom blob.head lines) := by
    simp only [LineBlob.placeFront]
    rw [sameSlots, keeps.starts, kept.offsets room, append_assoc]
  refine ⟨⟨?_, ?_, ?_, ?_⟩, ?_⟩
  · rw [data, length_append, before]
    exact Nat.le_add_right _ _
  · rw [starts, length_append, slotsBefore]
    exact Nat.le_add_right _ _
  · rw [data, flatten_append]
    exact drop_left' before
  · have head : (blob.placeFront other).head = blob.head - other.contentBytes := rfl
    rw [starts, startsFrom_append, head, ← content, same]
    exact drop_left' slotsBefore
  · rw [data, length_append, length_append, before]
    omega

end

theorem placeFront_length (blob other : LineBlob) (bytes : other.contentBytes ≤ blob.head)
    (head : blob.head ≤ blob.data.length) :
    (blob.placeFront other).data.length = blob.data.length := by
  have content : other.bytes.length = other.contentBytes := length_drop
  simp only [LineBlob.placeFront, length_append, length_take, length_drop]
  omega

theorem Keeps.prepend (keeps : blob.Keeps lines) (kept : other.Keeps more)
    (fits : (blob.prepend other).data.length < 2 ^ 32) : (blob.prepend other).Keeps (more ++ lines) := by
  unfold LineBlob.prepend at fits ⊢
  split
  next none =>
    rw [kept.size_eq, length_eq_zero_iff] at none
    rwa [none]
  next some_ =>
    rw [if_neg some_] at fits
    split
    next none =>
      rw [keeps.size_eq, length_eq_zero_iff] at none
      rwa [none, append_nil]
    next filled =>
      rw [if_neg filled] at fits
      split
      next short =>
        rw [if_pos short] at fits
        have bytes : other.contentBytes ≤
            (blob.growFront (max other.contentBytes blob.contentBytes) (max other.size blob.size)).head :=
          Nat.le_max_left _ _
        rw [placeFront_length _ _ bytes (by simp [LineBlob.growFront])] at fits
        exact (keeps.growFront fits).placeFront kept bytes (Nat.le_max_left _ _)
      next room =>
        exact keeps.placeFront kept (by omega) (by omega)

theorem flatten_take_drop (lines : List Line) (i : Nat) :
    lines.flatten.take (lines.take i).flatten.length = (lines.take i).flatten ∧
      lines.flatten.drop (lines.take i).flatten.length = (lines.drop i).flatten := by
  have split : lines.flatten = (lines.take i).flatten ++ (lines.drop i).flatten := by
    rw [← flatten_append, take_append_drop]
  rw [split]
  exact ⟨take_left, drop_left⟩

/-- Where a run of lines begins, the end of the lines included. -/
theorem Keeps.boundary (keeps : blob.Keeps lines) (inside : i ≤ lines.length) :
    (if i < blob.size then blob.logicalStart i else blob.bytes.length) =
      (lines.take i).flatten.length := by
  rw [keeps.size_eq]
  split
  next within =>
    exact keeps.logicalStart within
  · rw [keeps.bytes_eq, take_of_length_le (by omega)]

/-- Offsets moved along with the bytes in front of them. -/
theorem Keeps.shifted (keeps : blob.Keeps lines) {last base : Nat} {shift : Int}
    (inside : last ≤ lines.length) (moved : (lines.take last).flatten.length + shift = base)
    (room : base + (lines.drop last).flatten.length < 2 ^ 32) :
    ((List.range' last (blob.size - last)).map fun i =>
        (((blob.logicalStart i : Int) + shift) % 2 ^ 32).toNat) =
      startsFrom base (lines.drop last) := by
  rw [keeps.size_eq, ← range_starts, length_drop, range'_eq_map_range, map_map]
  refine map_congr_left fun i mem => ?_
  have within := mem_range.mp mem
  have split : (lines.take (last + i)).flatten =
      (lines.take last).flatten ++ ((lines.drop last).take i).flatten := by
    rw [take_add, flatten_append]
  have bound := length_take_flatten_le (lines.drop last) i
  rw [comp_apply, keeps.logicalStart (by omega), split, length_append]
  omega

theorem Keeps.replaceRange (keeps : blob.Keeps lines) (kept : other.Keeps more) (first last : Nat)
    (fits : (blob.replaceRange first last other).data.length < 2 ^ 32) :
    (blob.replaceRange first last other).Keeps
      (lines.take first ++ more ++ lines.drop (max first last)) := by
  have size := keeps.size_eq
  obtain ⟨f, f_eq⟩ : ∃ f, f = min first blob.size := ⟨_, rfl⟩
  obtain ⟨l, l_eq⟩ : ∃ l, l = min (max last f) blob.size := ⟨_, rfl⟩
  have f_le : f ≤ lines.length := by omega
  have l_le : l ≤ lines.length := by omega
  have before : lines.take first = lines.take f := by
    rcases Nat.le_total first lines.length with inside | outside
    · rw [f_eq, size, Nat.min_eq_left inside]
    · rw [f_eq, size, Nat.min_eq_right outside, take_of_length_le outside, take_length]
  have behind : lines.drop (max first last) = lines.drop l := by
    by_cases inside : max first last ≤ lines.length
    · rw [show l = max first last by omega]
    · rw [drop_eq_nil_of_le (by omega), drop_eq_nil_of_le (by omega)]
  have data : (blob.replaceRange first last other).data =
      (lines.take f).flatten ++ more.flatten ++ (lines.drop l).flatten := by
    unfold LineBlob.replaceRange
    dsimp only
    rw [← f_eq, ← l_eq, keeps.boundary f_le, keeps.boundary l_le, keeps.bytes_eq, kept.bytes_eq,
      (flatten_take_drop lines f).1, (flatten_take_drop lines l).2]
  have room : (lines.take f).flatten.length + more.flatten.length +
      (lines.drop l).flatten.length < 2 ^ 32 := by
    rwa [data, length_append, length_append] at fits
  have kepts : ((List.range f).map fun i => offset (blob.logicalStart i)) =
      startsFrom 0 (lines.take f) := by
    rw [← range_starts, length_take_of_le f_le]
    refine map_congr_left fun i mem => ?_
    have within := mem_range.mp mem
    have bound := length_take_flatten_le (lines.take f) i
    rw [take_take, Nat.min_eq_left (by omega)] at bound ⊢
    rw [keeps.logicalStart (by omega), offset, Nat.mod_eq_of_lt (by omega), Nat.zero_add]
  have starts : (blob.replaceRange first last other).starts =
      startsFrom 0 (lines.take f) ++ startsFrom (lines.take f).flatten.length more ++
        startsFrom ((lines.take f).flatten.length + more.flatten.length) (lines.drop l) := by
    unfold LineBlob.replaceRange
    dsimp only
    rw [← f_eq, ← l_eq, keeps.boundary f_le, keeps.boundary l_le, kept.offsets (by omega), kepts,
      kept.contentBytes_eq, @Keeps.shifted blob lines keeps l ((lines.take f).flatten.length + more.flatten.length) _ l_le
        (by omega) (by omega)]
  refine ⟨⟨Nat.zero_le _, Nat.zero_le _, ?_, ?_⟩, fits⟩
  · change (blob.replaceRange first last other).data = _
    rw [data, before, behind]
    simp
  · change (blob.replaceRange first last other).starts = startsFrom 0 _
    rw [starts, before, behind, startsFrom_append, startsFrom_append, flatten_append,
      length_append, Nat.zero_add, Nat.zero_add]

theorem Keeps.subRange (keeps : blob.Keeps lines) (first last : Nat) :
    (blob.subRange first last).Keeps (slice lines first last) := by
  have size := keeps.size_eq
  have fits := keeps.fits
  have length := keeps.length_data
  unfold LineBlob.subRange
  split
  next none =>
    rw [slice_eq_nil_iff.mpr (by omega)]
    exact keeps_empty
  next some_ =>
    obtain ⟨l, l_eq⟩ : ∃ l, l = min last blob.size := ⟨_, rfl⟩
    have begin_ : blob.startOf first = blob.head + (lines.take first).flatten.length :=
      keeps.startOf (by omega)
    have end_ : blob.endOf (l - 1) = blob.head + (lines.take (l - 1 + 1)).flatten.length :=
      keeps.endOf (by omega)
    rw [show l - 1 + 1 = l by omega] at end_
    have cut : slice lines first last = (lines.take l).drop first := by
      rw [slice]
      rcases Nat.le_total last lines.length with inside | outside
      · rw [show l = last by omega]
      · rw [take_of_length_le outside, take_of_length_le (by omega)]
    have prefix_ : lines.take first = (lines.take l).take first := by
      rw [take_take, Nat.min_eq_left (by omega)]
    have data : slice blob.data (blob.head + (lines.take first).flatten.length)
        (blob.head + (lines.take l).flatten.length) = (slice lines first last).flatten := by
      rw [slice, ← drop_drop, ← take_drop, keeps.data, (flatten_take_drop lines l).1, prefix_,
        (flatten_take_drop (lines.take l) first).2, cut]
    dsimp only
    rw [← l_eq, begin_, end_, data]
    refine ⟨⟨Nat.zero_le _, Nat.zero_le _, rfl, ?_⟩, ?_⟩
    · change (List.range' first (l - first)).map _ = startsFrom 0 (slice lines first last)
      have count : (slice lines first last).length = l - first := by
        rw [cut, length_drop, length_take_of_le (by omega)]
      rw [← range_starts, count, range'_eq_map_range, map_map]
      refine map_congr_left fun i mem => ?_
      have within := mem_range.mp mem
      have whole : (lines.take (first + i)).flatten.length =
          (lines.take first).flatten.length + ((slice lines first last).take i).flatten.length := by
        rw [take_add, flatten_append, length_append, cut, drop_take, take_take,
          Nat.min_eq_left (by omega)]
      have bound := length_take_flatten_le lines (first + i)
      rw [comp_apply, keeps.startOf (by omega), whole, offset]
      omega
    · rw [← data]
      refine Nat.lt_of_le_of_lt ?_ fits
      rw [length_slice]
      omega

/-! ### The comparisons -/

theorem Keeps.line_eq (keeps : blob.Keeps lines) (inside : i < lines.length) :
    lines[i]? = some (blob.line i) := by
  have whole := keeps.toVector_eq
  rw [← whole, toVector, getElem?_map, getElem?_range (by rw [keeps.size_eq]; exact inside)]
  rfl

theorem Keeps.rangeEquals_iff (keeps : blob.Keeps lines) (kept : other.Keeps more) (first : Nat) :
    blob.rangeEquals first other = true ↔
      first + more.length ≤ lines.length ∧ slice lines first (first + more.length) = more := by
  unfold LineBlob.rangeEquals
  rw [and_eq_true, decide_eq_true_eq, all_eq_true, keeps.size_eq, kept.size_eq]
  refine and_congr_right fun inside => ?_
  have cell : ∀ i, i < more.length →
      (slice lines first (first + more.length))[i]? = some (blob.line (first + i)) := fun i within => by
    rw [getElem?_slice, if_pos (by omega), keeps.line_eq (by omega)]
  constructor
  · intro same
    refine ext_getElem? fun i => ?_
    by_cases within : i < more.length
    · rw [cell i within, kept.line_eq within, beq_iff_eq.mp (same i (mem_range.mpr within))]
    · rw [getElem?_eq_none (by rw [length_slice]; omega), getElem?_eq_none (by omega)]
  · intro same i mem
    have within := mem_range.mp mem
    have line := cell i within
    rw [same, kept.line_eq within] at line
    exact beq_iff_eq.mpr (Option.some.inj line).symm

/-- Lines are told apart by their bytes and where they start. -/
theorem startsFrom_inj (lines : List Line) : ∀ (base : Nat) (more : List Line),
    lines.flatten = more.flatten → startsFrom base lines = startsFrom base more → lines = more := by
  induction lines with
  | nil =>
    intro base more _ starts
    cases more with
    | nil => rfl
    | cons => exact absurd starts.symm (cons_ne_nil _ _)
  | cons line lines ih =>
    intro base more flat starts
    cases more with
    | nil => exact absurd starts (cons_ne_nil _ _)
    | cons line' more =>
      rw [startsFrom, startsFrom, List.cons.injEq] at starts
      obtain ⟨-, starts⟩ := starts
      have lengths : line.length = line'.length := by
        have count := congrArg List.length starts
        rw [length_startsFrom, length_startsFrom] at count
        have total := congrArg List.length flat
        cases lines with
        | nil =>
          obtain rfl := length_eq_zero_iff.mp count.symm
          simpa using total
        | cons first lines =>
          cases more with
          | nil => exact absurd count (Nat.succ_ne_zero _)
          | cons first' more =>
            rw [startsFrom, startsFrom, List.cons.injEq] at starts
            omega
      obtain ⟨rfl, rest⟩ := append_inj flat lengths
      rw [ih (base + line.length) more rest starts]

theorem Keeps.equal_iff (keeps : blob.Keeps lines) (kept : other.Keeps more) :
    blob.equal other = true ↔ lines = more := by
  unfold LineBlob.equal
  rw [and_eq_true, and_eq_true, beq_iff_eq, beq_iff_eq, all_eq_true, keeps.size_eq,
    kept.size_eq, keeps.bytes_eq, kept.bytes_eq]
  constructor
  · rintro ⟨⟨count, same⟩, starts⟩
    refine startsFrom_inj lines 0 more same ?_
    rw [← range_starts, ← range_starts, ← count]
    refine map_congr_left fun i mem => ?_
    have within := mem_range.mp mem
    have start := beq_iff_eq.mp (starts i mem)
    rw [keeps.logicalStart within, kept.logicalStart (by omega)] at start
    rw [start]
  · rintro rfl
    refine ⟨⟨rfl, rfl⟩, fun i mem => ?_⟩
    have within := mem_range.mp mem
    rw [beq_iff_eq, keeps.logicalStart within, kept.logicalStart within]

/-! ### Runs of operations -/

end LineBlob

/-- An operation on numbered blobs; `target` may be `source`. -/
inductive BlobEdit where
  | pushBack (target : Nat) (line : Line)
  | append (target source : Nat)
  | prepend (target source : Nat)
  | replaceRange (target first last source : Nat)
  | subRange (target source first last : Nat)

namespace BlobEdit

def target : BlobEdit → Nat
  | pushBack target _ => target
  | append target _ => target
  | prepend target _ => target
  | replaceRange target _ _ _ => target
  | subRange target _ _ _ => target

/-- What the operation puts in its target. -/
def result (blobs : Nat → LineBlob) : BlobEdit → LineBlob
  | pushBack target line => (blobs target).pushBack line
  | append target source => (blobs target).append (blobs source)
  | prepend target source => (blobs target).prepend (blobs source)
  | replaceRange target first last source => (blobs target).replaceRange first last (blobs source)
  | subRange _ source first last => (blobs source).subRange first last

def apply (blobs : Nat → LineBlob) (edit : BlobEdit) : Nat → LineBlob :=
  Function.update blobs edit.target (edit.result blobs)

/-- The same of lists of lines. -/
def listResult (lists : Nat → List Line) : BlobEdit → List Line
  | pushBack target line => lists target ++ [line]
  | append target source => lists target ++ lists source
  | prepend target source => lists source ++ lists target
  | replaceRange target first last source =>
      (lists target).take first ++ lists source ++ (lists target).drop (max first last)
  | subRange _ source first last => slice (lists source) first last

def applyToLists (lists : Nat → List Line) (edit : BlobEdit) : Nat → List Line :=
  Function.update lists edit.target (edit.listResult lists)

end BlobEdit

/-- Every operation leaves a blob whose bytes, slack included, its offsets reach. -/
def OffsetsFit : (Nat → LineBlob) → List BlobEdit → Prop
  | _, [] => True
  | blobs, edit :: rest =>
      (edit.result blobs).data.length < 2 ^ 32 ∧ OffsetsFit (edit.apply blobs) rest

open LineBlob

theorem result_keeps {blobs : Nat → LineBlob} {lists : Nat → List Line}
    (keeps : ∀ i, (blobs i).Keeps (lists i)) {edit : BlobEdit}
    (fits : (edit.result blobs).data.length < 2 ^ 32) :
    (edit.result blobs).Keeps (edit.listResult lists) := by
  cases edit with
  | pushBack target line => exact (keeps target).pushBack line fits
  | append target source => exact (keeps target).append (keeps source) fits
  | prepend target source => exact (keeps target).prepend (keeps source) fits
  | replaceRange target first last source =>
    exact (keeps target).replaceRange (keeps source) first last fits
  | subRange target source first last => exact (keeps source).subRange first last

theorem apply_keeps {blobs : Nat → LineBlob} {lists : Nat → List Line}
    (keeps : ∀ i, (blobs i).Keeps (lists i)) {edit : BlobEdit}
    (fits : (edit.result blobs).data.length < 2 ^ 32) (i : Nat) :
    (edit.apply blobs i).Keeps (edit.applyToLists lists i) := by
  unfold BlobEdit.apply BlobEdit.applyToLists
  by_cases same : i = edit.target
  · rw [same, update_self, update_self]
    exact result_keeps keeps fits
  · rw [update_of_ne same, update_of_ne same]
    exact keeps i

theorem run_keeps (edits : List BlobEdit) : ∀ {blobs : Nat → LineBlob} {lists : Nat → List Line},
    (∀ i, (blobs i).Keeps (lists i)) → OffsetsFit blobs edits →
    ∀ i, (edits.foldl BlobEdit.apply blobs i).Keeps (edits.foldl BlobEdit.applyToLists lists i) := by
  induction edits with
  | nil => exact fun keeps _ => keeps
  | cons edit rest ih =>
    rintro blobs lists keeps ⟨fits, more⟩
    exact ih (apply_keeps keeps fits) more

/-- **Line blobs refine lists of lines** while their offsets reach all of their bytes. -/
theorem refines_lists (edits : List BlobEdit) (fits : OffsetsFit (fun _ => {}) edits) :
    let blobs := edits.foldl BlobEdit.apply fun _ => {}
    let lists := edits.foldl BlobEdit.applyToLists fun _ => []
    (∀ i, (blobs i).toVector = lists i) ∧
    (∀ i j, (blobs i).equal (blobs j) = true ↔ lists i = lists j) ∧
    ∀ i j first, (blobs i).rangeEquals first (blobs j) = true ↔
      first + (lists j).length ≤ (lists i).length ∧
        slice (lists i) first (first + (lists j).length) = lists j := by
  intro blobs lists
  have keeps : ∀ i, (blobs i).Keeps (lists i) := run_keeps edits (fun _ => keeps_empty) fits
  refine ⟨fun i => (keeps i).toVector_eq, fun i j => ?_, fun i j first => ?_⟩
  · exact (keeps i).equal_iff (keeps j)
  · exact (keeps i).rangeEquals_iff (keeps j) first

theorem refines_lists_aliased :
    (([.pushBack 0 [0x61], .pushBack 0 [], .prepend 0 0, .replaceRange 0 1 3 0, .subRange 1 0 2 5] :
        List BlobEdit).foldl BlobEdit.apply (fun _ => {}) 1).toVector = [[], [0x61], []] :=
  (refines_lists [.pushBack 0 [0x61], .pushBack 0 [], .prepend 0 0, .replaceRange 0 1 3 0,
    .subRange 1 0 2 5] ⟨by decide, by decide, by decide, by decide, by decide, trivial⟩).1 1

/-- A line that starts at `2 ^ 32` is given the offset zero, which empties the line before it. -/
theorem append_wide (big : Line) (wide : big.length = 2 ^ 32) :
    ((({} : LineBlob).pushBack big).append (({} : LineBlob).pushBack [0x62])).toVector.head? = some [] := by
  simp [LineBlob.append, LineBlob.pushBack, LineBlob.toVector, LineBlob.size, LineBlob.line,
    LineBlob.startOf, LineBlob.endOf, LineBlob.logicalStart, LineBlob.offset, range_succ,
    wide]

/-- A run of operations whose last one puts a line past the reach of the offsets. -/
def wideAppend (big : Line) : List BlobEdit := [.pushBack 0 big, .pushBack 1 [0x62], .append 0 1]

theorem wideAppend_loses_line (big : Line) (wide : big.length = 2 ^ 32) :
    ((wideAppend big).foldl BlobEdit.apply (fun _ => {}) 0).toVector ≠
      (wideAppend big).foldl BlobEdit.applyToLists (fun _ => []) 0 := by
  have blob : (wideAppend big).foldl BlobEdit.apply (fun _ => {}) 0 =
      (({} : LineBlob).pushBack big).append (({} : LineBlob).pushBack [0x62]) := by
    simp [wideAppend, BlobEdit.apply, BlobEdit.result, BlobEdit.target]
  have list : (wideAppend big).foldl BlobEdit.applyToLists (fun _ => []) 0 = [big, [0x62]] := by
    simp [wideAppend, BlobEdit.applyToLists, BlobEdit.listResult, BlobEdit.target]
  rw [blob, list]
  intro same
  have first := append_wide big wide
  rw [same] at first
  obtain rfl : big = [] := Option.some.inj first
  exact absurd wide (by decide)

theorem wide_append_loses_line :
    ((wideAppend (List.replicate (2 ^ 32) 0x61)).foldl BlobEdit.apply (fun _ => {}) 0).toVector ≠
      (wideAppend (List.replicate (2 ^ 32) 0x61)).foldl BlobEdit.applyToLists (fun _ => []) 0 :=
  wideAppend_loses_line _ length_replicate

end Microide.Editor
