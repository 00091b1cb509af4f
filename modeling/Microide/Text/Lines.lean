/-
Bytes, lines and the line splitter.

The text helpers of `util/StringUtil` that the compare, merge and staging code stands
on. A text is its bytes; a line is the bytes between two terminators. `SplitLineViews`
breaks at `"\n"`, at `"\r"` and at the pair `"\r\n"`, and always yields a last segment,
which is empty when the text ends in a terminator (the *phantom* line).

**Main results.** `splitLineViews_eq_splitOn`: on a text with no `'\r'` the splitter is
the split at `'\n'`; `joinLines_splitLineViews`: joining gives the text back.
-/

import Microide.Lib.Slice

namespace Microide.Text

/-- The bytes of one line, without its terminator. -/
abbrev Line := List UInt8

/-- `'\n'`. -/
def lf : UInt8 := 10

/-- `'\r'`. -/
def cr : UInt8 := 13

/-- The bytes of an ASCII string. -/
def ascii (s : String) : List UInt8 :=
  s.toList.map fun c => UInt8.ofNat c.toNat

/-! ### Byte classes -/

/-- `util::IsAsciiSpace`: the "C" locale `isspace` set. -/
def isAsciiSpace (c : UInt8) : Bool :=
  c == 0x20 || (0x09 ≤ c && c ≤ 0x0D)

/-- `util::IsAsciiDigit`. -/
def isAsciiDigit (c : UInt8) : Bool :=
  0x30 ≤ c && c ≤ 0x39

/-- `util::IsAsciiAlpha`. -/
def isAsciiAlpha (c : UInt8) : Bool :=
  (0x41 ≤ c && c ≤ 0x5A) || (0x61 ≤ c && c ≤ 0x7A)

/-- `util::IsAsciiAlnum`. -/
def isAsciiAlnum (c : UInt8) : Bool :=
  isAsciiAlpha c || isAsciiDigit c

/-- `util::IsUtf8ContinuationByte`. -/
def isUtf8ContinuationByte (byte : UInt8) : Bool :=
  (byte &&& 0xC0) == 0x80

/-- `util::Utf8SequenceLength(text, offset)`, on the bytes from `offset` on: the length
of the well-formed sequence that starts there, `1` for a byte that starts none, and `0`
past the end. -/
def utf8SequenceLength : List UInt8 → Nat
  | [] => 0
  | lead :: rest =>
    let continuation (count : Nat) : Bool :=
      count ≤ rest.length && (rest.take count).all isUtf8ContinuationByte
    let second := rest.headD 0
    if lead ≤ 0x7F then 1
    else if 0xC2 ≤ lead && lead ≤ 0xDF && continuation 1 then 2
    else if lead == 0xE0 && continuation 2 && (0xA0 ≤ second && second ≤ 0xBF) then 3
    else if ((0xE1 ≤ lead && lead ≤ 0xEC) || (0xEE ≤ lead && lead ≤ 0xEF)) && continuation 2 then 3
    else if lead == 0xED && continuation 2 && (0x80 ≤ second && second ≤ 0x9F) then 3
    else if lead == 0xF0 && continuation 3 && (0x90 ≤ second && second ≤ 0xBF) then 4
    else if 0xF1 ≤ lead && lead ≤ 0xF3 && continuation 3 then 4
    else if lead == 0xF4 && continuation 3 && (0x80 ≤ second && second ≤ 0x8F) then 4
    else 1

/-! ### Splitting a text into lines -/

/-- The scan of `util::SplitLineViewsInto`: `line` is the segment read so far, and
`afterCr` says that the byte before was a `'\r'`, whose `'\n'` belongs to the same
break. -/
def splitLinesFrom (line : Line) (afterCr : Bool) : List UInt8 → List Line
  | [] => [line]
  | c :: rest =>
    if c = cr then line :: splitLinesFrom [] true rest
    else if c = lf then
      if afterCr then splitLinesFrom line false rest
      else line :: splitLinesFrom [] false rest
    else splitLinesFrom (line ++ [c]) false rest

/-- `util::SplitLineViews`. -/
def splitLineViews (content : List UInt8) : List Line :=
  splitLinesFrom [] false content

/-- `util::JoinLines`. -/
def joinLines (lines : List Line) (separator : List UInt8) : List UInt8 :=
  separator.intercalate lines

theorem splitLinesFrom_ne_nil (line : Line) (afterCr : Bool) (content : List UInt8) :
    splitLinesFrom line afterCr content ≠ [] := by
  induction content generalizing line afterCr with
  | nil => simp [splitLinesFrom]
  | cons c rest ih =>
      rw [splitLinesFrom]
      split
      · simp
      · split
        · split
          · exact ih _ _
          · simp
        · exact ih _ _

/-- A text always has a line: the empty text has one empty line. -/
theorem splitLineViews_ne_nil (content : List UInt8) : splitLineViews content ≠ [] :=
  splitLinesFrom_ne_nil _ _ _

/-- After a final `'\n'` the splitter's last line is empty. -/
theorem splitLinesFrom_getLast? (line : Line) (afterCr : Bool) (content : List UInt8)
    (hline : afterCr = true → line = []) :
    (splitLinesFrom line afterCr (content ++ [lf])).getLast? = some [] := by
  induction content generalizing line afterCr with
  | nil =>
      have hne : lf ≠ cr := by decide
      cases afterCr with
      | false => simp [splitLinesFrom]
      | true => simp [splitLinesFrom, hne, hline rfl]
  | cons c rest ih =>
      have hcons : ∀ (l : Line) (ls : List Line), ls.getLast? = some [] →
          (l :: ls).getLast? = some [] := by
        intro l ls h
        rw [List.getLast?_cons, h]
        rfl
      rw [List.cons_append, splitLinesFrom]
      split
      · exact hcons _ _ (ih [] true (by simp))
      · split
        · split
          · exact ih line false (by simp)
          · exact hcons _ _ (ih [] false (by simp))
        · exact ih _ false (by simp)

theorem splitLineViews_concat_lf (content : List UInt8) :
    (splitLineViews (content ++ [lf])).getLast? = some [] :=
  splitLinesFrom_getLast? [] false content (by simp)

variable {content : List UInt8}

theorem splitLinesFrom_eq_splitOn (line : Line) (hcr : cr ∉ content) :
    splitLinesFrom line false content = (content.splitOn lf).modifyHead (line ++ ·) := by
  induction content generalizing line with
  | nil => simp [splitLinesFrom]
  | cons c rest ih =>
      simp only [List.mem_cons, not_or] at hcr
      obtain ⟨hc, hrest⟩ := hcr
      rw [splitLinesFrom, if_neg (Ne.symm hc), List.splitOn_cons_eq_if_modifyHead]
      by_cases hlf : c = lf
      · rw [if_pos hlf, if_neg Bool.false_ne_true, if_pos (by simpa using hlf), ih [] hrest]
        cases rest.splitOn lf <;> simp
      · rw [if_neg hlf, if_neg (by simpa using hlf), ih _ hrest]
        cases rest.splitOn lf <;> simp

/-- **On a text without `'\r'` the splitter splits at `'\n'` and nowhere else.** -/
theorem splitLineViews_eq_splitOn (hcr : cr ∉ content) :
    splitLineViews content = content.splitOn lf := by
  rw [splitLineViews, splitLinesFrom_eq_splitOn [] hcr]
  cases content.splitOn lf <;> simp

/-- Joining the lines of a text without `'\r'` gives the text back. -/
theorem joinLines_splitLineViews (hcr : cr ∉ content) :
    joinLines (splitLineViews content) [lf] = content := by
  rw [splitLineViews_eq_splitOn hcr, joinLines, List.intercalate_splitOn]

end Microide.Text
