/-
What `FormatJson` writes.

On the text of a node the formatter writes the text of another: its blanks laid out anew, the
members of its objects sorted by their spelled keys (`formatted`). A second pass changes
nothing.

**Main results.** `formatJson_text`: what the formatter writes; `formatted_formatted`: the
second pass.
-/

import Microide.Util.JsonFormat
import Microide.Util.JsonSerialize

namespace Microide.Util

open List Lib.Json Lib Node

/-! ### The layout -/

def lineBreak (unit : List Blank) (level : Nat) : List Blank :=
  .lineFeed :: (List.replicate level unit).flatten

/-- Entries with `inner` before each and `outer` after the last. -/
def laid {α : Type} (inner outer : List Blank) : List α → List (Padded α)
  | [] => []
  | [a] => [⟨inner, a, outer⟩]
  | a :: b :: more => ⟨inner, a, []⟩ :: laid inner outer (b :: more)

/-- The rank of a member: its spelled key. -/
def memberRank {α : Type} (m : Keyed α) : List NaturalToken := naturalRank (spelling m.key)

/-- A member as it is laid out. -/
def spaced {α : Type} (key : List Piece) (value : α) : Keyed α := ⟨key, [], [.space], value⟩

section Formatted

variable (unit : List Blank)

/-- The node the formatter writes for a node at a level. -/
def formatted : Node → Nat → Node :=
  Node.fold (fun s _ => .scalar s)
    (fun _ items level => .array []
      (laid (lineBreak unit (level + 1)) (lineBreak unit level) (items.map (·.entry (level + 1)))))
    (fun _ members level => .object []
      (laid (lineBreak unit (level + 1)) (lineBreak unit level)
        (sortBy memberRank (members.map fun p => spaced p.entry.key (p.entry.value (level + 1))))))

theorem formatted_scalar (s : Scalar) (level : Nat) :
    formatted unit (.scalar s) level = .scalar s :=
  congrFun (fold_scalar ..) level

theorem formatted_array (gap : List Blank) (items : List (Padded Node)) (level : Nat) :
    formatted unit (.array gap items) level =
      .array [] (laid (lineBreak unit (level + 1)) (lineBreak unit level)
        (items.map fun p => formatted unit p.entry (level + 1))) := by
  unfold formatted
  rw [fold_array, map_map]
  rfl

theorem formatted_object (gap : List Blank) (members : List (Padded (Keyed Node))) (level : Nat) :
    formatted unit (.object gap members) level =
      .object [] (laid (lineBreak unit (level + 1)) (lineBreak unit level)
        (sortBy memberRank (members.map fun p =>
          spaced p.entry.key (formatted unit p.entry.value (level + 1))))) := by
  unfold formatted
  rw [fold_object, map_map]
  rfl

end Formatted

theorem map_entry_laid {α : Type} (inner outer : List Blank) (l : List α) :
    (laid inner outer l).map (·.entry) = l := by
  induction l using laid.induct with
  | case1 => rfl
  | case2 a => rfl
  | case3 a b more ih => rw [laid, map_cons, ih]

theorem mem_laid {α : Type} {inner outer : List Blank} {l : List α} {p : Padded α}
    (mem : p ∈ laid inner outer l) : p.entry ∈ l := by
  have mapped := mem_map_of_mem (f := fun p : Padded α => p.entry) mem
  rwa [map_entry_laid] at mapped

theorem blanks_lineBreak (unit : List Blank) (level : Nat) :
    blanks (lineBreak unit level) = 0x0A :: writeIndent (blanks unit) level := by
  unfold lineBreak writeIndent
  rw [blanks_cons, blanks, map_flatten, map_replicate]
  rfl

theorem flatMap_laid {α : Type} (inner outer : List Blank) (f : α → Bytes) (a : α) (more : List α) :
    (laid inner outer (a :: more)).flatMap (fun p => comma :: p.text f) =
      (a :: more).flatMap (fun b => comma :: (blanks inner ++ f b)) ++ blanks outer := by
  induction more generalizing a with
  | nil => simp [laid, Padded.text]
  | cons b more ih =>
    rw [laid, flatMap_cons, ih, flatMap_cons (x := a)]
    simp [Padded.text]

/-- What the formatter writes between brackets is the text of the laid out list. -/
theorem laidOut_eq {α : Type} (unit : List Blank) (level : Nat) (opening closing : UInt8)
    (f : α → Bytes) (l : List α) : laidOut (blanks unit) level opening closing (l.map f) =
      opening :: (listText f []
        (laid (lineBreak unit (level + 1)) (lineBreak unit level) l) ++ [closing]) := by
  cases l with
  | nil => rfl
  | cons first more =>
    cases more with
    | nil => simp [laid, laidOut, listText, Padded.text, blanks_lineBreak]
    | cons next more =>
      rw [laid, listText, flatMap_laid, map_cons, laidOut]
      simp [Padded.text, blanks_lineBreak, flatMap_map]

/-! ### What the formatter writes -/

/-- On `text`, whatever ends it, the reader writes `out`. -/
def Copies {α : Type} (reader : FormatReader α) (text : Bytes) (out : α) : Prop :=
  ∀ rest, Ends rest → reader (text ++ rest) = .ok (out, rest)

theorem copyHex_bytes (digits : List HexDigit) (rest : Bytes) :
    copyHex digits.length (digits.map HexDigit.byte ++ rest) =
      .ok (digits.map HexDigit.byte, rest) := by
  induction digits with
  | nil => rfl
  | cons d digits ih =>
    rw [length_cons, map_cons, cons_append, copyHex, hexDigitValue_byte]
    rw [ih]
    rfl

theorem copyChars_spelling (start : Nat) (pieces : List Piece) : ∀ steps rest,
    pieces.length < steps →
    copyChars start steps (spelling pieces ++ quote :: rest) =
      .ok (spelling pieces ++ [quote], rest) := by
  induction pieces with
  | nil =>
    intro steps rest enough
    obtain ⟨steps, rfl⟩ := Nat.exists_eq_add_one.mpr enough
    rfl
  | cons piece pieces ih =>
    intro steps rest enough
    obtain ⟨steps, rfl⟩ := Nat.exists_eq_add_one.mpr (Nat.zero_lt_of_lt enough)
    have more := ih steps rest (Nat.lt_of_succ_lt_succ enough)
    cases piece with
    | plain b ordinary =>
      obtain ⟨control, notQuote, notBackslash⟩ := ordinary_iff.mp ordinary
      change copyChars start (steps + 1) (b :: (spelling pieces ++ quote :: rest)) = _
      rw [copyChars.eq_def]
      dsimp only
      rw [if_neg control, if_neg notQuote, if_pos notBackslash, more]
      rfl
    | escape e =>
      change copyChars start (steps + 1)
        (backslash :: e.byte :: (spelling pieces ++ quote :: rest)) = _
      rw [copyChars.eq_def]
      dsimp only
      rw [if_neg (by decide), if_neg (by decide), if_neg (by decide), if_neg (escape_byte_ne e),
        escapedByte_byte, Option.isSome_some, if_pos rfl, more]
      rfl
    | unicode d₁ d₂ d₃ d₄ =>
      have hex := copyHex_bytes [d₁, d₂, d₃, d₄] (spelling pieces ++ quote :: rest)
      change copyChars start (steps + 1) (backslash :: 0x75 ::
        ([d₁, d₂, d₃, d₄].map HexDigit.byte ++ (spelling pieces ++ quote :: rest))) = _
      rw [copyChars.eq_def]
      dsimp only
      rw [show 4 = [d₁, d₂, d₃, d₄].length from rfl, hex]
      dsimp only
      rw [more]
      rfl

theorem length_le_spelling (pieces : List Piece) : pieces.length ≤ (spelling pieces).length := by
  refine Lib.length_le_flatMap (fun piece => ?_) pieces
  cases piece <;> exact Nat.succ_pos _

theorem copyString_text (pieces : List Piece) (rest : Bytes) :
    copyString (stringText pieces ++ rest) = .ok (stringText pieces, rest) := by
  have few := length_le_spelling pieces
  have enough : pieces.length < ((spelling pieces ++ [quote]) ++ rest).length + 1 := by
    rw [length_append, length_append]
    omega
  have copied := copyChars_spelling (((spelling pieces ++ [quote]) ++ rest).length + 1) pieces _ rest
    enough
  unfold stringText
  rw [cons_append, copyString]
  rw [append_assoc] at copied ⊢
  rw [singleton_append] at copied ⊢
  rw [copied]
  rfl

theorem copyNumber_text (n : Number) : Copies copyNumber n.text n.text := by
  intro rest ends
  have read := takeNumber_text n rest ends
  unfold takeNumber at read
  dsimp only at read
  obtain ⟨⟨whole, afterWhole⟩, wholeRead, read⟩ := Option.bind_eq_some_iff.mp read
  obtain ⟨⟨fraction, afterFraction⟩, fractionRead, read⟩ := Option.bind_eq_some_iff.mp read
  obtain ⟨⟨exponent, afterExponent⟩, exponentRead, read⟩ := Option.bind_eq_some_iff.mp read
  obtain ⟨-, rfl⟩ := Prod.mk.inj (Option.some.inj read)
  unfold copyNumber
  rw [wholeRead]
  dsimp only
  rw [fractionRead]
  dsimp only
  rw [exponentRead]
  dsimp only
  rw [length_append, Nat.add_sub_cancel, take_left]

theorem copyLiteral_text (token : Bytes) (rest : Bytes) :
    copyLiteral token (token ++ rest) = .ok (token, rest) := by
  unfold copyLiteral
  rw [take_left, if_pos rfl, drop_left]

section Copied

variable {α β : Type} {entry : FormatReader α} {text : β → Bytes} {close : UInt8}

/-- A list of entries is copied where each of them is. -/
theorem copyEntries_text (message : String) (closes : closesList close) {out : β → α}
    (first : Padded β) (more : List (Padded β))
    (copies : ∀ p ∈ first :: more, Copies entry (blanks p.before ++ text p.entry) (out p.entry))
    {steps : Nat} (enough : more.length < steps) (rest : Bytes) :
    copyEntries entry close message steps
        (first.text text ++ (more.flatMap (fun p => comma :: p.text text) ++ close :: rest)) =
      .ok ((first :: more).map (out ·.entry), rest) := by
  induction more generalizing first steps with
  | nil =>
    obtain ⟨steps, rfl⟩ := Nat.exists_eq_add_one.mpr enough
    have copied := copies first (mem_cons_self ..) (blanks first.after ++ close :: rest)
      (Ends.blanks (HeadIs.cons closes.endsValue) _)
    rw [copyEntries, flatMap_nil, nil_append, Padded.text, append_assoc,
      append_assoc, ← append_assoc, copied]
    dsimp only [bind, Except.bind]
    rw [skipWhitespace_blanks, skipWhitespace_cons closes.inked]
    dsimp only
    rw [if_neg closes.ne_comma.symm, if_pos rfl]
    rfl
  | cons next more ih =>
    obtain ⟨steps, rfl⟩ := Nat.exists_eq_add_one.mpr (Nat.zero_lt_of_lt enough)
    have tail := ih next (fun p mem => copies p (mem_cons_of_mem _ mem))
      (Nat.lt_of_succ_lt_succ enough)
    let remaining := next.text text ++ (more.flatMap (fun p => comma :: p.text text) ++ close :: rest)
    have copied := copies first (mem_cons_self ..) (blanks first.after ++ comma :: remaining)
      (Ends.blanks (HeadIs.cons (.inr (.inl rfl))) _)
    have split : first.text text ++ ((next :: more).flatMap (fun p => comma :: p.text text) ++
        close :: rest) =
        (blanks first.before ++ text first.entry) ++ (blanks first.after ++ comma :: remaining) := by
      simp [remaining, Padded.text]
    rw [copyEntries, split, copied]
    dsimp only [bind, Except.bind]
    rw [skipWhitespace_blanks, skipWhitespace_cons rfl]
    dsimp only
    rw [if_pos rfl, tail]
    rfl

theorem copyBracketed_text (message : String) (closes : closesList close) (out : β → α)
    (gap : List Blank) (entries : List (Padded β))
    (copies : ∀ p ∈ entries, ∀ gap, Copies entry (blanks gap ++ text p.entry) (out p.entry))
    (opens : ∀ p ∈ entries, ∃ c more, text p.entry = c :: more ∧ isBlank c = false ∧ c ≠ close)
    (rest : Bytes) :
    copyBracketed entry close message (listText text gap entries ++ close :: rest) =
      .ok (entries.map (out ·.entry), rest) := by
  cases entries with
  | nil =>
    unfold copyBracketed listText
    rw [skipWhitespace_blanks, skipWhitespace_cons closes.inked]
    dsimp only
    rw [if_pos rfl]
    rfl
  | cons first more =>
    obtain ⟨c, letters, skipped, other, enough, whole⟩ :=
      listText_opening gap first more (opens first (mem_cons_self ..)) rest
    have copied := copyEntries_text message closes ⟨[], first.entry, first.after⟩ more
      (fun p mem => by
        rcases mem_cons.mp mem with rfl | mem
        · exact copies first (mem_cons_self ..) []
        · exact copies p (mem_cons_of_mem _ mem) p.before) enough rest
    rw [← whole] at copied
    unfold copyBracketed
    rw [skipped]
    dsimp only
    rw [if_neg other, copied]
    rfl

end Copied

/-- A member as the formatter holds it. -/
def heldMember (m : Keyed Node) : FormatMember := ⟨spelling m.key, m.text Node.text⟩

theorem copyMember_text {value : FormatReader Bytes} (gap : List Blank) (m : Keyed Node)
    {out : Node} (copies : ∀ gap, Copies value (blanks gap ++ m.value.text) out.text) :
    Copies (copyMember value) (blanks gap ++ m.text text) (heldMember (spaced m.key out)) := by
  intro rest ends
  have copied := copies m.afterColon rest ends
  let afterKey := blanks m.beforeColon ++ colon :: (blanks m.afterColon ++ m.value.text ++ rest)
  have atKey : blanks gap ++ m.text text ++ rest =
      blanks gap ++ (stringText m.key ++ afterKey) := by
    simp [afterKey, Keyed.text]
  have atQuote : skipWhitespace (stringText m.key ++ afterKey) =
      quote :: (spelling m.key ++ [quote] ++ afterKey) := skipWhitespace_cons rfl _
  have key := copyString_text m.key afterKey
  unfold copyMember
  rw [atKey, skipWhitespace_blanks, atQuote]
  change (copyString (stringText m.key ++ afterKey) >>= _) = _
  rw [key]
  dsimp only [bind, Except.bind]
  rw [skipWhitespace_blanks, skipWhitespace_cons rfl]
  dsimp only
  rw [if_neg (by decide), copied]
  simp [heldMember, spaced, Keyed.text, stringText, Blank.byte, pure, Except.pure]

/-- The formatter's sort is the sort by the ranks of the members. -/
theorem sortedMembers_eq (members : List (Keyed Node)) :
    sortedMembers (members.map heldMember) = (sortBy memberRank members).map heldMember := by
  refine (map_insertionSort _ _ heldMember members fun a _ b _ => ?_).symm
  rw [heldMember, heldMember, naturalCompare_neg_iff, not_lt]
  rfl

section Values

variable (unit : List Blank)

theorem formatValue_blanks (levels level : Nat) (gap : List Blank) (src : Bytes) :
    formatValue (blanks unit) levels level (blanks gap ++ src) =
      formatValue (blanks unit) levels level src := by
  rw [formatValue.eq_def, formatValue.eq_def (blanks unit) levels level src]
  dsimp only
  rw [skipWhitespace_blanks]

theorem formatScalar_text (s : Scalar) (levels level : Nat) {rest : Bytes} (ends : Ends rest) :
    formatValue (blanks unit) levels level (s.text ++ rest) = .ok (s.text, rest) := by
  cases s with
  | null => rw [formatValue.eq_def]; exact copyLiteral_text nullText rest
  | boolean b =>
    cases b with
    | true => rw [formatValue.eq_def]; exact copyLiteral_text (booleanText true) rest
    | false => rw [formatValue.eq_def]; exact copyLiteral_text (booleanText false) rest
  | string pieces => rw [formatValue.eq_def]; exact copyString_text pieces rest
  | number n =>
    obtain ⟨c, more, text, begins⟩ := number_head n
    have apart := fun other not => ne_of_beginsNumber (c := other) not begins
    have copied := copyNumber_text n rest ends
    change formatValue (blanks unit) levels level (n.text ++ rest) = .ok (n.text, rest)
    rw [text, cons_append] at copied ⊢
    rw [formatValue.eq_def]
    simp only [skipWhitespace_cons (beginsNumber begins).1, apart quote (by decide),
      apart 0x7B (by decide), apart 0x5B (by decide), apart 0x74 (by decide),
      apart 0x66 (by decide), apart 0x6E (by decide), begins]
    exact copied

/-- On the text of a node the formatter writes the text of the node it is laid out as. -/
theorem formatValue_text (node : Node) : ∀ levels level, node.nesting ≤ levels → ∀ gap,
    Copies (formatValue (blanks unit) levels level) (blanks gap ++ node.text)
      (formatted unit node level).text := by
  induction node using induction with
  | scalar s =>
    intro levels level shallow gap rest ends
    rw [formatted_scalar, text_scalar, append_assoc, formatValue_blanks,
      formatScalar_text unit s levels level ends]
  | array gap' items ih =>
    intro levels level shallow gap rest ends
    obtain ⟨deeper, rfl⟩ := Nat.exists_eq_add_one.mpr
      ((nesting_array_pos gap' items).trans_le shallow)
    rw [nesting_array_le] at shallow
    have copied := copyBracketed_text "expected ',' or ']'" (.inl rfl)
      (fun node => (formatted unit node (level + 1)).text) gap' items
      (fun p mem gap => ih p mem deeper (level + 1) (shallow p mem) gap)
      (fun p _ => by
        obtain ⟨c, more, text, inked, other, -⟩ := node_head p.entry
        exact ⟨c, more, text, inked, other⟩) rest
    have layout := laidOut_eq unit level 0x5B 0x5D text
      (items.map fun p => formatted unit p.entry (level + 1))
    rw [map_map] at layout
    rw [append_assoc, formatValue_blanks, text_array, formatValue.eq_def,
      cons_append, append_assoc, formatted_array, text_array, ← layout]
    change (copyBracketed _ 0x5D _ _ >>= _) = _
    rw [singleton_append, copied]
    rfl
  | object gap' members ih =>
    intro levels level shallow gap rest ends
    obtain ⟨deeper, rfl⟩ := Nat.exists_eq_add_one.mpr
      ((nesting_object_pos gap' members).trans_le shallow)
    rw [nesting_object_le] at shallow
    have opens : ∀ p ∈ members, ∃ c more,
        p.entry.text text = c :: more ∧ isBlank c = false ∧ c ≠ 0x7D :=
      fun p _ => ⟨quote, _, rfl, rfl, by decide⟩
    have copied := copyBracketed_text "expected ',' or '\x7d'" (.inr rfl)
      (fun m : Keyed Node => heldMember (spaced m.key (formatted unit m.value (level + 1))))
      gap' members
      (fun p mem gap => copyMember_text gap p.entry fun gap =>
        ih p mem deeper (level + 1) (shallow p mem) gap) opens rest
    have texts : (sortedMembers (members.map fun p =>
        heldMember (spaced p.entry.key (formatted unit p.entry.value (level + 1))))).map (·.text) =
        (sortBy memberRank (members.map fun p =>
          spaced p.entry.key (formatted unit p.entry.value (level + 1)))).map
            (Keyed.text text) := by
      have sorted := sortedMembers_eq
        (members.map fun p => spaced p.entry.key (formatted unit p.entry.value (level + 1)))
      rw [map_map] at sorted
      exact (congrArg (List.map (·.text)) sorted).trans (map_map ..)
    have layout := laidOut_eq unit level 0x7B 0x7D (Keyed.text text)
      (sortBy memberRank
        (members.map fun p => spaced p.entry.key (formatted unit p.entry.value (level + 1))))
    rw [append_assoc, formatValue_blanks, text_object, formatValue.eq_def,
      cons_append, append_assoc, formatted_object, text_object, ← layout, ← texts]
    change (copyBracketed _ 0x7D _ _ >>= _) = _
    rw [singleton_append, copied]
    rfl

/-- What the formatter writes for a JSON text. -/
theorem formatJson_text {d : Document} (shallow : d.value.nesting ≤ kMaxDepth) :
    formatJson (blanks unit) d.text =
      { ok := true, text := (formatted unit d.value 0).text } := by
  have ends : Ends (blanks d.after) := by
    have none := Ends.blanks (HeadIs.nil endsValue) d.after
    rwa [append_nil] at none
  have copied := formatValue_text unit d.value kMaxDepth 0 shallow d.before _ ends
  have blank : skipWhitespace (blanks d.after) = [] := by
    have skipped := skipWhitespace_blanks d.after []
    rwa [append_nil] at skipped
  unfold formatJson Document.text
  rw [← append_assoc, copied]
  dsimp only
  rw [blank]

/-! ### A second pass -/

/-- The layout changes no depth. -/
theorem nesting_formatted (node : Node) : ∀ level bound, node.nesting ≤ bound →
    (formatted unit node level).nesting ≤ bound := by
  induction node using induction with
  | scalar s =>
    intro level bound shallow
    rwa [formatted_scalar]
  | array gap items ih =>
    intro level bound shallow
    obtain ⟨deeper, rfl⟩ := Nat.exists_eq_add_one.mpr
      ((nesting_array_pos gap items).trans_le shallow)
    rw [nesting_array_le] at shallow
    rw [formatted_array, nesting_array_le]
    intro p mem
    obtain ⟨item, inItems, same⟩ := mem_map.mp (mem_laid mem)
    rw [← same]
    exact ih item inItems (level + 1) deeper (shallow item inItems)
  | object gap members ih =>
    intro level bound shallow
    obtain ⟨deeper, rfl⟩ := Nat.exists_eq_add_one.mpr
      ((nesting_object_pos gap members).trans_le shallow)
    rw [nesting_object_le] at shallow
    rw [formatted_object, nesting_object_le]
    intro p mem
    obtain ⟨member, inMembers, same⟩ := mem_map.mp ((mem_sortBy _).mp (mem_laid mem))
    rw [← same]
    exact ih member inMembers (level + 1) deeper (shallow member inMembers)

/-- Laid out again, a node stays as it is. -/
theorem formatted_formatted (node : Node) : ∀ level,
    formatted unit (formatted unit node level) level = formatted unit node level := by
  induction node using induction with
  | scalar s =>
    intro level
    rw [formatted_scalar, formatted_scalar]
  | array gap items ih =>
    intro level
    rw [formatted_array, formatted_array]
    have again : (laid (lineBreak unit (level + 1)) (lineBreak unit level)
        (items.map fun p => formatted unit p.entry (level + 1))).map
          (fun p => formatted unit p.entry (level + 1)) =
        items.map fun p => formatted unit p.entry (level + 1) := by
      refine Eq.trans (map_congr_left fun p mem => ?_) (map_entry_laid ..)
      obtain ⟨item, inItems, same⟩ := mem_map.mp (mem_laid mem)
      rw [← same, ih item inItems]
    rw [again]
  | object gap members ih =>
    intro level
    rw [formatted_object, formatted_object]
    generalize sorted : sortBy memberRank (members.map fun p =>
      spaced p.entry.key (formatted unit p.entry.value (level + 1))) = l
    have again : (laid (lineBreak unit (level + 1)) (lineBreak unit level) l).map
        (fun p => spaced p.entry.key (formatted unit p.entry.value (level + 1))) = l := by
      refine Eq.trans (map_congr_left fun p mem => ?_) (map_entry_laid ..)
      have inSorted := mem_laid mem
      rw [← sorted, mem_sortBy] at inSorted
      obtain ⟨member, inMembers, same⟩ := mem_map.mp inSorted
      rw [← same]
      exact congrArg (spaced _) (ih member inMembers (level + 1))
    have inOrder : l.Pairwise fun a b => memberRank a ≤ memberRank b :=
      sorted ▸ sortBy_pairwise memberRank _
    rw [again, sortBy_eq_self _ inOrder]

end Values

end Microide.Util
