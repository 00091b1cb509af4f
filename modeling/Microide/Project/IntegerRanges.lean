/-
Integer ranges of section headers.

`{lo..hi}` in a header of an `.editorconfig` stands for glob fragments, each a digit or a bracket
class at every place, that together spell the integers of the range. A fragment is kept here as the
digits it allows place by place; `fragmentText` is the text of it.

**Main results.** `sameWidth_spec`: the fragments of a range of one width; `unsignedRange_spec`: the
range cut at each change of width, without overflow; `integerRange_exact`.
-/

import Microide.Util.JsonSerialize

namespace Microide.Project

open List Util Lib.Json


/-- The digits a fragment allows at one place: from the first to the second. -/
abbrev DigitRange := Fin 10 × Fin 10

/-- `digit_class`: one digit as itself, more as a bracket class. -/
def digitClass (digits : DigitRange) : List UInt8 :=
  if digits.1 = digits.2 then [digitByte digits.1]
  else [0x5B, digitByte digits.1, 0x2D, digitByte digits.2, 0x5D]

def fragmentText (fragment : List DigitRange) : List UInt8 := fragment.flatMap digitClass

/-- `AppendSameWidthRange` where `width` digits of both bounds are left. -/
def appendSameWidthRange : Nat → List (Fin 10) → List (Fin 10) → List (List DigitRange)
  | width + 1, first :: loRest, last :: hiRest =>
    if first = last then
      (appendSameWidthRange width loRest hiRest).map ((first, first) :: ·)
    else
      let loRestFloor := loRest.all (· = 0)
      let hiRestCeiling := hiRest.all (· = 9)
      let middleFirst := if loRestFloor then first else first + 1
      let middleLast := if hiRestCeiling then last else last - 1
      (if loRestFloor then []
        else (appendSameWidthRange width loRest (List.replicate width 9)).map
          ((first, first) :: ·)) ++
      (if middleFirst ≤ middleLast then [(middleFirst, middleLast) :: List.replicate width (0, 9)]
        else []) ++
      (if hiRestCeiling then []
        else (appendSameWidthRange width (List.replicate width 0) hiRest).map ((last, last) :: ·))
  | _, _, _ => [[]]

/-- A sum or product of 64 bits, none where it overflows. -/
def checked (value : Nat) : Option Nat := if value < 2 ^ 64 then some value else none

/-- The inner loop of `AppendUnsignedRange`, at most `rounds` turns of it. -/
def raiseFloor (low : Nat) : Nat → Nat → Option Nat
  | 0, _ => none
  | rounds + 1, widthFloor =>
    if widthFloor ≤ low / 10 then (checked (widthFloor * 10)).bind (raiseFloor low rounds)
    else some widthFloor

/-- `AppendUnsignedRange`, at most `rounds` pieces: none where it takes more, or overflows. -/
def appendUnsignedRange (high : Nat) : Nat → Nat → Nat → Option (List (List DigitRange))
  | 0, _, _ => none
  | rounds + 1, widthFloor, low =>
    (raiseFloor low 20 widthFloor).bind fun widthFloor =>
    (if widthFloor > (2 ^ 64 - 1) / 10 then some (2 ^ 64 - 1)
      else (checked (widthFloor * 10)).map (· - 1)).bind fun widthCeiling =>
    let pieceTo := min widthCeiling high
    let piece := appendSameWidthRange (decimalDigits low).length (decimalDigits low)
      (decimalDigits pieceTo)
    if pieceTo = high then some piece
    else (checked (pieceTo + 1)).bind fun next =>
      (appendUnsignedRange high rounds widthFloor next).map (piece ++ ·)

/-- `0 - static_cast<std::uint64_t>(n)`. -/
def magnitude (n : Int) : Nat := ((2 ^ 64 - n % 2 ^ 64) % 2 ^ 64).toNat

/-- What `AppendUnsignedRange` appends: the texts of the fragments. -/
def unsignedFragments (low high : Nat) : Option (List (List UInt8)) :=
  (appendUnsignedRange high 20 1 low).map (·.map fragmentText)

/-- `AppendIntegerRange`. -/
def appendIntegerRange (lo hi : Int) : Option (List (List UInt8)) :=
  if lo > hi then some []
  else if lo < 0 then
    (unsignedFragments (if hi < 0 then magnitude hi else 1) (magnitude lo)).bind fun magnitudes =>
    let negative := magnitudes.map (0x2D :: ·)
    if hi < 0 then some negative else (unsignedFragments 0 hi.toNat).map (negative ++ ·)
  else unsignedFragments lo.toNat hi.toNat

/-! ### What a fragment matches -/

/-- The first element of a fragment's text, and what is behind it. -/
def element : List UInt8 → Option ((UInt8 × UInt8) × List UInt8)
  | 0x5B :: first :: 0x2D :: last :: 0x5D :: rest => some ((first, last), rest)
  | c :: rest => some ((c, c), rest)
  | [] => none

/-- A byte for each element, of those it stands for. -/
inductive FragmentMatches : List UInt8 → List UInt8 → Prop
  | done : FragmentMatches [] []
  | step {fragment rest text : List UInt8} {first last c : UInt8}
      (reads : element fragment = some ((first, last), rest)) (above : first ≤ c) (below : c ≤ last)
      (behind : FragmentMatches rest text) : FragmentMatches fragment (c :: text)

/-- Digits the fragment allows, one at each place. -/
def Allows (fragment : List DigitRange) (ds : List (Fin 10)) : Prop :=
  List.Forall₂ (fun digits d => digits.1 ≤ d ∧ d ≤ digits.2) fragment ds

/-- Fragments that match exactly what has the property, no two of them the same. -/
structure Spells {φ τ : Type} (Matches : φ → τ → Prop) (fragments : List φ) (P : τ → Prop) :
    Prop where
  exact_ : ∀ text, (∃ fragment ∈ fragments, Matches fragment text) ↔ P text
  apart : fragments.Pairwise fun one other => ∀ text, ¬(Matches one text ∧ Matches other text)

namespace Spells

variable {φ φ' τ τ' : Type} {Matches : φ → τ → Prop} {Matches' : φ' → τ' → Prop}
  {fragments others : List φ} {P Q : τ → Prop}

theorem congr (spells : Spells Matches fragments P) (same : ∀ text, P text ↔ Q text) :
    Spells Matches fragments Q :=
  ⟨fun text => (spells.exact_ text).trans (same text), spells.apart⟩

theorem nil : Spells Matches [] fun _ => False := ⟨by simp, .nil⟩

theorem single (fragment : φ) : Spells Matches [fragment] (Matches fragment) :=
  ⟨by simp, pairwise_singleton _ _⟩

theorem append (here : Spells Matches fragments P) (there : Spells Matches others Q)
    (apart : ∀ text, P text → ¬Q text) :
    Spells Matches (fragments ++ others) fun text => P text ∨ Q text := by
  constructor
  · intro text
    simp only [mem_append, or_and_right, exists_or, here.exact_, there.exact_]
  · refine pairwise_append.mpr ⟨here.apart, there.apart, ?_⟩
    rintro one inHere other inThere text ⟨matchesOne, matchesOther⟩
    exact apart text ((here.exact_ text).mp ⟨one, inHere, matchesOne⟩)
      ((there.exact_ text).mp ⟨other, inThere, matchesOther⟩)

/-- Fragments written another way, for texts written another way. -/
theorem map (spells : Spells Matches fragments P) {f : φ → φ'} {g : τ → τ'} (inj : g.Injective)
    (same : ∀ fragment text, Matches' (f fragment) text ↔ ∃ t, text = g t ∧ Matches fragment t) :
    Spells Matches' (fragments.map f) fun text => ∃ t, text = g t ∧ P t := by
  constructor
  · intro text
    simp only [mem_map, exists_exists_and_eq_and, same, ← spells.exact_]
    constructor
    · rintro ⟨fragment, inside, t, rfl, matches_⟩
      exact ⟨t, rfl, fragment, inside, matches_⟩
    · rintro ⟨t, rfl, fragment, inside, matches_⟩
      exact ⟨fragment, inside, t, rfl, matches_⟩
  · refine pairwise_map.mpr (spells.apart.imp fun apart text both => ?_)
    obtain ⟨t, rfl, one⟩ := (same _ _).mp both.1
    obtain ⟨u, equal, other⟩ := (same _ _).mp both.2
    exact apart t ⟨one, inj equal ▸ other⟩

theorem notWhen (spells : Spells Matches fragments P) (p : Prop) [Decidable p] :
    Spells Matches (if p then [] else fragments) fun text => ¬p ∧ P text := by
  split
  · exact nil.congr (by simp [*])
  · exact spells.congr (by simp [*])

end Spells

theorem fragmentMatches_iff {fragment rest text : List UInt8} {first last : UInt8}
    (reads : element fragment = some ((first, last), rest)) : FragmentMatches fragment text ↔
      ∃ c behind, text = c :: behind ∧ first ≤ c ∧ c ≤ last ∧ FragmentMatches rest behind := by
  constructor
  · intro matched
    cases matched with
    | done => exact absurd reads.symm (Option.some_ne_none _)
    | step reads' above below behind =>
      obtain ⟨⟨rfl, rfl⟩, rfl⟩ : (_ ∧ _) ∧ _ := by simpa using reads'.symm.trans reads
      exact ⟨_, _, rfl, above, below, behind⟩
  · rintro ⟨c, behind, rfl, above, below, matched⟩
    exact .step reads above below matched

theorem element_digitClass (digits : DigitRange) (rest : List UInt8) :
    element (digitClass digits ++ rest) =
      some ((digitByte digits.1, digitByte digits.2), rest) := by
  rw [digitClass]
  split
  next same =>
    rw [← same]
    generalize digits.1 = d
    fin_cases d <;> rfl
  · rfl

/-- The bytes of the digits between two. -/
theorem exists_digit_iff {first last : Fin 10} {c : UInt8} :
    digitByte first ≤ c ∧ c ≤ digitByte last ↔ ∃ d, c = digitByte d ∧ first ≤ d ∧ d ≤ last := by
  have value : ∀ d : Fin 10, (digitByte d).toNat = 0x30 + d.val := by decide
  simp only [UInt8.le_iff_toNat_le, value, Fin.le_def]
  constructor
  · rintro ⟨above, below⟩
    have small : c.toNat - 0x30 < 10 := by omega
    refine ⟨⟨c.toNat - 0x30, small⟩, UInt8.toNat_inj.mp ?_, ?_⟩
    · rw [value]
      dsimp only
      omega
    · dsimp only
      omega
  · rintro ⟨d, rfl, above, below⟩
    rw [value]
    omega

/-- **A fragment matches the texts of the digits it allows.** -/
theorem fragmentMatches_text {fragment : List DigitRange} {text : List UInt8} :
    FragmentMatches (fragmentText fragment) text ↔
      ∃ ds, text = digitsText ds ∧ Allows fragment ds := by
  induction fragment generalizing text with
  | nil =>
    constructor
    · intro matched
      cases matched with
      | done => exact ⟨[], rfl, .nil⟩
      | step reads => exact absurd reads.symm (Option.some_ne_none _)
    · rintro ⟨ds, rfl, allows⟩
      cases allows
      exact .done
  | cons digits fragment ih =>
    rw [fragmentText, flatMap_cons, fragmentMatches_iff (element_digitClass digits _)]
    constructor
    · rintro ⟨c, behind, rfl, above, below, matched⟩
      obtain ⟨d, rfl, within⟩ := exists_digit_iff.mp ⟨above, below⟩
      obtain ⟨ds, rfl, allows⟩ := ih.mp matched
      exact ⟨d :: ds, rfl, .cons within allows⟩
    · rintro ⟨ds, rfl, allows⟩
      cases allows with
      | cons within allows =>
        obtain ⟨above, below⟩ := exists_digit_iff.mpr ⟨_, rfl, within⟩
        exact ⟨_, _, rfl, above, below, ih.mpr ⟨_, rfl, allows⟩⟩

theorem digitsText_inj {ds es : List (Fin 10)} (same : digitsText ds = digitsText es) :
    ds = es := by
  have inj : ∀ d e : Fin 10, digitByte d = digitByte e → d = e := by decide
  exact map_injective_iff.mpr (fun d e => inj d e) same

/-! ### Fixed widths -/

theorem digitsValue_foldl (ds : List (Fin 10)) (n : Nat) :
    ds.foldl (fun n d => 10 * n + d.val) n = n * 10 ^ ds.length + digitsValue ds := by
  induction ds generalizing n with
  | nil => exact (Nat.mul_one n).symm
  | cons d ds ih =>
    rw [digitsValue, foldl_cons, foldl_cons, ih, ih, length_cons, Nat.pow_succ]
    ring

theorem digitsValue_cons (d : Fin 10) (ds : List (Fin 10)) :
    digitsValue (d :: ds) = d.val * 10 ^ ds.length + digitsValue ds := by
  rw [digitsValue, foldl_cons, digitsValue_foldl, Nat.mul_zero, Nat.zero_add]

theorem digitsValue_lt (ds : List (Fin 10)) : digitsValue ds < 10 ^ ds.length := by
  induction ds with
  | nil => exact Nat.one_pos
  | cons d ds ih =>
    rw [digitsValue_cons, length_cons, Nat.pow_succ]
    have digit := Nat.mul_le_mul_right (10 ^ ds.length) (Nat.le_of_lt_succ d.isLt)
    omega

/-- Numbers of one width are ordered by the first digit, then by the rest. -/
theorem lex_le_iff {a b x y T : Nat} (small : x < T) (small' : y < T) :
    a * T + x ≤ b * T + y ↔ a < b ∨ a = b ∧ x ≤ y := by
  rcases Nat.lt_trichotomy a b with less | rfl | more
  · have := Nat.mul_le_mul_right T less
    rw [Nat.succ_mul] at this
    omega
  · omega
  · have := Nat.mul_le_mul_right T more
    rw [Nat.succ_mul] at this
    omega

theorem digitsValue_le_iff {ds es : List (Fin 10)} {d e : Fin 10} (width : ds.length = es.length) :
    digitsValue (d :: ds) ≤ digitsValue (e :: es) ↔
      d < e ∨ d = e ∧ digitsValue ds ≤ digitsValue es := by
  have small := digitsValue_lt es
  rw [← width] at small
  rw [digitsValue_cons, digitsValue_cons, ← width, lex_le_iff (digitsValue_lt ds) small,
    Fin.lt_def, Fin.ext_iff]

theorem digitsValue_inj {ds es : List (Fin 10)} (width : ds.length = es.length)
    (same : digitsValue ds = digitsValue es) : ds = es := by
  induction ds generalizing es with
  | nil => exact (eq_nil_of_length_eq_zero width.symm).symm
  | cons d ds ih =>
    obtain ⟨e, es, rfl⟩ := exists_cons_of_length_eq_add_one width.symm
    have width := Nat.succ.inj width
    have below := (digitsValue_le_iff width).mp same.le
    have above := (digitsValue_le_iff width.symm).mp same.ge
    have heads : d = e := by omega
    rw [heads, ih width (by omega)]

theorem digitsValue_zeros (width : Nat) : digitsValue (List.replicate width 0) = 0 := by
  induction width with
  | zero => rfl
  | succ width ih =>
    rw [replicate_succ, digitsValue_cons, ih]
    exact Nat.zero_mul _

theorem digitsValue_nines (width : Nat) :
    digitsValue (List.replicate width 9) = 10 ^ width - 1 := by
  induction width with
  | zero => rfl
  | succ width ih =>
    rw [replicate_succ, digitsValue_cons, ih, length_replicate, Nat.pow_succ]
    have positive : 0 < 10 ^ width := Nat.pow_pos (by decide)
    omega

theorem allows_cons {digits : DigitRange} {fragment : List DigitRange} {text : List (Fin 10)} :
    Allows (digits :: fragment) text ↔
      ∃ d ds, text = d :: ds ∧ (digits.1 ≤ d ∧ d ≤ digits.2) ∧ Allows fragment ds := by
  rw [Allows, forall₂_cons_left_iff]
  constructor
  · rintro ⟨d, ds, within, allows, rfl⟩
    exact ⟨d, ds, rfl, within, allows⟩
  · rintro ⟨d, ds, rfl, within, allows⟩
    exact ⟨d, ds, within, allows, rfl⟩

theorem allows_any {width : Nat} {ds : List (Fin 10)} :
    Allows (List.replicate width (0, 9)) ds ↔ ds.length = width := by
  induction width generalizing ds with
  | zero => exact forall₂_nil_left_iff.trans length_eq_zero_iff.symm
  | succ width ih =>
    rw [replicate_succ, allows_cons]
    cases ds with
    | nil => simp
    | cons d ds =>
      have least : d ≤ 9 := Fin.le_last d
      simp [ih, least]

theorem Spells.cons {fragments : List (List DigitRange)} {P : List (Fin 10) → Prop}
    (spells : Spells Allows fragments P) (d : Fin 10) :
    Spells Allows (fragments.map ((d, d) :: ·)) fun text => ∃ ds, text = d :: ds ∧ P ds := by
  refine spells.map (cons_injective) fun fragment text => ?_
  rw [allows_cons]
  constructor
  · rintro ⟨e, ds, rfl, ⟨above, below⟩, allows⟩
    rw [le_antisymm below above]
    exact ⟨ds, rfl, allows⟩
  · rintro ⟨ds, rfl, allows⟩
    exact ⟨d, ds, rfl, ⟨le_rfl, le_rfl⟩, allows⟩

/-- One fragment for the first digits of a range whose rests are free. -/
theorem spells_middle (first last : Fin 10) (width : Nat) :
    Spells Allows (if first ≤ last then [(first, last) :: List.replicate width (0, 9)] else [])
      fun text => ∃ d ds, text = d :: ds ∧ (first ≤ d ∧ d ≤ last) ∧ ds.length = width := by
  split
  · exact (Spells.single _).congr fun text => by simp only [allows_cons, allows_any]
  next apart =>
    refine Spells.nil.congr fun text => ⟨False.elim, ?_⟩
    rintro ⟨d, ds, _, ⟨above, below⟩, _⟩
    exact apart (above.trans below)

theorem all_zero_iff (ds : List (Fin 10)) : ds.all (· = 0) = true ↔ digitsValue ds = 0 := by
  have zeros := digitsValue_zeros ds.length
  simp only [all_eq_true, decide_eq_true_eq, ← eq_replicate_length]
  constructor
  · intro same
    rwa [← same] at zeros
  · intro zero
    exact digitsValue_inj (length_replicate).symm (zero.trans zeros.symm)

theorem all_nine_iff (ds : List (Fin 10)) :
    ds.all (· = 9) = true ↔ digitsValue ds = 10 ^ ds.length - 1 := by
  have nines := digitsValue_nines ds.length
  simp only [all_eq_true, decide_eq_true_eq, ← eq_replicate_length]
  constructor
  · intro same
    rwa [← same] at nines
  · intro nine
    exact digitsValue_inj (length_replicate).symm (nine.trans nines.symm)

/-- **The fragments of a range of one width**: its numbers, each in one of them. -/
theorem sameWidth_spec (width : Nat) : ∀ {lo hi : List (Fin 10)}, lo.length = width →
    hi.length = width → digitsValue lo ≤ digitsValue hi →
    Spells Allows (appendSameWidthRange width lo hi) fun ds =>
      ds.length = width ∧ digitsValue lo ≤ digitsValue ds ∧ digitsValue ds ≤ digitsValue hi := by
  induction width with
  | zero =>
    intro lo hi loWidth hiWidth _
    obtain rfl := eq_nil_of_length_eq_zero loWidth
    obtain rfl := eq_nil_of_length_eq_zero hiWidth
    refine (Spells.single []).congr fun ds => ?_
    rw [Allows, forall₂_nil_left_iff, length_eq_zero_iff]
    exact ⟨fun nil => ⟨nil, nil ▸ le_rfl, nil ▸ le_rfl⟩, And.left⟩
  | succ width ih =>
    intro lo hi loWidth hiWidth order
    obtain ⟨first, lo, rfl⟩ := exists_cons_of_length_eq_add_one loWidth
    obtain ⟨last, hi, rfl⟩ := exists_cons_of_length_eq_add_one hiWidth
    have loRest : lo.length = width := Nat.succ.inj loWidth
    have hiRest : hi.length = width := Nat.succ.inj hiWidth
    rw [digitsValue_le_iff (loRest.trans hiRest.symm)] at order
    have within : ∀ c ds, ((c :: ds).length = width + 1 ∧
        digitsValue (first :: lo) ≤ digitsValue (c :: ds) ∧
          digitsValue (c :: ds) ≤ digitsValue (last :: hi)) ↔
        ds.length = width ∧ (first < c ∨ first = c ∧ digitsValue lo ≤ digitsValue ds) ∧
          (c < last ∨ c = last ∧ digitsValue ds ≤ digitsValue hi) := by
      intro c ds
      rw [length_cons, Nat.succ_inj]
      refine and_congr_right fun dsWidth => ?_
      rw [digitsValue_le_iff (loRest.trans dsWidth.symm),
        digitsValue_le_iff (dsWidth.trans hiRest.symm)]
    rcases order with less | ⟨rfl, order⟩
    · rw [appendSameWidthRange, if_neg less.ne]
      set loFloor := lo.all (· = 0) with isFloor
      set hiCeiling := hi.all (· = 9) with isCeiling
      set middleFirst := if loFloor then first else first + 1 with isFirst
      set middleLast := if hiCeiling then last else last - 1 with isLast
      have floor : loFloor = true ↔ digitsValue lo = 0 := all_zero_iff lo
      have ceiling : hiCeiling = true ↔ digitsValue hi = 10 ^ width - 1 :=
        hiRest ▸ all_nine_iff hi
      have largest : digitsValue lo < 10 ^ width := loRest ▸ digitsValue_lt lo
      have low := ((ih loRest length_replicate (by
        rw [digitsValue_nines]
        omega)).cons first).notWhen (loFloor = true)
      have high := ((ih length_replicate hiRest (by
        rw [digitsValue_zeros]
        exact Nat.zero_le _)).cons last).notWhen (hiCeiling = true)
      have firstValue : middleFirst.val = if loFloor then first.val else first.val + 1 := by
        rw [isFirst, apply_ite Fin.val, Fin.val_add_one_of_lt' (by omega)]
      have lastValue : middleLast.val = if hiCeiling then last.val else last.val - 1 := by
        rw [isLast, apply_ite Fin.val, Fin.val_sub_one_of_ne_zero (by omega)]
      rw [digitsValue_nines] at low
      rw [digitsValue_zeros] at high
      refine ((low.append (spells_middle middleFirst middleLast width) ?_).append high ?_).congr ?_
      · rintro _ ⟨notFloor, ds, rfl, _⟩ ⟨d, _, same, ⟨above, _⟩, _⟩
        obtain ⟨rfl, _⟩ := List.cons.inj same
        rw [if_neg notFloor] at firstValue
        omega
      · rintro _ (⟨_, ds, rfl, _⟩ | ⟨d, ds, rfl, ⟨_, below⟩, _⟩) ⟨notCeiling, _, same, _⟩
        · exact less.ne (List.cons.inj same).1
        · obtain ⟨rfl, _⟩ := List.cons.inj same
          rw [if_neg notCeiling] at lastValue
          omega
      · rintro (_ | ⟨c, ds⟩)
        · simp
        · have small := digitsValue_lt ds
          simp only [List.cons.injEq]
          by_cases dsWidth : ds.length = width
          · split_ifs at firstValue lastValue <;> simp_all <;> omega
          · simp [dsWidth]
    · rw [appendSameWidthRange, if_pos rfl]
      refine ((ih loRest hiRest order).cons first).congr fun ds => ?_
      cases ds with
      | nil => simp
      | cons c ds =>
        rw [within]
        simp only [List.cons.injEq, and_assoc, exists_and_left, exists_eq_left']
        omega

/-! ### Every width -/

theorem length_decimalDigits {n k : Nat} (above : k = 0 ∨ 10 ^ k ≤ n) (below : n < 10 ^ (k + 1)) :
    (decimalDigits n).length = k + 1 := by
  unfold decimalDigits
  split
  next zero =>
    rcases above with rfl | above
    · rfl
    · exact absurd above (Nat.not_le.mpr (zero ▸ Nat.pow_pos (by decide)))
  next positive =>
    rw [length_map, length_reverse]
    have most := (Nat.digits_length_le_iff (by decide) n).mpr below
    have least : k < (Nat.digits 10 n).length := by
      rcases above with rfl | above
      · exact length_pos_of_ne_nil (Nat.digits_ne_nil_iff_ne_zero.mpr positive)
      · exact (Nat.lt_digits_length_iff (by decide) n).mpr above
    omega

theorem raiseFloor_spec {low j : Nat} (above : j = 0 ∨ 10 ^ j ≤ low) (below : low < 10 ^ (j + 1))
    (fits : low < 2 ^ 64) (rounds : Nat) : ∀ {m : Nat}, m ≤ j → j < rounds + m →
      raiseFloor low rounds (10 ^ m) = some (10 ^ j) := by
  induction rounds with
  | zero => omega
  | succ rounds ih =>
    intro m floor enough
    rw [raiseFloor]
    rcases Nat.lt_or_eq_of_le floor with less | rfl
    · have reached : 10 ^ (m + 1) ≤ low :=
        (Nat.pow_le_pow_right (by decide) less).trans (above.resolve_left (by omega))
      rw [if_pos (by omega), checked, if_pos (by omega), ← Nat.pow_succ]
      exact ih less (by omega)
    · exact if_neg (by omega)

/-- Numbers of one width, in decimal. -/
theorem piece_spec {low high k : Nat} (above : k = 0 ∨ 10 ^ k ≤ low) (order : low ≤ high)
    (below : high < 10 ^ (k + 1)) :
    Spells Allows (appendSameWidthRange (decimalDigits low).length (decimalDigits low)
      (decimalDigits high)) fun ds => ∃ n, low ≤ n ∧ n ≤ high ∧ ds = decimalDigits n := by
  have width : ∀ n, low ≤ n → n ≤ high → (decimalDigits n).length = k + 1 := fun n least most =>
    length_decimalDigits (above.imp_right least.trans') (most.trans_lt below)
  rw [width low le_rfl order]
  refine (sameWidth_spec _ (width low le_rfl order) (width high order le_rfl) ?_).congr fun ds => ?_
  · simpa only [digitsValue_decimalDigits] using order
  · simp only [digitsValue_decimalDigits]
    constructor
    · rintro ⟨long, least, most⟩
      refine ⟨_, least, most, digitsValue_inj ?_ (digitsValue_decimalDigits _).symm⟩
      rw [long, width _ least most]
    · rintro ⟨n, least, most, rfl⟩
      rw [digitsValue_decimalDigits]
      exact ⟨width n least most, least, most⟩

/-- **The range cut at each change of width**, in as many pieces as a number has digits. -/
theorem unsignedRange_spec {high : Nat} (fits : high < 2 ^ 64) (rounds : Nat) :
    ∀ {m j low : Nat}, m ≤ j → (j = 0 ∨ 10 ^ j ≤ low) → low < 10 ^ (j + 1) → low ≤ high →
      20 ≤ rounds + j →
      ∃ out, appendUnsignedRange high rounds (10 ^ m) low = some out ∧
        Spells Allows out fun ds => ∃ n, low ≤ n ∧ n ≤ high ∧ ds = decimalDigits n := by
  have short : ∀ {j low : Nat}, (j = 0 ∨ 10 ^ j ≤ low) → low ≤ high → j < 20 := by
    intro j low above order
    by_contra long
    have large : 10 ^ 20 ≤ 10 ^ j := Nat.pow_le_pow_right (by decide) (by omega)
    omega
  induction rounds with
  | zero =>
    intro m j low _ above _ order enough
    have := short above order
    omega
  | succ rounds ih =>
    intro m j low floor above below order enough
    have small := short above order
    rw [appendUnsignedRange, raiseFloor_spec above below (by omega) 20 floor (by omega)]
    have positive : 0 < 10 ^ (j + 1) := Nat.pow_pos (by decide)
    have ceiling : ∃ widthCeiling,
        (if 10 ^ j > (2 ^ 64 - 1) / 10 then some (2 ^ 64 - 1)
          else (checked (10 ^ j * 10)).map (· - 1)) = some widthCeiling ∧
        min widthCeiling high = min (10 ^ (j + 1) - 1) high := by
      split
      · exact ⟨_, rfl, by omega⟩
      · rw [checked, if_pos (by omega)]
        exact ⟨_, rfl, rfl⟩
    obtain ⟨widthCeiling, ceiling, pieceTo⟩ := ceiling
    rw [Option.bind_some, ceiling, Option.bind_some]
    rw [pieceTo]
    rcases Nat.lt_or_ge high (10 ^ (j + 1)) with last | more
    · rw [Nat.min_eq_right (by omega), if_pos rfl]
      exact ⟨_, rfl, piece_spec above order last⟩
    · rw [Nat.min_eq_left (by omega), if_neg (by omega), Nat.sub_add_cancel positive, checked,
        if_pos (by omega), Option.bind_some]
      obtain ⟨out, rest, spells⟩ := ih (Nat.le_succ j) (.inr le_rfl)
        (Nat.pow_lt_pow_right (by decide) (Nat.lt_succ_self _)) more (by omega)
      rw [rest]
      refine ⟨_, rfl, ((piece_spec above (by omega) (by omega)).append spells ?_).congr ?_⟩
      · rintro _ ⟨n, _, most, rfl⟩ ⟨n', least, _, same⟩
        have equal := congrArg digitsValue same
        rw [digitsValue_decimalDigits, digitsValue_decimalDigits] at equal
        omega
      · intro ds
        constructor
        · rintro (⟨n, least, most, rfl⟩ | ⟨n, least, most, rfl⟩)
          · exact ⟨n, least, by omega, rfl⟩
          · exact ⟨n, by omega, most, rfl⟩
        · rintro ⟨n, least, most, rfl⟩
          rcases Nat.lt_or_ge n (10 ^ (j + 1)) with below | above
          · exact .inl ⟨n, least, by omega, rfl⟩
          · exact .inr ⟨n, above, most, rfl⟩

/-! ### Signs -/

theorem spells_unsigned (low high : Nat) (order : low ≤ high) (fits : high < 2 ^ 64) :
    ∃ out, unsignedFragments low high = some out ∧
      Spells FragmentMatches out fun text =>
        ∃ n, low ≤ n ∧ n ≤ high ∧ text = digitsText (decimalDigits n) := by
  have above : Nat.log 10 low = 0 ∨ 10 ^ Nat.log 10 low ≤ low := by
    rcases Nat.eq_zero_or_pos low with rfl | positive
    · exact .inl (Nat.log_zero_right 10)
    · exact .inr (Nat.pow_log_le_self 10 (Nat.ne_of_gt positive))
  obtain ⟨out, ends, spells⟩ := unsignedRange_spec fits 20 (Nat.zero_le _) above
    (Nat.lt_pow_succ_log_self (by decide) low) order (Nat.le_add_right _ _)
  rw [unsignedFragments, ← Nat.pow_zero 10, ends]
  refine ⟨_, rfl, (spells.map (fun _ _ => digitsText_inj) fun _ _ => fragmentMatches_text).congr
    fun text => ?_⟩
  constructor
  · rintro ⟨_, rfl, n, least, most, rfl⟩
    exact ⟨n, least, most, rfl⟩
  · rintro ⟨n, least, most, rfl⟩
    exact ⟨_, rfl, n, least, most, rfl⟩

theorem integerText_natCast (n : Nat) : integerText n = digitsText (decimalDigits n) := by
  rfl

theorem integerText_neg {n : Nat} (positive : 0 < n) :
    integerText (-n) = 0x2D :: digitsText (decimalDigits n) := by
  rw [integerText, Int.natAbs_neg, Int.natAbs_natCast, decide_eq_true (by omega)]
  rfl

theorem spells_positive (lo hi : Int) (positive : 0 ≤ lo) (order : lo ≤ hi) (fits : hi < 2 ^ 64) :
    ∃ out, unsignedFragments lo.toNat hi.toNat = some out ∧
      Spells FragmentMatches out fun text => ∃ n, lo ≤ n ∧ n ≤ hi ∧ text = integerText n := by
  obtain ⟨out, ends, spells⟩ := spells_unsigned lo.toNat hi.toNat (by omega)
    (by omega)
  refine ⟨out, ends, spells.congr fun text => ?_⟩
  constructor
  · rintro ⟨n, least, most, rfl⟩
    exact ⟨n, by omega, by omega, (integerText_natCast n).symm⟩
  · rintro ⟨n, least, most, rfl⟩
    obtain ⟨n, rfl⟩ := Int.eq_ofNat_of_zero_le (positive.trans least)
    exact ⟨n, by omega, by omega, integerText_natCast n⟩

theorem spells_negative (low high : Nat) (positive : 0 < low) (order : low ≤ high)
    (fits : high < 2 ^ 64) : ∃ out, unsignedFragments low high = some out ∧
      Spells FragmentMatches (out.map (0x2D :: ·)) fun text =>
        ∃ n : Int, -high ≤ n ∧ n ≤ -low ∧ text = integerText n := by
  obtain ⟨out, ends, spells⟩ := spells_unsigned low high order fits
  have minus : ∀ fragment text, FragmentMatches (0x2D :: fragment) text ↔
      ∃ t, text = 0x2D :: t ∧ FragmentMatches fragment t := by
    intro fragment text
    have reads : element (0x2D :: fragment) = some ((0x2D, 0x2D), fragment) := rfl
    rw [fragmentMatches_iff reads]
    constructor
    · rintro ⟨c, t, rfl, above, below, matched⟩
      rw [UInt8.le_antisymm below above]
      exact ⟨t, rfl, matched⟩
    · rintro ⟨t, rfl, matched⟩
      exact ⟨_, t, rfl, UInt8.le_refl _, UInt8.le_refl _, matched⟩
  refine ⟨out, ends, (spells.map cons_injective minus).congr fun text => ?_⟩
  constructor
  · rintro ⟨_, rfl, n, least, most, rfl⟩
    exact ⟨-n, by omega, by omega, (integerText_neg (by omega)).symm⟩
  · rintro ⟨n, least, most, rfl⟩
    obtain ⟨k, size⟩ := Int.eq_ofNat_of_zero_le (show 0 ≤ -n by omega)
    obtain rfl : n = -k := by omega
    exact ⟨_, integerText_neg (by omega), k, by omega, by omega, rfl⟩

/-- **A range stands for its integers**: for any bounds the computation ends, nothing overflows, and
its fragments match the decimal spellings of the integers of the range, no two of them the same. -/
theorem integerRange_exact (lo hi : Int64) :
    ∃ out, appendIntegerRange lo.toInt hi.toInt = some out ∧
      Spells FragmentMatches out fun text =>
        ∃ n, lo.toInt ≤ n ∧ n ≤ hi.toInt ∧ text = integerText n := by
  have loLeast := lo.le_toInt
  have hiMost := hi.toInt_lt
  generalize lo.toInt = lo at *
  generalize hi.toInt = hi at *
  have size : ∀ n : Int, -2 ^ 63 ≤ n → n < 0 → (magnitude n : Int) = -n := by
    intro n least negative
    unfold magnitude
    omega
  rw [appendIntegerRange]
  rcases lt_or_ge hi lo with empty | order
  · rw [if_pos empty]
    refine ⟨[], rfl, Spells.nil.congr fun text => ⟨False.elim, ?_⟩⟩
    rintro ⟨n, least, most, _⟩
    omega
  rw [if_neg (Int.not_lt.mpr order)]
  rcases lt_or_ge lo 0 with negative | positive
  · have loSize := size lo loLeast negative
    rw [if_pos negative]
    by_cases below : hi < 0
    · have hiSize := size hi (by omega) below
      obtain ⟨out, ends, spells⟩ := spells_negative (magnitude hi) (magnitude lo)
        (by omega) (by omega) (by omega)
      rw [if_pos below, ends, Option.bind_some, if_pos below]
      rw [loSize, hiSize, Int.neg_neg, Int.neg_neg] at spells
      exact ⟨_, rfl, spells⟩
    · obtain ⟨out, ends, spells⟩ := spells_negative 1 (magnitude lo) (by omega)
        (by omega) (by omega)
      obtain ⟨rest, restEnds, restSpells⟩ := spells_positive 0 hi le_rfl (by omega)
        (by omega)
      rw [if_neg below, ends, Option.bind_some, if_neg below]
      rw [loSize, Int.neg_neg] at spells
      rw [Int.toNat_zero] at restEnds
      rw [restEnds]
      refine ⟨_, rfl, (spells.append restSpells ?_).congr fun text => ?_⟩
      · rintro _ ⟨n, _, most, rfl⟩ ⟨n', least, _, same⟩
        obtain ⟨k, rfl⟩ := Int.eq_ofNat_of_zero_le least
        obtain ⟨j, size⟩ := Int.eq_ofNat_of_zero_le (show 0 ≤ -n by omega)
        obtain rfl : n = -j := by omega
        have digit : ∀ d : Fin 10, digitByte d ≠ 0x2D := by decide
        rw [integerText_neg (by omega), integerText_natCast] at same
        obtain ⟨d, _, minus⟩ := mem_map.mp (same ▸ mem_cons_self)
        exact digit d minus
      · constructor
        · rintro (⟨n, least, most, rfl⟩ | ⟨n, least, most, rfl⟩)
          · exact ⟨n, least, by omega, rfl⟩
          · exact ⟨n, by omega, most, rfl⟩
        · rintro ⟨n, least, most, rfl⟩
          rcases lt_or_ge n 0 with below | above
          · exact .inl ⟨n, least, by omega, rfl⟩
          · exact .inr ⟨n, above, most, rfl⟩
  · rw [if_neg (Int.not_lt.mpr positive)]
    exact spells_positive lo hi positive order (by omega)

end Microide.Project
