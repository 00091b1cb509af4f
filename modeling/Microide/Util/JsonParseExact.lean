/-
What `ParseJson` accepts.

The parser and the grammar, both ways. On the text of a node, whatever ends it, each reader
answers what the node denotes, or refuses it where an integer literal in it is out of range
(`Gives`, with a rule for every form of text). And the bytes a reader took are the text of a
node no deeper than the levels it had. So `ParseJson` accepts the JSON texts of bounded depth
but those with such a literal.

**Main results.** `parseJson_text`: what the parser answers on a JSON text; `parseJson_sound`:
what it accepts is one; `parseJson_exact`: where it accepts exactly JSON.
-/

import Microide.Lib.ByteCodec
import Microide.Util.JsonParse

namespace Microide.Util

open List Lib.Json Lib Node

/-! ### What a node denotes -/

def escapeValue : Escape → UInt8
  | .quote => 0x22
  | .backslash => 0x5C
  | .slash => 0x2F
  | .backspace => 0x08
  | .formFeed => 0x0C
  | .lineFeed => 0x0A
  | .carriageReturn => 0x0D
  | .tab => 0x09

def quadValue (d₁ d₂ d₃ d₄ : HexDigit) : Nat :=
  ((d₁.value * 16 + d₂.value) * 16 + d₃.value) * 16 + d₄.value

/-- The bytes of a string: two halves of a surrogate pair are one character, a half alone is
the replacement character. -/
def decode : List Piece → Bytes
  | [] => []
  | .plain byte _ :: rest => byte :: decode rest
  | .escape e :: rest => escapeValue e :: decode rest
  | .unicode d₁ d₂ d₃ d₄ :: rest =>
    if isHighSurrogate (quadValue d₁ d₂ d₃ d₄) then
      match rest with
      | .unicode l₁ l₂ l₃ l₄ :: after =>
        if isLowSurrogate (quadValue l₁ l₂ l₃ l₄) then
          utf8 (combined (quadValue d₁ d₂ d₃ d₄) (quadValue l₁ l₂ l₃ l₄)) ++ decode after
        else utf8 kReplacement ++ decode (.unicode l₁ l₂ l₃ l₄ :: after)
      | rest => utf8 kReplacement ++ decode rest
    else if isLowSurrogate (quadValue d₁ d₂ d₃ d₄) then utf8 kReplacement ++ decode rest
    else utf8 (quadValue d₁ d₂ d₃ d₄) ++ decode rest

def scalarInRange : Scalar → Bool
  | .number n => !overflows n
  | _ => true

def scalarValue : Scalar → JsonValue
  | .null => .null
  | .boolean b => .bool b
  | .number n => (numberValue n).getD .null
  | .string pieces => .string (decode pieces)

/-- No integer literal of the node is out of range. -/
def inRange : Node → Bool :=
  Node.fold scalarInRange (fun _ items => items.all (·.entry))
    fun _ members => members.all (·.entry.value)

def memberOf (m : Padded (Keyed JsonValue)) : Bytes × JsonValue :=
  (decode m.entry.key, m.entry.value)

/-- The value of a node. -/
def valueOf : Node → JsonValue :=
  Node.fold scalarValue (fun _ items => .array (items.map (·.entry)))
    fun _ members => .object (sortAfterParse (members.map memberOf))

@[simp] theorem inRange_scalar (s : Scalar) : inRange (.scalar s) = scalarInRange s :=
  fold_scalar ..

theorem inRange_array (gap : List Blank) (items : List (Padded Node)) :
    inRange (.array gap items) = items.all fun p => inRange p.entry := by
  unfold inRange
  rw [fold_array, all_map]
  rfl

theorem inRange_object (gap : List Blank) (members : List (Padded (Keyed Node))) :
    inRange (.object gap members) = members.all fun p => inRange p.entry.value := by
  unfold inRange
  rw [fold_object, all_map]
  rfl

@[simp] theorem valueOf_scalar (s : Scalar) : valueOf (.scalar s) = scalarValue s :=
  fold_scalar ..

theorem valueOf_array (gap : List Blank) (items : List (Padded Node)) :
    valueOf (.array gap items) = .array (items.map fun p => valueOf p.entry) := by
  unfold valueOf
  rw [fold_array, map_map]
  rfl

theorem valueOf_object (gap : List Blank) (members : List (Padded (Keyed Node))) :
    valueOf (.object gap members) =
      .object (sortAfterParse (members.map fun p => (decode p.entry.key, valueOf p.entry.value))) := by
  unfold valueOf
  rw [fold_object, map_map]
  rfl

/-! ### Blanks and ends -/

theorem isBlank_byte (b : Blank) : isBlank b.byte = true := by cases b <;> rfl

variable {b c : UInt8}

theorem isBlank_iff : isBlank b = true ↔ ∃ blank : Blank, blank.byte = b := by
  constructor
  · intro h
    simp only [isBlank, Bool.or_eq_true, beq_iff_eq] at h
    rcases h with ((h | h) | h) | h
    · exact ⟨.space, h.symm⟩
    · exact ⟨.tab, h.symm⟩
    · exact ⟨.carriageReturn, h.symm⟩
    · exact ⟨.lineFeed, h.symm⟩
  · rintro ⟨blank, rfl⟩
    exact isBlank_byte blank

@[simp] theorem blanks_nil : blanks [] = [] := rfl

@[simp] theorem blanks_cons (b : Blank) (gap : List Blank) :
    blanks (b :: gap) = b.byte :: blanks gap := rfl

theorem skipWhitespace_blanks (gap : List Blank) (rest : Bytes) :
    skipWhitespace (blanks gap ++ rest) = skipWhitespace rest := by
  induction gap with
  | nil => rfl
  | cons b gap ih =>
    rw [blanks_cons, cons_append, skipWhitespace, if_pos (isBlank_byte b), ih]

theorem skipWhitespace_cons (inked : isBlank c = false) (rest : Bytes) :
    skipWhitespace (c :: rest) = c :: rest := by
  rw [skipWhitespace, if_neg (by simp [inked])]

/-- What was skipped. -/
theorem skipWhitespace_sound (src : Bytes) :
    ∃ gap : List Blank, src = blanks gap ++ skipWhitespace src := by
  induction src with
  | nil => exact ⟨[], rfl⟩
  | cons c rest ih =>
    rw [skipWhitespace]
    split
    next blank =>
      obtain ⟨b, rfl⟩ := isBlank_iff.mp blank
      obtain ⟨gap, split⟩ := ih
      exact ⟨b :: gap, congrArg (b.byte :: ·) split⟩
    · exact ⟨[], rfl⟩

variable {rest src : Bytes}

/-- The first byte, where there is one, satisfies `p`. -/
def HeadIs (p : UInt8 → Prop) (src : Bytes) : Prop := ∀ b ∈ src.head?, p b

theorem HeadIs.nil (p : UInt8 → Prop) : HeadIs p [] := by
  rintro b ⟨⟩

variable {p : UInt8 → Prop}

theorem HeadIs.cons (holds : p c) : HeadIs p (c :: rest) := by
  rintro b ⟨⟩
  exact holds

theorem HeadIs.imp {q : UInt8 → Prop} (imp : ∀ b, p b → q b) (h : HeadIs p src) :
    HeadIs q src := fun b mem => imp b (h b mem)

/-- What may follow a value: a blank, a comma or a closing bracket. -/
def endsValue (b : UInt8) : Prop := isBlank b = true ∨ b = comma ∨ b = 0x5D ∨ b = 0x7D

instance decidableEndsValue : DecidablePred endsValue := fun _ =>
  inferInstanceAs (Decidable (_ ∨ _))

abbrev Ends (rest : Bytes) : Prop := HeadIs endsValue rest

theorem Ends.blanks (ends : Ends rest) (gap : List Blank) : Ends (blanks gap ++ rest) := by
  cases gap with
  | nil => exact ends
  | cons b gap => exact HeadIs.cons (.inl (isBlank_byte b))

/-- On `text`, whatever ends it, the reader answers `result`. -/
def Gives {α : Type} (reader : JsonReader α) (text : Bytes) (result : Option α) : Prop :=
  ∀ rest, Ends rest → reader (text ++ rest) = result.map fun a => (a, rest)

/-! ### Numbers -/

theorem digit?_digitByte : ∀ d : Fin 10, digit? (digitByte d) = some d := by decide

theorem digit?_sound {d : Fin 10} (read : digit? b = some d) : b = digitByte d := by
  unfold digit? at read
  split at read
  next range =>
    cases read
    have low : 48 ≤ b.toNat := UInt8.le_iff_toNat_le.mp range.1
    have high : b.toNat ≤ 57 := UInt8.le_iff_toNat_le.mp range.2
    apply UInt8.toNat_inj.mp
    unfold digitByte
    simp only [UInt8.toNat_add, UInt8.toNat_ofNat', UInt8.reduceToNat, Fin.val_ofNat]
    omega
  · cases read

/-- Nothing a run of digits goes on with. -/
abbrev NoDigit (rest : Bytes) : Prop := HeadIs (fun b => digit? b = none) rest

theorem digit?_of_endsValue (ends : endsValue b) : digit? b = none := by
  rcases ends with blank | rfl | rfl | rfl
  · obtain ⟨which, rfl⟩ := isBlank_iff.mp blank
    cases which <;> rfl
  all_goals rfl

theorem takeDigits_text (ds : List (Fin 10)) (stop : NoDigit rest) :
    takeDigits (digitsText ds ++ rest) = (ds, rest) := by
  induction ds with
  | nil =>
    cases rest with
    | nil => rfl
    | cons b rest =>
      have none : digit? b = none := stop b rfl
      change takeDigits (b :: rest) = _
      rw [takeDigits, none]
  | cons d ds ih =>
    change takeDigits (digitByte d :: (digitsText ds ++ rest)) = _
    rw [takeDigits, digit?_digitByte, ih]

theorem takeDigits_sound (src : Bytes) :
    src = digitsText (takeDigits src).1 ++ (takeDigits src).2 := by
  induction src with
  | nil => rfl
  | cons b rest ih =>
    rw [takeDigits]
    split
    next d read =>
      rw [digit?_sound read]
      exact congrArg (digitByte d :: ·) ih
    · rfl

theorem takeDigits₁_text (ds : Digits) (stop : NoDigit rest) :
    takeDigits₁ (ds.text ++ rest) = some (ds, rest) := by
  change takeDigits₁ (digitByte ds.first :: (digitsText ds.more ++ rest)) = _
  rw [takeDigits₁, digit?_digitByte, takeDigits_text ds.more stop]
  rfl

theorem takeDigits₁_sound {ds : Digits} (read : takeDigits₁ src = some (ds, rest)) :
    src = ds.text ++ rest := by
  cases src with
  | nil => cases read
  | cons b src =>
    obtain ⟨d, digit, same⟩ := Option.map_eq_some_iff.mp read
    cases same
    rw [digit?_sound digit]
    exact congrArg (digitByte d :: ·) (takeDigits_sound src)

theorem takeWhole_text (w : Whole) (stop : NoDigit rest) :
    takeWhole (w.text ++ rest) = some (w, rest) := by
  cases w with
  | zero => rfl
  | nonzero first positive more =>
    change takeWhole (digitByte first :: (digitsText more ++ rest)) = _
    rw [takeWhole, digit?_digitByte, takeDigits_text more stop]
    simp [positive]

theorem takeWhole_sound {w : Whole} (read : takeWhole src = some (w, rest)) :
    src = w.text ++ rest := by
  cases src with
  | nil => cases read
  | cons b src =>
    obtain ⟨d, digit, same⟩ := Option.bind_eq_some_iff.mp read
    rw [digit?_sound digit]
    split at same
    next zero =>
      cases same
      rw [zero]
      rfl
    · cases same
      exact congrArg (digitByte d :: ·) (takeDigits_sound src)

theorem takeMinus_text (minus : Bool) (stop : HeadIs (· ≠ 0x2D) rest) :
    takeMinus (minusText minus ++ rest) = (minus, rest) := by
  cases minus with
  | true => rfl
  | false =>
    cases rest with
    | nil => rfl
    | cons b rest =>
      change takeMinus (b :: rest) = _
      rw [takeMinus, if_neg (stop b rfl)]

theorem takeMinus_sound (src : Bytes) : src = minusText (takeMinus src).1 ++ (takeMinus src).2 := by
  cases src with
  | nil => rfl
  | cons b src =>
    rw [takeMinus]
    split
    next minus =>
      rw [minus]
      rfl
    · rfl

theorem takeFraction_text (fraction : Option Digits) (stop : NoDigit rest)
    (dotless : HeadIs (· ≠ 0x2E) rest) :
    takeFraction (fractionText fraction ++ rest) = some (fraction, rest) := by
  cases fraction with
  | some ds =>
    change takeFraction (0x2E :: (ds.text ++ rest)) = _
    rw [takeFraction, if_pos rfl, takeDigits₁_text ds stop]
    rfl
  | none =>
    cases rest with
    | nil => rfl
    | cons b rest =>
      change takeFraction (b :: rest) = _
      rw [takeFraction, if_neg (dotless b rfl)]

theorem takeFraction_sound {fraction : Option Digits}
    (read : takeFraction src = some (fraction, rest)) : src = fractionText fraction ++ rest := by
  cases src with
  | nil =>
    cases read
    rfl
  | cons b src =>
    rw [takeFraction] at read
    split at read
    next dot =>
      obtain ⟨⟨ds, after⟩, digits, same⟩ := Option.map_eq_some_iff.mp read
      cases same
      rw [dot, takeDigits₁_sound digits]
      rfl
    · cases read
      rfl

theorem takeSign_text (sign : Option Sign) (d : Fin 10) (rest : Bytes) :
    takeSign (signText sign ++ digitByte d :: rest) = (sign, digitByte d :: rest) := by
  have unsigned : ∀ d : Fin 10, digitByte d ≠ 0x2B ∧ digitByte d ≠ 0x2D := by decide
  cases sign with
  | none =>
    change takeSign (digitByte d :: rest) = _
    rw [takeSign, if_neg (unsigned d).1, if_neg (unsigned d).2]
  | some sign => cases sign <;> rfl

theorem takeSign_sound (src : Bytes) : src = signText (takeSign src).1 ++ (takeSign src).2 := by
  cases src with
  | nil => rfl
  | cons b src =>
    rw [takeSign]
    split
    next plus =>
      rw [plus]
      rfl
    · split
      next minus =>
        rw [minus]
        rfl
      · rfl

theorem takeExponent_text (exponent : Option Exponent) (stop : NoDigit rest)
    (plain : HeadIs (fun b => b ≠ 0x65 ∧ b ≠ 0x45) rest) :
    takeExponent (exponentText exponent ++ rest) = some (exponent, rest) := by
  cases exponent with
  | some e =>
    obtain ⟨upper, sign, ds⟩ := e
    have digits := takeDigits₁_text ds stop
    have signed : takeSign (signText sign ++ (ds.text ++ rest)) = (sign, ds.text ++ rest) :=
      takeSign_text sign ds.first (digitsText ds.more ++ rest)
    cases upper
    all_goals
      simp only [exponentText, Exponent.text, cons_append, append_assoc,
        takeExponent, signed, digits]
      rfl
  | none =>
    cases rest with
    | nil => rfl
    | cons b rest =>
      obtain ⟨lower, upper⟩ := plain b rfl
      change takeExponent (b :: rest) = _
      rw [takeExponent, if_neg (by simp [lower, upper])]

theorem takeExponent_sound {exponent : Option Exponent}
    (read : takeExponent src = some (exponent, rest)) : src = exponentText exponent ++ rest := by
  cases src with
  | nil =>
    cases read
    rfl
  | cons b src =>
    rw [takeExponent] at read
    split at read
    next letter =>
      obtain ⟨⟨ds, after⟩, digits, same⟩ := Option.map_eq_some_iff.mp read
      cases same
      have signed := takeSign_sound src
      rw [takeDigits₁_sound digits] at signed
      have whole := congrArg (b :: ·) signed
      rcases letter with rfl | rfl
      · simpa [exponentText, Exponent.text] using whole
      · simpa [exponentText, Exponent.text] using whole
    · cases read
      rfl

theorem headIs_exponentText (lower : p 0x65) (upper : p 0x45) (exponent : Option Exponent)
    (after : HeadIs p rest) : HeadIs p (exponentText exponent ++ rest) := by
  cases exponent with
  | none => exact after
  | some e =>
    obtain ⟨capital, sign, ds⟩ := e
    cases capital with
    | false => exact HeadIs.cons lower
    | true => exact HeadIs.cons upper

theorem headIs_fractionText (dot : p 0x2E) (fraction : Option Digits) (after : HeadIs p rest) :
    HeadIs p (fractionText fraction ++ rest) := by
  cases fraction with
  | none => exact after
  | some ds => exact HeadIs.cons dot

theorem headIs_wholeText (digit : ∀ d, p (digitByte d)) (w : Whole) (rest : Bytes) :
    HeadIs p (w.text ++ rest) := by
  cases w with
  | zero => exact HeadIs.cons (digit 0)
  | nonzero first positive more => exact HeadIs.cons (digit first)

theorem not_of_endsValue (not : ¬ endsValue c) (ends : endsValue b) : b ≠ c := by
  rintro rfl
  exact not ends

theorem takeNumber_text (n : Number) : Gives takeNumber n.text (some n) := by
  intro rest ends
  obtain ⟨minus, whole, fraction, exponent⟩ := n
  have digitless : NoDigit rest := ends.imp fun b => digit?_of_endsValue
  have dotless : HeadIs (· ≠ 0x2E) rest := ends.imp fun b => not_of_endsValue (by decide)
  have plain : HeadIs (fun b => b ≠ 0x65 ∧ b ≠ 0x45) rest := ends.imp fun b h =>
    ⟨not_of_endsValue (by decide) h, not_of_endsValue (by decide) h⟩
  have digitless' : NoDigit (exponentText exponent ++ rest) :=
    headIs_exponentText (by decide) (by decide) exponent digitless
  have dotless' : HeadIs (· ≠ 0x2E) (exponentText exponent ++ rest) :=
    headIs_exponentText (by decide) (by decide) exponent dotless
  have digitless'' : NoDigit (fractionText fraction ++ (exponentText exponent ++ rest)) :=
    headIs_fractionText (by decide) fraction digitless'
  have tail := takeExponent_text exponent digitless plain
  have middle := takeFraction_text fraction digitless' dotless'
  have front := takeWhole_text whole digitless''
  have sign := takeMinus_text minus (headIs_wholeText (p := (· ≠ 0x2D)) (by decide) whole
    (fractionText fraction ++ (exponentText exponent ++ rest)))
  unfold takeNumber Number.text
  simp only [append_assoc, sign, front, middle, tail, Option.bind_eq_bind, Option.bind_some,
    Option.pure_def, Option.map_some]

theorem takeNumber_sound {n : Number} (read : takeNumber src = some (n, rest)) :
    src = n.text ++ rest := by
  unfold takeNumber at read
  dsimp only at read
  obtain ⟨⟨whole, afterWhole⟩, wholeRead, read⟩ := Option.bind_eq_some_iff.mp read
  obtain ⟨⟨fraction, afterFraction⟩, fractionRead, read⟩ := Option.bind_eq_some_iff.mp read
  obtain ⟨⟨exponent, afterExponent⟩, exponentRead, read⟩ := Option.bind_eq_some_iff.mp read
  cases read
  have middle := takeFraction_sound fractionRead
  have tail := takeExponent_sound exponentRead
  dsimp only at middle tail
  calc src = minusText (takeMinus src).1 ++ (takeMinus src).2 := takeMinus_sound src
    _ = minusText (takeMinus src).1 ++ (whole.text ++ afterWhole) := by
      rw [← takeWhole_sound wholeRead]
    _ = _ := by
      rw [middle, tail]
      simp only [Number.text, append_assoc]

/-! ### Strings -/

theorem hexDigitValue_byte (d : HexDigit) : hexDigitValue d.byte = some d.value := by
  cases d with
  | decimal d => revert d; decide
  | lower d => revert d; decide
  | upper d => revert d; decide

theorem hexDigitValue_sound {v : Nat} (read : hexDigitValue b = some v) :
    ∃ d : HexDigit, d.byte = b ∧ d.value = v := by
  unfold hexDigitValue at read
  split at read
  next range =>
    have low : 48 ≤ b.toNat := UInt8.le_iff_toNat_le.mp range.1
    have high : b.toNat ≤ 57 := UInt8.le_iff_toNat_le.mp range.2
    refine ⟨.decimal ⟨b.toNat - 48, by omega⟩, ?_, Option.some.inj read⟩
    apply UInt8.toNat_inj.mp
    simp only [HexDigit.byte, digitByte, UInt8.toNat_add, UInt8.toNat_ofNat', UInt8.reduceToNat]
    omega
  split at read
  next range =>
    have low : 97 ≤ b.toNat := UInt8.le_iff_toNat_le.mp range.1
    have high : b.toNat ≤ 102 := UInt8.le_iff_toNat_le.mp range.2
    refine ⟨.lower ⟨b.toNat - 97, by omega⟩, ?_, Option.some.inj read⟩
    apply UInt8.toNat_inj.mp
    simp only [HexDigit.byte, UInt8.toNat_add, UInt8.toNat_ofNat', UInt8.reduceToNat]
    omega
  split at read
  next range =>
    have low : 65 ≤ b.toNat := UInt8.le_iff_toNat_le.mp range.1
    have high : b.toNat ≤ 70 := UInt8.le_iff_toNat_le.mp range.2
    refine ⟨.upper ⟨b.toNat - 65, by omega⟩, ?_, Option.some.inj read⟩
    apply UInt8.toNat_inj.mp
    simp only [HexDigit.byte, UInt8.toNat_add, UInt8.toNat_ofNat', UInt8.reduceToNat]
    omega
  · cases read

theorem hexQuad_bytes (d₁ d₂ d₃ d₄ : HexDigit) :
    hexQuad d₁.byte d₂.byte d₃.byte d₄.byte = some (quadValue d₁ d₂ d₃ d₄) := by
  simp only [hexQuad, hexDigitValue_byte, Option.bind_eq_bind, Option.bind_some, Option.pure_def,
    quadValue]

theorem hexQuad_sound {b₁ b₂ b₃ b₄ : UInt8} {cp : Nat} (read : hexQuad b₁ b₂ b₃ b₄ = some cp) :
    ∃ d₁ d₂ d₃ d₄ : HexDigit,
      d₁.byte = b₁ ∧ d₂.byte = b₂ ∧ d₃.byte = b₃ ∧ d₄.byte = b₄ ∧ quadValue d₁ d₂ d₃ d₄ = cp := by
  obtain ⟨v₁, read₁, read⟩ := Option.bind_eq_some_iff.mp read
  obtain ⟨v₂, read₂, read⟩ := Option.bind_eq_some_iff.mp read
  obtain ⟨v₃, read₃, read⟩ := Option.bind_eq_some_iff.mp read
  obtain ⟨v₄, read₄, read⟩ := Option.bind_eq_some_iff.mp read
  obtain ⟨d₁, byte₁, rfl⟩ := hexDigitValue_sound read₁
  obtain ⟨d₂, byte₂, rfl⟩ := hexDigitValue_sound read₂
  obtain ⟨d₃, byte₃, rfl⟩ := hexDigitValue_sound read₃
  obtain ⟨d₄, byte₄, rfl⟩ := hexDigitValue_sound read₄
  exact ⟨d₁, d₂, d₃, d₄, byte₁, byte₂, byte₃, byte₄, Option.some.inj read⟩

theorem ordinary_iff : isOrdinary b = true ↔ ¬ b < 0x20 ∧ b ≠ quote ∧ b ≠ backslash := by
  simp only [isOrdinary, Bool.and_eq_true, decide_eq_true_eq, bne_iff_ne, and_assoc, UInt8.not_lt]

theorem escapedByte_byte (e : Escape) : escapedByte e.byte = some (escapeValue e) := by
  cases e <;> rfl

theorem escape_byte_ne (e : Escape) : e.byte ≠ 0x75 := by cases e <;> decide

theorem escapedByte_sound {esc byte : UInt8} (read : escapedByte esc = some byte) :
    ∃ e : Escape, e.byte = esc := by
  unfold escapedByte at read
  split at read
  · rename_i same; exact ⟨.quote, same.symm⟩
  split at read
  · rename_i same; exact ⟨.backslash, same.symm⟩
  split at read
  · rename_i same; exact ⟨.slash, same.symm⟩
  split at read
  · rename_i same; exact ⟨.backspace, same.symm⟩
  split at read
  · rename_i same; exact ⟨.formFeed, same.symm⟩
  split at read
  · rename_i same; exact ⟨.lineFeed, same.symm⟩
  split at read
  · rename_i same; exact ⟨.carriageReturn, same.symm⟩
  split at read
  · rename_i same; exact ⟨.tab, same.symm⟩
  · cases read

/-- The low half the source looks ahead for. -/
def lookahead : Bytes → Option Nat
  | b₁ :: b₂ :: l₁ :: l₂ :: l₃ :: l₄ :: _ => pairedLow b₁ b₂ l₁ l₂ l₃ l₄
  | _ => none

theorem parseChars_quote (rest : Bytes) : parseChars (quote :: rest) = some ([], rest) := by
  rw [parseChars.eq_def]
  rfl

theorem parseChars_plain (ordinary : isOrdinary b = true) (rest : Bytes) :
    parseChars (b :: rest) = appended [b] (parseChars rest) := by
  obtain ⟨control, notQuote, notBackslash⟩ := ordinary_iff.mp ordinary
  rw [parseChars.eq_def]
  dsimp only
  rw [if_neg control, if_neg notQuote, if_pos notBackslash]

theorem parseChars_escape (e : Escape) (rest : Bytes) :
    parseChars (backslash :: e.byte :: rest) = appended [escapeValue e] (parseChars rest) := by
  rw [parseChars.eq_def]
  dsimp only
  rw [if_neg (by decide), if_neg (by decide), if_neg (by decide), if_neg (escape_byte_ne e),
    escapedByte_byte]

theorem parseChars_unicode {h₁ h₂ h₃ h₄ : UInt8} {cp : Nat} (read : hexQuad h₁ h₂ h₃ h₄ = some cp)
    (rest : Bytes) : parseChars (backslash :: 0x75 :: h₁ :: h₂ :: h₃ :: h₄ :: rest) =
      if isHighSurrogate cp then
        match lookahead rest with
        | some low => appended (utf8 (combined cp low)) (parseChars (rest.drop 6))
        | none => appended (utf8 kReplacement) (parseChars rest)
      else if isLowSurrogate cp then appended (utf8 kReplacement) (parseChars rest)
      else appended (utf8 cp) (parseChars rest) := by
  rw [parseChars.eq_def]
  dsimp only
  rw [if_neg (by decide), if_neg (by decide), if_neg (by decide), if_pos rfl, read]
  dsimp only
  congr 1
  split
  next b₁ b₂ l₁ l₂ l₃ l₄ after =>
    rw [lookahead]
    cases pairedLow b₁ b₂ l₁ l₂ l₃ l₄ <;> rfl
  next short =>
    have none : lookahead rest = none := by
      unfold lookahead
      split
      · exact (short _ _ _ _ _ _ _ rfl).elim
      · rfl
    rw [none]

theorem lookahead_unicode (l₁ l₂ l₃ l₄ : HexDigit) (rest : Bytes) :
    lookahead (backslash :: 0x75 :: l₁.byte :: l₂.byte :: l₃.byte :: l₄.byte :: rest) =
      (some (quadValue l₁ l₂ l₃ l₄)).filter isLowSurrogate := by
  rw [lookahead, pairedLow, if_pos ⟨rfl, rfl⟩, hexQuad_bytes]

theorem lookahead_eq_none {b₁ b₂ : UInt8} (other : b₁ ≠ backslash ∨ b₂ ≠ 0x75) (rest : Bytes) :
    lookahead (b₁ :: b₂ :: rest) = none := by
  have apart : ¬ (b₁ = backslash ∧ b₂ = 0x75) := by
    rintro ⟨same₁, same₂⟩
    rcases other with ne | ne
    · exact ne same₁
    · exact ne same₂
  unfold lookahead
  split
  next same =>
    cases same
    rw [pairedLow, if_neg apart]
  · rfl

theorem lookahead_head (other : b ≠ backslash) (rest : Bytes) : lookahead (b :: rest) = none := by
  cases rest with
  | nil => rfl
  | cons c rest => exact lookahead_eq_none (.inl other) rest

theorem parseChars_unicode_piece (d₁ d₂ d₃ d₄ : HexDigit) (more : List Piece) (rest : Bytes) :
    parseChars (spelling (.unicode d₁ d₂ d₃ d₄ :: more) ++ quote :: rest) =
      if isHighSurrogate (quadValue d₁ d₂ d₃ d₄) then
        match lookahead (spelling more ++ quote :: rest) with
        | some low =>
          appended (utf8 (combined (quadValue d₁ d₂ d₃ d₄) low))
            (parseChars ((spelling more ++ quote :: rest).drop 6))
        | none => appended (utf8 kReplacement) (parseChars (spelling more ++ quote :: rest))
      else if isLowSurrogate (quadValue d₁ d₂ d₃ d₄) then
        appended (utf8 kReplacement) (parseChars (spelling more ++ quote :: rest))
      else
        appended (utf8 (quadValue d₁ d₂ d₃ d₄)) (parseChars (spelling more ++ quote :: rest)) :=
  parseChars_unicode (hexQuad_bytes d₁ d₂ d₃ d₄) _

/-- The characters of a string and its closing quote, whatever follows. -/
theorem parseChars_spelling (pieces : List Piece) (rest : Bytes) :
    parseChars (spelling pieces ++ quote :: rest) = some (decode pieces, rest) := by
  induction pieces using decode.induct with
  | case1 => exact parseChars_quote rest
  | case2 byte ordinary more ih =>
    change parseChars (byte :: (spelling more ++ quote :: rest)) = _
    rw [parseChars_plain ordinary, ih]
    rfl
  | case3 e more ih =>
    change parseChars (backslash :: e.byte :: (spelling more ++ quote :: rest)) = _
    rw [parseChars_escape, ih]
    rfl
  | case4 d₁ d₂ d₃ d₄ high l₁ l₂ l₃ l₄ after low ih =>
    rw [parseChars_unicode_piece, if_pos high]
    change (match lookahead (backslash :: 0x75 :: l₁.byte :: l₂.byte :: l₃.byte :: l₄.byte ::
      (spelling after ++ quote :: rest)) with
      | some low => appended _ (parseChars (spelling after ++ quote :: rest))
      | none => _) = _
    rw [lookahead_unicode, Option.filter_some, if_pos low, decode, if_pos high, if_pos low]
    rw [ih]
    rfl
  | case5 d₁ d₂ d₃ d₄ high l₁ l₂ l₃ l₄ after notLow ih =>
    have lone : lookahead (spelling (.unicode l₁ l₂ l₃ l₄ :: after) ++ quote :: rest) = none := by
      change lookahead (backslash :: 0x75 :: l₁.byte :: l₂.byte :: l₃.byte :: l₄.byte ::
        (spelling after ++ quote :: rest)) = none
      rw [lookahead_unicode, Option.filter_some, if_neg notLow]
    rw [parseChars_unicode_piece, if_pos high, lone, decode, if_pos high, if_neg notLow]
    rw [ih]
    rfl
  | case6 d₁ d₂ d₃ d₄ high more other ih =>
    have lone : lookahead (spelling more ++ quote :: rest) = none := by
      cases more with
      | nil => exact lookahead_head (by decide) rest
      | cons piece more =>
        cases piece with
        | plain byte ordinary => exact lookahead_head (ordinary_iff.mp ordinary).2.2 _
        | escape e => exact lookahead_eq_none (.inr (escape_byte_ne e)) _
        | unicode l₁ l₂ l₃ l₄ => exact (other l₁ l₂ l₃ l₄ more rfl).elim
    rw [parseChars_unicode_piece, if_pos high, lone, decode, if_pos high]
    · rw [ih]
      rfl
    · exact other
  | case7 d₁ d₂ d₃ d₄ more notHigh low ih =>
    have decoded : decode (.unicode d₁ d₂ d₃ d₄ :: more) = utf8 kReplacement ++ decode more := by
      rw [decode.eq_def]
      dsimp only
      rw [if_neg notHigh, if_pos low]
    rw [parseChars_unicode_piece, if_neg notHigh, if_pos low, ih, decoded]
    rfl
  | case8 d₁ d₂ d₃ d₄ more notHigh notLow ih =>
    have decoded : decode (.unicode d₁ d₂ d₃ d₄ :: more) =
        utf8 (quadValue d₁ d₂ d₃ d₄) ++ decode more := by
      rw [decode.eq_def]
      dsimp only
      rw [if_neg notHigh, if_neg notLow]
    rw [parseChars_unicode_piece, if_neg notHigh, if_neg notLow, ih, decoded]
    rfl

theorem spelling_append (pieces more : List Piece) :
    spelling (pieces ++ more) = spelling pieces ++ spelling more := flatMap_append ..

/-- What was read as one character and the rest of the string. -/
theorem parseChars_sound_step (pieces : List Piece) {first bytes after : Bytes}
    (inner : ∀ bytes', parseChars src = some (bytes', after) →
      ∃ more, src = spelling more ++ quote :: after)
    (read : appended first (parseChars src) = some (bytes, after))
    (spelled : rest = spelling pieces ++ src) : ∃ more, rest = spelling more ++ quote :: after := by
  obtain ⟨⟨bytes', after'⟩, inside, same⟩ := Option.map_eq_some_iff.mp read
  cases same
  obtain ⟨more, split⟩ := inner bytes' inside
  refine ⟨pieces ++ more, ?_⟩
  rw [spelled, split, spelling_append, append_assoc]

theorem pairedLow_sound {b₁ b₂ l₁ l₂ l₃ l₄ : UInt8} {low : Nat}
    (paired : pairedLow b₁ b₂ l₁ l₂ l₃ l₄ = some low) :
    ∃ d₁ d₂ d₃ d₄ : HexDigit, (Piece.unicode d₁ d₂ d₃ d₄).text = [b₁, b₂, l₁, l₂, l₃, l₄] := by
  unfold pairedLow at paired
  split at paired
  next spelled =>
    obtain ⟨d₁, d₂, d₃, d₄, rfl, rfl, rfl, rfl, -⟩ :=
      hexQuad_sound (Option.filter_eq_some_iff.mp paired).1
    exact ⟨d₁, d₂, d₃, d₄, by rw [spelled.1, spelled.2]; rfl⟩
  · cases paired

theorem parseChars_sound (src : Bytes) : ∀ bytes rest, parseChars src = some (bytes, rest) →
    ∃ pieces, src = spelling pieces ++ quote :: rest := by
  induction src using parseChars.induct with
  | case1 => rintro bytes rest ⟨⟩
  | case2 b src control =>
    intro bytes rest read
    rw [parseChars.eq_def] at read
    dsimp only at read
    rw [if_pos control] at read
    cases read
  | case3 src control =>
    intro bytes rest read
    rw [parseChars_quote] at read
    cases read
    exact ⟨[], rfl⟩
  | case4 b src control notQuote notBackslash ih =>
    intro bytes rest read
    have ordinary := ordinary_iff.mpr ⟨control, notQuote, notBackslash⟩
    rw [parseChars_plain ordinary] at read
    exact parseChars_sound_step [.plain b ordinary] (ih · rest) read rfl
  | case5 b control notQuote isBackslash =>
    intro bytes rest read
    rw [parseChars.eq_def] at read
    dsimp only at read
    rw [if_neg control, if_neg notQuote, if_neg isBackslash] at read
    cases read
  | case6 b control notQuote isBackslash h₁ h₂ h₃ h₄ src quad =>
    intro bytes rest read
    rw [parseChars.eq_def] at read
    dsimp only at read
    rw [if_neg control, if_neg notQuote, if_neg isBackslash, if_pos rfl, quad] at read
    cases read
  | case7 b control notQuote isBackslash h₁ h₂ h₃ h₄ cp quad high b₁ b₂ l₁ l₂ l₃ l₄ after low
      paired ih =>
    intro bytes rest read
    obtain rfl := not_not.mp isBackslash
    rw [parseChars_unicode quad, if_pos high, lookahead, paired] at read
    obtain ⟨d₁, d₂, d₃, d₄, rfl, rfl, rfl, rfl, -⟩ := hexQuad_sound quad
    obtain ⟨e₁, e₂, e₃, e₄, spelled⟩ := pairedLow_sound paired
    refine parseChars_sound_step [.unicode d₁ d₂ d₃ d₄, .unicode e₁ e₂ e₃ e₄] (ih · rest) read ?_
    have both : spelling [.unicode d₁ d₂ d₃ d₄, .unicode e₁ e₂ e₃ e₄] =
        (Piece.unicode d₁ d₂ d₃ d₄).text ++ (Piece.unicode e₁ e₂ e₃ e₄).text := by
      simp only [spelling, flatMap_cons, flatMap_nil, append_nil]
    rw [both, spelled]
    rfl
  | case8 b control notQuote isBackslash h₁ h₂ h₃ h₄ cp quad high b₁ b₂ l₁ l₂ l₃ l₄ after
      unpaired ih =>
    intro bytes rest read
    obtain rfl := not_not.mp isBackslash
    rw [parseChars_unicode quad, if_pos high, lookahead, unpaired] at read
    obtain ⟨d₁, d₂, d₃, d₄, rfl, rfl, rfl, rfl, -⟩ := hexQuad_sound quad
    exact parseChars_sound_step [.unicode d₁ d₂ d₃ d₄] (ih · rest) read rfl
  | case9 b control notQuote isBackslash h₁ h₂ h₃ h₄ cp quad high src short ih =>
    intro bytes rest read
    obtain rfl := not_not.mp isBackslash
    have none : lookahead src = none := by
      unfold lookahead
      split
      · exact (short _ _ _ _ _ _ _ rfl).elim
      · rfl
    rw [parseChars_unicode quad, if_pos high, none] at read
    obtain ⟨d₁, d₂, d₃, d₄, rfl, rfl, rfl, rfl, -⟩ := hexQuad_sound quad
    exact parseChars_sound_step [.unicode d₁ d₂ d₃ d₄] (ih · rest) read rfl
  | case10 b control notQuote isBackslash h₁ h₂ h₃ h₄ src cp quad notHigh low ih =>
    intro bytes rest read
    obtain rfl := not_not.mp isBackslash
    rw [parseChars_unicode quad, if_neg notHigh, if_pos low] at read
    obtain ⟨d₁, d₂, d₃, d₄, rfl, rfl, rfl, rfl, -⟩ := hexQuad_sound quad
    exact parseChars_sound_step [.unicode d₁ d₂ d₃ d₄] (ih · rest) read rfl
  | case11 b control notQuote isBackslash h₁ h₂ h₃ h₄ src cp quad notHigh notLow ih =>
    intro bytes rest read
    obtain rfl := not_not.mp isBackslash
    rw [parseChars_unicode quad, if_neg notHigh, if_neg notLow] at read
    obtain ⟨d₁, d₂, d₃, d₄, rfl, rfl, rfl, rfl, -⟩ := hexQuad_sound quad
    exact parseChars_sound_step [.unicode d₁ d₂ d₃ d₄] (ih · rest) read rfl
  | case12 b control notQuote isBackslash src short =>
    intro bytes rest read
    rw [parseChars.eq_def] at read
    dsimp only at read
    rw [if_neg control, if_neg notQuote, if_neg isBackslash, if_pos rfl] at read
    split at read
    · exact (short _ _ _ _ _ rfl).elim
    · cases read
  | case13 b control notQuote isBackslash esc src notUnicode byte escaped ih =>
    intro bytes rest read
    obtain rfl := not_not.mp isBackslash
    obtain ⟨e, rfl⟩ := escapedByte_sound escaped
    rw [parseChars_escape] at read
    exact parseChars_sound_step [.escape e] (ih · rest) read rfl
  | case14 b control notQuote isBackslash esc src notUnicode unescaped =>
    intro bytes rest read
    rw [parseChars.eq_def] at read
    dsimp only at read
    rw [if_neg control, if_neg notQuote, if_neg isBackslash, if_neg notUnicode, unescaped] at read
    cases read

theorem parseString_text (pieces : List Piece) (rest : Bytes) :
    parseString (stringText pieces ++ rest) = some (decode pieces, rest) := by
  unfold stringText parseString
  rw [cons_append, append_assoc]
  exact parseChars_spelling pieces rest

theorem parseString_sound {bytes : Bytes} (read : parseString src = some (bytes, rest)) :
    ∃ pieces, src = stringText pieces ++ rest := by
  cases src with
  | nil => cases read
  | cons c src =>
    rw [parseString] at read
    split at read
    next isQuote =>
      obtain ⟨pieces, split⟩ := parseChars_sound src bytes rest read
      refine ⟨pieces, ?_⟩
      rw [isQuote, split, stringText, cons_append, append_assoc]
      rfl
    · cases read

/-! ### Lists of entries -/

section Entries

variable {α β : Type} {entry : JsonReader α} {text : β → Bytes} {close : UInt8}

/-- The bytes that close a list. -/
def closesList (close : UInt8) : Prop := close = 0x5D ∨ close = 0x7D

theorem closesList.endsValue {close : UInt8} (closes : closesList close) : endsValue close :=
  .inr (.inr closes)

theorem closesList.inked {close : UInt8} (closes : closesList close) : isBlank close = false := by
  rcases closes with rfl | rfl <;> rfl

theorem closesList.ne_comma {close : UInt8} (closes : closesList close) : comma ≠ close := by
  rcases closes with rfl | rfl <;> decide

/-- One round of the loop: an entry and the byte after it. -/
theorem parseEntries_step (close : UInt8) {ok : Bool} {value : α} (p : Padded β)
    (gives : Gives entry (blanks p.before ++ text p.entry) (if ok then some value else none))
    (ends : endsValue c) (inked : isBlank c = false) (steps : Nat) (rest : Bytes) :
    parseEntries entry close (steps + 1) (p.text text ++ c :: rest) =
      if ok then
        if c = close then some ([value], rest)
        else if c = comma then
          (parseEntries entry close steps rest).map fun (more, rest) => (value :: more, rest)
        else none
      else none := by
  have read := gives (blanks p.after ++ c :: rest) (Ends.blanks (HeadIs.cons ends) _)
  rw [parseEntries, Padded.text, append_assoc, append_assoc, ← append_assoc, read]
  cases ok with
  | false => rfl
  | true =>
    simp only [↓reduceIte, Option.map_some, Option.bind_eq_bind, Option.bind_some,
      skipWhitespace_blanks, skipWhitespace_cons inked]

/-- A list of entries is answered where each of them is. -/
theorem parseEntries_text (closes : closesList close) {ok : β → Bool} {value : β → α}
    (first : Padded β) (more : List (Padded β))
    (gives : ∀ p ∈ first :: more, Gives entry (blanks p.before ++ text p.entry)
      (if ok p.entry then some (value p.entry) else none))
    {steps : Nat} (enough : more.length < steps) (rest : Bytes) : parseEntries entry close steps
        (first.text text ++ (more.flatMap (fun p => comma :: p.text text) ++ close :: rest)) =
      if (first :: more).all (ok ·.entry) then
        some ((first :: more).map (value ·.entry), rest)
      else none := by
  induction more generalizing first steps with
  | nil =>
    obtain ⟨steps, rfl⟩ := Nat.exists_eq_add_one.mpr enough
    have step := parseEntries_step close first (gives first (mem_cons_self ..))
      closes.endsValue closes.inked steps rest
    simpa using step
  | cons next more ih =>
    obtain ⟨steps, rfl⟩ := Nat.exists_eq_add_one.mpr (Nat.zero_lt_of_lt enough)
    have tail := ih next (fun p mem => gives p (mem_cons_of_mem _ mem))
      (Nat.lt_of_succ_lt_succ enough)
    have ends : endsValue comma := .inr (.inl rfl)
    have step := parseEntries_step close first (gives first (mem_cons_self ..)) ends rfl
      steps (next.text text ++ (more.flatMap (fun p => comma :: p.text text) ++ close :: rest))
    rw [if_neg closes.ne_comma, if_pos rfl, tail] at step
    rw [flatMap_cons, cons_append, cons_append, append_assoc, step,
      all_cons (l := next :: more), map_cons (l := next :: more)]
    generalize (next :: more).all (ok ·.entry) = fits
    cases ok first.entry <;> cases fits <;> rfl

/-- The bytes of a list of entries, up to its closing bracket. -/
theorem parseEntries_sound {P : β → Prop}
    (sound : ∀ src a rest, entry src = some (a, rest) →
      ∃ gap b, src = blanks gap ++ (text b ++ rest) ∧ P b)
    (steps : Nat) : ∀ src as rest, parseEntries entry close steps src = some (as, rest) →
      ∃ (first : Padded β) (more : List (Padded β)),
        src = first.text text ++ (more.flatMap (fun p => comma :: p.text text) ++ close :: rest) ∧
          ∀ p ∈ first :: more, P p.entry := by
  induction steps with
  | zero => rintro src as rest ⟨⟩
  | succ steps ih =>
    intro src as rest read
    obtain ⟨⟨a, afterEntry⟩, entryRead, read⟩ := Option.bind_eq_some_iff.mp read
    obtain ⟨before, b, spelled, holds⟩ := sound src a afterEntry entryRead
    obtain ⟨after, blank⟩ := skipWhitespace_sound afterEntry
    dsimp only at read
    split at read
    · cases read
    next c tail head =>
      rw [head] at blank
      split at read
      next closing =>
        cases read
        refine ⟨⟨before, b, after⟩, [], ?_, ?_⟩
        · rw [spelled, blank, closing]
          simp [Padded.text]
        · rintro p (_ | ⟨_, ⟨⟩⟩)
          exact holds
      split at read
      next isComma =>
        obtain ⟨⟨bs, beyond⟩, moreRead, same⟩ := Option.map_eq_some_iff.mp read
        cases same
        obtain ⟨next, more, split, all⟩ := ih tail bs beyond moreRead
        refine ⟨⟨before, b, after⟩, next :: more, ?_, ?_⟩
        · rw [spelled, blank, isComma, split]
          simp [Padded.text]
        · intro p mem
          rcases mem_cons.mp mem with rfl | mem
          · exact holds
          · exact all p mem
      · cases read

/-- A list that is not empty starts behind its blanks, with its first entry. -/
theorem listText_opening {close : UInt8} (gap : List Blank) (first : Padded β) (more : List (Padded β))
    (opens : ∃ c more, text first.entry = c :: more ∧ isBlank c = false ∧ c ≠ close) (rest : Bytes) :
    ∃ c letters, skipWhitespace (listText text gap (first :: more) ++ close :: rest) = c :: letters ∧
      c ≠ close ∧ more.length < (c :: letters).length ∧ c :: letters =
        (⟨[], first.entry, first.after⟩ : Padded β).text text ++
          (more.flatMap (fun p => comma :: p.text text) ++ close :: rest) := by
  obtain ⟨c, letters, spelled, inked, other⟩ := opens
  let tail := more.flatMap (fun p => comma :: p.text text) ++ close :: rest
  have few : more.length ≤ (more.flatMap fun p => comma :: p.text text).length :=
    length_le_flatMap (by simp) more
  have before : listText text gap (first :: more) ++ close :: rest =
      blanks first.before ++ c :: (letters ++ (blanks first.after ++ tail)) := by
    simp [listText, tail, Padded.text, spelled]
  refine ⟨c, letters ++ (blanks first.after ++ tail), ?_, other, ?_, ?_⟩
  · rw [before, skipWhitespace_blanks, skipWhitespace_cons inked]
  · simp only [tail, length_append, length_cons]
    omega
  · simp [tail, Padded.text, spelled]

theorem parseBracketed_text (closes : closesList close) (ok : β → Bool) (value : β → α)
    (gap : List Blank) (entries : List (Padded β))
    (gives : ∀ p ∈ entries, ∀ gap, Gives entry (blanks gap ++ text p.entry)
      (if ok p.entry then some (value p.entry) else none))
    (opens : ∀ p ∈ entries, ∃ c more, text p.entry = c :: more ∧ isBlank c = false ∧ c ≠ close)
    (rest : Bytes) : parseBracketed entry close (listText text gap entries ++ close :: rest) =
      if entries.all (ok ·.entry) then some (entries.map (value ·.entry), rest) else none := by
  cases entries with
  | nil =>
    unfold parseBracketed listText
    rw [skipWhitespace_blanks, skipWhitespace_cons closes.inked]
    dsimp only
    rw [if_pos rfl]
    rfl
  | cons first more =>
    obtain ⟨c, letters, skipped, other, enough, whole⟩ :=
      listText_opening gap first more (opens first (mem_cons_self ..)) rest
    have read := parseEntries_text closes ⟨[], first.entry, first.after⟩ more
      (fun p mem => by
        rcases mem_cons.mp mem with rfl | mem
        · exact gives first (mem_cons_self ..) []
        · exact gives p (mem_cons_of_mem _ mem) p.before) enough rest
    rw [← whole] at read
    unfold parseBracketed
    rw [skipped]
    dsimp only
    rw [if_neg other, read]
    rfl

theorem parseBracketed_sound {P : β → Prop}
    (sound : ∀ src a rest, entry src = some (a, rest) →
      ∃ gap b, src = blanks gap ++ (text b ++ rest) ∧ P b)
    {as : List α} (read : parseBracketed entry close src = some (as, rest)) :
    ∃ gap entries, src = listText text gap entries ++ close :: rest ∧
      ∀ p ∈ entries, P p.entry := by
  obtain ⟨gap, blank⟩ := skipWhitespace_sound src
  unfold parseBracketed at read
  split at read
  · cases read
  next c tail head =>
    split at read
    next closing =>
      cases read
      refine ⟨gap, [], ?_, fun p mem => nomatch mem⟩
      rw [blank, head, closing]
      rfl
    · obtain ⟨first, more, split, all⟩ := parseEntries_sound sound _ _ _ _ read
      refine ⟨[], ⟨gap ++ first.before, first.entry, first.after⟩ :: more, ?_, ?_⟩
      · rw [blank, head, split]
        simp [listText, Padded.text, blanks]
      · intro p mem
        rcases mem_cons.mp mem with rfl | mem
        · exact all first (mem_cons_self ..)
        · exact all p (mem_cons_of_mem _ mem)

end Entries

/-! ### Values -/

/-- The bytes a value begins with. -/
def beginsValue (c : UInt8) : Prop := isBlank c = false ∧ c ≠ 0x5D ∧ c ≠ 0x7D

theorem number_head (n : Number) :
    ∃ c more, n.text = c :: more ∧ (c = 0x2D ∨ (0x30 ≤ c ∧ c ≤ 0x39)) := by
  have digit : ∀ d : Fin 10, 0x30 ≤ digitByte d ∧ digitByte d ≤ 0x39 := by decide
  obtain ⟨minus, whole, fraction, exponent⟩ := n
  cases minus with
  | true => exact ⟨_, _, rfl, .inl rfl⟩
  | false =>
    cases whole with
    | zero => exact ⟨_, _, rfl, .inr (digit 0)⟩
    | nonzero first positive more => exact ⟨_, _, rfl, .inr (digit first)⟩

theorem ne_of_beginsNumber (not : ¬ (c = 0x2D ∨ (0x30 ≤ c ∧ c ≤ 0x39)))
    (begins : b = 0x2D ∨ (0x30 ≤ b ∧ b ≤ 0x39)) : b ≠ c := by
  rintro rfl
  exact not begins

theorem beginsNumber (begins : c = 0x2D ∨ (0x30 ≤ c ∧ c ≤ 0x39)) : beginsValue c := by
  refine ⟨?_, ne_of_beginsNumber (by decide) begins, ne_of_beginsNumber (by decide) begins⟩
  simp only [isBlank, Bool.or_eq_false_iff, beq_eq_false_iff_ne]
  exact ⟨⟨⟨ne_of_beginsNumber (by decide) begins, ne_of_beginsNumber (by decide) begins⟩,
    ne_of_beginsNumber (by decide) begins⟩, ne_of_beginsNumber (by decide) begins⟩

theorem node_head (node : Node) : ∃ c more, node.text = c :: more ∧ beginsValue c := by
  cases node with
  | array gap items => exact ⟨_, _, text_array gap items, by unfold beginsValue; decide⟩
  | object gap members => exact ⟨_, _, text_object gap members, by unfold beginsValue; decide⟩
  | scalar s =>
    cases s with
    | null => exact ⟨_, _, rfl, by unfold beginsValue; decide⟩
    | boolean b => cases b <;> exact ⟨_, _, rfl, by unfold beginsValue; decide⟩
    | string pieces => exact ⟨_, _, rfl, by unfold beginsValue; decide⟩
    | number n =>
      obtain ⟨c, more, text, begins⟩ := number_head n
      exact ⟨c, more, text, beginsNumber begins⟩

theorem parseLiteral_text {α : Type} (token : Bytes) (value : α) (rest : Bytes) :
    parseLiteral token value (token ++ rest) = some (value, rest) := by
  unfold parseLiteral
  rw [take_left, if_pos rfl, drop_left]

theorem parseLiteral_sound {α : Type} {token : Bytes} {value value' : α}
    (read : parseLiteral token value src = some (value', rest)) : src = token ++ rest := by
  unfold parseLiteral at read
  split at read
  next taken =>
    cases read
    calc src = src.take token.length ++ src.drop token.length :=
          (take_append_drop _ _).symm
      _ = token ++ src.drop token.length := by rw [taken]
  · cases read

section Members

variable {value : JsonReader JsonValue}

theorem parseMember_text (gap : List Blank) (m : Keyed Node)
    (gives : ∀ gap, Gives value (blanks gap ++ m.value.text)
      (if inRange m.value then some (valueOf m.value) else none)) :
    Gives (parseMember value) (blanks gap ++ m.text text)
      (if inRange m.value then some (decode m.key, valueOf m.value) else none) := by
  intro rest ends
  have read := gives m.afterColon rest ends
  have atKey : skipWhitespace (blanks gap ++ m.text text ++ rest) =
      stringText m.key ++ (blanks m.beforeColon ++
        colon :: (blanks m.afterColon ++ m.value.text ++ rest)) := by
    rw [append_assoc, skipWhitespace_blanks]
    simp only [Keyed.text, cons_append, append_assoc]
    exact skipWhitespace_cons rfl _
  unfold parseMember
  rw [atKey, parseString_text]
  simp only [Option.bind_eq_bind, Option.bind_some, skipWhitespace_blanks,
    skipWhitespace_cons (c := colon) rfl, read]
  cases inRange m.value <;> rfl

theorem parseMember_sound {P : Node → Prop}
    (sound : ∀ src v rest, value src = some (v, rest) →
      ∃ gap node, src = blanks gap ++ (text node ++ rest) ∧ P node)
    (src : Bytes) (entry : Bytes × JsonValue) (rest : Bytes)
    (read : parseMember value src = some (entry, rest)) :
    ∃ gap, ∃ m : Keyed Node, src = blanks gap ++ (m.text text ++ rest) ∧ P m.value := by
  obtain ⟨⟨bytes, afterKey⟩, keyRead, read⟩ := Option.bind_eq_some_iff.mp read
  obtain ⟨gap, blank⟩ := skipWhitespace_sound src
  obtain ⟨key, spelled⟩ := parseString_sound keyRead
  obtain ⟨beforeColon, blank'⟩ := skipWhitespace_sound afterKey
  dsimp only at read
  split at read
  · cases read
  next c tail head =>
    split at read
    next isColon =>
      obtain ⟨⟨v, beyond⟩, valueRead, same⟩ := Option.map_eq_some_iff.mp read
      cases same
      obtain ⟨afterColon, node, text, holds⟩ := sound tail v beyond valueRead
      refine ⟨gap, ⟨key, beforeColon, afterColon, node⟩, ?_, holds⟩
      rw [blank, spelled, blank', head, isColon, text]
      simp only [Keyed.text, append_assoc, cons_append]
    · cases read

end Members

theorem parseValue_blanks (levels : Nat) (gap : List Blank) (src : Bytes) :
    parseValue levels (blanks gap ++ src) = parseValue levels src := by
  rw [parseValue.eq_def, parseValue.eq_def levels src]
  dsimp only
  rw [skipWhitespace_blanks]

theorem parseScalar_text (s : Scalar) (levels : Nat) (ends : Ends rest) :
    parseValue levels (s.text ++ rest) =
      if scalarInRange s then some (scalarValue s, rest) else none := by
  cases s with
  | null => rw [parseValue.eq_def]; exact parseLiteral_text nullText _ rest
  | boolean b =>
    cases b with
    | true => rw [parseValue.eq_def]; exact parseLiteral_text (booleanText true) _ rest
    | false => rw [parseValue.eq_def]; exact parseLiteral_text (booleanText false) _ rest
  | string pieces =>
    have read := parseString_text pieces rest
    rw [parseValue.eq_def]
    change Option.map _ (parseString (stringText pieces ++ rest)) = _
    rw [read]
    rfl
  | number n =>
    obtain ⟨c, more, text, begins⟩ := number_head n
    have apart := fun other not => ne_of_beginsNumber (c := other) not begins
    have read := takeNumber_text n rest ends
    change parseValue levels (n.text ++ rest) = _
    rw [parseValue.eq_def]
    simp only [text, cons_append, skipWhitespace_cons (beginsNumber begins).1,
      apart quote (by decide), apart 0x7B (by decide), apart 0x5B (by decide),
      apart 0x74 (by decide), apart 0x66 (by decide), apart 0x6E (by decide), begins, ↓reduceIte]
    rw [← cons_append, ← text]
    unfold parseNumber
    rw [read]
    simp only [Option.map_some, Option.bind_eq_bind, Option.bind_some, scalarInRange, scalarValue]
    have valued := numberValue_isSome n
    by_cases ranged : overflows n = true
    · rw [ranged, Bool.not_true, Option.isSome_eq_false_iff, Option.isNone_iff_eq_none] at valued
      simp only [valued, ranged, Bool.not_true, Bool.false_eq_true, ↓reduceIte, Option.bind_none]
    · rw [Bool.not_eq_true] at ranged
      rw [ranged, Bool.not_false, Option.isSome_iff_exists] at valued
      obtain ⟨v, valued⟩ := valued
      simp only [valued, ranged, Bool.not_false, ↓reduceIte, Option.bind_some, Option.getD_some,
        Option.pure_def]

/-- On the text of a node the parser answers the node's value, where it is in range. -/
theorem parseValue_text (node : Node) : ∀ levels, node.nesting ≤ levels → ∀ gap,
    Gives (parseValue levels) (blanks gap ++ node.text)
      (if inRange node then some (valueOf node) else none) := by
  induction node using induction with
  | scalar s =>
    intro levels shallow gap rest ends
    have read := parseScalar_text s levels ends
    rw [text_scalar, inRange_scalar, valueOf_scalar, append_assoc, parseValue_blanks, read]
    split <;> rfl
  | array gap' items ih =>
    intro levels shallow gap rest ends
    obtain ⟨deeper, rfl⟩ := Nat.exists_eq_add_one.mpr
      ((nesting_array_pos gap' items).trans_le shallow)
    rw [nesting_array_le] at shallow
    have read := parseBracketed_text (.inl rfl) inRange valueOf gap' items
      (fun p mem gap => ih p mem deeper (shallow p mem) gap)
      (fun p _ => by
        obtain ⟨c, more, text, inked, other, -⟩ := node_head p.entry
        exact ⟨c, more, text, inked, other⟩) rest
    rw [append_assoc, parseValue_blanks, text_array, parseValue.eq_def, cons_append,
      append_assoc]
    change Option.map _ (parseBracketed (parseValue deeper) 0x5D _) = _
    rw [singleton_append, read, inRange_array, valueOf_array]
    split <;> rfl
  | object gap' members ih =>
    intro levels shallow gap rest ends
    obtain ⟨deeper, rfl⟩ := Nat.exists_eq_add_one.mpr
      ((nesting_object_pos gap' members).trans_le shallow)
    rw [nesting_object_le] at shallow
    have opens : ∀ p ∈ members, ∃ c more,
        p.entry.text text = c :: more ∧ isBlank c = false ∧ c ≠ 0x7D :=
      fun p _ => ⟨quote, _, rfl, rfl, by decide⟩
    have read := parseBracketed_text (.inr rfl) (fun m : Keyed Node => inRange m.value)
      (fun m => (decode m.key, valueOf m.value)) gap' members
      (fun p mem gap => parseMember_text gap p.entry fun gap =>
        ih p mem deeper (shallow p mem) gap) opens rest
    rw [append_assoc, parseValue_blanks, text_object, parseValue.eq_def, cons_append,
      append_assoc]
    change Option.map _ (parseBracketed (parseMember (parseValue deeper)) 0x7D _) = _
    rw [singleton_append, read, inRange_object, valueOf_object]
    split <;> rfl

/-- The bytes a reader of values took. -/
def TakesValues (levels : Nat) (reader : JsonReader JsonValue) : Prop :=
  ∀ src v rest, reader src = some (v, rest) →
    ∃ gap node, src = blanks gap ++ (Node.text node ++ rest) ∧ node.nesting ≤ levels

variable {v : JsonValue} {levels : Nat}

theorem TakesValues.array {value : JsonReader JsonValue} (takes : TakesValues levels value)
    (read : parseArray value src = some (v, rest)) :
    ∃ node, 0x5B :: src = text node ++ rest ∧ node.nesting ≤ levels + 1 := by
  obtain ⟨⟨items, beyond⟩, itemsRead, same⟩ := Option.map_eq_some_iff.mp read
  cases same
  obtain ⟨gap, entries, text, shallow⟩ := parseBracketed_sound takes itemsRead
  refine ⟨.array gap entries, ?_, (nesting_array_le ..).mpr shallow⟩
  rw [text_array, text]
  simp

theorem TakesValues.object {value : JsonReader JsonValue} (takes : TakesValues levels value)
    (read : parseObject value src = some (v, rest)) :
    ∃ node, 0x7B :: src = text node ++ rest ∧ node.nesting ≤ levels + 1 := by
  obtain ⟨⟨members, beyond⟩, membersRead, same⟩ := Option.map_eq_some_iff.mp read
  cases same
  obtain ⟨gap, entries, text, shallow⟩ :=
    parseBracketed_sound (parseMember_sound takes) membersRead
  refine ⟨.object gap entries, ?_, (nesting_object_le ..).mpr shallow⟩
  rw [text_object, text]
  simp

/-- One level of the parser. -/
theorem parseValue_sound_of
    (deeper : ∀ less, levels = less + 1 → TakesValues less (parseValue less)) :
    TakesValues levels (parseValue levels) := by
  intro src v rest read
  obtain ⟨gap, blank⟩ := skipWhitespace_sound src
  suffices ∃ node, skipWhitespace src = text node ++ rest ∧ node.nesting ≤ levels by
    obtain ⟨node, text, shallow⟩ := this
    exact ⟨gap, node, by rw [blank, text], shallow⟩
  have scalar : ∀ s : Scalar, skipWhitespace src = s.text ++ rest →
      ∃ node, skipWhitespace src = text node ++ rest ∧ node.nesting ≤ levels := by
    intro s text
    exact ⟨.scalar s, by rw [text_scalar, text], by rw [nesting_scalar]; omega⟩
  rw [parseValue.eq_def] at read
  dsimp only at read
  split at read
  · cases read
  next c tail head =>
    rw [head] at scalar ⊢
    split at read
    · obtain ⟨⟨bytes, beyond⟩, stringRead, same⟩ := Option.map_eq_some_iff.mp read
      cases same
      obtain ⟨pieces, text⟩ := parseString_sound stringRead
      exact scalar (.string pieces) text
    split at read
    next isBrace =>
      split at read
      · cases read
      next less =>
        rw [isBrace]
        exact (deeper less rfl).object read
    split at read
    next isBracket =>
      split at read
      · cases read
      next less =>
        rw [isBracket]
        exact (deeper less rfl).array read
    split at read
    · exact scalar (.boolean true) (parseLiteral_sound read)
    split at read
    · exact scalar (.boolean false) (parseLiteral_sound read)
    split at read
    · exact scalar .null (parseLiteral_sound read)
    split at read
    · obtain ⟨⟨tok, beyond⟩, numberRead, valued⟩ := Option.bind_eq_some_iff.mp read
      obtain ⟨value, -, same⟩ := Option.bind_eq_some_iff.mp valued
      cases same
      exact scalar (.number tok) (takeNumber_sound numberRead)
    · cases read

theorem parseValue_sound (levels : Nat) : TakesValues levels (parseValue levels) := by
  induction levels with
  | zero => exact parseValue_sound_of fun less impossible => by omega
  | succ levels ih =>
    refine parseValue_sound_of fun less same => ?_
    obtain rfl := Nat.succ.inj same
    exact ih

/-! ### JSON texts -/

/-- A JSON text whose arrays and objects nest at most as deep as the parser allows. -/
def IsJson (text : Bytes) : Prop :=
  ∃ d : Document, d.text = text ∧ d.value.nesting ≤ kMaxParseDepth

/-- What the parser answers on a JSON text. -/
theorem parseJson_text {d : Document} (shallow : d.value.nesting ≤ kMaxParseDepth) :
    parseJson d.text = if inRange d.value then some (valueOf d.value) else none := by
  have ends : Ends (blanks d.after) := by
    have none := Ends.blanks (HeadIs.nil endsValue) d.after
    rwa [append_nil] at none
  have read := parseValue_text d.value kMaxParseDepth shallow d.before _ ends
  have blank : skipWhitespace (blanks d.after) = [] := by
    have skipped := skipWhitespace_blanks d.after []
    rwa [append_nil] at skipped
  unfold parseJson Document.text
  rw [← append_assoc, read]
  cases inRange d.value with
  | false => rfl
  | true => exact if_pos blank

theorem parseJson_sound {text : Bytes} (parsed : parseJson text = some v) : IsJson text := by
  unfold parseJson at parsed
  split at parsed
  · cases parsed
  next value rest read =>
    split at parsed
    next nothing =>
      obtain ⟨before, node, split, shallow⟩ := parseValue_sound _ _ _ _ read
      obtain ⟨after, blank⟩ := skipWhitespace_sound rest
      rw [nothing, append_nil] at blank
      exact ⟨⟨before, node, after⟩, by rw [split, blank]; rfl, shallow⟩
    · cases parsed

/-- `ParseJson` accepts exactly JSON but where an integer literal is out of range. -/
theorem parseJson_exact (text : Bytes) :
    ((parseJson text).isSome = true ↔ IsJson text) ↔
      ∀ d : Document, d.text = text → d.value.nesting ≤ kMaxParseDepth →
        inRange d.value = true := by
  constructor
  · intro exact d spelled shallow
    have accepted := exact.mpr ⟨d, spelled, shallow⟩
    rw [← spelled, parseJson_text shallow] at accepted
    by_contra out
    rw [if_neg out] at accepted
    cases accepted
  · intro ranged
    constructor
    · intro accepted
      obtain ⟨v, parsed⟩ := Option.isSome_iff_exists.mp accepted
      exact parseJson_sound parsed
    · rintro ⟨d, spelled, shallow⟩
      rw [← spelled, parseJson_text shallow, if_pos (ranged d spelled shallow)]
      rfl

/-- A one and four hundred zeros are JSON, and are refused. -/
theorem parseJson_refuses :
    ¬ ∀ text, (parseJson text).isSome = true ↔ IsJson text := by
  intro exact
  let long : Number := ⟨false, .nonzero 1 (by decide) (List.replicate 400 0), none, none⟩
  let d : Document := ⟨[], .scalar (.number long), []⟩
  have shallow : d.value.nesting ≤ kMaxParseDepth := by
    rw [Node.nesting_scalar]
    exact Nat.zero_le _
  have refused : inRange d.value = false := by
    rw [inRange_scalar]
    decide +kernel
  have accepted := (exact d.text).mpr ⟨d, rfl, shallow⟩
  rw [parseJson_text shallow, refused] at accepted
  cases accepted

end Microide.Util
