/-
`SerializeJson`, and its texts read back.

The serializer writes the text of a node. What `std::to_chars` answers is a parameter; of it is
used only that a finite double is spelled as a number it is nearest to, and exactly where the
spelling is an integer.

**Main results.** `sortAfterParse_strict`: the members of a parsed object are in the order a
parse of them would put them; `serialized_text`: the serializer writes the text of a node
whose value is the value it was given; `parseJson_serializeJson`: the round trip.
-/

import Microide.Util.JsonParseExact

namespace Microide.Util

open List Lib.Json Lib Node

/-- `std::to_chars` of a double. -/
class ToChars where
  toChars : UInt64 → Bytes

/-! ### The serializer -/

/-- The decimal digits of a number, the most significant first. -/
def decimalDigits (n : Nat) : List (Fin 10) :=
  if n = 0 then [0] else (Nat.digits 10 n).reverse.map (Fin.ofNat 10)

/-- `std::to_chars` of an `int64`. -/
def integerText (n : Int) : Bytes := minusText (n < 0) ++ digitsText (decimalDigits n.natAbs)

/-- The last digit of `\u00XX`, as `%04x` spells it. -/
def lowerHex (d : Nat) : UInt8 := if d < 10 then 0x30 + UInt8.ofNat d else 0x57 + UInt8.ofNat d

/-- What `AppendEscaped` appends for one byte. -/
def escapedText (c : UInt8) : Bytes :=
  if 0x20 ≤ c ∧ c ≠ quote ∧ c ≠ backslash then [c]
  else if c = 0x22 then [backslash, 0x22]
  else if c = 0x5C then [backslash, 0x5C]
  else if c = 0x08 then [backslash, 0x62]
  else if c = 0x0C then [backslash, 0x66]
  else if c = 0x0A then [backslash, 0x6E]
  else if c = 0x0D then [backslash, 0x72]
  else if c = 0x09 then [backslash, 0x74]
  else [backslash, 0x75, 0x30, 0x30, lowerHex (c.toNat / 16), lowerHex (c.toNat % 16)]

/-- `AppendEscaped`. -/
def appendEscaped (s : Bytes) : Bytes := quote :: (s.flatMap escapedText ++ [quote])

def commaJoined : List Bytes → Bytes
  | [] => []
  | first :: more => first ++ more.flatMap (comma :: ·)

section AppendValue

variable [ToChars]

mutual

/-- `AppendValue`. -/
def appendValue : JsonValue → Nat → Bytes
  | .null, _ => nullText
  | .bool b, depth => if kMaxParseDepth < depth then nullText else booleanText b
  | .int n, depth => if kMaxParseDepth < depth then nullText else integerText n
  | .double bits, depth =>
    if kMaxParseDepth < depth ∨ isFinite bits = false then nullText else ToChars.toChars bits
  | .string bytes, depth => if kMaxParseDepth < depth then nullText else appendEscaped bytes
  | .array items, depth =>
    if kMaxParseDepth < depth then nullText
    else 0x5B :: (commaJoined (appendItems items (depth + 1)) ++ [0x5D])
  | .object entries, depth =>
    if kMaxParseDepth < depth then nullText
    else 0x7B :: (commaJoined (appendMembers entries (depth + 1)) ++ [0x7D])

def appendItems : List JsonValue → Nat → List Bytes
  | [], _ => []
  | value :: more, depth => appendValue value depth :: appendItems more depth

def appendMembers : List (Bytes × JsonValue) → Nat → List Bytes
  | [], _ => []
  | (key, value) :: more, depth =>
    (appendEscaped key ++ colon :: appendValue value depth) :: appendMembers more depth

end

/-- `SerializeJson`. -/
def serializeJson (value : JsonValue) : Bytes := appendValue value 0

theorem appendItems_eq (items : List JsonValue) (depth : Nat) :
    appendItems items depth = items.map (appendValue · depth) := by
  induction items with
  | nil => simp only [appendItems, map_nil]
  | cons value more ih => simp only [appendItems, map_cons, ih]

theorem appendMembers_eq (entries : List (Bytes × JsonValue)) (depth : Nat) :
    appendMembers entries depth =
      entries.map fun e => appendEscaped e.1 ++ colon :: appendValue e.2 depth := by
  induction entries with
  | nil => simp only [appendMembers, map_nil]
  | cons entry more ih => simp only [appendMembers, map_cons, ih]

end AppendValue

/-! ### What a value holds -/

mutual

/-- The doubles in a value. -/
def doubles : JsonValue → List UInt64
  | .double bits => [bits]
  | .array items => doublesOfItems items
  | .object entries => doublesOfMembers entries
  | _ => []

def doublesOfItems : List JsonValue → List UInt64
  | [] => []
  | value :: more => doubles value ++ doublesOfItems more

def doublesOfMembers : List (Bytes × JsonValue) → List UInt64
  | [] => []
  | (_, value) :: more => doubles value ++ doublesOfMembers more

end

variable {bits : UInt64}

theorem mem_doubles_array {items : List JsonValue} {value : JsonValue} (mem : value ∈ items)
    (held : bits ∈ doubles value) : bits ∈ doubles (.array items) := by
  rw [doubles]
  induction items with
  | nil => cases mem
  | cons first more ih =>
    rw [doublesOfItems, mem_append]
    rcases mem_cons.mp mem with rfl | mem
    · exact .inl held
    · exact .inr (ih mem)

variable {entries : List (Bytes × JsonValue)}

theorem mem_doubles_object {entry : Bytes × JsonValue} (mem : entry ∈ entries)
    (held : bits ∈ doubles entry.2) : bits ∈ doubles (.object entries) := by
  rw [doubles]
  induction entries with
  | nil => cases mem
  | cons first more ih =>
    rw [doublesOfMembers, mem_append]
    rcases mem_cons.mp mem with rfl | mem
    · exact .inl held
    · exact .inr (ih mem)

/-- A value read back: the same, but for a double that was spelled as an integer and is the
integer it equals. -/
inductive ReadBack : JsonValue → JsonValue → Prop
  | same (v : JsonValue) : ReadBack v v
  | whole (bits : UInt64) (n : Int) (equal : (n : ℚ) = doubleValue bits) :
      ReadBack (.double bits) (.int n)
  | array {items items' : List JsonValue} (each : List.Forall₂ ReadBack items items') :
      ReadBack (.array items) (.array items')
  | object {entries entries' : List (Bytes × JsonValue)}
      (keys : entries.map Prod.fst = entries'.map Prod.fst)
      (each : List.Forall₂ ReadBack (entries.map Prod.snd) (entries'.map Prod.snd)) :
      ReadBack (.object entries) (.object entries')

/-- What `std::to_chars` promises of a finite double: a number whose nearest double it is, and
which it equals where the number is spelled as an integer. -/
def Inverts (text : Bytes) (bits : UInt64) : Prop :=
  ∃ n : Number, n.text = text ∧ fromChars n = .value bits ∧
    (n.isInteger = true → (n.int : ℚ) = doubleValue bits)

/-! ### Integers -/

theorem digitsValue_decimalDigits (n : Nat) : digitsValue (decimalDigits n) = n := by
  unfold decimalDigits
  split
  next zero =>
    rw [zero]
    rfl
  · have small : ∀ d ∈ Nat.digits 10 n, d < 10 := fun d mem => Nat.digits_lt_base (by decide) mem
    unfold digitsValue
    rw [map_reverse, foldl_reverse, foldr_map]
    calc (Nat.digits 10 n).foldr (fun d value => 10 * value + (Fin.ofNat 10 d).val) 0
        = (Nat.digits 10 n).foldr (fun d value => d + 10 * value) 0 := by
          refine foldr_ext _ _ _ fun d mem value => ?_
          rw [Fin.val_ofNat, Nat.mod_eq_of_lt (small d mem), Nat.add_comm]
      _ = Nat.ofDigits 10 (Nat.digits 10 n) := (Nat.ofDigits_eq_foldr 10 _).symm
      _ = n := Nat.ofDigits_digits 10 n

theorem exists_whole (n : Nat) : ∃ w : Whole, w.digits = decimalDigits n := by
  unfold decimalDigits
  split
  · exact ⟨.zero, rfl⟩
  next positive =>
    have nonempty : Nat.digits 10 n ≠ [] := Nat.digits_ne_nil_iff_ne_zero.mpr positive
    have leading : (Nat.digits 10 n).getLast nonempty ≠ 0 := Nat.getLast_digit_ne_zero 10 positive
    have small : (Nat.digits 10 n).getLast nonempty < 10 :=
      Nat.digits_lt_base (by decide) (getLast_mem nonempty)
    have concat := dropLast_concat_getLast nonempty
    generalize (Nat.digits 10 n).getLast nonempty = first at *
    refine ⟨.nonzero (Fin.ofNat 10 first) ?_
      ((Nat.digits 10 n).dropLast.reverse.map (Fin.ofNat 10)), ?_⟩
    · intro zero
      have value := congrArg Fin.val zero
      rw [Fin.val_ofNat, Nat.mod_eq_of_lt small] at value
      exact leading value
    · rw [← concat, reverse_append, dropLast_concat]
      rfl

/-- An integer is spelled as an integer literal that denotes it. -/
theorem integerText_spells (n : Int) :
    ∃ tok : Number, tok.text = integerText n ∧ tok.isInteger = true ∧ tok.int = n := by
  obtain ⟨w, digits⟩ := exists_whole n.natAbs
  refine ⟨⟨decide (n < 0), w, none, none⟩, ?_, rfl, ?_⟩
  · simp only [Number.text, Whole.text, digits, integerText, fractionText, exponentText, append_nil]
  · have value := digitsValue_decimalDigits n.natAbs
    simp only [Number.int, digits, value, decide_eq_true_eq]
    omega

/-! ### Strings -/

theorem exists_hexDigit : ∀ d : Fin 16, ∃ h : HexDigit, h.byte = lowerHex d ∧ h.value = d := by
  have decimal : ∀ d : Fin 10, (HexDigit.decimal d).byte = lowerHex d := by decide
  have lower : ∀ d : Fin 6, (HexDigit.lower d).byte = lowerHex (d + 10) := by decide
  intro d
  by_cases small : d.val < 10
  · exact ⟨.decimal ⟨d, small⟩, decimal ⟨d, small⟩, rfl⟩
  · have above : d.val - 10 + 10 = d.val := by omega
    refine ⟨.lower ⟨d.val - 10, by omega⟩, ?_, above⟩
    rw [lower, above]

/-- A byte is spelled as one character that decodes to it, whatever follows. -/
theorem escapedText_spells (c : UInt8) :
    ∃ p : Piece, p.text = escapedText c ∧ ∀ rest, decode (p :: rest) = c :: decode rest := by
  unfold escapedText
  by_cases plain : 0x20 ≤ c ∧ c ≠ quote ∧ c ≠ backslash
  · rw [if_pos plain]
    exact ⟨.plain c (ordinary_iff.mpr ⟨UInt8.not_lt.mpr plain.1, plain.2⟩), rfl, fun _ => rfl⟩
  rw [if_neg plain]
  by_cases notQuote : c = 0x22
  · rw [if_pos notQuote]
    exact ⟨.escape .quote, rfl, fun _ => by rw [notQuote]; rfl⟩
  rw [if_neg notQuote]
  by_cases notBackslash : c = 0x5C
  · rw [if_pos notBackslash]
    exact ⟨.escape .backslash, rfl, fun _ => by rw [notBackslash]; rfl⟩
  rw [if_neg notBackslash]
  by_cases notBackspace : c = 0x08
  · rw [if_pos notBackspace]
    exact ⟨.escape .backspace, rfl, fun _ => by rw [notBackspace]; rfl⟩
  rw [if_neg notBackspace]
  by_cases notFormFeed : c = 0x0C
  · rw [if_pos notFormFeed]
    exact ⟨.escape .formFeed, rfl, fun _ => by rw [notFormFeed]; rfl⟩
  rw [if_neg notFormFeed]
  by_cases notLineFeed : c = 0x0A
  · rw [if_pos notLineFeed]
    exact ⟨.escape .lineFeed, rfl, fun _ => by rw [notLineFeed]; rfl⟩
  rw [if_neg notLineFeed]
  by_cases notCarriageReturn : c = 0x0D
  · rw [if_pos notCarriageReturn]
    exact ⟨.escape .carriageReturn, rfl, fun _ => by rw [notCarriageReturn]; rfl⟩
  rw [if_neg notCarriageReturn]
  by_cases notTab : c = 0x09
  · rw [if_pos notTab]
    exact ⟨.escape .tab, rfl, fun _ => by rw [notTab]; rfl⟩
  rw [if_neg notTab]
  have control : c.toNat < 32 := by
    by_contra large
    refine plain ⟨?_, notQuote, notBackslash⟩
    exact Nat.not_lt.mp large
  obtain ⟨high, highByte, highValue⟩ := exists_hexDigit ⟨c.toNat / 16, by omega⟩
  obtain ⟨low, lowByte, lowValue⟩ := exists_hexDigit ⟨c.toNat % 16, by omega⟩
  refine ⟨.unicode (.decimal 0) (.decimal 0) high low, ?_, fun rest => ?_⟩
  · simp only [Piece.text, highByte, lowByte]
    rfl
  · have value : quadValue (.decimal 0) (.decimal 0) high low = c.toNat := by
      unfold quadValue
      rw [highValue, lowValue]
      change ((0 * 16 + 0) * 16 + c.toNat / 16) * 16 + c.toNat % 16 = c.toNat
      omega
    have notHigh : isHighSurrogate c.toNat = false := by
      simp only [isHighSurrogate, Bool.and_eq_false_iff, decide_eq_false_iff_not]
      omega
    have notLow : isLowSurrogate c.toNat = false := by
      simp only [isLowSurrogate, Bool.and_eq_false_iff, decide_eq_false_iff_not]
      omega
    have byte : utf8 c.toNat = [c] := by
      have scalar : ¬ (0x10FFFF < c.toNat ∨ (0xD800 ≤ c.toNat ∧ c.toNat ≤ 0xDFFF)) := by omega
      have ascii : c.toNat ≤ 0x7F := by omega
      simp only [utf8, if_neg scalar, if_pos ascii, UInt8.ofNat_toNat]
    rw [decode.eq_def]
    dsimp only
    rw [value, notHigh, notLow, byte]
    rfl

/-- A string is spelled as characters that decode to it. -/
theorem appendEscaped_spells (s : Bytes) :
    ∃ pieces, stringText pieces = appendEscaped s ∧ decode pieces = s := by
  suffices ∃ pieces, spelling pieces = s.flatMap escapedText ∧ decode pieces = s by
    obtain ⟨pieces, text, value⟩ := this
    exact ⟨pieces, by rw [stringText, text]; rfl, value⟩
  induction s with
  | nil => exact ⟨[], rfl, rfl⟩
  | cons c s ih =>
    obtain ⟨p, pieceText, pieceValue⟩ := escapedText_spells c
    obtain ⟨pieces, text, value⟩ := ih
    refine ⟨p :: pieces, ?_, by rw [pieceValue, value]⟩
    rw [flatMap_cons, ← pieceText, ← text]
    rfl

/-! ### Members -/

theorem sortAfterParse_strict (entries : List (Bytes × JsonValue)) :
    (sortAfterParse entries).Pairwise fun a b => jsonKeyRank a.1 < jsonKeyRank b.1 :=
  lastOfRuns_strict _ (sortBy_pairwise _ entries)

theorem sortAfterParse_eq_self
    (strict : entries.Pairwise fun a b => jsonKeyRank a.1 < jsonKeyRank b.1) :
    sortAfterParse entries = entries := by
  unfold sortAfterParse
  rw [sortBy_eq_self _ (strict.imp le_of_lt), lastOfRuns_eq_self _ strict]

theorem mem_of_mem_sortAfterParse {e : Bytes × JsonValue} (mem : e ∈ sortAfterParse entries) :
    e ∈ entries :=
  (lastWith_mem _ ((mem_lastOfRuns_sortBy _).mp mem)).1

/-! ### The text of a value -/

variable {α : Type}

theorem exists_forall₂ {β : Type} {R : α → β → Prop} {l : List α} (each : ∀ a ∈ l, ∃ b, R a b) :
    ∃ l', List.Forall₂ R l l' := by
  induction l with
  | nil => exact ⟨[], .nil⟩
  | cons a l ih =>
    obtain ⟨b, related⟩ := each a (mem_cons_self ..)
    obtain ⟨l', more⟩ := ih fun a mem => each a (mem_cons_of_mem _ mem)
    exact ⟨b :: l', .cons related more⟩

theorem map_eq_of_forall₂ {β γ : Type} {R : α → β → Prop} {f : α → γ} {g : β → γ} {l : List α}
    {l' : List β} (same : ∀ a b, R a b → f a = g b) (each : List.Forall₂ R l l') :
    l.map f = l'.map g := by
  induction each with
  | nil => rfl
  | cons related _ ih => rw [map_cons, map_cons, same _ _ related, ih]

theorem exists_of_forall₂_mem {β : Type} {R : α → β → Prop} {l : List α} {l' : List β}
    (each : List.Forall₂ R l l') {b : β} (mem : b ∈ l') : ∃ a ∈ l, R a b := by
  induction each with
  | nil => cases mem
  | cons related _ ih =>
    rcases mem_cons.mp mem with rfl | mem
    · exact ⟨_, mem_cons_self .., related⟩
    · obtain ⟨a, inList, related⟩ := ih mem
      exact ⟨a, mem_cons_of_mem _ inList, related⟩

/-- Entries with no blanks about them. -/
def unpadded {α : Type} (l : List α) : List (Padded α) := l.map fun a => ⟨[], a, []⟩

theorem listText_unpadded (f : α → Bytes) (l : List α) :
    listText f [] (unpadded l) = commaJoined (l.map f) := by
  have text : ∀ a, Padded.text f ⟨[], a, []⟩ = f a := by simp [Padded.text]
  cases l with
  | nil => rfl
  | cons a l =>
    simp only [unpadded, map_cons, listText, commaJoined, flatMap_map, text]

theorem mem_unpadded {l : List α} {p : Padded α} (mem : p ∈ unpadded l) : p.entry ∈ l := by
  obtain ⟨a, inList, rfl⟩ := mem_map.mp mem
  exact inList

theorem not_overflows_of_numberValue {tok : Number} {v : JsonValue}
    (valued : numberValue tok = some v) : overflows tok = false := by
  have some := numberValue_isSome tok
  rw [valued] at some
  simpa using some.symm

theorem numberValue_cases {tok : Number} {v : JsonValue} (valued : numberValue tok = some v) :
    (∃ n : Int, v = .int n ∧ -2 ^ 63 ≤ n ∧ n < 2 ^ 63) ∨ ∃ bits, v = .double bits := by
  unfold numberValue at valued
  split at valued
  · split at valued
    next n int =>
      unfold parseInt64 at int
      split at int
      next range =>
        cases int
        cases valued
        exact .inl ⟨_, rfl, range⟩
      · cases int
    · obtain ⟨bits, -, rfl⟩ := Option.map_eq_some_iff.mp valued
      exact .inr ⟨bits, rfl⟩
  · split at valued <;> cases valued <;> exact .inr ⟨_, rfl⟩

variable {depth levels : Nat}

section Texts

variable [ToChars]

/-- What the serializer wrote is the text of a node for the value. -/
structure Spells (levels depth : Nat) (value : JsonValue) (node : Node) : Prop where
  text : node.text = appendValue value depth
  shallow : node.nesting ≤ levels
  ranged : inRange node = true
  value : ReadBack value (valueOf node)

/-- What it wrote for a member is the text of one. -/
structure SpellsMember (levels depth : Nat) (e : Bytes × JsonValue) (m : Keyed Node) : Prop where
  text : m.text Node.text = appendEscaped e.1 ++ colon :: appendValue e.2 depth
  key : decode m.key = e.1
  value : Spells levels depth e.2 m.value

theorem Spells.member {e : Bytes × JsonValue} {node : Node}
    (spelled : Spells levels depth e.2 node) :
    ∃ m, SpellsMember levels depth e m := by
  obtain ⟨pieces, text, value⟩ := appendEscaped_spells e.1
  refine ⟨⟨pieces, [], [], node⟩, ?_, value, spelled⟩
  simp only [Keyed.text, text, spelled.text, blanks_nil, nil_append]

theorem Spells.array (within : depth ≤ kMaxParseDepth) {items : List JsonValue} {nodes : List Node}
    (each : List.Forall₂ (Spells levels (depth + 1)) items nodes) :
    Spells (levels + 1) depth (.array items) (.array [] (unpadded nodes)) where
  text := by
    have texts := map_eq_of_forall₂ (fun _ _ spelled => spelled.text.symm) each
    rw [text_array, listText_unpadded, appendValue, if_neg (Nat.not_lt.mpr within),
      appendItems_eq, texts]
  shallow := by
    rw [nesting_array_le]
    intro p mem
    obtain ⟨_, _, spelled⟩ := exists_of_forall₂_mem each (mem_unpadded mem)
    exact spelled.shallow
  ranged := by
    rw [inRange_array, all_eq_true]
    intro p mem
    obtain ⟨_, _, spelled⟩ := exists_of_forall₂_mem each (mem_unpadded mem)
    exact spelled.ranged
  value := by
    have values : (unpadded nodes).map (fun p => valueOf p.entry) = nodes.map valueOf := by
      simp only [unpadded, map_map, Function.comp_def]
    rw [valueOf_array, values]
    refine .array ?_
    rw [forall₂_map_right_iff]
    exact each.imp fun _ _ spelled => spelled.value

theorem Spells.object (within : depth ≤ kMaxParseDepth) {members : List (Keyed Node)}
    (strict : entries.Pairwise fun a b => jsonKeyRank a.1 < jsonKeyRank b.1)
    (each : List.Forall₂ (SpellsMember levels (depth + 1)) entries members) :
    Spells (levels + 1) depth (.object entries) (.object [] (unpadded members)) where
  text := by
    have texts := map_eq_of_forall₂ (fun _ _ spelled => spelled.text.symm) each
    rw [text_object, listText_unpadded, appendValue, if_neg (Nat.not_lt.mpr within),
      appendMembers_eq, texts]
  shallow := by
    rw [nesting_object_le]
    intro p mem
    obtain ⟨_, _, spelled⟩ := exists_of_forall₂_mem each (mem_unpadded mem)
    exact spelled.value.shallow
  ranged := by
    rw [inRange_object, all_eq_true]
    intro p mem
    obtain ⟨_, _, spelled⟩ := exists_of_forall₂_mem each (mem_unpadded mem)
    exact spelled.value.ranged
  value := by
    let entries' := members.map fun m => (decode m.key, valueOf m.value)
    have held : (unpadded members).map (fun p => (decode p.entry.key, valueOf p.entry.value)) =
        entries' := by
      simp only [entries', unpadded, map_map, Function.comp_def]
    have keys : entries.map Prod.fst = entries'.map Prod.fst := by
      rw [map_map]
      exact map_eq_of_forall₂ (fun _ _ spelled => spelled.key.symm) each
    -- the keys are the same, so a parse leaves the members in their order
    have strict' : entries'.Pairwise fun a b => jsonKeyRank a.1 < jsonKeyRank b.1 := by
      have ranks : (entries.map Prod.fst).Pairwise fun a b => jsonKeyRank a < jsonKeyRank b :=
        pairwise_map.mpr strict
      rw [keys] at ranks
      exact (pairwise_map (f := Prod.fst) (R := fun a b => jsonKeyRank a < jsonKeyRank b)).mp ranks
    rw [valueOf_object, held, sortAfterParse_eq_self strict']
    refine .object keys ?_
    rw [map_map, forall₂_map_left_iff, forall₂_map_right_iff]
    exact each.imp fun _ _ spelled => spelled.value.value

/-- An integer the parser reads back. -/
theorem Spells.int {n : Int} (low : -2 ^ 63 ≤ n) (high : n < 2 ^ 63)
    (within : depth ≤ kMaxParseDepth) : ∃ node, Spells levels depth (.int n) node := by
  obtain ⟨tok, text, integer, value⟩ := integerText_spells n
  have valued : numberValue tok = some (.int n) := by
    unfold numberValue parseInt64
    rw [if_pos integer, value, if_pos ⟨low, high⟩]
  refine ⟨.scalar (.number tok), ?_, ?_, ?_, ?_⟩
  · rw [text_scalar, Scalar.text, text, appendValue, if_neg (Nat.not_lt.mpr within)]
  · exact Nat.zero_le _
  · rw [inRange_scalar, scalarInRange, not_overflows_of_numberValue valued]
    rfl
  · rw [valueOf_scalar, scalarValue, valued]
    exact .same _

/-- A double by what `std::to_chars` promises of it. -/
theorem Spells.double (finite : isFinite bits = true)
    (inverts : Inverts (ToChars.toChars bits) bits) (within : depth ≤ kMaxParseDepth) :
    ∃ node, Spells levels depth (.double bits) node := by
  obtain ⟨tok, text, nearest, exact⟩ := inverts
  have parsed : parseDouble tok = some bits := by rw [parseDouble, nearest]
  have valued : ∃ v, numberValue tok = some v ∧ ReadBack (.double bits) v := by
    unfold numberValue
    rw [parsed]
    by_cases integer : tok.isInteger = true
    · rw [if_pos integer]
      unfold parseInt64
      split
      next fits =>
        split at fits
        · cases fits
          exact ⟨_, rfl, .whole bits _ (exact integer)⟩
        · cases fits
      · exact ⟨_, rfl, .same _⟩
    · rw [if_neg integer]
      exact ⟨_, rfl, .same _⟩
  obtain ⟨v, valued, readBack⟩ := valued
  refine ⟨.scalar (.number tok), ?_, ?_, ?_, ?_⟩
  · rw [text_scalar, Scalar.text, text, appendValue, if_neg]
    rintro (deep | infinite)
    · exact absurd within (Nat.not_le.mpr deep)
    · exact absurd (finite.symm.trans infinite) (by decide)
  · exact Nat.zero_le _
  · rw [inRange_scalar, scalarInRange, not_overflows_of_numberValue valued]
    rfl
  · rw [valueOf_scalar, scalarValue, valued]
    exact readBack

/-- The serializer writes the value of a node as the text of a node. -/
theorem serialized_text (node : Node) : ∀ levels depth, node.nesting ≤ levels →
    levels + depth ≤ kMaxParseDepth → inRange node = true →
    (∀ bits ∈ doubles (valueOf node), isFinite bits = true) →
    (∀ bits ∈ doubles (valueOf node), Inverts (ToChars.toChars bits) bits) →
    ∃ node', Spells levels depth (valueOf node) node' := by
  induction node using induction with
  | scalar s =>
    intro levels depth _ deep ranged finite inverts
    have within : depth ≤ kMaxParseDepth := (Nat.le_add_left ..).trans deep
    have spelled : ∀ s', s'.text = appendValue (valueOf (.scalar s)) depth →
        inRange (.scalar s') = true → valueOf (.scalar s') = valueOf (.scalar s) →
        ∃ node', Spells levels depth (valueOf (.scalar s)) node' := by
      intro s' text ranged value
      refine ⟨.scalar s', (text_scalar s').trans text, ?_, ranged, ?_⟩
      · exact Nat.zero_le _
      · rw [value]
        exact .same _
    rw [valueOf_scalar] at *
    cases s with
    | null => exact spelled .null (by rfl) rfl (valueOf_scalar _)
    | boolean b =>
      refine spelled (.boolean b) ?_ rfl (valueOf_scalar _)
      rw [scalarValue, appendValue, if_neg (Nat.not_lt.mpr within)]
      rfl
    | string pieces =>
      obtain ⟨pieces', text, value⟩ := appendEscaped_spells (decode pieces)
      refine spelled (.string pieces') ?_ rfl ?_
      · rw [scalarValue, appendValue, if_neg (Nat.not_lt.mpr within)]
        exact text
      · rw [valueOf_scalar, scalarValue, value]
        rfl
    | number tok =>
      cases valued : numberValue tok with
      | none =>
        have some := numberValue_isSome tok
        rw [inRange_scalar, scalarInRange, ← some, valued] at ranged
        cases ranged
      | some v =>
        have same : scalarValue (.number tok) = v := by rw [scalarValue, valued, Option.getD_some]
        rw [same] at finite inverts ⊢
        rcases numberValue_cases valued with ⟨n, rfl, low, high⟩ | ⟨bits, rfl⟩
        · exact Spells.int low high within
        · have held : bits ∈ doubles (.double bits) := by
            exact mem_singleton.mpr rfl
          exact Spells.double (finite bits held) (inverts bits held) within
  | array gap items ih =>
    intro levels depth shallow deep ranged finite inverts
    obtain ⟨deeper, rfl⟩ := Nat.exists_eq_add_one.mpr
      ((nesting_array_pos gap items).trans_le shallow)
    rw [nesting_array_le] at shallow
    rw [inRange_array, all_eq_true] at ranged
    rw [valueOf_array] at finite inverts ⊢
    have each : ∀ v ∈ items.map (fun p => valueOf p.entry),
        ∃ node', Spells deeper (depth + 1) v node' := by
      intro v mem
      have held : ∀ bits ∈ doubles v, bits ∈ doubles (.array _) :=
        fun _ held => mem_doubles_array mem held
      obtain ⟨p, inItems, rfl⟩ := mem_map.mp mem
      exact ih p inItems deeper (depth + 1) (shallow p inItems) (by omega) (ranged p inItems)
        (fun bits mem => finite bits (held bits mem)) fun bits mem => inverts bits (held bits mem)
    obtain ⟨nodes, spelled⟩ := exists_forall₂ each
    exact ⟨_, Spells.array (by omega) spelled⟩
  | object gap members ih =>
    intro levels depth shallow deep ranged finite inverts
    obtain ⟨deeper, rfl⟩ := Nat.exists_eq_add_one.mpr
      ((nesting_object_pos gap members).trans_le shallow)
    rw [nesting_object_le] at shallow
    rw [inRange_object, all_eq_true] at ranged
    rw [valueOf_object] at finite inverts ⊢
    have strict := sortAfterParse_strict
      (members.map fun p => (decode p.entry.key, valueOf p.entry.value))
    have each : ∀ e ∈ sortAfterParse
        (members.map fun p => (decode p.entry.key, valueOf p.entry.value)),
        ∃ m, SpellsMember deeper (depth + 1) e m := by
      intro e mem
      have held : ∀ bits ∈ doubles e.2, bits ∈ doubles (.object _) :=
        fun _ held => mem_doubles_object mem held
      obtain ⟨p, inMembers, rfl⟩ := mem_map.mp (mem_of_mem_sortAfterParse mem)
      obtain ⟨node', spelled⟩ := ih p inMembers deeper (depth + 1) (shallow p inMembers) (by omega)
        (ranged p inMembers) (fun bits mem => finite bits (held bits mem))
        fun bits mem => inverts bits (held bits mem)
      exact spelled.member
    obtain ⟨keyed, spelled⟩ := exists_forall₂ each
    exact ⟨_, Spells.object (by omega) strict spelled⟩

/-- A parsed value is serialized to a text the parser reads back. -/
theorem parseJson_serializeJson {text : Bytes} {v : JsonValue} (parsed : parseJson text = some v)
    (finite : ∀ bits ∈ doubles v, isFinite bits = true)
    (inverts : ∀ bits ∈ doubles v, Inverts (ToChars.toChars bits) bits) :
    ∃ v', parseJson (serializeJson v) = some v' ∧ ReadBack v v' := by
  obtain ⟨d, rfl, shallow⟩ := parseJson_sound parsed
  rw [parseJson_text shallow] at parsed
  split at parsed
  next ranged =>
    cases parsed
    obtain ⟨node', spelled⟩ :=
      serialized_text d.value kMaxParseDepth 0 shallow le_rfl ranged finite inverts
    have read := parseJson_text (d := ⟨[], node', []⟩) spelled.shallow
    have text : Document.text ⟨[], node', []⟩ = serializeJson (valueOf d.value) := by
      simp only [Document.text, blanks_nil, nil_append, append_nil, spelled.text, serializeJson]
    rw [text, if_pos spelled.ranged] at read
    exact ⟨_, read, spelled.value⟩
  · cases parsed

end Texts

/-- The shortest spelling of a half, for any double. -/
@[reducible] def halfToChars : ToChars := ⟨fun _ => [0x30, 0x2E, 0x35]⟩

/-- The values of `[0.5,-7]`, serialized and read back. -/
theorem parseJson_serializeJson_half :
    ∃ v', parseJson (@serializeJson halfToChars
        (.array [.double 0x3FE0000000000000, .int (-7)])) = some v' ∧
      ReadBack (.array [.double 0x3FE0000000000000, .int (-7)]) v' := by
  let half : Number := ⟨false, .zero, some ⟨5, []⟩, none⟩
  let seven : Number := ⟨true, .nonzero 7 (by decide) [], none, none⟩
  let d : Document :=
    ⟨[], .array [] [⟨[], .scalar (.number half), []⟩, ⟨[], .scalar (.number seven), []⟩], []⟩
  have nearest : fromChars half = .value 0x3FE0000000000000 := by decide +kernel
  have halfValue : numberValue half = some (.double 0x3FE0000000000000) := by
    rw [numberValue, if_neg (by decide), parseDouble, nearest]
  have sevenValue : numberValue seven = some (.int (-7)) := by
    have fits : parseInt64 seven = some (-7) := by decide
    rw [numberValue, if_pos (by decide), fits]
  have shallow : d.value.nesting ≤ kMaxParseDepth := by decide
  have ranged : inRange d.value = true := by
    rw [inRange_array]
    simp only [all_cons, all_nil, inRange_scalar, scalarInRange,
      not_overflows_of_numberValue halfValue, not_overflows_of_numberValue sevenValue]
    rfl
  have parsed : parseJson d.text =
      some (.array [.double 0x3FE0000000000000, .int (-7)]) := by
    rw [parseJson_text shallow, if_pos ranged, valueOf_array]
    simp only [map_cons, map_nil, valueOf_scalar, scalarValue, halfValue, sevenValue,
      Option.getD_some]
  have only : ∀ bits ∈ doubles (.array [.double 0x3FE0000000000000, .int (-7)]),
      bits = 0x3FE0000000000000 := fun _ mem => mem_singleton.mp mem
  refine @parseJson_serializeJson halfToChars d.text _ parsed (fun bits mem => ?_)
    fun bits mem => ?_
  · rw [only bits mem]
    decide
  · rw [only bits mem]
    exact ⟨half, rfl, nearest, fun integer => absurd integer (by decide)⟩

end Microide.Util
