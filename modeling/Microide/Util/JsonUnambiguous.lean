/-
A text has one derivation.

Two nodes with the same text are the same but for where their blanks are kept (`bare`): a
value's first byte tells its kind, and each part of a text ends where only it can.

**Main results.** `bare_unique`: of two nodes and what follows them; `document_unique`: of
two JSON texts.
-/

import Microide.Util.JsonSerialize

namespace Microide.Util

open List Lib.Json Node HexDigit HeadIs Ends

/-- A node without its blanks. -/
def bare : Node → Node :=
  Node.fold .scalar (fun _ items => .array [] (unpadded (items.map (·.entry))))
    fun _ members => .object [] (unpadded (members.map fun p =>
      ⟨p.entry.key, [], [], p.entry.value⟩))

theorem bare_scalar (s : Scalar) : bare (.scalar s) = .scalar s := fold_scalar ..

theorem bare_array (gap : List Blank) (items : List (Padded Node)) :
    bare (.array gap items) = .array [] (unpadded (items.map fun p => bare p.entry)) := by
  unfold bare
  rw [fold_array, map_map]
  rfl

theorem bare_object (gap : List Blank) (members : List (Padded (Keyed Node))) :
    bare (.object gap members) =
      .object [] (unpadded (members.map fun p => ⟨p.entry.key, [], [], bare p.entry.value⟩)) := by
  unfold bare
  rw [fold_object, map_map]
  rfl

/-! ### Strings -/

theorem digitByte_injective : Function.Injective digitByte := by decide

theorem hexDigit_byte_inj {d d' : HexDigit} (same : d.byte = d'.byte) : d = d' := by
  have decimalLower : ∀ (d : Fin 10) (d' : Fin 6),
      (decimal d).byte ≠ (lower d').byte := by decide
  have decimalUpper : ∀ (d : Fin 10) (d' : Fin 6),
      (decimal d).byte ≠ (upper d').byte := by decide
  have lowerUpper : ∀ d d' : Fin 6, (lower d).byte ≠ (upper d').byte := by decide
  have lower : ∀ d d' : Fin 6, (lower d).byte = (lower d').byte → d = d' := by
    decide
  have upper : ∀ d d' : Fin 6, (upper d).byte = (upper d').byte → d = d' := by
    decide
  cases d with
  | decimal d =>
    cases d' with
    | decimal d' => exact congrArg _ (digitByte_injective same)
    | lower d' => exact absurd same (decimalLower d d')
    | upper d' => exact absurd same (decimalUpper d d')
  | lower d =>
    cases d' with
    | decimal d' => exact absurd same.symm (decimalLower d' d)
    | lower d' => exact congrArg _ (lower d d' same)
    | upper d' => exact absurd same (lowerUpper d d')
  | upper d =>
    cases d' with
    | decimal d' => exact absurd same.symm (decimalUpper d' d)
    | lower d' => exact absurd same.symm (lowerUpper d' d)
    | upper d' => exact congrArg _ (upper d d' same)

theorem escape_byte_inj {e e' : Escape} (same : e.byte = e'.byte) : e = e' := by
  cases e <;> cases e' <;> first | rfl | exact absurd same (by decide)

theorem spelling_unique (pieces : List Piece) : ∀ (pieces' : List Piece) (r r' : Bytes),
    spelling pieces ++ quote :: r = spelling pieces' ++ quote :: r' → pieces = pieces' ∧ r = r' := by
  induction pieces with
  | nil =>
    intro pieces' r r' same
    cases pieces' with
    | nil => exact ⟨rfl, (List.cons.inj same).2⟩
    | cons piece pieces' =>
      cases piece with
      | plain b ordinary => exact absurd (List.cons.inj same).1.symm (ordinary_iff.mp ordinary).2.1
      | escape e => exact absurd (List.cons.inj same).1 (by decide)
      | unicode => exact absurd (List.cons.inj same).1 (by decide)
  | cons piece pieces ih =>
    intro pieces' r r' same
    cases pieces' with
    | nil =>
      cases piece with
      | plain b ordinary => exact absurd (List.cons.inj same).1 (ordinary_iff.mp ordinary).2.1
      | escape e => exact absurd (List.cons.inj same).1 (by decide)
      | unicode => exact absurd (List.cons.inj same).1 (by decide)
    | cons piece' pieces' =>
      have step : piece = piece' ∧
          spelling pieces ++ quote :: r = spelling pieces' ++ quote :: r' := by
        cases piece with
        | plain b ordinary =>
          cases piece' with
          | plain b' ordinary' =>
            obtain ⟨rfl, rest⟩ := List.cons.inj same
            exact ⟨rfl, rest⟩
          | escape => exact absurd (List.cons.inj same).1 (ordinary_iff.mp ordinary).2.2
          | unicode => exact absurd (List.cons.inj same).1 (ordinary_iff.mp ordinary).2.2
        | escape e =>
          cases piece' with
          | plain b ordinary =>
            exact absurd (List.cons.inj same).1.symm (ordinary_iff.mp ordinary).2.2
          | escape e' =>
            obtain ⟨letters, rest⟩ := List.cons.inj (List.cons.inj same).2
            exact ⟨congrArg _ (escape_byte_inj letters), rest⟩
          | unicode =>
            exact absurd (List.cons.inj (List.cons.inj same).2).1 (escape_byte_ne e)
        | unicode d₁ d₂ d₃ d₄ =>
          cases piece' with
          | plain b ordinary =>
            exact absurd (List.cons.inj same).1.symm (ordinary_iff.mp ordinary).2.2
          | escape e =>
            exact absurd (List.cons.inj (List.cons.inj same).2).1.symm (escape_byte_ne e)
          | unicode e₁ e₂ e₃ e₄ =>
            obtain ⟨first, more⟩ := List.cons.inj (List.cons.inj (List.cons.inj same).2).2
            obtain ⟨second, more⟩ := List.cons.inj more
            obtain ⟨third, more⟩ := List.cons.inj more
            obtain ⟨fourth, rest⟩ := List.cons.inj more
            rw [hexDigit_byte_inj first, hexDigit_byte_inj second, hexDigit_byte_inj third,
              hexDigit_byte_inj fourth]
            exact ⟨rfl, rest⟩
      obtain ⟨rfl, rest⟩ := step
      obtain ⟨rfl, after⟩ := ih pieces' r r' rest
      exact ⟨rfl, after⟩

theorem stringText_unique {pieces pieces' : List Piece} {r r' : Bytes}
    (same : stringText pieces ++ r = stringText pieces' ++ r') : pieces = pieces' ∧ r = r' := by
  unfold stringText at same
  rw [cons_append, cons_append, append_assoc, append_assoc] at same
  exact spelling_unique pieces pieces' r r' (List.cons.inj same).2

theorem number_unique {n n' : Number} {r r' : Bytes} (ends : Ends r) (ends' : Ends r')
    (same : n.text ++ r = n'.text ++ r') : n = n' ∧ r = r' := by
  have read := takeNumber_text n r ends
  rw [same, takeNumber_text n' r' ends'] at read
  obtain ⟨number, rest⟩ := Prod.mk.inj (Option.some.inj read)
  exact ⟨number.symm, rest.symm⟩

/-! ### Kinds -/

/-- The kind of value a byte begins. -/
def kindOf (c : UInt8) : Nat :=
  if c = 0x6E then 0
  else if c = 0x74 then 1
  else if c = 0x66 then 2
  else if c = quote then 3
  else if c = 0x5B then 4
  else if c = 0x7B then 5
  else 6

def nodeKind : Node → Nat
  | .scalar .null => 0
  | .scalar (.boolean true) => 1
  | .scalar (.boolean false) => 2
  | .scalar (.string _) => 3
  | .array _ _ => 4
  | .object _ _ => 5
  | .scalar (.number _) => 6

theorem node_kind (node : Node) : ∃ c more, node.text = c :: more ∧ kindOf c = nodeKind node := by
  cases node with
  | array gap items => exact ⟨_, _, text_array gap items, rfl⟩
  | object gap members => exact ⟨_, _, text_object gap members, rfl⟩
  | scalar s =>
    cases s with
    | null => exact ⟨_, _, rfl, rfl⟩
    | boolean b => cases b <;> exact ⟨_, _, rfl, rfl⟩
    | string pieces => exact ⟨_, _, rfl, rfl⟩
    | number n =>
      obtain ⟨c, more, text, begins⟩ := number_head n
      refine ⟨c, more, text, ?_⟩
      have apart := fun other not => ne_of_beginsNumber (c := other) not begins
      simp only [kindOf, apart 0x6E (by decide), apart 0x74 (by decide), apart 0x66 (by decide),
        apart quote (by decide), apart 0x5B (by decide), apart 0x7B (by decide), ↓reduceIte,
        nodeKind]

theorem nodeKind_eq {node node' : Node} {r r' : Bytes} (same : node.text ++ r = node'.text ++ r') :
    nodeKind node = nodeKind node' := by
  obtain ⟨c, more, text, kind⟩ := node_kind node
  obtain ⟨c', more', text', kind'⟩ := node_kind node'
  rw [text, text'] at same
  obtain ⟨first, -⟩ := List.cons.inj same
  rw [← kind, ← kind', first]

theorem nodeKind_scalar (s : Scalar) : nodeKind (.scalar s) ≠ 4 ∧ nodeKind (.scalar s) ≠ 5 := by
  cases s with
  | boolean b => cases b <;> decide
  | _ => constructor <;> exact Nat.ne_of_beq_eq_false rfl

theorem scalar_unique {s s' : Scalar} {r r' : Bytes} (ends : Ends r) (ends' : Ends r')
    (kinds : nodeKind (.scalar s) = nodeKind (.scalar s')) (same : s.text ++ r = s'.text ++ r') :
    s = s' ∧ r = r' := by
  have literal : ∀ {token : Bytes}, token ++ r = token ++ r' → r = r' := append_cancel_left
  cases s with
  | null =>
    cases s' with
    | null => exact ⟨rfl, literal same⟩
    | boolean b => cases b <;> exact absurd kinds (by decide)
    | _ => exact absurd kinds (Nat.ne_of_beq_eq_false rfl)
  | boolean b =>
    cases s' with
    | boolean b' =>
      cases b <;> cases b' <;> first | exact absurd kinds (by decide) | exact ⟨rfl, literal same⟩
    | null => cases b <;> exact absurd kinds (by decide)
    | _ => cases b <;> exact absurd kinds (Nat.ne_of_beq_eq_false rfl)
  | number n =>
    cases s' with
    | number n' =>
      obtain ⟨rfl, rest⟩ := number_unique ends ends' same
      exact ⟨rfl, rest⟩
    | boolean b => cases b <;> exact absurd kinds (Nat.ne_of_beq_eq_false rfl)
    | _ => exact absurd kinds (Nat.ne_of_beq_eq_false rfl)
  | string pieces =>
    cases s' with
    | string pieces' =>
      obtain ⟨rfl, rest⟩ := stringText_unique same
      exact ⟨rfl, rest⟩
    | boolean b => cases b <;> exact absurd kinds (Nat.ne_of_beq_eq_false rfl)
    | _ => exact absurd kinds (Nat.ne_of_beq_eq_false rfl)

/-! ### Lists -/

/-- Blanks before what is no blank. -/
theorem blanks_unique {gap gap' : List Blank} {c c' : UInt8} {rest rest' : Bytes}
    (inked : isBlank c = false) (inked' : isBlank c' = false)
    (same : blanks gap ++ c :: rest = blanks gap' ++ c' :: rest') : c = c' ∧ rest = rest' := by
  have skipped := congrArg skipWhitespace same
  rw [skipWhitespace_blanks, skipWhitespace_blanks, skipWhitespace_cons inked,
    skipWhitespace_cons inked'] at skipped
  exact List.cons.inj skipped

section Lists

variable {α γ : Type} {text : α → Bytes} {g : α → γ} {close : UInt8}

/-- A text of `a`, whatever ends it, is the text of no other. -/
def Unique (text : α → Bytes) (g : α → γ) (a : α) : Prop :=
  ∀ (a' : α) (gap gap' : List Blank) (r r' : Bytes), Ends r → Ends r' →
    blanks gap ++ (text a ++ r) = blanks gap' ++ (text a' ++ r') → g a = g a' ∧ r = r'

/-- The entries after the first. -/
theorem entries_unique (closes : closesList close) (more : List (Padded α)) :
    ∀ (more' : List (Padded α)) (p p' : Padded α) (r r' : Bytes),
    (∀ q ∈ p :: more, Unique text g q.entry) →
    p.text text ++ (more.flatMap (fun q => comma :: q.text text) ++ close :: r) =
      p'.text text ++ (more'.flatMap (fun q => comma :: q.text text) ++ close :: r') →
    (p :: more).map (g ·.entry) = (p' :: more').map (g ·.entry) ∧ r = r' := by
  have splits : ∀ (p : Padded α) (c : UInt8) (rest : Bytes), p.text text ++ c :: rest =
      blanks p.before ++ (text p.entry ++ (blanks p.after ++ c :: rest)) := by
    intro p c rest
    simp only [Padded.text, append_assoc]
  have endsComma : endsValue comma := .inr (.inl rfl)
  induction more with
  | nil =>
    intro more' p p' r r' unique same
    cases more' with
    | nil =>
      rw [flatMap_nil, nil_append, nil_append, splits, splits] at same
      obtain ⟨entry, rest⟩ := unique p (mem_cons_self ..) _ _ _ _ _
        (blanks (cons closes.endsValue) _)
        (blanks (cons closes.endsValue) _) same
      exact ⟨by simp only [map_cons, entry],
        (blanks_unique closes.inked closes.inked rest).2⟩
    | cons q' more' =>
      rw [flatMap_nil, nil_append, flatMap_cons, cons_append, cons_append, splits, splits] at same
      obtain ⟨-, rest⟩ := unique p (mem_cons_self ..) _ _ _ _ _
        (blanks (cons closes.endsValue) _)
        (blanks (cons endsComma) _) same
      exact absurd (blanks_unique closes.inked rfl rest).1 closes.ne_comma.symm
  | cons q more ih =>
    intro more' p p' r r' unique same
    cases more' with
    | nil =>
      rw [flatMap_nil, nil_append, flatMap_cons, cons_append, cons_append, splits, splits] at same
      obtain ⟨-, rest⟩ := unique p (mem_cons_self ..) _ _ _ _ _
        (blanks (cons endsComma) _)
        (blanks (cons closes.endsValue) _) same
      exact absurd (blanks_unique rfl closes.inked rest).1 closes.ne_comma
    | cons q' more' =>
      rw [flatMap_cons, cons_append, cons_append, flatMap_cons,
        cons_append, cons_append, splits, splits] at same
      obtain ⟨entry, rest⟩ := unique p (mem_cons_self ..) _ _ _ _ _
        (blanks (cons endsComma) _) (blanks (cons endsComma) _) same
      have after := (blanks_unique rfl rfl rest).2
      rw [append_assoc, append_assoc] at after
      obtain ⟨entries, beyond⟩ := ih more' q q' r r'
        (fun q mem => unique q (mem_cons_of_mem _ mem)) after
      exact ⟨by rw [map_cons, entry, entries, map_cons (a := p')], beyond⟩

theorem listText_unique (closes : closesList close) {gap gap' : List Blank}
    {entries entries' : List (Padded α)} {r r' : Bytes}
    (opens : ∀ a, ∃ c more, text a = c :: more ∧ isBlank c = false ∧ c ≠ close)
    (unique : ∀ p ∈ entries, Unique text g p.entry)
    (same : listText text gap entries ++ close :: r = listText text gap' entries' ++ close :: r') :
    entries.map (g ·.entry) = entries'.map (g ·.entry) ∧ r = r' := by
  -- an empty list closes where another has an entry
  have apart : ∀ (gap : List Blank) (p : Padded α) (more : List (Padded α)) (r r' : Bytes),
      blanks gap ++ close :: r ≠
        p.text text ++ (more.flatMap fun q => comma :: q.text text) ++ close :: r' := by
    intro gap p more r r' same
    obtain ⟨c, letters, spelled, inked, other⟩ := opens p.entry
    simp only [Padded.text, spelled, append_assoc] at same
    exact other (blanks_unique closes.inked inked same).1.symm
  cases entries with
  | nil =>
    cases entries' with
    | nil => exact ⟨rfl, (blanks_unique closes.inked closes.inked same).2⟩
    | cons p' more' => exact absurd same (apart gap p' more' r r')
  | cons p more =>
    cases entries' with
    | nil => exact absurd same.symm (apart gap' p more r' r)
    | cons p' more' =>
      rw [listText, listText, append_assoc, append_assoc] at same
      exact entries_unique closes more more' p p' r r' unique same

end Lists

theorem member_unique {m : Keyed Node} (unique : Unique text bare m.value) :
    Unique (Keyed.text text) (fun m => (⟨m.key, [], [], bare m.value⟩ : Keyed Node)) m := by
  intro m' gap gap' r r' ends ends' same
  have atKey : ∀ m : Keyed Node, skipWhitespace (m.text text ++ r) = m.text text ++ r :=
    fun m => skipWhitespace_cons rfl _
  have atKey' : skipWhitespace (m'.text text ++ r') = m'.text text ++ r' :=
    skipWhitespace_cons rfl _
  have skipped := congrArg skipWhitespace same
  rw [skipWhitespace_blanks, skipWhitespace_blanks, atKey, atKey'] at skipped
  simp only [Keyed.text, append_assoc, cons_append] at skipped
  obtain ⟨keys, afterKey⟩ := stringText_unique skipped
  have afterColon := (blanks_unique rfl rfl afterKey).2
  obtain ⟨values, rest⟩ := unique m'.value _ _ r r' ends ends' afterColon
  refine ⟨?_, rest⟩
  dsimp only
  rw [keys, values]

/-- A text has one node, but for its blanks. -/
theorem bare_unique (node : Node) : Unique text bare node := by
  have skip : ∀ {node node' : Node} {gap gap' : List Blank} {r r' : Bytes},
      blanks gap ++ (node.text ++ r) = blanks gap' ++ (node'.text ++ r') →
      node.text ++ r = node'.text ++ r' := by
    intro node node' gap gap' r r' same
    obtain ⟨c, more, text, inked, -⟩ := node_head node
    obtain ⟨c', more', text', inked', -⟩ := node_head node'
    rw [text, text', cons_append, cons_append] at same ⊢
    obtain ⟨rfl, rest⟩ := blanks_unique inked inked' same
    rw [rest]
  induction node using induction with
  | scalar s =>
    intro node' gap gap' r r' ends ends' padded
    have same := skip padded
    have kinds := nodeKind_eq same
    cases node' with
    | scalar s' =>
      obtain ⟨rfl, rest⟩ := scalar_unique ends ends' kinds same
      exact ⟨rfl, rest⟩
    | array gap' items' => exact absurd kinds (nodeKind_scalar s).1
    | object gap' members' => exact absurd kinds (nodeKind_scalar s).2
  | array inner items ih =>
    intro node' gap gap' r r' ends ends' padded
    have same := skip padded
    have kinds := nodeKind_eq same
    cases node' with
    | scalar s' => exact absurd kinds.symm (nodeKind_scalar s').1
    | array inner' items' =>
      rw [text_array, text_array, cons_append, cons_append, append_assoc,
        append_assoc, singleton_append, singleton_append] at same
      obtain ⟨entries, rest⟩ := listText_unique (.inl rfl)
        (fun node => by
          obtain ⟨c, more, text, inked, other, -⟩ := node_head node
          exact ⟨c, more, text, inked, other⟩) ih (List.cons.inj same).2
      exact ⟨by rw [bare_array, bare_array, entries], rest⟩
    | object => exact absurd kinds (Nat.ne_of_beq_eq_false rfl)
  | object inner members ih =>
    intro node' gap gap' r r' ends ends' padded
    have same := skip padded
    have kinds := nodeKind_eq same
    cases node' with
    | scalar s' => exact absurd kinds.symm (nodeKind_scalar s').2
    | array => exact absurd kinds (Nat.ne_of_beq_eq_false rfl)
    | object inner' members' =>
      rw [text_object, text_object, cons_append, cons_append,
        append_assoc, append_assoc, singleton_append,
        singleton_append] at same
      have opens : ∀ m : Keyed Node, ∃ c more,
          m.text text = c :: more ∧ isBlank c = false ∧ c ≠ 0x7D :=
        fun m => ⟨quote, _, rfl, rfl, by decide⟩
      obtain ⟨entries, rest⟩ := listText_unique (.inr rfl) opens
        (fun p mem => member_unique (ih p mem)) (List.cons.inj same).2
      exact ⟨by rw [bare_object, bare_object, entries], rest⟩

/-- A JSON text has one value node, but for its blanks. -/
theorem document_unique {d d' : Document} (same : d.text = d'.text) :
    bare d.value = bare d'.value := by
  have ends : ∀ gap, Ends (blanks gap) := by
    intro gap
    have none := blanks (nil endsValue) gap
    rwa [append_nil] at none
  exact (bare_unique d.value d'.value _ _ _ _ (ends _) (ends _) same).1

end Microide.Util
