/-
Formatting keeps meaning.

Of the members of an object with one key the last in the document wins; which spelled key won
is part of what an object says (`resolved`). The formatter's sort by the spelled keys may put
another member of the key last: it does where a member of the key ranks above the winner.

**Main results.** `resolved_formatted_iff`: where the layout keeps every winner;
`valueOf_resolved`: a value is a function of the winners; `formatJson_keeps_iff`: where
formatting keeps meaning.
-/

import Microide.Util.JsonFormatExact
import Microide.Util.JsonUnambiguous

namespace Microide.Util

open List Lib.Json Lib Node

/-! ### Winners -/

def memberKey {α : Type} (m : Keyed α) : ℕ ×ₗ List ℕ := jsonKeyRank (decode m.key)

/-- The last member of each key, in the order of the keys. -/
def winners {α : Type} (members : List (Keyed α)) : List (Keyed α) :=
  lastOfRuns memberKey (sortBy memberKey members)

/-- A member without its blanks. -/
def bareMember {α β : Type} (f : α → β) (m : Keyed α) : Keyed β := ⟨m.key, [], [], f m.value⟩

/-- A node without its blanks and without the members that lost. -/
def resolved : Node → Node :=
  Node.fold .scalar (fun _ items => .array [] (unpadded (items.map (·.entry))))
    fun _ members => .object [] (unpadded (winners (members.map (bareMember id ·.entry))))

/-- What holds of the winners, of which no member of their key ranks above. -/
def WinnersAbove {α : Type} (holds : Keyed α → Prop) (members : List (Keyed α)) : Prop :=
  ∀ k, ∀ w ∈ lastWith memberKey members k,
    (∀ m ∈ members, memberKey m = k → memberRank m ≤ memberRank w) ∧ holds w

/-- In every object that counts, no member of a key ranks above the last of the key. -/
def KeepsWinners : Node → Prop :=
  Node.fold (fun _ => True) (fun _ items => ∀ p ∈ items, p.entry) fun _ members =>
    WinnersAbove (·.value) (members.map (·.entry))

theorem resolved_scalar (s : Scalar) : resolved (.scalar s) = .scalar s := fold_scalar ..

theorem resolved_array (gap : List Blank) (items : List (Padded Node)) :
    resolved (.array gap items) = .array [] (unpadded (items.map fun p => resolved p.entry)) := by
  unfold resolved
  rw [fold_array, map_map]
  rfl

theorem resolved_object (gap : List Blank) (members : List (Padded (Keyed Node))) :
    resolved (.object gap members) =
      .object [] (unpadded (winners ((members.map (·.entry)).map (bareMember resolved)))) := by
  unfold resolved
  rw [fold_object, map_map, map_map]
  rfl

theorem keepsWinners_scalar (s : Scalar) : KeepsWinners (.scalar s) := by
  exact trivial

theorem keepsWinners_array (gap : List Blank) (items : List (Padded Node)) :
    KeepsWinners (.array gap items) ↔ ∀ p ∈ items, KeepsWinners p.entry := by
  unfold KeepsWinners
  rw [fold_array, forall_mem_map]
  rfl

variable {α : Type}

/-- It is told by the keys alone. -/
theorem winnersAbove_map {β : Type} {holds : Keyed β → Prop} (f : Keyed α → Keyed β)
    (keys : ∀ m, (f m).key = m.key) (members : List (Keyed α)) :
    WinnersAbove holds (members.map f) ↔ WinnersAbove (fun m => holds (f m)) members := by
  have sameKey : ∀ m, memberKey (f m) = memberKey m := fun m => by rw [memberKey, keys]; rfl
  have sameRank : ∀ m, memberRank (f m) = memberRank m := fun m => by rw [memberRank, keys]; rfl
  have last : ∀ k, lastWith memberKey (members.map f) k = (lastWith memberKey members k).map f := by
    intro k
    rw [lastWith_map]
    exact congrArg (fun key => Option.map f (lastWith key members k)) (funext sameKey)
  refine forall_congr' fun k => ?_
  rw [last]
  constructor
  · intro kept w isLast
    obtain ⟨above, value⟩ := kept (f w) (Option.mem_map_of_mem _ isLast)
    refine ⟨fun m mem ofKey => ?_, value⟩
    have below := above (f m) (mem_map_of_mem mem) ((sameKey m).trans ofKey)
    rwa [sameRank, sameRank] at below
  · intro kept w isLast
    obtain ⟨w', isLast', rfl⟩ := Option.mem_map.mp isLast
    obtain ⟨above, value⟩ := kept w' isLast'
    refine ⟨fun m mem ofKey => ?_, value⟩
    obtain ⟨m', mem', rfl⟩ := mem_map.mp mem
    rw [sameRank, sameRank]
    exact above m' mem' ((sameKey m').symm.trans ofKey)

theorem keepsWinners_object (gap : List Blank) (members : List (Padded (Keyed Node))) :
    KeepsWinners (.object gap members) ↔
      WinnersAbove (fun m => KeepsWinners m.value) (members.map (·.entry)) := by
  have entries : (members.map fun p => p.map (·.map KeepsWinners)).map (·.entry) =
      (members.map (·.entry)).map (·.map KeepsWinners) := by
    rw [map_map, map_map]
    rfl
  have unfolded : KeepsWinners (.object gap members) =
      WinnersAbove (·.value) ((members.map fun p =>
        p.map (·.map KeepsWinners)).map (·.entry)) := fold_object ..
  rw [unfolded, entries, winnersAbove_map (·.map KeepsWinners) fun _ => rfl]
  rfl

/-! ### The value of the winners -/

theorem map_entry_unpadded (l : List α) : (unpadded l).map (·.entry) = l := by
  rw [unpadded, map_map]
  exact map_id l

theorem unpadded_inj {l l' : List α} : unpadded l = unpadded l' ↔ l = l' := by
  refine ⟨fun same => ?_, congrArg unpadded⟩
  rw [← map_entry_unpadded l, same, map_entry_unpadded]

/-- A member as the parser holds it. -/
def heldEntry (m : Keyed Node) : Bytes × JsonValue := (decode m.key, valueOf m.value)

theorem valueOf_resolved (node : Node) : valueOf (resolved node) = valueOf node := by
  induction node using induction with
  | scalar s => rw [resolved_scalar]
  | array gap items ih =>
    have values : (items.map fun p => valueOf (resolved p.entry)) =
        items.map fun p => valueOf p.entry := map_congr_left ih
    have entries : ∀ l : List Node, (unpadded l).map (fun p => valueOf p.entry) = l.map valueOf :=
      fun l => by rw [unpadded, map_map]; rfl
    rw [resolved_array, valueOf_array, valueOf_array, entries, map_map, ← values]
    rfl
  | object gap members ih =>
    have entries : ∀ l : List (Keyed Node),
        (unpadded l).map (fun p => (decode p.entry.key, valueOf p.entry.value)) =
          l.map heldEntry := fun l => by rw [unpadded, map_map]; rfl
    rw [resolved_object, valueOf_object, valueOf_object, entries]
    refine congrArg JsonValue.object (lastOfRuns_sortBy_congr _ fun k => ?_)
    let kept := (members.map (·.entry)).map (bareMember resolved)
    have last := lastWith_lastOfRuns_sortBy memberKey kept k
    calc lastWith (jsonKeyRank ·.1) ((winners kept).map heldEntry) k
        = (lastWith memberKey (winners kept) k).map heldEntry := lastWith_map ..
      _ = (lastWith memberKey kept k).map heldEntry := congrArg (Option.map heldEntry) last
      _ = lastWith (jsonKeyRank ·.1) (kept.map heldEntry) k :=
        (lastWith_map (fun e : Bytes × JsonValue => jsonKeyRank e.1) heldEntry kept k).symm
      _ = _ := by
        have same : kept.map heldEntry =
            members.map fun p => (decode p.entry.key, valueOf p.entry.value) := by
          rw [map_map, map_map]
          exact map_congr_left fun p mem => congrArg (Prod.mk _) (ih p mem)
        rw [same]

theorem all_laid (inner outer : List Blank) (f : α → Bool) (l : List α) :
    ((laid inner outer l).all fun p => f p.entry) = l.all f := by
  have mapped := all_map (f := fun p : Padded α => p.entry) (l := laid inner outer l) (p := f)
  rw [map_entry_laid] at mapped
  exact mapped.symm

theorem all_congr_mem {l : List α} {p q : α → Bool} (same : ∀ a ∈ l, p a = q a) :
    l.all p = l.all q := by
  rw [Bool.eq_iff_iff, all_eq_true, all_eq_true]
  exact forall₂_congr fun a mem => by rw [same a mem]

/-- A winner no member of its key ranks above is last after the sort. -/
theorem lastWith_laid (layout : Node → Node) {members : List (Keyed Node)} {k : ℕ ×ₗ List ℕ}
    {w : Keyed Node} (isLast : lastWith memberKey members k = some w)
    (above : ∀ m ∈ members, memberKey m = k → memberRank m ≤ memberRank w) :
    lastWith memberKey (sortBy memberRank
      (members.map fun m => spaced m.key (layout m.value))) k =
        some (spaced w.key (layout w.value)) := by
  refine lastWith_sortBy_of_above memberKey memberRank ?_ ?_
  · have mapped := lastWith_map memberKey (fun m => spaced m.key (layout m.value)) members k
    rw [mapped]
    change Option.map _ (lastWith memberKey members k) = _
    rw [isLast]
    rfl
  · intro m mem ofKey
    obtain ⟨m', mem', rfl⟩ := mem_map.mp mem
    exact above m' mem' ofKey

section Layout

variable (unit : List Blank)

theorem inRange_formatted (node : Node) : ∀ level,
    inRange (formatted unit node level) = inRange node := by
  induction node using induction with
  | scalar s =>
    intro level
    rw [formatted_scalar]
  | array gap items ih =>
    intro level
    rw [formatted_array, inRange_array, inRange_array, all_laid, all_map]
    exact all_congr_mem fun p mem => ih p mem (level + 1)
  | object gap members ih =>
    intro level
    rw [formatted_object, inRange_object, inRange_object,
      all_laid _ _ (fun m : Keyed Node => inRange m.value), (perm_sortBy _ _).all_eq, all_map]
    exact all_congr_mem fun p mem => ih p mem (level + 1)

/-- The members of an object as they are laid out, and what counts of them. -/
theorem resolved_formatted_object (gap : List Blank) (members : List (Padded (Keyed Node)))
    (level : Nat) : resolved (formatted unit (.object gap members) level) =
      .object [] (unpadded (winners ((sortBy memberRank (members.map fun p =>
        spaced p.entry.key (formatted unit p.entry.value (level + 1)))).map
          (bareMember resolved)))) := by
  rw [formatted_object, resolved_object, map_entry_laid]

theorem laid_member_iff (members : List (Keyed Node)) (level : Nat)
    (ih : ∀ m ∈ members,
      resolved (formatted unit m.value (level + 1)) = resolved m.value ↔ KeepsWinners m.value) :
    winners ((sortBy memberRank (members.map fun m =>
        spaced m.key (formatted unit m.value (level + 1)))).map (bareMember resolved)) =
      winners (members.map (bareMember resolved)) ↔
      WinnersAbove (fun m => KeepsWinners m.value) members := by
  let lay := fun m : Keyed Node => spaced m.key (formatted unit m.value (level + 1))
  have lastBare : ∀ (l : List (Keyed Node)) k, lastWith memberKey (l.map (bareMember resolved)) k =
      (lastWith memberKey l k).map (bareMember resolved) := fun l k => lastWith_map ..
  constructor
  · intro same k w isLast
    obtain ⟨inMembers, ofKey⟩ := lastWith_mem memberKey isLast
    have lasts := congrArg (lastWith memberKey · k) same
    rw [winners, winners, lastWith_lastOfRuns_sortBy, lastWith_lastOfRuns_sortBy, lastBare, lastBare,
      isLast] at lasts
    obtain ⟨f, lastSorted, bareSame⟩ := Option.map_eq_some_iff.mp lasts
    obtain ⟨keys, values⟩ : f.key = w.key ∧ resolved f.value = resolved w.value := by
      have parts := Keyed.mk.inj bareSame
      exact ⟨parts.1, parts.2.2.2⟩
    have above : ∀ m ∈ members, memberKey m = k → memberRank m ≤ memberRank w := by
      intro m mem ofKey
      have below := rank_le_of_lastWith_sortBy memberKey memberRank lastSorted
        (mem_map_of_mem (f := lay) mem) ofKey
      have ranks : memberRank f = memberRank w := congrArg (fun key => naturalRank (spelling key)) keys
      exact below.trans_eq ranks
    rw [lastWith_laid (formatted unit · (level + 1)) isLast above] at lastSorted
    cases lastSorted
    exact ⟨above, (ih w inMembers).mp values⟩
  · intro kept
    refine lastOfRuns_sortBy_congr memberKey fun k => ?_
    rw [lastBare, lastBare]
    cases isLast : lastWith memberKey members k with
    | some w =>
      obtain ⟨above, value⟩ := kept k w isLast
      obtain ⟨inMembers, -⟩ := lastWith_mem memberKey isLast
      rw [lastWith_laid (formatted unit · (level + 1)) isLast above]
      exact congrArg (fun v => some (⟨w.key, [], [], v⟩ : Keyed Node)) ((ih w inMembers).mpr value)
    | none =>
      have gone : lastWith memberKey (sortBy memberRank (members.map lay)) k = none := by
        refine lastWith_eq_none memberKey fun m mem ofKey => ?_
        obtain ⟨m', mem', rfl⟩ := mem_map.mp ((mem_sortBy memberRank).mp mem)
        obtain ⟨w, isLast'⟩ := lastWith_isSome memberKey mem'
        change memberKey m' = k at ofKey
        rw [ofKey, isLast] at isLast'
        cases isLast'
      rw [gone]

/-- The layout keeps every winner exactly where no member of a key ranks above it. -/
theorem resolved_formatted_iff (node : Node) : ∀ level,
    resolved (formatted unit node level) = resolved node ↔ KeepsWinners node := by
  induction node using induction with
  | scalar s =>
    intro level
    exact iff_of_true rfl (keepsWinners_scalar s)
  | array gap items ih =>
    intro level
    have entries : ((laid (lineBreak unit (level + 1)) (lineBreak unit level)
        (items.map fun p => formatted unit p.entry (level + 1))).map fun p => resolved p.entry) =
        items.map fun p => resolved (formatted unit p.entry (level + 1)) := by
      have mapped := congrArg (List.map resolved) (map_entry_laid (lineBreak unit (level + 1))
        (lineBreak unit level) (items.map fun p => formatted unit p.entry (level + 1)))
      rw [map_map, map_map] at mapped
      exact mapped
    rw [formatted_array, resolved_array, resolved_array, keepsWinners_array, entries,
      array.injEq, unpadded_inj, map_inj_left]
    simp only [true_and]
    exact forall₂_congr fun p mem => ih p mem (level + 1)
  | object gap members ih =>
    intro level
    have each : ∀ m ∈ members.map (·.entry),
        resolved (formatted unit m.value (level + 1)) = resolved m.value ↔
          KeepsWinners m.value := by
      intro m mem
      obtain ⟨p, inMembers, rfl⟩ := mem_map.mp mem
      exact ih p inMembers (level + 1)
    have iff := laid_member_iff unit (members.map (·.entry)) level each
    rw [map_map] at iff
    rw [resolved_formatted_object, resolved_object, keepsWinners_object, ← iff, object.injEq,
      unpadded_inj]
    simp only [true_and]
    rfl

end Layout

/-! ### Texts -/

theorem resolved_bare (node : Node) : resolved (bare node) = resolved node := by
  induction node using induction with
  | scalar s => rw [bare_scalar]
  | array gap items ih =>
    have entries : (unpadded (items.map fun p => bare p.entry)).map (fun p => resolved p.entry) =
        items.map fun p => resolved p.entry := by
      rw [unpadded, map_map, map_map]
      exact map_congr_left ih
    rw [bare_array, resolved_array, resolved_array, entries]
  | object gap members ih =>
    have entries : (members.map fun p =>
        (⟨p.entry.key, [], [], bare p.entry.value⟩ : Keyed Node)).map (bareMember resolved) =
        (members.map (·.entry)).map (bareMember resolved) := by
      rw [map_map, map_map]
      exact map_congr_left fun p mem =>
        congrArg (fun v => (⟨p.entry.key, [], [], v⟩ : Keyed Node)) (ih p mem)
    rw [bare_object, resolved_object, resolved_object, map_entry_unpadded, entries]

theorem keepsWinners_bare (node : Node) : KeepsWinners (bare node) ↔ KeepsWinners node := by
  induction node using induction with
  | scalar s => rw [bare_scalar]
  | array gap items ih =>
    rw [bare_array, keepsWinners_array, keepsWinners_array]
    constructor
    · intro kept p mem
      exact (ih p mem).mp (kept _ (mem_map_of_mem (mem_map_of_mem mem)))
    · intro kept q mem
      obtain ⟨p, inItems, same⟩ := mem_map.mp (mem_unpadded mem)
      rw [← same]
      exact (ih p inItems).mpr (kept p inItems)
  | object gap members ih =>
    have entries : (members.map fun p =>
        (⟨p.entry.key, [], [], bare p.entry.value⟩ : Keyed Node)) =
        (members.map (·.entry)).map (bareMember bare) := by
      rw [map_map]
      rfl
    rw [bare_object, keepsWinners_object, keepsWinners_object, map_entry_unpadded, entries,
      winnersAbove_map (bareMember bare) fun _ => rfl]
    refine forall_congr' fun k => forall₂_congr fun w isLast => and_congr_right fun _ => ?_
    obtain ⟨p, mem, rfl⟩ := mem_map.mp (lastWith_mem memberKey isLast).1
    exact ih p mem

/-- Formatting with `unit` keeps what the text means: it succeeds, the text it writes parses to
the same value, with the same winner for every key of every object that counts, and is written
as it is when it is formatted again. -/
def KeepsMeaning (text : Bytes) (unit : List Blank) : Prop :=
  ∃ out, formatJson (blanks unit) text = { ok := true, text := out } ∧
    parseJson out = parseJson text ∧
    (∀ d d' : Document, d.text = text → d'.text = out → resolved d'.value = resolved d.value) ∧
    formatJson (blanks unit) out = { ok := true, text := out }

/-- Formatting keeps the meaning of a text exactly where no member ranks above the winner of
its key. -/
theorem formatJson_keeps_iff {text : Bytes} {v : JsonValue} (parsed : parseJson text = some v)
    (unit : List Blank) :
    KeepsMeaning text unit ↔ ∀ d : Document, d.text = text → KeepsWinners d.value := by
  obtain ⟨d, rfl, shallow⟩ := parseJson_sound parsed
  have written := formatJson_text unit shallow
  let d' : Document := ⟨[], formatted unit d.value 0, []⟩
  have text' : d'.text = (formatted unit d.value 0).text := by
    simp only [d', Document.text, blanks_nil, nil_append, append_nil]
  have shallow' : d'.value.nesting ≤ kMaxDepth := nesting_formatted unit d.value 0 _ shallow
  have again := formatJson_text unit shallow'
  have values := parseJson_text shallow'
  rw [parseJson_text shallow] at parsed
  rw [text'] at again values
  have stays : formatted unit d'.value 0 = formatted unit d.value 0 := formatted_formatted unit ..
  have ranges : inRange d'.value = inRange d.value := inRange_formatted unit ..
  rw [stays] at again
  have winnersKept := resolved_formatted_iff unit d.value 0
  constructor
  · rintro ⟨out, formats, -, same, -⟩ e spelled
    rw [written] at formats
    obtain rfl : (formatted unit d.value 0).text = out := congrArg JsonFormatResult.text formats
    rw [← keepsWinners_bare, document_unique spelled, keepsWinners_bare]
    exact winnersKept.mp (same d d' rfl text')
  · intro kept
    have same := winnersKept.mpr (kept d rfl)
    refine ⟨_, written, ?_, ?_, again⟩
    · rw [values, ranges, parseJson_text shallow, ← valueOf_resolved d.value, ← same,
        valueOf_resolved]
    · intro e e' spelled spelled'
      rw [← resolved_bare e.value, document_unique spelled, resolved_bare,
        ← resolved_bare e'.value, document_unique (spelled'.trans text'.symm), resolved_bare]
      exact same

/-- `{"b":1,"a":2}`. -/
def twoMembers : Bytes :=
  [0x7B, 0x22, 0x62, 0x22, 0x3A, 0x31, 0x2C, 0x22, 0x61, 0x22, 0x3A, 0x32, 0x7D]

theorem formatJson_keeps_iff_twoMembers :
    KeepsMeaning twoMembers [.tab] ↔ ∀ d : Document, d.text = twoMembers → KeepsWinners d.value :=
  formatJson_keeps_iff (v := .object [([0x61], .int 2), ([0x62], .int 1)]) rfl [.tab]

/-- `{"a":1,"\u0061":2}`: one key spelled twice, the second time by its escape. -/
def escapedTwice : Bytes :=
  [0x7B, 0x22, 0x61, 0x22, 0x3A, 0x31, 0x2C] ++
    [0x22, 0x5C, 0x75, 0x30, 0x30, 0x36, 0x31, 0x22, 0x3A, 0x32, 0x7D]

/-- The escaped spelling sorts before the plain one, so the member that came first wins in the
formatted text. -/
theorem formatJson_changes_winner :
    ¬ ∀ text v unit, parseJson text = some v → KeepsMeaning text unit := by
  intro keeps
  obtain ⟨out, formats, values, -⟩ := keeps escapedTwice (.object [([0x61], .int 2)]) [.space] rfl
  have written : formatJson (blanks [.space]) escapedTwice =
      { ok := true, text := [0x7B, 0x0A, 0x20] ++
          [0x22, 0x5C, 0x75, 0x30, 0x30, 0x36, 0x31, 0x22, 0x3A, 0x20, 0x32, 0x2C] ++
            [0x0A, 0x20, 0x22, 0x61, 0x22, 0x3A, 0x20, 0x31, 0x0A, 0x7D] } := by
    decide +kernel
  rw [written] at formats
  obtain rfl := congrArg JsonFormatResult.text formats
  have before : parseJson escapedTwice = some (.object [([0x61], .int 2)]) := rfl
  have after : parseJson (JsonFormatResult.text
      { ok := true, text := [0x7B, 0x0A, 0x20] ++
          [0x22, 0x5C, 0x75, 0x30, 0x30, 0x36, 0x31, 0x22, 0x3A, 0x20, 0x32, 0x2C] ++
            [0x0A, 0x20, 0x22, 0x61, 0x22, 0x3A, 0x20, 0x31, 0x0A, 0x7D] }) =
      some (.object [([0x61], .int 1)]) := rfl
  rw [before, after] at values
  simp at values

end Microide.Util
