/-
The human order of names.

`NaturalCompareIgnoreCase` walks two names together: two runs of digits are compared as
numbers, and by their leading zeros where the numbers are equal, other bytes without regard to
case. It is the lexicographic order of the names cut into tokens, a run of digits or another
byte each.

**Main results.** `naturalCompare_neg_iff`: the comparison is the order of `naturalRank`;
`naturalRank_eq_iff`: names of one rank differ in case only; `naturalCompare_total_preorder`.
-/

import Mathlib.Data.List.Lex
import Mathlib.Data.List.TakeWhile
import Mathlib.Data.Prod.Lex
import Mathlib.Order.Nat

namespace Microide.Util

open List UInt8

abbrev isDigitByte (c : UInt8) : Bool := 0x30 ≤ c && c ≤ 0x39

def lowerByte (c : UInt8) : UInt8 := if 0x41 ≤ c ∧ c ≤ 0x5A then c + 0x20 else c

/-- The leading zeros of a run of digits, and what follows them. -/
def zerosOf (name : List UInt8) : Nat := (name.takeWhile (· == 0x30)).length

def afterZeros (name : List UInt8) : List UInt8 := name.dropWhile (· == 0x30)

/-- The run's other digits, and what follows the run. -/
def digitsOf (name : List UInt8) : List UInt8 := (afterZeros name).takeWhile isDigitByte

def afterRun (name : List UInt8) : List UInt8 := (afterZeros name).dropWhile isDigitByte

/-- The loop of `NaturalCompareIgnoreCase`. -/
def compareFrom : Nat → List UInt8 → List UInt8 → Int
  | 0, _, _ => 0
  | _ + 1, [], [] => 0
  | _ + 1, _ :: _, [] => 1
  | _ + 1, [], _ :: _ => -1
  | steps + 1, a :: as, b :: bs =>
    if isDigitByte a ∧ isDigitByte b then
      let digitsA := digitsOf (a :: as)
      let digitsB := digitsOf (b :: bs)
      if digitsA.length ≠ digitsB.length then
        if digitsA.length < digitsB.length then -1 else 1
      else if digitsA ≠ digitsB then
        if digitsA < digitsB then -1 else 1
      else if zerosOf (a :: as) ≠ zerosOf (b :: bs) then
        if zerosOf (a :: as) < zerosOf (b :: bs) then -1 else 1
      else compareFrom steps (afterRun (a :: as)) (afterRun (b :: bs))
    else if lowerByte a ≠ lowerByte b then
      if lowerByte a < lowerByte b then -1 else 1
    else compareFrom steps as bs

/-- `NaturalCompareIgnoreCase`: a round of the loop takes a byte at least. -/
def naturalCompareIgnoreCase (a b : List UInt8) : Int := compareFrom (a.length + 1) a b

/-! ### The order of the tokens -/

/-- A run of digits, by its length, its digits and its zeros, or another byte. -/
abbrev NaturalToken := ℕ ×ₗ ℕ ×ₗ List ℕ ×ₗ ℕ

def runToken (name : List UInt8) : NaturalToken :=
  toLex (0x30, toLex ((digitsOf name).length,
    toLex ((digitsOf name).map UInt8.toNat, zerosOf name)))

def byteToken (c : UInt8) : NaturalToken :=
  toLex ((lowerByte c).toNat, toLex (0, toLex ([], 0)))

/-- The tokens of a name, `steps` of them at most. -/
def naturalTokens : Nat → List UInt8 → List NaturalToken
  | 0, _ => []
  | _ + 1, [] => []
  | steps + 1, c :: name =>
    if isDigitByte c then runToken (c :: name) :: naturalTokens steps (afterRun (c :: name))
    else byteToken c :: naturalTokens steps name

def naturalRank (name : List UInt8) : List NaturalToken := naturalTokens name.length name

variable {c : UInt8}

theorem length_afterRun_le (name : List UInt8) (digit : isDigitByte c = true) :
    (afterRun (c :: name)).length ≤ name.length := by
  unfold afterRun afterZeros
  rw [dropWhile_cons]
  split
  · exact ((dropWhile_sublist _).length_le).trans (dropWhile_sublist _).length_le
  · rw [dropWhile_cons_of_pos digit]
    exact (dropWhile_sublist _).length_le

theorem map_toNat_lt_iff (a b : List UInt8) : a.map toNat < b.map toNat ↔ a < b := by
  induction a generalizing b with
  | nil => cases b <;> simp
  | cons x a ih =>
    cases b with
    | nil => simp
    | cons y b =>
      rw [map_cons, map_cons, cons_lt_cons_iff, cons_lt_cons_iff, ih,
        UInt8.toNat_inj, lt_iff_toNat_lt]

theorem map_toNat_inj {a b : List UInt8} : a.map toNat = b.map toNat ↔ a = b :=
  (map_injective_iff.mpr fun _ _ => UInt8.toNat_inj.mp).eq_iff

/-- How two runs of digits compare. -/
theorem runToken_lt_iff (a b : List UInt8) : runToken a < runToken b ↔
      (digitsOf a).length < (digitsOf b).length ∨
        (digitsOf a).length = (digitsOf b).length ∧
          (digitsOf a < digitsOf b ∨ digitsOf a = digitsOf b ∧ zerosOf a < zerosOf b) := by
  unfold runToken
  simp only [Prod.Lex.toLex_lt_toLex, lt_irrefl, true_and, false_or, map_toNat_lt_iff,
    map_toNat_inj]

theorem runToken_eq_iff (a b : List UInt8) : runToken a = runToken b ↔
      (digitsOf a).length = (digitsOf b).length ∧ digitsOf a = digitsOf b ∧
        zerosOf a = zerosOf b := by
  unfold runToken
  simp only [EmbeddingLike.apply_eq_iff_eq, Prod.mk.injEq, true_and, map_toNat_inj]

theorem byteToken_lt_iff (a b : UInt8) : byteToken a < byteToken b ↔ lowerByte a < lowerByte b := by
  unfold byteToken
  simp only [Prod.Lex.toLex_lt_toLex, lt_irrefl, and_false, or_false, lt_iff_toNat_lt]

theorem byteToken_eq_iff (a b : UInt8) : byteToken a = byteToken b ↔ lowerByte a = lowerByte b := by
  unfold byteToken
  simp only [EmbeddingLike.apply_eq_iff_eq, Prod.mk.injEq, and_true, UInt8.toNat_inj]

theorem digit_range (digit : isDigitByte c = true) : 0x30 ≤ c.toNat ∧ c.toNat ≤ 0x39 := by
  rw [Bool.and_eq_true, decide_eq_true_eq, decide_eq_true_eq, le_iff_toNat_le,
    le_iff_toNat_le] at digit
  exact digit

theorem lowerByte_digit (digit : isDigitByte c = true) : lowerByte c = c := by
  have range := digit_range digit
  unfold lowerByte
  rw [if_neg]
  rintro ⟨capital, -⟩
  rw [le_iff_toNat_le] at capital
  have low : (0x41 : UInt8).toNat = 65 := rfl
  omega

/-- A byte that is no digit sorts before all digits or after them. -/
theorem lowerByte_other (other : isDigitByte c = false) :
    (lowerByte c).toNat < 0x30 ∨ 0x39 < (lowerByte c).toNat := by
  rw [Bool.and_eq_false_iff, decide_eq_false_iff_not, decide_eq_false_iff_not,
    le_iff_toNat_le, le_iff_toNat_le] at other
  have zero : (0x30 : UInt8).toNat = 48 := rfl
  have nine : (0x39 : UInt8).toNat = 57 := rfl
  unfold lowerByte
  split
  next capital =>
    have low : 65 ≤ c.toNat := le_iff_toNat_le.mp capital.1
    have high : c.toNat ≤ 90 := le_iff_toNat_le.mp capital.2
    rw [UInt8.toNat_add]
    have shift : (0x20 : UInt8).toNat = 32 := rfl
    omega
  · omega

theorem runToken_byteToken {a b : UInt8} (digit : isDigitByte a = true)
    (other : isDigitByte b = false) (name : List UInt8) :
    (runToken (a :: name) < byteToken b ↔ lowerByte a < lowerByte b) ∧
      (byteToken b < runToken (a :: name) ↔ lowerByte b < lowerByte a) ∧
        lowerByte a ≠ lowerByte b ∧ runToken (a :: name) ≠ byteToken b := by
  have range := digit_range digit
  have apart := lowerByte_other other
  have same := lowerByte_digit digit
  refine ⟨?_, ?_, ?_, ?_⟩
  · unfold runToken byteToken
    rw [Prod.Lex.toLex_lt_toLex, lt_iff_toNat_lt, same]
    omega
  · unfold runToken byteToken
    rw [Prod.Lex.toLex_lt_toLex, lt_iff_toNat_lt, same]
    omega
  · rw [same]
    intro equal
    rw [← equal] at apart
    omega
  · intro equal
    have first : 0x30 = (lowerByte b).toNat := congrArg (fun t => (ofLex t).1) equal
    omega

theorem sign_neg_iff {p : Prop} [Decidable p] : (if p then (-1 : Int) else 1) < 0 ↔ p := by
  split <;> simp_all

/-- One round of the loop compares the first tokens. -/
theorem compareFrom_neg_iff (steps : Nat) : ∀ (m k : Nat) (a b : List UInt8), a.length < steps →
    a.length ≤ m → b.length ≤ k →
    (compareFrom steps a b < 0 ↔ naturalTokens m a < naturalTokens k b) := by
  induction steps with
  | zero => exact fun _ _ _ _ short => absurd short (Nat.not_lt_zero _)
  | succ steps ih =>
    intro m k a b short roomA roomB
    have none : ∀ n, naturalTokens n [] = [] := fun n => by cases n <;> rfl
    cases a with
    | nil =>
      cases b with
      | nil => simp [compareFrom, none]
      | cons b bs =>
        obtain ⟨k, rfl⟩ := Nat.exists_eq_add_one.mpr (Nat.lt_of_lt_of_le (Nat.succ_pos _) roomB)
        rw [none, naturalTokens]
        split <;> simp [compareFrom]
    | cons a as =>
      obtain ⟨m, rfl⟩ := Nat.exists_eq_add_one.mpr (Nat.lt_of_lt_of_le (Nat.succ_pos _) roomA)
      cases b with
      | nil => simp [compareFrom, none]
      | cons b bs =>
        obtain ⟨k, rfl⟩ := Nat.exists_eq_add_one.mpr (Nat.lt_of_lt_of_le (Nat.succ_pos _) roomB)
        rw [length_cons] at short roomA roomB
        rw [compareFrom, naturalTokens, naturalTokens]
        cases digitA : isDigitByte a with
        | true =>
          cases digitB : isDigitByte b with
          | true =>
            have lengthA := length_afterRun_le as digitA
            have lengthB := length_afterRun_le bs digitB
            have rest := ih m k (afterRun (a :: as)) (afterRun (b :: bs)) (by omega) (by omega)
              (by omega)
            have order := runToken_lt_iff (a :: as) (b :: bs)
            have equal := runToken_eq_iff (a :: as) (b :: bs)
            simp only [↓reduceIte, and_self]
            rw [cons_lt_cons_iff, order, equal, ← rest]
            by_cases lengths : (digitsOf (a :: as)).length = (digitsOf (b :: bs)).length
            · rw [if_neg (not_not.mpr lengths)]
              by_cases digits : digitsOf (a :: as) = digitsOf (b :: bs)
              · rw [if_neg (not_not.mpr digits)]
                by_cases zeros : zerosOf (a :: as) = zerosOf (b :: bs)
                · simp [digits, zeros]
                · rw [if_pos zeros, sign_neg_iff]
                  simp [digits, zeros]
              · rw [if_pos digits, sign_neg_iff]
                simp [lengths, digits]
            · rw [if_pos lengths, sign_neg_iff]
              simp [lengths]
          | false =>
            obtain ⟨less, -, apart, tokens⟩ := runToken_byteToken digitA digitB as
            simp only [↓reduceIte, Bool.false_eq_true, and_false]
            rw [cons_lt_cons_iff, less, if_pos apart, sign_neg_iff]
            simp [tokens]
        | false =>
          cases digitB : isDigitByte b with
          | true =>
            obtain ⟨-, less, apart, tokens⟩ := runToken_byteToken digitB digitA bs
            simp only [↓reduceIte, Bool.false_eq_true, false_and]
            rw [cons_lt_cons_iff, less, if_pos apart.symm, sign_neg_iff]
            simp [tokens.symm]
          | false =>
            have rest := ih m k as bs (by omega) (by omega) (by omega)
            simp only [↓reduceIte, Bool.false_eq_true, and_self]
            rw [cons_lt_cons_iff, byteToken_lt_iff, byteToken_eq_iff, ← rest]
            by_cases same : lowerByte a = lowerByte b
            · simp [same]
            · rw [if_pos same, sign_neg_iff]
              simp [same]

/-- The comparison is the order of the ranks. -/
theorem naturalCompare_neg_iff (a b : List UInt8) :
    naturalCompareIgnoreCase a b < 0 ↔ naturalRank a < naturalRank b :=
  compareFrom_neg_iff _ _ _ a b (Nat.lt_succ_self _) le_rfl le_rfl

/-! ### The names of a token list -/

theorem isDigitByte_lowerByte (c : UInt8) : isDigitByte (lowerByte c) = isDigitByte c := by
  cases digit : isDigitByte c with
  | true => rw [lowerByte_digit digit, digit]
  | false =>
    refine Bool.eq_false_iff.mpr fun lowered => ?_
    have range := digit_range lowered
    have apart := lowerByte_other digit
    omega

theorem lowerByte_lowerByte (c : UInt8) : lowerByte (lowerByte c) = lowerByte c := by
  by_cases capital : 0x41 ≤ c ∧ c ≤ 0x5A
  · have low : 65 ≤ c.toNat := le_iff_toNat_le.mp capital.1
    have high : c.toNat ≤ 90 := le_iff_toNat_le.mp capital.2
    have shift : (0x20 : UInt8).toNat = 32 := rfl
    have bound : (0x5A : UInt8).toNat = 90 := rfl
    have lowered : lowerByte c = c + 0x20 := if_pos capital
    rw [lowered]
    refine if_neg ?_
    rintro ⟨-, above⟩
    rw [le_iff_toNat_le, UInt8.toNat_add] at above
    omega
  · have kept : lowerByte c = c := if_neg capital
    rw [kept, kept]

theorem lowerByte_eq_zero_iff (c : UInt8) : lowerByte c = 0x30 ↔ c = 0x30 := by
  constructor
  · intro zero
    have digit : isDigitByte c = true := by rw [← isDigitByte_lowerByte, zero]; rfl
    rwa [lowerByte_digit digit] at zero
  · rintro rfl
    rfl

section

variable (name : List UInt8)

include name

theorem zerosOf_map_lower : zerosOf (name.map lowerByte) = zerosOf name := by
  unfold zerosOf
  rw [takeWhile_map, length_map]
  congr 2
  funext c
  exact Bool.eq_iff_iff.mpr (by simp [lowerByte_eq_zero_iff])

theorem afterZeros_map_lower :
    afterZeros (name.map lowerByte) = (afterZeros name).map lowerByte := by
  unfold afterZeros
  rw [dropWhile_map]
  congr 2
  funext c
  exact Bool.eq_iff_iff.mpr (by simp [lowerByte_eq_zero_iff])

theorem digitsOf_lowered : (digitsOf name).map lowerByte = digitsOf name :=
  (map_congr_left fun _ mem => lowerByte_digit (mem_takeWhile_imp mem)).trans
    (map_id _)

theorem digitsOf_map_lower : digitsOf (name.map lowerByte) = digitsOf name := by
  rw [← digitsOf_lowered name]
  unfold digitsOf
  rw [afterZeros_map_lower, takeWhile_map]
  congr 2
  exact funext isDigitByte_lowerByte

theorem afterRun_map_lower : afterRun (name.map lowerByte) = (afterRun name).map lowerByte := by
  unfold afterRun
  rw [afterZeros_map_lower, dropWhile_map]
  congr 2
  exact funext isDigitByte_lowerByte

end

/-- A name has the tokens of its lower case. -/
theorem naturalTokens_map_lower (steps : Nat) (name : List UInt8) :
    naturalTokens steps (name.map lowerByte) = naturalTokens steps name := by
  induction steps generalizing name with
  | zero => rfl
  | succ steps ih =>
    cases name with
    | nil => rfl
    | cons c name =>
      have token : runToken ((c :: name).map lowerByte) = runToken (c :: name) := by
        unfold runToken
        rw [digitsOf_map_lower, zerosOf_map_lower]
      have other : byteToken (lowerByte c) = byteToken c :=
        (byteToken_eq_iff _ _).mpr (lowerByte_lowerByte c)
      rw [map_cons] at token ⊢
      rw [naturalTokens, naturalTokens, isDigitByte_lowerByte, token, other, ih,
        ← map_cons, afterRun_map_lower, ih]

/-- The bytes of a token, in lower case. -/
def NaturalToken.spelled (token : NaturalToken) : List ℕ :=
  let first := (ofLex token).1
  let digits := (ofLex (ofLex (ofLex token).2).2).1
  let zeros := (ofLex (ofLex (ofLex token).2).2).2
  if digits = [] ∧ zeros = 0 then [first] else List.replicate zeros 0x30 ++ digits

/-- The bytes of a name, in lower case. -/
def lowered (name : List UInt8) : List ℕ := name.map fun c => (lowerByte c).toNat

theorem lowered_inj {a b : List UInt8} :
    lowered a = lowered b ↔ a.map lowerByte = b.map lowerByte := by
  rw [← map_toNat_inj, map_map, map_map]
  rfl

/-- A run is its zeros, its other digits and what follows. -/
theorem zeros_digits_afterRun (name : List UInt8) :
    List.replicate (zerosOf name) 0x30 ++ (digitsOf name ++ afterRun name) = name := by
  have zeros : List.replicate (zerosOf name) 0x30 = name.takeWhile (· == 0x30) :=
    (eq_replicate_iff.mpr
      ⟨rfl, fun c mem => eq_of_beq (mem_takeWhile_imp (p := (· == 0x30)) mem)⟩).symm
  rw [zeros, digitsOf, afterRun, takeWhile_append_dropWhile]
  exact takeWhile_append_dropWhile

theorem run_nonempty {name : List UInt8} (digit : isDigitByte c = true) :
    ¬ (digitsOf (c :: name) = [] ∧ zerosOf (c :: name) = 0) := by
  rintro ⟨digits, zeros⟩
  have whole := zeros_digits_afterRun (c :: name)
  rw [digits, zeros] at whole
  have same : (afterRun (c :: name)).length = (c :: name).length := congrArg List.length whole
  have short := length_afterRun_le name digit
  rw [length_cons] at same
  omega

theorem spelled_runToken {name : List UInt8} (digit : isDigitByte c = true) :
    (runToken (c :: name)).spelled ++ lowered (afterRun (c :: name)) = lowered (c :: name) := by
  have some_ : ¬ ((digitsOf (c :: name)).map toNat = [] ∧ zerosOf (c :: name) = 0) := by
    rw [map_eq_nil_iff]
    exact run_nonempty digit
  have spelled : (runToken (c :: name)).spelled =
      List.replicate (zerosOf (c :: name)) 0x30 ++ (digitsOf (c :: name)).map toNat :=
    if_neg some_
  have digits : lowered (digitsOf (c :: name)) = (digitsOf (c :: name)).map toNat :=
    map_congr_left fun d mem => by rw [lowerByte_digit (mem_takeWhile_imp mem)]
  conv_rhs => rw [← zeros_digits_afterRun (c :: name)]
  rw [spelled, ← digits]
  simp only [lowered, map_append, map_replicate, append_assoc]
  rfl

/-- The tokens of a name spell its lower case. -/
theorem naturalTokens_spelled (steps : Nat) : ∀ name : List UInt8, name.length ≤ steps →
    (naturalTokens steps name).flatMap NaturalToken.spelled = lowered name := by
  induction steps with
  | zero =>
    intro name short
    rw [length_eq_zero_iff.mp (Nat.le_zero.mp short)]
    rfl
  | succ steps ih =>
    intro name short
    cases name with
    | nil => rfl
    | cons c name =>
      rw [length_cons] at short
      rw [naturalTokens]
      cases digit : isDigitByte c with
      | true =>
        have less := length_afterRun_le name digit
        rw [if_pos rfl, flatMap_cons, ih _ (by omega), spelled_runToken digit]
      | false =>
        rw [if_neg Bool.false_ne_true, flatMap_cons, ih name (by omega)]
        rfl

/-- Names of one rank differ in the case of their letters only. -/
theorem naturalRank_eq_iff (a b : List UInt8) :
    naturalRank a = naturalRank b ↔ a.map lowerByte = b.map lowerByte := by
  constructor
  · intro same
    rw [← lowered_inj, ← naturalTokens_spelled a.length a le_rfl,
      ← naturalTokens_spelled b.length b le_rfl]
    exact congrArg (List.flatMap NaturalToken.spelled) same
  · intro same
    have lengths : a.length = b.length := by
      rw [← length_map lowerByte, same, length_map]
    unfold naturalRank
    rw [← naturalTokens_map_lower, same, lengths, naturalTokens_map_lower]

/-! ### A total preorder -/

theorem sign_swap {p q : Prop} [Decidable p] [Decidable q] (flips : q ↔ ¬p) :
    (if q then (-1 : Int) else 1) = -if p then -1 else 1 := by
  by_cases holds : p
  · rw [if_pos holds, if_neg (mt flips.mp (not_not.mpr holds))]
    rfl
  · rw [if_neg holds, if_pos (flips.mpr holds)]

/-- Names the other way round compare the other way round. -/
theorem compareFrom_swap (steps : Nat) :
    ∀ a b : List UInt8, compareFrom steps b a = -compareFrom steps a b := by
  induction steps with
  | zero => exact fun _ _ => rfl
  | succ steps ih =>
    intro a b
    cases a with
    | nil => cases b <;> rfl
    | cons a as =>
      cases b with
      | nil => rfl
      | cons b bs =>
        rw [compareFrom, compareFrom]
        by_cases run : isDigitByte a ∧ isDigitByte b
        · rw [if_pos run, if_pos run.symm]
          by_cases lengths : (digitsOf (a :: as)).length = (digitsOf (b :: bs)).length
          · rw [if_neg (not_not.mpr lengths), if_neg (not_not.mpr lengths.symm)]
            by_cases digits : digitsOf (a :: as) = digitsOf (b :: bs)
            · rw [if_neg (not_not.mpr digits), if_neg (not_not.mpr digits.symm)]
              by_cases zeros : zerosOf (a :: as) = zerosOf (b :: bs)
              · rw [if_neg (not_not.mpr zeros), if_neg (not_not.mpr zeros.symm), ih]
              · rw [if_pos zeros, if_pos (Ne.symm zeros)]
                refine sign_swap ?_
                omega
            · rw [if_pos digits, if_pos (Ne.symm digits)]
              refine sign_swap ?_
              rw [← map_toNat_lt_iff, ← map_toNat_lt_iff, not_lt, lt_iff_le_and_ne, and_iff_left]
              exact fun same => digits (map_toNat_inj.mp same).symm
          · rw [if_pos lengths, if_pos (Ne.symm lengths)]
            refine sign_swap ?_
            omega
        · rw [if_neg run, if_neg (mt And.symm run)]
          by_cases same : lowerByte a = lowerByte b
          · rw [if_neg (not_not.mpr same), if_neg (not_not.mpr same.symm), ih]
          · rw [if_pos same, if_pos (Ne.symm same)]
            refine sign_swap ?_
            rw [← UInt8.toNat_inj] at same
            rw [lt_iff_toNat_lt, lt_iff_toNat_lt]
            omega

/-- A round takes a byte of each name, so the rounds of either length are enough. -/
theorem compareFrom_enough (steps : Nat) : ∀ (more : Nat) (a b : List UInt8),
    min a.length b.length < steps → min a.length b.length < more →
    compareFrom steps a b = compareFrom more a b := by
  induction steps with
  | zero => exact fun _ _ _ short => absurd short (Nat.not_lt_zero _)
  | succ steps ih =>
    intro more a b short enough
    obtain ⟨more, rfl⟩ := Nat.exists_eq_add_one.mpr (Nat.zero_lt_of_lt enough)
    cases a with
    | nil => cases b <;> rfl
    | cons a as =>
      cases b with
      | nil => rfl
      | cons b bs =>
        rw [length_cons, length_cons] at short enough
        rw [compareFrom, compareFrom, ih more as bs (by omega) (by omega)]
        by_cases digits : isDigitByte a ∧ isDigitByte b
        · have lengthA := length_afterRun_le as digits.1
          have lengthB := length_afterRun_le bs digits.2
          rw [if_pos digits, if_pos digits,
            ih more (afterRun (a :: as)) (afterRun (b :: bs)) (by omega) (by omega)]
        · rw [if_neg digits, if_neg digits]

theorem naturalCompare_swap (a b : List UInt8) :
    naturalCompareIgnoreCase b a = -naturalCompareIgnoreCase a b := by
  unfold naturalCompareIgnoreCase
  rw [compareFrom_swap, compareFrom_enough (b.length + 1) (a.length + 1) a b (by omega) (by omega)]

theorem naturalCompare_nonpos_iff (a b : List UInt8) :
    naturalCompareIgnoreCase a b ≤ 0 ↔ naturalRank a ≤ naturalRank b := by
  have swapped := naturalCompare_swap a b
  rw [← not_lt, ← not_lt, ← naturalCompare_neg_iff]
  omega

/-- The comparison is a total preorder, and its ties are the names that differ in case. -/
theorem naturalCompare_total_preorder :
    (∀ a b, (naturalCompareIgnoreCase b a).sign = -(naturalCompareIgnoreCase a b).sign) ∧
    (∀ a b c, naturalCompareIgnoreCase a b ≤ 0 → naturalCompareIgnoreCase b c ≤ 0 →
      naturalCompareIgnoreCase a c ≤ 0) ∧
    ∀ a b, naturalCompareIgnoreCase a b = 0 ↔ a.map lowerByte = b.map lowerByte := by
  refine ⟨fun a b => ?_, fun a b c => ?_, fun a b => ?_⟩
  · rw [naturalCompare_swap a b, Int.sign_neg]
  · rw [naturalCompare_nonpos_iff, naturalCompare_nonpos_iff, naturalCompare_nonpos_iff]
    exact le_trans
  · have swapped := naturalCompare_swap a b
    have same : naturalRank a = naturalRank b ↔ naturalRank a ≤ naturalRank b ∧
        naturalRank b ≤ naturalRank a := le_antisymm_iff
    rw [← naturalRank_eq_iff, same, ← naturalCompare_nonpos_iff, ← naturalCompare_nonpos_iff]
    omega

theorem naturalCompare_total_preorder_names :
    naturalCompareIgnoreCase [0x61, 0x32] [0x41, 0x31, 0x30] ≤ 0 ∧
      naturalCompareIgnoreCase [0x41, 0x31, 0x30] [0x62] ≤ 0 ∧
      naturalCompareIgnoreCase [0x61, 0x32] [0x62] ≤ 0 :=
  ⟨by decide, by decide,
    naturalCompare_total_preorder.2.1 [0x61, 0x32] [0x41, 0x31, 0x30] [0x62] (by decide) (by decide)⟩

end Microide.Util
