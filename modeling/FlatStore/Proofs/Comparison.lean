import FlatStore.Proofs.Interval
import FlatStore.Scalar
import Mathlib.Data.Prod.Lex
import Mathlib.Data.String.Basic

/-!
The order of scalars. Floats are compared by the words of their numbers. This is the order of the numbers themselves
(`Finite64.value_lt_iff`), with the infinities outside of them and what is not a number above all
(`Binary64.less_iff`). Scalars that are the same differ in the sign of a zero at most (`Scalar.same_iff`), so that
they can be told apart without comparing them.

All orders here are those of a key, and what is sorted by a key has one order (`mergeSort_eq_of_perm`).
-/
namespace FlatStore

/-! ### Sorting by a key -/

section
variable {α κ : Type} [LinearOrder κ] {le : α → α → Bool} {key : α → κ} {first second : List α}

theorem pairwise_mergeSort_of_key (keys : ∀ a b, le a b = true ↔ key a ≤ key b) (given : List α) :
    (given.mergeSort le).Pairwise fun a b => key a ≤ key b := by
  have sorted : (given.mergeSort le).Pairwise fun a b => le a b = true := by
    refine List.pairwise_mergeSort (fun a b c first second => ?_) (fun a b => ?_) given
    · rw [keys] at first second ⊢
      exact first.trans second
    · rw [Bool.or_eq_true, keys, keys]
      exact le_total _ _
  exact sorted.imp (keys _ _).1

/-- Sorting by a key does not see the order in which it is given, unless two that differ have the same key. -/
theorem mergeSort_eq_of_perm (keys : ∀ a b, le a b = true ↔ key a ≤ key b) (perm : first.Perm second)
    (keyed : ∀ a ∈ first, ∀ b ∈ first, key a = key b → a = b) : first.mergeSort le = second.mergeSort le := by
  have sorted := List.mergeSort_perm first le
  have sorted' := List.mergeSort_perm second le
  refine (sorted.trans (perm.trans sorted'.symm)).eq_of_pairwise (fun a b mem mem' most least => ?_)
    (pairwise_mergeSort_of_key keys first) (pairwise_mergeSort_of_key keys second)
  exact keyed a (sorted.mem_iff.1 mem) b (perm.mem_iff.2 (sorted'.mem_iff.1 mem')) (le_antisymm most least)

end

/-! ### Finite numbers -/

namespace Finite64

variable {x y : Finite64}

/-- The size of a number. -/
def magnitude (x : Finite64) : ℚ := x.significand * x.step

def value (x : Finite64) : ℚ := if x.negative then -x.magnitude else x.magnitude

/-- The number with the sign of a zero dropped. -/
def plain (x : Finite64) : Finite64 := if x.word = 0 then zero else x

theorem magnitude_congr (same : x.word = y.word) : x.magnitude = y.magnitude := by
  unfold magnitude step significand scale
  rw [same]

theorem magnitude_nonneg (x : Finite64) : 0 ≤ x.magnitude :=
  mul_nonneg (Nat.cast_nonneg _) x.step_pos.le

theorem magnitude_eq_zero_iff : x.magnitude = 0 ↔ x.word = 0 := by
  have none : x.significand = 0 ↔ x.word = 0 := by
    unfold significand wordsPerExponent
    split <;> omega
  rw [magnitude, mul_eq_zero, Nat.cast_eq_zero, none, or_iff_left x.step_pos.ne']

theorem magnitude_lt_of_word_lt (less : x.word < y.word) : x.magnitude < y.magnitude := by
  by_cases zero : x.word = 0
  · have some : y.magnitude ≠ 0 := by
      rw [Ne, magnitude_eq_zero_iff]
      omega
    rw [magnitude_eq_zero_iff.2 zero]
    exact lt_of_le_of_ne y.magnitude_nonneg some.symm
  · have first : x.Rounds x.magnitude := rounds_magnitude zero
    have second : y.Rounds y.magnitude := rounds_magnitude (by omega)
    have below : x.magnitude ≤ y.magnitude := by
      linarith [first.between.2, (upper_le_lower less).1, second.between.1]
    refine lt_of_le_of_ne below ?_
    -- a value rounds to one number at most
    intro equal
    rw [← equal] at second
    exact less.ne (word_eq_of_rounds first second)

theorem magnitude_lt_iff : x.magnitude < y.magnitude ↔ x.word < y.word := by
  refine ⟨fun less => ?_, magnitude_lt_of_word_lt⟩
  rcases Nat.lt_trichotomy x.word y.word with below | same | above
  · exact below
  · exact absurd (magnitude_congr same) less.ne
  · exact absurd (magnitude_lt_of_word_lt above) less.not_gt

theorem value_lt_iff : x.value < y.value ↔ x.orderKey < y.orderKey := by
  have first := x.magnitude_nonneg
  have second := y.magnitude_nonneg
  unfold value orderKey
  cases x.negative <;> cases y.negative <;> simp only [Bool.false_eq_true, if_false, if_true]
  case false.false => rw [magnitude_lt_iff, Int.ofNat_lt]
  case true.true => rw [neg_lt_neg_iff, magnitude_lt_iff, neg_lt_neg_iff, Int.ofNat_lt]
  case false.true =>
    constructor
    · intro less
      linarith
    · intro less
      omega
  case true.false =>
    -- the one is below the other, unless both are zero
    constructor
    · intro less
      by_contra zeros
      rw [magnitude_eq_zero_iff.2 (show x.word = 0 by omega), magnitude_eq_zero_iff.2 (show y.word = 0 by omega)] at less
      simp at less
    · intro less
      by_contra zeros
      have none : x.word = 0 := magnitude_eq_zero_iff.1 (by linarith)
      have none' : y.word = 0 := magnitude_eq_zero_iff.1 (by linarith)
      omega

theorem value_eq_iff : x.value = y.value ↔ x.orderKey = y.orderKey := by
  rw [eq_iff_le_not_lt, ← not_lt, value_lt_iff, value_lt_iff]
  omega

theorem orderKey_eq_zero_iff : x.orderKey = 0 ↔ x.word = 0 := by
  unfold orderKey
  split <;> omega

theorem eq_of_orderKey (some : x.word ≠ 0) (same : x.orderKey = y.orderKey) : x = y := by
  obtain ⟨sign, word, bounded⟩ := x
  obtain ⟨sign', word', bounded'⟩ := y
  simp only [orderKey] at same some
  have words : word = word' := by
    split at same <;> split at same <;> omega
  subst words
  have signs : sign = sign' := by
    cases sign <;> cases sign' <;> simp at same ⊢ <;> omega
  rw [signs]

/-- Only the sign of a zero is not seen in the number. -/
theorem plain_eq_iff : x.plain = y.plain ↔ x.value = y.value := by
  rw [value_eq_iff]
  by_cases none : x.word = 0
  · rw [plain, if_pos none, orderKey_eq_zero_iff.2 none, eq_comm (a := (0 : Int)), orderKey_eq_zero_iff, plain]
    split
    · next none' => exact iff_of_true rfl none'
    · next some' => exact iff_of_false (fun same => some' (same ▸ rfl)) some'
  · rw [plain, if_neg none, plain]
    split
    · next none' =>
      rw [orderKey_eq_zero_iff.2 none', orderKey_eq_zero_iff]
      exact iff_of_false (fun same => none (same ▸ rfl)) none
    · exact ⟨congrArg orderKey, eq_of_orderKey none⟩

end Finite64

/-! ### Floats -/

namespace Binary64

variable {x y : Binary64}

/-- The order of floats: the finite ones by their numbers, the infinities outside of them, and what is not a number
above them all. -/
inductive Less : Binary64 → Binary64 → Prop
  | finite {x y : Finite64} : x.value < y.value → Less (.finite x) (.finite y)
  | above (x : Finite64) : Less (.infinite true) (.finite x)
  | below (x : Finite64) : Less (.finite x) (.infinite false)
  | infinite : Less (.infinite true) (.infinite false)
  | nan {x : Binary64} : x ≠ .nan → Less x .nan

def plain : Binary64 → Binary64
  | .finite x => .finite x.plain
  | x => x

/-- The keys of finite numbers lie between those of the infinities. -/
theorem orderKey_bounded (x : Finite64) : -(infinityWord : Int) < x.orderKey ∧ x.orderKey < infinityWord := by
  have bounded := x.bounded
  unfold Finite64.orderKey
  split <;> omega

theorem orderKey_lt_nan_iff : x.orderKey < nan.orderKey ↔ x ≠ .nan := by
  cases x with
  | finite x =>
    have most := (orderKey_bounded x).2
    refine iff_of_true ?_ (by simp)
    simp only [orderKey]
    omega
  | infinite negative => cases negative <;> decide
  | nan => exact iff_of_false (lt_irrefl _) fun other => other rfl

theorem less_iff : x.Less y ↔ x.orderKey < y.orderKey := by
  cases y with
  | nan =>
    rw [orderKey_lt_nan_iff]
    refine ⟨?_, .nan⟩
    rintro ⟨⟩
    assumption
  | finite y =>
    have bounds := orderKey_bounded y
    cases x with
    | finite x =>
      refine ⟨?_, fun less => .finite (Finite64.value_lt_iff.2 less)⟩
      rintro ⟨less⟩
      exact Finite64.value_lt_iff.1 less
    | infinite negative =>
      cases negative with
      | true => exact iff_of_true (.above y) bounds.1
      | false => exact iff_of_false (by rintro ⟨⟩) bounds.2.not_gt
    | nan => exact iff_of_false (by rintro ⟨⟩) (orderKey_lt_nan_iff.2 (by simp)).not_gt
  | infinite negative =>
    cases x with
    | finite x =>
      have bounds := orderKey_bounded x
      cases negative with
      | true => exact iff_of_false (by rintro ⟨⟩) bounds.1.not_gt
      | false => exact iff_of_true (.below x) bounds.2
    | infinite first =>
      cases first <;> cases negative
      case true.false => exact iff_of_true .infinite (by decide)
      all_goals exact iff_of_false (by rintro ⟨⟩) (by decide)
    | nan => exact iff_of_false (by rintro ⟨⟩) (orderKey_lt_nan_iff.2 (by simp)).not_gt

theorem orderKey_ne (x : Finite64) {y : Binary64} (other : ∀ z, y ≠ .finite z) : x.orderKey ≠ y.orderKey := by
  intro same
  have bounds := orderKey_bounded x
  cases y with
  | finite z => exact other z rfl
  | infinite negative => cases negative <;> simp [orderKey] at same <;> omega
  | nan =>
    simp only [orderKey] at same
    omega

theorem plain_eq_iff : x.plain = y.plain ↔ x.orderKey = y.orderKey := by
  cases x with
  | finite x =>
    cases y with
    | finite y =>
      simp only [plain, orderKey, finite.injEq]
      rw [Finite64.plain_eq_iff, Finite64.value_eq_iff]
    | infinite | nan => exact iff_of_false (by simp [plain]) (orderKey_ne x (by simp))
  | infinite negative =>
    cases y with
    | finite y => exact iff_of_false (by simp [plain]) (orderKey_ne y (by simp)).symm
    | infinite second => cases negative <;> cases second <;> decide
    | nan => cases negative <;> decide
  | nan =>
    cases y with
    | finite y => exact iff_of_false (by simp [plain]) (orderKey_ne y (by simp)).symm
    | infinite negative => cases negative <;> decide
    | nan => exact iff_of_true rfl rfl

end Binary64

/-! ### Scalars -/

def ScalarKind.rank : ScalarKind → Nat
  | .bool => 0
  | .int => 1
  | .float => 2
  | .string => 3

namespace Scalar

variable {a b : Scalar}

/-- The order of scalars: by their kinds, and within a kind by their values. -/
inductive Less : Scalar → Scalar → Prop
  | kind {a b : Scalar} : a.kind.rank < b.kind.rank → Less a b
  | bool : Less (.bool false) (.bool true)
  | int {m n : Int64} : m.toInt < n.toInt → Less (.int m) (.int n)
  | float {x y : Binary64} : x.Less y → Less (.float x) (.float y)
  | string {s t : String} : s < t → Less (.string s) (.string t)

def plain : Scalar → Scalar
  | .float x => .float x.plain
  | a => a

/-- The key of a scalar within its kind. -/
def innerKey : Scalar → ℤ ×ₗ String
  | .bool b => toLex (b.toNat, "")
  | .int n => toLex (n.toInt, "")
  | .float x => toLex (x.orderKey, "")
  | .string s => toLex (0, s)

/-- The key that scalars are ordered by. -/
def orderKey (a : Scalar) : ℕ ×ₗ ℤ ×ₗ String := toLex (a.kind.rank, a.innerKey)

private theorem wholeKey_le_iff {i j : ℤ} : (toLex (i, "") : ℤ ×ₗ String) ≤ toLex (j, "") ↔ i ≤ j := by
  rw [Prod.Lex.toLex_le_toLex]
  simp [le_iff_lt_or_eq]

private theorem stringKey_le_iff {s t : String} : (toLex (0, s) : ℤ ×ₗ String) ≤ toLex (0, t) ↔ s ≤ t := by
  rw [Prod.Lex.toLex_le_toLex]
  simp

theorem le_iff : a.le b = true ↔ a.orderKey ≤ b.orderKey := by
  rw [orderKey, orderKey, Prod.Lex.toLex_le_toLex]
  cases a <;> cases b
  case bool.bool p q => cases p <;> cases q <;> decide
  case int.int m n => simp [le, kind, innerKey, wholeKey_le_iff]
  case float.float x y => simp [le, kind, innerKey, wholeKey_le_iff]
  case string.string s t => simp [le, kind, innerKey, stringKey_le_iff]
  -- otherwise the kinds decide
  all_goals simp [le, kind, ScalarKind.rank]

theorem less_iff : a.Less b ↔ a.orderKey < b.orderKey := by
  rw [orderKey, orderKey, Prod.Lex.toLex_lt_toLex]
  constructor
  · intro less
    cases less with
    | kind ranks => exact .inl ranks
    | bool => exact .inr ⟨rfl, by decide⟩
    | int less => exact .inr ⟨rfl, Prod.Lex.toLex_lt_toLex.2 (.inl less)⟩
    | float less => exact .inr ⟨rfl, Prod.Lex.toLex_lt_toLex.2 (.inl (Binary64.less_iff.1 less))⟩
    | string less => exact .inr ⟨rfl, Prod.Lex.toLex_lt_toLex.2 (.inr ⟨rfl, less⟩)⟩
  · rintro (ranks | ⟨ranks, less⟩)
    · exact .kind ranks
    rw [← not_le] at less
    cases a <;> cases b
    case bool.bool p q =>
      cases p <;> cases q
      case false.true => exact .bool
      all_goals exact absurd (by decide) less
    case int.int m n => exact .int (not_le.1 fun most => less (wholeKey_le_iff.2 most))
    case float.float x y => exact .float (Binary64.less_iff.2 (not_le.1 fun most => less (wholeKey_le_iff.2 most)))
    case string.string s t => exact .string (not_le.1 fun most => less (stringKey_le_iff.2 most))
    all_goals cases ranks

theorem plain_eq_iff : a.plain = b.plain ↔ a.orderKey = b.orderKey := by
  cases a <;> cases b
  case bool.bool p q => cases p <;> cases q <;> decide
  case int.int m n => simp [plain, orderKey, kind, innerKey, Int64.toInt_inj]
  case float.float x y => simp [plain, orderKey, kind, innerKey, Binary64.plain_eq_iff]
  case string.string s t => simp [plain, orderKey, kind, innerKey]
  all_goals simp [plain, orderKey, kind, ScalarKind.rank]

/-- Scalars are the same if they differ in the sign of a zero at most. -/
theorem same_iff : a.same b = true ↔ a.plain = b.plain := by
  rw [plain_eq_iff, same, Bool.and_eq_true, le_iff, le_iff, ← le_antisymm_iff]

end Scalar

end FlatStore
