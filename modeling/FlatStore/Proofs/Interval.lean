import FlatStore.Number.Shortest
import Mathlib.Algebra.Order.Field.Power
import Mathlib.Algebra.Order.Field.Rat
import Mathlib.Data.List.TakeWhile
import Mathlib.Tactic.FieldSimp
import Mathlib.Tactic.Linarith
import Mathlib.Tactic.Positivity
import Mathlib.Tactic.Ring

/-!
The decimals of a number. The reals that round to a number lie between its ends, and the ends of neighbouring numbers
meet (`Finite64.upper_eq_lower`), so that a value rounds to one number at most (`Finite64.word_eq_of_rounds`). The
shortest decimal rounds to its number (`Finite64.rounds_shortest`).
-/
namespace FlatStore

def Decimal.value (d : Decimal) : ℚ := d.digits * 10 ^ d.exponent

theorem tenfold_spec (n : Nat) (e : Int) :
    0 < (tenfold n e).2 ∧ ((tenfold n e).1 : ℚ) / (tenfold n e).2 = n * 10 ^ e := by
  unfold tenfold tenTo
  by_cases sign : 0 ≤ e
  · rw [if_pos sign]
    obtain ⟨k, rfl⟩ := Int.eq_ofNat_of_zero_le sign
    simp
  · rw [if_neg sign]
    obtain ⟨k, rfl⟩ : ∃ k : Nat, e = -k := ⟨(-e).toNat, by omega⟩
    simp [div_eq_mul_inv]

namespace Finite64

variable {x y z : Finite64} {v : ℚ}

/-- The step between the number and the next one. -/
def step (x : Finite64) : ℚ := 2 ^ x.scale

theorem step_pos (x : Finite64) : 0 < x.step := zpow_pos (by norm_num) _

/-- Four times the ends of the interval of reals that round to the number. -/
def lower (x : Finite64) : ℚ := x.interval.1 * x.step
def upper (x : Finite64) : ℚ := x.interval.2 * x.step

/-- Whether a value rounds to the magnitude of a number: it lies between the ends of its interval, which belong to it
when the significand is even. -/
def Rounds (x : Finite64) (v : ℚ) : Prop :=
  if x.significand % 2 = 0 then x.lower ≤ 4 * v ∧ 4 * v ≤ x.upper else x.lower < 4 * v ∧ 4 * v < x.upper

theorem step_eq (x : Finite64) : ∃ up down : Nat, (if 0 ≤ x.scale then (twoTo x.scale.toNat, 1)
    else (1, twoTo (-x.scale).toNat)) = (up, down) ∧ 0 < down ∧ x.step = up / down := by
  unfold step twoTo
  by_cases sign : 0 ≤ x.scale
  · rw [if_pos sign]
    obtain ⟨k, eq⟩ := Int.eq_ofNat_of_zero_le sign
    exact ⟨_, _, rfl, by decide, by simp [eq]⟩
  · rw [if_neg sign]
    obtain ⟨k, eq⟩ : ∃ k : Nat, x.scale = -k := ⟨(-x.scale).toNat, by omega⟩
    exact ⟨_, _, rfl, by simp [eq], by simp [eq]⟩

/-- The test for decimals that read back compares their values with the ends of the interval. -/
theorem readsBack_iff {d : Decimal} : x.readsBack d = true ↔ x.Rounds d.value := by
  obtain ⟨up, down, steps, down_pos, step⟩ := x.step_eq
  obtain ⟨den_pos, value⟩ := tenfold_spec (4 * d.digits) d.exponent
  have four : 4 * d.value = ((tenfold (4 * d.digits) d.exponent).1 : ℚ) / (tenfold (4 * d.digits) d.exponent).2 := by
    rw [value, Decimal.value]
    push_cast
    ring
  rw [Rounds, four, lower, upper, step, readsBack]
  generalize tenfold (4 * d.digits) d.exponent = fraction at *
  obtain ⟨num, den⟩ := fraction
  have ends : ∀ n : Nat, (n : ℚ) * (up / down) = (n * up : Nat) / down := by
    intro n
    push_cast
    ring
  have le_iff : ∀ a b c e : Nat, 0 < c → 0 < e → ((a : ℚ) / c ≤ b / e ↔ a * e ≤ b * c) := by
    intro a b c e c_pos e_pos
    rw [div_le_div_iff₀ (by exact_mod_cast c_pos) (by exact_mod_cast e_pos)]
    exact_mod_cast Iff.rfl
  have lt_iff : ∀ a b c e : Nat, 0 < c → 0 < e → ((a : ℚ) / c < b / e ↔ a * e < b * c) := by
    intro a b c e c_pos e_pos
    rw [div_lt_div_iff₀ (by exact_mod_cast c_pos) (by exact_mod_cast e_pos)]
    exact_mod_cast Iff.rfl
  rw [ends, ends, le_iff _ _ _ _ down_pos den_pos, le_iff _ _ _ _ den_pos down_pos, lt_iff _ _ _ _ down_pos den_pos,
    lt_iff _ _ _ _ den_pos down_pos]
  dsimp only
  rw [steps]
  split <;> simp

/-! ### Neighbours -/

theorem lower_lt_upper (x : Finite64) : x.lower < x.upper := by
  have ends : x.interval.1 < x.interval.2 := by
    unfold interval
    dsimp only
    omega
  exact mul_lt_mul_of_pos_right (by exact_mod_cast ends) x.step_pos

theorem significand_parity (x : Finite64) : x.significand % 2 = x.word % 2 := by
  unfold significand wordsPerExponent
  split <;> omega

theorem upper_eq_lower (next : y.word = x.word + 1) : x.upper = y.lower := by
  have double : (2 : ℚ) ^ (x.scale + 1) = 2 * 2 ^ x.scale := by
    rw [zpow_add₀ (by norm_num), zpow_one, mul_comm]
  -- either the significand grows by one, or it starts again with the next exponent
  have steps : (y.scale = x.scale ∧ y.significand = x.significand + 1 ∧ y.interval.1 = 4 * y.significand - 2) ∨
      (y.scale = x.scale + 1 ∧ 2 * y.significand = x.significand + 1 ∧ y.interval.1 = 4 * y.significand - 1) := by
    unfold interval scale significand wordsPerExponent
    dsimp only
    rw [next]
    split_ifs <;> omega
  unfold upper lower step
  rcases steps with ⟨scale, significand, ends⟩ | ⟨scale, significand, ends⟩
  · have same : x.interval.2 = y.interval.1 := by
      rw [ends, significand, interval]
      omega
    rw [same, scale]
  · have same : x.interval.2 = 2 * y.interval.1 := by
      rw [ends, interval]
      omega
    rw [same, scale, double]
    push_cast
    ring

/-- Of two numbers the interval of the lesser lies below that of the greater. They touch at most if the numbers are
neighbours. -/
theorem upper_le_lower (less : x.word < y.word) :
    x.upper ≤ y.lower ∧ (x.word + 1 < y.word → x.upper < y.lower) := by
  obtain ⟨n, eq⟩ := Nat.exists_eq_add_of_lt less
  induction n generalizing y with
  | zero =>
    rw [upper_eq_lower eq]
    exact ⟨le_refl _, by omega⟩
  | succ n ih =>
    have bounded := y.bounded
    let before : Finite64 := ⟨false, x.word + n + 1, by omega⟩
    have below : x.upper ≤ before.lower := (ih (y := before) (by simp only [before]; omega) rfl).1
    have meets : before.upper = y.lower := upper_eq_lower eq
    have strict : x.upper < y.lower := by
      rw [← meets]
      exact lt_of_le_of_lt below before.lower_lt_upper
    exact ⟨strict.le, fun _ => strict⟩

theorem Rounds.between (rounds : x.Rounds v) : x.lower ≤ 4 * v ∧ 4 * v ≤ x.upper := by
  unfold Rounds at rounds
  split at rounds
  · exact rounds
  · exact ⟨rounds.1.le, rounds.2.le⟩

theorem word_eq_of_rounds (first : x.Rounds v) (second : y.Rounds v) : x.word = y.word := by
  have apart : ∀ {x y : Finite64}, x.Rounds v → y.Rounds v → ¬ x.word < y.word := by
    intro x y first second less
    obtain ⟨below, strictly⟩ := upper_le_lower less
    have touch : x.upper = y.lower := by linarith [first.between.2, second.between.1]
    have neighbours : y.word = x.word + 1 := by
      by_contra far
      linarith [strictly (by omega)]
    -- the value is the common end, which belongs to the even number only
    have parity := x.significand_parity
    have parity' := y.significand_parity
    by_cases even : x.significand % 2 = 0
    · have odd : ¬ y.significand % 2 = 0 := by omega
      rw [Rounds, if_neg odd] at second
      linarith [first.between.2, second.1]
    · rw [Rounds, if_neg even] at first
      linarith [first.2, second.between.1]
  have forth := apart first second
  have back := apart second first
  omega

/-! ### The shortest decimal -/

theorem rounds_magnitude (some : x.word ≠ 0) : x.Rounds (x.significand * x.step) := by
  have positive : 0 < x.significand := by
    unfold significand wordsPerExponent
    split <;> omega
  have low : (x.interval.1 : ℚ) < 4 * x.significand := by
    have bound : x.interval.1 < 4 * x.significand := by
      unfold interval
      dsimp only
      split <;> omega
    exact_mod_cast bound
  have high : (4 : ℚ) * x.significand < x.interval.2 := by
    have bound : 4 * x.significand < x.interval.2 := by
      unfold interval
      dsimp only
      omega
    exact_mod_cast bound
  have strict : x.lower < 4 * (x.significand * x.step) ∧ 4 * (x.significand * x.step) < x.upper := by
    rw [← mul_assoc, lower, upper]
    exact ⟨mul_lt_mul_of_pos_right low x.step_pos, mul_lt_mul_of_pos_right high x.step_pos⟩
  unfold Rounds
  split
  · exact ⟨strict.1.le, strict.2.le⟩
  · exact strict

theorem rounds_of_onGrid {tie : Tie} {e : Int} {d : Decimal} (found : x.onGrid tie e = some d) :
    x.Rounds d.value := by
  rw [← readsBack_iff]
  unfold onGrid at found
  dsimp only at found
  split at found
  · next low high =>
    have either : ∀ {b : Bool} {l h : Decimal}, x.readsBack l = true → x.readsBack h = true →
        x.readsBack (if b then l else h) = true := by
      intro b l h low high
      cases b <;> assumption
    obtain rfl := Option.some.inj found
    exact either low high
  · next low _ =>
    obtain rfl := Option.some.inj found
    exact low
  · next _ high =>
    obtain rfl := Option.some.inj found
    exact high
  · cases found

/-- The decimal at the end of the search is the magnitude itself. -/
theorem value_search_zero (tie : Tie) (e : Int) : (x.search tie e 0).value = x.significand * x.step := by
  unfold search step
  by_cases sign : 0 ≤ x.scale
  · obtain ⟨k, eq⟩ := Int.eq_ofNat_of_zero_le sign
    simp [Decimal.value, ratio, twoTo, eq]
  · obtain ⟨k, eq⟩ : ∃ k : Nat, x.scale = -k := ⟨(-x.scale).toNat, by omega⟩
    have tens : (10 : ℚ) ^ k = 5 ^ k * 2 ^ k := by
      rw [← mul_pow]
      norm_num
    rw [if_neg sign, Decimal.value, eq]
    simp only [neg_neg, Int.toNat_natCast, zpow_neg, zpow_natCast, Nat.pow_eq]
    push_cast
    rw [tens]
    field_simp

theorem rounds_search (some : x.word ≠ 0) (tie : Tie) (e : Int) (more : Nat) :
    x.Rounds (x.search tie e more).value := by
  induction more generalizing e with
  | zero =>
    rw [value_search_zero]
    exact rounds_magnitude some
  | succ more ih =>
    rw [search]
    cases found : x.onGrid tie e with
    | some d => exact rounds_of_onGrid found
    | none => exact ih _

end Finite64

/-- A decimal keeps its value when the zeros at its end move into the exponent. -/
theorem Decimal.value_trim (d : Decimal) : d.trim.value = d.value := by
  let ds := Nat.toDigits 10 d.digits
  let zeros := (ds.reverse.takeWhile (· = '0')).length
  have tail : ds = (ds.reverse.dropWhile (· = '0')).reverse ++ List.replicate zeros '0' := by
    have last : ds.reverse.takeWhile (· = '0') = List.replicate zeros '0' := by
      refine List.eq_replicate_of_mem fun c mem => ?_
      simpa using List.mem_takeWhile_imp mem
    rw [← List.reverse_inj, List.reverse_append, List.reverse_reverse, List.reverse_replicate, ← last,
      List.takeWhile_append_dropWhile]
  have digits : d.digits = tenTo zeros * Nat.ofDigitChars 10 (ds.reverse.dropWhile (· = '0')).reverse 0 := by
    rw [tenTo, Nat.pow_eq, ← Nat.ofDigitChars_replicate_zero, ← Nat.ofDigitChars_append, ← tail]
    exact Nat.ofDigitChars_ten_toDigits.symm
  have power : (tenTo zeros : ℚ) = 10 ^ zeros := by simp [tenTo]
  have kept : d.trim.value = (d.digits / tenTo zeros : Nat) * 10 ^ (d.exponent + zeros) := rfl
  have positive : 0 < tenTo zeros := Nat.pow_pos (by decide)
  rw [kept, Decimal.value, digits, Nat.mul_div_cancel_left _ positive, zpow_add₀ (by norm_num), zpow_natCast]
  push_cast
  rw [power]
  ring

theorem Finite64.rounds_shortest {x : Finite64} (some : x.word ≠ 0) (tie : Tie) : x.Rounds (x.shortest tie).value := by
  rw [shortest, Decimal.value_trim]
  exact rounds_search some tie _ _

end FlatStore
