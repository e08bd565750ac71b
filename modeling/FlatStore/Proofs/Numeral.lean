import FlatStore.Json.Text
import FlatStore.Proofs.Interval

/-!
The texts of numbers. A text of digits with a point or an exponent spells one value (`Spells.unique`). The text of a
number spells, after the sign, a value that rounds to the number (`Finite64.spells_text`), so that no two numbers have
the same text (`Finite64.text_injective`).
-/
namespace FlatStore

/-! ### Spelled values -/

/-- Digits alone. -/
def Digits (text : List Char) : Prop := ∀ c ∈ text, c.isDigit = true

/-- An exponent behind its mark, or none. -/
inductive SpellsExponent : List Char → Int → Prop
  | nothing : SpellsExponent [] 0
  | minus (n : Nat) : SpellsExponent ('e' :: '-' :: Nat.toDigits 10 n) (-n)
  | plus (n : Nat) : SpellsExponent ('e' :: '+' :: Nat.toDigits 10 n) n

/-- Whether a text spells a value, in digits with a point or an exponent. -/
inductive Spells : List Char → ℚ → Prop
  | point {whole fraction tail : List Char} {e : Int} :
    Digits whole → Digits fraction → SpellsExponent tail e →
      Spells (whole ++ '.' :: (fraction ++ tail)) (Nat.ofDigitChars 10 (whole ++ fraction) 0 * 10 ^ (e - fraction.length))
  | exponent {whole tail : List Char} {e : Int} :
    Digits whole → SpellsExponent tail e → tail ≠ [] →
      Spells (whole ++ tail) (Nat.ofDigitChars 10 whole 0 * 10 ^ e)

theorem digits_toDigits (n : Nat) : Digits (Nat.toDigits 10 n) :=
  fun _ mem => Nat.isDigit_of_mem_toDigits (by decide) (by decide) mem

theorem Digits.append {first second : List Char} (digits : Digits first) (more : Digits second) :
    Digits (first ++ second) := by
  intro c mem
  rcases List.mem_append.1 mem with mem | mem
  · exact digits c mem
  · exact more c mem

theorem Digits.take {text : List Char} (digits : Digits text) (n : Nat) : Digits (text.take n) :=
  fun c mem => digits c (List.mem_of_mem_take mem)

theorem Digits.drop {text : List Char} (digits : Digits text) (n : Nat) : Digits (text.drop n) :=
  fun c mem => digits c (List.mem_of_mem_drop mem)

theorem Digits.ne {text : List Char} (digits : Digits text) {mark : Char} (other : mark.isDigit = false) :
    ∀ c ∈ text, c ≠ mark := by
  rintro c mem rfl
  rw [digits c mem] at other
  cases other

/-- The exponent in a text that begins with the mark of one. -/
def exponentOf : List Char → Int
  | _ :: '-' :: digits => -Nat.ofDigitChars 10 digits 0
  | _ :: _ :: digits => Nat.ofDigitChars 10 digits 0
  | _ => 0

/-- The value that a text spells, if it spells one. -/
def spelled (text : List Char) : ℚ :=
  let mantissa := text.takeWhile (· ≠ 'e')
  let fraction := (mantissa.dropWhile (· ≠ '.')).drop 1
  Nat.ofDigitChars 10 (mantissa.filter (· ≠ '.')) 0 * 10 ^ (exponentOf (text.dropWhile (· ≠ 'e')) - fraction.length)

theorem SpellsExponent.eq {tail : List Char} {e : Int} (spells : SpellsExponent tail e) : exponentOf tail = e := by
  cases spells <;> simp [exponentOf, Nat.ofDigitChars_ten_toDigits]

/-- An exponent begins behind the mantissa. -/
theorem SpellsExponent.split {mantissa tail : List Char} {e : Int} (spells : SpellsExponent tail e)
    (unmarked : ∀ c ∈ mantissa, c ≠ 'e') :
    (mantissa ++ tail).takeWhile (· ≠ 'e') = mantissa ∧ (mantissa ++ tail).dropWhile (· ≠ 'e') = tail := by
  have before : ∀ c ∈ mantissa, decide (c ≠ 'e') = true := fun c mem => by simpa using unmarked c mem
  rw [List.takeWhile_append_of_pos before, List.dropWhile_append_of_pos before]
  cases spells <;> simp

theorem Spells.eq {text : List Char} {v : ℚ} (spells : Spells text v) : spelled text = v := by
  have mark : ('e' : Char).isDigit = false := by decide
  have dot : ('.' : Char).isDigit = false := by decide
  cases spells with
  | @point whole fraction tail e digits more exponent =>
    have unmarked : ∀ c ∈ whole ++ '.' :: fraction, c ≠ 'e' := by
      intro c mem
      rcases List.mem_append.1 mem with mem | mem
      · exact digits.ne mark c mem
      · rcases List.mem_cons.1 mem with rfl | mem
        · decide
        · exact more.ne mark c mem
    obtain ⟨mantissa, rest⟩ := exponent.split unmarked
    rw [List.append_assoc, List.cons_append] at mantissa rest
    have before : ∀ c ∈ whole, decide (c ≠ '.') = true := fun c mem => by simpa using digits.ne dot c mem
    have behind : ∀ c ∈ fraction, decide (c ≠ '.') = true := fun c mem => by simpa using more.ne dot c mem
    rw [spelled, mantissa, rest, exponent.eq, List.filter_append, List.filter_cons_of_neg (by simp),
      List.filter_eq_self.2 before, List.filter_eq_self.2 behind, List.dropWhile_append_of_pos before]
    simp
  | @exponent whole tail e digits exponent nonempty =>
    obtain ⟨mantissa, rest⟩ := exponent.split (digits.ne mark)
    have before : ∀ c ∈ whole, decide (c ≠ '.') = true := fun c mem => by simpa using digits.ne dot c mem
    have none : whole.dropWhile (· ≠ '.') = [] := List.dropWhile_eq_nil_iff.2 before
    rw [spelled, mantissa, rest, exponent.eq, List.filter_eq_self.2 before, none]
    simp

/-- A text spells one value. -/
theorem Spells.unique {text : List Char} {v w : ℚ} (first : Spells text v) (second : Spells text w) : v = w :=
  first.eq.symm.trans second.eq

/-! ### The texts of decimals -/

theorem ofDigitChars_zeros (n : Nat) (digits : List Char) :
    Nat.ofDigitChars 10 (List.replicate n '0' ++ digits) 0 = Nat.ofDigitChars 10 digits 0 := by
  rw [Nat.ofDigitChars_append, Nat.ofDigitChars_replicate_zero, Nat.mul_zero]

theorem digits_zeros (n : Nat) : Digits (List.replicate n '0') := by
  intro c mem
  rw [List.eq_of_mem_replicate mem]
  rfl

namespace Decimal

theorem spells_positional (d : Decimal) : Spells (d.positional ".0").toList d.value := by
  have digits := digits_toDigits d.digits
  have value : Nat.ofDigitChars 10 (Nat.toDigits 10 d.digits) 0 = d.digits := Nat.ofDigitChars_ten_toDigits
  unfold positional
  dsimp only
  generalize Nat.toDigits 10 d.digits = ds at digits value
  split
  · next sign =>
    obtain ⟨k, eq⟩ := Int.eq_ofNat_of_zero_le sign
    have spells := Spells.point (digits.append (digits_zeros k)) (digits_zeros 1) .nothing
    convert spells using 1
    · simp [zeros, eq]
    · rw [Nat.ofDigitChars_append, Nat.ofDigitChars_append, value, Nat.ofDigitChars_replicate_zero,
        Nat.ofDigitChars_replicate_zero, Decimal.value, eq]
      push_cast
      rw [show (0 : Int) - (['0'] : List Char).length = -1 by simp, zpow_natCast, zpow_neg_one]
      ring
  · next sign =>
    split
    · next leading =>
      have cut : (ds.drop ((d.exponent + ds.length - 1).toNat + 1)).length = (-d.exponent).toNat := by
        rw [List.length_drop]
        omega
      have spells := Spells.point (digits.take ((d.exponent + ds.length - 1).toNat + 1))
        (digits.drop ((d.exponent + ds.length - 1).toNat + 1)) .nothing
      convert spells using 1
      · simp
      · rw [List.take_append_drop, value, cut, Decimal.value]
        congr 2
        omega
    · next leading =>
      have length : (List.replicate (-(d.exponent + ds.length - 1) - 1).toNat '0' ++ ds).length =
          (-d.exponent).toNat := by
        rw [List.length_append, List.length_replicate]
        omega
      have spells := Spells.point (digits_zeros 1)
        ((digits_zeros (-(d.exponent + ds.length - 1) - 1).toNat).append digits) .nothing
      convert spells using 1
      · simp [zeros]
      · rw [ofDigitChars_zeros, ofDigitChars_zeros, value, length, Decimal.value]
        congr 2
        omega

theorem spells_scientific (d : Decimal) : Spells d.scientific.toList d.value := by
  have digits := digits_toDigits d.digits
  have value : Nat.ofDigitChars 10 (Nat.toDigits 10 d.digits) 0 = d.digits := Nat.ofDigitChars_ten_toDigits
  have nonempty : 0 < (Nat.toDigits 10 d.digits).length := List.length_pos_of_ne_nil Nat.toDigits_ne_nil
  unfold scientific
  dsimp only
  generalize Nat.toDigits 10 d.digits = ds at digits value nonempty
  have exponent : SpellsExponent ((if d.exponent + ds.length - 1 < 0 then "e-" else "e+").toList ++
      Nat.toDigits 10 (d.exponent + ds.length - 1).natAbs) (d.exponent + ds.length - 1) := by
    split
    · next below =>
      have spells := SpellsExponent.minus (d.exponent + ds.length - 1).natAbs
      rwa [show -((d.exponent + ds.length - 1).natAbs : Int) = d.exponent + ds.length - 1 by omega] at spells
    · next above =>
      have spells := SpellsExponent.plus (d.exponent + ds.length - 1).natAbs
      rwa [show ((d.exponent + ds.length - 1).natAbs : Int) = d.exponent + ds.length - 1 by omega] at spells
  split
  · next single =>
    have spells := Spells.exponent (digits.take 1) exponent (by split <;> simp)
    convert spells using 1
    · simp
    · rw [List.take_of_length_le single, value, Decimal.value]
      congr 2
      omega
  · next several =>
    have spells := Spells.point (digits.take 1) (digits.drop 1) exponent
    convert spells using 1
    · simp
    · rw [List.take_append_drop, value, List.length_drop, Decimal.value]
      congr 2
      omega

end Decimal

/-! ### The texts of numbers -/

/-- The characters that numbers are written with. -/
def IsNumeric (c : Char) : Prop := c.isDigit = true ∨ c ∈ ['.', 'e', '-', '+']

theorem SpellsExponent.numeric {tail : List Char} {e : Int} (spells : SpellsExponent tail e) :
    ∀ c ∈ tail, IsNumeric c := by
  intro c mem
  cases spells with
  | nothing => cases mem
  | minus n | plus n =>
    rcases List.mem_cons.1 mem with rfl | mem
    · exact .inr (by decide)
    · rcases List.mem_cons.1 mem with rfl | mem
      · exact .inr (by decide)
      · exact .inl (digits_toDigits n c mem)

namespace Spells

variable {text : List Char} {v : ℚ}

theorem numeric (spells : Spells text v) : ∀ c ∈ text, IsNumeric c := by
  intro c mem
  cases spells with
  | point digits more exponent =>
    rcases List.mem_append.1 mem with mem | mem
    · exact .inl (digits c mem)
    · rcases List.mem_cons.1 mem with rfl | mem
      · exact .inr (by decide)
      · rcases List.mem_append.1 mem with mem | mem
        · exact .inl (more c mem)
        · exact exponent.numeric c mem
  | exponent digits exponent =>
    rcases List.mem_append.1 mem with mem | mem
    · exact .inl (digits c mem)
    · exact exponent.numeric c mem

/-- No whole number is written like this. -/
theorem marked (spells : Spells text v) : '.' ∈ text ∨ 'e' ∈ text := by
  cases spells with
  | point => simp
  | exponent digits exponent some =>
    cases exponent with
    | nothing => exact absurd rfl some
    | minus | plus => simp

/-- A value has no sign. -/
theorem unsigned (spells : Spells text v) : text.head? ≠ some '-' := by
  have digit : ∀ {whole rest : List Char}, Digits whole → rest.head? ≠ some '-' → (whole ++ rest).head? ≠ some '-' := by
    intro whole rest digits other
    cases whole with
    | nil => exact other
    | cons c more =>
      have digit := digits c List.mem_cons_self
      have first : c ≠ '-' := by
        rintro rfl
        cases digit
      simpa using first
  cases spells with
  | point digits => exact digit digits (by simp)
  | exponent digits exponent some =>
    refine digit digits ?_
    cases exponent <;> simp

end Spells

namespace Finite64

open Json (numberLayout)

variable {x y : Finite64}

/-- The text of a number is a value that rounds to the number, behind a minus if the number is negative. -/
theorem spells_text (x : Finite64) : ∃ body v, Spells body v ∧ x.Rounds v ∧
    (x.text numberLayout).toList = if x.negative then '-' :: body else body := by
  have signed : ∀ body : String, ((if x.negative then "-" else "") ++ body).toList =
      if x.negative then '-' :: body.toList else body.toList := by
    intro body
    cases x.negative <;> simp
  by_cases zero : x.word = 0
  · have digits := digits_zeros 1
    have nothing : x.Rounds 0 := by
      have none : x.significand = 0 := by simp [significand, zero]
      have least : x.lower = 0 := by simp [lower, interval, none]
      have most := x.lower_lt_upper
      rw [Rounds, none, if_pos rfl]
      constructor <;> linarith
    have spells : Spells ['0', '.', '0'] 0 := by
      have none : Nat.ofDigitChars 10 ['0', '0'] 0 = 0 := rfl
      simpa [none] using Spells.point digits digits .nothing
    refine ⟨_, _, spells, nothing, ?_⟩
    rw [text, if_pos zero]
    cases x.negative <;> rfl
  · have rounds := rounds_shortest zero numberLayout.tie
    rw [text, if_neg zero]
    dsimp only
    generalize x.shortest numberLayout.tie = d at rounds
    refine ⟨_, _, ?_, rounds, signed _⟩
    split
    · exact d.spells_positional
    · exact d.spells_scientific

/-- No two numbers have the same text. -/
theorem text_injective (same : x.text numberLayout = y.text numberLayout) : x = y := by
  obtain ⟨body, v, spells, rounds, text⟩ := x.spells_text
  obtain ⟨other, w, spells', rounds', text'⟩ := y.spells_text
  rw [same, text'] at text
  have sign : x.negative = y.negative ∧ body = other := by
    cases first : x.negative <;> cases second : y.negative <;>
      simp only [first, second, if_true, Bool.false_eq_true, if_false] at text
    · exact ⟨rfl, text.symm⟩
    · exact absurd (text ▸ rfl) spells.unsigned
    · exact absurd (text.symm ▸ rfl) spells'.unsigned
    · exact ⟨rfl, (List.cons.inj text).2.symm⟩
  obtain ⟨sign, rfl⟩ := sign
  obtain rfl := spells.unique spells'
  have word := word_eq_of_rounds rounds rounds'
  cases x
  cases y
  cases sign
  cases word
  rfl

end Finite64
end FlatStore
