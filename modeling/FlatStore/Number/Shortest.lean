import FlatStore.Number.Binary64

/-!
The shortest decimal of a finite number: of all decimals that are nearer to it than to any other number, one with the
fewest digits, and of those the nearest. Everything is decided by comparing products of naturals.
-/
namespace FlatStore

/-- Which of two decimals is taken that are equally short and equally near. -/
inductive Tie where
  | toEven
  | upwards
deriving DecidableEq

/-- The decimal `digits * 10 ^ exponent`. -/
structure Decimal where
  digits : Nat
  exponent : Int
deriving DecidableEq

def digitCount (n : Nat) : Nat := (Nat.toDigits 10 n).length

def leadingExponent (num den : Nat) : Int :=
  if den ≤ num then (digitCount (num / den) : Int) - 1 else -(digitCount ((den + num - 1) / num - 1) : Int)

def tenfold (n : Nat) (exponent : Int) : Nat × Nat :=
  if 0 ≤ exponent then (n * tenTo exponent.toNat, 1) else (n, tenTo (-exponent).toNat)

namespace Finite64

/-- Four times the significand at the ends of the interval of reals that round to the number. Below a power of two
the numbers lie twice as close. -/
def interval (x : Finite64) : Nat × Nat :=
  let below := if x.significand = wordsPerExponent ∧ x.scale ≠ -1074 then 1 else 2
  (4 * x.significand - below, 4 * x.significand + 2)

/-- Whether a decimal reads back as the number: it lies in the interval, whose ends belong to it when the
significand is even. -/
def readsBack (x : Finite64) (d : Decimal) : Bool :=
  let (num, den) := tenfold (4 * d.digits) d.exponent
  let (up, down) := if 0 ≤ x.scale then (twoTo x.scale.toNat, 1) else (1, twoTo (-x.scale).toNat)
  let least := x.interval.1 * up * den
  let point := num * down
  let most := x.interval.2 * up * den
  if x.significand % 2 = 0 then decide (least ≤ point ∧ point ≤ most) else decide (least < point ∧ point < most)

/-- The decimal of the grid `10 ^ exponent` that reads back as the number and is nearest to it, if there is one. One of
the two neighbours of the number on the grid is the one. -/
def onGrid (x : Finite64) (tie : Tie) (exponent : Int) : Option Decimal :=
  let (num, den) := x.ratio
  let (up, down) := tenfold 1 exponent
  let below := num * down / (den * up)
  let rest := num * down % (den * up)
  let nearerBelow : Bool :=
    if 2 * rest = den * up then tie = .toEven && below % 2 = 0 else decide (2 * rest < den * up)
  let low : Decimal := ⟨below, exponent⟩
  let high : Decimal := ⟨below + 1, exponent⟩
  match x.readsBack low, x.readsBack high with
  | true, true => some (if nearerBelow then low else high)
  | true, false => some low
  | false, true => some high
  | false, false => none

/-- The decimal on the first grid that has one, the grids getting finer one digit at a time. The number's own value
stands at the end, which no finite number needs. -/
def search (x : Finite64) (tie : Tie) (exponent : Int) : Nat → Decimal
  | 0 => if 0 ≤ x.scale then ⟨x.ratio.1, 0⟩ else ⟨x.significand * Nat.pow 5 (-x.scale).toNat, x.scale⟩
  | more + 1 =>
    match x.onGrid tie exponent with
    | some d => d
    | none => search x tie (exponent - 1) more

end Finite64

def Decimal.trim (d : Decimal) : Decimal :=
  let zeros := ((Nat.toDigits 10 d.digits).reverse.takeWhile (· = '0')).length
  ⟨d.digits / tenTo zeros, d.exponent + zeros⟩

def Finite64.shortest (x : Finite64) (tie : Tie) : Decimal :=
  (x.search tie (leadingExponent x.ratio.1 x.ratio.2) 17).trim

end FlatStore
