/-!
Binary64 numbers as exact data. A finite number is its sign and the word of 63 bits below it; the words of two
numbers compare as their magnitudes do, so that the order of all numbers is the order of one integer key. Rounding
is done on quotients of naturals, to the nearest number and to the even one of two that are equally near.
-/
namespace FlatStore

/-- The word of infinity: every smaller word is that of a finite number. -/
def infinityWord : Nat := 0x7ff0000000000000

/-- How many words of finite numbers share an exponent. -/
def wordsPerExponent : Nat := 0x10000000000000

def twoTo (n : Nat) : Nat := Nat.pow 2 n

def tenTo (n : Nat) : Nat := Nat.pow 10 n

structure Finite64 where
  negative : Bool
  word : Nat
  bounded : word < infinityWord
deriving DecidableEq

/-- A binary64 number. There is one that is not a number. -/
inductive Binary64 where
  | finite (number : Finite64)
  | infinite (negative : Bool)
  | nan
deriving DecidableEq

namespace Finite64

/-- The number is `significand * 2 ^ scale`, its sign apart. -/
def significand (x : Finite64) : Nat :=
  if x.word / wordsPerExponent = 0 then x.word else x.word % wordsPerExponent + wordsPerExponent

def scale (x : Finite64) : Int :=
  if x.word / wordsPerExponent = 0 then -1074 else (x.word / wordsPerExponent : Nat) - 1075

def zero : Finite64 := ⟨false, 0, by decide⟩

/-- The key that finite numbers are ordered by. Both zeros have the key zero. -/
def orderKey (x : Finite64) : Int :=
  if x.negative then -(x.word : Int) else x.word

end Finite64

/-- A quotient rounded to the nearest whole number, a half to the even neighbour. -/
def roundHalfEven (num den : Nat) : Nat :=
  let down := num / den
  let twice := 2 * (num % den)
  if twice < den then down else if den < twice then down + 1 else down + down % 2

/-- The word of `significand * 2 ^ scale`, where the significand has 53 bits or the scale is the least one. The top
bit of the significand adds one to the exponent, and a significand that rounding brought to 54 bits adds two. -/
def wordOf (significand : Nat) (scale : Int) : Nat := (scale + 1074).toNat * wordsPerExponent + significand

/-- The word nearest to `num / den`. Words from that of infinity on stand for numbers that are too large. -/
def nearestWord (num den : Nat) : Nat :=
  if num = 0 then 0 else
    let guess : Int := (num.log2 : Int) - den.log2 - 53
    let large : Bool :=
      if 0 ≤ guess then decide (2 * wordsPerExponent * (den * twoTo guess.toNat) ≤ num)
      else decide (2 * wordsPerExponent * den ≤ num * twoTo (-guess).toNat)
    let scale : Int := max (if large then guess + 1 else guess) (-1074)
    let significand :=
      if 0 ≤ scale then roundHalfEven num (den * twoTo scale.toNat) else roundHalfEven (num * twoTo (-scale).toNat) den
    wordOf significand scale

namespace Binary64

def ofWord (negative : Bool) (word : Nat) : Binary64 :=
  if h : word < infinityWord then .finite ⟨negative, word, h⟩ else .infinite negative

def ofRatio (negative : Bool) (num den : Nat) : Binary64 := ofWord negative (nearestWord num den)

def ofInt (n : Int) : Binary64 := ofRatio (decide (n < 0)) n.natAbs 1

/-- The key that numbers are ordered by: infinities lie outside the finite numbers, and what is not a number lies
above them all and equals itself. -/
def orderKey : Binary64 → Int
  | .finite x => x.orderKey
  | .infinite negative => if negative then -(infinityWord : Int) else infinityWord
  | .nan => infinityWord + 1

end Binary64

def Finite64.ratio (x : Finite64) : Nat × Nat :=
  if 0 ≤ x.scale then (x.significand * twoTo x.scale.toNat, 1) else (x.significand, twoTo (-x.scale).toNat)

def Finite64.scaled (x : Finite64) (num den : Nat) : Binary64 :=
  .ofRatio x.negative (x.ratio.1 * num) (x.ratio.2 * den)

end FlatStore
