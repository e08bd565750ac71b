import FlatStore.Number.Binary64

/-!
Reading a decimal as a finite number, in steps of one rounding each: the leading digits, as many as fit into 64 bits,
become a number, which is then multiplied or divided by a power of ten. Powers of ten above `10 ^ 22` are themselves
rounded. A number that gets too large cannot be read; one that gets too small is zero.
-/
namespace FlatStore

structure Numeral where
  negative : Bool
  whole : List Nat
  fraction : List Nat
  exponent : Int

def appendDigits (start : Nat) (digits : List Nat) : Nat := digits.foldl (fun n d => n * 10 + d) start

/-- Puts digits behind a number as long as it fits into 64 bits. The second part is how many digits are left over. -/
def absorbDigits (start : Nat) : List Nat → Nat × Nat
  | [] => (start, 0)
  | d :: ds => if start * 10 + d < 0x10000000000000000 then absorbDigits (start * 10 + d) ds else (start, ds.length + 1)

def roundedTen (n : Nat) : Nat :=
  let unit := twoTo ((tenTo n).log2 - 52)
  roundHalfEven (tenTo n) unit * unit

/-- A number times a power of ten. Exponents that no factor covers are taken off in steps of 308. -/
def Finite64.shift (x : Finite64) (exponent : Int) : Option Finite64 :=
  if exponent.natAbs ≤ 308 then
    match if 0 ≤ exponent then x.scaled (roundedTen exponent.toNat) 1 else x.scaled 1 (roundedTen exponent.natAbs) with
    | .finite y => some y
    | _ => none
  else if x.word = 0 then some x
  else if 0 ≤ exponent then none
  else
    match x.scaled 1 (roundedTen 308) with
    | .finite y => y.shift (exponent + 308)
    | _ => none
termination_by exponent.natAbs

namespace Numeral

def toFinite? (n : Numeral) : Option Finite64 :=
  let (start, dropped) := absorbDigits 0 n.whole
  let (digits, unused) := absorbDigits start n.fraction
  let exponent : Int := dropped + n.exponent - (n.fraction.length - unused : Nat)
  match Binary64.ofRatio n.negative digits 1 with
  | .finite x => x.shift exponent
  | _ => none

/-- The integer that a numeral without fraction and exponent stands for. Minus zero is none. -/
def toInt? (n : Numeral) : Option Int :=
  let magnitude := appendDigits 0 n.whole
  if n.negative then (if magnitude = 0 then none else some (-magnitude)) else some magnitude

end Numeral
end FlatStore
