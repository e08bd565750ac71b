import FlatStore.Number.Shortest

/-!
The written form of numbers. The digits are the shortest ones that read back; how they are laid out is a record of
decisions, and a format that writes numbers owns one such record.
-/
namespace FlatStore

structure NumberLayout where
  /-- The leading exponents that are written without an exponent, all of them if there is no range. -/
  positional : Option (Int × Int)
  /-- What follows the digits of a whole number that is written without an exponent. -/
  whole : String
  tie : Tie

def NumberLayout.isPositional (layout : NumberLayout) (leading : Int) : Bool :=
  match layout.positional with
  | none => true
  | some (least, bound) => decide (least ≤ leading ∧ leading < bound)

def zeros (n : Nat) : String := String.ofList (List.replicate n '0')

def Decimal.positional (d : Decimal) (whole : String) : String :=
  let ds := Nat.toDigits 10 d.digits
  let leading : Int := d.exponent + ds.length - 1
  if 0 ≤ d.exponent then String.ofList ds ++ zeros d.exponent.toNat ++ whole
  else if 0 ≤ leading then
    String.ofList (ds.take (leading.toNat + 1)) ++ "." ++ String.ofList (ds.drop (leading.toNat + 1))
  else "0." ++ zeros (-leading - 1).toNat ++ String.ofList ds

def Decimal.scientific (d : Decimal) : String :=
  let ds := Nat.toDigits 10 d.digits
  let leading : Int := d.exponent + ds.length - 1
  let fraction := if ds.length ≤ 1 then "" else "." ++ String.ofList (ds.drop 1)
  let mark := if leading < 0 then "e-" else "e+"
  String.ofList (ds.take 1) ++ fraction ++ mark ++ toString leading.natAbs

/-- A finite number in a layout. The sign of a zero is written. -/
def Finite64.text (layout : NumberLayout) (x : Finite64) : String :=
  let sign := if x.negative then "-" else ""
  if x.word = 0 then sign ++ "0" ++ layout.whole
  else
    let d := x.shortest layout.tie
    let leading : Int := d.exponent + digitCount d.digits - 1
    sign ++ (if layout.isPositional leading then d.positional layout.whole else d.scientific)

/-- Plain text has no exponents, and a whole number looks like an integer. -/
def plainLayout : NumberLayout := ⟨none, "", .upwards⟩

def Binary64.text : Binary64 → String
  | .finite x => x.text plainLayout
  | .infinite negative => if negative then "-inf" else "inf"
  | .nan => "NaN"

end FlatStore
