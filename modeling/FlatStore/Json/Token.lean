import FlatStore.Json.Basic
import FlatStore.Number.Reading

/-!
The tokens of a JSON text, given as bytes. Where a text stops being JSON the tokens end with one that says how, so that
every text has tokens and its reader meets the faults in the order in which they stand.

A string or a number may be well formed as text and still hold no value (an unpaired surrogate, a number out of range).
A reader that only looks for the end of a value passes over it, so a flaw says what both kinds of reader meet.
-/
namespace FlatStore

/-- Why a text cannot be read on: it ends too early, or what stands there is not JSON. -/
inductive Fault where
  | truncated
  | malformed
deriving DecidableEq

/-- What is wrong with a string or a number: the fault that a reader of its value meets, and the one that a reader
meets which skips it, if it cannot even be skipped. -/
structure Flaw where
  onRead : Fault
  onSkip : Option Fault
deriving DecidableEq

def Flaw.hard (fault : Fault) : Flaw := ⟨fault, some fault⟩

inductive Token where
  | openArray
  | closeArray
  | openObject
  | closeObject
  | comma
  | colon
  | null
  | bool (b : Bool)
  | whole (number : Whole)
  | float (number : Finite64)
  | text (content : Except Flaw String)
  | flawed (flaw : Flaw)
  /-- A byte that begins no token. -/
  | stray

namespace Token

/-! ### Numbers -/

def isDigit (b : UInt8) : Bool := 48 ≤ b && b ≤ 57

/-- The digits at the start of a text, and what follows them. -/
def digits (bytes : List UInt8) : List Nat × List UInt8 :=
  ((bytes.takeWhile isDigit).map (fun b => b.toNat - 48), bytes.dropWhile isDigit)

def someDigits (bytes : List UInt8) : Except Flaw (List Nat × List UInt8) :=
  match bytes with
  | [] => .error ⟨.truncated, some .malformed⟩
  | b :: _ => if isDigit b then .ok (digits bytes) else .error (.hard .malformed)

/-- The digits of a whole part: no zero stands before another digit. -/
def leadingDigits (bytes : List UInt8) : Except Flaw (List Nat × List UInt8) := do
  let (ds, rest) ← someDigits bytes
  if ds.head? = some 0 ∧ ds.length ≠ 1 then .error (.hard .malformed) else .ok (ds, rest)

def exponent (bytes : List UInt8) : Except Flaw (Option Int × List UInt8) :=
  match bytes with
  | b :: rest =>
    if b = 0x65 ∨ b = 0x45 then do
      let (negative, unsigned) := match rest with
        | 0x2b :: r => (false, r)
        | 0x2d :: r => (true, r)
        | r => (false, r)
      let (ds, rest) ← someDigits unsigned
      let size := appendDigits 0 ds
      .ok (some (if negative then -size else size), rest)
    else .ok (none, bytes)
  | [] => .ok (none, [])

def fraction (bytes : List UInt8) : Except Flaw (Option (List Nat) × List UInt8) :=
  match bytes with
  | 0x2e :: rest => do
    let (ds, rest) ← someDigits rest
    .ok (some ds, rest)
  | bytes => .ok (none, bytes)

/-- The number of a numeral. Without fraction and exponent it is whole if it is in range and not minus zero. -/
def ofNumeral (n : Numeral) (isWhole : Bool) : Token :=
  match if isWhole then n.toInt?.bind Whole.ofInt? else none with
  | some w => .whole w
  | none =>
    match n.toFinite? with
    | some x => .float x
    | none => .flawed ⟨.malformed, none⟩

def number (bytes : List UInt8) : Token × List UInt8 :=
  let negative := bytes.head? == some 0x2d
  match scan (if negative then bytes.tail else bytes) with
  | .ok (integer, fraction, exponent, rest) =>
    (ofNumeral ⟨negative, integer, fraction.getD [], exponent.getD 0⟩ (fraction.isNone && exponent.isNone), rest)
  | .error flaw => (.flawed flaw, [])
where
  scan (bytes : List UInt8) : Except Flaw (List Nat × Option (List Nat) × Option Int × List UInt8) := do
    let (integer, rest) ← leadingDigits bytes
    let (fraction, rest) ← fraction rest
    let (exponent, rest) ← exponent rest
    .ok (integer, fraction, exponent, rest)

/-! ### Strings -/

def hexValue? (b : UInt8) : Option Nat :=
  if 48 ≤ b ∧ b ≤ 57 then some (b.toNat - 48)
  else if 97 ≤ b ∧ b ≤ 102 then some (b.toNat - 87)
  else if 65 ≤ b ∧ b ≤ 70 then some (b.toNat - 55)
  else none

/-- The 16-bit unit of the four hexadecimal digits at the start of a text. -/
def hexUnit : List UInt8 → Except Fault Nat
  | a :: b :: c :: d :: _ =>
    match hexValue? a, hexValue? b, hexValue? c, hexValue? d with
    | some a, some b, some c, some d => .ok (((a * 16 + b) * 16 + c) * 16 + d)
    | _, _, _, _ => .error .malformed
  | _ => .error .truncated

def escapedUnit : List UInt8 → Except Fault Nat
  | [] => .error .truncated
  | b :: rest =>
    if b ≠ 0x5c then .error .malformed
    else match rest with
      | [] => .error .truncated
      | u :: rest => if u ≠ 0x75 then .error .malformed else hexUnit rest

def simpleEscape? (b : UInt8) : Option UInt8 :=
  if b = 0x22 ∨ b = 0x5c ∨ b = 0x2f then some b
  else if b = 0x62 then some 0x08
  else if b = 0x66 then some 0x0c
  else if b = 0x6e then some 0x0a
  else if b = 0x72 then some 0x0d
  else if b = 0x74 then some 0x09
  else none

def isLeading (unit : Nat) : Bool := decide (0xd800 ≤ unit ∧ unit ≤ 0xdbff)
def isTrailing (unit : Nat) : Bool := decide (0xdc00 ≤ unit ∧ unit ≤ 0xdfff)

def utf8 (code : Nat) : List UInt8 := String.utf8EncodeChar (Char.ofNat code)

inductive Escape where
  | bytes (content : List UInt8) (length : Nat)
  /-- It can be skipped and not read. -/
  | unreadable (fault : Fault) (length : Nat)
  | broken (fault : Fault)

/-- The escape behind a backslash. A leading surrogate needs a trailing one in the escape after it. -/
def escape : List UInt8 → Escape
  | [] => .broken .truncated
  | b :: rest =>
    if b = 0x75 then
      match hexUnit rest with
      | .error fault => .broken fault
      | .ok unit =>
        if isTrailing unit then .unreadable .malformed 5
        else if isLeading unit then
          match escapedUnit (rest.drop 4) with
          | .error fault => .unreadable fault 5
          | .ok second =>
            if isTrailing second then .bytes (utf8 (0x10000 + (unit - 0xd800) * 0x400 + (second - 0xdc00))) 11
            else .unreadable .malformed 5
        else .bytes (utf8 unit) 5
    else match simpleEscape? b with
      | some byte => .bytes [byte] 1
      | none => .broken .malformed

/-- The string behind an opening quote, and what follows it. The next `skip` bytes have been read as part of an escape,
`done` holds the bytes of the string so far, last first, and `fault` the one that a reader of its value has met. -/
def string (skip : Nat) (done : List UInt8) (fault : Option Fault) : List UInt8 → Except Flaw String × List UInt8
  | [] => (.error ⟨fault.getD .truncated, some .truncated⟩, [])
  | b :: rest =>
    if 0 < skip then string (skip - 1) done fault rest
    else if b = 0x22 then
      match fault, String.fromUTF8? ⟨done.reverse.toArray⟩ with
      | some fault, _ => (.error ⟨fault, none⟩, rest)
      | none, some s => (.ok s, rest)
      | none, none => (.error ⟨.malformed, none⟩, rest)
    else if b = 0x5c then
      match escape rest with
      | .bytes content length => string length (content.reverse ++ done) fault rest
      | .unreadable met length => string length done (fault.or (some met)) rest
      | .broken met => (.error ⟨fault.getD met, some met⟩, [])
    else if b < 0x20 then (.error ⟨fault.getD .malformed, some .malformed⟩, [])
    else string 0 (b :: done) fault rest

/-! ### Words -/

def word (token : Token) : List UInt8 → List UInt8 → Token × List UInt8
  | [], bytes => (token, bytes)
  | _ :: _, [] => (.flawed (.hard .truncated), [])
  | e :: expected, b :: rest => if b = e then word token expected rest else (.flawed (.hard .malformed), [])

def isBlank (b : UInt8) : Bool := b == 0x20 || b == 0x0a || b == 0x0d || b == 0x09

def punctuation? (b : UInt8) : Option Token :=
  if b = 0x5b then some .openArray
  else if b = 0x5d then some .closeArray
  else if b = 0x7b then some .openObject
  else if b = 0x7d then some .closeObject
  else if b = 0x2c then some .comma
  else if b = 0x3a then some .colon
  else none

def word? (b : UInt8) : Option (Token × List UInt8) :=
  if b = 0x6e then some (.null, [0x75, 0x6c, 0x6c])
  else if b = 0x74 then some (.bool true, [0x72, 0x75, 0x65])
  else if b = 0x66 then some (.bool false, [0x61, 0x6c, 0x73, 0x65])
  else none

/-- The token that starts with a byte that is not blank, and what follows it. Nothing follows a token that stops every
reader. -/
def next (b : UInt8) (rest : List UInt8) : Token × List UInt8 :=
  match punctuation? b, word? b with
  | some token, _ => (token, rest)
  | none, some (token, letters) => word token letters rest
  | none, none =>
    if b = 0x22 then (.text (string 0 [] none rest).1, (string 0 [] none rest).2)
    else if b = 0x2d ∨ isDigit b then number (b :: rest)
    else (.stray, [])

/-! ### What follows a token is shorter than the text it was found in -/

private theorem bind_ok {ε α β : Type} {x : Except ε α} {f : α → Except ε β} {b : β} (h : (x >>= f) = .ok b) :
    ∃ a, x = .ok a ∧ f a = .ok b := by
  cases x with
  | error e => cases h
  | ok a => exact ⟨a, rfl, h⟩

theorem someDigits_length {bytes rest : List UInt8} {ds : List Nat} (h : someDigits bytes = .ok (ds, rest)) :
    rest.length < bytes.length := by
  unfold someDigits at h
  split at h
  · cases h
  · next b tail =>
    split at h
    · next digit =>
      obtain ⟨-, rfl⟩ := Prod.mk.inj (Except.ok.inj h)
      have := (List.dropWhile_suffix (l := tail) isDigit).length_le
      simp [digit]
      omega
    · cases h

theorem leadingDigits_length {bytes rest : List UInt8} {ds : List Nat} (h : leadingDigits bytes = .ok (ds, rest)) :
    rest.length < bytes.length := by
  obtain ⟨⟨digits, after⟩, scanned, h⟩ := bind_ok h
  dsimp only at h
  split at h
  · cases h
  · obtain ⟨-, rfl⟩ := Prod.mk.inj (Except.ok.inj h)
    exact someDigits_length scanned

theorem fraction_length {bytes rest : List UInt8} {ds : Option (List Nat)} (h : fraction bytes = .ok (ds, rest)) :
    rest.length ≤ bytes.length := by
  unfold fraction at h
  split at h
  · next tail =>
    obtain ⟨⟨digits, after⟩, scanned, h⟩ := bind_ok h
    obtain ⟨-, rfl⟩ := Prod.mk.inj (Except.ok.inj h)
    have := someDigits_length scanned
    simp
    omega
  · obtain ⟨-, rfl⟩ := Prod.mk.inj (Except.ok.inj h)
    exact Nat.le_refl _

theorem exponent_length {bytes rest : List UInt8} {e : Option Int} (h : exponent bytes = .ok (e, rest)) :
    rest.length ≤ bytes.length := by
  unfold exponent at h
  split at h
  · next b tail =>
    split at h
    · obtain ⟨⟨digits, after⟩, scanned, h⟩ := bind_ok h
      obtain ⟨-, rfl⟩ := Prod.mk.inj (Except.ok.inj h)
      have := someDigits_length scanned
      grind
    · obtain ⟨-, rfl⟩ := Prod.mk.inj (Except.ok.inj h)
      exact Nat.le_refl _
  · obtain ⟨-, rfl⟩ := Prod.mk.inj (Except.ok.inj h)
    exact Nat.le_refl _

theorem number_length (b : UInt8) (rest : List UInt8) : (number (b :: rest)).2.length ≤ rest.length := by
  unfold number
  dsimp only
  split
  · next scanned =>
    obtain ⟨⟨whole, after⟩, first, scanned⟩ := bind_ok scanned
    obtain ⟨⟨fraction, after'⟩, second, scanned⟩ := bind_ok scanned
    obtain ⟨⟨exponent, after''⟩, third, scanned⟩ := bind_ok scanned
    cases scanned
    have := leadingDigits_length first
    have := fraction_length second
    have := exponent_length third
    dsimp only at *
    grind
  · simp

theorem string_length (skip : Nat) (done : List UInt8) (fault : Option Fault) (bytes : List UInt8) :
    (string skip done fault bytes).2.length ≤ bytes.length := by
  fun_induction string skip done fault bytes <;> grind

theorem word_length (token : Token) (expected bytes : List UInt8) :
    (word token expected bytes).2.length ≤ bytes.length := by
  fun_induction word token expected bytes <;> grind

theorem next_length (b : UInt8) (rest : List UInt8) : (next b rest).2.length ≤ rest.length := by
  unfold next
  split
  · exact Nat.le_refl _
  · exact word_length ..
  · split
    · exact string_length ..
    · split
      · exact number_length ..
      · exact Nat.zero_le _

end Token

/-- The tokens of a text, up to the first that no reader gets past. -/
def Token.all : List UInt8 → List Token
  | [] => []
  | b :: rest =>
    if Token.isBlank b then Token.all rest
    else (Token.next b rest).1 :: Token.all (Token.next b rest).2
termination_by bytes => bytes.length
decreasing_by
  · simp
  · have := Token.next_length b rest
    simp
    omega

end FlatStore
