import FlatStore.Json.Token
import FlatStore.Proofs.Schema
import Mathlib.Data.List.Chain

/-!
The lexical grammar of JSON, and its tokens. A lexeme is a stretch of a text that a token stands for; blanks stand
between lexemes. Whatever follows a lexeme, its token is found there (`Token.all_lexeme`), unless the lexeme is a number
that goes on. The other way round every token that a reader gets past has a lexeme (`Token.lexeme_of_all`).
-/
namespace FlatStore

/-- A computation succeeds whatever its errors are turned into. -/
theorem mapError_eq_ok_iff {ε δ α : Type} {x : Except ε α} {f : ε → δ} {a : α} : x.mapError f = .ok a ↔ x = .ok a := by
  cases x <;> simp [Except.mapError]

namespace Token

/-! ### The grammar of numbers -/

/-- Digits, at least one. -/
def SomeDigits (text : List UInt8) : Prop := text ≠ [] ∧ ∀ b ∈ text, isDigit b = true

def digitValues (text : List UInt8) : List Nat := text.map fun b => b.toNat - 48

/-- The whole part of a number: a zero does not stand before another digit. -/
structure IsWholePart (text : List UInt8) : Prop where
  digits : SomeDigits text
  zero : text.head? = some 0x30 → text = [0x30]

inductive IsFraction : List UInt8 → Option (List Nat) → Prop
  | nothing : IsFraction [] none
  | digits {text} : SomeDigits text → IsFraction (0x2e :: text) (some (digitValues text))

inductive IsSign : List UInt8 → Bool → Prop
  | nothing : IsSign [] false
  | plus : IsSign [0x2b] false
  | minus : IsSign [0x2d] true

inductive IsExponent : List UInt8 → Option Int → Prop
  | nothing : IsExponent [] none
  | digits {mark sign negative text} : mark = 0x65 ∨ mark = 0x45 → IsSign sign negative → SomeDigits text →
      IsExponent (mark :: (sign ++ text))
        (some (if negative then -(appendDigits 0 (digitValues text) : Int) else appendDigits 0 (digitValues text)))

/-- A number and its token. Only a minus may stand before it. -/
inductive IsNumber : List UInt8 → Token → Prop
  | mk {sign negative whole fraction part exponent size} : IsSign sign negative → sign ≠ [0x2b] → IsWholePart whole →
      IsFraction fraction part → IsExponent exponent size →
      IsNumber (sign ++ (whole ++ (fraction ++ exponent)))
        (ofNumeral ⟨negative, digitValues whole, part.getD [], size.getD 0⟩ (part.isNone && size.isNone))

/-! ### The grammar of strings -/

def IsHex (b : UInt8) : Prop := 48 ≤ b ∧ b ≤ 57 ∨ 65 ≤ b ∧ b ≤ 70 ∨ 97 ≤ b ∧ b ≤ 102

/-- A byte or an escape inside of a string. -/
inductive IsUnit : List UInt8 → Prop
  | plain {b} : 0x20 ≤ b → b ≠ 0x22 → b ≠ 0x5c → IsUnit [b]
  | letter {b} : b ∈ [0x22, 0x5c, 0x2f, 0x62, 0x66, 0x6e, 0x72, 0x74] → IsUnit [0x5c, b]
  | numeric {a b c d} : IsHex a → IsHex b → IsHex c → IsHex d → IsUnit [0x5c, 0x75, a, b, c, d]

/-- What stands between the quotes of a string. -/
inductive IsContent : List UInt8 → Prop
  | nil : IsContent []
  | cons {unit rest} : IsUnit unit → IsContent rest → IsContent (unit ++ rest)

/-! ### Lexemes -/

/-- A stretch of text that a token stands for. -/
inductive Lexeme : List UInt8 → Token → Prop
  | punctuation {b token} : punctuation? b = some token → Lexeme [b] token
  | word {b token letters} : word? b = some (token, letters) → Lexeme (b :: letters) token
  | string {content} : IsContent content →
      Lexeme (0x22 :: (content ++ [0x22])) (.text (string 0 [] none (content ++ [0x22])).1)
  | number {text token} : IsNumber text token → Lexeme text token

def Blank (text : List UInt8) : Prop := ∀ b ∈ text, isBlank b = true

/-- A text that is a row of lexemes with blanks around them. -/
inductive Lexes : List UInt8 → List Token → Prop
  | nil {blanks} : Blank blanks → Lexes blanks []
  | cons {blanks lexeme token rest tokens} : Blank blanks → Lexeme lexeme token → Lexes rest tokens →
      Lexes (blanks ++ (lexeme ++ rest)) (token :: tokens)

/-- Whether a token stops every reader. -/
def stops : Token → Bool
  | .text (.error ⟨_, some _⟩) | .flawed ⟨_, some _⟩ | .stray => true
  | _ => false

def isNumber : Token → Bool
  | .whole _ | .float _ | .flawed _ => true
  | _ => false

/-- Whether a byte may stand behind the first one of a number. -/
def goesOn (b : UInt8) : Bool := isDigit b || b == 0x2e || b == 0x65 || b == 0x45

/-- Whether a text does not go on with a number. -/
def Ends (rest : List UInt8) : Prop := ∀ b ∈ rest.head?, goesOn b = false

/-- Whether the last number of a text does not go on in what follows it. -/
def Apart (text rest : List UInt8) : Prop := ∀ last ∈ text.getLast?, isDigit last = true → Ends rest

/-! ### Numbers are found -/

section
variable {text rest : List UInt8}

theorem digits_append (each : ∀ b ∈ text, isDigit b = true) (stop : ∀ b ∈ rest.head?, isDigit b = false) :
    digits (text ++ rest) = (digitValues text, rest) := by
  have behind : rest.takeWhile isDigit = [] ∧ rest.dropWhile isDigit = rest := by
    cases rest with
    | nil => exact ⟨rfl, rfl⟩
    | cons b rest => simp [stop b rfl]
  rw [digits, List.takeWhile_append_of_pos each, List.dropWhile_append_of_pos each, behind.1, behind.2,
    List.append_nil, digitValues]

theorem someDigits_append (digits : SomeDigits text) (stop : ∀ b ∈ rest.head?, isDigit b = false) :
    someDigits (text ++ rest) = .ok (digitValues text, rest) := by
  obtain ⟨nonempty, each⟩ := digits
  rw [← digits_append each stop]
  cases text with
  | nil => exact absurd rfl nonempty
  | cons b more => simp [someDigits, each b List.mem_cons_self]

theorem leadingDigits_append (whole : IsWholePart text) (stop : ∀ b ∈ rest.head?, isDigit b = false) :
    leadingDigits (text ++ rest) = .ok (digitValues text, rest) := by
  have lone : ¬((digitValues text).head? = some 0 ∧ (digitValues text).length ≠ 1) := by
    rintro ⟨zero, several⟩
    obtain ⟨b, more, rfl⟩ := List.exists_cons_of_ne_nil whole.digits.1
    have digit := whole.digits.2 b List.mem_cons_self
    have first : b = 0x30 := by
      simp only [digitValues, List.map_cons, List.head?_cons, Option.some.injEq] at zero
      simp only [isDigit, Bool.and_eq_true, decide_eq_true_eq, UInt8.le_iff_toNat_le] at digit
      have least : (48 : UInt8).toNat = 48 := rfl
      exact UInt8.toNat_inj.1 (by have : (0x30 : UInt8).toNat = 48 := rfl; omega)
    rw [whole.zero (by rw [first]; rfl)] at several
    exact several rfl
  rw [leadingDigits, someDigits_append whole.digits stop]
  exact if_neg lone

theorem fraction_append {part : Option (List Nat)} (is : IsFraction text part)
    (stop : ∀ b ∈ rest.head?, isDigit b = false ∧ b ≠ 0x2e) : fraction (text ++ rest) = .ok (part, rest) := by
  cases is with
  | nothing =>
    unfold fraction
    split
    · next head => exact absurd rfl (stop 0x2e (by simp_all)).2
    · rfl
  | @digits text some =>
    change (someDigits (text ++ rest) >>= _) = _
    rw [someDigits_append some fun b head => (stop b head).1]
    rfl

theorem exponent_append {size : Option Int} (is : IsExponent text size) (ends : Ends rest) :
    exponent (text ++ rest) = .ok (size, rest) := by
  have stop : ∀ b ∈ rest.head?, isDigit b = false := fun b head => by
    have := ends b head
    simp_all [goesOn]
  cases is with
  | nothing =>
    cases rest with
    | nil => rfl
    | cons b rest =>
      have := ends b rfl
      simp only [goesOn, Bool.or_eq_false_iff, beq_eq_false_iff_ne] at this
      simp [exponent, this]
  | @digits mark sign negative text marked signed some =>
    have read := someDigits_append some stop
    rw [List.cons_append, List.append_assoc]
    unfold exponent
    dsimp only
    rw [if_pos marked]
    cases signed with
    | nothing =>
      obtain ⟨first, more, rfl⟩ := List.exists_cons_of_ne_nil some.1
      have digit := some.2 first List.mem_cons_self
      rw [List.nil_append]
      split
      · simp_all [isDigit]
      · simp_all [isDigit]
      · exact congrArg (· >>= _) read
    | plus => exact congrArg (· >>= _) read
    | minus => exact congrArg (· >>= _) read

/-- What follows the digits before an exponent is none. -/
theorem IsExponent.stop {size : Option Int} (is : IsExponent text size) (ends : Ends rest) :
    ∀ b ∈ (text ++ rest).head?, isDigit b = false ∧ b ≠ 0x2e := by
  intro b head
  cases is with
  | nothing =>
    have := ends b head
    simp_all [goesOn]
  | digits marked =>
    obtain rfl : _ = b := by simpa using head
    rcases marked with rfl | rfl <;> decide

theorem IsFraction.stop {part : Option (List Nat)} (is : IsFraction text part)
    (stop : ∀ b ∈ rest.head?, isDigit b = false ∧ b ≠ 0x2e) : ∀ b ∈ (text ++ rest).head?, isDigit b = false := by
  intro b head
  cases is with
  | nothing => exact (stop b head).1
  | digits =>
    obtain rfl : _ = b := by simpa using head
    decide

/-- A number is found whatever follows it, unless that goes on with it. -/
theorem number_append {token : Token} (is : IsNumber text token) (ends : Ends rest) :
    number (text ++ rest) = (token, rest) := by
  obtain ⟨signed, noPlus, whole, fractional, exponential⟩ := is
  rename_i sign negative digits fraction part exponent size
  have scanned : number.scan (digits ++ (fraction ++ (exponent ++ rest))) =
      .ok (digitValues digits, part, size, rest) := by
    have behind := exponential.stop ends
    rw [number.scan, leadingDigits_append whole (fractional.stop behind), ok_bind]
    dsimp only
    rw [fraction_append fractional behind, ok_bind]
    dsimp only
    rw [exponent_append exponential ends]
    rfl
  simp only [List.append_assoc]
  cases signed with
  | nothing =>
    have unsigned : ((digits ++ (fraction ++ (exponent ++ rest))).head? == some 0x2d) = false := by
      obtain ⟨b, more, rfl⟩ := List.exists_cons_of_ne_nil whole.digits.1
      have digit := whole.digits.2 b List.mem_cons_self
      have other : b ≠ 0x2d := by
        rintro rfl
        cases digit
      simpa using other
    simp only [List.nil_append, number, unsigned, Bool.false_eq_true, if_false, scanned]
  | plus => exact absurd rfl noPlus
  | minus => simp [number, scanned]

/-! ### Numbers that are found -/

theorem someDigits_sound {ds : List Nat} (read : someDigits text = .ok (ds, rest)) :
    ∃ taken, SomeDigits taken ∧ ds = digitValues taken ∧ text = taken ++ rest := by
  unfold someDigits at read
  split at read
  · cases read
  · next b more =>
    split at read
    · next digit =>
      obtain ⟨rfl, rfl⟩ := Prod.mk.inj (Except.ok.inj read)
      refine ⟨(b :: more).takeWhile isDigit, ⟨by simp [digit], List.all_eq_true.1 List.all_takeWhile⟩, rfl, ?_⟩
      exact List.takeWhile_append_dropWhile.symm
    · cases read

theorem someDigits_error {flaw : Flaw} (failed : someDigits text = .error flaw) : flaw.onSkip ≠ none := by
  unfold someDigits at failed
  split at failed
  · cases failed
    exact Option.some_ne_none _
  · split at failed
    · cases failed
    · cases failed
      exact Option.some_ne_none _

theorem leadingDigits_sound {ds : List Nat} (read : leadingDigits text = .ok (ds, rest)) :
    ∃ taken, IsWholePart taken ∧ ds = digitValues taken ∧ text = taken ++ rest := by
  obtain ⟨⟨digits, after⟩, scanned, checked⟩ := bind_eq_ok_iff.1 read
  obtain ⟨taken, some, rfl, rfl⟩ := someDigits_sound scanned
  dsimp only at checked
  split at checked
  · cases checked
  · next lone =>
    obtain ⟨rfl, rfl⟩ := Prod.mk.inj (Except.ok.inj checked)
    refine ⟨taken, ⟨some, fun zero => ?_⟩, rfl, rfl⟩
    cases taken with
    | nil => cases zero
    | cons b more =>
      obtain rfl : b = 0x30 := by simpa using zero
      have single : more = [] := by simpa [digitValues] using lone
      rw [single]

theorem fraction_sound {part : Option (List Nat)} (read : fraction text = .ok (part, rest)) :
    ∃ taken, IsFraction taken part ∧ text = taken ++ rest := by
  unfold fraction at read
  split at read
  · obtain ⟨⟨digits, after⟩, scanned, done⟩ := bind_eq_ok_iff.1 read
    obtain ⟨taken, some, rfl, rfl⟩ := someDigits_sound scanned
    obtain ⟨rfl, rfl⟩ := Prod.mk.inj (Except.ok.inj done)
    exact ⟨0x2e :: taken, .digits some, rfl⟩
  · obtain ⟨rfl, rfl⟩ := Prod.mk.inj (Except.ok.inj read)
    exact ⟨[], .nothing, rfl⟩

theorem exponent_sound {size : Option Int} (read : exponent text = .ok (size, rest)) :
    ∃ taken, IsExponent taken size ∧ text = taken ++ rest := by
  unfold exponent at read
  split at read
  · next b more =>
    split at read
    · next marked =>
      split at read
      next negative unsigned cut =>
      obtain ⟨sign, signed, rfl⟩ : ∃ sign, IsSign sign negative ∧ more = sign ++ unsigned := by
        split at cut
        · cases cut
          exact ⟨_, .plus, rfl⟩
        · cases cut
          exact ⟨_, .minus, rfl⟩
        · cases cut
          exact ⟨_, .nothing, rfl⟩
      obtain ⟨⟨digits, after⟩, scanned, done⟩ := bind_eq_ok_iff.1 read
      obtain ⟨taken, some, rfl, rfl⟩ := someDigits_sound scanned
      obtain ⟨rfl, rfl⟩ := Prod.mk.inj (Except.ok.inj done)
      exact ⟨b :: (sign ++ taken), .digits marked signed some, by simp⟩
    · obtain ⟨rfl, rfl⟩ := Prod.mk.inj (Except.ok.inj read)
      exact ⟨[], .nothing, rfl⟩
  · obtain ⟨rfl, rfl⟩ := Prod.mk.inj (Except.ok.inj read)
    exact ⟨[], .nothing, rfl⟩

/-- A number that is cut short stops every reader. -/
theorem scan_error {flaw : Flaw} (failed : number.scan text = .error flaw) : flaw.onSkip ≠ none := by
  rcases bind_eq_error_iff.1 failed with early | ⟨⟨digits, after⟩, -, failed⟩
  · rcases bind_eq_error_iff.1 early with none | ⟨⟨digits, after⟩, -, zero⟩
    · exact someDigits_error none
    · dsimp only at zero
      split at zero
      · cases zero
        nofun
      · cases zero
  rcases bind_eq_error_iff.1 failed with early | ⟨⟨part, after⟩, -, failed⟩
  · unfold fraction at early
    split at early
    · rcases bind_eq_error_iff.1 early with none | ⟨⟨digits, after⟩, -, done⟩
      · exact someDigits_error none
      · cases done
    · cases early
  rcases bind_eq_error_iff.1 failed with early | ⟨⟨size, after⟩, -, done⟩
  · unfold exponent at early
    split at early
    · split at early
      · rcases bind_eq_error_iff.1 early with none | ⟨⟨digits, after⟩, -, done⟩
        · exact someDigits_error none
        · cases done
      · cases early
    · cases early
  · cases done

/-- A number that a reader gets past has the form of one. -/
theorem number_sound {token : Token} (found : number text = (token, rest)) (passed : token.stops = false) :
    ∃ taken, IsNumber taken token ∧ text = taken ++ rest := by
  -- the sign is taken off first
  obtain ⟨sign, negative, unsigned, signed, noPlus, cut⟩ : ∃ sign negative unsigned, IsSign sign negative ∧
      sign ≠ [0x2b] ∧ text = sign ++ unsigned ∧ (text.head? == some 0x2d) = negative ∧
      (if text.head? == some 0x2d then text.tail else text) = unsigned := by
    cases head : text.head? == some 0x2d with
    | true =>
      cases text with
      | nil => cases head
      | cons b more =>
        obtain rfl : b = 0x2d := by simpa using head
        exact ⟨[0x2d], _, more, .minus, by decide, rfl, rfl, rfl⟩
    | false => exact ⟨[], _, text, .nothing, by decide, rfl, rfl, rfl⟩
  obtain ⟨same, isNegative, behind⟩ := cut
  simp only [number, behind] at found
  rw [isNegative] at found
  split at found
  · next scanned =>
    obtain ⟨rfl, rfl⟩ := Prod.mk.inj found
    obtain ⟨⟨digits, after⟩, first, scanned⟩ := bind_eq_ok_iff.1 scanned
    obtain ⟨⟨part, after'⟩, second, scanned⟩ := bind_eq_ok_iff.1 scanned
    obtain ⟨⟨size, after''⟩, third, scanned⟩ := bind_eq_ok_iff.1 scanned
    cases scanned
    obtain ⟨whole, isWhole, rfl, rfl⟩ := leadingDigits_sound first
    obtain ⟨fraction, isFraction, rfl⟩ := fraction_sound second
    obtain ⟨exponent, isExponent, rfl⟩ := exponent_sound third
    exact ⟨_, .mk signed noPlus isWhole isFraction isExponent, by simp [same]⟩
  · next flaw failed =>
    obtain ⟨rfl, -⟩ := Prod.mk.inj found
    obtain ⟨onRead, _ | fault⟩ := flaw
    · exact absurd rfl (scan_error failed)
    · cases passed

end

/-! ### Escapes -/

section
variable {a b c d : UInt8} {text rest : List UInt8}

theorem IsContent.append (first : IsContent text) (second : IsContent rest) : IsContent (text ++ rest) := by
  induction first with
  | nil => exact second
  | cons unit _ ih =>
    rw [List.append_assoc]
    exact .cons unit ih

theorem isSome_hexValue?_iff : (hexValue? b).isSome ↔ IsHex b := by
  unfold hexValue? IsHex
  split
  · simp_all
  · split
    · simp_all
    · split <;> simp_all

/-- Four hexadecimal digits are a unit. -/
theorem hexUnit_hex (first : IsHex a) (second : IsHex b) (third : IsHex c) (fourth : IsHex d) :
    ∃ unit, ∀ rest, hexUnit (a :: b :: c :: d :: rest) = .ok unit := by
  obtain ⟨w, one⟩ := Option.isSome_iff_exists.1 (isSome_hexValue?_iff.2 first)
  obtain ⟨x, two⟩ := Option.isSome_iff_exists.1 (isSome_hexValue?_iff.2 second)
  obtain ⟨y, three⟩ := Option.isSome_iff_exists.1 (isSome_hexValue?_iff.2 third)
  obtain ⟨z, four⟩ := Option.isSome_iff_exists.1 (isSome_hexValue?_iff.2 fourth)
  exact ⟨_, fun rest => by rw [hexUnit, one, two, three, four]⟩

theorem hexUnit_sound {unit : Nat} (read : hexUnit text = .ok unit) :
    ∃ a b c d rest, text = a :: b :: c :: d :: rest ∧ IsHex a ∧ IsHex b ∧ IsHex c ∧ IsHex d := by
  unfold hexUnit at read
  split at read
  · next a b c d rest =>
    split at read
    · next one two three four =>
      refine ⟨a, b, c, d, rest, rfl, ?_, ?_, ?_, ?_⟩ <;> exact isSome_hexValue?_iff.1 (Option.isSome_iff_exists.2 ⟨_, ‹_›⟩)
    · cases read
  · cases read

theorem escapedUnit_sound {unit : Nat} (read : escapedUnit text = .ok unit) :
    ∃ a b c d rest, text = 0x5c :: 0x75 :: a :: b :: c :: d :: rest ∧ IsHex a ∧ IsHex b ∧ IsHex c ∧ IsHex d := by
  unfold escapedUnit at read
  split at read
  · cases read
  · split at read
    · cases read
    · next first =>
      split at read
      · cases read
      · split at read
        · cases read
        · next second =>
          obtain ⟨a, b, c, d, rest, rfl, hex⟩ := hexUnit_sound read
          exact ⟨a, b, c, d, rest, by rw [not_not.1 first, not_not.1 second], hex⟩

theorem isSome_simpleEscape?_iff :
    (simpleEscape? b).isSome ↔ b ∈ [0x22, 0x5c, 0x2f, 0x62, 0x66, 0x6e, 0x72, 0x74] := by
  simp only [simpleEscape?, List.mem_cons, List.not_mem_nil, or_false]
  grind

/-- How many bytes an escape takes, if it can be passed. -/
def Escape.length? : Escape → Option Nat
  | .bytes _ length | .unreadable _ length => some length
  | .broken _ => none

/-- An escape that is passed is one, or is two that belong together. -/
theorem escape_sound {length : Nat} (passed : (escape text).length? = some length) :
    ∃ taken rest, text = taken ++ rest ∧ taken.length = length ∧ IsContent (0x5c :: taken) := by
  have one : ∀ {unit}, IsUnit unit → IsContent unit := fun is => by simpa using IsContent.cons is .nil
  unfold escape at passed
  split at passed
  · cases passed
  · next b rest =>
    split at passed
    · next numeric =>
      subst numeric
      split at passed
      · cases passed
      · next unit read =>
        obtain ⟨a, b, c, d, rest, rfl, ha, hb, hc, hd⟩ := hexUnit_sound read
        have single : ∃ taken tail, 0x75 :: a :: b :: c :: d :: rest = taken ++ tail ∧ taken.length = 5 ∧
            IsContent (0x5c :: taken) := ⟨[0x75, a, b, c, d], rest, rfl, rfl, one (.numeric ha hb hc hd)⟩
        split at passed
        · cases passed
          exact single
        · split at passed
          · split at passed
            · cases passed
              exact single
            · next second =>
              split at passed
              · obtain ⟨e, f, g, h, tail, behind, he, hf, hg, hh⟩ := escapedUnit_sound second
                obtain rfl : rest = _ := behind
                cases passed
                exact ⟨[0x75, a, b, c, d, 0x5c, 0x75, e, f, g, h], tail, rfl, rfl,
                  .cons (.numeric ha hb hc hd) (one (.numeric he hf hg hh))⟩
              · cases passed
                exact single
          · cases passed
            exact single
    · split at passed
      · next byte letter =>
        cases passed
        exact ⟨[b], rest, rfl, rfl, one (.letter (isSome_simpleEscape?_iff.1 (Option.isSome_iff_exists.2 ⟨byte, letter⟩)))⟩
      · cases passed

/-- Behind a unit stands another numeric escape or none, whatever follows the string. -/
theorem escapedUnit_content (content : IsContent text) :
    (∃ fault, ∀ rest, escapedUnit (text ++ 0x22 :: rest) = .error fault) ∨
      ∃ unit taken behind, text = taken ++ behind ∧ taken.length = 6 ∧ IsContent behind ∧
        ∀ rest, escapedUnit (text ++ 0x22 :: rest) = .ok unit := by
  cases content with
  | nil => exact .inl ⟨.malformed, fun _ => rfl⟩
  | cons unit behind =>
    cases unit with
    | plain _ _ noEscape => exact .inl ⟨.malformed, fun _ => by simp [escapedUnit, noEscape]⟩
    | @letter b letter =>
      have other : b ≠ 0x75 := by
        rintro rfl
        revert letter
        decide
      exact .inl ⟨.malformed, fun _ => by simp [escapedUnit, other]⟩
    | numeric ha hb hc hd =>
      obtain ⟨unit, read⟩ := hexUnit_hex ha hb hc hd
      exact .inr ⟨unit, _, _, rfl, rfl, behind, fun _ => by simp [escapedUnit, read]⟩

/-! ### Strings are found -/

variable {done : List UInt8} {fault : Option Fault}

/-- What is read behind a closing quote. -/
def closed (done : List UInt8) (fault : Option Fault) : Except Flaw String :=
  match fault, String.fromUTF8? ⟨done.reverse.toArray⟩ with
  | some fault, _ => .error ⟨fault, none⟩
  | none, some s => .ok s
  | none, none => .error ⟨.malformed, none⟩

theorem string_quote : string 0 done fault (0x22 :: rest) = (closed done fault, rest) := by
  rw [string.eq_def, closed.eq_def]
  dsimp only
  rw [if_neg (Nat.lt_irrefl 0), if_pos rfl]
  cases fault with
  | some fault => rfl
  | none => cases String.fromUTF8? ⟨done.reverse.toArray⟩ <;> rfl

theorem string_escape : string 0 done fault (0x5c :: rest) =
    match escape rest with
    | .bytes content length => string length (content.reverse ++ done) fault rest
    | .unreadable met length => string length done (fault.or (some met)) rest
    | .broken met => (.error ⟨fault.getD met, some met⟩, []) := by
  rw [string.eq_def]
  dsimp only
  rw [if_neg (Nat.lt_irrefl 0), if_neg (by decide)]
  refine (if_pos rfl).trans ?_
  cases escape rest <;> rfl

theorem string_plain (noControl : 0x20 ≤ b) (noQuote : b ≠ 0x22) (noEscape : b ≠ 0x5c) :
    string 0 done fault (b :: rest) = string 0 (b :: done) fault rest := by
  rw [string.eq_def]
  dsimp only
  rw [if_neg (Nat.lt_irrefl 0), if_neg noQuote, if_neg noEscape, if_neg (UInt8.not_lt.2 noControl)]

theorem string_control (control : b < 0x20) :
    string 0 done fault (b :: rest) = (.error ⟨fault.getD .malformed, some .malformed⟩, []) := by
  have noQuote : b ≠ 0x22 := by
    rintro rfl
    revert control
    decide
  have noEscape : b ≠ 0x5c := by
    rintro rfl
    revert control
    decide
  rw [string.eq_def]
  dsimp only
  rw [if_neg (Nat.lt_irrefl 0), if_neg noQuote, if_neg noEscape, if_pos control]

theorem string_skip (taken : List UInt8) : string taken.length done fault (taken ++ rest) = string 0 done fault rest := by
  induction taken with
  | nil => rfl
  | cons b more ih =>
    rw [List.cons_append, string.eq_def]
    exact ih

/-- A string ends at its closing quote, and what is read of it does not depend on what follows. -/
theorem string_append (content : IsContent text) (done : List UInt8) (fault : Option Fault) (rest : List UInt8) :
    string 0 done fault (text ++ 0x22 :: rest) = ((string 0 done fault (text ++ [0x22])).1, rest) := by
  induction size : text.length using Nat.strongRecOn generalizing text done fault with
  | _ n ih =>
    -- behind what is passed stands a shorter content
    have jump : ∀ (taken : List UInt8) {behind : List UInt8} (met : Escape), text = 0x5c :: (taken ++ behind) → IsContent behind →
        met.length? = some taken.length → (∀ rest, escape (taken ++ (behind ++ 0x22 :: rest)) = met) →
        string 0 done fault (text ++ 0x22 :: rest) = ((string 0 done fault (text ++ [0x22])).1, rest) := by
      intro taken behind met same content length read
      have less : behind.length < n := by
        rw [← size, same, List.length_cons, List.length_append]
        omega
      have next : ∀ rest, string 0 done fault (text ++ 0x22 :: rest) =
          match met with
          | .bytes content length => string length (content.reverse ++ done) fault (taken ++ (behind ++ 0x22 :: rest))
          | .unreadable met length => string length done (fault.or (some met)) (taken ++ (behind ++ 0x22 :: rest))
          | .broken met => (.error ⟨fault.getD met, some met⟩, []) := by
        intro rest
        rw [same, List.cons_append, List.append_assoc, string_escape, read]
      rw [next, next]
      cases met with
      | bytes content length =>
        cases length
        dsimp only
        rw [string_skip, string_skip]
        exact ih _ less ‹_› _ _ rfl
      | unreadable met length =>
        cases length
        dsimp only
        rw [string_skip, string_skip]
        exact ih _ less content _ _ rfl
      | broken => cases length
    cases content with
    | nil => rw [List.nil_append, List.nil_append, string_quote, string_quote]
    | @cons unit tail is content =>
      cases is with
      | plain noControl noQuote noEscape =>
        rw [List.singleton_append, List.cons_append, List.cons_append, string_plain noControl noQuote noEscape,
          string_plain noControl noQuote noEscape]
        exact ih _ (by simp [← size]) content _ _ rfl
      | @letter b letter =>
        obtain ⟨byte, stands⟩ := Option.isSome_iff_exists.1 (isSome_simpleEscape?_iff.2 letter)
        have other : b ≠ 0x75 := by
          rintro rfl
          cases stands
        exact jump [b] (.bytes [byte] 1) rfl content rfl fun rest => by simp [escape, other, stands]
      | @numeric a b c d ha hb hc hd =>
        obtain ⟨unit, read⟩ := hexUnit_hex ha hb hc hd
        have single : ∀ met : Escape, met.length? = some 5 →
            (∀ rest, escape (0x75 :: a :: b :: c :: d :: (tail ++ 0x22 :: rest)) = met) → _ :=
          fun met length read => jump [0x75, a, b, c, d] met rfl content length read
        by_cases trailing : isTrailing unit = true
        · exact single (.unreadable .malformed 5) rfl fun rest => by simp [escape, read, trailing]
        by_cases leading : isLeading unit = true
        · rcases escapedUnit_content content with ⟨fault, broken⟩ | ⟨second, taken, behind, rfl, length, content, found⟩
          · exact single (.unreadable fault 5) rfl fun rest => by simp [escape, read, trailing, leading, broken]
          · by_cases pair : isTrailing second = true
            · refine jump ([0x75, a, b, c, d] ++ taken)
                (.bytes (utf8 (0x10000 + (unit - 0xd800) * 0x400 + (second - 0xdc00))) 11) (by simp) content
                (by simp [Escape.length?, length]) fun rest => ?_
              have found := found rest
              rw [List.append_assoc] at found
              simp [escape, read, trailing, leading, found, pair]
            · exact single (.unreadable .malformed 5) rfl fun rest => by
                have found := found rest
                rw [List.append_assoc] at found
                simp [escape, read, trailing, leading, found, pair]
        · exact single (.bytes (utf8 unit) 5) rfl fun rest => by simp [escape, read, trailing, leading]

/-- A string that a reader gets past has the form of one. -/
theorem string_sound (passed : stops (.text (string 0 done fault text).1) = false) :
    ∃ content, IsContent content ∧ text = content ++ 0x22 :: (string 0 done fault text).2 := by
  induction size : text.length using Nat.strongRecOn generalizing text done fault with
  | _ n ih =>
    cases text with
    | nil => cases passed
    | cons b rest =>
      by_cases quote : b = 0x22
      · subst quote
        exact ⟨[], .nil, by rw [string_quote]; rfl⟩
      by_cases backslash : b = 0x5c
      · subst backslash
        have behind : ∀ {length : Nat} {content : List UInt8} {met : Option Fault}, (escape rest).length? = some length →
            string 0 done fault (0x5c :: rest) = string length content met rest → ∃ content, IsContent content ∧
              0x5c :: rest = content ++ 0x22 :: (string 0 done fault (0x5c :: rest)).2 := by
          intro length _ _ found next
          obtain ⟨taken, tail, rfl, rfl, unit⟩ := escape_sound found
          rw [next, string_skip] at passed ⊢
          obtain ⟨content, is, same⟩ := ih _ (by simp only [← size, List.length_cons, List.length_append]; omega) passed rfl
          exact ⟨0x5c :: taken ++ content, unit.append is, by rw [List.append_assoc, ← same]; rfl⟩
        cases met : escape rest with
        | bytes content length => exact behind (by rw [met]; rfl) (by rw [string_escape, met])
        | unreadable fault length => exact behind (by rw [met]; rfl) (by rw [string_escape, met])
        | broken =>
          rw [string_escape, met] at passed
          cases passed
      by_cases control : b < 0x20
      · rw [string_control control] at passed
        cases passed
      · have noControl := UInt8.not_lt.1 control
        rw [string_plain noControl quote backslash] at passed ⊢
        obtain ⟨content, is, same⟩ := ih _ (by simp [← size]) passed rfl
        exact ⟨[b] ++ content, .cons (.plain noControl quote backslash) is, by rw [List.append_assoc, ← same]; rfl⟩

end

/-! ### Lexemes are found -/

section
variable {b : UInt8} {text rest : List UInt8} {token : Token}

theorem word_append (token : Token) (letters rest : List UInt8) : word token letters (letters ++ rest) = (token, rest) := by
  induction letters with
  | nil => rfl
  | cons b letters ih => rw [List.cons_append, word, if_pos rfl, ih]

theorem word_sound {letters : List UInt8} (passed : (word token letters text).1.stops = false) :
    (word token letters text).1 = token ∧ text = letters ++ (word token letters text).2 := by
  induction letters generalizing text with
  | nil => exact ⟨rfl, rfl⟩
  | cons e letters ih =>
    cases text with
    | nil => cases passed
    | cons b text =>
      by_cases same : b = e
      · rw [word, if_pos same] at passed ⊢
        obtain ⟨found, behind⟩ := ih passed
        exact ⟨found, by rw [List.cons_append, ← behind, same]⟩
      · rw [word, if_neg same] at passed
        cases passed

theorem isNumber_ofNumeral (n : Numeral) (isWhole : Bool) : (ofNumeral n isWhole).isNumber = true := by
  unfold ofNumeral
  split
  · rfl
  · split <;> rfl

theorem IsNumber.isNumber (is : IsNumber text token) : token.isNumber = true := by
  cases is
  exact isNumber_ofNumeral _ _

theorem IsNumber.first (is : IsNumber (b :: text) token) : b = 0x2d ∨ isDigit b = true := by
  generalize same : b :: text = bytes at is
  obtain ⟨signed, noPlus, whole, fractional, exponential⟩ := is
  cases signed with
  | nothing =>
    obtain ⟨digit, more, rfl⟩ := List.exists_cons_of_ne_nil whole.digits.1
    obtain rfl : b = digit := (List.cons.inj same).1
    exact .inr (whole.digits.2 b List.mem_cons_self)
  | plus => exact absurd rfl noPlus
  | minus => exact .inl (List.cons.inj same).1

theorem IsNumber.last (is : IsNumber text token) : ∃ b ∈ text.getLast?, isDigit b = true := by
  have digits : ∀ (before : List UInt8) {ds : List UInt8}, SomeDigits ds → ∃ b ∈ (before ++ ds).getLast?, isDigit b = true := by
    intro before ds some
    refine ⟨ds.getLast some.1, ?_, some.2 _ (List.getLast_mem _)⟩
    rw [List.getLast?_append, List.getLast?_eq_some_getLast some.1]
    rfl
  obtain ⟨signed, noPlus, whole, fractional, exponential⟩ := is
  rename_i sign negative ds fraction part exponent size
  cases exponential with
  | nothing =>
    cases fractional with
    | nothing => simpa using digits sign whole.digits
    | @digits text some =>
      rw [show sign ++ (ds ++ (0x2e :: text ++ [])) = sign ++ (ds ++ [0x2e]) ++ text by simp]
      exact digits _ some
  | @digits mark other negative text marked signed some =>
    rw [show sign ++ (ds ++ (fraction ++ mark :: (other ++ text))) = sign ++ (ds ++ (fraction ++ mark :: other)) ++ text
      by simp]
    exact digits _ some

/-- A byte that begins a number begins nothing else. -/
theorem begins_number (first : b = 0x2d ∨ isDigit b = true) :
    punctuation? b = none ∧ word? b = none ∧ b ≠ 0x22 ∧ isBlank b = false := by
  have other : ∀ c : UInt8, c ≠ 0x2d → isDigit c = false → b ≠ c := by
    rintro c noMinus noDigit rfl
    rcases first with minus | digit
    · exact noMinus minus
    · rw [digit] at noDigit
      cases noDigit
  refine ⟨?_, ?_, other _ (by decide) (by decide), ?_⟩
  · simp (disch := decide) [punctuation?, other]
  · simp (disch := decide) [word?, other]
  · simp (disch := decide) [isBlank, other]

theorem begins_word {letters : List UInt8} (word : word? b = some (token, letters)) :
    (b = 0x6e ∨ b = 0x74 ∨ b = 0x66) ∧ token.isNumber = false := by
  unfold word? at word
  grind [isNumber]

theorem begins_punctuation (alone : punctuation? b = some token) :
    (b = 0x5b ∨ b = 0x5d ∨ b = 0x7b ∨ b = 0x7d ∨ b = 0x2c ∨ b = 0x3a) ∧ token.isNumber = false := by
  unfold punctuation? at alone
  grind [isNumber]

/-- The first byte of a lexeme that is no number does not go on with a number. -/
theorem Lexeme.first (lexeme : Lexeme (b :: text) token) :
    isBlank b = false ∧ (token.isNumber = false → goesOn b = false) := by
  generalize same : b :: text = bytes at lexeme
  cases lexeme with
  | punctuation alone =>
    obtain rfl := (List.cons.inj same).1
    rcases (begins_punctuation alone).1 with rfl | rfl | rfl | rfl | rfl | rfl <;> exact ⟨rfl, fun _ => rfl⟩
  | word letters =>
    obtain rfl := (List.cons.inj same).1
    rcases (begins_word letters).1 with rfl | rfl | rfl <;> exact ⟨rfl, fun _ => rfl⟩
  | string =>
    obtain rfl := (List.cons.inj same).1
    exact ⟨rfl, fun _ => rfl⟩
  | number is =>
    subst same
    exact ⟨(begins_number is.first).2.2.2, fun other => absurd is.isNumber (by simp [other])⟩

theorem Lexeme.exists_cons (lexeme : Lexeme text token) : ∃ b more, text = b :: more := by
  cases lexeme with
  | punctuation | word | string => exact ⟨_, _, rfl⟩
  | number is =>
    obtain ⟨b, mem, -⟩ := is.last
    exact List.exists_cons_of_ne_nil (by rintro rfl; cases mem)

/-- The token of a lexeme is found whatever follows, unless that goes on with a number. -/
theorem next_lexeme (lexeme : Lexeme (b :: text) token) (ends : token.isNumber = true → Ends rest) :
    next b (text ++ rest) = (token, rest) := by
  generalize same : b :: text = bytes at lexeme
  cases lexeme with
  | punctuation alone =>
    obtain ⟨rfl, rfl⟩ := List.cons.inj same
    simp [next, alone]
  | word letters =>
    obtain ⟨rfl, rfl⟩ := List.cons.inj same
    have none : punctuation? b = none := by rcases (begins_word letters).1 with rfl | rfl | rfl <;> rfl
    simp [next, none, letters, word_append]
  | @string content is =>
    obtain ⟨rfl, rfl⟩ := List.cons.inj same
    have read := string_append is [] none rest
    change (Token.text _, _) = _
    rw [List.append_assoc]
    exact congrArg (fun r : Except Flaw String × List UInt8 => (Token.text r.1, r.2)) read
  | number is =>
    subst same
    obtain ⟨alone, letters, noQuote, -⟩ := begins_number is.first
    rw [next, alone, letters]
    dsimp only
    rw [if_neg noQuote, if_pos is.first]
    exact number_append is (ends is.isNumber)

/-- A token that a reader gets past has a lexeme. -/
theorem next_sound (passed : (next b text).1.stops = false) :
    ∃ taken, Lexeme (b :: taken) (next b text).1 ∧ text = taken ++ (next b text).2 := by
  unfold next at passed ⊢
  split at passed
  · next alone => exact ⟨[], .punctuation alone, rfl⟩
  · next letters =>
    obtain ⟨found, behind⟩ := word_sound passed
    exact ⟨_, by rw [found]; exact .word letters, behind⟩
  · split at passed
    · next quote =>
      subst quote
      obtain ⟨content, is, same⟩ := string_sound passed
      refine ⟨content ++ [0x22], ?_, by simp [← same]⟩
      have read := string_append is [] none (string 0 [] none text).2
      rw [← same] at read
      rw [if_pos rfl, read]
      exact .string is
    · next noQuote =>
      split at passed
      · next first =>
        obtain ⟨taken, is, same⟩ := number_sound rfl passed
        obtain ⟨c, more, rfl⟩ := Lexeme.exists_cons (.number is)
        obtain ⟨rfl, behind⟩ := List.cons.inj same
        rw [if_neg noQuote, if_pos first]
        exact ⟨more, .number is, behind⟩
      · cases passed

/-! ### The tokens of a text -/

theorem all_blank (blank : Blank text) : all (text ++ rest) = all rest := by
  induction text with
  | nil => rfl
  | cons b text ih =>
    obtain ⟨here, later⟩ := List.forall_mem_cons.1 blank
    rw [List.cons_append, all, if_pos here]
    exact ih later

theorem all_eq_nil_iff : all text = [] ↔ Blank text := by
  induction text with
  | nil => simp [all, Blank]
  | cons b text ih =>
    rw [all]
    split
    · next blank => simpa [Blank, blank] using ih
    · next solid => simp [Blank, solid]

theorem all_lexeme (lexeme : Lexeme text token) (ends : token.isNumber = true → Ends rest) :
    all (text ++ rest) = token :: all rest := by
  obtain ⟨b, more, rfl⟩ := lexeme.exists_cons
  rw [List.cons_append, all, if_neg (by simp [lexeme.first.1]), next_lexeme lexeme ends]

theorem lexeme_of_all {tokens : List Token} (found : all text = token :: tokens) (passed : token.stops = false) :
    ∃ blanks lexeme rest, Blank blanks ∧ Lexeme lexeme token ∧ text = blanks ++ (lexeme ++ rest) ∧ tokens = all rest := by
  induction text with
  | nil => simp [all] at found
  | cons b text ih =>
    rw [all] at found
    split at found
    · next blank =>
      obtain ⟨blanks, lexeme, rest, before, is, rfl, same⟩ := ih found
      exact ⟨b :: blanks, lexeme, rest, List.forall_mem_cons.2 ⟨blank, before⟩, is, rfl, same⟩
    · obtain ⟨rfl, rfl⟩ := List.cons.inj found
      obtain ⟨taken, is, same⟩ := next_sound passed
      exact ⟨[], b :: taken, _, by simp [Blank], is, by rw [List.cons_append, ← same]; rfl, rfl⟩

/-! ### Rows of lexemes -/

variable {tokens : List Token}

/-- Tokens that a reader gets past have a row of lexemes. -/
theorem lexes_of_all {more : List Token} (found : all text = tokens ++ more)
    (passed : ∀ token ∈ tokens, token.stops = false) :
    ∃ taken rest, Lexes taken tokens ∧ text = taken ++ rest ∧ more = all rest := by
  induction tokens generalizing text with
  | nil => exact ⟨[], text, .nil (by simp [Blank]), rfl, found.symm⟩
  | cons token tokens ih =>
    obtain ⟨here, later⟩ := List.forall_mem_cons.1 passed
    obtain ⟨blanks, lexeme, rest, blank, is, rfl, same⟩ := lexeme_of_all found here
    obtain ⟨taken, rest, lexes, rfl, behind⟩ := ih same.symm later
    exact ⟨_, rest, .cons blank is lexes, by simp, behind⟩

section

variable {other : List UInt8} {others : List Token}

/-- Rows of lexemes may be put together. -/
theorem Lexes.append (first : Lexes text tokens) (second : Lexes other others) :
    Lexes (text ++ other) (tokens ++ others) := by
  induction first with
  | @nil blanks blank =>
    cases second with
    | nil more => exact .nil (List.forall_mem_append.2 ⟨blank, more⟩)
    | cons more lexeme later =>
      rw [← List.append_assoc]
      exact .cons (List.forall_mem_append.2 ⟨blank, more⟩) lexeme later
  | cons blank lexeme _ ih =>
    rw [List.append_assoc, List.append_assoc]
    exact .cons blank lexeme ih

theorem Lexes.single {token : Token} (lexeme : Lexeme text token) : Lexes text [token] := by
  have none : Blank [] := by simp [Blank]
  simpa using Lexes.cons none lexeme (.nil none)

theorem Lexes.mark {b : UInt8} {token : Token} (alone : punctuation? b = some token) (later : Lexes text tokens) :
    Lexes (b :: text) (token :: tokens) := Lexes.append (.single (.punctuation alone)) later

end

/-- Numbers stand apart from one another. -/
def Separated (tokens : List Token) : Prop := tokens.IsChain fun a b => a.isNumber = true → b.isNumber = false

theorem Lexes.ends {more : List UInt8} (lexes : Lexes text tokens) (other : ∀ token ∈ tokens.head?, token.isNumber = false)
    (nonempty : text ≠ []) : Ends (text ++ more) := by
  have blank : ∀ {b}, isBlank b = true → goesOn b = false := by
    intro b blank
    simp only [isBlank, Bool.or_eq_true, beq_iff_eq] at blank
    rcases blank with ((rfl | rfl) | rfl) | rfl <;> decide
  intro b head
  cases lexes with
  | nil blanks =>
    cases text with
    | nil => exact absurd rfl nonempty
    | cons c text =>
      obtain rfl : c = b := by simpa using head
      exact blank (blanks c List.mem_cons_self)
  | @cons before lexeme token rest tokens blanks is later =>
    cases before with
    | nil =>
      obtain ⟨c, taken, rfl⟩ := is.exists_cons
      obtain rfl : c = b := by simpa using head
      exact is.first.2 (other token rfl)
    | cons c before =>
      obtain rfl : c = b := by simpa using head
      exact blank (blanks c List.mem_cons_self)

/-- The tokens of a row of lexemes are found, if it stands apart from what follows. -/
theorem all_lexes (lexes : Lexes text tokens) (separated : Separated tokens) (apart : Apart text rest) :
    all (text ++ rest) = tokens ++ all rest := by
  induction lexes with
  | nil blank => exact all_blank blank
  | @cons blanks lexeme token later tokens blank is lexes ih =>
    have ends : token.isNumber = true → Ends (later ++ rest) := by
      intro number
      by_cases last : later = []
      · subst last
        cases is with
        | number is =>
          obtain ⟨b, mem, digit⟩ := is.last
          refine apart b ?_ digit
          rw [List.append_nil, List.getLast?_append, mem]
          rfl
        | punctuation alone => simp [(begins_punctuation alone).2] at number
        | word letters => simp [(begins_word letters).2] at number
        | string => cases number
      · refine lexes.ends (fun next head => ?_) last
        exact (List.isChain_cons.1 separated).1 next head number
    rw [List.append_assoc, List.append_assoc, all_blank blank, all_lexeme is ends,
      ih (List.isChain_cons.1 separated).2]
    · rfl
    · intro b mem
      refine apart b ?_
      rw [List.getLast?_append, List.getLast?_append, mem]
      rfl

end
end Token
end FlatStore
