import FlatStore.Proofs.Encoding
import FlatStore.Proofs.Grammar

/-!
Reading the texts of values. The text of a value is one JSON value (`Json.renders`), and what is read from it is
the value, but for floats that are read as a neighbour of theirs (`Json.Exact`) and for values that nest too deeply
(`Json.parse_render_iff`).
-/
namespace FlatStore

/-! ### Bytes -/

/-- The bytes that characters are encoded in. -/
def encode (text : List Char) : List UInt8 := text.flatMap String.utf8EncodeChar

theorem encode_append (first second : List Char) : encode (first ++ second) = encode first ++ encode second :=
  List.flatMap_append

theorem encode_cons (c : Char) (rest : List Char) : encode (c :: rest) = String.utf8EncodeChar c ++ encode rest := rfl

theorem toList_byteArray (bytes : ByteArray) : bytes.toList = bytes.data.toList := by
  have loop : ∀ more i collected, i + more = bytes.size →
      ByteArray.toList.loop bytes i collected = collected.reverse ++ bytes.data.toList.drop i := by
    intro more
    induction more with
    | zero =>
      intro i collected last
      have past : bytes.data.toList.drop i = [] := List.drop_eq_nil_of_le (by
        change bytes.size ≤ i
        omega)
      rw [ByteArray.toList.loop, if_neg (by omega), past, List.append_nil]
    | succ more ih =>
      intro i collected last
      have here : i < bytes.size := by omega
      have cut : bytes.data.toList.drop i = bytes.get! i :: bytes.data.toList.drop (i + 1) := by
        rw [List.drop_eq_getElem_cons (by simpa using here)]
        simp [ByteArray.get!, here]
      rw [ByteArray.toList.loop, if_pos here, ih _ _ (by omega), cut, List.reverse_cons, List.append_assoc]
      rfl
  exact loop bytes.size 0 [] (by omega)

/-- The bytes of a text are those of its characters. -/
theorem toList_toUTF8 (text : String) : text.toUTF8.toList = encode text.toList := by
  rw [toList_byteArray, String.toUTF8, ← String.utf8Encode_toList]
  exact List.toList_data_toByteArray

/-- A text is read from its bytes. -/
theorem fromUTF8?_encode (text : String) : String.fromUTF8? ⟨(encode text.toList).toArray⟩ = some text := by
  have same : (⟨(encode text.toList).toArray⟩ : ByteArray) = text.toByteArray := by
    rw [← String.utf8Encode_toList]
    apply ByteArray.ext
    apply Array.ext'
    exact List.toList_data_toByteArray.symm
  rw [String.fromUTF8?, same, dif_pos text.isValidUTF8]
  rfl

/-- A character below 128 is one byte. -/
theorem encode_ascii {c : Char} (small : c.toNat ≤ 127) : String.utf8EncodeChar c = [UInt8.ofNat c.toNat] := by
  exact if_pos small

/-- All other characters are in bytes from 128 on. -/
theorem le_of_mem_encode {c : Char} (large : ¬c.toNat ≤ 127) : ∀ b ∈ String.utf8EncodeChar c, 128 ≤ b := by
  have high : ∀ n : Nat, 128 ≤ n → n < 256 → (128 : UInt8) ≤ UInt8.ofNat n := by
    intro n least most
    rw [UInt8.le_iff_toNat_le, UInt8.toNat_ofNat_of_lt' most]
    exact least
  have eq : String.utf8EncodeChar c = _ := if_neg large
  rw [eq]
  split
  · exact List.forall_mem_cons.2 ⟨high _ (by omega) (by omega), List.forall_mem_singleton.2 (high _ (by omega) (by omega))⟩
  · split
    · exact List.forall_mem_cons.2 ⟨high _ (by omega) (by omega), List.forall_mem_cons.2
        ⟨high _ (by omega) (by omega), List.forall_mem_singleton.2 (high _ (by omega) (by omega))⟩⟩
    · exact List.forall_mem_cons.2 ⟨high _ (by omega) (by omega), List.forall_mem_cons.2
        ⟨high _ (by omega) (by omega), List.forall_mem_cons.2 ⟨high _ (by omega) (by omega),
          List.forall_mem_singleton.2 (high _ (by omega) (by omega))⟩⟩⟩

/-! ### Strings -/

open Token (string string_plain string_escape string_quote closed)

/-- Bytes that stand for themselves are read as they are. -/
theorem string_bytes {bytes : List UInt8} (plain : ∀ b ∈ bytes, 0x20 ≤ b ∧ b ≠ 0x22 ∧ b ≠ 0x5c) (done rest : List UInt8) :
    string 0 done none (bytes ++ rest) = string 0 (bytes.reverse ++ done) none rest := by
  induction bytes generalizing done with
  | nil => rfl
  | cons b bytes ih =>
    obtain ⟨⟨noControl, noQuote, noEscape⟩, later⟩ := List.forall_mem_cons.1 plain
    rw [List.cons_append, string_plain noControl noQuote noEscape, ih later]
    simp

/-- An escape of one letter is read as its byte. -/
theorem string_letter {b byte : UInt8} (stands : Token.simpleEscape? b = some byte) (done rest : List UInt8) :
    string 0 done none (0x5c :: b :: rest) = string 0 (byte :: done) none rest := by
  have other : b ≠ 0x75 := by
    rintro rfl
    cases stands
  have escape : Token.escape (b :: rest) = .bytes [byte] 1 := by simp [Token.escape, other, stands]
  rw [string_escape, escape]
  exact Token.string_skip [b]

theorem hexValue?_hexDigit {n : Nat} (small : n < 16) :
    ∃ b, String.utf8EncodeChar (Json.hexDigit n) = [b] ∧ Token.hexValue? b = some n := by
  have each : ∀ n < 16, String.utf8EncodeChar (Json.hexDigit n) = [UInt8.ofNat (Json.hexDigit n).toNat] ∧
      Token.hexValue? (UInt8.ofNat (Json.hexDigit n).toNat) = some n := by decide
  exact ⟨_, each n small⟩

/-- A character is read from its escape. -/
theorem string_char (c : Char) (done rest : List UInt8) :
    string 0 done none (encode (Json.escape c) ++ rest) =
      string 0 ((String.utf8EncodeChar c).reverse ++ done) none rest := by
  unfold Json.escape
  by_cases quote : c = '"'
  · subst quote
    exact string_letter (b := 0x22) rfl done rest
  by_cases backslash : c = '\\'
  · subst backslash
    exact string_letter (b := 0x5c) rfl done rest
  by_cases line : c = '\n'
  · subst line
    exact string_letter (b := 0x6e) rfl done rest
  by_cases back : c = '\r'
  · subst back
    exact string_letter (b := 0x72) rfl done rest
  by_cases tab : c = '\t'
  · subst tab
    exact string_letter (b := 0x74) rfl done rest
  by_cases erase : c = '\x08'
  · subst erase
    exact string_letter (b := 0x62) rfl done rest
  by_cases feed : c = '\x0c'
  · subst feed
    exact string_letter (b := 0x66) rfl done rest
  simp only [quote, backslash, line, back, tab, erase, feed, if_false]
  split
  · next control =>
    obtain ⟨high, first, highValue⟩ := hexValue?_hexDigit (n := c.toNat / 16) (by omega)
    obtain ⟨low, second, lowValue⟩ := hexValue?_hexDigit (n := c.toNat % 16) (by omega)
    have bytes : encode ['\\', 'u', '0', '0', Json.hexDigit (c.toNat / 16), Json.hexDigit (c.toNat % 16)] =
        [0x5c, 0x75, 0x30, 0x30, high, low] := by
      rw [encode_cons, encode_cons, encode_cons, encode_cons, encode_cons, encode_cons, first, second]
      rfl
    have zero : Token.hexValue? 0x30 = some 0 := rfl
    have unit : ((0 * 16 + 0) * 16 + c.toNat / 16) * 16 + c.toNat % 16 = c.toNat := by omega
    have read : Token.escape (0x75 :: 0x30 :: 0x30 :: high :: low :: rest) = .bytes (String.utf8EncodeChar c) 5 := by
      have single : Token.isTrailing c.toNat = false ∧ Token.isLeading c.toNat = false := by
        simp only [Token.isTrailing, Token.isLeading, decide_eq_false_iff_not]
        omega
      rw [Token.escape, if_pos rfl, Token.hexUnit, zero, highValue, lowValue]
      simp only [unit, single, Bool.false_eq_true, if_false, Token.utf8, Char.ofNat_toNat]
    have next : string 0 done none (0x5c :: 0x75 :: 0x30 :: 0x30 :: high :: low :: rest) = _ := string_escape
    rw [read] at next
    rw [bytes]
    exact next.trans (Token.string_skip [0x75, 0x30, 0x30, high, low])
  · next noControl =>
    rw [show encode [c] = String.utf8EncodeChar c by simp [encode]]
    refine string_bytes ?_ done rest
    by_cases small : c.toNat ≤ 127
    · rw [encode_ascii small]
      have value : (UInt8.ofNat c.toNat).toNat = c.toNat := UInt8.toNat_ofNat_of_lt' (Nat.lt_of_le_of_lt small (by decide))
      have other : ∀ d : Char, c ≠ d → d.toNat ≤ 127 → UInt8.ofNat c.toNat ≠ UInt8.ofNat d.toNat := by
        intro d other below same
        have same := congrArg UInt8.toNat same
        rw [value, UInt8.toNat_ofNat_of_lt' (Nat.lt_of_le_of_lt below (by decide))] at same
        exact other (by rw [← Char.ofNat_toNat c, same, Char.ofNat_toNat])
      refine List.forall_mem_singleton.2 ⟨?_, other '"' quote (by decide), other '\\' backslash (by decide)⟩
      rw [UInt8.le_iff_toNat_le, value]
      exact Nat.not_lt.1 noControl
    · intro b mem
      have high := le_of_mem_encode small b mem
      rw [UInt8.le_iff_toNat_le] at high ⊢
      have least : (128 : UInt8).toNat = 128 := rfl
      have blank : (0x20 : UInt8).toNat = 32 := rfl
      refine ⟨by omega, ?_, ?_⟩ <;> rintro rfl <;> exact absurd high (by decide)

/-- A string is read back from its quoted form. -/
theorem string_escaped (s : String) (rest : List UInt8) :
    string 0 [] none (encode (s.toList.flatMap Json.escape) ++ 0x22 :: rest) = (.ok s, rest) := by
  have chars : ∀ (text : List Char) (done : List UInt8),
      string 0 done none (encode (text.flatMap Json.escape) ++ 0x22 :: rest) =
        string 0 ((encode text).reverse ++ done) none (0x22 :: rest) := by
    intro text
    induction text with
    | nil => exact fun _ => rfl
    | cons c text ih =>
      intro done
      rw [List.flatMap_cons, encode_append, List.append_assoc, string_char, ih, encode_cons]
      simp
  rw [chars, string_quote]
  have read : closed ((encode s.toList).reverse ++ []) none = .ok s := by
    unfold closed
    simp [fromUTF8?_encode]
  rw [read]

theorem lexeme_quote (s : String) : Token.Lexeme (encode (Json.quote s).toList) (.text (.ok s)) := by
  have read := string_escaped s []
  have passed : Token.stops (.text (string 0 [] none (encode (s.toList.flatMap Json.escape) ++ [0x22])).1) = false := by
    rw [read]
    rfl
  obtain ⟨content, is, same⟩ := Token.string_sound passed
  rw [read] at same
  obtain rfl := List.append_cancel_right same
  have bytes : encode (Json.quote s).toList = 0x22 :: (encode (s.toList.flatMap Json.escape) ++ [0x22]) := by
    rw [Json.toList_quote, encode_cons, encode_append]
    rfl
  have lexeme := Token.Lexeme.string is
  rw [read] at lexeme
  rw [bytes]
  exact lexeme

/-! ### Numbers -/

section
variable {text : List Char}

theorem isDigit_encode {c : Char} (digit : c.isDigit = true) :
    String.utf8EncodeChar c = [UInt8.ofNat c.toNat] ∧ (UInt8.ofNat c.toNat).toNat = c.toNat ∧
      Token.isDigit (UInt8.ofNat c.toNat) = true := by
  obtain ⟨least, most⟩ := Char.isDigit_iff_toNat.1 digit
  have value : (UInt8.ofNat c.toNat).toNat = c.toNat := UInt8.toNat_ofNat_of_lt' (Nat.lt_of_le_of_lt most (by decide))
  refine ⟨encode_ascii (Nat.le_trans most (by decide)), value, ?_⟩
  rw [Token.isDigit, Bool.and_eq_true, decide_eq_true_eq, decide_eq_true_eq, UInt8.le_iff_toNat_le,
    UInt8.le_iff_toNat_le, value]
  exact ⟨least, most⟩

theorem encode_digits (digits : Digits text) : encode text = text.map fun c => UInt8.ofNat c.toNat := by
  induction text with
  | nil => rfl
  | cons c text ih =>
    obtain ⟨here, later⟩ := List.forall_mem_cons.1 digits
    rw [encode_cons, ih later, (isDigit_encode here).1]
    rfl

theorem someDigits_encode (digits : Digits text) (nonempty : text ≠ []) : Token.SomeDigits (encode text) := by
  rw [encode_digits digits]
  refine ⟨by simpa using nonempty, List.forall_mem_map.2 fun c mem => (isDigit_encode (digits c mem)).2.2⟩

theorem digitValues_encode (digits : Digits text) : Token.digitValues (encode text) = text.map fun c => c.toNat - 48 := by
  rw [encode_digits digits, Token.digitValues, List.map_map]
  refine List.map_congr_left fun c mem => ?_
  rw [Function.comp_apply, (isDigit_encode (digits c mem)).2.1]

/-- Digits are a whole part if a zero does not stand before another digit. -/
theorem isWholePart_encode (digits : Digits text) (nonempty : text ≠ []) (zero : text.head? = some '0' → text = ['0']) :
    Token.IsWholePart (encode text) := by
  refine ⟨someDigits_encode digits nonempty, fun first => ?_⟩
  obtain ⟨c, more, rfl⟩ := List.exists_cons_of_ne_nil nonempty
  have here := isDigit_encode (digits c List.mem_cons_self)
  have same : UInt8.ofNat c.toNat = 0x30 := by
    rw [encode_cons, here.1] at first
    exact Option.some.inj first
  have value : c.toNat = '0'.toNat := by
    rw [← here.2.1, same]
    rfl
  rw [zero (by rw [← Char.ofNat_toNat c, value]; rfl)]
  rfl

/-- The decimal digits of a number do not begin with a zero, unless it is zero. -/
theorem head_toDigits {n : Nat} (zero : (Nat.toDigits 10 n).head? = some '0') : n = 0 := by
  have digit : ∀ d < 10, Nat.digitChar d = '0' → d = 0 := by decide
  induction n using Nat.strongRecOn with
  | _ n ih =>
    by_cases small : n < 10
    · rw [Nat.toDigits_of_lt_base small] at zero
      exact digit n small (Option.some.inj zero)
    · rw [Nat.toDigits_of_base_le (by decide) (by omega), List.head?_append] at zero
      have front : (Nat.toDigits 10 (n / 10)).head? = some '0' := by
        cases head : (Nat.toDigits 10 (n / 10)).head? with
        | none => exact absurd (List.head?_eq_none_iff.1 head) Nat.toDigits_ne_nil
        | some c =>
          rw [head] at zero
          exact zero
      have none := ih (n / 10) (by omega) front
      omega

theorem isWholePart_toDigits (n : Nat) : Token.IsWholePart (encode (Nat.toDigits 10 n)) := by
  refine isWholePart_encode (digits_toDigits n) Nat.toDigits_ne_nil fun zero => ?_
  rw [head_toDigits zero]
  rfl

theorem appendDigits_toDigits (n : Nat) : appendDigits 0 (Token.digitValues (encode (Nat.toDigits 10 n))) = n := by
  rw [digitValues_encode (digits_toDigits n), appendDigits, List.foldl_map]
  refine Eq.trans ?_ (Nat.ofDigitChars_ten_toDigits (n := n))
  rw [Nat.ofDigitChars]
  simp only [Nat.mul_comm]
  rfl

end

theorem ofNumeral_whole {numeral : Numeral} {n : Whole} (value : numeral.toInt? = some n.val) :
    Token.ofNumeral numeral true = .whole n := by
  have range : Whole.ofInt? n.val = some n := dif_pos ⟨n.least, n.most⟩
  simp [Token.ofNumeral, value, range]

/-- A whole number is read back from its text. -/
theorem lexeme_whole (n : Whole) : Token.Lexeme (encode (toString n.val).toList) (.whole n) := by
  rw [Int.toString_eq_repr, Int.repr_eq_if]
  split
  · next positive =>
    have is := Token.IsNumber.mk .nothing (by decide) (isWholePart_toDigits n.val.toNat) .nothing .nothing
    rw [List.nil_append, List.append_nil, List.append_nil] at is
    have value : Numeral.toInt? ⟨false, Token.digitValues (encode (Nat.toDigits 10 n.val.toNat)), [], 0⟩ = some n.val := by
      simp only [Numeral.toInt?, appendDigits_toDigits, Bool.false_eq_true, if_false, Int.toNat_of_nonneg positive]
    rw [Nat.toList_repr, ← ofNumeral_whole value]
    exact .number is
  · next negative =>
    have is := Token.IsNumber.mk .minus (by decide) (isWholePart_toDigits (-n.val).toNat) .nothing .nothing
    rw [List.append_nil, List.append_nil] at is
    have value : Numeral.toInt? ⟨true, Token.digitValues (encode (Nat.toDigits 10 (-n.val).toNat)), [], 0⟩ =
        some n.val := by
      rw [Numeral.toInt?, appendDigits_toDigits, if_pos rfl, if_neg (by omega)]
      exact congrArg some (by omega)
    rw [String.toList_append, Nat.toList_repr, encode_append, ← ofNumeral_whole value]
    exact .number is

/-! ### Floats -/

section
variable {sign : List UInt8} {negative : Bool} (signed : Token.IsSign sign negative) (noPlus : sign ≠ [0x2b])
include signed noPlus

/-- Digits with a fraction are a number, and not a whole one. -/
theorem exists_number_point (whole : List Char) {fraction : List Char} (first : Token.IsWholePart (encode whole))
    (digits : Digits fraction) (some : fraction ≠ []) {tail : List UInt8} {size : Option Int}
    (exponent : Token.IsExponent tail size) :
    ∃ numeral, Token.IsNumber (sign ++ (encode (whole ++ '.' :: fraction) ++ tail)) (.ofNumeral numeral false) := by
  have is := Token.IsNumber.mk signed noPlus first (.digits (someDigits_encode digits some)) exponent
  rw [encode_append, encode_cons, List.append_assoc]
  exact ⟨_, is⟩

theorem exists_number_positional {d : Decimal} (nonzero : d.digits ≠ 0) :
    ∃ numeral, Token.IsNumber (sign ++ encode (d.positional ".0").toList) (.ofNumeral numeral false) := by
  have digits := digits_toDigits d.digits
  have leading : (Nat.toDigits 10 d.digits).head? ≠ some '0' := fun zero => nonzero (head_toDigits zero)
  have nonempty : Nat.toDigits 10 d.digits ≠ [] := Nat.toDigits_ne_nil
  have point := fun (whole : List Char) {fraction : List Char} first (digits : Digits fraction) some =>
    exists_number_point signed noPlus whole first digits some .nothing
  simp only [List.append_nil] at point
  have head : ∀ {more : List Char}, (Nat.toDigits 10 d.digits ++ more).head? ≠ some '0' := by
    intro more
    rwa [List.head?_append_of_ne_nil _ nonempty]
  unfold Decimal.positional
  dsimp only
  generalize Nat.toDigits 10 d.digits = ds at *
  split
  · have found := point _ (isWholePart_encode (digits.append (digits_zeros d.exponent.toNat)) (by simp [nonempty])
      fun zero => absurd zero head) (digits_zeros 1) (by simp)
    simpa [zeros] using found
  · split
    · next below inside =>
      have before : (d.exponent + ds.length - 1).toNat + 1 < ds.length := by omega
      have first : Token.IsWholePart (encode (ds.take ((d.exponent + ds.length - 1).toNat + 1))) := by
        refine isWholePart_encode (digits.take _) (by simp [nonempty]) fun zero => ?_
        rw [List.head?_take, if_neg (Nat.succ_ne_zero _)] at zero
        exact absurd zero leading
      have found := point _ first (digits.drop ((d.exponent + ds.length - 1).toNat + 1)) (by simpa using before)
      rwa [String.toList_append, String.toList_append, String.toList_ofList, String.toList_ofList, String.toList_ofList,
        List.append_assoc, List.singleton_append]
    · have found := point ['0'] (isWholePart_toDigits 0)
        ((digits_zeros (-(d.exponent + ds.length - 1) - 1).toNat).append digits) (by simp [nonempty])
      simpa [zeros] using found

theorem exists_number_scientific {d : Decimal} (nonzero : d.digits ≠ 0) :
    ∃ numeral, Token.IsNumber (sign ++ encode d.scientific.toList) (.ofNumeral numeral false) := by
  have digits := digits_toDigits d.digits
  have leading : (Nat.toDigits 10 d.digits).head? ≠ some '0' := fun zero => nonzero (head_toDigits zero)
  have nonempty : Nat.toDigits 10 d.digits ≠ [] := Nat.toDigits_ne_nil
  unfold Decimal.scientific
  dsimp only
  generalize Nat.toDigits 10 d.digits = ds at *
  have first : Token.IsWholePart (encode (ds.take 1)) :=
    isWholePart_encode (digits.take 1) (by simp [nonempty]) fun zero =>
      absurd (by rwa [List.head?_take, if_neg Nat.one_ne_zero] at zero) leading
  obtain ⟨size, exponent⟩ : ∃ size : Int, Token.IsExponent (encode
      ((if d.exponent + ds.length - 1 < 0 then "e-" else "e+").toList ++
        Nat.toDigits 10 (d.exponent + ds.length - 1).natAbs)) (some size) := by
    have behind := someDigits_encode (digits_toDigits (d.exponent + ds.length - 1).natAbs) Nat.toDigits_ne_nil
    split
    · have is : Token.IsExponent (0x65 :: ([0x2d] ++ encode _)) _ := .digits (.inl rfl) .minus behind
      exact ⟨_, is⟩
    · have is : Token.IsExponent (0x65 :: ([0x2b] ++ encode _)) _ := .digits (.inl rfl) .plus behind
      exact ⟨_, is⟩
  split
  · next single =>
    have is := Token.IsNumber.mk signed noPlus first .nothing exponent
    rw [List.nil_append] at is
    exact ⟨⟨negative, Token.digitValues (encode (ds.take 1)), [], size⟩, by simpa [encode_append] using is⟩
  · next several =>
    have found := exists_number_point signed noPlus _ first (digits.drop 1)
      (List.ne_nil_of_length_pos (by rw [List.length_drop]; omega)) exponent
    simpa [encode_append, encode_cons] using found

end

theorem rounds_zero : Finite64.zero.Rounds 0 := by
  have none : Finite64.zero.significand = 0 := by decide
  have least : Finite64.zero.lower = 0 := by simp [Finite64.lower, Finite64.interval, none]
  have most := Finite64.zero.lower_lt_upper
  rw [Finite64.Rounds, none, if_pos rfl]
  constructor <;> linarith

/-- The text of a float is a number, and not a whole one. -/
theorem exists_number_text (x : Finite64) :
    ∃ numeral, Token.IsNumber (encode (x.text Json.numberLayout).toList) (.ofNumeral numeral false) := by
  obtain ⟨sign, signed, noPlus, bytes⟩ : ∃ sign, Token.IsSign sign x.negative ∧ sign ≠ [0x2b] ∧
      encode (if x.negative then "-" else "").toList = sign := by
    cases x.negative
    · exact ⟨_, .nothing, by decide, rfl⟩
    · exact ⟨_, .minus, by decide, rfl⟩
  unfold Finite64.text
  dsimp only
  split
  · have found := exists_number_point signed noPlus ['0'] (isWholePart_toDigits 0) (digits_zeros 1)
      (by simp) .nothing
    rw [String.append_assoc, String.toList_append, encode_append, bytes]
    simpa [Json.numberLayout] using found
  · next nonzero =>
    have digits : (x.shortest Json.numberLayout.tie).digits ≠ 0 := by
      intro none
      have rounds := Finite64.rounds_shortest nonzero Json.numberLayout.tie
      rw [Decimal.value, none, Nat.cast_zero, zero_mul] at rounds
      exact nonzero (Finite64.word_eq_of_rounds rounds rounds_zero)
    rw [String.toList_append, encode_append, bytes]
    split
    · exact exists_number_positional signed noPlus digits
    · exact exists_number_scientific signed noPlus digits

/-! ### Values -/

/-- What is read from the text of a float. -/
def Finite64.reread (x : Finite64) : Draft :=
  (Draft.ofToken? (Token.number (encode (x.text Json.numberLayout).toList)).1).getD .null

theorem lexeme_float (x : Finite64) :
    ∃ token, Token.Lexeme (encode (x.text Json.numberLayout).toList) token ∧ Draft.ofToken? token = some x.reread ∧
      ∀ n, token ≠ .whole n := by
  obtain ⟨numeral, is⟩ := exists_number_text x
  have found : Token.number (encode (x.text Json.numberLayout).toList ++ []) = (.ofNumeral numeral false, []) :=
    Token.number_append is (by simp [Token.Ends])
  rw [List.append_nil] at found
  refine ⟨_, .number is, ?_⟩
  rw [Finite64.reread, found]
  cases read : numeral.toFinite? with
  | none => simp [Token.ofNumeral, read, Draft.ofToken?]
  | some y => simp [Token.ofNumeral, read, Draft.ofToken?]

namespace Json

mutual
/-- What is read from the text of a value. -/
def written : Json → Draft
  | .null => .null
  | .bool b => .bool b
  | .whole n => .whole n
  | .float x => x.reread
  | .string s => .string s
  | .array items => .array (writtenItems items) none
  | .object members => .object (writtenMembers members) none
def writtenItems : List Json → List Draft
  | [] => []
  | item :: rest => item.written :: writtenItems rest
def writtenMembers : List (String × Json) → List (DraftName × Draft)
  | [] => []
  | (name, value) :: rest => (.ok name, value.written) :: writtenMembers rest
end

end Json

namespace Draft

variable {first others : List Token} {draft : Draft} {name : DraftName}

theorem Derives.items_cons {items : List Draft} (derives : Derives first (.value draft))
    (later : Derives others (.items items)) : Derives (first ++ .comma :: others) (.items (draft :: items)) := by
  generalize same : Part.items items = part at later
  induction later generalizing items with
  | item value => cases same; exact .moreItems (.item derives) value
  | moreItems before value ih _ =>
    cases same
    rw [← List.cons_append, ← List.append_assoc]
    exact .moreItems (ih rfl) value
  | _ => cases same

theorem Derives.members_cons {members : List (DraftName × Draft)} (derives : Derives first (.value draft))
    (later : Derives others (.members members)) :
    Derives (.text name :: .colon :: (first ++ .comma :: others)) (.members ((name, draft) :: members)) := by
  generalize same : Part.members members = part at later
  induction later generalizing members with
  | member value =>
    cases same
    exact .moreMembers (.member derives) value
  | @moreMembers tokens others _ last _ before value ih _ =>
    cases same
    rw [show Token.text name :: .colon :: (first ++ .comma :: (tokens ++ .comma :: .text last :: .colon :: others)) =
      Token.text name :: .colon :: (first ++ .comma :: tokens) ++ .comma :: .text last :: .colon :: others by simp]
    exact .moreMembers (ih rfl) value
  | _ => cases same

end Draft

namespace Json

open Draft (Derives)
open Token (Lexes)

/-- Whether a text is that of a value. -/
def Renders (text : List Char) (draft : Draft) : Prop := ∃ tokens, Lexes (encode text) tokens ∧ Derives tokens (.value draft)

theorem renders_token {text : List Char} {token : Token} {draft : Draft} (lexeme : Token.Lexeme (encode text) token)
    (alone : Draft.ofToken? token = some draft) : Renders text draft := ⟨[token], .single lexeme, .token alone⟩

theorem renders_array {items : List Json} (each : ∀ item ∈ items, Renders item.render.toList item.written) :
    Renders (array items).render.toList (array items).written := by
  rw [toList_render_array]
  cases items with
  | nil => exact ⟨_, .mark rfl (.single (.punctuation rfl)), .emptyArray⟩
  | cons first rest =>
    obtain ⟨tokens, lexes, derives⟩ : ∃ tokens,
        Lexes (encode ([','].intercalate ((first :: rest).map fun item => item.render.toList))) tokens ∧
          Derives tokens (.items (writtenItems (first :: rest))) := by
      induction rest generalizing first with
      | nil =>
        obtain ⟨tokens, lexes, derives⟩ := each first List.mem_cons_self
        exact ⟨tokens, by simpa using lexes, .item derives⟩
      | cons second rest ih =>
        obtain ⟨here, later⟩ := List.forall_mem_cons.1 each
        obtain ⟨tokens, lexes, derives⟩ := here
        obtain ⟨others, more, behind⟩ := ih second later
        refine ⟨tokens ++ .comma :: others, ?_, .items_cons derives behind⟩
        rw [List.map_cons, List.map_cons, List.intercalate_cons_cons, encode_append, encode_append, List.append_assoc]
        exact lexes.append (.mark rfl more)
    refine ⟨_, ?_, .array derives⟩
    rw [encode_cons, encode_append]
    exact .mark rfl (lexes.append (.single (.punctuation rfl)))

theorem renders_object {members : List (String × Json)}
    (each : ∀ member ∈ members, Renders member.2.render.toList member.2.written) :
    Renders (object members).render.toList (object members).written := by
  rw [toList_render_object]
  cases members with
  | nil => exact ⟨_, .mark rfl (.single (.punctuation rfl)), .emptyObject⟩
  | cons first rest =>
    have named : ∀ {member : String × Json} {tokens : List Token}, Lexes (encode member.2.render.toList) tokens →
        Lexes (encode (memberText member)) (.text (.ok member.1) :: .colon :: tokens) := by
      intro member tokens lexes
      rw [memberText, encode_append, encode_cons]
      exact Lexes.append (.single (lexeme_quote member.1)) (.mark rfl lexes)
    obtain ⟨tokens, lexes, derives⟩ : ∃ tokens,
        Lexes (encode ([','].intercalate ((first :: rest).map memberText))) tokens ∧
          Derives tokens (.members (writtenMembers (first :: rest))) := by
      induction rest generalizing first with
      | nil =>
        obtain ⟨tokens, lexes, derives⟩ := each first List.mem_cons_self
        exact ⟨_, by simpa using named lexes, .member derives⟩
      | cons second rest ih =>
        obtain ⟨here, later⟩ := List.forall_mem_cons.1 each
        obtain ⟨tokens, lexes, derives⟩ := here
        obtain ⟨others, more, behind⟩ := ih second later
        refine ⟨.text (.ok first.1) :: .colon :: (tokens ++ .comma :: others), ?_, .members_cons derives behind⟩
        rw [List.map_cons, List.map_cons, List.intercalate_cons_cons, encode_append, encode_append, List.append_assoc]
        exact (named lexes).append (.mark rfl more)
    refine ⟨_, ?_, .object derives⟩
    rw [encode_cons, encode_append]
    exact .mark rfl (lexes.append (.single (.punctuation rfl)))

/-- The text of a value is one JSON value. -/
theorem renders (value : Json) : Renders value.render.toList value.written := by
  induction value using partInduction with
  | null => exact renders_token (.word rfl) rfl
  | bool b => cases b <;> exact renders_token (.word rfl) rfl
  | whole n => exact renders_token (lexeme_whole n) rfl
  | float x =>
    obtain ⟨token, lexeme, alone, -⟩ := lexeme_float x
    exact renders_token lexeme alone
  | string s => exact renders_token (lexeme_quote s) rfl
  | array items ih => exact renders_array ih
  | object members ih => exact renders_object ih

/-! ### Reading back -/

theorem writtenItems_eq_map (items : List Json) : writtenItems items = items.map written := by
  induction items with
  | nil => rfl
  | cons item rest ih => rw [writtenItems, ih, List.map_cons]

theorem writtenMembers_eq_map (members : List (String × Json)) :
    writtenMembers members = members.map fun member => (.ok member.1, member.2.written) := by
  induction members with
  | nil => rfl
  | cons member rest ih => rw [writtenMembers, ih, List.map_cons]

theorem ofItems_eq_map (items : List Json) : Draft.ofItems items = items.map Draft.ofJson := by
  induction items with
  | nil => rfl
  | cons item rest ih => rw [Draft.ofItems, ih, List.map_cons]

theorem ofMembers_eq_map (members : List (String × Json)) :
    Draft.ofMembers members = members.map fun member => (.ok member.1, Draft.ofJson member.2) := by
  induction members with
  | nil => rfl
  | cons member rest ih => rw [Draft.ofMembers, ih, List.map_cons]

/-- The text of a value is read to its end. -/
theorem build_render (value : Json) :
    Draft.build [] .value (Token.all value.render.toUTF8.toList) = (Draft.clip 0 value.written, []) := by
  obtain ⟨tokens, lexes, derives⟩ := value.renders
  rw [toList_toUTF8]
  exact Draft.build_whole lexes derives

theorem ofBytes_render (value : Json) : Draft.ofBytes value.render.toUTF8.toList = Draft.clip 0 value.written := by
  rw [Draft.ofBytes, build_render]

theorem parse_render (value : Json) : parse value.render.toUTF8.toList = (Draft.clip 0 value.written).read := by
  rw [parse, build_render]
  dsimp only
  cases (Draft.clip 0 value.written).read <;> rfl

end Json

/-- Whether a float is read back from its text. -/
def Finite64.Exact (x : Finite64) : Prop := Json.parse (Json.float x).render.toUTF8.toList = .ok (.float x)

/-- Only a float is read as a float. -/
theorem Draft.eq_of_read_float {draft : Draft} {x : Finite64} (read : draft.read = .ok (.float x)) : draft = .float x := by
  cases draft with
  | float y => cases read; rfl
  | array items closing =>
    obtain ⟨values, -, read⟩ := bind_eq_ok_iff.1 read
    obtain ⟨-, -, read⟩ := bind_eq_ok_iff.1 read
    cases read
  | object members closing =>
    obtain ⟨values, -, read⟩ := bind_eq_ok_iff.1 read
    obtain ⟨-, -, read⟩ := bind_eq_ok_iff.1 read
    cases read
  | null | bool | whole | string | flawed => cases read

theorem Finite64.exact_iff {x : Finite64} : x.Exact ↔ x.reread = .float x := by
  obtain ⟨token, -, alone, -⟩ := lexeme_float x
  rw [Exact, Json.parse_render, Json.written, Draft.clip_ofToken alone]
  exact ⟨Draft.eq_of_read_float, fun same => by rw [same]; rfl⟩

namespace Json

mutual
/-- Whether every float in a value is read back from its text. -/
def Exact : Json → Prop
  | .float x => x.Exact
  | .array items => ExactItems items
  | .object members => ExactMembers members
  | _ => True
def ExactItems : List Json → Prop
  | [] => True
  | item :: rest => item.Exact ∧ ExactItems rest
def ExactMembers : List (String × Json) → Prop
  | [] => True
  | (_, value) :: rest => value.Exact ∧ ExactMembers rest
end

theorem exact_array_iff {items : List Json} : (array items).Exact ↔ ∀ item ∈ items, item.Exact := by
  change ExactItems items ↔ _
  induction items with
  | nil => simp [ExactItems]
  | cons item rest ih => rw [ExactItems, ih, List.forall_mem_cons]

theorem exact_object_iff {members : List (String × Json)} :
    (object members).Exact ↔ ∀ member ∈ members, member.2.Exact := by
  change ExactMembers members ↔ _
  induction members with
  | nil => simp [ExactMembers]
  | cons member rest ih => rw [ExactMembers, ih, List.forall_mem_cons]

theorem exact_compositional : Compositional Exact where
  bool _ := trivial
  whole _ := trivial
  string _ := trivial
  array := exact_array_iff.2
  object _ := exact_object_iff.2

/-- What is read from the text of a value is the value, if its floats are read back. -/
theorem written_eq {value : Json} (exact : value.Exact) : value.written = Draft.ofJson value := by
  induction value using partInduction with
  | float x => exact Finite64.exact_iff.1 exact
  | null | bool | whole | string => rfl
  | array items ih =>
    have each := exact_array_iff.1 exact
    rw [written, Draft.ofJson, writtenItems_eq_map, ofItems_eq_map,
      List.map_congr_left fun item mem => ih item mem (each item mem)]
  | object members ih =>
    have same : ∀ member ∈ members,
        ((.ok member.1, member.2.written) : DraftName × Draft) = (.ok member.1, Draft.ofJson member.2) := fun member mem =>
      Prod.ext rfl (ih member mem (exact_object_iff.1 exact member mem))
    rw [written, Draft.ofJson, writtenMembers_eq_map, ofMembers_eq_map, List.map_congr_left same]

/-- The text of a value nests as deeply as the value. -/
theorem height_written (value : Json) : value.written.height = value.height := by
  induction value using partInduction with
  | float x =>
    obtain ⟨token, -, alone, -⟩ := lexeme_float x
    exact Draft.height_ofToken alone
  | null | bool | whole | string => rfl
  | array items ih =>
    refine congrArg (· + 1) (show Draft.heightItems (writtenItems items) = Draft.heightItems (Draft.ofItems items) from ?_)
    induction items with
    | nil => rfl
    | cons item rest next =>
      obtain ⟨here, later⟩ := List.forall_mem_cons.1 ih
      rw [writtenItems, Draft.ofItems, Draft.heightItems, Draft.heightItems, here, next later]
      rfl
  | object members ih =>
    refine congrArg (· + 1)
      (show Draft.heightMembers (writtenMembers members) = Draft.heightMembers (Draft.ofMembers members) from ?_)
    induction members with
    | nil => rfl
    | cons member rest next =>
      obtain ⟨here, later⟩ := List.forall_mem_cons.1 ih
      rw [writtenMembers, Draft.ofMembers, Draft.heightMembers, Draft.heightMembers, here, next later]
      rfl

/-- A value that is read back has only floats that are. -/
theorem exact_of_read {value : Json} (distinct : value.Distinct) (read : value.written.read = .ok value) : value.Exact := by
  induction value using partInduction with
  | float x => exact Finite64.exact_iff.2 (Draft.eq_of_read_float read)
  | null | bool | whole | string => trivial
  | array items ih =>
    obtain ⟨-, values, each, same⟩ := Draft.read_array_eq_ok_iff.1 read
    cases same
    rw [writtenItems_eq_map, List.forall₂_map_left_iff, List.forall₂_same] at each
    exact exact_array_iff.2 fun item mem => ih item mem (distinct_hereditary.item distinct mem) (each item mem)
  | object members ih =>
    obtain ⟨-, values, each, same⟩ := Draft.read_object_eq_ok_iff.1 read
    rw [writtenMembers_eq_map, List.forall₂_map_left_iff] at each
    have names : members.map Prod.fst = values.map Prod.fst := by
      rw [← List.forall₂_eq_eq_eq, List.forall₂_map_left_iff, List.forall₂_map_right_iff]
      exact each.imp fun _ _ here => Except.ok.inj here.1
    -- no name is given twice, so that the members that are read are those of the value
    rw [membersOf_eq_of_nodup (names ▸ distinct.1)] at same
    cases same
    rw [List.forall₂_same] at each
    exact exact_object_iff.2 fun member mem => ih member mem (distinct_hereditary.member distinct mem) (each member mem).2

/-- The text of a value that names no member twice is read as the value exactly if its floats are and it does not nest
too deeply. -/
theorem parse_render_iff {value : Json} (distinct : value.Distinct) :
    parse value.render.toUTF8.toList = .ok value ↔ value.Exact ∧ value.height ≤ Draft.maxDepth := by
  rw [parse_render]
  constructor
  · intro read
    have fits := Draft.fits_of_read (Nat.zero_le _) read
    rw [Nat.zero_add] at fits
    rw [Draft.clip_eq_self (by rwa [Nat.zero_add])] at read
    exact ⟨exact_of_read distinct read, value.height_written ▸ fits⟩
  · rintro ⟨exact, fits⟩
    rw [written_eq exact, Draft.clip_eq_self (by rwa [Nat.zero_add]), Draft.read_ofJson distinct]

end Json
end FlatStore
