import FlatStore.Proofs.Parsing
import FlatStore.Proofs.Schema
import FlatStore.Source
import FlatStore.Store.Lemmas
import Mathlib.Data.List.Induction

/-!
Addresses and their texts. Each address that can be built is read back from its text, and a text that is read as an
address is the text of that address (`Address.parse?_eq_some_iff`). The texts that are read are those without an empty
piece, a count segment or a numeral of more than 64 bits (`Address.parse?_some_iff`), so that no count key is. No two
addresses share a key, be it of a scalar or of a count, and writing at one leaves what is read at all others
(`Address.text_determines`).
-/
namespace FlatStore

/-! ### Numerals -/

theorem digitChar_of_isDecimalDigit {c : Char} (digit : isDecimalDigit c = true) :
    c.toNat - '0'.toNat < 10 ∧ Nat.digitChar (c.toNat - '0'.toNat) = c := by
  have range : 48 ≤ c.toNat ∧ c.toNat ≤ 57 := by
    simpa [isDecimalDigit, Char.le_def, UInt32.le_iff_toNat_le] using digit
  have less : c.toNat - '0'.toNat < 10 := by
    change c.toNat - 48 < 10
    omega
  refine ⟨less, Char.toNat_inj.1 ?_⟩
  rw [Nat.toNat_digitChar_of_lt_ten less]
  change 48 + (c.toNat - 48) = c.toNat
  omega

/-- Decimal digits that do not begin with a zero are those of the number they stand for. -/
theorem toDigits_numeralValue {text : List Char} (nonempty : text ≠ []) (leading : text.head? ≠ some '0')
    (digits : ∀ c ∈ text, isDecimalDigit c = true) :
    0 < numeralValue text ∧ Nat.toDigits 10 (numeralValue text) = text := by
  induction text using List.reverseRecOn with
  | nil => exact absurd rfl nonempty
  | append_singleton front c ih =>
    obtain ⟨small, same⟩ := digitChar_of_isDecimalDigit (digits c (by simp))
    have value : numeralValue (front ++ [c]) = numeralValue front * 10 + (c.toNat - '0'.toNat) := by
      simp [numeralValue]
    by_cases alone : front = []
    · subst alone
      have positive : 0 < c.toNat - '0'.toNat := by
        refine Nat.pos_of_ne_zero fun zero => leading ?_
        rw [zero] at same
        rw [← same]
        rfl
      rw [value, show numeralValue [] = 0 from rfl, Nat.zero_mul, Nat.zero_add]
      exact ⟨positive, by rw [Nat.toDigits_of_lt_base small, same]; rfl⟩
    · have first : front.head? ≠ some '0' := by
        obtain ⟨d, others, rfl⟩ := List.exists_cons_of_ne_nil alone
        simpa using leading
      obtain ⟨positive, front_digits⟩ := ih alone first fun d mem => digits d (by simp [mem])
      have quotient : (numeralValue front * 10 + (c.toNat - '0'.toNat)) / 10 = numeralValue front := by omega
      have remainder : (numeralValue front * 10 + (c.toNat - '0'.toNat)) % 10 = c.toNat - '0'.toNat := by omega
      rw [value]
      refine ⟨by omega, ?_⟩
      rw [Nat.toDigits_of_base_le (by decide) (by omega), quotient, remainder, front_digits, same]

/-- The texts of indices are those of the natural numbers. -/
theorem isIndexText_iff {text : List Char} : isIndexText text = true ↔ ∃ n : Nat, text = (toString n).toList := by
  constructor
  · intro numeral
    rw [isIndexText, Bool.or_eq_true, decide_eq_true_eq] at numeral
    rcases numeral with rfl | numeral
    · exact ⟨0, rfl⟩
    · simp only [Bool.and_eq_true, Bool.not_eq_true', List.isEmpty_eq_false_iff, decide_eq_true_eq,
        List.all_eq_true] at numeral
      obtain ⟨⟨nonempty, leading⟩, digits⟩ := numeral
      refine ⟨numeralValue text, ?_⟩
      simpa using (toDigits_numeralValue nonempty leading digits).2.symm
  · rintro ⟨n, rfl⟩
    exact Segment.isIndexText_toString n

namespace Address

variable {a b p q : Address} {text : String}

/-! ### Reading -/

theorem segment?_eq_some_iff {piece : List Char} {segment : Segment} :
    segment? piece = some segment ↔ piece = segment.text.toList ∧ ∀ i, segment = .index i → i < 2 ^ 64 := by
  constructor
  · intro read
    unfold segment? at read
    split at read
    · next numeral =>
      obtain ⟨n, rfl⟩ := isIndexText_iff.1 numeral
      have value : numeralValue (toString n).toList = n := by simpa using numeralValue_toDigits n
      rw [value] at read
      split at read
      · next small =>
        cases read
        exact ⟨rfl, fun i same => Segment.index.inj same ▸ small⟩
      · cases read
    · split at read
      · cases read
        refine ⟨by simp [Segment.text], ?_⟩
        rintro i ⟨⟩
      · cases read
  · rintro ⟨rfl, bounded⟩
    exact segment?_text bounded

/-- The pieces of a text are read as segments if they are the texts of these. -/
theorem mapM_segment?_eq_some_iff {given : List (List Char)} {segments : List Segment} :
    given.mapM segment? = some segments ↔
      given = segments.map (fun s => s.text.toList) ∧ ∀ i, .index i ∈ segments → i < 2 ^ 64 := by
  induction given generalizing segments with
  | nil =>
    rw [List.mapM_nil]
    constructor
    · intro read
      cases read
      exact ⟨rfl, nofun⟩
    · rintro ⟨none, -⟩
      rw [List.map_eq_nil_iff.1 none.symm]
      rfl
  | cons piece rest ih =>
    rw [List.mapM_cons]
    constructor
    · intro read
      obtain ⟨first, here, read⟩ := Option.bind_eq_some_iff.1 read
      obtain ⟨others, later, read⟩ := Option.bind_eq_some_iff.1 read
      cases read
      obtain ⟨same, bounded⟩ := segment?_eq_some_iff.1 here
      obtain ⟨others_same, others_bounded⟩ := ih.1 later
      refine ⟨by rw [List.map_cons, ← same, ← others_same], fun i mem => ?_⟩
      rcases List.mem_cons.1 mem with same | mem
      · exact bounded i same.symm
      · exact others_bounded i mem
    · rintro ⟨same, bounded⟩
      cases segments with
      | nil => cases same
      | cons first others =>
        obtain ⟨here, later⟩ := List.cons.inj same
        rw [segment?_eq_some_iff.2 ⟨here, fun i same => bounded i (same ▸ List.mem_cons_self)⟩,
          ih.2 ⟨later, fun i mem => bounded i (List.mem_cons_of_mem _ mem)⟩]
        rfl

/-- A text is read as the address that it is the text of, if the indices of that have 64 bits. -/
theorem parse?_eq_some_iff :
    parse? text = some a ↔ a.text = text ∧ ∀ i, .index i ∈ a.segments → i < 2 ^ 64 := by
  constructor
  · intro read
    unfold parse? at read
    split at read
    · next empty =>
      cases read
      exact ⟨empty.symm, nofun⟩
    · obtain ⟨segments, each, rfl⟩ := Option.map_eq_some_iff.1 read
      obtain ⟨same, bounded⟩ := mapM_segment?_eq_some_iff.1 each
      refine ⟨?_, bounded⟩
      have texts : (segments.map Segment.text).map String.toList = pieces '.' text.toList := by
        rw [same, List.map_map]
        rfl
      rw [← String.toList_inj, Address.text, String.toList_intercalate, texts]
      exact join_pieces '.' text.toList
  · rintro ⟨rfl, bounded⟩
    exact parse?_text bounded

/-! ### Texts that are read -/

/-- A piece is read as a segment unless it is empty, the count segment or too large a numeral. -/
theorem segment?_some_iff {piece : List Char} (apart : '.' ∉ piece) :
    (∃ segment, segment? piece = some segment) ↔
      String.ofList piece ≠ "" ∧ String.ofList piece ≠ "#" ∧
        ∀ n : Nat, String.ofList piece = toString n → n ≤ 2 ^ 64 - 1 := by
  constructor
  · rintro ⟨segment, read⟩
    obtain ⟨rfl, bounded⟩ := segment?_eq_some_iff.1 read
    rw [String.ofList_toList]
    refine ⟨segment.text_ne_empty, segment.text_ne_countSegment, fun n same => ?_⟩
    have small := bounded n (Segment.text_injective (same : segment.text = (Segment.index n).text))
    omega
  · rintro ⟨nonempty, unmarked, bounded⟩
    by_cases numeral : isIndexText piece = true
    · obtain ⟨n, rfl⟩ := isIndexText_iff.1 numeral
      have small := bounded n String.ofList_toList
      refine ⟨.index n, segment?_eq_some_iff.2 ⟨rfl, fun i same => ?_⟩⟩
      cases same
      omega
    · have other : String.ofList piece ≠ countSegment := unmarked
      have usable : isFieldName (String.ofList piece) = true := by simp [isFieldName, nonempty, apart, numeral, other]
      refine ⟨.field ⟨_, usable⟩, segment?_eq_some_iff.2 ⟨by simp [Segment.text], ?_⟩⟩
      rintro i ⟨⟩

theorem mapM_segment?_some_iff {given : List (List Char)} :
    (∃ segments, given.mapM segment? = some segments) ↔ ∀ piece ∈ given, ∃ segment, segment? piece = some segment := by
  induction given with
  | nil => exact iff_of_true ⟨[], rfl⟩ nofun
  | cons piece rest ih =>
    rw [List.forall_mem_cons, ← ih, List.mapM_cons]
    constructor
    · rintro ⟨segments, read⟩
      obtain ⟨first, here, read⟩ := Option.bind_eq_some_iff.1 read
      obtain ⟨others, later, -⟩ := Option.bind_eq_some_iff.1 read
      exact ⟨⟨first, here⟩, others, later⟩
    · rintro ⟨⟨first, here⟩, others, later⟩
      exact ⟨first :: others, by rw [here, later]; rfl⟩

/-- A text is read as an address if it is empty or each of its pieces is read. -/
theorem parse?_some_iff :
    (∃ a, parse? text = some a) ↔ text = "" ∨ ∀ piece ∈ piecesOf '.' text,
      piece ≠ "" ∧ piece ≠ "#" ∧ ∀ n : Nat, piece = toString n → n ≤ 2 ^ 64 - 1 := by
  by_cases empty : text = ""
  · exact iff_of_true ⟨.root, by rw [empty]; rfl⟩ (.inl empty)
  have read : (∃ a, parse? text = some a) ↔ ∃ segments, (pieces '.' text.toList).mapM segment? = some segments := by
    rw [parse?, if_neg empty]
    constructor
    · rintro ⟨a, read⟩
      obtain ⟨segments, read, -⟩ := Option.map_eq_some_iff.1 read
      exact ⟨segments, read⟩
    · rintro ⟨segments, read⟩
      exact ⟨⟨segments⟩, by rw [read]; rfl⟩
  rw [read, mapM_segment?_some_iff, or_iff_right empty, piecesOf, List.forall_mem_map]
  exact forall₂_congr fun piece mem => segment?_some_iff (separator_not_mem mem)

/-! ### Built addresses -/

/-- Whether an address is built from the root by steps that succeed. -/
inductive Built : Address → Prop
  | root : Built root
  | append {a b : Address} {name : String} : Built a → a.append name = .ok b → Built b
  | index {a : Address} {i : Nat} : Built a → i < 2 ^ 64 → Built (a.index i)
  | replaceLast {a b : Address} {name : String} : Built a → a.replaceLast name = .ok b → Built b
  | parent {a b : Address} {last : Segment} : Built a → a.parent? = some (b, last) → Built b
  | parse {text : String} {a : Address} : parse? text = some a → Built a

theorem segments_of_replaceLast {name : String} (made : a.replaceLast name = .ok b) :
    ∃ field, b.segments = a.segments.dropLast ++ [.field field] := by
  obtain ⟨field, -, made⟩ := bind_eq_ok_iff.1 made
  by_cases root : a.isRoot = true
  · rw [if_pos root] at made
    cases made
  · rw [if_neg root] at made
    cases made
    exact ⟨field, rfl⟩

/-- No step makes an index of more than 64 bits. -/
theorem Built.bounded (built : Built a) : ∀ i, .index i ∈ a.segments → i < 2 ^ 64 := by
  induction built with
  | root => nofun
  | append _ made ih =>
    obtain ⟨usable, rfl⟩ := append_eq_ok_iff.1 made
    rw [member_eq usable]
    intro i mem
    rcases List.mem_append.1 mem with mem | mem
    · exact ih i mem
    · cases List.mem_singleton.1 mem
  | index _ small ih =>
    intro i mem
    rcases List.mem_append.1 mem with mem | mem
    · exact ih i mem
    · cases List.mem_singleton.1 mem
      exact small
  | replaceLast _ made ih =>
    obtain ⟨field, segments⟩ := segments_of_replaceLast made
    intro i mem
    rw [segments] at mem
    rcases List.mem_append.1 mem with mem | mem
    · exact ih i (List.dropLast_subset _ mem)
    · cases List.mem_singleton.1 mem
  | parent _ above ih =>
    obtain ⟨last, -, same⟩ := Option.map_eq_some_iff.1 above
    cases same
    exact fun i mem => ih i (List.dropLast_subset _ mem)
  | parse read => exact (parse?_eq_some_iff.1 read).2

/-! ### Keys -/

theorem text_injective : Function.Injective Address.text := by
  intro a b same
  exact Slot.leaf.inj (Slot.key_injective (same : (Slot.leaf a).key = (Slot.leaf b).key))

theorem countKey_injective : Function.Injective Address.countKey := by
  intro a b same
  exact Slot.count.inj (Slot.key_injective (same : (Slot.count a).key = (Slot.count b).key))

theorem text_ne_countKey (a b : Address) : a.text ≠ b.countKey := by
  intro same
  have slots : Slot.leaf a = Slot.count b := Slot.key_injective same
  cases slots

/-- No count key is read as an address. -/
theorem parse?_countKey (a : Address) : parse? a.countKey = none := by
  refine Option.eq_none_iff_forall_ne_some.2 fun b read => ?_
  exact text_ne_countKey b a (parse?_eq_some_iff.1 read).1

end Address

/-! ### Writing at addresses -/

namespace Store

variable (s : Store) (p q : Address) (value : Scalar) (n : Nat)

theorem get_set : (s.set p value).source.get q = if q = p then .ok (some value) else s.source.get q := by
  change Except.ok ((s.insert p.text value).get? q.text) = _
  rw [get?_insert]
  by_cases same : q = p
  · rw [if_pos (congrArg Address.text same), if_pos same]
  · rw [if_neg (Address.text_injective.ne same), if_neg same]
    rfl

theorem count_set : (s.set p value).source.count q = s.source.count q := by
  change countOf q ((s.insert p.text value).get? q.countKey) = _
  rw [get?_insert, if_neg (Address.text_ne_countKey p q).symm]
  rfl

theorem get_setCount : (s.setCount p n).source.get q = s.source.get q := by
  change Except.ok ((s.insert p.countKey (.int (.ofNat n))).get? q.text) = _
  rw [get?_insert, if_neg (Address.text_ne_countKey q p)]
  rfl

theorem count_setCount_of_ne {s : Store} {p q : Address} (other : q ≠ p) :
    (s.setCount p n).source.count q = s.source.count q := by
  change countOf q ((s.insert p.countKey (.int (.ofNat n))).get? q.countKey) = _
  rw [get?_insert, if_neg (Address.countKey_injective.ne other)]
  rfl

theorem count_setCount {n : Nat} (fits : n < 2 ^ 63) : (s.setCount p n).source.count p = .ok (some n) := by
  change countOf p ((s.insert p.countKey (.int (.ofNat n))).get? p.countKey) = _
  have written : (Int64.ofNat n).toInt = n := Int64.toInt_ofNat_of_lt fits
  rw [get?_insert, if_pos rfl, countOf, written, if_pos (Int.natCast_nonneg n), Int.toNat_natCast]

end Store

/-- Addresses and their texts determine each other: an address that is built is read back from its text, and a text that
is read is that of the address. The texts that are read are the empty one and those of which no piece is empty, a count
segment, or the numeral of a number of more than 64 bits, so that no count key is read. What is written at an address is
read there alone, and its count is counted there alone. -/
theorem Address.text_determines :
    (∀ a, Built a → parse? a.text = some a) ∧
      (∀ text a, parse? text = some a → a.text = text) ∧
      (∀ text, (∃ a, parse? text = some a) ↔ text = "" ∨ ∀ piece ∈ piecesOf '.' text,
        piece ≠ "" ∧ piece ≠ "#" ∧ ∀ n : Nat, piece = toString n → n ≤ 2 ^ 64 - 1) ∧
      (∀ a : Address, parse? a.countKey = none) ∧
      ∀ (s : Store) (p q : Address) (value : Scalar) (n : Nat),
        (s.set p value).source.get q = (if q = p then .ok (some value) else s.source.get q) ∧
        (s.set p value).source.count q = s.source.count q ∧
        (s.setCount p n).source.get q = s.source.get q ∧
        (q ≠ p → (s.setCount p n).source.count q = s.source.count q) ∧
        (n < 2 ^ 63 → (s.setCount p n).source.count p = .ok (some n)) := by
  refine ⟨fun a built => parse?_text built.bounded, fun text a read => (parse?_eq_some_iff.1 read).1,
    fun text => parse?_some_iff, parse?_countKey, fun s p q value n => ?_⟩
  exact ⟨s.get_set p q value, s.count_set p q value, s.get_setCount p q n, Store.count_setCount_of_ne n,
    s.count_setCount p⟩

/-- A numeral is an index of 64 bits, and a name if it begins with a zero that it does not need. -/
example : (Address.parse? "a.01.18446744073709551615").map Address.length = some 3 ∧
    Address.parse? "a.01.18446744073709551616" = none := by decide +kernel

end FlatStore
