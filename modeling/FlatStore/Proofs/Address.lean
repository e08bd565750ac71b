import FlatStore.Flatten
import Std.Data.String.ToNat

/-!
Addresses and keys. The key of a slot is its segments between points, so that no two slots share a key
(`Slot.key_injective`). The slots of an address are those at it and below it (`Slot.Under`); those of two segments
below one address are apart (`Slot.Under.child_eq`). Their keys are those that go on from the written form of the address
(`Slot.covers_key_iff`).
-/
namespace FlatStore

/-! ### Segments -/

namespace Segment

/-- No numeral but that of zero begins with a zero. -/
private theorem toDigits_leading (i : Nat) : i = 0 ∨ (Nat.toDigits 10 i).head? ≠ some '0' := by
  induction i using Nat.strongRecOn with
  | _ i ih =>
    by_cases small : i < 10
    · have digits : ∀ d < 10, d = 0 ∨ [Nat.digitChar d].head? ≠ some '0' := by decide
      rw [Nat.toDigits_of_lt_base small]
      exact digits i small
    · have front := (ih (i / 10) (by omega)).resolve_left (by omega)
      obtain ⟨first, rest, digits⟩ := List.exists_cons_of_ne_nil (Nat.toDigits_ne_nil (n := i / 10) (b := 10))
      rw [Nat.toDigits_of_base_le (by decide) (by omega), digits]
      exact .inr (by simpa [digits] using front)

theorem isIndexText_toString (i : Nat) : isIndexText (toString i).toList = true := by
  have decimal : (Nat.toDigits 10 i).all isDecimalDigit = true := by
    refine List.all_eq_true.2 fun c mem => ?_
    have digit : c.isDigit = true := Nat.isDigit_of_mem_toDigits (by decide) (by decide) mem
    simp only [Char.isDigit, Bool.and_eq_true, decide_eq_true_eq] at digit
    simpa [isDecimalDigit, Char.le_def] using digit
  rw [show (toString i).toList = Nat.toDigits 10 i by simp, isIndexText]
  rcases toDigits_leading i with rfl | leading
  · rfl
  · simp [Nat.toDigits_ne_nil, leading, decimal]

/-- A text without points is the text of at most one segment. -/
theorem text_injective : Function.Injective text := by
  intro s t same
  have mixed : ∀ (name : FieldName) (i : Nat), name.text ≠ toString i := by
    intro name i eq
    have usable := name.usable
    rw [eq, isFieldName, isIndexText_toString] at usable
    simp at usable
  cases s with
  | field name =>
    cases t with
    | field other =>
      obtain ⟨text, usable⟩ := name
      cases (same : text = other.text)
      rfl
    | index i => exact absurd same (mixed name i)
  | index i =>
    cases t with
    | field name => exact absurd same.symm (mixed name i)
    | index j => rw [Nat.repr_injective (same : i.repr = j.repr)]

theorem text_ne_empty (s : Segment) : s.text ≠ "" := by
  cases s with
  | field name =>
    have usable := name.usable
    intro empty
    simp [isFieldName, show name.text = "" from empty] at usable
  | index i =>
    intro empty
    have digits : (toString i).toList = [] := by rw [show toString i = "" from empty]; rfl
    simp [Nat.toDigits_ne_nil] at digits

theorem text_ne_countSegment (s : Segment) : s.text ≠ countSegment := by
  cases s with
  | field name =>
    have usable := name.usable
    intro marker
    simp [isFieldName, show name.text = countSegment from marker] at usable
  | index i =>
    intro marker
    have index := isIndexText_toString i
    rw [show toString i = countSegment from marker] at index
    exact absurd index (by decide)

theorem point_not_mem_text (s : Segment) : '.' ∉ s.text.toList := by
  cases s with
  | field name =>
    have usable := name.usable
    simp only [isFieldName, Bool.and_eq_true, Bool.not_eq_true', List.contains_eq_mem, decide_eq_false_iff_not]
      at usable
    exact usable.1.1.2
  | index i =>
    intro mem
    have digit : ('.' : Char).isDigit = true :=
      Nat.isDigit_of_mem_toDigits (b := 10) (n := i) (by decide) (by decide) (by simpa [text] using mem)
    exact absurd digit (by decide)

end Segment

/-! ### Keys -/

namespace Slot

def address : Slot → Address
  | .leaf a | .count a => a

/-- The pieces between the points of a key. The root has the empty text, which is one empty piece. -/
def keyPieces : Slot → List String
  | .leaf a => if a.isRoot then [""] else a.segments.map Segment.text
  | .count a => a.segments.map Segment.text ++ [countSegment]

private theorem key_eq (slot : Slot) : slot.key = ".".intercalate slot.keyPieces := by
  cases slot with
  | leaf a =>
    by_cases root : a.isRoot = true
    · simp [key, keyPieces, Address.text, root, List.isEmpty_iff.1 root]
    · simp [key, keyPieces, Address.text, root]
  | count a =>
    by_cases root : a.isRoot = true
    · simp [key, keyPieces, Address.countKey, root, List.isEmpty_iff.1 root]
    · have some : a.segments.map Segment.text ≠ [] := by simpa [Address.isRoot] using root
      rw [keyPieces, String.intercalate_append_of_ne_nil some (by simp)]
      simp [key, Address.countKey, root, Address.text, String.append_assoc]

private theorem point_not_mem (slot : Slot) : ∀ piece ∈ slot.keyPieces.map String.toList, '.' ∉ piece := by
  have segments : ∀ a : Address, ∀ piece ∈ (a.segments.map Segment.text).map String.toList, '.' ∉ piece := by
    intro a piece mem
    simp only [List.mem_map] at mem
    obtain ⟨_, ⟨segment, -, rfl⟩, rfl⟩ := mem
    exact segment.point_not_mem_text
  cases slot with
  | leaf a =>
    by_cases root : a.isRoot = true
    · simp [keyPieces, root]
    · simpa [keyPieces, root] using segments a
  | count a =>
    intro piece mem
    rw [keyPieces, List.map_append, List.mem_append] at mem
    rcases mem with mem | mem
    · exact segments a piece mem
    · rw [List.mem_singleton.1 mem]
      decide

theorem pieces_key (slot : Slot) : pieces '.' slot.key.toList = slot.keyPieces.map String.toList := by
  have nonempty : slot.keyPieces.map String.toList ≠ [] := by
    cases slot with
    | leaf a =>
      by_cases root : a.isRoot = true
      · simp [keyPieces, root]
      · have some : a.segments ≠ [] := by simpa [Address.isRoot] using root
        simp [keyPieces, root, some]
    | count a => simp [keyPieces]
  rw [key_eq, String.toList_intercalate]
  exact pieces_join nonempty slot.point_not_mem

private theorem segments_eq_of_texts {a b : Address} (same : a.segments.map Segment.text = b.segments.map Segment.text) :
    a = b :=
  congrArg Address.mk ((List.map_inj_right fun _ _ => @Segment.text_injective _ _).1 same)

/-- No key of a leaf ends in the count segment. -/
private theorem leaf_ne_count (a b : Address) : (leaf a).keyPieces ≠ (count b).keyPieces := by
  intro same
  have last := congrArg List.getLast? same
  by_cases root : a.isRoot = true
  · simp [keyPieces, root, countSegment] at last
  · simp only [keyPieces, root, Bool.false_eq_true, if_false, List.getLast?_append, List.getLast?_singleton,
      Option.some_or, List.getLast?_map, Option.map_eq_some_iff] at last
    obtain ⟨segment, -, marker⟩ := last
    exact segment.text_ne_countSegment marker

/-- Different slots have different keys. -/
theorem key_injective : Function.Injective key := by
  intro s t same
  have same : s.keyPieces = t.keyPieces := by
    have eq := s.pieces_key
    rw [same, t.pieces_key] at eq
    exact ((List.map_inj_right fun _ _ => String.toList_inj.1).1 eq).symm
  cases s with
  | leaf a =>
    cases t with
    | count b => exact absurd same (leaf_ne_count a b)
    | leaf b =>
      have empty : ∀ c : Address, c.isRoot = false → [""] ≠ c.segments.map Segment.text := by
        intro c nonroot eq
        obtain ⟨segment, -, none⟩ := List.mem_map.1 (eq ▸ List.mem_singleton_self "")
        exact segment.text_ne_empty none
      by_cases first : a.isRoot = true
      · by_cases second : b.isRoot = true
        · rw [segments_eq_of_texts (a := a) (b := b) (by rw [List.isEmpty_iff.1 first, List.isEmpty_iff.1 second])]
        · simp only [keyPieces, first, second, if_true] at same
          exact absurd same (empty b (by simpa using second))
      · by_cases second : b.isRoot = true
        · simp only [keyPieces, first, second, if_true] at same
          exact absurd same.symm (empty a (by simpa using first))
        · simp only [keyPieces, first, second] at same
          rw [segments_eq_of_texts same]
  | count a =>
    cases t with
    | leaf b => exact absurd same.symm (leaf_ne_count b a)
    | count b => rw [segments_eq_of_texts (List.append_cancel_right same)]

end Slot

/-! ### Addresses below an address -/

namespace Address

/-- The address one segment below. -/
def child (a : Address) (segment : Segment) : Address := ⟨a.segments ++ [segment]⟩

/-- The address of a field, which is the address itself for what cannot name one. -/
def member (a : Address) (name : String) : Address :=
  if usable : isFieldName name = true then a.field ⟨name, usable⟩ else a

variable {a b : Address} {name other : String}

theorem member_eq (usable : isFieldName name = true) : a.member name = a.child (.field ⟨name, usable⟩) := by
  rw [member, dif_pos usable]
  rfl

theorem field_eq_member (a : Address) (name : FieldName) : a.field name = a.member name.text := by
  rw [member, dif_pos name.usable]

theorem append_eq (usable : isFieldName name = true) : a.append name = .ok (a.member name) := by
  simp [append, FieldName.of, usable, member, bind, Except.bind, pure, Except.pure]

theorem append_eq_ok_iff : a.append name = .ok b ↔ isFieldName name = true ∧ b = a.member name := by
  by_cases usable : isFieldName name = true
  · simp [append_eq usable, usable, eq_comm]
  · simp [append, FieldName.of, usable, bind, Except.bind]

theorem isRoot_child (segment : Segment) : (a.child segment).isRoot = false := by
  simp [isRoot, child]

theorem isRoot_member (usable : isFieldName name = true) : (a.member name).isRoot = false := by
  rw [member_eq usable, isRoot_child]

theorem replaceLast_eq (usable : isFieldName name = true) (other_usable : isFieldName other = true) :
    (a.member name).replaceLast other = .ok (a.member other) := by
  rw [replaceLast, isRoot_member usable, member_eq usable, member_eq other_usable]
  simp [FieldName.of, other_usable, child, bind, Except.bind, pure, Except.pure]

end Address

/-! ### Slots of an address -/

namespace Slot

/-- Whether a slot stands at an address or below it. -/
def Under (slot : Slot) (a : Address) : Prop := a.segments <+: slot.address.segments

variable {slot : Slot} {a : Address} {s t : Segment} {name other : String}

theorem under_self (slot : Slot) : slot.Under slot.address := List.prefix_refl _

theorem under_root (slot : Slot) : slot.Under .root := List.nil_prefix

theorem Under.of_child (under : slot.Under (a.child s)) : slot.Under a :=
  (List.prefix_append _ _).trans under

theorem Under.of_member (under : slot.Under (a.member name)) : slot.Under a := by
  by_cases usable : isFieldName name = true
  · exact (Address.member_eq usable ▸ under).of_child
  · rwa [Address.member, dif_neg usable] at under

theorem Under.of_block {sliced : Bool} (under : slot.Under (a.block sliced)) : slot.Under a := by
  unfold Address.block at under
  split at under
  · exact under
  · exact Under.of_child under

/-- No slot stands below two segments of one address. -/
theorem Under.child_eq (first : slot.Under (a.child s)) (second : slot.Under (a.child t)) : s = t := by
  have same := List.prefix_of_prefix_length_le first second (by simp [Address.child])
  simpa [Address.child] using same.eq_of_length (by simp [Address.child])

/-- What stands below a segment and below another address under the same one has the segment in that address. -/
theorem Under.child_prefix {p : Address} (below : slot.Under (a.child s)) (under : slot.Under p)
    (above : a.segments <+: p.segments) (differ : p ≠ a) : (a.child s).segments <+: p.segments := by
  have length : a.segments.length ≠ p.segments.length := by
    intro equal
    apply differ
    exact congrArg Address.mk (above.eq_of_length equal).symm
  have shorter := above.length_le
  refine List.prefix_of_prefix_length_le below under ?_
  rw [Address.child, List.length_append, List.length_singleton]
  omega

theorem Under.member_eq (usable : isFieldName name = true) (other_usable : isFieldName other = true)
    (first : slot.Under (a.member name)) (second : slot.Under (a.member other)) : name = other := by
  rw [Address.member_eq usable] at first
  rw [Address.member_eq other_usable] at second
  simpa using first.child_eq second

/-- What stands at an address, or above it, does not stand below it. -/
theorem not_under_child_of_prefix (above : slot.address.segments <+: a.segments) : ¬ slot.Under (a.child s) := by
  intro under
  have length := Nat.le_trans under.length_le above.length_le
  have longer : (a.child s).segments.length = a.segments.length + 1 := by simp [Address.child]
  omega

theorem not_under_child (here : slot.address = a) : ¬ slot.Under (a.child s) :=
  not_under_child_of_prefix (here ▸ List.prefix_refl _)

theorem not_under_member (usable : isFieldName name = true) (here : slot.address = a) :
    ¬ slot.Under (a.member name) :=
  Address.member_eq usable ▸ not_under_child here

/-- What stands at an address does not stand at a field of its block. -/
theorem not_under_block_member {sliced : Bool} (usable : isFieldName name = true) (here : slot.address = a) :
    ¬ slot.Under ((a.block sliced).member name) := by
  rw [Address.block]
  split
  · exact not_under_member usable here
  · intro under
    exact not_under_child here under.of_member

end Slot

/-! ### Keys of an address -/

/-- Whether a key is the written form of an address or goes on from there behind a point, as the key of its count does.
The root covers all keys. -/
def Address.Covers (a : Address) (key : String) : Prop :=
  a.isRoot = true ∨ key = a.text ∨ ∃ rest, key = a.text ++ "." ++ rest

/-- A key goes on from an address if it begins with the written form and a point. -/
theorem Address.behind_iff {a : Address} {key : String} :
    (∃ rest, key = a.text ++ "." ++ rest) ↔ (a.text ++ ".").toList <+: key.toList := by
  constructor
  · rintro ⟨rest, rfl⟩
    exact ⟨rest.toList, by simp⟩
  · rintro ⟨rest, same⟩
    exact ⟨String.ofList rest, by rw [← String.toList_inj, ← same]; simp⟩

instance (a : Address) (key : String) : Decidable (a.Covers key) :=
  decidable_of_iff (a.isRoot = true ∨ key = a.text ∨ (a.text ++ ".").toList <+: key.toList)
    (by rw [Address.Covers, Address.behind_iff])

namespace Slot

variable {slot : Slot} {a : Address}

private theorem covers_key_of_under (under : slot.Under a) : a.Covers slot.key := by
  by_cases root : a.isRoot = true
  · exact .inl root
  have some_segment : a.segments.map Segment.text ≠ [] := by simpa [Address.isRoot] using root
  have text : ∀ b : Address, a.segments <+: b.segments → b.text = a.text ∨ ∃ rest, b.text = a.text ++ "." ++ rest := by
    rintro ⟨_⟩ ⟨more, rfl⟩
    by_cases last : more = []
    · exact .inl (by simp [Address.text, last])
    · refine .inr ⟨".".intercalate (more.map Segment.text), ?_⟩
      rw [Address.text, List.map_append, String.intercalate_append_of_ne_nil some_segment (by simpa using last)]
      rfl
  cases slot with
  | leaf b => exact .inr (text b under)
  | count b =>
    have below : b.isRoot = false := by
      cases shown : b.isRoot with
      | false => rfl
      | true =>
        have inside : a.segments <+: b.segments := under
        rw [List.isEmpty_iff.1 shown] at inside
        simp [Address.isRoot, List.prefix_nil.1 inside] at root
    have key : (Slot.count b).key = b.text ++ "." ++ countSegment := by simp [Slot.key, Address.countKey, below]
    rw [key]
    rcases text b under with same | ⟨rest, eq⟩
    · exact .inr (.inr ⟨countSegment, by rw [same]⟩)
    · exact .inr (.inr ⟨rest ++ "." ++ countSegment, by simp [eq, String.append_assoc]⟩)

/-- An address stands before another if its texts do. -/
private theorem prefix_of_texts {a b : Address} (texts : a.segments.map Segment.text <+: b.segments.map Segment.text) :
    a.segments <+: b.segments := by
  rw [List.prefix_iff_eq_take, ← List.map_take] at texts
  rw [(List.map_inj_right fun _ _ => @Segment.text_injective _ _).1 texts]
  exact List.take_prefix _ _

private theorem under_of_pieces (below : a.isRoot = false) (texts : a.segments.map Segment.text <+: slot.keyPieces) :
    slot.Under a := by
  cases slot with
  | leaf b =>
    by_cases root : b.isRoot = true
    · simp only [keyPieces, root, if_true] at texts
      obtain ⟨segment, mem⟩ := List.exists_mem_of_ne_nil a.segments (by simpa [Address.isRoot] using below)
      have empty := texts.subset (List.mem_map_of_mem mem)
      exact absurd (List.mem_singleton.1 empty) segment.text_ne_empty
    · simp only [keyPieces, root] at texts
      exact prefix_of_texts texts
  | count b =>
    rcases List.prefix_concat_iff.1 texts with all | texts
    · have marker : countSegment ∈ a.segments.map Segment.text := by simp [all]
      obtain ⟨segment, -, same⟩ := List.mem_map.1 marker
      exact absurd same segment.text_ne_countSegment
    · exact prefix_of_texts texts

/-- The pieces of a key that goes on behind an address are those of the address and those of what follows. -/
private theorem keyPieces_behind (below : a.isRoot = false) {rest : String} (behind : slot.key = a.text ++ "." ++ rest) :
    slot.keyPieces = a.segments.map Segment.text ++ piecesOf '.' rest := by
  have some_segment : a.segments.map Segment.text ≠ [] := by simpa [Address.isRoot] using below
  have some_piece : piecesOf '.' rest ≠ [] := by simpa [piecesOf] using pieces_ne_nil '.' rest.toList
  have texts : (piecesOf '.' rest).map String.toList = pieces '.' rest.toList := by simp [piecesOf]
  have joined : ".".intercalate (piecesOf '.' rest) = rest := by
    rw [← String.toList_inj, String.toList_intercalate, texts]
    exact join_pieces '.' rest.toList
  have key : slot.key = ".".intercalate (a.segments.map Segment.text ++ piecesOf '.' rest) := by
    rw [String.intercalate_append_of_ne_nil some_segment some_piece, joined]
    exact behind
  have apart : ∀ piece ∈ (a.segments.map Segment.text ++ piecesOf '.' rest).map String.toList, '.' ∉ piece := by
    intro piece mem
    rw [List.map_append, texts, List.mem_append] at mem
    rcases mem with own | more
    · have front : (leaf a).keyPieces = a.segments.map Segment.text := by simp [keyPieces, below]
      exact (leaf a).point_not_mem piece (front ▸ own)
    · exact separator_not_mem more
  have cut := slot.pieces_key
  rw [key, String.toList_intercalate, show ".".toList = ['.'] from rfl, pieces_join (by simp [some_piece]) apart] at cut
  exact ((List.map_inj_right fun _ _ => String.toList_inj.1).1 cut).symm

/-- The keys that an address covers are those of the slots at it and below it. -/
theorem covers_key_iff : a.Covers slot.key ↔ slot.Under a := by
  refine ⟨fun covers => ?_, covers_key_of_under⟩
  by_cases root : a.isRoot = true
  · rw [Under, List.isEmpty_iff.1 root]
    exact List.nil_prefix
  · rcases covers.resolve_left root with own | ⟨rest, behind⟩
    · have same : slot = leaf a := key_injective own
      exact same ▸ under_self (leaf a)
    · have below : a.isRoot = false := by simpa using root
      exact under_of_pieces below ⟨piecesOf '.' rest, (keyPieces_behind below behind).symm⟩

end Slot
end FlatStore
