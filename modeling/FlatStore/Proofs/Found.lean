import FlatStore.Proofs.Outcome
import FlatStore.Proofs.Rendering

/-!
When a field is found. A field is found exactly where the store offers something in the form of its schema at one of
the candidates of the field (`Schema.resolveAt_eq_none_iff`): a scalar, a count, a block that is opened, or for a union
a tag that selects a variant. Nothing asks who has written it. In the store of a document only fields with a value
write, each under its place, so that a field without a value is found only if the place of another is one of its
candidate names.
-/
namespace FlatStore

/-- Whether a store offers something in the form of a schema at a candidate of a field: a scalar, a count, an open
block, or for a union a tag that selects a variant. A union is also there in its base shape, in an open block or one
with any tag, but not where a variant belongs. -/
def Store.Offers (s : Store) (schema : Schema) (c : Candidate) : Prop :=
  match schema with
  | .scalar _ => s.get? c.address.text ≠ none
  | .list _ | .set _ | .map _ => s.get? c.address.countKey ≠ none
  | .object _ => s.Opened c.address
  | .union choice =>
    let tag := s.get? ((c.address.index 0).member choice.discriminator.name).text
    (∃ text v, tag = some (.string text) ∧ choice.variant? text = some v ∧
      ∀ i, c.only = some i → choice.variants[i]? = some v) ∨
    c.only = none ∧ (s.Opened c.address ∨ tag ≠ none)

namespace Schema

variable {s : Store} {schema : Schema} {choice : TaggedUnion Schema} {a : Address} {cs : List Candidate}
  {found : Option Json}

/-! ### Where a field is found -/

theorem resolve_eq_none_iff (below : a.isRoot = false) (other : ∀ choice, schema ≠ .union choice)
    (read : schema.resolve s.source a false = .ok found) (only : Option Nat) :
    found = none ↔ ¬ s.Offers schema ⟨a, only⟩ := by
  have counted : ∀ {count : Option Nat}, storedCount s.source a = .ok count →
      (count = none ↔ ¬ s.get? a.countKey ≠ none) := by
    intro count counted
    cases count with
    | none => simp [storedCount_eq_none counted]
    | some n =>
      obtain ⟨-, c, there, -⟩ := storedCount_eq_some counted
      simp [there]
  cases schema with
  | scalar kind =>
    rw [resolve_scalar, resolveScalar_eq_ok_iff] at read
    obtain ⟨leaf, there, rfl, -⟩ := read
    rw [Store.Offers, there]
    simp
  | list items | set items =>
    rw [resolve_items rfl] at read
    rcases resolveItems_eq_ok_iff.1 read with ⟨count, rfl⟩ | ⟨items, count, -, -, rfl⟩
    · exact iff_of_true rfl ((counted count).1 rfl)
    · exact iff_of_false (by simp) fun absent => by cases (counted count).2 absent
  | map element =>
    rw [resolve_map] at read
    rcases resolveEntries_eq_ok_iff.1 read with ⟨count, rfl⟩ | ⟨entries, count, -, rfl⟩
    · exact iff_of_true rfl ((counted count).1 rfl)
    · exact iff_of_false (by simp) fun absent => by cases (counted count).2 absent
  | object shape =>
    rw [resolve_object, bind_eq_ok_iff] at read
    obtain ⟨there, opened, later⟩ := read
    rw [Store.Offers, ← present_eq_ok (by simpa using below) opened]
    cases there with
    | true =>
      obtain ⟨members, -, result⟩ := bind_eq_ok_iff.1 later
      cases result
      simp
    | false =>
      cases later
      simp
  | union choice => exact absurd rfl (other choice)

theorem chosen_eq_none_iff (valid : (union choice).Valid) (below : ∀ c ∈ cs, c.address.isRoot = false)
    {outcome : Option (Address × Option (Variant Schema))} (chose : chosen s.source choice false cs = .ok outcome) :
    outcome = none ↔ ∀ c ∈ cs, ¬ s.Offers (.union choice) c := by
  obtain ⟨-, usable, tags, -⟩ := valid_union_iff.1 valid
  have block : ∀ c ∈ cs, c.address.block false = c.address.index 0 := fun c mem => by simp [Address.block, below c mem]
  cases outcome with
  | none =>
    refine iff_of_true rfl fun c mem offered => ?_
    obtain ⟨passes, absent⟩ := chosen_eq_none usable chose c mem
    rw [Passes, block c mem] at passes
    rcases offered with ⟨text, v, tagged, selects, owns⟩ | ⟨whole, there⟩
    · obtain ⟨other, same, unselected⟩ := passes _ tagged
      cases same
      rw [(admitted_eq_some_iff tags).2 ⟨selects, owns⟩] at unselected
      cases unselected
    · have present := (basePresent_eq_ok usable (below c mem) (absent whole)).2 there
      cases present
  | some found =>
    obtain ⟨base, variant⟩ := found
    refine iff_of_false (by simp) fun nothing => ?_
    obtain ⟨c, mem, -, ⟨v, -, tag, tagged, admitted⟩ | ⟨-, whole, -, present⟩⟩ := chosen_eq_some usable chose
    · rw [block c mem] at tagged
      obtain ⟨selects, owns⟩ := (admitted_eq_some_iff tags).1 admitted
      exact nothing c mem (.inl ⟨tag, v, tagged, selects, owns⟩)
    · exact nothing c mem (.inr ⟨whole, (basePresent_eq_ok usable (below c mem) present).1 rfl⟩)

theorem resolveAt_eq_none_iff (valid : schema.Valid) (below : ∀ c ∈ cs, c.address.isRoot = false)
    (read : resolveAt s.source schema cs = .ok found) : found = none ↔ ∀ c ∈ cs, ¬ s.Offers schema c := by
  by_cases union : ∃ choice, schema = .union choice
  · obtain ⟨choice, rfl⟩ := union
    rw [resolveAt_union] at read
    rcases resolveChoice_eq_ok_cases read with ⟨rfl, chose⟩ | ⟨base, variant, members, chose, -, rfl⟩
    · exact iff_of_true rfl ((chosen_eq_none_iff valid below chose).1 rfl)
    · refine iff_of_false (by simp) fun nothing => ?_
      have none := (chosen_eq_none_iff valid below chose).2 nothing
      cases none
  · have other := not_exists.1 union
    rw [resolveAt_first other] at read
    cases found with
    | none =>
      refine iff_of_true rfl fun c mem => ?_
      exact (resolve_eq_none_iff (below c mem) other (resolveFirst_eq_none read c mem) c.only).1 rfl
    | some value =>
      obtain ⟨c, mem, first⟩ := resolveFirst_eq_some read
      refine iff_of_false (by simp) fun nothing => ?_
      have none := (resolve_eq_none_iff (below c mem) other first c.only).2 (nothing c mem)
      cases none

/-! ### Members of the store of a document -/

theorem exists_slot_of_offers {c : Candidate} (offered : s.Offers schema c) :
    ∃ (slot : Slot) (value : Scalar), slot.Under c.address ∧ s.get? slot.key = some value := by
  have count : s.get? c.address.countKey ≠ none →
      ∃ (slot : Slot) (value : Scalar), slot.Under c.address ∧ s.get? slot.key = some value := by
    intro there
    obtain ⟨value, found⟩ := Option.ne_none_iff_exists'.1 there
    exact ⟨.count c.address, value, Slot.under_self (.count c.address), found⟩
  have opened : s.Opened c.address →
      ∃ (slot : Slot) (value : Scalar), slot.Under c.address ∧ s.get? slot.key = some value := by
    rintro ⟨n, there, -⟩
    exact count (by simp [there])
  cases schema with
  | scalar kind =>
    obtain ⟨value, found⟩ := Option.ne_none_iff_exists'.1 offered
    exact ⟨.leaf c.address, value, Slot.under_self (.leaf c.address), found⟩
  | list | set | map => exact count offered
  | object shape => exact opened offered
  | union choice =>
    have tag : s.get? ((c.address.index 0).member choice.discriminator.name).text ≠ none →
        ∃ (slot : Slot) (value : Scalar), slot.Under c.address ∧ s.get? slot.key = some value := by
      intro there
      obtain ⟨value, found⟩ := Option.ne_none_iff_exists'.1 there
      have under := Slot.under_self (.leaf ((c.address.index 0).member choice.discriminator.name))
      exact ⟨_, value, Slot.Under.of_child under.of_member, found⟩
    rcases offered with ⟨text, v, tagged, -⟩ | ⟨-, there | there⟩
    · exact tag (by simp [tagged])
    · exact opened there
    · exact tag there

variable {shape : Shape Schema} {members : List (String × Json)}

/-- Below a name in the root stand only the writes of a field whose place is that name. -/
theorem exists_held_of_get? (valid : (object shape).Valid)
    (stored : (object shape).flatten (.object members) false = .ok s) {name : String}
    (name_usable : isFieldName name = true) {slot : Slot} (under : slot.Under (Address.root.member name))
    {value : Scalar} (found : s.get? slot.key = some value) :
    ∃ g v, (g, v) ∈ heldFields members shape.fields ∧ g.place v = name := by
  have written := mem_writes_of_get? stored found
  obtain ⟨_, ⟨⟩, -, -, writes⟩ := (flatten_eq_ok_iff.1 stored).1.block rfl valid (by simp)
  rw [writes] at written
  rcases List.mem_append.1 written with opened | written
  · have own := (mem_openBlock_iff.1 opened).1
    simp [Address.root, Address.isRoot] at own
  · obtain ⟨⟨g, v⟩, held, written⟩ := List.mem_flatMap.1 written
    have sound := valid_object_iff.1 valid
    have usable := sound.place_usable (mem_heldFields_iff.1 held).1 v
    exact ⟨g, v, held, (heldWrites_under _ written).member_eq usable name_usable under⟩

/-- The optional fields that a document has no value for, and what a round trip makes of them. Such a field stays
absent exactly if the store of the document offers nothing in its form at its candidates. It does if no other field
with a value has its place under a candidate name of the field, and always if the names of the shape are separate. -/
theorem absent_of_flatten (valid : (object shape).Valid)
    (stored : (object shape).flatten (.object members) false = .ok s) {back : Json}
    (read : (object shape).resolveRoot s.source = .ok (some back)) :
    ∃ found, back = .object found ∧ ∀ f ∈ shape.fields, f.optional = true → f.value? members = none →
      (found.lookup f.wireName = none ↔ ∀ c ∈ candidatesOf f .root, ¬ s.Offers f.schema c) ∧
      ((∀ g v, (g, v) ∈ heldFields members shape.fields → g.place v ∉ f.candidateNames) →
        found.lookup f.wireName = none) ∧
      (shape.Separate → found.lookup f.wireName = none) := by
  have sound := valid_object_iff.1 valid
  obtain ⟨each, result⟩ := (resolveRoot_object_eq_ok_iff sound).1 read
  cases result
  refine ⟨_, rfl, fun f mem optional absent => ?_⟩
  have usable := sound.candidate_usable mem
  obtain ⟨outcome, outcome_read⟩ := each f mem
  rw [lookup_filled sound.wireNames_nodup mem, filledAt_eq outcome_read, Field.fill, if_pos optional]
  rw [resolveField_eq usable] at outcome_read
  have below : ∀ c ∈ candidatesOf f .root, c.address.isRoot = false := by
    intro c held
    obtain ⟨name, candidate, here⟩ := mem_candidatesOf held
    exact here ▸ Address.isRoot_member (usable name candidate)
  have unoffered := resolveAt_eq_none_iff (sound.field_valid f mem) below outcome_read
  -- whatever is offered has been written by a field whose place is a candidate name
  have unmet : (∀ g v, (g, v) ∈ heldFields members shape.fields → g.place v ∉ f.candidateNames) → outcome = none := by
    intro apart
    refine unoffered.2 fun c held offered => ?_
    obtain ⟨name, candidate, here⟩ := mem_candidatesOf held
    obtain ⟨slot, value, under, stands⟩ := exists_slot_of_offers offered
    obtain ⟨g, v, g_held, place⟩ := exists_held_of_get? valid stored (usable name candidate) (here ▸ under) stands
    exact apart g v g_held (place ▸ candidate)
  refine ⟨unoffered, unmet, fun separate => unmet fun g v held also => ?_⟩
  obtain ⟨declared, value⟩ := mem_heldFields_iff.1 held
  obtain rfl := separate.eq_of_candidate mem declared also (place_mem_candidateNames g v)
  rw [absent] at value
  cases value

def touch : Shape Schema := ⟨"Touch", [⟨"type", "type", .scalar .string, true, false, [], none⟩]⟩

/-- A panel with a touch and an event. An event that is a tap is stored under the name of the touch. -/
def panel : Shape Schema := ⟨"Panel",
  [⟨"tap", "tap", .object touch, true, false, [], none⟩,
    ⟨"event", "event", .union ⟨"Event", ⟨"type", "type"⟩, [⟨"Tap", ["tap"], some "tap", touch⟩], touch⟩, true, false, [],
      none⟩]⟩

def swipedPanel : List (String × Json) := [("event", .object [("type", .string "swipe")])]

theorem absent_of_flatten_swipedPanel : ∃ s, (object panel).Valid ∧
    (object panel).flatten (.object swipedPanel) false = .ok s ∧
    (object panel).resolveRoot s.source = .ok (some (.object swipedPanel)) ∧ swipedPanel.lookup "tap" = none := by
  let s := Store.ofList ((object panel).writes (.object swipedPanel) .root false).entries
  have valid : (object panel).Valid := by decide
  have stored : (object panel).flatten (.object swipedPanel) false = .ok s :=
    flatten_eq_ok_iff.2 ⟨by rw [Accepts]; decide, rfl⟩
  have read : (object panel).resolveRoot s.source = .ok (some (.object swipedPanel)) := by decide +kernel
  obtain ⟨_, ⟨⟩, absent⟩ := absent_of_flatten valid stored read
  refine ⟨s, valid, stored, read, (absent _ List.mem_cons_self rfl rfl).2.1 fun g v held => ?_⟩
  have only : heldFields swipedPanel panel.fields = [(panel.fields[1], .object [("type", .string "swipe")])] := rfl
  rw [only, List.mem_singleton] at held
  cases held
  decide

/-- A panel with a touch alone. Its store is that of a panel with a tap, so that an event comes back. -/
def touchedPanel : List (String × Json) := [("tap", .object [("type", .string "tap")])]

theorem absent_of_flatten_touchedPanel : ∃ s, (object panel).Valid ∧
    (object panel).flatten (.object touchedPanel) false = .ok s ∧ touchedPanel.lookup "event" = none ∧
    (object panel).resolveRoot s.source = .ok (some (.object (touchedPanel ++
      [("event", .object [("type", .string "tap")])]))) :=
  ⟨.ofList ((object panel).writes (.object touchedPanel) .root false).entries, by decide,
    flatten_eq_ok_iff.2 ⟨by rw [Accepts]; decide, rfl⟩, rfl, by decide +kernel⟩

end Schema
end FlatStore
