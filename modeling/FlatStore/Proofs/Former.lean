import FlatStore.Proofs.Absence
import FlatStore.Proofs.Dispatch

/-!
Stores that were written under former names. All that a field has stored under its name may stand under one of its
former names instead: the document is the same, or the error is, up to the name in its address
(`Schema.resolveRoot_former`). The candidates of the field that come before hold nothing, so that it is read at the
former name alone.
-/
namespace FlatStore

/-! ### Moving keys -/

namespace Address

variable {a b : Address} {key other : String}

/-- The key in whose place another one stands when all that an address covers is moved to a second address. -/
def move (a b : Address) (key : String) : String :=
  if a.Covers key then b.text ++ String.ofList (key.toList.drop a.text.toList.length) else key

theorem move_eq_self (outside : ¬ a.Covers key) : a.move b key = key := if_neg outside

theorem move_eq_of_covers (b : Address) (below : a.isRoot = false) (covers : a.Covers key) :
    ∃ tail, key = a.text ++ tail ∧ a.move b key = b.text ++ tail ∧ b.Covers (b.text ++ tail) := by
  have moved : ∀ tail, key = a.text ++ tail → a.move b key = b.text ++ tail := by
    rintro tail rfl
    rw [move, if_pos covers, String.toList_append, List.drop_left, String.ofList_toList]
  rcases covers.resolve_left (by simp [below]) with own | ⟨rest, behind⟩
  · exact ⟨"", by simpa using own, moved "" (by simpa using own), .inr (.inl (by simp))⟩
  · have cut : key = a.text ++ ("." ++ rest) := by rw [behind, String.append_assoc]
    exact ⟨"." ++ rest, cut, moved _ cut, .inr (.inr ⟨rest, by rw [String.append_assoc]⟩)⟩

theorem move_inj (below : a.isRoot = false) (free : ¬ b.Covers key) (other_free : ¬ b.Covers other)
    (same : a.move b key = a.move b other) : key = other := by
  by_cases covers : a.Covers key
  · obtain ⟨tail, rfl, moved, inside⟩ := move_eq_of_covers b below covers
    by_cases other_covers : a.Covers other
    · obtain ⟨more, rfl, other_moved, -⟩ := move_eq_of_covers b below other_covers
      rw [moved, other_moved] at same
      rw [String.append_right_inj] at same
      rw [same]
    · rw [moved, move_eq_self other_covers] at same
      exact absurd (same ▸ inside) other_free
  · by_cases other_covers : a.Covers other
    · obtain ⟨more, rfl, other_moved, inside⟩ := move_eq_of_covers b below other_covers
      rw [other_moved, move_eq_self covers] at same
      exact absurd (same ▸ inside) free
    · rwa [move_eq_self covers, move_eq_self other_covers] at same

theorem move_text (below : a.isRoot = false) (other : b.isRoot = false) (rest : List Segment) :
    a.move b (a.below rest).text = (b.below rest).text := by
  have covers : a.Covers (a.below rest).text :=
    show a.Covers (Slot.leaf (a.below rest)).key from Slot.covers_key_iff.2 (List.prefix_append _ _)
  obtain ⟨tail, cut, moved, -⟩ := move_eq_of_covers b below covers
  rw [text_below below, String.append_right_inj] at cut
  rw [moved, text_below other, cut]

theorem move_countKey (below : a.isRoot = false) (other : b.isRoot = false) (rest : List Segment) :
    a.move b (a.below rest).countKey = (b.below rest).countKey := by
  have covers : a.Covers (a.below rest).countKey :=
    show a.Covers (Slot.count (a.below rest)).key from Slot.covers_key_iff.2 (List.prefix_append _ _)
  have key : ∀ {c : Address}, c.isRoot = false →
      (c.below rest).countKey = (c.below rest).text ++ "." ++ countSegment := by
    intro c nonroot
    simp [countKey, isRoot_below nonroot rest]
  obtain ⟨tail, cut, moved, -⟩ := move_eq_of_covers b below covers
  rw [key below, text_below below, String.append_assoc, String.append_assoc, String.append_right_inj] at cut
  rw [moved, key other, text_below other, String.append_assoc, String.append_assoc, cut]

end Address

/-! ### Moved stores -/

/-- Whether a store is another one with all that an address covers moved to a second address, where nothing has been.
The entries may come in any order. -/
structure Store.Moved (s t : Store) (a b : Address) : Prop where
  below : a.isRoot = false
  other : b.isRoot = false
  apart : ∀ slot : Slot, slot.Under a → ¬ slot.Under b
  free : ∀ key ∈ s.keys, ¬ b.Covers key
  entries : t.toList.Perm (s.toList.map fun e => (a.move b e.1, e.2))

/-- All errors stay as they are, with their addresses moved. -/
def Address.moving (a b : Address) : Transfer := ⟨a.move b, fun _ => False⟩

namespace Store.Moved

variable {s t : Store} {a b c : Address} {key : String}

theorem size (moved : s.Moved t a b) : t.size = s.size := by
  rw [size_eq_length, size_eq_length, moved.entries.length_eq, List.length_map]

theorem get?_eq_some_iff (moved : s.Moved t a b) {value : Scalar} :
    t.get? key = some value ↔ ∃ old, s.get? old = some value ∧ a.move b old = key := by
  rw [Store.get?_eq_some_iff, moved.entries.mem_iff, List.mem_map]
  constructor
  · rintro ⟨⟨old, value⟩, mem, same⟩
    cases same
    exact ⟨old, Store.get?_eq_some_iff.2 mem, rfl⟩
  · rintro ⟨old, found, rfl⟩
    exact ⟨(old, value), Store.get?_eq_some_iff.1 found, rfl⟩

theorem free_of_get? (moved : s.Moved t a b) {value : Scalar} (found : s.get? key = some value) : ¬ b.Covers key :=
  moved.free key (mem_keys_iff.2 ⟨value, Store.get?_eq_some_iff.1 found⟩)

theorem get?_move (moved : s.Moved t a b) (outside : ¬ b.Covers key) : t.get? (a.move b key) = s.get? key := by
  refine Option.ext fun value => ?_
  rw [moved.get?_eq_some_iff]
  constructor
  · rintro ⟨old, found, same⟩
    rwa [← Address.move_inj moved.below (moved.free_of_get? found) outside same]
  · exact fun found => ⟨key, found, rfl⟩

theorem mirrors (moved : s.Moved t a b) : s.source.Mirrors t.source (a.moving b) a b := by
  have outside : ∀ slot : Slot, slot.Under a → ¬ b.Covers slot.key :=
    fun slot under covers => moved.apart slot under (Slot.covers_key_iff.1 covers)
  refine .of_stores (fun rest _ _ => Address.move_text moved.below moved.other rest) (fun rest => ?_) (fun rest => ?_)
    (.inl (congrArg some moved.size))
  · rw [← Address.move_text moved.below moved.other]
    exact moved.get?_move (outside (.leaf _) (List.prefix_append _ _))
  · rw [← Address.move_countKey moved.below moved.other]
    exact moved.get?_move (outside (.count _) (List.prefix_append _ _))

theorem mirrors_elsewhere (moved : s.Moved t a b)
    (outside : ∀ slot : Slot, slot.Under c → ¬ slot.Under a ∧ ¬ slot.Under b) :
    s.source.Mirrors t.source (a.moving b) c c := by
  have stays : ∀ slot : Slot, slot.Under c → a.move b slot.key = slot.key :=
    fun slot under => Address.move_eq_self (mt Slot.covers_key_iff.1 (outside slot under).1)
  have same : ∀ slot : Slot, slot.Under c → t.get? slot.key = s.get? slot.key := by
    intro slot under
    have read := moved.get?_move (mt Slot.covers_key_iff.1 (outside slot under).2)
    rwa [stays slot under] at read
  exact .of_stores (fun rest _ _ => stays (.leaf _) (List.prefix_append _ _))
    (fun rest => same (.leaf _) (List.prefix_append _ _)) (fun rest => same (.count _) (List.prefix_append _ _))
    (.inl (congrArg some moved.size))

theorem holds_nothing (moved : s.Moved t a b) (outside : ∀ slot : Slot, slot.Under c → ¬ slot.Under b)
    (only : ∀ key ∈ s.keys, c.Covers key → a.Covers key) : t.Holds c [] := by
  intro slot under value
  refine ⟨fun found => ?_, fun written => by cases written⟩
  obtain ⟨old, stored, same⟩ := moved.get?_eq_some_iff.1 found
  have held : old ∈ s.keys := mem_keys_iff.2 ⟨value, Store.get?_eq_some_iff.1 stored⟩
  -- the entry has been moved below the second address, or it stood here before and should have been moved
  by_cases covers : a.Covers old
  · obtain ⟨tail, -, there, inside⟩ := Address.move_eq_of_covers b moved.below covers
    rw [← there, same] at inside
    exact absurd (Slot.covers_key_iff.1 inside) (outside slot under)
  · rw [Address.move_eq_self covers] at same
    exact absurd (only old held (same ▸ Slot.covers_key_iff.2 under)) covers

end Store.Moved

namespace Schema

variable {s t : Store} {schema : Schema} {choice : TaggedUnion Schema} {cs : List Candidate} {a : Address}

/-! ### One candidate -/

/-- Where nothing is found at all other addresses, the first value is what is read at the one that is left. -/
theorem resolveFirst_alone {read : Address → Resolved (Option Json)} (here : ∃ c ∈ cs, c.address = a)
    (others : ∀ c ∈ cs, c.address = a ∨ read c.address = .ok none) : resolveFirst read cs = read a := by
  induction cs with
  | nil => simp at here
  | cons c rest ih =>
    obtain ⟨first, later⟩ := List.forall_mem_cons.1 others
    by_cases same : c.address = a
    · rw [resolveFirst, same]
      cases found : read a with
      | error e => rfl
      | ok value =>
        cases value with
        | some value => rfl
        | none =>
          refine resolveFirst_nothing fun d mem => ?_
          rcases later d mem with again | nothing
          · rw [again, found]
          · exact nothing
    · rw [resolveFirst, first.resolve_left same, ok_bind]
      refine ih ?_ later
      obtain ⟨d, mem, there⟩ := here
      rcases List.mem_cons.1 mem with rfl | mem
      · exact absurd there same
      · exact ⟨d, mem, there⟩

theorem chosenBase_alone {addresses : List Address} (here : a ∈ addresses) (others : ∀ b ∈ addresses, b = a ∨
      basePresent s.source choice.discriminator.name b false = .ok false) :
    chosenBase s.source choice false addresses = chosenBase s.source choice false [a] := by
  obtain ⟨before, after, rfl, first⟩ := List.eq_append_cons_of_mem here
  have absent : ∀ b ∈ before, basePresent s.source choice.discriminator.name b false = .ok false := by
    intro b mem
    refine (others b (List.mem_append_left _ mem)).resolve_left ?_
    rintro rfl
    exact first mem
  rw [chosenBase_of_absent absent, chosenBase, chosenBase]
  cases there : basePresent s.source choice.discriminator.name a false with
  | error e => rfl
  | ok present =>
    cases present with
    | true => rfl
    | false =>
      have again : ∀ b ∈ after, basePresent s.source choice.discriminator.name b false = .ok false := by
        intro b mem
        rcases others b (by simp [mem]) with rfl | nothing
        · exact there
        · exact nothing
      change chosenBase s.source choice false after = .ok none
      rw [← List.append_nil after, chosenBase_of_absent again]
      rfl

/-- Whether nothing is stored at the candidates but at one address, which is not only that of a variant. -/
structure Alone (s : Store) (cs : List Candidate) (a : Address) : Prop where
  here : ⟨a, none⟩ ∈ cs
  others : ∀ c ∈ cs, c.address = a ∨ c.address.isRoot = false ∧ s.Holds c.address []

theorem passes_of_nothing {sliced : Bool} {c : Candidate} (nothing : s.Holds c.address []) :
    Passes s choice sliced c := by
  intro found there
  cases (get?_tag_of_nothing nothing sliced choice.discriminator.name).symm.trans there

/-- A union is read at the one address as if there were no other candidate. A variant that is chosen at a candidate of
its own is chosen there as well, since it is the one that the tag selects. -/
theorem chosen_alone (valid : (union choice).Valid) (alone : Alone s cs a) :
    chosen s.source choice false cs = chosen s.source choice false [⟨a, none⟩] := by
  obtain ⟨-, usable, tags, -, -⟩ := valid_union_iff.1 valid
  by_cases passed : ∀ c ∈ cs, Passes s choice false c
  · have single : ∀ c ∈ [(⟨a, none⟩ : Candidate)], Passes s choice false c :=
      List.forall_mem_singleton.2 (passed _ alone.here)
    rw [chosen_of_passes usable passed, chosen_of_passes usable single]
    refine congrArg _ (chosenBase_alone (List.mem_map.2 ⟨_, List.mem_filter.2 ⟨alone.here, rfl⟩, rfl⟩) ?_)
    refine List.forall_mem_map.2 fun c held => (alone.others c (List.mem_filter.1 held).1).imp_right ?_
    exact fun ⟨below, nothing⟩ => basePresent_of_nothing usable below nothing
  · -- whichever candidate decides stands at the one address, with the same tag
    obtain ⟨before, c, after, rfl, passed, decided⟩ := first_decided passed
    have own : c.address = a :=
      (alone.others c (by simp)).resolve_right fun nothing => decided (passes_of_nothing nothing.2)
    rcases decided_cases decided with ⟨v, picks⟩ | ⟨found, there, other⟩
    · have also : Picks s choice false ⟨a, none⟩ v := by
        obtain ⟨tag, there, admitted⟩ := picks
        exact ⟨tag, own ▸ there, ((admitted_eq_some_iff tags).1 admitted).1⟩
      have single : chosen s.source choice false ([] ++ [⟨a, none⟩]) = .ok (some (a.block false, some v)) :=
        chosen_of_picks usable (by simp) also
      rw [chosen_of_picks usable passed picks, own]
      exact single.symm
    · have also : tagAt s choice ⟨a, none⟩ = some found := by rwa [tagAt, ← own]
      have single : chosen s.source choice false ([] ++ [⟨a, none⟩]) = .error (unexpected _ .string found) :=
        chosen_of_mistagged usable (by simp) also other
      rw [chosen_of_mistagged usable passed there other, own]
      exact single.symm

theorem readAt_alone (valid : schema.Valid) (alone : Alone s cs a) :
    schema.readAt s.source cs false = schema.resolve s.source a false := by
  rw [← readAt_single]
  by_cases union : ∃ choice, schema = .union choice
  · obtain ⟨choice, rfl⟩ := union
    change resolveChoice s.source choice false cs = resolveChoice s.source choice false [⟨a, none⟩]
    rw [resolveChoice_eq_chosen, resolveChoice_eq_chosen, chosen_alone valid alone]
  · have other := not_exists.1 union
    rw [readAt_single, readAt_first other]
    refine resolveFirst_alone ⟨_, alone.here, rfl⟩ fun c mem => (alone.others c mem).imp_right ?_
    exact fun ⟨below, nothing⟩ => resolve_nothing below nothing other

/-! ### Documents -/

theorem apart_of_names {m n : String} (first : isFieldName m = true) (second : isFieldName n = true) (differ : m ≠ n)
    (slot : Slot) (here : slot.Under (Address.root.member m)) : ¬ slot.Under (Address.root.member n) :=
  fun there => differ (here.member_eq first second there)

section
variable {f : Field Schema} {former : String} (valid : f.schema.Valid)
  (usable : ∀ name ∈ f.candidateNames, isFieldName name = true) (listed : former ∈ f.aliases)
  (absent : ∀ name ∈ f.candidateNames, name ≠ f.name → ∀ key ∈ s.keys, ¬ (Address.root.member name).Covers key)
include usable absent

theorem alone_at_name : Alone s (candidatesOf f .root) (.member .root f.name) := by
  refine ⟨List.mem_cons_self, fun c mem => ?_⟩
  obtain ⟨name, candidate, here⟩ := mem_candidatesOf mem
  rw [here]
  by_cases own : name = f.name
  · exact .inl (by rw [own])
  · exact .inr ⟨Address.isRoot_member (usable name candidate), Store.holds_nothing (absent name candidate own)⟩

variable (moved : s.Moved t (.member .root f.name) (.member .root former))
include listed moved

theorem alone_at_former : Alone t (candidatesOf f .root) (.member .root former) := by
  have candidate := alias_mem_candidateNames listed
  refine ⟨List.mem_append_right _ (List.mem_map.2 ⟨former, listed, rfl⟩), fun c mem => ?_⟩
  obtain ⟨name, named, here⟩ := mem_candidatesOf mem
  rw [here]
  by_cases same : name = former
  · exact .inl (by rw [same])
  · have outside := apart_of_names (usable name named) (usable former candidate) same
    refine .inr ⟨Address.isRoot_member (usable name named), moved.holds_nothing outside fun key held covers => ?_⟩
    by_cases own : name = f.name
    · rwa [← own]
    · exact absurd covers (absent name named own key held)

include valid

theorem resolveField_moved : Corresponds (Address.moving (.member .root f.name) (.member .root former)) Eq
    (resolveField s.source .root f) (resolveField t.source .root f) := by
  rw [resolveField_eq usable, resolveField_eq usable, ← readAt_false, ← readAt_false,
    readAt_alone valid (alone_at_name usable absent), readAt_alone valid (alone_at_former usable listed absent moved)]
  exact Transfers.resolve (transfers _ _ _ f.schema) valid moved.mirrors (by rw [moved.below, moved.other])

end

/-- A document is the same, or fails in the same way, if all that is stored under the name of a field is moved to one of
its former names, when nothing else is stored of the field. The error names the address that has been moved. -/
theorem resolveRoot_former {shape : Shape Schema} (valid : (object shape).Valid) (separate : shape.Separate)
    {f : Field Schema} (declared : f ∈ shape.fields) {former : String} (listed : former ∈ f.aliases)
    (differs : former ≠ f.name)
    (absent : ∀ name ∈ f.candidateNames, name ≠ f.name → ∀ key ∈ s.keys, ¬ (Address.root.member name).Covers key)
    (moved : t.toList.Perm (s.toList.map fun e =>
      ((Address.root.member f.name).move (Address.root.member former) e.1, e.2))) :
    (object shape).resolveRoot t.source = ((object shape).resolveRoot s.source).mapError
      (·.relabel ((Address.root.member f.name).move (Address.root.member former))) := by
  have sound := valid_object_iff.1 valid
  have usable : ∀ g ∈ shape.fields, ∀ name ∈ g.candidateNames, isFieldName name = true :=
    fun g mem => sound.candidate_usable mem
  have named := name_mem_candidateNames f
  have candidate := alias_mem_candidateNames listed
  have whole : s.Moved t (.member .root f.name) (.member .root former) :=
    { below := Address.isRoot_member (usable f declared _ named)
      other := Address.isRoot_member (usable f declared _ candidate)
      apart := apart_of_names (usable f declared _ named) (usable f declared _ candidate) (Ne.symm differs)
      free := absent former candidate differs
      entries := moved }
  have each : ∀ g ∈ shape.fields, Corresponds (Address.moving (.member .root f.name) (.member .root former)) Eq
      (resolveField s.source .root g) (resolveField t.source .root g) := by
    intro g mem
    -- no other field has a candidate name where something has been moved
    by_cases same : g = f
    · subst same
      exact resolveField_moved (sound.field_valid g mem) (usable g mem) listed absent whole
    · refine Transfers.field (transfers _ _ _ g.schema) (sound.field_valid g mem) (usable g mem) fun name own => ?_
      have others : ∀ n ∈ f.candidateNames, ∀ slot : Slot, slot.Under (Address.root.member name) →
          ¬ slot.Under (Address.root.member n) := by
        refine fun n held => apart_of_names (usable g mem name own) (usable f declared n held) ?_
        rintro rfl
        exact same (separate.eq_of_candidate mem declared own held)
      exact whole.mirrors_elsewhere fun slot under => ⟨others _ named slot under, others _ candidate slot under⟩
  rw [resolveRoot_object, resolveRoot_object]
  exact ((resolveFields_corresponds each).map _).eq_mapError fun _ _ excused => excused

/-- The event of a rule has a number for its tag. The error is found where the event stands. -/
theorem resolveRoot_former_trigger :
    let s := Store.ofList [("tags.#", .int 1), ("event.#", .int 1), ("event.0.type", .int 3), ("tags.0", .string "a")]
    let t := Store.ofList [("trigger.0.type", .int 3), ("tags.0", .string "a"), ("tags.#", .int 1),
      ("trigger.#", .int 1)]
    rule.resolveRoot s.source = .error (.typeMismatch "event.0.type" .string .int "3") ∧
      rule.resolveRoot t.source = .error (.typeMismatch "trigger.0.type" .string .int "3") := by
  intro s t
  have read : rule.resolveRoot s.source = .error (.typeMismatch "event.0.type" .string .int "3") := by decide +kernel
  have valid : rule.Valid := by decide
  have separate : ∀ shape ∈ rule.shapes, shape.Separate := by decide
  let event : Field Schema := ⟨"event", "event", .union ⟨"Event", ⟨"type", "type"⟩, [⟨"Tap", ["tap"], some "tap", tap⟩],
    tap⟩, true, false, ["trigger"], none⟩
  have keys : s.keys = ["tags.#", "event.#", "event.0.type", "tags.0"] := by decide +kernel
  have absent : ∀ name ∈ event.candidateNames, name ≠ event.name → ∀ key ∈ s.keys,
      ¬ (Address.root.member name).Covers key := by
    rw [keys]
    decide
  have moved : t.toList.Perm (s.toList.map fun e =>
      ((Address.root.member "event").move (Address.root.member "trigger") e.1, e.2)) := by
    decide +kernel
  have listed : "trigger" ∈ event.aliases := List.mem_cons_self
  have later := resolveRoot_former valid (separate _ List.mem_cons_self)
    (List.mem_cons_of_mem _ List.mem_cons_self) listed (by decide) absent moved
  refine ⟨read, later.trans ?_⟩
  rw [show Schema.object _ = rule from rfl, read]
  decide +kernel

end Schema
end FlatStore
