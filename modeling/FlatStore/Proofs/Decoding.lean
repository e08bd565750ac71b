import FlatStore.Decode.Record
import FlatStore.Decode.Tagged
import FlatStore.Proofs.Number
import FlatStore.Proofs.Rendering
import FlatStore.Proofs.Restorable
import FlatStore.Record.Standard

/-!
Decoding what has been written. A value is read through its draft, which has no faults (`Draft.read_ofJson`). The reader
of a record is put together from readers of single members, and so is what it reads: each of them takes what is found
under its name, wherever that stands (`Members.Reads`). Records that keep other members keep those that none of their
readers takes, in their order (`Members.Reads.openDecoder`).
-/
namespace FlatStore

/-! ### Drafts of values -/

namespace Draft

variable {items : List Json} {members : List (String × Json)} {value : Json}

theorem readItems_ofItems (each : ∀ item ∈ items, (ofJson item).read = .ok item) :
    readItems (ofItems items) = .ok items := by
  induction items with
  | nil => rfl
  | cons item rest ih =>
    obtain ⟨here, later⟩ := List.forall_mem_cons.1 each
    rw [ofItems, readItems, here, ih later]
    rfl

theorem readMembers_ofMembers (each : ∀ member ∈ members, (ofJson member.2).read = .ok member.2) :
    readMembers (ofMembers members) = .ok members := by
  induction members with
  | nil => rfl
  | cons member rest ih =>
    obtain ⟨here, later⟩ := List.forall_mem_cons.1 each
    rw [ofMembers, readMembers, here, ih later]
    rfl

/-- A value is read back from its draft, if no name is given twice in it. -/
theorem read_ofJson (distinct : value.Distinct) : (ofJson value).read = .ok value := by
  induction value using Json.partInduction with
  | null | bool | whole | float | string => rfl
  | array items ih =>
    rw [ofJson, read, readItems_ofItems fun item mem => ih item mem (Json.distinct_hereditary.item distinct mem)]
    rfl
  | object members ih =>
    rw [ofJson, read, readMembers_ofMembers fun member mem =>
      ih member mem (Json.distinct_hereditary.member distinct mem)]
    exact congrArg (fun members => Except.ok (Json.object members)) (membersOf_eq_of_nodup distinct.1)

theorem skipItems_ofItems (each : ∀ item ∈ items, (ofJson item).skipFault = none) :
    skipItems (ofItems items) = none := by
  induction items with
  | nil => rfl
  | cons item rest ih =>
    obtain ⟨here, later⟩ := List.forall_mem_cons.1 each
    rw [ofItems, skipItems, here, ih later]
    rfl

theorem skipMembers_ofMembers (each : ∀ member ∈ members, (ofJson member.2).skipFault = none) :
    skipMembers (ofMembers members) = none := by
  induction members with
  | nil => rfl
  | cons member rest ih =>
    obtain ⟨here, later⟩ := List.forall_mem_cons.1 each
    simp [ofMembers, skipMembers, here, ih later]

theorem skipFault_ofJson (value : Json) : (ofJson value).skipFault = none := by
  induction value using Json.partInduction with
  | null | bool | whole | float | string => rfl
  | array items ih =>
    rw [ofJson, skipFault, skipItems_ofItems ih]
    rfl
  | object members ih =>
    rw [ofJson, skipFault, skipMembers_ofMembers ih]
    rfl

end Draft

/-! ### Plain values -/

namespace Decoder

variable {α : Type} {decode : Decoder α} {form : Form} {write : α → Json}

theorem int_ofJson (form : Form) (n : Int64) : int form (.ofJson (.int n)) = .ok n := by
  simp [Json.int, Draft.ofJson, int, Scalar.toInt64?_ofInt64]

theorem list_ofJson {items : List α} (each : ∀ item ∈ items, decode form (.ofJson (write item)) = .ok item) :
    list decode form (.ofJson (.array (items.map write))) = .ok items := by
  have read : ∀ i, Decoder.items decode form i (Draft.ofItems (items.map write)) = .ok items := by
    induction items with
    | nil => exact fun i => rfl
    | cons item rest ih =>
      obtain ⟨here, later⟩ := List.forall_mem_cons.1 each
      intro i
      rw [List.map_cons, Draft.ofItems, Decoder.items, part, here, ih later (i + 1)]
      rfl
  rw [Draft.ofJson, list, read]
  rfl

theorem strings_ofJson (items : List String) (form : Form) :
    list string form (.ofJson (.array (items.map .string))) = .ok items := list_ofJson fun _ _ => rfl

/-- Entries are read back if each of their values is and no two have the same key. -/
theorem dictionary_ofJson {entries : List (String × α)} (nodup : (entries.map Prod.fst).Nodup)
    (each : ∀ entry ∈ entries, decode form (.ofJson (write entry.2)) = .ok entry.2) :
    dictionary decode form (.ofJson (.object (entries.map fun entry => (entry.1, write entry.2)))) = .ok entries := by
  have read : ∀ entries : List (String × α), (∀ entry ∈ entries, decode form (.ofJson (write entry.2)) = .ok entry.2) →
      members decode form (Draft.ofMembers (entries.map fun entry => (entry.1, write entry.2))) = .ok entries := by
    intro entries each
    induction entries with
    | nil => rfl
    | cons entry rest ih =>
      obtain ⟨here, later⟩ := List.forall_mem_cons.1 each
      rw [List.map_cons, Draft.ofMembers, members, ih later]
      change (part form (.member entry.1) decode (.ofJson (write entry.2)) >>= _) = _
      rw [part, here]
      rfl
  rw [Draft.ofJson, dictionary, read entries each]
  exact congrArg Except.ok (membersOf_eq_of_nodup nodup)

theorem optional_ofJson {value : Json} {a : α} (nonnull : value ≠ .null) (read : decode form (.ofJson value) = .ok a) :
    decode.optional form (.ofJson value) = .ok (some a) := by
  have some_value : decode.optional form (.ofJson value) = (decode form (.ofJson value)).map some := by
    cases value with
    | null => exact absurd rfl nonnull
    | bool | whole | float | string | array | object => rfl
  rw [some_value, read]
  rfl

end Decoder

theorem Unclaimed.eq_of_members {claimed : List String} {first second : Unclaimed claimed}
    (same : first.members = second.members) : first = second := by
  cases first
  cases second
  cases same
  rfl

theorem Unclaimed.lookup_append {claimed : List String} (others : Unclaimed claimed) {name : String}
    (known : name ∈ claimed) (own : List (String × Json)) : (own ++ others.members).lookup name = own.lookup name := by
  rw [List.lookup_append, lookup_eq_none_iff.2 fun mem => others.apart name mem known, Option.or_none]

/-! ### Members -/

namespace Members

variable {α β : Type} {m : Members α} {n : Members β} {form : Form} {given : List (String × Json)} {name : String}
  {value : Json}

/-- Whether the members of a value lead from slots to slots when they are read one after another. -/
inductive Takes (m : Members α) (form : Form) : m.Slots → List (String × Json) → m.Slots → Prop
  | nil {slots} : Takes m form slots [] slots
  | own {slots next last name value rest decode} (taken : m.take name slots = some (.ok decode))
      (read : decode form (.ofJson value) = .ok next) (later : Takes m form next rest last) :
      Takes m form slots ((name, value) :: rest) last
  | other {slots last name value rest} (unknown : name ∉ m.names) (later : Takes m form slots rest last) :
      Takes m form slots ((name, value) :: rest) last

theorem mem_names_of_take {slots : m.Slots} {read : Except Cause (Decoder m.Slots)}
    (taken : m.take name slots = some read) : name ∈ m.names := by
  by_contra unknown
  rw [m.take_eq_none_iff.2 unknown] at taken
  cases taken

theorem feed_eq_ok {slots next : m.Slots} {decode : Decoder m.Slots} (taken : m.take name slots = some (.ok decode))
    (read : decode form (.ofJson value) = .ok next) (step : Step) :
    m.feed form step name slots (.ofJson value) = some (.ok next) := by
  simp [feed, taken, Decoder.part, read, Except.mapError]

theorem Takes.and {s s' : m.Slots} {t t' : n.Slots} (first : m.Takes form s given s')
    (second : n.Takes form t given t') (apart : ∀ name ∈ m.names, name ∉ n.names) :
    (m.and n).Takes form (s, t) given (s', t') := by
  induction first generalizing t with
  | nil =>
    cases second
    exact .nil
  | @own slots next last name value rest decode taken read later ih =>
    have known := mem_names_of_take taken
    cases second with
    | own also => exact absurd (mem_names_of_take also) (apart name known)
    | other unknown behind =>
      have both : (m.and n).take name (slots, t) = some (.ok (decode.map fun next => (next, t))) := by
        simp [Members.and, taken]
      exact .own both (by simp [Decoder.map, read, Except.map]) (ih behind)
  | @other slots last name value rest unknown later ih =>
    have passed : m.take name slots = .none := m.take_eq_none_iff.2 unknown
    cases second with
    | @own _ next _ _ _ _ decode taken read behind =>
      have both : (m.and n).take name (slots, t) = some (.ok (decode.map fun next => (slots, next))) := by
        simp [Members.and, passed, taken]
      exact .own both (by simp [Decoder.map, read, Except.map]) (ih behind)
    | other also behind => exact .other (List.not_mem_append unknown also) (ih behind)

theorem Takes.map {slots last : m.Slots} (takes : m.Takes form slots given last) (f : α → β) :
    (m.map f).Takes form slots given last := by
  induction takes with
  | nil => exact .nil
  | own taken read later ih => exact .own taken read ih
  | other unknown later ih => exact .other unknown ih

theorem Takes.of_unknown (slots : m.Slots) (unknown : ∀ member ∈ given, member.1 ∉ m.names) :
    m.Takes form slots given slots := by
  induction given with
  | nil => exact .nil
  | cons member rest ih =>
    obtain ⟨here, later⟩ := List.forall_mem_cons.1 unknown
    exact .other here (ih later)

/-- Members that are not known may be taken away. -/
theorem Takes.filter {slots last : m.Slots} (takes : m.Takes form slots given last) {p : String → Bool}
    (kept : ∀ name ∈ m.names, p name = true) : m.Takes form slots (given.filter fun member => p member.1) last := by
  induction takes with
  | nil => exact .nil
  | @own _ _ _ name _ _ _ taken read later ih =>
    rw [List.filter_cons, if_pos (kept name (mem_names_of_take taken))]
    exact .own taken read ih
  | @other _ _ name _ _ unknown later ih =>
    rw [List.filter_cons]
    split
    · exact .other unknown ih
    · exact ih

/-! ### Records -/

/-- Whether a record is read from the members of a value. -/
def Reads (m : Members α) (form : Form) (given : List (String × Json)) (a : α) : Prop :=
  ∃ slots, m.Takes form m.empty given slots ∧ m.finish slots = .ok a

namespace Reads

variable {a : α} {b : β} {decode : Decoder α} {absent : Option α}

theorem one (nodup : (given.map Prod.fst).Nodup) (found : given.lookup name = some value)
    (read : decode form (.ofJson value) = .ok a) : (Members.one name decode absent).Reads form given a := by
  refine ⟨some a, ?_, rfl⟩
  induction given with
  | nil => cases found
  | cons member rest ih =>
    obtain ⟨other, v⟩ := member
    obtain ⟨fresh, nodup⟩ := List.nodup_cons.1 nodup
    by_cases same : name = other
    · subst same
      obtain rfl : v = value := by simpa using found
      have taken : (Members.one name decode absent).take name .none = some (.ok (decode.map some)) := by
        simp [Members.one]
      refine .own taken (by simp [Decoder.map, read, Except.map]) (.of_unknown _ fun member mem known => ?_)
      have there : member.1 ∈ rest.map Prod.fst := List.mem_map_of_mem mem
      exact fresh (List.mem_singleton.1 known ▸ there)
    · have found : rest.lookup name = some value := by simpa [List.lookup_cons, beq_false_of_ne same] using found
      exact .other (by simpa [Members.one] using Ne.symm same) (ih nodup found)

/-- A member that is not there has the value that it takes then. -/
theorem one_absent (missing : given.lookup name = .none) :
    (Members.one name decode (some a)).Reads form given a := by
  refine ⟨.none, .of_unknown _ fun member mem known => ?_, rfl⟩
  have there : name ∈ given.map Prod.fst := List.mem_singleton.1 known ▸ List.mem_map_of_mem mem
  exact lookup_eq_none_iff.1 missing there

theorem and (first : m.Reads form given a) (second : n.Reads form given b)
    (apart : ∀ name ∈ m.names, name ∉ n.names) : (m.and n).Reads form given (a, b) := by
  obtain ⟨slots, takes, done⟩ := first
  obtain ⟨others, also, finished⟩ := second
  refine ⟨(slots, others), takes.and also apart, ?_⟩
  simp [Members.and, done, finished, bind, Except.bind, pure, Except.pure]

theorem map (f : α → β) (reads : m.Reads form given a) : (m.map f).Reads form given (f a) := by
  obtain ⟨slots, takes, done⟩ := reads
  exact ⟨slots, takes.map f, congrArg (Except.map f) done⟩

theorem optional {write : α → Json} {value : Option α} (nodup : (given.map Prod.fst).Nodup)
    (found : given.lookup name = value.map write)
    (read : ∀ a, value = some a → write a ≠ .null ∧ decode form (.ofJson (write a)) = .ok a) :
    (Members.optional name decode).Reads form given value := by
  cases value with
  | none => exact one_absent found
  | some a =>
    obtain ⟨nonnull, read⟩ := read a rfl
    exact one nodup found (Decoder.optional_ofJson nonnull read)

/-- A record is read from an object whatever else is in it. -/
theorem decoder (reads : m.Reads form given a) (title : String) :
    m.decoder title form (.ofJson (.object given)) = .ok a := by
  obtain ⟨slots, takes, done⟩ := reads
  have read : ∀ {given s t}, m.Takes form s given t → m.readObject form .none s (Draft.ofMembers given) = .ok t := by
    intro given s t takes
    induction takes with
    | nil => rfl
    | own taken read later ih =>
      rw [Draft.ofMembers, readObject]
      simp only [Draft.readName, Except.mapError, Decoder.faults, ok_bind]
      rw [feed_eq_ok taken read]
      exact ih
    | other unknown later ih =>
      rw [Draft.ofMembers, readObject]
      simp only [Draft.readName, Except.mapError, Decoder.faults, ok_bind]
      rw [feed_eq_none_iff.2 unknown, Draft.skipFault_ofJson]
      exact ih
  rw [Draft.ofJson, Members.decoder, read takes]
  exact congrArg (Except.mapError _) done

end Reads

/-! ### Records that keep other members -/

/-- Members that are not known are set aside as they are. -/
theorem Takes.readOpen {slots last : m.Slots} (takes : m.Takes form slots given last)
    (distinct : ∀ member ∈ given, member.2.Distinct) : ∃ others,
      m.readOpen form .none slots (Draft.ofMembers given) = .ok (last, others) ∧
      others.map (fun o => (o.name, o.json)) = given.filter (fun member => member.1 ∉ m.names) ∧
      ∀ o ∈ others, o.draft = .ofJson o.json := by
  induction takes with
  | nil => exact ⟨[], rfl, rfl, by simp⟩
  | own taken read later ih =>
    obtain ⟨others, opened, same, drafts⟩ := ih (List.forall_mem_cons.1 distinct).2
    refine ⟨others, ?_, by simpa [mem_names_of_take taken] using same, drafts⟩
    rw [Draft.ofMembers, Members.readOpen]
    simp only [Draft.readName, Except.mapError, Decoder.faults, ok_bind]
    split
    · next fed =>
      rw [feed_eq_ok taken read] at fed
      cases fed
      exact opened
    · next passed =>
      rw [feed_eq_ok taken read] at passed
      cases passed
  | @other slots last name value rest unknown later ih =>
    obtain ⟨here, behind⟩ := List.forall_mem_cons.1 distinct
    obtain ⟨others, opened, same, drafts⟩ := ih behind
    refine ⟨⟨name, .ofJson value, value, unknown⟩ :: others, ?_, by simpa [unknown] using same,
      List.forall_mem_cons.2 ⟨rfl, drafts⟩⟩
    rw [Draft.ofMembers, Members.readOpen]
    simp only [Draft.readName, Except.mapError, Decoder.faults, ok_bind]
    split
    · next fed =>
      rw [feed_eq_none_iff.2 unknown] at fed
      cases fed
    · rw [Draft.read_ofJson here, opened]
      rfl

theorem Takes.readEmbedded {claimed : List String} {others : List (SetAside claimed)} {slots last : m.Slots}
    (takes : m.Takes .buffered slots (others.map fun o => (o.name, o.json)) last)
    (drafts : ∀ o ∈ others, o.draft = .ofJson o.json) : m.readEmbedded slots others = .ok last := by
  induction others generalizing slots with
  | nil =>
    cases takes
    rfl
  | cons o rest ih =>
    obtain ⟨here, later⟩ := List.forall_mem_cons.1 drafts
    rw [Members.readEmbedded, here]
    cases takes with
    | own taken read behind =>
      rw [feed_eq_ok taken read]
      exact ih behind later
    | other unknown behind =>
      rw [feed_eq_none_iff.2 unknown]
      exact ih behind later

/-- A record of its own members and embedded ones keeps the members that neither has. -/
theorem Reads.openDecoder {a : α} {b : β} (own : m.Reads form given a) (embedded : n.Reads .buffered given b)
    (apart : ∀ name ∈ n.names, name ∉ m.names) (distinct : (Json.object given).Distinct) (title : String) :
    ∃ others, m.openDecoder title n form (.ofJson (.object given)) = .ok (a, b, others) ∧
      others.members = given.filter fun member => member.1 ∉ m.names ++ n.names := by
  obtain ⟨slots, takes, done⟩ := own
  obtain ⟨embeddedSlots, also, finished⟩ := embedded
  obtain ⟨others, opened, same, drafts⟩ := takes.readOpen fun member => Json.distinct_hereditary.member distinct
  have inner : n.readEmbedded n.empty others = .ok embeddedSlots := by
    refine Takes.readEmbedded ?_ drafts
    rw [same]
    exact also.filter (p := fun name => decide (name ∉ m.names)) fun name mem => decide_eq_true (apart name mem)
  refine ⟨unclaimed others n.names, ?_, ?_⟩
  · rw [Draft.ofJson, Members.openDecoder, opened, ok_bind]
    simp only [done, inner, finished, Except.mapError, ok_bind]
    rfl
  · have kept : (others.filter fun o => !n.names.contains o.name).map (fun o => (o.name, o.json)) =
        given.filter fun member => member.1 ∉ m.names ++ n.names := by
      have inner : (others.filter fun o => !n.names.contains o.name).map (fun o => (o.name, o.json)) =
          (others.map fun o => (o.name, o.json)).filter fun member => !n.names.contains member.1 := by
        rw [List.filter_map]
        rfl
      rw [inner, same, List.filter_filter]
      exact List.filter_congr fun member _ => by simp [Bool.and_comm]
    change membersOf _ = _
    rw [kept]
    exact membersOf_eq_of_nodup (distinct.1.sublist (List.filter_sublist.map _))

end Members

/-! ### Tagged values -/

/-- A tagged value is read by the alternative of its tag, from the members behind the tag. -/
theorem Tagged.decoder_ofJson {α : Type} {t : Tagged α} {tag : String} {decode : Decoder α} {rest : List (String × Json)}
    (selected : t.variants.lookup tag = some decode) (fresh : t.tag ∉ rest.map Prod.fst)
    (distinct : ∀ member ∈ rest, member.2.Distinct) (form : Form) :
    t.decoder form (.ofJson (.object ((t.tag, .string tag) :: rest))) = decode .buffered (.ofJson (.object rest)) := by
  have behind : t.readMembers form none (some decode) (Draft.ofMembers rest) =
      .ok (some decode, Draft.ofMembers rest) := by
    induction rest with
    | nil => rfl
    | cons member rest ih =>
      obtain ⟨name, value⟩ := member
      obtain ⟨here, later⟩ := List.forall_mem_cons.1 distinct
      simp only [List.map_cons, List.mem_cons, not_or] at fresh
      rw [Draft.ofMembers, readMembers]
      simp only [Draft.readName, Except.mapError, Decoder.faults, ok_bind, if_neg (Ne.symm fresh.1),
        Draft.read_ofJson here, ih fresh.2 later]
      rfl
  have picked : t.select form (.string tag) = .ok decode := by simp [select, selected]
  rw [Draft.ofJson, Draft.ofMembers, Draft.ofJson, Tagged.decoder, readMembers]
  simp only [Draft.readName, Except.mapError, Decoder.faults, ok_bind, if_true, picked, behind]
  rfl

end FlatStore
