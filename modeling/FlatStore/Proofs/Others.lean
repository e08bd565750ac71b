import FlatStore.Proofs.Kept

/-!
Records that keep what they do not know of a text. Such a record holds the members that none of its fields claims, and
is written with them (`OpenRecord.Keeps`). As a JSON value its written form is always read as the same record. As a text
it is exactly if every float in it is read back from its text: a reader of texts may read a neighbour of a float.
-/
namespace FlatStore

deriving instance DecidableEq for Unclaimed, Project

/-- A type of records that keep the members which none of their fields claims. -/
class OpenRecord (α : Type) extends Record α where
  claimed : List String
  /-- The members that the fields of a record are written as. -/
  own : α → List (String × Json)
  others : α → Unclaimed claimed

namespace OpenRecord

variable {α : Type} [OpenRecord α] {text : List UInt8} {members : List (String × Json)} {record : α}

/-- Whether records of a type keep the members that they do not know. -/
structure Keeps (α : Type) [OpenRecord α] : Prop where
  /-- The others are the members of the text that no field claims, with their values and in their order. -/
  kept : ∀ {text : List UInt8} {members : List (String × Json)} {record : α}, Json.parse text = .ok (.object members) →
    Record.ofWire text = .ok record → (others record).members = members.filter fun member => member.1 ∉ claimed α
  /-- A record is written as its own members and the others, and no name is given twice. -/
  written : ∀ record : α, Record.toJson record = .object (own record ++ (others record).members) ∧
    ((own record ++ (others record).members).map Prod.fst).Nodup ∧
    (∀ member ∈ own record, member.1 ∈ claimed α) ∧ ∀ member ∈ (others record).members, member.1 ∉ claimed α
  /-- What has been read from a text is read again from its written form. -/
  again : ∀ {text : List UInt8} {members : List (String × Json)} {record : α}, Json.parse text = .ok (.object members) →
    Record.ofWire text = .ok record → Decoder.ofJson Record.decoder (Record.toJson record) = .ok record
  /-- The text of it holds the same members, and is read as the same record, exactly if its floats are read back. -/
  againFromText : ∀ {text : List UInt8} {members : List (String × Json)} {record : α},
    Json.parse text = .ok (.object members) → Record.ofWire text = .ok record →
      (Json.parse (Record.toWire record).toUTF8.toList = .ok (Record.toJson record) ↔ (Record.toJson record).Exact) ∧
      (Record.ofWire (Record.toWire record).toUTF8.toList = .ok record ↔ (Record.toJson record).Exact)

/-- What is to be known of the fields of a type. -/
structure Laws (α : Type) [OpenRecord α] : Prop where
  toJson_eq : ∀ record : α, Record.toJson record = .object (own record ++ (others record).members)
  mem_claimed : ∀ record : α, ∀ member ∈ own record, member.1 ∈ claimed α
  nodup_own : ∀ record : α, ((own record).map Prod.fst).Nodup
  height_own : ∀ record : α, ∀ member ∈ own record, member.2.height < Draft.maxDepth
  distinct_own : ∀ {form draft} {record : α}, Record.decoder form draft = .ok record →
    ∀ member ∈ own record, member.2.Distinct
  others_of_decode : ∀ {form draft members} {record : α}, Record.decoder form draft = .ok record →
    draft.read = .ok (.object members) → (others record).members = members.filter fun member => member.1 ∉ claimed α
  read_of_decode : ∀ {form drafts closing} {record : α}, Record.decoder form (.object drafts closing) = .ok record →
    ∀ member ∈ drafts, ∃ name, member.1 = .ok name ∧ (name ∉ claimed α → ∃ value, member.2.read = .ok value)
  decode_toJson : ∀ {form draft} {record : α}, Record.decoder form draft = .ok record →
    (Record.toJson record).Distinct → ∀ form, Record.decoder form (.ofJson (Record.toJson record)) = .ok record
  exact_own : ∀ {form} {record : α}, Record.decoder form (Record.toJson record).written = .ok record →
    ∀ member ∈ own record, member.2.Exact

namespace Laws

section

variable (laws : Laws α)
include laws

theorem nodup (record : α) : ((own record ++ (others record).members).map Prod.fst).Nodup := by
  rw [List.map_append]
  refine (laws.nodup_own record).append (others record).distinct fun name mine other => ?_
  obtain ⟨member, mem, rfl⟩ := List.mem_map.1 mine
  exact (others record).apart member.1 other (laws.mem_claimed record member mem)

variable (parsed : Json.parse text = .ok (.object members)) (decoded : Record.ofWire text = .ok record)
include parsed decoded

theorem kept : (others record).members = members.filter fun member => member.1 ∉ claimed α :=
  laws.others_of_decode (mapError_eq_ok_iff.1 decoded) (Json.read_of_parse parsed)

theorem distinct : (Record.toJson record).Distinct := by
  rw [laws.toJson_eq]
  refine Json.distinct_object (laws.nodup record) (List.forall_mem_append.2
    ⟨laws.distinct_own (mapError_eq_ok_iff.1 decoded), fun member mem => ?_⟩)
  rw [laws.kept parsed decoded] at mem
  exact Json.distinct_hereditary.member (Draft.distinct_of_read (Json.read_of_parse parsed)) (List.mem_filter.1 mem).1

theorem height : (Record.toJson record).height ≤ Draft.maxDepth := by
  rw [laws.toJson_eq]
  have below : ∀ member ∈ members, member.2.height ≤ Draft.maxDepth - 1 :=
    Json.height_object_le_iff.1 (Json.height_of_parse parsed)
  refine Json.height_object_le_iff.2 (List.forall_mem_append.2
    ⟨fun member mem => Nat.le_of_lt_succ (laws.height_own record member mem), fun member mem => ?_⟩)
  rw [laws.kept parsed decoded] at mem
  exact below member (List.mem_filter.1 mem).1

/-- What is decoded from the text of a record is decoded from its written form. -/
theorem ofWire_toWire : Record.ofWire (Record.toWire record).toUTF8.toList = .ok record ↔
    Record.decoder .text (Record.toJson record).written = .ok record := by
  have fits : 0 + (Record.toJson record).written.height ≤ Draft.maxDepth := by
    rw [Nat.zero_add, Json.height_written]
    exact laws.height parsed decoded
  rw [Record.ofWire, Decoder.ofText, Record.toWire, Json.ofBytes_render, Draft.clip_eq_self fits, mapError_eq_ok_iff]

/-- Only exact records come back from their texts. -/
theorem exact_of_decode (read : Record.decoder .text (Record.toJson record).written = .ok record) :
    (Record.toJson record).Exact := by
  have distinct := laws.distinct parsed decoded
  have own_exact := laws.exact_own read
  rw [laws.toJson_eq] at read distinct ⊢
  have each : ∀ member ∈ own record ++ (others record).members, member.2.Distinct := fun member =>
    Json.distinct_hereditary.member distinct
  rw [Json.written, Json.writtenMembers_eq_map] at read
  have aside := laws.read_of_decode read
  -- each member is read: those of the fields as they are, the others since they are set aside
  obtain ⟨values, pairs⟩ : ∃ values, List.Forall₂ (fun member value : String × Json =>
      member.1 = value.1 ∧ member.2.written.read = .ok value.2) (own record ++ (others record).members) values := by
    refine exists_forall₂ fun member mem => ?_
    rcases List.mem_append.1 mem with mine | other
    · exact ⟨member, rfl, by rw [Json.written_eq (own_exact member mine), Draft.read_ofJson (each member mem)]⟩
    · obtain ⟨name, same, reads⟩ := aside _ (List.mem_map_of_mem mem)
      obtain rfl := Except.ok.inj same
      obtain ⟨value, found⟩ := reads ((others record).apart member.1 (List.mem_map_of_mem other))
      exact ⟨(member.1, value), rfl, found⟩
  have names : (own record ++ (others record).members).map Prod.fst = values.map Prod.fst := by
    rw [← List.forall₂_eq_eq_eq, List.forall₂_map_left_iff, List.forall₂_map_right_iff]
    exact pairs.imp fun _ _ here => here.1
  have whole : (Draft.object ((own record ++ (others record).members).map fun member =>
      (.ok member.1, member.2.written)) none).read = .ok (.object values) := by
    refine Draft.read_object_eq_ok_iff.2 ⟨rfl, values, ?_, ?_⟩
    · rw [List.forall₂_map_left_iff]
      exact pairs.imp fun _ _ here => ⟨congrArg Except.ok here.1, here.2⟩
    · rw [membersOf_eq_of_nodup (names ▸ laws.nodup record)]
  have kept := laws.others_of_decode read whole
  refine Json.exact_object_iff.2 (List.forall_mem_append.2 ⟨own_exact, fun member mem => ?_⟩)
  obtain ⟨other, held, named, found⟩ := Draft.exists_of_forall₂ pairs (List.mem_append_right _ mem)
  -- the value that is read is that of the only member of this name that is kept
  have same : other ∈ (others record).members := by
    rw [kept]
    refine List.mem_filter.2 ⟨held, decide_eq_true ?_⟩
    rw [← named]
    exact (others record).apart member.1 (List.mem_map_of_mem mem)
  obtain rfl : member = other := List.inj_on_of_nodup_map (others record).distinct mem same named
  exact Json.exact_of_read (each member (List.mem_append_right _ mem)) found

end

/-- A type that keeps to the laws keeps the members that it does not know. -/
theorem keeps (laws : Laws α) : Keeps α where
  kept parsed decoded := laws.kept parsed decoded
  written record := ⟨laws.toJson_eq record, laws.nodup record, laws.mem_claimed record, fun member mem =>
    (others record).apart member.1 (List.mem_map_of_mem mem)⟩
  again parsed decoded :=
    laws.decode_toJson (mapError_eq_ok_iff.1 decoded) (laws.distinct parsed decoded) .value
  againFromText parsed decoded := by
    have distinct := laws.distinct parsed decoded
    refine ⟨(Json.parse_render_iff distinct).trans (and_iff_left (laws.height parsed decoded)), ?_⟩
    rw [laws.ofWire_toWire parsed decoded]
    refine ⟨laws.exact_of_decode parsed decoded, fun exact => ?_⟩
    rw [Json.written_eq exact]
    exact laws.decode_toJson (mapError_eq_ok_iff.1 decoded) distinct .text

end Laws
end OpenRecord

theorem Json.height_strings (items : List String) : (strings items).height ≤ 1 :=
  height_array_le_iff.2 (List.forall_mem_map.2 fun _ _ => Nat.le_refl 0)

theorem Json.exact_strings (items : List String) : (strings items).Exact :=
  exact_array_iff.2 (List.forall_mem_map.2 fun _ _ => trivial)

/-- A float that is read as itself from its text is read back from it. -/
theorem Finite64.exact_of_float {x : Finite64} {form : Form} (read : Decoder.float form x.reread = .ok (.finite x)) :
    x.Exact := by
  obtain ⟨token, -, alone, notWhole⟩ := lexeme_float x
  rw [exact_iff]
  cases found : x.reread with
  | float y =>
    rw [found] at read
    cases read
    rfl
  | whole n =>
    rw [found] at alone
    unfold Draft.ofToken? at alone
    split at alone <;> cases alone
    exact absurd rfl (notWhole n)
  | null | bool | string | flawed | array | object =>
    rw [found] at read
    cases read

/-- Of members that are claimed and others that are not the others are left. -/
theorem Unclaimed.filter_append {claimed : List String} (others : Unclaimed claimed) {own : List (String × Json)}
    (known : ∀ member ∈ own, member.1 ∈ claimed) :
    (own ++ others.members).filter (fun member => member.1 ∉ claimed) = others.members := by
  rw [List.filter_append, List.filter_eq_nil_iff.2 fun member mem => by simpa using known member mem,
    List.filter_eq_self.2 fun member mem => decide_eq_true (others.apart member.1 (List.mem_map_of_mem mem)),
    List.nil_append]

/-! ### Rules -/

namespace Rule

instance : OpenRecord Rule where
  claimed := members.names ++ Meta.members.names
  own := knownMembers
  others := others

theorem claimed_eq : members.names ++ Meta.members.names =
    ["name", "conditions", "tags", "labels", "selectors", "event", "weight", "owner", "revision"] := rfl

/-- What holds of the name and the value of every member that a field may be written as holds of all that are. -/
theorem forall_knownMembers {P : String × Json → Prop} (r : Rule) (name : P ("name", .string r.name))
    (owner : P ("owner", .string r.info.owner)) (revision : ∀ n, P ("revision", .int n))
    (conditions : P ("conditions", .array (r.conditions.map ConditionEntry.toJson)))
    (tags : ∀ items, P ("tags", .strings items)) (labels : P ("labels", r.labels.toJson .string))
    (selectors : P ("selectors", .strings r.selectors.keys)) (event : ∀ e : Event, P ("event", e.toJson))
    (weight : P ("weight", .number r.weight)) : ∀ member ∈ r.knownMembers, P member := by
  obtain ⟨_, ⟨_, given⟩, _, held, _, _, happened, _, _⟩ := r
  cases given <;> cases held <;> cases happened <;>
    simp [knownMembers, Meta.toMembers, Json.memberOf, *]

theorem mem_claimed_knownMembers (r : Rule) :
    ∀ member ∈ r.knownMembers, member.1 ∈ members.names ++ Meta.members.names := by
  rw [claimed_eq]
  refine r.forall_knownMembers ?_ ?_ ?_ ?_ ?_ ?_ ?_ ?_ ?_ <;> simp

theorem nodup_knownMembers (r : Rule) : (r.knownMembers.map Prod.fst).Nodup := by
  obtain ⟨_, ⟨_, given⟩, _, held, _, _, happened, _, _⟩ := r
  cases given <;> cases held <;> cases happened <;> simp [knownMembers, Meta.toMembers, Json.memberOf]

theorem height_knownMembers (r : Rule) : ∀ member ∈ r.knownMembers, member.2.height < Draft.maxDepth := by
  have conditions : (Json.array (r.conditions.map ConditionEntry.toJson)).height ≤ 3 :=
    Json.height_array_le_iff.2 (List.forall_mem_map.2 fun e _ => Nat.le_refl 2)
  have labels : (r.labels.toJson .string).height ≤ 1 :=
    Json.height_object_le_iff.2 (List.forall_mem_map.2 fun _ _ => Nat.le_refl 0)
  have event : ∀ e : Event, e.toJson.height ≤ 1 := by
    intro e
    cases e <;> exact Nat.le_refl 1
  have weight : (Json.number r.weight).height = 0 := by cases r.weight <;> rfl
  have leaf : 0 < Draft.maxDepth := by decide
  refine r.forall_knownMembers leaf leaf (fun _ => leaf) ?_ (fun items => ?_) ?_ ?_ (fun e => ?_) ?_
  · exact Nat.lt_of_le_of_lt conditions (by decide)
  · exact Nat.lt_of_le_of_lt (Json.height_strings items) (by decide)
  · exact Nat.lt_of_le_of_lt labels (by decide)
  · exact Nat.lt_of_le_of_lt (Json.height_strings r.selectors.keys) (by decide)
  · exact Nat.lt_of_le_of_lt (event e) (by decide)
  · rw [weight]
    decide

theorem ensures_weight {given : String → Draft → Prop} {P : Binary64 → Prop}
    (last : (Members.required "weight" .float).Ensures given P) :
    members.Ensures given fun found => P found.2.2.2.2.2.2 :=
  (((((last.behind _).behind _).behind _).behind _).behind _).behind _

/-- The weight of a rule that has been read is finite, whatever it is read from. -/
theorem weight_finite {form : Form} {draft : Draft} {r : Rule} (read : decoder form draft = .ok r) :
    ∃ x, r.weight = .finite x := by
  obtain ⟨found, opened, rfl⟩ := map_eq_ok_iff.1 read
  have last : (Members.required "weight" .float).Ensures (fun _ _ => True) fun weight => ∃ x, weight = .finite x := by
    refine Members.ensures_required fun form draft weight _ read => ?_
    cases draft with
    | whole n =>
      cases read
      exact Binary64.ofInt_finite n
    | float x =>
      cases read
      exact ⟨x, rfl⟩
    | null | bool | string | flawed | array | object => cases read
  cases draft with
  | object drafts closing => exact (ensures_weight last).openDecoder (fun _ _ _ _ => trivial) opened
  | null | bool | whole | float | string | flawed | array => cases opened

theorem distinct_known {form : Form} {draft : Draft} {r : Rule} (read : decoder form draft = .ok r) :
    ∀ member ∈ r.knownMembers, member.2.Distinct := by
  obtain ⟨x, weight⟩ := weight_finite read
  exact fun member => Json.distinct_hereditary.member (distinct_knownMembers weight)

theorem lookup_weight {r : Rule} {x : Finite64} (weight : r.weight = .finite x) :
    r.knownMembers.lookup "weight" = some (.float x) := by
  obtain ⟨_, ⟨_, given⟩, _, held, _, _, happened, _, _⟩ := r
  cases weight
  cases given <;> cases held <;> cases happened <;> rfl

theorem decode_toJson {r : Rule} {x : Finite64} (weight : r.weight = .finite x) (distinct : r.toJson.Distinct)
    (form : Form) : decoder form (.ofJson r.toJson) = .ok r := by
  have values : leadingFields.map (fun f => r.knownMembers.lookup f.wireName) = r.leadingValues r.selectors.keys := by
    obtain ⟨_, ⟨_, given⟩, _, held, _, _, happened, _, _⟩ := r
    cases given <;> cases held <;> rcases happened with _ | ⟨_ | _⟩ <;> rfl
  have found : ∀ name ∈ members.names ++ Meta.members.names,
      (r.knownMembers ++ r.unknown).lookup name = r.knownMembers.lookup name := fun name claimed =>
    r.others.lookup_append claimed _
  obtain ⟨others, read, kept⟩ := decode_given
    (show (Json.object (r.knownMembers ++ r.unknown)).Distinct from distinct) (.refl _) weight
    ((List.map_congr_left fun f mem => found _ (mem_names_of_field f (List.mem_append_left _ mem))).trans values)
    ((found _ (by decide)).trans (lookup_weight weight)) form
  have same : others = r.others := Unclaimed.eq_of_members (kept.trans (r.others.filter_append r.mem_claimed_knownMembers))
  rw [same] at read
  exact read

/-- A rule that comes back from its text has a weight that is read back. -/
theorem exact_known {form : Form} {r : Rule} (read : decoder form r.toJson.written = .ok r) :
    ∀ member ∈ r.knownMembers, member.2.Exact := by
  obtain ⟨x, weight⟩ := weight_finite read
  have exact_weight : x.Exact := by
    obtain ⟨found, opened, same⟩ := map_eq_ok_iff.1 read
    have last : (Members.required "weight" .float).Ensures (fun name draft => name = "weight" → draft = x.reread)
        fun w => Decoder.float .text x.reread = .ok w := by
      refine Members.ensures_required fun form draft w weighed read => ?_
      rw [← weighed rfl, ← read]
      cases draft <;> rfl
    have named : ∀ member ∈ r.knownMembers ++ r.unknown, member.1 = "weight" → member.2.written = x.reread := by
      refine List.forall_mem_append.2 ⟨fun member mem same => ?_, fun member mem same => ?_⟩
      · have held := (lookup_eq_some_iff_mem r.nodup_knownMembers).2 (show (member.1, member.2) ∈ r.knownMembers from mem)
        rw [same, lookup_weight weight] at held
        rw [← Option.some.inj held]
        rfl
      · refine absurd ?_ (r.others.apart member.1 (List.mem_map_of_mem mem))
        rw [same]
        decide
    rw [toJson_eq, Json.written, Json.writtenMembers_eq_map] at opened
    have weighed := (ensures_weight last).openDecoder (List.forall_mem_map.2 fun member mem name same here =>
      named member mem ((Except.ok.inj same).trans here)) opened
    refine Finite64.exact_of_float (weighed.trans (congrArg Except.ok ?_))
    rw [← weight]
    exact congrArg Rule.weight same
  have conditions : (Json.array (r.conditions.map ConditionEntry.toJson)).Exact :=
    Json.exact_array_iff.2 (List.forall_mem_map.2 fun e _ => by
      simp [ConditionEntry.toJson, Condition.toJson, Json.Exact, Json.ExactMembers])
  have labels : (r.labels.toJson .string).Exact := Json.exact_object_iff.2 (List.forall_mem_map.2 fun _ _ => trivial)
  have event : ∀ e : Event, e.toJson.Exact := by
    intro e
    cases e <;> simp [Event.toJson, Click.toMembers, Tap.toMembers, Json.exact_object_iff, Json.Exact, Json.int]
  refine r.forall_knownMembers trivial trivial (fun _ => trivial) conditions Json.exact_strings labels
    (Json.exact_strings _) event ?_
  rw [weight]
  exact exact_weight

theorem laws : OpenRecord.Laws Rule where
  toJson_eq := toJson_eq
  mem_claimed := mem_claimed_knownMembers
  nodup_own := nodup_knownMembers
  height_own := height_knownMembers
  distinct_own := distinct_known
  others_of_decode read whole := by
    obtain ⟨found, opened, rfl⟩ := map_eq_ok_iff.1 read
    exact Members.others_of_openDecoder opened whole
  read_of_decode read := by
    obtain ⟨found, opened, -⟩ := map_eq_ok_iff.1 read
    exact Members.read_of_openDecoder opened
  decode_toJson read distinct form := by
    obtain ⟨x, weight⟩ := weight_finite read
    exact decode_toJson weight distinct form
  exact_own := exact_known

end Rule

/-! ### Projects -/

namespace Project

def knownMembers (p : Project) : List (String × Json) :=
  Json.memberOf "id" .string p.id ++ [("name", .string p.name), ("members", .strings p.members)]

instance : OpenRecord Project where
  claimed := known.names ++ Members.none.names
  own := knownMembers
  others := others

theorem toJson_eq (p : Project) : p.toJson = .object (p.knownMembers ++ p.unknown) := rfl

theorem forall_knownMembers {P : String × Json → Prop} (p : Project) (id : ∀ id, P ("id", .string id))
    (name : P ("name", .string p.name)) (members : P ("members", .strings p.members)) :
    ∀ member ∈ p.knownMembers, P member := by
  obtain ⟨_ | given, _, _, _⟩ := p <;> simp [knownMembers, Json.memberOf, *]

theorem claimed_eq : known.names ++ Members.none.names = ["id", "name", "members"] := rfl

theorem mem_claimed_knownMembers (p : Project) : ∀ member ∈ p.knownMembers, member.1 ∈ known.names ++ Members.none.names := by
  rw [claimed_eq]
  refine p.forall_knownMembers ?_ ?_ ?_ <;> simp

theorem nodup_knownMembers (p : Project) : (p.knownMembers.map Prod.fst).Nodup := by
  obtain ⟨_ | given, _, _, _⟩ := p <;> simp [knownMembers, Json.memberOf]

theorem decode_toJson (p : Project) (distinct : p.toJson.Distinct) (form : Form) :
    decoder form (.ofJson p.toJson) = .ok p := by
  have found : ∀ name ∈ known.names ++ Members.none.names,
      (p.knownMembers ++ p.unknown).lookup name = p.knownMembers.lookup name := fun name claimed =>
    p.others.lookup_append claimed _
  have id : p.knownMembers.lookup "id" = p.id.map .string := by
    obtain ⟨_ | given, _, _, _⟩ := p <;> rfl
  have name : p.knownMembers.lookup "name" = some (.string p.name) := by
    obtain ⟨_ | given, _, _, _⟩ := p <;> rfl
  have listed : p.knownMembers.lookup "members" = some (.strings p.members) := by
    obtain ⟨_ | given, _, _, _⟩ := p <;> rfl
  have nodup : ((p.knownMembers ++ p.unknown).map Prod.fst).Nodup := distinct.1
  have id_read : (Members.optional "id" .string).Reads form (p.knownMembers ++ p.unknown) p.id :=
    .optional nodup ((found _ (by decide)).trans id) fun _ _ => ⟨nofun, rfl⟩
  have name_read : (Members.required "name" .string).Reads form (p.knownMembers ++ p.unknown) p.name :=
    .one nodup ((found _ (by decide)).trans name) rfl
  have members_read : (Members.required "members" (.list .string)).Reads form (p.knownMembers ++ p.unknown) p.members :=
    .one nodup ((found _ (by decide)).trans listed) (Decoder.strings_ofJson _ _)
  have nothing : Members.none.Reads .buffered (p.knownMembers ++ p.unknown) () :=
    ⟨(), .of_unknown _ fun _ _ => List.not_mem_nil, rfl⟩
  obtain ⟨others, read, kept⟩ := (id_read.and (name_read.and members_read (by decide)) (by decide)).openDecoder nothing
    (by decide) distinct "struct Project"
  have same : others = p.others := Unclaimed.eq_of_members (kept.trans (p.others.filter_append p.mem_claimed_knownMembers))
  rw [same] at read
  exact congrArg (Except.map _) read

theorem laws : OpenRecord.Laws Project where
  toJson_eq := toJson_eq
  mem_claimed := mem_claimed_knownMembers
  nodup_own := nodup_knownMembers
  height_own p := by
    have leaf : 0 < Draft.maxDepth := by decide
    exact p.forall_knownMembers (fun _ => leaf) leaf (Nat.lt_of_le_of_lt (Json.height_strings _) (by decide))
  distinct_own _ := forall_knownMembers _ (fun _ => trivial) trivial (Json.distinct_strings _)
  others_of_decode read whole := by
    obtain ⟨found, opened, rfl⟩ := map_eq_ok_iff.1 read
    exact Members.others_of_openDecoder opened whole
  read_of_decode read := by
    obtain ⟨found, opened, -⟩ := map_eq_ok_iff.1 read
    exact Members.read_of_openDecoder opened
  decode_toJson _ distinct := decode_toJson _ distinct
  exact_own _ := forall_knownMembers _ (fun _ => trivial) trivial (Json.exact_strings _)

end Project

/-! ### Resources -/

namespace Resource

variable {α σ : Type} [Resource α] {transport : Transport σ}

theorem exchange_run (request : Request) (before : σ) : (exchange transport request).run.run before =
    match transport request before with
    | (.lost message, after) => (.error (.transport request message), after)
    | (.reply status body, after) =>
      (if status = request.expected then .ok body else .error (.unexpectedStatus request status body), after) := by
  have lifted : (liftM (transport request : StateM σ Answer) : Operation σ Answer).run.run before =
      (.ok (transport request before).1, (transport request before).2) := rfl
  rw [exchange, ExceptT.run_bind, StateT.run_bind, lifted]
  rcases transport request before with ⟨⟨status, body⟩ | message, after⟩
  · show (if status = request.expected then (pure body : Operation σ String) else
        throw (.unexpectedStatus request status body)).run.run after =
      (if status = request.expected then .ok body else .error (.unexpectedStatus request status body), after)
    split <;> rfl
  · rfl

theorem received_run (body : String) (now : σ) : (received body : Operation σ α).run.run now =
    ((Record.ofWire body.toUTF8.toList).mapError .record, now) := by
  unfold received
  split <;> next found => rw [found]; rfl

/-- A resource is read if there is a reply whose body holds it. -/
theorem read_eq_ok_iff {id : String} {before after : σ} {value : α} :
    (read α transport id).run.run before = (.ok value, after) ↔
      ∃ body, transport ⟨.get, itemPath α id, none, 200⟩ before = (.reply 200 body, after) ∧
        Record.ofWire body.toUTF8.toList = .ok value := by
  have asked : (read α transport id).run.run before =
      match (exchange transport ⟨.get, itemPath α id, none, 200⟩).run.run before with
      | (.ok body, now) => (received body : Operation σ α).run.run now
      | (.error error, now) => (.error error, now) := by
    rcases sent : (exchange transport ⟨.get, itemPath α id, none, 200⟩).run.run before with ⟨_ | _, now⟩
    all_goals
      simp only [read, ExceptT.run_bind, StateT.run_bind, sent]
      rfl
  rw [asked, exchange_run]
  constructor
  · intro done
    rcases sent : transport ⟨.get, itemPath α id, none, 200⟩ before with ⟨⟨status, body⟩ | _, now⟩
    all_goals rw [sent] at done
    · by_cases success : status = 200
      · subst success
        have decoded : (Record.ofWire body.toUTF8.toList : Except RecordError α).mapError ApiError.record = .ok value ∧
            now = after := Prod.mk.inj ((received_run body now).symm.trans done)
        obtain ⟨decoded, rfl⟩ := decoded
        exact ⟨body, rfl, mapError_eq_ok_iff.1 decoded⟩
      · simp only [if_neg success] at done
        cases done
    · cases done
  · rintro ⟨body, sent, decoded⟩
    rw [sent]
    dsimp only
    rw [if_pos rfl]
    exact (received_run body after).trans (by rw [decoded]; rfl)

/-- An update sends the text of the resource first. -/
theorem update_eq {value : α} {id : String} (known : id? value = some id) (nonempty : id ≠ "") :
    update transport value = (do
      received (← exchange transport ⟨.put, itemPath α id, some (Record.toWire value), 200⟩)) := by
  have required : (requiredId value "updated" : Operation σ String) = pure id := by
    simp [requiredId, known, nonempty, Option.filter]
  rw [update, required, pure_bind]

end Resource

/-- Rules and projects keep the members that they do not know. An update of a project that has been read sends all of
them that have come with it. -/
theorem OpenRecord.others_survive {σ : Type} (transport : Transport σ) : Keeps Rule ∧ Keeps Project ∧
    ∀ {id : String} {before after : σ} {p : Project},
      (Resource.read Project transport id).run.run before = (.ok p, after) →
      ∃ body, transport ⟨.get, "projects/" ++ id, none, 200⟩ before = (.reply 200 body, after) ∧
        Record.ofWire body.toUTF8.toList = .ok p ∧
        ∀ {members : List (String × Json)} {own : String}, Json.parse body.toUTF8.toList = .ok (.object members) →
          p.id = some own → own ≠ "" → ∃ sent,
            (∀ member ∈ members, member.1 ∉ claimed Project → member ∈ sent) ∧
            Resource.update transport p = (do
              Resource.received (← Resource.exchange transport
                ⟨.put, "projects/" ++ own, some (Json.object sent).render, 200⟩)) := by
  refine ⟨Rule.laws.keeps, Project.laws.keeps, fun {_ _ _ p} done => ?_⟩
  obtain ⟨body, replied, decoded⟩ := Resource.read_eq_ok_iff.1 done
  refine ⟨body, replied, decoded, fun {members own} parsed known nonempty => ?_⟩
  refine ⟨p.knownMembers ++ p.unknown, fun member mem unclaimed => ?_, Resource.update_eq known nonempty⟩
  refine List.mem_append_right _ ?_
  rw [Project.unknown, show p.others.members = _ from Project.laws.kept parsed decoded]
  exact List.mem_filter.2 ⟨mem, decide_eq_true unclaimed⟩

def Project.painted : Project where
  id := some "7"
  name := "core"
  members := ["ann"]
  others := ⟨[("color", .string "red"), ("extra", .object [("nested", .array [.bool true, .null])])], by decide,
    by decide⟩

/-- A text of it, with the members in another order. -/
def Project.paintedText : String :=
  "\x7b\"color\":\"red\",\"id\":\"7\",\"name\":\"core\",\"extra\":\x7b\"nested\":[true,null]\x7d,\"members\":[\"ann\"]\x7d"

def Project.paintedMembers : List (String × Json) :=
  [("color", .string "red"), ("id", .string "7"), ("name", .string "core"),
    ("extra", .object [("nested", .array [.bool true, .null])]), ("members", .strings ["ann"])]

theorem OpenRecord.others_survive_painted :
    (others Project.painted).members = Project.paintedMembers.filter (fun member => member.1 ∉ claimed Project) ∧
      Record.ofWire (Record.toWire Project.painted).toUTF8.toList = .ok Project.painted ∧
      ∃ sent, ("color", Json.string "red") ∈ sent ∧ Resource.update Rehearsal.transport Project.painted = (do
        Resource.received (← Resource.exchange Rehearsal.transport
          ⟨.put, "projects/7", some (Json.object sent).render, 200⟩)) := by
  have parsed : Json.parse Project.paintedText.toUTF8.toList = .ok (.object Project.paintedMembers) := by
    decide +kernel
  have decoded : Record.ofWire Project.paintedText.toUTF8.toList = .ok Project.painted := by decide +kernel
  have done : (Resource.read Project Rehearsal.transport "7").run.run ⟨[.reply 200 Project.paintedText], []⟩ =
      (.ok Project.painted, ⟨[], [⟨.get, "projects/7", none, 200⟩]⟩) :=
    Resource.read_eq_ok_iff.2 ⟨_, rfl, decoded⟩
  have exact : (Record.toJson Project.painted).Exact := by
    simp [Record.toJson, Project.toJson, Project.unknown, Project.painted, Json.memberOf, Json.strings, Json.Exact,
      Json.ExactMembers, Json.ExactItems]
  obtain ⟨-, keeps, updates⟩ := others_survive Rehearsal.transport
  obtain ⟨body, replied, -, sends⟩ := updates done
  have same : Answer.reply 200 Project.paintedText = .reply 200 body := congrArg Prod.fst replied
  obtain ⟨sent, all, update⟩ := sends ((Answer.reply.inj same).2 ▸ parsed) rfl (by decide)
  exact ⟨keeps.kept parsed decoded, (keeps.againFromText parsed decoded).2.2 exact, sent,
    all _ List.mem_cons_self (by decide), update⟩

/-! ### Floats that drift -/

/-- A numeral of few digits is read in two steps of one rounding each. -/
theorem Numeral.toFinite?_of_near {n : Numeral} {digits : Nat} {exponent : Int} {x y : Finite64}
    (steps : n.toFinite? = match Binary64.ofRatio n.negative digits 1 with
      | .finite x => x.shift exponent
      | _ => none)
    (first : Binary64.ofRatio n.negative digits 1 = .finite x) (near : 0 ≤ exponent ∧ exponent.natAbs ≤ 308)
    (second : x.scaled (roundedTen exponent.toNat) 1 = .finite y) : n.toFinite? = some y := by
  rw [steps, first]
  dsimp only
  rw [Finite64.shift, if_pos near.2, if_pos near.1, second]

/-- A float is read as its numeral is. -/
theorem Finite64.reread_of_numeral {x y : Finite64} {text : String} {n : Numeral} (written : x.text Json.numberLayout = text)
    (scanned : Token.number (encode text.toList) = (.ofNumeral n false, [])) (read : n.toFinite? = some y) :
    x.reread = .float y := by
  rw [Finite64.reread, written, scanned]
  simp [Token.ofNumeral, read, Draft.ofToken?]

def Finite64.neighbour (n : Fin 3) : Finite64 :=
  ⟨false, 5683542729741565951 + n, by unfold infinityWord; omega⟩

theorem Finite64.reread_first : (neighbour 0).reread = .float (neighbour 1) := by
  have written : (neighbour 0).text Json.numberLayout = "8.834235323891921e+71" := by decide +kernel
  have read : Numeral.toFinite? ⟨false, [8], [8, 3, 4, 2, 3, 5, 3, 2, 3, 8, 9, 1, 9, 2, 1], 71⟩ = some (neighbour 1) := by
    have first : Binary64.ofRatio false 8834235323891921 1 = .finite ⟨false, 4845700235119804625, by decide⟩ := by
      decide +kernel
    exact Numeral.toFinite?_of_near rfl first (show 0 ≤ 56 ∧ Int.natAbs 56 ≤ 308 by decide) (by decide +kernel)
  exact reread_of_numeral written rfl read

theorem Finite64.reread_second : (neighbour 1).reread = .float (neighbour 2) := by
  have written : (neighbour 1).text Json.numberLayout = "8.834235323891922e+71" := by decide +kernel
  have read : Numeral.toFinite? ⟨false, [8], [8, 3, 4, 2, 3, 5, 3, 2, 3, 8, 9, 1, 9, 2, 2], 71⟩ = some (neighbour 2) := by
    have first : Binary64.ofRatio false 8834235323891922 1 = .finite ⟨false, 4845700235119804626, by decide⟩ := by
      decide +kernel
    exact Numeral.toFinite?_of_near rfl first (show 0 ≤ 56 ∧ Int.natAbs 56 ≤ 308 by decide) (by decide +kernel)
  exact reread_of_numeral written rfl read

def Project.measured (ratio : Finite64) : Project where
  id := none
  name := "core"
  members := []
  others := ⟨[("ratio", .float ratio)], by simp, by simp [Project.claimed_eq]⟩

theorem Project.ofWire_measured {x y : Finite64} (reread : x.reread = .float y) :
    Record.ofWire (Record.toWire (measured x)).toUTF8.toList = .ok (measured y) := by
  have written : (Record.toJson (measured x)).written =
      .object [(.ok "name", .string "core"), (.ok "members", .array [] none), (.ok "ratio", .float y)] none := by
    rw [← reread]
    rfl
  rw [Record.ofWire, Decoder.ofText, Record.toWire, Json.ofBytes_render, written]
  rfl

/-- A number that a project does not know may be another one when it has been read, and yet another one when the project
is read again from what it is written as. -/
theorem OpenRecord.others_drift :
    Binary64.ofRatio false (8834235323891921 * 10 ^ 56) 1 = .finite (.neighbour 0) ∧
      Record.ofWire "\x7b\"name\":\"core\",\"members\":[],\"ratio\":8.834235323891921e+71\x7d".toUTF8.toList =
        .ok (Project.measured (.neighbour 1)) ∧
      Record.ofWire (Record.toWire (Project.measured (.neighbour 1))).toUTF8.toList =
        .ok (Project.measured (.neighbour 2)) ∧
      Project.measured (.neighbour 1) ≠ Project.measured (.neighbour 2) := by
  have text : Record.toWire (Project.measured (.neighbour 0)) =
      "\x7b\"name\":\"core\",\"members\":[],\"ratio\":8.834235323891921e+71\x7d" := by decide +kernel
  refine ⟨by decide +kernel, ?_, Project.ofWire_measured Finite64.reread_second, fun same => ?_⟩
  · rw [← text]
    exact Project.ofWire_measured Finite64.reread_first
  · have ratios : Json.float (.neighbour 1) = .float (.neighbour 2) :=
      congrArg Prod.snd (List.head_eq_of_cons_eq (congrArg Project.unknown same))
    exact absurd (Json.float.inj ratios) (by decide)

end FlatStore
