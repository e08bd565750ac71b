import FlatStore.Proofs.Rules
import FlatStore.Proofs.Whole
import FlatStore.Proofs.Written
import FlatStore.Remote

/-!
What is read of the members of an object. A value that is read names no member twice and nests no deeper than its draft
(`Draft.distinct_of_read`, `Draft.height_of_read`). A record that keeps other members keeps those that none of its
readers knows (`Members.others_of_openDecoder`), and what it reads of a member has every property that the reader of
this member ensures (`Members.Ensures`).
-/
namespace FlatStore

/-! ### Members of some names -/

section

variable {α : Type} {p : String → Bool}

theorem setMember_filter {name : String} (kept : p name = true) (value : α) (members : List (String × α)) :
    setMember name value (members.filter fun m => p m.1) = (setMember name value members).filter fun m => p m.1 := by
  induction members with
  | nil => simp [setMember, kept]
  | cons member rest ih =>
    obtain ⟨n, v⟩ := member
    by_cases here : n = name
    · subst here
      simp [setMember, kept]
    · rw [setMember, if_neg here, List.filter_cons, List.filter_cons]
      split
      · rw [setMember, if_neg here, ih]
      · exact ih

/-- Members of some names may be picked before they are collected or after it. -/
theorem filter_membersOf (p : String → Bool) (given : List (String × α)) :
    (membersOf given).filter (fun m => p m.1) = membersOf (given.filter fun m => p m.1) := by
  have general : ∀ given members : List (String × α),
      (given.foldl (fun members m => setMember m.1 m.2 members) members).filter (fun m => p m.1) =
        (given.filter fun m => p m.1).foldl (fun members m => setMember m.1 m.2 members)
          (members.filter fun m => p m.1) := by
    intro given
    induction given with
    | nil => exact fun _ => rfl
    | cons member rest ih =>
      intro members
      rw [List.foldl_cons, ih, List.filter_cons]
      cases kept : p member.1 with
      | true => rw [if_pos rfl, List.foldl_cons, setMember_filter kept]
      | false => rw [filter_setMember kept, if_neg Bool.false_ne_true]
  exact general given []

end

/-- If each of some things is related to another, so are they one by one to some list. -/
theorem exists_forall₂ {α β : Type} {R : α → β → Prop} {as : List α} (each : ∀ a ∈ as, ∃ b, R a b) :
    ∃ bs, List.Forall₂ R as bs := by
  induction as with
  | nil => exact ⟨[], .nil⟩
  | cons a rest ih =>
    obtain ⟨⟨b, here⟩, later⟩ := List.forall_mem_cons.1 each
    obtain ⟨bs, behind⟩ := ih later
    exact ⟨b :: bs, .cons here behind⟩

/-! ### Values that are read -/

namespace Draft

variable {draft : Draft} {value : Json}

theorem exists_of_read_items {items : List Draft} {values : List Json}
    (each : List.Forall₂ (fun item value => item.read = .ok value) items values) {value : Json} (mem : value ∈ values) :
    ∃ item ∈ items, item.read = .ok value := exists_of_forall₂ each.flip mem

theorem exists_of_read_members {members : List (DraftName × Draft)} {values : List (String × Json)}
    (each : List.Forall₂ (fun member value => member.1 = .ok value.1 ∧ member.2.read = .ok value.2) members values)
    {value : String × Json} (mem : value ∈ membersOf values) : ∃ member ∈ members, member.2.read = .ok value.2 := by
  obtain ⟨member, held, -, read⟩ := exists_of_forall₂ each.flip (mem_of_mem_membersOf mem)
  exact ⟨member, held, read⟩

/-- No name is given twice in a value that is read. -/
theorem distinct_of_read (read : draft.read = .ok value) : value.Distinct := by
  induction draft using partInduction generalizing value with
  | flawed flaw => cases read
  | null | bool | whole | float | string => cases read; trivial
  | array items closing ih =>
    obtain ⟨-, values, each, rfl⟩ := read_array_eq_ok_iff.1 read
    refine Json.distinct_array fun value mem => ?_
    obtain ⟨item, held, read⟩ := exists_of_read_items each mem
    exact ih item held read
  | object members closing ih =>
    obtain ⟨-, values, each, rfl⟩ := read_object_eq_ok_iff.1 read
    refine Json.distinct_object (nodup_membersOf values) fun value mem => ?_
    obtain ⟨member, held, read⟩ := exists_of_read_members each mem
    exact ih member held read

end Draft

namespace Json

theorem height_array_le_iff {items : List Json} {n : Nat} :
    (array items).height ≤ n + 1 ↔ ∀ item ∈ items, item.height ≤ n := by
  rw [height, Draft.ofJson, Draft.height, Nat.add_le_add_iff_right, Draft.heightItems_le_iff, ofItems_eq_map,
    List.forall_mem_map]
  rfl

theorem height_object_le_iff {members : List (String × Json)} {n : Nat} :
    (object members).height ≤ n + 1 ↔ ∀ member ∈ members, member.2.height ≤ n := by
  rw [height, Draft.ofJson, Draft.height, Nat.add_le_add_iff_right, Draft.heightMembers_le_iff, ofMembers_eq_map,
    List.forall_mem_map]
  rfl

end Json

/-- What is read is no deeper than its draft. -/
theorem Draft.height_of_read {draft : Draft} {value : Json} (read : draft.read = .ok value) :
    value.height ≤ draft.height := by
  induction draft using partInduction generalizing value with
  | flawed flaw => cases read
  | null | bool | whole | float | string => cases read; exact Nat.le_refl 0
  | array items closing ih =>
    obtain ⟨-, values, each, rfl⟩ := read_array_eq_ok_iff.1 read
    refine Json.height_array_le_iff.2 fun value mem => ?_
    obtain ⟨item, held, read⟩ := exists_of_read_items each mem
    exact Nat.le_trans (ih item held read) (heightItems_le_iff.1 (Nat.le_refl _) item held)
  | object members closing ih =>
    obtain ⟨-, values, each, rfl⟩ := read_object_eq_ok_iff.1 read
    refine Json.height_object_le_iff.2 fun value mem => ?_
    obtain ⟨member, held, read⟩ := exists_of_read_members each mem
    exact Nat.le_trans (ih member held read) (heightMembers_le_iff.1 (Nat.le_refl _) member held)

namespace Json

variable {text : List UInt8} {value : Json}

theorem read_of_parse (parsed : parse text = .ok value) : (Draft.ofBytes text).read = .ok value := by
  unfold parse at parsed
  dsimp only at parsed
  split at parsed
  · next found read =>
    split at parsed
    · rwa [← Except.ok.inj parsed]
    · cases parsed
  · cases parsed

/-- A value that is read from a text nests no deeper than a text may. -/
theorem height_of_parse (parsed : parse text = .ok value) : value.height ≤ Draft.maxDepth := by
  have read := read_of_parse parsed
  obtain ⟨-, behind, tokens, draft, -, -, -, built⟩ := Draft.lexes_of_build (Draft.skipFault_of_read read)
  have same : Draft.ofBytes text = Draft.clip 0 draft := congrArg Prod.fst built
  rw [same] at read
  have fits := Draft.fits_of_read (Nat.zero_le _) read
  rw [Draft.clip_eq_self fits] at read
  exact Nat.le_trans (Draft.height_of_read read) (by simpa using fits)

end Json

/-! ### Records that keep other members -/

namespace Members

variable {α β : Type} {m : Members α} {n : Members β} {form : Form} {closing : Option Fault}
  {drafts : List (DraftName × Draft)} {slots : m.Slots}

/-- The members that are set aside are those of unknown names, and each of them has been read. -/
theorem readOpen_eq_ok {last : m.Slots × List (SetAside m.names)}
    (read : m.readOpen form closing slots drafts = .ok last) : (∀ member ∈ drafts, ∃ name, member.1 = .ok name ∧
      (name ∉ m.names → ∃ value, member.2.read = .ok value)) ∧
      ∀ values, List.Forall₂ (fun member value => member.1 = .ok value.1 ∧
          (value.1 ∉ m.names → member.2.read = .ok value.2)) drafts values →
        last.2.map (fun o => (o.name, o.json)) = values.filter fun value => value.1 ∉ m.names := by
  induction drafts generalizing slots last with
  | nil =>
    obtain ⟨-, same⟩ := then_eq_ok_iff.1 read
    cases same
    refine ⟨by simp, fun values each => ?_⟩
    cases each
    rfl
  | cons member rest ih =>
    obtain ⟨given, draft⟩ := member
    obtain ⟨name, named, later⟩ := bind_eq_ok_iff.1 read
    obtain rfl := Decoder.faults_readName_iff.1 named
    split at later
    · next fed =>
      obtain ⟨next, rfl, later⟩ := bind_eq_ok_iff.1 later
      obtain ⟨behind, others⟩ := ih later
      have known : name ∈ m.names := by
        by_contra unknown
        rw [feed_eq_none_iff.2 unknown] at fed
        cases fed
      refine ⟨List.forall_mem_cons.2 ⟨⟨name, rfl, fun unknown => absurd known unknown⟩, behind⟩, fun values each => ?_⟩
      obtain ⟨value, more, ⟨same, -⟩, following, rfl⟩ := List.forall₂_cons_left_iff.1 each
      cases same
      rw [others more following, List.filter_cons, if_neg (by simpa using known)]
    · next passed =>
      obtain ⟨json, whole, later⟩ := bind_eq_ok_iff.1 later
      obtain ⟨others, opened, same⟩ := bind_eq_ok_iff.1 later
      obtain ⟨behind, aside⟩ := ih opened
      cases same
      have unknown : name ∉ m.names := feed_eq_none_iff.1 passed
      have here := Decoder.faults_eq_ok_iff.1 whole
      refine ⟨List.forall_mem_cons.2 ⟨⟨name, rfl, fun _ => ⟨json, here⟩⟩, behind⟩, fun values each => ?_⟩
      obtain ⟨⟨_, value⟩, more, ⟨same, found⟩, following, rfl⟩ := List.forall₂_cons_left_iff.1 each
      cases same
      obtain rfl : json = value := Except.ok.inj (here.symm.trans (found unknown))
      rw [List.map_cons, aside more following, List.filter_cons, if_pos (by simpa using unknown)]

/-- What is kept are the members that neither record knows. -/
theorem others_of_openDecoder {title : String} {draft : Draft} {members : List (String × Json)}
    {found : α × β × Unclaimed (m.names ++ n.names)} (read : m.openDecoder title n form draft = .ok found)
    (whole : draft.read = .ok (.object members)) :
    found.2.2.members = members.filter fun member => member.1 ∉ m.names ++ n.names := by
  cases draft with
  | object drafts closing =>
    obtain ⟨-, values, each, same⟩ := Draft.read_object_eq_ok_iff.1 whole
    obtain rfl := Json.object.inj same
    obtain ⟨⟨slots, others⟩, opened, read⟩ := bind_eq_ok_iff.1 read
    obtain ⟨a, -, read⟩ := bind_eq_ok_iff.1 read
    obtain ⟨embedded, -, read⟩ := bind_eq_ok_iff.1 read
    obtain ⟨b, -, read⟩ := bind_eq_ok_iff.1 read
    cases read
    have aside := (readOpen_eq_ok opened).2 values (each.imp fun _ _ here => ⟨here.1, fun _ => here.2⟩)
    have picked : (others.filter fun o => !n.names.contains o.name).map (fun o => (o.name, o.json)) =
        values.filter fun value => value.1 ∉ m.names ++ n.names := by
      have apart : (others.filter fun o => !n.names.contains o.name).map (fun o => (o.name, o.json)) =
          (others.map fun o => (o.name, o.json)).filter fun value => !n.names.contains value.1 := by
        rw [List.filter_map]
        rfl
      rw [apart, aside, List.filter_filter]
      exact List.filter_congr fun member _ => by simp [Bool.and_comm]
    change membersOf _ = _
    rw [picked]
    exact (filter_membersOf (fun name => decide (name ∉ m.names ++ n.names)) values).symm
  | null | bool | whole | float | string | flawed | array => cases read

/-- Members that are not known have been read where a record is. -/
theorem read_of_openDecoder {title : String} {found : α × β × Unclaimed (m.names ++ n.names)}
    (read : m.openDecoder title n form (.object drafts closing) = .ok found) :
    ∀ member ∈ drafts, ∃ name, member.1 = .ok name ∧ (name ∉ m.names ++ n.names → ∃ value, member.2.read = .ok value) := by
  obtain ⟨opened, opens, -⟩ := bind_eq_ok_iff.1 read
  intro member mem
  obtain ⟨name, named, each⟩ := (readOpen_eq_ok opens).1 member mem
  exact ⟨name, named, fun unknown => each fun known => unknown (List.mem_append_left _ known)⟩

/-! ### What is read of single members -/

/-- Whether what is read of some members has a property. Just such drafts are read as are given for their names. -/
structure Ensures (m : Members α) (given : String → Draft → Prop) (P : α → Prop) : Prop where
  exists_invariant : ∃ I : m.Slots → Prop, I m.empty ∧
    (∀ {name form draft decode slots next}, given name draft → I slots → m.take name slots = some (.ok decode) →
      decode form draft = .ok next → I next) ∧
    ∀ {slots a}, I slots → m.finish slots = .ok a → P a

variable {given : String → Draft → Prop} {P : β → Prop}

theorem ensures_required {name : String} {decode : Decoder β}
    (each : ∀ form draft b, given name draft → decode form draft = .ok b → P b) :
    (required name decode).Ensures given P := by
  refine ⟨fun slot => ∀ b, slot = some b → P b, by simp [required, one], ?_, ?_⟩
  · intro other form draft reader slot next here _ taken read
    simp only [required, one] at taken
    split at taken
    · next same =>
      subst same
      split at taken
      · cases taken
      · cases taken
        obtain ⟨b, found, rfl⟩ := map_eq_ok_iff.1 read
        intro other same
        exact Option.some.inj same ▸ each form draft b here found
    · cases taken
  · intro slot b held done
    cases slot with
    | none => cases done
    | some value => exact held b (congrArg some (Except.ok.inj done))

/-- What is read last does not depend on what is read before. -/
theorem Ensures.behind (ensures : n.Ensures given P) (m : Members α) : (m.and n).Ensures given fun both => P both.2 := by
  obtain ⟨I, start, step, done⟩ := ensures.exists_invariant
  refine ⟨fun slots => I slots.2, start, ?_, ?_⟩
  · intro name form draft reader slots next here held taken read
    simp only [Members.and] at taken
    split at taken
    · cases taken
      obtain ⟨_, -, rfl⟩ := map_eq_ok_iff.1 read
      exact held
    · cases taken
    · split at taken
      · next own =>
        cases taken
        obtain ⟨_, found, rfl⟩ := map_eq_ok_iff.1 read
        exact step here held own found
      · cases taken
      · cases taken
  · intro slots both held finished
    obtain ⟨a, -, finished⟩ := bind_eq_ok_iff.1 finished
    obtain ⟨b, last, same⟩ := bind_eq_ok_iff.1 finished
    cases same
    exact done held last

theorem Ensures.openDecoder {P : α → Prop} {title : String} {found : α × β × Unclaimed (m.names ++ n.names)}
    (ensures : m.Ensures given P) (each : ∀ member ∈ drafts, ∀ name, member.1 = .ok name → given name member.2)
    (read : m.openDecoder title n form (.object drafts closing) = .ok found) : P found.1 := by
  obtain ⟨I, start, step, done⟩ := ensures.exists_invariant
  have run : ∀ {drafts : List (DraftName × Draft)} {slots : m.Slots} {last : m.Slots × List (SetAside m.names)},
      (∀ member ∈ drafts, ∀ name, member.1 = .ok name → given name member.2) → I slots →
      m.readOpen form closing slots drafts = .ok last → I last.1 := by
    intro drafts
    induction drafts with
    | nil =>
      intro slots last _ held read
      obtain ⟨-, same⟩ := then_eq_ok_iff.1 read
      cases same
      exact held
    | cons member rest ih =>
      intro slots last each held read
      obtain ⟨here, behind⟩ := List.forall_mem_cons.1 each
      obtain ⟨label, draft⟩ := member
      obtain ⟨name, named, later⟩ := bind_eq_ok_iff.1 read
      obtain rfl := Decoder.faults_readName_iff.1 named
      split at later
      · next fed =>
        obtain ⟨next, rfl, later⟩ := bind_eq_ok_iff.1 later
        refine ih behind ?_ later
        unfold feed at fed
        split at fed
        · next taken => exact step (here name rfl) held taken (mapError_eq_ok_iff.1 (Option.some.inj fed))
        · cases fed
        · cases fed
      · obtain ⟨json, -, later⟩ := bind_eq_ok_iff.1 later
        obtain ⟨others, opened, same⟩ := bind_eq_ok_iff.1 later
        have kept := ih behind held opened
        cases same
        exact kept
  obtain ⟨⟨slots, others⟩, opened, read⟩ := bind_eq_ok_iff.1 read
  obtain ⟨a, finished, read⟩ := bind_eq_ok_iff.1 read
  obtain ⟨embedded, -, read⟩ := bind_eq_ok_iff.1 read
  obtain ⟨b, -, read⟩ := bind_eq_ok_iff.1 read
  cases read
  exact done (run each start opened) (mapError_eq_ok_iff.1 finished)

end Members
end FlatStore
