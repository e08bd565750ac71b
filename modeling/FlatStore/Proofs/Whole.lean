import FlatStore.Proofs.Grammar
import FlatStore.Record.Project
import FlatStore.Record.Unbounded
import FlatStore.Schema.Decode
import FlatStore.Store.Decode

/-!
Texts that are decoded. Every decoder of texts meets the faults that stop a reader, in the members that it passes over
too (`Decoder.Thorough`). So a text that is accepted starts with one JSON value, and that value alone says what is
decoded. What follows it is not looked at: the text is one JSON value exactly if nothing but blanks follows
(`Decoder.Target.starts_with_json`).
-/
namespace FlatStore

/-- Whether a text is one JSON value with nothing but blanks around it. In its strings there may be any bytes. -/
def IsJson (text : List UInt8) : Prop := ∃ tokens draft, Token.Lexes text tokens ∧ Draft.Derives tokens (.value draft)

namespace Draft

variable {draft : Draft} {members : List (DraftName × Draft)}

/-- Members are passed over if their names are read and their values are passed over. -/
theorem skipMembers_of_named (each : ∀ member ∈ members, (∃ s, member.1 = .ok s) ∧ member.2.skipFault = none) :
    skipMembers members = none := by
  refine skipMembers_eq_none_iff.2 fun member mem => ?_
  obtain ⟨⟨s, named⟩, clean⟩ := each member mem
  rw [named]
  exact ⟨rfl, clean⟩

theorem skipFault_array_cons_iff {item : Draft} {rest : List Draft} {closing : Option Fault} :
    (array (item :: rest) closing).skipFault = none ↔ item.skipFault = none ∧ (array rest closing).skipFault = none := by
  simp only [skipFault, skipItems, Option.or_eq_none_iff, and_assoc]

theorem skipFault_object_cons_iff {name : String} {value : Draft} {rest : List (DraftName × Draft)}
    {closing : Option Fault} : (object ((.ok name, value) :: rest) closing).skipFault = none ↔
      value.skipFault = none ∧ (object rest closing).skipFault = none := by
  simp only [skipFault, skipMembers, Option.or_eq_none_iff, and_assoc]

/-- What is read can be passed over. -/
theorem skipFault_of_read {value : Json} (read : draft.read = .ok value) : draft.skipFault = none := by
  induction draft using partInduction generalizing value with
  | flawed flaw => cases read
  | null | bool | whole | float | string => rfl
  | array items closing ih =>
    obtain ⟨rfl, values, each, -⟩ := read_array_eq_ok_iff.1 read
    have clean : skipItems items = none := skipItems_eq_none_iff.2 fun item mem => by
      obtain ⟨value, -, read⟩ := exists_of_forall₂ each mem
      exact ih item mem read
    rw [skipFault, clean]
    rfl
  | object members closing ih =>
    obtain ⟨rfl, values, each, -⟩ := read_object_eq_ok_iff.1 read
    have clean : skipMembers members = none := skipMembers_of_named fun member mem => by
      obtain ⟨value, -, named, read⟩ := exists_of_forall₂ each mem
      exact ⟨⟨_, named⟩, ih member mem read⟩
    rw [skipFault, clean]
    rfl

end Draft

/-! ### Decoders of values -/

namespace Decoder

variable {α β : Type} {decode : Decoder α} {form : Form} {draft : Draft} {a : α}

theorem faults_eq_ok_iff {read : Except Fault α} : faults read = .ok a ↔ read = .ok a := mapError_eq_ok_iff

theorem faults_close_iff {closing : Option Fault} : faults (Draft.close closing) = .ok () ↔ closing = none :=
  faults_eq_ok_iff.trans Draft.close_eq_ok_iff

theorem faults_readName_iff {given : DraftName} {name : String} :
    faults (Draft.readName given) = .ok name ↔ given = .ok name := faults_eq_ok_iff.trans Draft.readName_eq_ok_iff

/-- Whether a decoder meets every fault that stops a reader. -/
structure Thorough (decode : Decoder α) : Prop where
  meets : ∀ {form : Form} {draft : Draft} {a : α}, decode form draft = .ok a → draft.skipFault = none

/-- A decoder that takes neither containers nor flawed values is thorough. -/
theorem thorough_of_leaves (array : ∀ form items closing a, decode form (.array items closing) ≠ .ok a)
    (object : ∀ form members closing a, decode form (.object members closing) ≠ .ok a)
    (flawed : ∀ form flaw a, decode form (.flawed flaw) ≠ .ok a) : decode.Thorough := by
  refine ⟨fun {form draft a} read => ?_⟩
  cases draft with
  | array items closing => exact array _ _ _ _ read |>.elim
  | object members closing => exact object _ _ _ _ read |>.elim
  | flawed flaw => exact flawed _ _ _ read |>.elim
  | null | bool | whole | float | string => rfl

theorem thorough_string : string.Thorough := thorough_of_leaves nofun nofun nofun

theorem thorough_int : int.Thorough := thorough_of_leaves nofun nofun nofun

theorem thorough_float : float.Thorough := thorough_of_leaves nofun nofun nofun

theorem thorough_json : json.Thorough := ⟨fun read => Draft.skipFault_of_read (faults_eq_ok_iff.1 read)⟩

theorem Thorough.map (thorough : decode.Thorough) (f : α → β) : (decode.map f).Thorough := by
  refine ⟨fun {form draft b} read => ?_⟩
  obtain ⟨a, read, -⟩ := map_eq_ok_iff.1 read
  exact thorough.meets read

theorem Thorough.optional (thorough : decode.Thorough) : decode.optional.Thorough := by
  refine ⟨fun {form draft found} read => ?_⟩
  cases draft with
  | null => rfl
  | bool | whole | float | string | flawed | array | object =>
    obtain ⟨a, read, -⟩ := map_eq_ok_iff.1 read
    exact thorough.meets read

theorem Thorough.part (thorough : decode.Thorough) {step : Step} (read : part form step decode draft = .ok a) :
    draft.skipFault = none := thorough.meets (mapError_eq_ok_iff.1 read)

theorem Thorough.items (thorough : decode.Thorough) {i : Nat} {drafts : List Draft} {found : List α}
    (read : items decode form i drafts = .ok found) : ∀ draft ∈ drafts, draft.skipFault = none := by
  induction drafts generalizing i found with
  | nil => simp
  | cons draft rest ih =>
    obtain ⟨first, here, read⟩ := bind_eq_ok_iff.1 read
    obtain ⟨others, later, -⟩ := bind_eq_ok_iff.1 read
    exact List.forall_mem_cons.2 ⟨thorough.part here, ih later⟩

theorem Thorough.list (thorough : decode.Thorough) : (list decode).Thorough := by
  refine ⟨fun {form draft found} read => ?_⟩
  cases draft with
  | array drafts closing =>
    obtain ⟨items, each, rest⟩ := bind_eq_ok_iff.1 read
    obtain ⟨closed, -⟩ := then_eq_ok_iff.1 rest
    obtain rfl := faults_close_iff.1 closed
    rw [Draft.skipFault, Draft.skipItems_eq_none_iff.2 (thorough.items each)]
    rfl
  | null | bool | whole | float | string | flawed | object => cases read

theorem Thorough.members (thorough : decode.Thorough) {drafts : List (DraftName × Draft)} {found : List (String × α)}
    (read : members decode form drafts = .ok found) :
    ∀ member ∈ drafts, (∃ s, member.1 = .ok s) ∧ member.2.skipFault = none := by
  induction drafts generalizing found with
  | nil => simp
  | cons member rest ih =>
    obtain ⟨name, named, read⟩ := bind_eq_ok_iff.1 read
    obtain ⟨first, here, read⟩ := bind_eq_ok_iff.1 read
    obtain ⟨others, later, -⟩ := bind_eq_ok_iff.1 read
    exact List.forall_mem_cons.2
      ⟨⟨⟨name, faults_readName_iff.1 named⟩, thorough.part here⟩, ih later⟩

theorem Thorough.dictionary (thorough : decode.Thorough) : (dictionary decode).Thorough := by
  refine ⟨fun {form draft found} read => ?_⟩
  cases draft with
  | object drafts closing =>
    obtain ⟨members, each, rest⟩ := bind_eq_ok_iff.1 read
    obtain ⟨closed, -⟩ := then_eq_ok_iff.1 rest
    obtain rfl := faults_close_iff.1 closed
    rw [Draft.skipFault, Draft.skipMembers_of_named (thorough.members each)]
    rfl
  | null | bool | whole | float | string | flawed | array => cases read

end Decoder

/-! ### Records -/

namespace Members

variable {α β : Type} {m : Members α} {n : Members β} {decode : Decoder α} {form : Form}

/-- Whether the readers of all members are thorough. -/
structure Thorough (m : Members α) : Prop where
  readers : ∀ {name : String} {slots : m.Slots} {decode : Decoder m.Slots},
    m.take name slots = some (.ok decode) → decode.Thorough

theorem thorough_one (thorough : decode.Thorough) (name : String) (absent : Option α) :
    (one name decode absent).Thorough := by
  refine ⟨fun {given slot reader} taken => ?_⟩
  simp only [one] at taken
  split at taken
  · split at taken
    · cases taken
    · cases taken
      exact thorough.map some
  · cases taken

theorem thorough_required (thorough : decode.Thorough) (name : String) : (required name decode).Thorough :=
  thorough_one thorough name .none

theorem thorough_optional (thorough : decode.Thorough) (name : String) : (optional name decode).Thorough :=
  thorough_one thorough.optional name (some .none)

theorem Thorough.and (first : m.Thorough) (second : n.Thorough) : (m.and n).Thorough := by
  refine ⟨fun {name slots reader} taken => ?_⟩
  simp only [Members.and] at taken
  split at taken
  · next decode own =>
    cases taken
    exact (first.readers own).map _
  · cases taken
  · split at taken
    · next decode own =>
      cases taken
      exact (second.readers own).map _
    · cases taken
    · cases taken

theorem Thorough.map (thorough : m.Thorough) (f : α → β) : (m.map f).Thorough := ⟨thorough.readers⟩

theorem Thorough.feed (thorough : m.Thorough) {step : Step} {name : String} {slots next : m.Slots} {value : Draft}
    (fed : m.feed form step name slots value = some (.ok next)) : value.skipFault = .none := by
  unfold Members.feed at fed
  split at fed
  · next decode taken => exact (thorough.readers taken).part (Option.some.inj fed)
  · cases fed
  · cases fed

theorem Thorough.readObject (thorough : m.Thorough) {closing : Option Fault} {slots last : m.Slots}
    {members : List (DraftName × Draft)} (read : m.readObject form closing slots members = .ok last) :
    (Draft.object members closing).skipFault = .none := by
  induction members generalizing slots with
  | nil =>
    obtain ⟨closed, -⟩ := then_eq_ok_iff.1 read
    exact Decoder.faults_close_iff.1 closed
  | cons member rest ih =>
    obtain ⟨given, value⟩ := member
    obtain ⟨name, named, later⟩ := bind_eq_ok_iff.1 read
    obtain rfl := Decoder.faults_readName_iff.1 named
    rw [Draft.skipFault_object_cons_iff]
    split at later
    · next fed =>
      obtain ⟨next, rfl, read⟩ := bind_eq_ok_iff.1 later
      exact ⟨thorough.feed fed, ih read⟩
    · obtain ⟨passed, read⟩ := then_eq_ok_iff.1 later
      exact ⟨Decoder.faults_close_iff.1 passed, ih read⟩

theorem Thorough.readArray (thorough : m.Thorough) {closing : Option Fault} {i : Nat} {names : List String}
    (known : ∀ name ∈ names, name ∈ m.names) {slots last : m.Slots} {items : List Draft}
    (read : m.readArray form closing i names slots items = .ok last) : (Draft.array items closing).skipFault = .none := by
  induction items generalizing i names slots with
  | nil =>
    have closed : Decoder.faults (Draft.close closing) = .ok () := by
      cases names <;> exact (then_eq_ok_iff.1 read).1
    exact Decoder.faults_close_iff.1 closed
  | cons item rest ih =>
    cases names with
    | nil => cases read
    | cons name names =>
      obtain ⟨here, others⟩ := List.forall_mem_cons.1 known
      rw [Members.readArray] at read
      split at read
      · next fed =>
        obtain ⟨next, rfl, read⟩ := bind_eq_ok_iff.1 read
        exact Draft.skipFault_array_cons_iff.2 ⟨thorough.feed fed, ih others read⟩
      · next passed => exact absurd here (feed_eq_none_iff.1 passed)

theorem Thorough.decoder (thorough : m.Thorough) (title : String) : (m.decoder title).Thorough := by
  refine ⟨fun {form draft a} read => ?_⟩
  cases draft with
  | object members closing =>
    obtain ⟨slots, read, -⟩ := bind_eq_ok_iff.1 read
    exact thorough.readObject read
  | array items closing =>
    obtain ⟨slots, read, -⟩ := bind_eq_ok_iff.1 read
    exact thorough.readArray (fun _ mem => mem) read
  | null | bool | whole | float | string | flawed => cases read

theorem Thorough.readOpen (thorough : m.Thorough) {closing : Option Fault} {slots : m.Slots}
    {members : List (DraftName × Draft)} {last : m.Slots × List (SetAside m.names)}
    (read : m.readOpen form closing slots members = .ok last) : (Draft.object members closing).skipFault = .none := by
  induction members generalizing slots last with
  | nil =>
    obtain ⟨closed, -⟩ := then_eq_ok_iff.1 read
    exact Decoder.faults_close_iff.1 closed
  | cons member rest ih =>
    obtain ⟨given, value⟩ := member
    obtain ⟨name, named, later⟩ := bind_eq_ok_iff.1 read
    obtain rfl := Decoder.faults_readName_iff.1 named
    rw [Draft.skipFault_object_cons_iff]
    split at later
    · next fed =>
      obtain ⟨next, rfl, read⟩ := bind_eq_ok_iff.1 later
      exact ⟨thorough.feed fed, ih read⟩
    · obtain ⟨json, whole, others⟩ := bind_eq_ok_iff.1 later
      obtain ⟨last, read, -⟩ := bind_eq_ok_iff.1 others
      exact ⟨Draft.skipFault_of_read (Decoder.faults_eq_ok_iff.1 whole), ih read⟩

/-- Of the members that are set aside all have been read. -/
theorem Thorough.openDecoder (thorough : m.Thorough) (title : String) (embedded : Members β) :
    (m.openDecoder title embedded).Thorough := by
  refine ⟨fun {form draft a} read => ?_⟩
  cases draft with
  | object members closing =>
    obtain ⟨slots, read, -⟩ := bind_eq_ok_iff.1 read
    exact thorough.readOpen read
  | null | bool | whole | float | string | flawed | array => cases read

end Members

/-! ### Tagged values and stores -/

namespace Tagged

variable {α : Type} {t : Tagged α} {form : Form}

/-- A tag that selects an alternative is a string or a number. -/
theorem read_of_select {draft : Draft} {decode : Decoder α} (selected : t.select form draft = .ok decode) :
    ∃ value, draft.read = .ok value := by
  cases draft with
  | string s => exact ⟨_, rfl⟩
  | whole n => exact ⟨_, rfl⟩
  | null | bool | float | flawed | array | object => cases selected

theorem read_of_readMembers {closing : Option Fault} {before : Option (Decoder α)} {members : List (DraftName × Draft)}
    {last : Option (Decoder α) × List (DraftName × Draft)} (read : t.readMembers form closing before members = .ok last) :
    closing = none ∧ ∃ values, Draft.readMembers members = .ok values := by
  simp only [Draft.readMembers_eq_ok_iff]
  induction members generalizing before last with
  | nil =>
    obtain ⟨closed, -⟩ := then_eq_ok_iff.1 read
    exact ⟨Decoder.faults_close_iff.1 closed, [], .nil⟩
  | cons member rest ih =>
    obtain ⟨given, value⟩ := member
    obtain ⟨name, named, later⟩ := bind_eq_ok_iff.1 read
    obtain rfl := Decoder.faults_readName_iff.1 named
    have both : (∃ json, value.read = .ok json) ∧ ∃ before last, t.readMembers form closing before rest = .ok last := by
      split at later
      · dsimp only at later
        split at later
        · cases later
        · obtain ⟨decode, selected, read⟩ := bind_eq_ok_iff.1 later
          exact ⟨read_of_select (mapError_eq_ok_iff.1 selected), _, _, read⟩
      · obtain ⟨json, whole, others⟩ := bind_eq_ok_iff.1 later
        obtain ⟨last, read, -⟩ := bind_eq_ok_iff.1 others
        exact ⟨⟨json, Decoder.faults_eq_ok_iff.1 whole⟩, _, _, read⟩
    obtain ⟨⟨json, here⟩, _, _, later⟩ := both
    obtain ⟨closed, values, each⟩ := ih later
    exact ⟨closed, (name, json) :: values, .cons ⟨rfl, here⟩ each⟩

/-- A tagged value is read as a whole before its alternative is. -/
theorem read_of_decoder {draft : Draft} {a : α} (read : t.decoder form draft = .ok a) : ∃ value, draft.read = .ok value := by
  cases draft with
  | object members closing =>
    obtain ⟨last, read, -⟩ := bind_eq_ok_iff.1 read
    obtain ⟨rfl, values, each⟩ := read_of_readMembers read
    exact ⟨_, Draft.read_object_eq_ok_iff.2 ⟨rfl, values, Draft.readMembers_eq_ok_iff.1 each, rfl⟩⟩
  | array items closing =>
    cases items with
    | nil =>
      obtain ⟨-, thrown⟩ := then_eq_ok_iff.1 read
      cases thrown
    | cons first rest =>
      obtain ⟨decode, selected, read⟩ := bind_eq_ok_iff.1 read
      obtain ⟨whole, others, -⟩ := bind_eq_ok_iff.1 read
      obtain ⟨tag, here⟩ := read_of_select (mapError_eq_ok_iff.1 selected)
      obtain ⟨rfl, values, each, -⟩ := Draft.read_array_eq_ok_iff.1 (Decoder.faults_eq_ok_iff.1 others)
      exact ⟨_, Draft.read_array_eq_ok_iff.2 ⟨rfl, tag :: values, .cons here each, rfl⟩⟩
  | null | bool | whole | float | string | flawed => cases read

theorem thorough_decoder (t : Tagged α) : t.decoder.Thorough := by
  refine ⟨fun {form draft a} read => ?_⟩
  obtain ⟨value, read⟩ := read_of_decoder read
  exact Draft.skipFault_of_read read

end Tagged

theorem Store.thorough_decoder : Store.decoder.Thorough := by
  refine ⟨fun {form draft store} read => ?_⟩
  cases draft with
  | object members closing =>
    obtain ⟨given, whole, rest⟩ := bind_eq_ok_iff.1 read
    obtain ⟨closed, -⟩ := then_eq_ok_iff.1 rest
    obtain rfl := Decoder.faults_close_iff.1 closed
    have each := Draft.readMembers_eq_ok_iff.1 (Decoder.faults_eq_ok_iff.1 whole)
    exact Draft.skipFault_of_read (Draft.read_object_eq_ok_iff.2 ⟨rfl, given, each, rfl⟩)
  | null | bool | whole | float | string | flawed | array => cases read

theorem Schema.thorough_decoder : Schema.decoder.Thorough := ⟨fun read => (Tagged.thorough_decoder _).meets read⟩

/-! ### Record types -/

open Decoder in
theorem Condition.thorough_decoder : Condition.decoder.Thorough :=
  (((Members.thorough_required thorough_string _).and (Members.thorough_required thorough_string _)).map _).decoder _

theorem ConditionEntry.thorough_decoder : ConditionEntry.decoder.Thorough :=
  ((Members.thorough_required Condition.thorough_decoder _).map _).decoder _

open Decoder in
theorem Meta.thorough_members : Meta.members.Thorough :=
  ((Members.thorough_required thorough_string _).and (Members.thorough_optional thorough_int _)).map _

open Decoder in
theorem Click.thorough_decoder : Click.decoder.Thorough :=
  (((Members.thorough_required thorough_int _).and (Members.thorough_required thorough_int _)).map _).decoder _

theorem Tap.thorough_decoder : Tap.decoder.Thorough :=
  ((Members.thorough_required Decoder.thorough_int _).map _).decoder _

open Decoder in
theorem Rule.thorough_decoder : Rule.decoder.Thorough :=
  have members : Rule.members.Thorough :=
    (Members.thorough_required thorough_string _).and <|
      (Members.thorough_required ConditionEntry.thorough_decoder.list _).and <|
      (Members.thorough_optional thorough_string.list _).and <|
      (Members.thorough_required (thorough_string.dictionary.map _) _).and <|
      (Members.thorough_required (thorough_string.list.map _) _).and <|
      (Members.thorough_optional (Tagged.thorough_decoder _) _).and (Members.thorough_required thorough_float _)
  (members.openDecoder _ _).map _

open Decoder in
theorem Project.thorough_decoder : Project.decoder.Thorough :=
  have known : Project.known.Thorough :=
    (Members.thorough_optional thorough_string _).and <| (Members.thorough_required thorough_string _).and
      (Members.thorough_required thorough_string.list _)
  (known.openDecoder _ _).map _

theorem Loose.thorough_decoder : Loose.decoder.Thorough :=
  ((Members.thorough_required Decoder.thorough_json _).map _).decoder _

theorem Node.thorough_decoder : Node.decoder.Thorough := by
  have within : ∀ bound, (Node.decoderWithin bound).Thorough := by
    intro bound
    induction bound with
    | zero => exact ⟨nofun⟩
    | succ bound ih => exact ((Members.thorough_optional ih _).map _).decoder _
  exact ⟨fun read => (within _).meets read⟩

/-! ### Texts -/

namespace Decoder

/-- What texts are decoded into. -/
inductive Target : {α : Type} → Decoder α → Prop
  | schema : Target Schema.decoder
  | store : Target Store.decoder
  | json : Target Decoder.json
  | condition : Target Condition.decoder
  | conditionEntry : Target ConditionEntry.decoder
  | info : Target Meta.decoder
  | click : Target Click.decoder
  | tap : Target Tap.decoder
  | event : Target Event.decoder
  | rule : Target Rule.decoder
  | project : Target Project.decoder
  | loose : Target Loose.decoder
  | node : Target Node.decoder
  | strings : Target (Decoder.list .string)
  | number : Target (Decoder.optional .int)
  | floats : Target (Decoder.sortedDictionary .float)

variable {α : Type} {decode : Decoder α} {text : List UInt8} {a : α}

theorem Target.thorough (target : Target decode) : decode.Thorough := by
  cases target with
  | schema => exact Schema.thorough_decoder
  | store => exact Store.thorough_decoder
  | json => exact thorough_json
  | condition => exact Condition.thorough_decoder
  | conditionEntry => exact ConditionEntry.thorough_decoder
  | info => exact Meta.thorough_members.decoder _
  | click => exact Click.thorough_decoder
  | tap => exact Tap.thorough_decoder
  | event => exact Tagged.thorough_decoder _
  | rule => exact Rule.thorough_decoder
  | project => exact Project.thorough_decoder
  | loose => exact Loose.thorough_decoder
  | node => exact Node.thorough_decoder
  | strings => exact thorough_string.list
  | number => exact thorough_int.optional
  | floats => exact thorough_float.dictionary.map _

end Decoder

/-- In front of blanks a JSON text is one still. -/
theorem IsJson.append_blank {value after : List UInt8} (is : IsJson value) (blank : Token.Blank after) :
    IsJson (value ++ after) := by
  obtain ⟨tokens, draft, lexes, derives⟩ := is
  exact ⟨tokens, draft, by simpa using lexes.append (.nil blank), derives⟩

/-- A JSON text is read to its end. -/
theorem IsJson.build_eq {text : List UInt8} (is : IsJson text) : (Draft.build [] .value (Token.all text)).2 = [] := by
  obtain ⟨tokens, draft, lexes, derives⟩ := is
  rw [Draft.build_whole lexes derives]

/-- A text that is accepted starts with one JSON value, which alone says what is decoded. The whole text is a JSON text
exactly if nothing but blanks follows that value. -/
theorem Decoder.Target.starts_with_json {α : Type} {decode : Decoder α} {text : List UInt8} {a : α}
    (target : Target decode) (read : decode.ofText text = .ok a) :
    ∃ value after, text = value ++ after ∧ IsJson value ∧
      (∀ other, Token.Apart value other → decode.ofText (value ++ other) = .ok a) ∧
      (IsJson text ↔ Token.Blank after) := by
  obtain ⟨value, after, tokens, draft, rfl, lexes, derives, found⟩ := Draft.lexes_of_build (target.thorough.meets read)
  have is : IsJson value := ⟨tokens, draft, lexes, derives⟩
  refine ⟨value, after, rfl, is, fun other apart => ?_, fun whole => ?_, is.append_blank⟩
  · rw [← read, ofText, ofText, Draft.ofBytes, Draft.ofBytes, Draft.build_lexes lexes derives apart, found]
  · have ended := whole.build_eq
    rw [found] at ended
    exact Token.all_eq_nil_iff.1 ended

/-- A schema with something else behind it. -/
def Schema.textAndMore : List UInt8 := "\x7b\"kind\":\"scalar\",\"scalar\":\"string\"\x7d x".toUTF8.toList

/-- The schema in it is decoded all the same. -/
theorem Schema.ofText_textAndMore : Schema.decoder.ofText textAndMore = .ok (.scalar .string) := by decide +kernel

theorem Decoder.Target.starts_with_json_textAndMore :
    Schema.decoder.ofText Schema.textAndMore = .ok (.scalar .string) ∧
      ∃ value after, Schema.textAndMore = value ++ after ∧ IsJson value ∧
        (∀ other, Token.Apart value other → Schema.decoder.ofText (value ++ other) = .ok (.scalar .string)) ∧
        (IsJson Schema.textAndMore ↔ Token.Blank after) :=
  ⟨Schema.ofText_textAndMore, Decoder.Target.schema.starts_with_json Schema.ofText_textAndMore⟩

/-- Not every text that is accepted is a JSON text. -/
theorem Decoder.Target.accepts_more_than_json :
    Schema.decoder.ofText Schema.textAndMore = .ok (.scalar .string) ∧ ¬ IsJson Schema.textAndMore := by
  refine ⟨Schema.ofText_textAndMore, fun is => ?_⟩
  have left : (Draft.build [] .value (Token.all Schema.textAndMore)).2.length = 1 := by decide +kernel
  rw [is.build_eq] at left
  cases left

end FlatStore
