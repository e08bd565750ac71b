import FlatStore.Decode.Basic
import FlatStore.Json.Members

/-!
Records: objects whose members have known names. The members may stand in any order and others may stand among them.
A record is also read from an array of its members in the order of their declaration.

A reader of records is put together from readers of single members. It is fed one member after another and keeps what
it has got so far in its slots.
-/
namespace FlatStore

structure Members (α : Type) where
  names : List String
  Slots : Type
  empty : Slots
  /-- The reader of a member of the given name, or none if the record has no such member. -/
  take : String → Slots → Option (Except Cause (Decoder Slots))
  /-- The record, or the name of the first member that is missing. -/
  finish : Slots → Except String α
  take_eq_none_iff : ∀ {name slots}, take name slots = none ↔ name ∉ names

/-- Members with none of the names that are claimed by others, each name once, in the order in which they came. -/
structure Unclaimed (claimed : List String) where
  members : List (String × Json)
  distinct : (members.map Prod.fst).Nodup
  apart : ∀ name ∈ members.map Prod.fst, name ∉ claimed

namespace Members

variable {α β : Type}

/-- One member. It is required unless it has a value to take where it is absent. -/
def one (name : String) (decode : Decoder α) (absent : Option α) : Members α where
  names := [name]
  Slots := Option α
  empty := none
  take given slot :=
    if given = name then
      some (if slot.isSome then .error (.repeatedMember name) else .ok (decode.map some))
    else none
  finish slot :=
    match slot.or absent with
    | some value => .ok value
    | none => .error name
  take_eq_none_iff := by simp

def required (name : String) (decode : Decoder α) : Members α := one name decode none

def withDefault (name : String) (decode : Decoder α) (absent : α) : Members α := one name decode (some absent)

def optional (name : String) (decode : Decoder α) : Members (Option α) := one name decode.optional (some none)

def none : Members Unit where
  names := []
  Slots := Unit
  empty := ()
  take _ _ := .none
  finish _ := .ok ()
  take_eq_none_iff := by simp

def and (first : Members α) (second : Members β) : Members (α × β) where
  names := first.names ++ second.names
  Slots := first.Slots × second.Slots
  empty := (first.empty, second.empty)
  take name slots :=
    match first.take name slots.1 with
    | some (.ok decode) => some (.ok (decode.map fun taken => (taken, slots.2)))
    | some (.error cause) => some (.error cause)
    | .none =>
      match second.take name slots.2 with
      | some (.ok decode) => some (.ok (decode.map fun taken => (slots.1, taken)))
      | some (.error cause) => some (.error cause)
      | .none => .none
  finish slots := do
    let a ← first.finish slots.1
    let b ← second.finish slots.2
    return (a, b)
  take_eq_none_iff := by
    intro name slots
    have own : first.take name slots.1 = .none ↔ name ∉ first.names := first.take_eq_none_iff
    have other : second.take name slots.2 = .none ↔ name ∉ second.names := second.take_eq_none_iff
    rw [List.mem_append, not_or, ← own, ← other]
    cases first.take name slots.1 with
    | some read => cases read <;> simp
    | none =>
      cases second.take name slots.2 with
      | some read => cases read <;> simp
      | none => simp

protected def map (f : α → β) (m : Members α) : Members β :=
  { m with finish := fun slots => (m.finish slots).map f }

/-- Reads a member into the slots if the record has one of its name. The step is how the member was found. -/
def feed (m : Members α) (form : Form) (step : Step) (name : String) (slots : m.Slots) (value : Draft) :
    Option (Except Problem m.Slots) :=
  match m.take name slots with
  | some (.ok decode) => some (Decoder.part form step decode value)
  | some (.error cause) => some (.error (.content [] cause))
  | .none => .none

def readObject (m : Members α) (form : Form) (closing : Option Fault) :
    m.Slots → List (DraftName × Draft) → Except Problem m.Slots
  | slots, [] => do
    Decoder.faults (Draft.close closing)
    return slots
  | slots, (name, value) :: rest => do
    let name ← Decoder.faults (Draft.readName name)
    match m.feed form (.member name) name slots value with
    | some read =>
      let slots ← read
      m.readObject form closing slots rest
    | .none =>
      Decoder.faults (Draft.close value.skipFault)
      m.readObject form closing slots rest

def tooLong (form : Form) (known given : Nat) : Problem :=
  match form with
  | .text => .fault .malformed
  | .value => .content [] (.wrongLength given "fewer elements in array")
  | .buffered =>
    .content [] (.wrongLength given
      (if known = 1 then "1 element in sequence" else toString known ++ " elements in sequence"))

def readArray (m : Members α) (form : Form) (closing : Option Fault) :
    (i : Nat) → List String → m.Slots → List Draft → Except Problem m.Slots
  | i, name :: names, slots, item :: rest =>
    match m.feed form (.item i) name slots item with
    | some read => do
      let slots ← read
      m.readArray form closing (i + 1) names slots rest
    | .none => m.readArray form closing (i + 1) names slots rest
  | i, [], _, item :: rest => .error (tooLong form i (i + (item :: rest).length))
  | _, _, slots, [] => do
    Decoder.faults (Draft.close closing)
    return slots

def lengthText (title : String) (names : List String) : String :=
  title ++ " with " ++ (if names.length = 1 then "1 element" else toString names.length ++ " elements")

def decoder (title : String) (m : Members α) : Decoder α
  | form, .object members closing => do
    let slots ← m.readObject form closing m.empty members
    (m.finish slots).mapError fun name => .content [] (.missingMember name)
  | form, .array items closing => do
    let slots ← m.readArray form closing 0 m.names m.empty items
    (m.finish slots).mapError fun name =>
      .content [] (.wrongLength (m.names.idxOf name) (lengthText title m.names))
  | _, draft => Decoder.refuse title draft

/-! ### Records that keep other members -/

/-- A member that is set aside, since none of the claimed names is its own. -/
structure SetAside (claimed : List String) where
  name : String
  draft : Draft
  json : Json
  other : name ∉ claimed

theorem feed_eq_none_iff {m : Members α} {form : Form} {step : Step} {name : String} {slots : m.Slots} {value : Draft} :
    m.feed form step name slots value = .none ↔ name ∉ m.names := by
  have known : m.take name slots = .none ↔ name ∉ m.names := m.take_eq_none_iff
  rw [← known, feed]
  cases m.take name slots with
  | none => simp
  | some read => cases read <;> simp

def readOpen (m : Members α) (form : Form) (closing : Option Fault) :
    m.Slots → List (DraftName × Draft) → Except Problem (m.Slots × List (SetAside m.names))
  | slots, [] => do
    Decoder.faults (Draft.close closing)
    return (slots, [])
  | slots, (name, value) :: rest => do
    let name ← Decoder.faults (Draft.readName name)
    match passed : m.feed form (.member name) name slots value with
    | some read =>
      let slots ← read
      m.readOpen form closing slots rest
    | .none =>
      let json ← Decoder.faults value.read
      let (slots, others) ← m.readOpen form closing slots rest
      return (slots, ⟨name, value, json, feed_eq_none_iff.1 passed⟩ :: others)

/-- Reads the members of an embedded record from those that were set aside. -/
def readEmbedded {claimed : List String} (m : Members α) : m.Slots → List (SetAside claimed) → Except Problem m.Slots
  | slots, [] => .ok slots
  | slots, member :: rest =>
    match m.feed .buffered (.member member.name) member.name slots member.draft with
    | some read => do
      let slots ← read
      m.readEmbedded slots rest
    | .none => m.readEmbedded slots rest

/-- What is left of the members that were set aside when others claim some of them. -/
def unclaimed {claimed : List String} (members : List (SetAside claimed)) (more : List String) :
    Unclaimed (claimed ++ more) where
  members := membersOf ((members.filter fun member => !more.contains member.name).map fun member =>
    (member.name, member.json))
  distinct := nodup_membersOf _
  apart := by
    intro name mem
    obtain ⟨member, held, rfl⟩ : ∃ member ∈ members.filter fun member => !more.contains member.name,
        member.name = name := by simpa [Function.comp_def] using mem_names_membersOf_iff.1 mem
    exact List.not_mem_append member.other (by simpa using (List.mem_filter.1 held).2)

/-- A record with members of its own, those of an embedded record, and others that are kept as they are. It cannot be
read from an array. Members of its own are missed first. -/
def openDecoder (title : String) (own : Members α) (embedded : Members β) :
    Decoder (α × β × Unclaimed (own.names ++ embedded.names))
  | form, .object members closing => do
    let (slots, others) ← own.readOpen form closing own.empty members
    let a ← (own.finish slots).mapError fun name => .content [] (.missingMember name)
    let slots ← embedded.readEmbedded embedded.empty others
    let b ← (embedded.finish slots).mapError fun name => .content [] (.missingMember name)
    return (a, b, unclaimed others embedded.names)
  | _, draft => Decoder.refuse title draft

end Members
end FlatStore
