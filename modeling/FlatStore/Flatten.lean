import FlatStore.Json.Text
import FlatStore.Schema.Basic
import FlatStore.Store

/-!
Flattening: from a document and its schema to the entries of a store. What a document writes is its trace, one write
after another up to the end or to the first thing that does not fit the schema. Lists are written in their order. Maps
are written in the order of their keys and sets in the order of the texts of their elements, so that the order in which
a document gives them is of no account.
-/
namespace FlatStore

inductive FlattenError where
  | typeMismatch (path expected found : String)
  | missingRequired (path : String)
  | tooManyItems (path : String) (count max : Nat)
  | address (fault : AddressFault)
deriving DecidableEq

def FlattenError.message : FlattenError → String
  | .typeMismatch path expected found => "`" ++ path ++ "`: expected " ++ expected ++ ", found " ++ found
  | .missingRequired path => "`" ++ path ++ "`: required value is missing"
  | .tooManyItems path count max =>
    "`" ++ path ++ "`: " ++ toString count ++ " elements exceed the maximum of " ++ toString max
  | .address fault => fault.message

/-- Where a scalar is written: at an address, or as the count of the collection there. -/
inductive Slot where
  | leaf (a : Address)
  | count (a : Address)
deriving DecidableEq

def Slot.key : Slot → String
  | .leaf a => a.text
  | .count a => a.countKey

/-- What a document writes, and why it writes no more if it does not fit. -/
structure Trace where
  writes : List (Slot × Scalar)
  failure : Option FlattenError

namespace Trace

def empty : Trace := ⟨[], none⟩

def leaf (a : Address) (value : Scalar) : Trace := ⟨[(.leaf a, value)], none⟩

def count (a : Address) (n : Nat) : Trace := ⟨[(.count a, .int (.ofNat n))], none⟩

def fail (error : FlattenError) : Trace := ⟨[], some error⟩

/-- What is written after a trace. Nothing follows a failure. -/
def andThen (first second : Trace) : Trace :=
  match first.failure with
  | some _ => first
  | none => ⟨first.writes ++ second.writes, second.failure⟩

instance : Append Trace := ⟨andThen⟩

def at? (a : Except AddressFault Address) (write : Address → Trace) : Trace :=
  match a with
  | .ok a => write a
  | .error fault => fail (.address fault)

/-- The trace of parts at the indices from `i` on. -/
def indexed {α : Type} (write : Nat → α → Trace) (i : Nat) : List α → Trace
  | [] => empty
  | part :: rest => write i part ++ indexed write (i + 1) rest

def entries (trace : Trace) : List (String × Scalar) := trace.writes.map fun (slot, value) => (slot.key, value)

/-- Opens the block of a value. A block that is not the value itself is a collection of one. -/
def openBlock (a : Address) (sliced : Bool) : Trace := if sliced || a.isRoot then empty else count a 1

end Trace

def mapKeyName : FieldName := ⟨mapKeyField, by decide⟩
def mapValueName : FieldName := ⟨mapValueField, by decide⟩

namespace Schema

def mismatch (a : Address) (expected : String) (found : Json) : Trace :=
  .fail (.typeMismatch a.text expected found.typeName)

def setOrder (items : List Json) : List Json :=
  ((items.map fun item => (item.render, item)).mergeSort fun a b => decide (a.1 ≤ b.1)).map Prod.snd

def mapOrder (members : List (String × Json)) : List (String × Json) :=
  members.mergeSort fun a b => decide (a.1 ≤ b.1)

def tagOf (discriminator : Discriminator) (members : List (String × Json)) : Option String :=
  match members.lookup discriminator.wireName with
  | some (.string tag) => some tag
  | _ => none

/-- The segment that the variant of a document uses in place of the name of its field. -/
def segmentOf (schema : Schema) (value : Json) : Option String :=
  match schema, value with
  | .union choice, .object members =>
    (tagOf choice.discriminator members).bind choice.variant? |>.bind (·.segment)
  | _, _ => none

def traceItems (element : Json → Address → Trace) (maxItems : Option UInt64) (wrapper : Option String) (a : Address)
    (items : List Json) : Trace :=
  match maxItems with
  | some max =>
    if max.toNat < items.length then .fail (.tooManyItems a.text items.length max.toNat) else write
  | none => write
where
  write : Trace := .count a items.length ++ .indexed unwrap 0 items
  unwrap (i : Nat) (item : Json) : Trace :=
    match wrapper, item with
    | none, item => element item (a.index i)
    | some name, .object members => element ((members.lookup name).getD .null) (a.index i)
    | some name, item => mismatch (a.index i) ("object with `" ++ name ++ "`") item

/-- The entries of a map, their keys and then their values by a trace of their own. -/
def traceEntries (element : Json → Address → Trace) (a : Address) (members : List (String × Json)) : Trace :=
  .count a members.length ++ .indexed (fun i (key, value) =>
    .leaf ((a.index i).field mapKeyName) (.string key) ++ element value (a.index i)) 0 (mapOrder members)

mutual
/-- What a document writes at an address. The fields of an element, which is sliced out of its collection, stand
directly below it. Null writes nothing. -/
def trace (omitComputed : Bool) : Schema → Json → Address → (sliced : Bool) → Trace
  | _, .null, _, _ => .empty
  | .scalar kind, value, a, _ =>
    match Scalar.ofJsonAs? kind value with
    | some leaf => .leaf a leaf
    | none => mismatch a kind.name value
  | .list ⟨element, _, maxItems, wrapper⟩, .array items, a, _ =>
    traceItems (fun item b => element.trace omitComputed item b true) maxItems wrapper a items
  | .set ⟨element, _, maxItems, wrapper⟩, .array items, a, _ =>
    traceItems (fun item b => element.trace omitComputed item b true) maxItems wrapper a (setOrder items)
  | .list _, value, a, _ | .set _, value, a, _ => mismatch a "array" value
  | .map element, .object members, a, _ =>
    traceEntries (fun value b =>
      if element.isBlock then element.trace omitComputed value b true
      else element.trace omitComputed value (b.field mapValueName) false) a members
  | .object ⟨_, fields⟩, .object members, a, sliced =>
    .openBlock a sliced ++ traceFields omitComputed members (a.block sliced) fields
  | .union ⟨_, discriminator, variants, ⟨_, baseFields⟩⟩, .object members, a, sliced =>
    .openBlock a sliced ++
      ((tagOf discriminator members).bind fun tag =>
        traceVariant omitComputed tag members (a.block sliced) variants).getD
        (traceFields omitComputed members (a.block sliced) baseFields)
  | .map _, value, a, _ | .object _, value, a, _ | .union _, value, a, _ => mismatch a "object" value
def traceFields (omitComputed : Bool) (members : List (String × Json)) (base : Address) :
    List (Field Schema) → Trace
  | [] => .empty
  | ⟨name, wireName, schema, optional, computed, _, _⟩ :: rest =>
    (if computed && omitComputed then .empty
    else .at? (base.append name) fun a =>
      match members.lookup wireName with
      | none | some .null => if optional then .empty else .fail (.missingRequired a.text)
      | some value =>
        match schema.segmentOf value with
        | some segment => .at? (a.replaceLast segment) fun a => schema.trace omitComputed value a false
        | none => schema.trace omitComputed value a false) ++
      traceFields omitComputed members base rest
/-- What the members of a document write in the shape of the variant that its tag selects. -/
def traceVariant (omitComputed : Bool) (tag : String) (members : List (String × Json)) (base : Address) :
    List (Variant Schema) → Option Trace
  | [] => none
  | ⟨_, values, _, ⟨_, fields⟩⟩ :: rest =>
    if values.contains tag then some (traceFields omitComputed members base fields)
    else traceVariant omitComputed tag members base rest
end

theorem traceVariant_eq_find? (omitComputed : Bool) (tag : String) (members : List (String × Json)) (base : Address)
    (variants : List (Variant Schema)) :
    traceVariant omitComputed tag members base variants =
      (variants.find? (·.values.contains tag)).map fun v => traceFields omitComputed members base v.shape.fields := by
  induction variants with
  | nil => simp [traceVariant]
  | cons v rest ih =>
    obtain ⟨name, values, segment, ⟨shapeName, fields⟩⟩ := v
    rw [traceVariant, List.find?_cons, ih]
    cases values.contains tag <;> simp

/-- Writes a document into a store at an address. Where the document does not fit, the writes before the failure
stay. -/
def flattenInto (schema : Schema) (omitComputed : Bool) (value : Json) (a : Address) (sliced : Bool) (s : Store) :
    Option FlattenError × Store :=
  let trace := schema.trace omitComputed value a sliced
  (trace.failure, s.insertAll trace.entries)

def flatten (schema : Schema) (value : Json) (omitComputed : Bool) : Except FlattenError Store :=
  match schema.flattenInto omitComputed value .root false .empty with
  | (none, stored) => .ok stored
  | (some error, _) => .error error

end Schema
end FlatStore
