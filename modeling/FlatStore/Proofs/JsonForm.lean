import FlatStore.Proofs.Decoding
import FlatStore.Store.Decode
import FlatStore.Store.Lemmas
import Mathlib.Data.List.Induction

/-!
Stores in their JSON form. A store of finite floats is read back from its JSON form as it is (`Store.decode_toJson`).
Members are read as a store exactly if the last value that they give for each key is a scalar, and the store then holds
these values, each key at the place where it is first given (`Store.reads_members`).
-/
namespace FlatStore

/-! ### Members given one after another -/

section
variable {α : Type} {given members : List (String × α)} {name : String} {value : α}

/-- The value that is given for a name last. -/
def lastValue (given : List (String × α)) (name : String) : Option α := given.reverse.lookup name

/-- The names in the order in which they are first given. -/
def firstNames (given : List (String × α)) : List String := (given.map Prod.fst).eraseDups

theorem names_membersOf (given : List (String × α)) : (membersOf given).map Prod.fst = firstNames given := by
  -- from the end, where a name is one of those before it or new
  induction given using List.reverseRecOn with
  | nil => rfl
  | append_singleton front member ih =>
    rw [membersOf_append, List.foldl_cons, List.foldl_nil, names_setMember, ih, firstNames, firstNames, List.map_append,
      List.eraseDups_append]
    by_cases present : member.1 ∈ front.map Prod.fst
    · have again : [member.1].removeAll (front.map Prod.fst) = [] := by simp [List.removeAll, present]
      rw [if_pos (List.mem_eraseDups.2 present), List.map_singleton, again]
      simp
    · have new : [member.1].removeAll (front.map Prod.fst) = [member.1] := by simp [List.removeAll, present]
      rw [if_neg fun mem => present (List.mem_eraseDups.1 mem), List.map_singleton, new]
      rfl

theorem lookup_membersOf (given : List (String × α)) (name : String) :
    (membersOf given).lookup name = lastValue given name := by
  induction given using List.reverseRecOn with
  | nil => rfl
  | append_singleton front member ih =>
    rw [lookup_membersOf_append front member.1 member.2, ih, lastValue, lastValue, List.reverse_append,
      List.reverse_singleton, List.singleton_append, List.lookup_cons]
    by_cases same : name = member.1
    · simp [same]
    · simp [same, beq_false_of_ne same]

theorem mem_membersOf_iff : (name, value) ∈ membersOf given ↔ lastValue given name = some value := by
  rw [← lookup_membersOf, lookup_eq_some_iff_mem (nodup_membersOf given)]

end

/-! ### Scalars -/

namespace Json

def IsScalar : Json → Prop
  | .string _ | .bool _ | .whole _ | .float _ => True
  | .null | .array _ | .object _ => False

/-- What becomes of a value that is stored: a whole number beyond 64 bits with a sign is rounded to a float, and all else
stays as it is. -/
inductive Stored : Json → Json → Prop
  | unchanged {value : Json} : (∀ n, value = .whole n → n.val < 2 ^ 63) → Stored value value
  | rounded {n : Whole} {x : Finite64} : 2 ^ 63 ≤ n.val → Binary64.ofInt n.val = .finite x → Stored (.whole n) (.float x)

end Json

namespace Scalar

variable {leaf : Scalar} {value : Json}

theorem ofJson?_some_iff : (∃ leaf, ofJson? value = some leaf) ↔ value.IsScalar := by
  cases value with
  | whole n =>
    refine iff_of_true ?_ trivial
    rw [ofJson?]
    cases n.toInt64? with
    | some m => exact ⟨_, rfl⟩
    | none => exact ⟨_, rfl⟩
  | string | bool | float => exact iff_of_true ⟨_, rfl⟩ trivial
  | null | array | object => exact iff_of_false (fun ⟨_, read⟩ => nomatch read) id

/-- A scalar is read back from its JSON form, unless it is a float that is not finite. -/
theorem ofJson?_toJson (finite : ∀ x, leaf = .float x → ∃ y, x = .finite y) : ofJson? leaf.toJson = some leaf := by
  cases leaf with
  | bool | string => rfl
  | int n => rw [toJson, ofJson?, toInt64?_ofInt64]
  | float x =>
    obtain ⟨y, rfl⟩ := finite x rfl
    rfl

theorem read_toJson (leaf : Scalar) : (Draft.ofJson leaf.toJson).read = .ok leaf.toJson := by
  cases leaf with
  | bool | int | string => rfl
  | float x => cases x <;> rfl

/-- A value that is read as a scalar is written back, or as the float nearest to it. -/
theorem stored_of_ofJson? (read : ofJson? value = some leaf) : value.Stored leaf.toJson := by
  cases value with
  | whole n =>
    -- no whole number of a text lies below those of 64 bits with a sign
    have least := n.least
    rw [ofJson?, Whole.toInt64?] at read
    by_cases small : n.val < 0x8000000000000000
    · rw [if_pos small] at read
      cases read
      have same : (Int64.ofInt n.val).toInt = n.val := Int64.toInt_ofInt_of_le (by omega) (by omega)
      have back : Whole.ofInt64 (.ofInt n.val) = n := by simp only [Whole.ofInt64, same]
      rw [toJson, back]
      refine .unchanged fun m eq => ?_
      cases eq
      omega
    · rw [if_neg small] at read
      cases read
      obtain ⟨x, finite⟩ := Binary64.ofInt_finite n
      rw [finite]
      exact .rounded (by omega) finite
  | string | bool | float =>
    cases read
    refine .unchanged ?_
    rintro n ⟨⟩
  | null | array | object => cases read

end Scalar

namespace Store

/-! ### Reading members -/

variable {members : List (String × Json)} {scalars : List (String × Scalar)} {key : String}

theorem scalarsOf_eq_ok_iff :
    scalarsOf members = .ok scalars ↔
      List.Forall₂ (fun m e => m.1 = e.1 ∧ Scalar.ofJson? m.2 = some e.2) members scalars := by
  induction members generalizing scalars with
  | nil => simp [scalarsOf, eq_comm]
  | cons member rest ih =>
    obtain ⟨name, value⟩ := member
    rw [scalarsOf, List.forall₂_cons_left_iff]
    cases read : Scalar.ofJson? value with
    | none => simp
    | some leaf =>
      change (fun scalars => (name, leaf) :: scalars) <$> scalarsOf rest = .ok scalars ↔ _
      rw [map_eq_ok_iff]
      constructor
      · rintro ⟨others, later, rfl⟩
        exact ⟨_, others, ⟨rfl, rfl⟩, ih.1 later, rfl⟩
      · rintro ⟨⟨name, leaf⟩, others, ⟨rfl, same⟩, later, rfl⟩
        cases same
        exact ⟨others, ih.2 later, rfl⟩

/-- Members are refused for the first one that is no scalar. -/
theorem scalarsOf_eq_error_iff :
    scalarsOf members = .error key ↔ ∃ before value after, members = before ++ (key, value) :: after ∧
      (∀ m ∈ before, m.2.IsScalar) ∧ ¬ value.IsScalar := by
  induction members with
  | nil => simp [scalarsOf]
  | cons member rest ih =>
    obtain ⟨name, value⟩ := member
    rw [scalarsOf]
    cases read : Scalar.ofJson? value with
    | none =>
      have leafless : ¬ value.IsScalar := fun scalar => by
        obtain ⟨leaf, there⟩ := Scalar.ofJson?_some_iff.2 scalar
        rw [read] at there
        cases there
      constructor
      · intro refused
        cases refused
        exact ⟨[], value, rest, rfl, nofun, leafless⟩
      · rintro ⟨before, other, after, split, scalars, -⟩
        cases before with
        | nil =>
          cases split
          rfl
        | cons first more =>
          cases split
          exact absurd (scalars _ List.mem_cons_self) leafless
    | some leaf =>
      have scalar : value.IsScalar := Scalar.ofJson?_some_iff.1 ⟨leaf, read⟩
      change (fun scalars => (name, leaf) :: scalars) <$> scalarsOf rest = .error key ↔ _
      rw [map_eq_error_iff, ih]
      constructor
      · rintro ⟨before, other, after, rfl, scalars, none⟩
        exact ⟨(name, value) :: before, other, after, rfl, List.forall_mem_cons.2 ⟨scalar, scalars⟩, none⟩
      · rintro ⟨before, other, after, split, scalars, none⟩
        cases before with
        | nil =>
          cases split
          exact absurd scalar none
        | cons first more =>
          cases split
          exact ⟨more, other, after, rfl, (List.forall_mem_cons.1 scalars).2, none⟩

theorem scalarsOf_some_iff : (∃ scalars, scalarsOf members = .ok scalars) ↔ ∀ m ∈ members, m.2.IsScalar := by
  constructor
  · rintro ⟨scalars, read⟩
    have each := (scalarsOf_eq_ok_iff.1 read).imp fun m e here =>
      (⟨Scalar.ofJson?_some_iff.1 ⟨e.2, here.2⟩, here⟩ : m.2.IsScalar ∧ _)
    exact ((List.forall₂_and_left _ _).1 each).1
  · intro each
    cases read : scalarsOf members with
    | ok scalars => exact ⟨scalars, rfl⟩
    | error key =>
      obtain ⟨before, value, after, rfl, -, none⟩ := scalarsOf_eq_error_iff.1 read
      exact absurd (each _ (List.mem_append_right _ List.mem_cons_self)) none

theorem lookup_scalars
    (each : List.Forall₂ (fun m e => m.1 = e.1 ∧ Scalar.ofJson? m.2 = some e.2) members scalars) (key : String) :
    scalars.lookup key = (members.lookup key).bind Scalar.ofJson? := by
  induction each with
  | nil => rfl
  | @cons m e _ _ here _ ih =>
    obtain ⟨name, value⟩ := m
    obtain ⟨_, leaf⟩ := e
    obtain ⟨rfl, read⟩ := here
    dsimp only at read
    by_cases same : key = name
    · simp [same, read]
    · simp [List.lookup_cons, beq_false_of_ne same, ih]

/-! ### Reading stores -/

variable {form : Form} {drafts : List (DraftName × Draft)} {given : List (String × Json)} {s : Store}

theorem decoder_eq (read : Draft.readMembers drafts = .ok given) (form : Form) :
    decoder form (.object drafts none) = match scalarsOf (membersOf given) with
      | .ok scalars => .ok (.ofList scalars)
      | .error key => .error (.content [] (.nonScalar key)) := by
  rw [decoder, read]
  rfl

/-- What is answered to members that are given one after another: a store, if the last value for each key is a scalar,
which holds these values and writes them back, and otherwise the first key that has another value. -/
structure ReadsAs (given : List (String × Json)) (answer : Except Problem Store) : Prop where
  accepted : (∃ s, answer = .ok s) ↔ ∀ key value, lastValue given key = some value → value.IsScalar
  held : ∀ s, answer = .ok s →
    s.keys = firstNames given ∧ ∀ key, s.get? key = (lastValue given key).bind Scalar.ofJson?
  written : ∀ s, answer = .ok s → ∃ members, s.toJson = .object members ∧
    List.Forall₂ (fun key m => m.1 = key ∧ ∃ value, lastValue given key = some value ∧ value.Stored m.2)
      (firstNames given) members
  refused : ∀ problem, answer = .error problem → ∃ before key after value,
    firstNames given = before ++ key :: after ∧
      (∀ name ∈ before, ∀ v, lastValue given name = some v → v.IsScalar) ∧
      lastValue given key = some value ∧ ¬ value.IsScalar ∧ problem = .content [] (.nonScalar key)

theorem toList_ofList_scalars (read : scalarsOf (membersOf given) = .ok scalars) :
    (ofList scalars).toList = scalars ∧ scalars.map Prod.fst = firstNames given := by
  have each := scalarsOf_eq_ok_iff.1 read
  have names : scalars.map Prod.fst = firstNames given := by
    rw [← names_membersOf, eq_comm, ← List.forall₂_eq_eq_eq, List.forall₂_map_left_iff, List.forall₂_map_right_iff]
    exact each.imp fun _ _ here => here.1
  refine ⟨?_, names⟩
  rw [toList_ofList, membersOf_eq_of_nodup]
  rw [names, ← names_membersOf]
  exact nodup_membersOf given

theorem ReadsAs.of_scalars (outcome : scalarsOf (membersOf given) = .ok scalars) :
    ReadsAs given (.ok (.ofList scalars)) := by
  have each := scalarsOf_eq_ok_iff.1 outcome
  have scalar : ∀ m ∈ membersOf given, m.2.IsScalar := scalarsOf_some_iff.1 ⟨scalars, outcome⟩
  obtain ⟨shown, names⟩ := toList_ofList_scalars outcome
  refine ⟨iff_of_true ⟨_, rfl⟩ fun key value last => scalar _ (mem_membersOf_iff.2 last), ?_, ?_, ?_⟩
  · rintro s ⟨⟩
    refine ⟨by rw [keys, shown, names], fun key => ?_⟩
    rw [get?_eq_lookup, shown, lookup_scalars each, lookup_membersOf]
  · rintro s ⟨⟩
    refine ⟨_, rfl, ?_⟩
    rw [shown, ← names_membersOf, List.forall₂_map_left_iff, List.forall₂_map_right_iff]
    have last : ∀ m ∈ membersOf given, lastValue given m.1 = some m.2 := fun m mem => mem_membersOf_iff.1 mem
    exact ((List.forall₂_and_left _ _).2 ⟨last, each⟩).imp fun m e here =>
      ⟨here.2.1.symm, m.2, here.1, Scalar.stored_of_ofJson? here.2.2⟩
  · rintro problem ⟨⟩

theorem ReadsAs.of_refusal (outcome : scalarsOf (membersOf given) = .error key) :
    ReadsAs given (.error (.content [] (.nonScalar key))) := by
  obtain ⟨before, value, after, split, scalars, none⟩ := scalarsOf_eq_error_iff.1 outcome
  have last : ∀ m ∈ before ++ (key, value) :: after, lastValue given m.1 = some m.2 := fun m mem =>
    mem_membersOf_iff.1 (split ▸ mem)
  have here : lastValue given key = some value := last _ (List.mem_append_right _ List.mem_cons_self)
  refine ⟨iff_of_false ?_ fun each => none (each key value here), ?_, ?_, ?_⟩
  · rintro ⟨s, ⟨⟩⟩
  · rintro s ⟨⟩
  · rintro s ⟨⟩
  · rintro problem ⟨⟩
    refine ⟨before.map Prod.fst, key, after.map Prod.fst, value, ?_, ?_, here, none, rfl⟩
    · rw [← names_membersOf, split, List.map_append, List.map_cons]
    · intro name mem v there
      obtain ⟨m, held, rfl⟩ := List.mem_map.1 mem
      cases (last m (List.mem_append_left _ held)).symm.trans there
      exact scalars m held

theorem reads_members (read : Draft.readMembers drafts = .ok given) (form : Form) :
    ReadsAs given (decoder form (.object drafts none)) := by
  rw [decoder_eq read form]
  cases outcome : scalarsOf (membersOf given) with
  | ok scalars => exact .of_scalars outcome
  | error key => exact .of_refusal outcome

theorem decode_toJson (finite : ∀ e ∈ s.toList, ∀ x, e.2 = .float x → ∃ y, x = .finite y) :
    ∃ t, Decoder.ofJson decoder s.toJson = .ok t ∧ t.toList = s.toList := by
  obtain ⟨members, form⟩ : ∃ members, members = s.toList.map fun e => (e.1, e.2.toJson) := ⟨_, rfl⟩
  have nodup : (members.map Prod.fst).Nodup := by
    rw [form, List.map_map]
    exact s.keys_nodup
  have read : Draft.readMembers (Draft.ofMembers members) = .ok members := by
    refine Draft.readMembers_ofMembers fun m mem => ?_
    obtain ⟨e, -, rfl⟩ := List.mem_map.1 (form ▸ mem)
    exact e.2.read_toJson
  have scalars : scalarsOf (membersOf members) = .ok s.toList := by
    rw [membersOf_eq_of_nodup nodup, form, scalarsOf_eq_ok_iff, List.forall₂_map_left_iff, List.forall₂_same]
    exact fun e mem => ⟨rfl, Scalar.ofJson?_toJson (finite e mem)⟩
  refine ⟨.ofList s.toList, ?_, (toList_ofList_scalars scalars).1⟩
  have json : s.toJson = .object members := by rw [form]; rfl
  rw [json]
  change decoder .value (.object (Draft.ofMembers members) none) = _
  rw [decoder_eq read, scalars]

/-- The JSON form of stores loses nothing: a store whose floats are finite is read back with its keys and scalars in
their order. Members of a value or of a text, some of them perhaps for the same key, are read as a store exactly if the
last value for each key is a scalar. The store then has the keys in the order in which they are first given, each with
its last value, and writes them so, rounding the whole numbers that are beyond 64 bits with a sign. Otherwise the first
key is refused that has another value. -/
theorem json_form :
    (∀ s : Store, (∀ e ∈ s.toList, ∀ x, e.2 = .float x → ∃ y, x = .finite y) →
        ∃ t, Decoder.ofJson decoder s.toJson = .ok t ∧ t.toList = s.toList) ∧
      (∀ given : List (String × Json), (∀ m ∈ given, m.2.Distinct) →
        ReadsAs given (Decoder.ofJson decoder (.object given))) ∧
      ∀ (form : Form) (drafts : List (DraftName × Draft)) (given : List (String × Json)),
        Draft.readMembers drafts = .ok given → ReadsAs given (decoder form (.object drafts none)) := by
  refine ⟨fun _ => decode_toJson, fun given distinct => ?_, fun form _ _ read => reads_members read form⟩
  have read := Draft.readMembers_ofMembers fun m mem => Draft.read_ofJson (distinct m mem)
  exact reads_members read .value

/-- A key that is given again keeps its place, and what it had first may be anything. -/
example : (Decoder.ofJson decoder (.object [("b", .null), ("a", .whole .zero), ("b", .bool true)])).map toList =
    .ok [("b", .bool true), ("a", .int 0)] := rfl

end Store
end FlatStore
