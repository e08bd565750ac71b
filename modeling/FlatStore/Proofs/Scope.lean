import FlatStore.Proofs.Correspondence
import FlatStore.Proofs.Rendering
import FlatStore.Proofs.Restored

/-!
The scope of a read. Whatever is read at an address depends only on what is stored under the keys that the address
covers: its own, the key of its count, and those below (`Address.Covers`). Stores that agree there give the same
outcome, be it a value or an error, whatever else they hold and in whatever order it was written
(`Schema.resolve_eq_of_covered`). There is one exception: a count is refused where it is larger than the whole store,
so that the second store must not be smaller, and nothing is said of a read that is refused in the first.
-/
namespace FlatStore

/-! ### Stores that agree -/

/-- Whether two stores hold the same at an address and below it. -/
def Store.AgreeAt (s t : Store) (a : Address) : Prop := ∀ slot : Slot, slot.Under a → t.get? slot.key = s.get? slot.key

theorem Store.AgreeAt.of_covered {s t : Store} {a : Address}
    (same : ∀ key, a.Covers key → t.get? key = s.get? key) : s.AgreeAt t a :=
  fun slot under => same slot.key (Slot.covers_key_iff.2 under)

/-! ### Outcomes that follow -/

/-- Whether a result is no refusal of a count. -/
def Unrefused {α : Type} (result : Resolved α) : Prop :=
  ∀ path n entries, result ≠ .error (.store (.unbackedCount path n entries))

def Follows {α : Type} (first second : Resolved α) : Prop := Unrefused first → second = first

/-- All errors stay as they are, but a refused count may be anything. -/
def sparing : Transfer := ⟨id, fun e => ∃ place n entries, e = .store (.unbackedCount place n entries)⟩

theorem Corresponds.follows {α : Type} {x y : Resolved α} (corresponds : Corresponds sparing Eq x y) : Follows x y := by
  intro unrefused
  rw [corresponds.eq_mapError]
  · cases x with
    | ok a => rfl
    | error e => exact congrArg Except.error e.relabel_id
  · rintro e failed ⟨place, n, entries, rfl⟩
    exact unrefused place n entries failed

theorem Corresponds.self {α : Type} (x : Resolved α) : Corresponds sparing Eq x x := by
  cases x with
  | ok a => exact .pure rfl
  | error e => exact .error fun _ => e.relabel_id

theorem Store.AgreeAt.source {s t : Store} {a : Address} (agree : s.AgreeAt t a) (larger : s.size ≤ t.size) :
    s.source.Mirrors t.source sparing a a := by
  refine .of_stores (fun _ _ _ => rfl) (fun rest => ?_) (fun rest => ?_)
    (.inr ⟨fun place n entries => ?_, fun m size => ?_⟩)
  · exact agree (.leaf (a.below rest)) (List.prefix_append _ _)
  · exact agree (.count (a.below rest)) (List.prefix_append _ _)
  · exact ⟨place, n, entries, rfl⟩
  · cases size
    exact ⟨s.size, rfl, larger⟩

namespace Schema

variable {s t : Store} {schema : Schema} {a : Address} {sliced : Bool}

/-- Whether what is read by a schema follows in stores that agree at its candidates. -/
def Carries (s t : Store) (schema : Schema) : Prop :=
  ∀ {cs sliced}, schema.Valid → (∀ c ∈ cs, s.AgreeAt t c.address) →
    Follows (schema.readAt s.source cs sliced) (schema.readAt t.source cs sliced)

theorem Carries.resolve (carries : Carries s t schema) (valid : schema.Valid) (agree : s.AgreeAt t a) :
    Follows (schema.resolve s.source a sliced) (schema.resolve t.source a sliced) := by
  have single : ∀ c ∈ [(⟨a, none⟩ : Candidate)], s.AgreeAt t c.address := by simpa using agree
  rw [← readAt_single, ← readAt_single]
  exact carries valid single

theorem carries (larger : s.size ≤ t.size) (schema : Schema) : Carries s t schema := by
  intro cs sliced valid agree
  have paired : List.Forall₂ (Paired s.source t.source sparing sliced sliced) cs cs :=
    List.forall₂_same.2 fun c mem => ⟨rfl, (agree c mem).source larger, rfl⟩
  exact (transfers s.source t.source sparing schema valid paired).follows

/-- What is resolved at an address is the same in two stores that hold the same under all keys that the address covers,
whatever else they hold and in whatever order, if the second has no fewer entries and no count is refused in the
first. -/
theorem resolve_eq_of_covered (valid : schema.Valid) (same : ∀ key, a.Covers key → t.get? key = s.get? key)
    (larger : s.size ≤ t.size) (unrefused : Unrefused (schema.resolve s.source a sliced)) :
    schema.resolve t.source a sliced = schema.resolve s.source a sliced :=
  Carries.resolve (carries larger schema) valid (.of_covered same) unrefused

def namedRule : List (String × Scalar) :=
  [("rule.#", .int 1), ("rule.0.tags.#", .int 1), ("rule.0.tags.0", .string "a"), ("rule.0.tap.0.type", .string "tap")]

/-- The rule is read in the same way if its entries come in another order behind one that is not its own. -/
theorem resolve_eq_of_covered_namedRule :
    let a := Address.root.member "rule"
    let s := Store.ofList namedRule
    let t := Store.ofList (("rules.#", .int 9) :: namedRule.reverse)
    rule.Valid ∧ (∀ key, a.Covers key → t.get? key = s.get? key) ∧ s.size ≤ t.size ∧
      Unrefused (rule.resolve s.source a false) ∧ rule.resolve t.source a false = rule.resolve s.source a false := by
  intro a s t
  have valid : rule.Valid := by decide
  have read : rule.resolve s.source a false = .ok (some (.object
      [("tags", .array [.string "a"]), ("event", .object [("type", .string "tap")])])) := by decide +kernel
  have unrefused : Unrefused (rule.resolve s.source a false) := by
    intro path n entries refused
    rw [read] at refused
    cases refused
  have larger : s.size ≤ t.size := by decide +kernel
  have same : ∀ key, a.Covers key → t.get? key = s.get? key := by
    intro key covers
    have outside : key ≠ "rules.#" := by
      rintro rfl
      rcases covers with root | own | ⟨rest, below⟩
      · cases root
      · exact absurd own (by decide)
      · have point := congrArg (fun key => key.toList[4]?) below
        simp [show a.text = "rule" by decide] at point
    apply Option.ext
    intro value
    rw [Store.get?_eq_some_iff, Store.get?_eq_some_iff, Store.toList_ofList, Store.toList_ofList,
      membersOf_eq_of_nodup (by decide), membersOf_eq_of_nodup (by decide)]
    simp [outside]
  exact ⟨valid, same, larger, unrefused, resolve_eq_of_covered valid same larger unrefused⟩

end Schema
end FlatStore
