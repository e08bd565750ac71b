import FlatStore.Proofs.Holding
import Mathlib.Algebra.Group.Nat.Defs

/-!
Reads of a store. Where a store holds nothing nothing is found (`Schema.resolveAt_nothing`), and a union is found at
the one candidate that leads to it, in the shape that its tag selects (`Schema.resolveChoice_leads`).
-/
namespace FlatStore

/-! ### Steps that succeed -/

theorem mapM_eq_ok {ε α β : Type} {f : α → Except ε β} {g : α → β} {items : List α}
    (each : ∀ item ∈ items, f item = .ok (g item)) : items.mapM f = .ok (items.map g) := by
  induction items with
  | nil => rfl
  | cons item rest ih =>
    obtain ⟨first, later⟩ := List.forall_mem_cons.1 each
    rw [List.mapM_cons, first, ih later]
    rfl

theorem mapError_ok {ε δ α : Type} (f : ε → δ) (a : α) : Except.mapError f (.ok a) = .ok a := rfl

namespace Schema

variable {s : Store} {schema : Schema} {a b base : Address} {sliced : Bool}

/-! ### Nothing there -/

theorem storedCount_of_none (absent : s.get? a.countKey = none) : storedCount s.source a = .ok none := by
  rw [storedCount, Store.backedCount_source, absent]
  rfl

/-- A count is read if it is a number that the entries can back. -/
theorem storedCount_of_some {n : Nat} (found : s.get? a.countKey = some (.int (.ofNat n))) (fits : s.size < 2 ^ 63)
    (backed : n ≤ s.size) : storedCount s.source a = .ok (some n) := by
  have small : (Int64.ofNat n).toInt = n := Int64.toInt_ofNat_of_lt (by omega)
  rw [storedCount, Store.backedCount_source, found]
  simp only [small]
  rw [if_pos (by omega), Int.toNat_natCast, if_neg (by omega)]
  rfl

theorem present_of_own (own : (sliced || a.isRoot) = true) : present s.source a sliced = .ok true := by
  rw [present, if_pos own]
  rfl

theorem present_of_none (below : (sliced || a.isRoot) = false) (absent : s.get? a.countKey = none) :
    present s.source a sliced = .ok false := by
  rw [present, if_neg (by rw [below]; decide)]
  change (Except.mapError _ (countOf a (s.get? a.countKey)) >>= _) = _
  rw [absent]
  rfl

theorem present_of_opened (opened : (sliced || a.isRoot) = false → s.get? a.countKey = some (.int 1)) :
    present s.source a sliced = .ok true := by
  cases own : sliced || a.isRoot with
  | true => exact present_of_own own
  | false =>
    rw [present, if_neg (by rw [own]; decide)]
    change (Except.mapError _ (countOf a (s.get? a.countKey)) >>= _) = _
    rw [opened own]
    rfl

/-- Neither a scalar nor a collection is found where nothing is stored, be it sliced or not. -/
theorem resolve_nothing_unblocked (nothing : s.Holds a []) (unblocked : schema.isBlock = false) :
    schema.resolve s.source a sliced = .ok none := by
  have count := storedCount_of_none (nothing.get?_eq_none (Slot.under_self (.count a)))
  induction schema using formInduction with
  | scalar kind =>
    have leaf := nothing.get?_eq_none (Slot.under_self (.leaf a))
    rw [resolve_scalar, resolveScalar, Store.stored_source, show s.get? a.text = none from leaf]
    rfl
  | items schema c form =>
    rw [resolve_items form, resolveItems, count]
    rfl
  | map element =>
    rw [resolve_map, resolveEntries, count]
    rfl
  | block schema block =>
    rw [unblocked] at block
    cases block

/-- All but a union are not found where nothing is stored. -/
theorem resolve_nothing (below : a.isRoot = false) (nothing : s.Holds a []) (other : ∀ choice, schema ≠ .union choice) :
    schema.resolve s.source a false = .ok none := by
  cases schema with
  | object shape =>
    have count := nothing.get?_eq_none (Slot.under_self (.count a))
    rw [resolve_object, present_of_none (by simpa using below) count]
    rfl
  | union choice => exact absurd rfl (other choice)
  | scalar | list | set | map => exact resolve_nothing_unblocked nothing rfl

theorem resolveFirst_nothing {read : Address → Resolved (Option Json)} {candidates : List Candidate}
    (each : ∀ c ∈ candidates, read c.address = .ok none) : resolveFirst read candidates = .ok none := by
  induction candidates with
  | nil => rfl
  | cons c rest ih =>
    obtain ⟨first, later⟩ := List.forall_mem_cons.1 each
    rw [resolveFirst, first]
    exact ih later

/-! ### The candidates of a union -/

/-- Whether no variant is found at a candidate: there is no tag, or one that selects nothing there. -/
def Skips (s : Store) (tagName : String) (readers : List Reader) (sliced : Bool) (c : Candidate) : Prop :=
  ∀ found, s.get? ((c.address.block sliced).member tagName).text = some found →
    ∃ tag, found = .string tag ∧ selected readers c.only tag = none

/-- Whether a variant is found at a candidate. -/
def Takes (s : Store) (tagName : String) (readers : List Reader) (sliced : Bool) (a : Address) (reader : Reader)
    (c : Candidate) : Prop :=
  c.address = a ∧ ∃ tag, s.get? ((a.block sliced).member tagName).text = some (.string tag) ∧
    selected readers c.only tag = some reader

variable {tagName : String} {readers : List Reader} {candidates : List Candidate} {reader : Reader}

/-- Reading goes on behind a candidate where no variant is found. -/
theorem resolveVariant_cons_of_skips (usable : isFieldName tagName = true) {c : Candidate}
    (skips : Skips s tagName readers sliced c) : resolveVariant s.source tagName readers sliced (c :: candidates) =
      resolveVariant s.source tagName readers sliced candidates := by
  rw [resolveVariant, Address.append_eq usable, mapError_ok, ok_bind, Store.stored_source]
  cases found : s.get? ((c.address.block sliced).member tagName).text with
  | none => rfl
  | some x =>
    obtain ⟨tag, rfl, unselected⟩ := skips x found
    rw [ok_bind]
    dsimp only
    rw [unselected]

theorem resolveVariant_cons_of_takes (usable : isFieldName tagName = true) {c : Candidate}
    (takes : Takes s tagName readers sliced a reader c) :
    resolveVariant s.source tagName readers sliced (c :: candidates) = some <$> reader.read (a.block sliced) := by
  obtain ⟨rfl, tag, found, chosen⟩ := takes
  rw [resolveVariant, Address.append_eq usable, mapError_ok, ok_bind, Store.stored_source, found, ok_bind]
  dsimp only
  rw [chosen]

theorem resolveVariant_of_skips (usable : isFieldName tagName = true)
    (skips : ∀ c ∈ candidates, Skips s tagName readers sliced c) :
    resolveVariant s.source tagName readers sliced candidates = .ok none := by
  induction candidates with
  | nil => rfl
  | cons c rest ih =>
    obtain ⟨first, later⟩ := List.forall_mem_cons.1 skips
    rw [resolveVariant_cons_of_skips usable first, ih later]

/-- A union is read as a variant at the first candidate where one is found. -/
theorem resolveVariant_of_takes (usable : isFieldName tagName = true)
    (each : ∀ c ∈ candidates, Skips s tagName readers sliced c ∨ Takes s tagName readers sliced a reader c)
    (taken : ∃ c ∈ candidates, ¬ Skips s tagName readers sliced c) :
    resolveVariant s.source tagName readers sliced candidates = some <$> reader.read (a.block sliced) := by
  induction candidates with
  | nil => simp at taken
  | cons c rest ih =>
    obtain ⟨first, later⟩ := List.forall_mem_cons.1 each
    by_cases skips : Skips s tagName readers sliced c
    · rw [resolveVariant_cons_of_skips usable skips]
      refine ih later ?_
      obtain ⟨other, mem, takes⟩ := taken
      rcases List.mem_cons.1 mem with rfl | mem
      · exact absurd skips takes
      · exact ⟨other, mem, takes⟩
    · exact resolveVariant_cons_of_takes usable (first.resolve_left skips)

/-- There is no tag where nothing is stored. -/
theorem get?_tag_of_nothing (nothing : s.Holds a []) (sliced : Bool) (tagName : String) :
    s.get? ((a.block sliced).member tagName).text = none :=
  nothing.get?_eq_none (Slot.under_self (.leaf ((a.block sliced).member tagName))).of_member.of_block

theorem skips_of_nothing {c : Candidate} (nothing : s.Holds c.address []) : Skips s tagName readers sliced c := by
  intro found there
  cases (get?_tag_of_nothing nothing sliced tagName).symm.trans there

/-! ### The base of a union -/

theorem basePresent_of_nothing (usable : isFieldName tagName = true) (below : b.isRoot = false)
    (nothing : s.Holds b []) : basePresent s.source tagName b false = .ok false := by
  rw [basePresent, present_of_none (by simpa using below) (nothing.get?_eq_none (Slot.under_self (.count b))),
    Address.append_eq usable, mapError_ok, ok_bind]
  have under : (Slot.leaf ((b.index 0).member tagName)).Under b :=
    Slot.Under.of_child (Slot.under_self (.leaf ((b.index 0).member tagName))).of_member
  have absent := nothing.get?_eq_none under
  rw [if_neg (by decide), ok_bind, Store.stored_source, show s.get? ((b.index 0).member tagName).text = none from absent]
  rfl

theorem basePresent_of_opened (opened : (sliced || a.isRoot) = false → s.get? a.countKey = some (.int 1)) :
    basePresent s.source tagName a sliced = .ok true := by
  rw [basePresent, present_of_opened opened]
  rfl

variable {read : Address → Resolved (List (String × Json))} {addresses : List Address}

theorem resolveBase_of_absent (each : ∀ b ∈ addresses, basePresent s.source tagName b sliced = .ok false) :
    resolveBase s.source tagName read sliced addresses = .ok none := by
  induction addresses with
  | nil => rfl
  | cons b rest ih =>
    obtain ⟨first, later⟩ := List.forall_mem_cons.1 each
    rw [resolveBase, first]
    exact ih later

/-- A union is read in its base shape at the first address where there is one. -/
theorem resolveBase_of_present (here : basePresent s.source tagName a sliced = .ok true) (mem : a ∈ addresses)
    (each : ∀ b ∈ addresses, b = a ∨ basePresent s.source tagName b sliced = .ok false) :
    resolveBase s.source tagName read sliced addresses = some <$> read (a.block sliced) := by
  induction addresses with
  | nil => cases mem
  | cons b rest ih =>
    obtain ⟨first, later⟩ := List.forall_mem_cons.1 each
    by_cases same : b = a
    · rw [resolveBase, same, here]
      rfl
    · rw [resolveBase, first.resolve_left same]
      exact ih ((List.mem_cons.1 mem).resolve_left (Ne.symm same)) later

end Schema
end FlatStore
