import FlatStore.Proofs.Address
import Mathlib.Algebra.Group.Nat.Defs

/-!
Reading addresses. The written form of an address whose indices have 64 bits is read as that address
(`Address.parse?_text`).
-/
namespace FlatStore

/-- A number is what its decimal digits stand for. -/
theorem numeralValue_toDigits (i : Nat) : numeralValue (Nat.toDigits 10 i) = i := by
  have digit : ∀ d < 10, (Nat.digitChar d).toNat - '0'.toNat = d := by decide
  induction i using Nat.strongRecOn with
  | _ i ih =>
    by_cases small : i < 10
    · simpa [Nat.toDigits_of_lt_base small, numeralValue] using digit i small
    · have front : numeralValue (Nat.toDigits 10 (i / 10)) = i / 10 := ih (i / 10) (by omega)
      have last := digit (i % 10) (by omega)
      rw [numeralValue] at front
      rw [Nat.toDigits_of_base_le (by decide) (by omega), numeralValue, List.foldl_append, front]
      simp only [List.foldl_cons, List.foldl_nil, last]
      omega

namespace Address

theorem segment?_text {segment : Segment} (bounded : ∀ i, segment = .index i → i < 2 ^ 64) :
    segment? segment.text.toList = some segment := by
  cases segment with
  | field name =>
    have usable := name.usable
    have numeral : isIndexText name.text.toList = false := by
      simp only [isFieldName, Bool.and_eq_true, Bool.not_eq_true'] at usable
      exact usable.2
    simp only [segment?, Segment.text, numeral, String.ofList_toList]
    simp [usable]
  | index i =>
    have value : numeralValue (toString i).toList = i := by simpa using numeralValue_toDigits i
    have small : i < 0x10000000000000000 := bounded i rfl
    simp only [segment?, Segment.text, Segment.isIndexText_toString, value, small, if_true]

/-- An address whose indices have 64 bits is read from its written form. -/
theorem parse?_text {a : Address} (bounded : ∀ i, .index i ∈ a.segments → i < 2 ^ 64) : parse? a.text = some a := by
  have each : ∀ segments : List Segment, (∀ i, .index i ∈ segments → i < 2 ^ 64) →
      ((segments.map Segment.text).map String.toList).mapM segment? = some segments := by
    intro segments bounded
    induction segments with
    | nil => rfl
    | cons segment rest ih =>
      have first := segment?_text fun i same => bounded i (same ▸ List.mem_cons_self)
      have later := ih fun i mem => bounded i (List.mem_cons_of_mem _ mem)
      rw [List.map_cons, List.map_cons, List.mapM_cons, first, later]
      rfl
  by_cases empty : a.text = ""
  · have same : (Slot.leaf a).key = (Slot.leaf .root).key := empty
    rw [Slot.leaf.inj (Slot.key_injective same)]
    rfl
  · have below : a.isRoot = false := by
      refine Bool.eq_false_iff.2 fun root => empty ?_
      simp [text, List.isEmpty_iff.1 root]
    have cut := (Slot.leaf a).pieces_key
    rw [Slot.keyPieces, if_neg (by simp [below])] at cut
    rw [parse?, if_neg empty, show pieces '.' a.text.toList = _ from cut, each a.segments bounded]
    rfl

end Address
end FlatStore
