import FlatStore.Schema.Basic

/-!
Schemas are the same exactly if they are equal, so that their equality can be decided.
-/
namespace FlatStore.Schema

mutual
theorem eq_of_same : (a b : Schema) → a.same b = true → a = b
  | .scalar a, b, h => by
    cases b <;> simp_all [same]
  | .list ⟨a, least, most, wrapper⟩, b, h => by
    cases b with
    | list c =>
      obtain ⟨element, l, m, w⟩ := c
      simp only [same, Bool.and_eq_true, beq_iff_eq] at h
      obtain ⟨⟨⟨same, rfl⟩, rfl⟩, rfl⟩ := h
      rw [eq_of_same a _ same]
    | _ => simp [same] at h
  | .set ⟨a, least, most, wrapper⟩, b, h => by
    cases b with
    | set c =>
      obtain ⟨element, l, m, w⟩ := c
      simp only [same, Bool.and_eq_true, beq_iff_eq] at h
      obtain ⟨⟨⟨same, rfl⟩, rfl⟩, rfl⟩ := h
      rw [eq_of_same a _ same]
    | _ => simp [same] at h
  | .map a, b, h => by
    cases b with
    | map c => rw [eq_of_same a c (by simpa [same] using h)]
    | _ => simp [same] at h
  | .object ⟨name, fields⟩, b, h => by
    cases b with
    | object c =>
      obtain ⟨n, others⟩ := c
      simp only [same, Bool.and_eq_true, beq_iff_eq] at h
      obtain ⟨rfl, same⟩ := h
      rw [eq_of_sameFields fields _ same]
    | _ => simp [same] at h
  | .union ⟨name, discriminator, variants, ⟨baseName, baseFields⟩⟩, b, h => by
    cases b with
    | union c =>
      obtain ⟨n, d, others, ⟨m, more⟩⟩ := c
      simp only [same, Bool.and_eq_true, beq_iff_eq] at h
      obtain ⟨⟨⟨⟨rfl, rfl⟩, variants'⟩, rfl⟩, fields⟩ := h
      rw [eq_of_sameVariants variants _ variants', eq_of_sameFields baseFields _ fields]
    | _ => simp [same] at h
theorem eq_of_sameFields : (a b : List (Field Schema)) → sameFields a b = true → a = b
  | [], b, h => by cases b <;> simp_all [sameFields]
  | ⟨name, wireName, schema, optional, computed, aliases, promotedFrom⟩ :: rest, b, h => by
    cases b with
    | nil => simp [sameFields] at h
    | cons b others =>
      obtain ⟨n, w, s, o, c, al, p⟩ := b
      simp only [sameFields, Bool.and_eq_true, beq_iff_eq] at h
      obtain ⟨⟨⟨⟨⟨⟨⟨rfl, rfl⟩, same⟩, rfl⟩, rfl⟩, rfl⟩, rfl⟩, rest'⟩ := h
      rw [eq_of_same schema _ same, eq_of_sameFields rest _ rest']
theorem eq_of_sameVariants : (a b : List (Variant Schema)) → sameVariants a b = true → a = b
  | [], b, h => by cases b <;> simp_all [sameVariants]
  | ⟨name, values, segment, ⟨shapeName, fields⟩⟩ :: rest, b, h => by
    cases b with
    | nil => simp [sameVariants] at h
    | cons b others =>
      obtain ⟨n, vs, sg, ⟨m, fs⟩⟩ := b
      simp only [sameVariants, Bool.and_eq_true, beq_iff_eq] at h
      obtain ⟨⟨⟨⟨⟨rfl, rfl⟩, rfl⟩, rfl⟩, same⟩, rest'⟩ := h
      rw [eq_of_sameFields fields _ same, eq_of_sameVariants rest _ rest']
end

mutual
theorem same_refl : (a : Schema) → a.same a = true
  | .scalar _ => by simp [same]
  | .list ⟨a, _, _, _⟩ | .set ⟨a, _, _, _⟩ => by simp [same, same_refl a]
  | .map a => by simp [same, same_refl a]
  | .object ⟨_, fields⟩ => by simp [same, sameFields_refl fields]
  | .union ⟨_, _, variants, ⟨_, fields⟩⟩ => by simp [same, sameFields_refl fields, sameVariants_refl variants]
theorem sameFields_refl : (a : List (Field Schema)) → sameFields a a = true
  | [] => rfl
  | ⟨_, _, schema, _, _, _, _⟩ :: rest => by simp [sameFields, same_refl schema, sameFields_refl rest]
theorem sameVariants_refl : (a : List (Variant Schema)) → sameVariants a a = true
  | [] => rfl
  | ⟨_, _, _, ⟨_, fields⟩⟩ :: rest => by simp [sameVariants, sameFields_refl fields, sameVariants_refl rest]
end

theorem same_iff {a b : Schema} : a.same b = true ↔ a = b :=
  ⟨eq_of_same a b, fun eq => eq ▸ same_refl a⟩

instance : DecidableEq Schema := fun _ _ => decidable_of_iff _ same_iff

end FlatStore.Schema
