import FlatStore.Proofs.Correspondence

/-!
Values elsewhere. What is read at an address is read just so at another, in another store, that holds the same at it and
below it (`Schema.relocates`). Of its own address a reader says something only where it fails.
-/
namespace FlatStore

/-- Whether a store of the same size holds at an address and below it what another holds at an address and below it. -/
structure Store.Mirrors (s t : Store) (a b : Address) : Prop where
  size : t.size = s.size
  isRoot : b.isRoot = a.isRoot
  leaf : ∀ rest, t.get? (b.below rest).text = s.get? (a.below rest).text
  count : ∀ rest, t.get? (b.below rest).countKey = s.get? (a.below rest).countKey

namespace Store.Mirrors

variable {s t : Store} {a b : Address}

theorem get?_text (mirrors : s.Mirrors t a b) : t.get? b.text = s.get? a.text := by
  simpa [Address.below] using mirrors.leaf []

theorem child (mirrors : s.Mirrors t a b) (segment : Segment) : s.Mirrors t (a.child segment) (b.child segment) where
  size := mirrors.size
  isRoot := by rw [Address.isRoot_child, Address.isRoot_child]
  leaf := fun rest => by simpa [Address.below, Address.child] using mirrors.leaf (segment :: rest)
  count := fun rest => by simpa [Address.below, Address.child] using mirrors.count (segment :: rest)

theorem member (mirrors : s.Mirrors t a b) (name : String) : s.Mirrors t (a.member name) (b.member name) := by
  by_cases usable : isFieldName name = true
  · rw [Address.member_eq usable, Address.member_eq usable]
    exact mirrors.child _
  · rw [Address.member, Address.member, dif_neg usable, dif_neg usable]
    exact mirrors

/-- As sources the stores answer alike, whatever becomes of errors. -/
theorem source (mirrors : s.Mirrors t a b) : s.source.Mirrors t.source ⟨id, fun _ => True⟩ a b :=
  .of_stores (fun _ _ unexcused => absurd trivial unexcused) mirrors.leaf mirrors.count
    (.inl (congrArg some mirrors.size))

end Store.Mirrors

namespace Schema

variable {s t : Store} {schema : Schema} {a b base other : Address} {sliced : Bool} {found : Option Json}

theorem storedCount_of_get? (size : t.size = s.size) (same : t.get? b.countKey = s.get? a.countKey) {n : Option Nat}
    (read : storedCount s.source a = .ok n) : storedCount t.source b = .ok n := by
  have path : ∀ e, ¬ (⟨id, fun _ => True⟩ : Transfer).excused e → id a.text = b.text :=
    fun _ unexcused => absurd trivial unexcused
  have backs : s.source.Backs t.source ⟨id, fun _ => True⟩ := .inl (congrArg some size)
  exact (storedCount_corresponds path backs (count_corresponds path same)).eq_ok read

/-- Whether the same can be read at two candidates. -/
def Matches (s t : Store) (c d : Candidate) : Prop := c.only = d.only ∧ s.Mirrors t c.address d.address

/-- Whether whatever is read by a schema is read just so where the same is held. -/
def Relocates (s t : Store) (schema : Schema) : Prop :=
  ∀ {cs ds sliced found}, schema.Valid → List.Forall₂ (Matches s t) cs ds →
    schema.readAt s.source cs sliced = .ok found → schema.readAt t.source ds sliced = .ok found

theorem Relocates.resolve (relocates : Relocates s t schema) (valid : schema.Valid) (mirrors : s.Mirrors t a b)
    (read : schema.resolve s.source a sliced = .ok found) : schema.resolve t.source b sliced = .ok found := by
  have matched : List.Forall₂ (Matches s t) [⟨a, none⟩] [⟨b, none⟩] := .cons ⟨rfl, mirrors⟩ .nil
  rw [← readAt_single] at read ⊢
  exact relocates valid matched read

theorem Relocates.element (relocates : Relocates s t schema) (valid : schema.Valid) (mirrors : s.Mirrors t a b)
    {value : Json} (read : schema.orZero <$> schema.resolve s.source a sliced = .ok value) :
    schema.orZero <$> schema.resolve t.source b sliced = .ok value := by
  obtain ⟨found, there, filled⟩ := map_eq_ok_iff.1 read
  exact map_eq_ok_iff.2 ⟨found, relocates.resolve valid mirrors there, filled⟩

theorem Relocates.entry (relocates : Relocates s t schema) (valid : schema.Valid) (mirrors : s.Mirrors t a b)
    {member : String × Json}
    (read : resolveEntry s.source (fun c => schema.orZero <$> schema.resolve s.source (schema.entryAddress c)
      schema.isBlock) a = .ok member) :
    resolveEntry t.source (fun c => schema.orZero <$> schema.resolve t.source (schema.entryAddress c)
      schema.isBlock) b = .ok member := by
  rw [resolveEntry_eq_ok_iff] at read ⊢
  obtain ⟨key, value⟩ := read
  refine ⟨(mirrors.member mapKeyField).get?_text.trans key, relocates.element valid ?_ value⟩
  rw [entryAddress, entryAddress]
  split
  · exact mirrors
  · exact mirrors.member mapValueField

/-- A field is read just so, if the same is held under its candidate names. -/
theorem Relocates.field {f : Field Schema} (relocates : Relocates s t f.schema) (valid : f.schema.Valid)
    (usable : ∀ name ∈ f.candidateNames, isFieldName name = true)
    (each : ∀ name ∈ f.candidateNames, s.Mirrors t (base.member name) (other.member name))
    (read : resolveField s.source base f = .ok found) : resolveField t.source other f = .ok found := by
  have matched : List.Forall₂ (Matches s t) (candidatesOf f base) (candidatesOf f other) :=
    forall₂_candidatesOf fun name mem _ => ⟨rfl, each name mem⟩
  rw [resolveField_eq usable, ← readAt_false] at read ⊢
  exact relocates valid matched read

theorem relocates (s t : Store) (schema : Schema) : Relocates s t schema := by
  intro cs ds sliced found valid matched read
  have paired : List.Forall₂ (Paired s.source t.source ⟨id, fun _ => True⟩ sliced sliced) cs ds :=
    matched.imp fun c d same => ⟨same.1, same.2.source, by rw [same.2.isRoot]⟩
  exact (transfers s.source t.source _ schema valid paired).eq_ok read

end Schema
end FlatStore
