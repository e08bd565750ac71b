import FlatStore.Proofs.Failure

/-!
Counts that the entries of a store can back. A count is refused where it is larger than the number of all entries. What
a document writes are the counts of its own parts, and each element of a dense document adds an entry of its own, so
that no count of a dense document is refused (`Schema.Dense.count_le_size`). A refusal in resolving has no other cause than
a count that is too large (`Schema.exists_large_count`).
-/
namespace FlatStore

/-! ### Counts and their parts -/

namespace Schema

structure PartAt (inner : Schema) (y : Json) (b : Address) (own : Bool) (schema : Schema) (value : Json) (a : Address)
    (sliced : Bool) : Prop where
  part : Part inner y schema value
  valid : inner.Valid
  accepts : inner.Accepts y b own
  subset : inner.writes y b own ⊆ schema.writes value a sliced

variable {schema part inner : Schema} {value v y : Json} {a b c : Address} {sliced child own : Bool} {x : Scalar}

theorem PartAt.self (valid : schema.Valid) (ok : schema.Accepts value a sliced) :
    PartAt schema value a sliced schema value a sliced :=
  ⟨.self _ _, valid, ok, List.Subset.refl _⟩

theorem PartAt.step (below : PartAt inner y c own part v b child) (mem : (part, v) ∈ schema.parts value)
    (subset : part.writes v b child ⊆ schema.writes value a sliced) : PartAt inner y c own schema value a sliced :=
  ⟨.step mem below.part, below.valid, below.accepts, List.Subset.trans below.subset subset⟩

/-- A count is the first thing that is written of the part that it is the count of. -/
theorem count_written (valid : schema.Valid) (ok : schema.Accepts value a sliced)
    (mem : (.count b, x) ∈ schema.writes value a sliced) :
    ∃ inner y own, PartAt inner y b own schema value a sliced ∧
      (inner.writes y b own).head? = some (.count b, x) := by
  induction schema using formInduction generalizing value a sliced with
  | scalar kind =>
    have nonnull : value ≠ .null := by rintro rfl; simp at mem
    obtain ⟨leaf, -, written⟩ := ok.scalar nonnull
    rw [written] at mem
    cases List.mem_singleton.1 mem
  | items schema c form ih =>
    have nonnull : value ≠ .null := by rintro rfl; simp at mem
    obtain ⟨given, rfl, -, -, accepted, written⟩ := ok.items form nonnull
    rw [written] at mem
    rcases List.mem_cons.1 mem with first | later
    · cases first
      exact ⟨schema, _, sliced, .self valid ok, by rw [written]; rfl⟩
    · obtain ⟨part, held, mem⟩ := List.mem_flatMap.1 later
      obtain ⟨inner, y, own, below, head⟩ := ih (valid.element form).2 (accepted part held) mem
      refine ⟨inner, y, own, below.step ?_ ?_, head⟩
      · exact item_mem_parts form (mem_of_mem_arranged held)
      · rw [written]
        exact fun entry mem => List.mem_cons_of_mem _ (List.mem_flatMap.2 ⟨part, held, mem⟩)
  | map element ih =>
    have nonnull : value ≠ .null := by rintro rfl; simp at mem
    obtain ⟨members, rfl, accepted, written⟩ := ok.map nonnull
    rw [written] at mem
    rcases List.mem_cons.1 mem with first | later
    · cases first
      exact ⟨.map element, _, sliced, .self valid ok, by rw [written]; rfl⟩
    · obtain ⟨part, held, mem⟩ := List.mem_flatMap.1 later
      have mem : (.count b, x) ∈ element.writes part.1.2 (element.entryAddress (a.index part.2)) element.isBlock :=
        (List.mem_cons.1 mem).resolve_left (by simp)
      obtain ⟨inner, y, own, below, head⟩ := ih (valid_map_iff.1 valid).2.2 (accepted part held) mem
      refine ⟨inner, y, own, below.step ?_ ?_, head⟩
      · exact entry_mem_parts element (mem_of_mem_mapOrder held)
      · rw [written]
        intro entry mem
        exact List.mem_cons_of_mem _ (List.mem_flatMap.2 ⟨part, held, List.mem_cons_of_mem _ mem⟩)
  | block schema block ih =>
    have nonnull : value ≠ .null := by rintro rfl; simp at mem
    obtain ⟨members, rfl, -, accepted, written⟩ := ok.block block valid nonnull
    have shape_mem := shapeFor_mem_shapes block members
    rw [written] at mem
    rcases List.mem_append.1 mem with opened | later
    · obtain ⟨own, eq⟩ := mem_openBlock_iff.1 opened
      cases eq
      refine ⟨schema, _, sliced, .self valid ok, ?_⟩
      rw [written, Trace.openBlock, own]
      rfl
    · obtain ⟨held, mem_held, mem⟩ := List.mem_flatMap.1 later
      have declared := (mem_heldFields_iff.1 mem_held).1
      obtain ⟨inner, y, own, below, head⟩ := ih _ shape_mem held.1 declared
        ((valid.soundShape shape_mem).field_valid _ declared) (accepted held mem_held) mem
      refine ⟨inner, y, own, below.step ?_ ?_, head⟩
      · exact held_mem_parts block mem_held
      · rw [written]
        exact fun entry mem => List.mem_append_right _ (List.mem_flatMap.2 ⟨held, mem_held, mem⟩)

/-- A count is a number of parts, and each element of a dense collection writes something at its index. -/
theorem count_backed (valid : schema.Valid) (ok : schema.Accepts value a sliced)
    (mem : (.count b, x) ∈ schema.writes value a sliced) :
    ∃ n, x = .int (.ofNat n) ∧ (schema.Dense value → n ≤ 1 ∨
      ∀ i < n, ∃ entry ∈ schema.writes value a sliced, entry.1.Under (b.index i)) := by
  obtain ⟨inner, y, own, ⟨part, innerValid, accepts, subset⟩, head⟩ := count_written valid ok mem
  have nonnull : y ≠ .null := by rintro rfl; simp at head
  have indexed : ∀ {α : Type} (parts : List α), ∀ i < parts.length, ∃ part, (part, i) ∈ parts.zipIdx :=
    fun parts i bound => ⟨parts[i], List.mk_mem_zipIdx_iff_getElem?.2 (List.getElem?_eq_getElem bound)⟩
  induction inner using formInduction with
  | scalar kind =>
    obtain ⟨leaf, -, written⟩ := accepts.scalar nonnull
    simp [written] at head
  | items inner c form =>
    obtain ⟨given, rfl, -, -, accepted, written⟩ := accepts.items form nonnull
    rw [written] at head subset
    refine ⟨given.length, (Prod.mk.inj (Option.some.inj head)).2.symm, fun dense => .inr fun i bound => ?_⟩
    obtain ⟨item, held⟩ := indexed (inner.arranged given) i (by rwa [(inner.arranged_perm given).length_eq])
    have occupies := dense inner _ part c form given rfl item (mem_of_mem_arranged held)
    have some_written := (accepted _ held).element_writes (innerValid.element form).2 occupies
    obtain ⟨entry, mem⟩ := List.exists_mem_of_ne_nil _ some_written
    exact ⟨entry, subset (List.mem_cons_of_mem _ (List.mem_flatMap.2 ⟨_, held, mem⟩)), writes_under entry mem⟩
  | map element =>
    obtain ⟨members, rfl, accepted, written⟩ := accepts.map nonnull
    rw [written] at head subset
    refine ⟨members.length, (Prod.mk.inj (Option.some.inj head)).2.symm, fun _ => .inr fun i bound => ?_⟩
    obtain ⟨member, held⟩ := indexed (mapOrder members) i (by rwa [(mapOrder_perm members).length_eq])
    have key : (.leaf ((b.index i).member mapKeyField), .string member.1) ∈ element.entryWrites (b.index i) member :=
      List.mem_cons_self
    exact ⟨_, subset (List.mem_cons_of_mem _ (List.mem_flatMap.2 ⟨_, held, key⟩)), entryWrites_under _ key⟩
  | block inner block =>
    obtain ⟨members, rfl, -, accepted, written⟩ := accepts.block block innerValid nonnull
    rw [written] at head
    refine ⟨1, ?_, fun _ => .inl (Nat.le_refl 1)⟩
    rcases List.mem_append.1 (List.mem_of_mem_head? head) with opened | later
    · exact (Prod.mk.inj (mem_openBlock_iff.1 opened).2).2
    · obtain ⟨held, mem_held, mem⟩ := List.mem_flatMap.1 later
      have usable := (innerValid.soundShape (shapeFor_mem_shapes block members)).place_usable
        (mem_heldFields_iff.1 mem_held).1 held.2
      exact absurd (heldWrites_under _ mem) (Slot.not_under_block_member usable rfl)

/-! ### Counts and the size of the store -/

def CountAt (schema : Schema) (value : Json) (a : Address) (c : Int64) : Prop :=
  (.count a, .int c) ∈ schema.writes value .root false

variable {s : Store} {c : Int64}

theorem countAt_of_get? (valid : schema.Valid) (stored : schema.flatten value false = .ok s)
    (found : s.get? a.countKey = some x) : ∃ c, x = .int c ∧ schema.CountAt value a c := by
  have mem : (.count a, x) ∈ schema.writes value .root false := mem_writes_of_get? stored found
  obtain ⟨n, rfl, -⟩ := count_backed valid (flatten_eq_ok_iff.1 stored).1 mem
  exact ⟨_, rfl, mem⟩

theorem CountAt.get? (counted : schema.CountAt value a c) (stored : schema.flatten value false = .ok s) :
    ∃ x, s.get? a.countKey = some x := by
  obtain ⟨x, mem⟩ := Store.mem_keys_iff.1 (mem_keys_of_mem_slots stored (Writes.mem_slots_iff.2 ⟨_, counted⟩))
  exact ⟨x, Store.get?_eq_some_iff.2 mem⟩

theorem Dense.count_le_size (dense : schema.Dense value) (valid : schema.Valid)
    (stored : schema.flatten value false = .ok s) (counted : schema.CountAt value a c) : c.toInt ≤ s.size := by
  obtain ⟨n, eq, backed⟩ := count_backed valid (flatten_eq_ok_iff.1 stored).1 counted
  have le_size : n ≤ s.size := by
    rcases backed dense with one | each
    · obtain ⟨x, found⟩ := counted.get? stored
      have mem := Store.get?_eq_some_iff.1 found
      have some_entry := List.length_pos_of_mem mem
      rw [Store.size_eq_length]
      omega
    · refine s.le_size_of_indices (b := a) fun i bound => ?_
      obtain ⟨⟨slot, value⟩, mem, under⟩ := each i bound
      exact ⟨slot, under, mem_keys_of_mem_slots stored (Writes.mem_slots_iff.2 ⟨_, mem⟩)⟩
  have wrapped : (Int64.ofNat n).toInt ≤ n := by
    by_cases small : n < 2 ^ 63
    · rw [Int64.toInt_ofNat_of_lt small]
    · have most := (Int64.ofNat n).toInt_lt
      omega
  rw [Scalar.int.inj eq]
  omega

/-- A count of a document is read from its store exactly if it is still there and the entries can back it. -/
theorem CountAt.backedCount_iff (counted : schema.CountAt value a c) (valid : schema.Valid)
    (stored : schema.flatten value false = .ok s) :
    (∃ n : Nat, c.toInt = n ∧ s.source.backedCount a = .ok (some n)) ↔
      0 ≤ c.toInt ∧ c.toInt ≤ s.size ∧ s.get? a.countKey = some (.int c) := by
  obtain ⟨x, found⟩ := counted.get? stored
  obtain ⟨d, rfl, -⟩ := countAt_of_get? valid stored found
  rw [Store.backedCount_source, found]
  dsimp only
  constructor
  · rintro ⟨n, count, read⟩
    split at read
    · split at read
      · cases read
      · cases read
        exact ⟨by omega, by omega, congrArg (some ∘ Scalar.int) (Int64.toInt_inj.1 (by omega))⟩
    · cases read
  · rintro ⟨sign, small, same⟩
    cases same
    exact ⟨c.toInt.toNat, by omega, by rw [if_pos sign, if_neg (by omega)]⟩

theorem CountAt.kept (counted : schema.CountAt value a c) (apart : schema.Apart value) (valid : schema.Valid)
    (stored : schema.flatten value false = .ok s) : s.get? a.countKey = some (.int c) := by
  have nodup := (nodup_slots_iff valid (flatten_eq_ok_iff.1 stored).1).2 apart
  exact (holds_root stored nodup (.count a) (Slot.under_root _) _).2 counted

/-! ### Counts of documents -/

theorem exists_large_count (valid : schema.Valid) (stored : schema.flatten value false = .ok s) {path : String}
    {n entries : Nat} (refused : schema.resolveRoot s.source = .error (.store (.unbackedCount path n entries))) :
    ∃ a c, schema.CountAt value a c ∧ s.size < c.toInt := by
  by_contra! small
  cases (resolve_failsBy (.self schema)).1 .root false _ refused with
  | get failed => cases failed
  | @count b e failed =>
    rw [Store.backedCount_source] at failed
    cases found : s.get? b.countKey with
    | none =>
      rw [found] at failed
      cases failed
    | some x =>
      obtain ⟨c, rfl, counted⟩ := countAt_of_get? valid stored found
      have backed := small b c counted
      rw [found] at failed
      by_cases sign : 0 ≤ c.toInt
      · simp only [sign, if_true, if_neg (show ¬ s.size < c.toInt.toNat by omega)] at failed
        cases failed
      · simp only [sign, if_false] at failed
        cases failed

/-- A count that a document writes is read back from its store exactly if no later write replaces it and the entries
can back it. The first holds if the blocks of the document keep their fields apart, and the second if the elements of
its lists and sets all store something; without a count that is too large nothing is refused in resolving. -/
theorem counts_of_flatten (valid : schema.Valid) (stored : schema.flatten value false = .ok s) :
    (∀ a c, schema.CountAt value a c → ((∃ n : Nat, c.toInt = n ∧ s.source.backedCount a = .ok (some n)) ↔
        0 ≤ c.toInt ∧ c.toInt ≤ s.size ∧ s.get? a.countKey = some (.int c))) ∧
      (schema.Apart value → ∀ a c, schema.CountAt value a c → s.get? a.countKey = some (.int c)) ∧
      (schema.Dense value → ∀ a c, schema.CountAt value a c → c.toInt ≤ s.size) ∧
      ∀ path n entries, schema.resolveRoot s.source = .error (.store (.unbackedCount path n entries)) →
        ∃ a c, schema.CountAt value a c ∧ s.size < c.toInt :=
  ⟨fun _ _ counted => counted.backedCount_iff valid stored,
    fun apart _ _ counted => counted.kept apart valid stored,
    fun dense _ _ counted => dense.count_le_size valid stored counted,
    fun _ _ _ refused => exists_large_count valid stored refused⟩

/-- A list of objects, each with an optional note. -/
def notes : Schema :=
  .list (.of (.object ⟨"Item", [⟨"note", "note", .scalar .string, true, false, [], none⟩]⟩))

def twoNotes : Json := .array [.object [("note", .string "a")], .object [("note", .string "b")]]

theorem counts_of_twoNotes : ∃ s, notes.Valid ∧ notes.flatten twoNotes false = .ok s ∧
    notes.CountAt twoNotes .root 2 ∧ ∃ n : Nat, (2 : Int64).toInt = n ∧ s.source.backedCount .root = .ok (some n) := by
  have valid : notes.Valid := by decide
  have stored : notes.flatten twoNotes false = .ok (.ofList (notes.writes twoNotes .root false).entries) :=
    flatten_eq_ok_iff.2 ⟨by rw [Accepts]; decide, rfl⟩
  have counted : notes.CountAt twoNotes .root 2 := List.mem_cons_self
  refine ⟨_, valid, stored, counted, ((counts_of_flatten valid stored).1 .root 2 counted).2 ⟨by decide, ?_, ?_⟩⟩
  · rw [Store.size_eq_length, Store.toList_ofList]
    decide +kernel
  · rw [Store.get?_eq_lookup, Store.toList_ofList]
    decide +kernel

/-- Two items without a note, of which nothing is stored but their number. -/
def twoBlanks : Json := .array [.object [], .object []]

theorem counts_of_twoBlanks : ∃ s, notes.Valid ∧ notes.flatten twoBlanks false = .ok s ∧
    notes.CountAt twoBlanks .root 2 ∧ s.source.backedCount .root = .error (.unbackedCount "" 2 1) ∧
    notes.resolveRoot s.source = .error (.store (.unbackedCount "" 2 1)) := by
  have stored : notes.flatten twoBlanks false = .ok (.ofList (notes.writes twoBlanks .root false).entries) :=
    flatten_eq_ok_iff.2 ⟨by rw [Accepts]; decide, rfl⟩
  have backed : (Store.ofList (notes.writes twoBlanks .root false).entries).source.backedCount .root =
      .error (.unbackedCount "" 2 1) := by
    rw [Store.backedCount_source, Store.get?_eq_lookup, Store.size_eq_length, Store.toList_ofList]
    rfl
  refine ⟨_, by decide, stored, List.mem_cons_self, backed, ?_⟩
  rw [resolveRoot, resolve_items rfl, resolveItems, storedCount, backed]
  rfl

end Schema
end FlatStore
