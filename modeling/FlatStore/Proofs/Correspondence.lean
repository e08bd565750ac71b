import FlatStore.Proofs.Outcome
import Mathlib.Data.List.Forall2

/-!
Reads that correspond. Where one source answers at an address and below it as another does at an address of its own,
both are read in the same way: the values are the same, and so are the errors up to the addresses in them
(`Schema.transfers`). It can be left open what becomes of some of the errors.
-/
namespace FlatStore

/-! ### Errors at other addresses -/

/-- The error with its written address changed. -/
def StoreError.relabel (path : String → String) : StoreError → StoreError
  | .ambiguousRoot place size => .ambiguousRoot (path place) size
  | .badCount place found => .badCount (path place) found
  | .unbackedCount place count entries => .unbackedCount (path place) count entries

/-- The error with its written address changed. -/
def ResolveError.relabel (path : String → String) : ResolveError → ResolveError
  | .store error => .store (error.relabel path)
  | .typeMismatch place expected found value => .typeMismatch (path place) expected found value
  | .missingMapKey place => .missingMapKey (path place)
  | .tooManyItems place count max => .tooManyItems (path place) count max
  | .address fault => .address fault

theorem StoreError.relabel_id (error : StoreError) : error.relabel id = error := by
  cases error <;> rfl

theorem ResolveError.relabel_id (error : ResolveError) : error.relabel id = error := by
  cases error with
  | store error => exact congrArg ResolveError.store error.relabel_id
  | typeMismatch | missingMapKey | tooManyItems | address => rfl

/-- What becomes of the errors of one read in another: how the addresses in them change, and which errors are excused,
so that anything may stand in their place. -/
structure Transfer where
  path : String → String
  excused : ResolveError → Prop

/-- Whether an outcome is that of another read: related results, or the same error with its address changed. -/
def Corresponds (τ : Transfer) {α β : Type} (related : α → β → Prop) : Resolved α → Resolved β → Prop
  | .ok a, second => ∃ b, second = .ok b ∧ related a b
  | .error e, second => ¬ τ.excused e → second = .error (e.relabel τ.path)

namespace Corresponds

variable {τ : Transfer} {α β γ δ : Type} {related : α → β → Prop} {later : γ → δ → Prop} {x : Resolved α}
  {y : Resolved β} {z : Resolved α}

theorem pure {a : α} {b : β} (same : related a b) : Corresponds τ related (pure a) (pure b) := ⟨b, rfl, same⟩

theorem error {e e' : ResolveError} (same : ¬ τ.excused e → e.relabel τ.path = e') :
    Corresponds τ related (.error e) (.error e') :=
  fun unexcused => congrArg Except.error (same unexcused).symm

theorem bind {f : α → Resolved γ} {g : β → Resolved δ} (first : Corresponds τ related x y)
    (behind : ∀ a b, related a b → Corresponds τ later (f a) (g b)) : Corresponds τ later (x >>= f) (y >>= g) := by
  cases x with
  | error e =>
    intro unexcused
    rw [first unexcused]
    rfl
  | ok a =>
    obtain ⟨b, rfl, same⟩ := first
    exact behind a b same

/-- What is done with equal results corresponds if it does for each result. -/
theorem bind_eq {f : α → Resolved γ} {g : α → Resolved δ} (first : Corresponds τ Eq x z)
    (behind : ∀ a, Corresponds τ later (f a) (g a)) : Corresponds τ later (x >>= f) (z >>= g) :=
  first.bind fun a _ same => same ▸ behind a

theorem map (f : α → γ) (first : Corresponds τ Eq x z) : Corresponds τ Eq (f <$> x) (f <$> z) := by
  rw [map_eq_pure_bind, map_eq_pure_bind]
  exact first.bind_eq fun a => .pure rfl

theorem mapM {f g : α → Resolved γ} {items : List α} (each : ∀ item ∈ items, Corresponds τ Eq (f item) (g item)) :
    Corresponds τ Eq (items.mapM f) (items.mapM g) := by
  induction items with
  | nil => exact .pure rfl
  | cons item rest ih =>
    obtain ⟨here, later⟩ := List.forall_mem_cons.1 each
    rw [List.mapM_cons, List.mapM_cons]
    exact here.bind_eq fun first => (ih later).bind_eq fun others => .pure rfl

/-- A result is found just so. -/
theorem eq_ok {a : α} (first : Corresponds τ Eq x z) (read : x = .ok a) : z = .ok a := by
  subst read
  obtain ⟨b, there, rfl⟩ := first
  exact there

/-- An outcome that is not excused is found just so, up to the address in an error. -/
theorem eq_mapError (first : Corresponds τ Eq x z) (unexcused : ∀ e, x = .error e → ¬ τ.excused e) :
    z = x.mapError (·.relabel τ.path) := by
  cases x with
  | ok a => exact first.eq_ok rfl
  | error e => exact first (unexcused e rfl)

end Corresponds

/-! ### Counts -/

/-- Whether counts are refused in one source for want of entries as in another, or refused less often and it is excused
that they are. -/
def Source.Backs (source target : Source) (τ : Transfer) : Prop :=
  target.size? = source.size? ∨ (∀ place n entries, τ.excused (.store (.unbackedCount place n entries))) ∧
    ∀ m, target.size? = some m → ∃ n, source.size? = some n ∧ n ≤ m

namespace Schema

variable {source target : Source} {τ : Transfer} {a b : Address}

/-- The count of a collection is read first, and then compared with the number of entries. -/
theorem storedCount_eq (source : Source) (a : Address) : storedCount source a = do
    match ← (source.count a).mapError ResolveError.store, source.size? with
    | some n, some entries => if entries < n then throw (.store (.unbackedCount a.text n entries)) else return some n
    | count, _ => return count := by
  rw [storedCount, Source.backedCount]
  cases source.count a with
  | error e => rfl
  | ok count =>
    cases count with
    | none => rfl
    | some n =>
      cases source.size? with
      | none => rfl
      | some entries =>
        simp only [ok_bind, mapError_ok]
        split <;> rfl

/-- A count that is backed corresponds if the count does. -/
theorem storedCount_corresponds (path : ∀ e, ¬ τ.excused e → τ.path a.text = b.text) (backs : source.Backs target τ)
    (count : Corresponds τ Eq ((source.count a).mapError ResolveError.store)
      ((target.count b).mapError ResolveError.store)) :
    Corresponds τ Eq (storedCount source a) (storedCount target b) := by
  rw [storedCount_eq, storedCount_eq]
  refine count.bind_eq fun count => ?_
  cases count with
  | none => exact .pure rfl
  | some n =>
    rcases backs with same | ⟨excused, fewer⟩
    · rw [same]
      cases source.size? with
      | none => exact .pure rfl
      | some entries =>
        by_cases large : entries < n
        · simp only [large, if_true]
          exact .error fun unexcused => by rw [ResolveError.relabel, StoreError.relabel, path _ unexcused]
        · simp only [large, if_false]
          exact .pure rfl
    · cases later : target.size? with
      | none =>
        cases source.size? with
        | none => exact .pure rfl
        | some entries =>
          dsimp only
          split
          · exact fun unexcused => absurd (excused _ _ _) unexcused
          · exact .pure rfl
      | some more =>
        obtain ⟨entries, known, least⟩ := fewer more later
        rw [known]
        by_cases large : entries < n
        · simp only [large, if_true]
          exact fun unexcused => absurd (excused _ _ _) unexcused
        · have backed : ¬ more < n := by omega
          simp only [large, backed, if_false]
          exact .pure rfl

/-- A count is the same in stores with the same scalar at its key. -/
theorem count_corresponds {s t : Store} (path : ∀ e, ¬ τ.excused e → τ.path a.text = b.text)
    (same : t.get? b.countKey = s.get? a.countKey) : Corresponds τ Eq ((s.source.count a).mapError ResolveError.store)
      ((t.source.count b).mapError ResolveError.store) := by
  have bad : ∀ found, Corresponds τ (@Eq (Option Nat))
      (.error (.store (.badCount a.text found))) (.error (.store (.badCount b.text found))) :=
    fun found => .error fun unexcused => by rw [ResolveError.relabel, StoreError.relabel, path _ unexcused]
  change Corresponds τ Eq ((countOf a (s.get? a.countKey)).mapError _) ((countOf b (t.get? b.countKey)).mapError _)
  rw [same]
  cases s.get? a.countKey with
  | none => exact .pure rfl
  | some x =>
    cases x with
    | int n =>
      rw [countOf, countOf]
      split
      · exact .pure rfl
      · exact bad _
    | bool | float | string => exact bad _

end Schema

/-! ### Sources that answer alike -/

/-- The address that segments lead to. -/
def Address.below (a : Address) (rest : List Segment) : Address := ⟨a.segments ++ rest⟩

namespace Address

variable {a : Address}

/-- What segments add to the written form of an address. -/
theorem text_below (below : a.isRoot = false) (rest : List Segment) :
    (a.below rest).text = a.text ++ if rest = [] then "" else "." ++ ".".intercalate (rest.map Segment.text) := by
  have some_segment : a.segments.map Segment.text ≠ [] := by simpa [isRoot] using below
  by_cases last : rest = []
  · simp [Address.below, text, last]
  · rw [if_neg last, Address.below, text, List.map_append,
      String.intercalate_append_of_ne_nil some_segment (by simpa using last), text, String.append_assoc]

theorem below_nil (a : Address) : a.below [] = a := by
  simp [Address.below]

theorem below_cons (a : Address) (segment : Segment) (rest : List Segment) :
    (a.child segment).below rest = a.below (segment :: rest) := by
  simp [Address.below, child]

theorem isRoot_below (below : a.isRoot = false) (rest : List Segment) : (a.below rest).isRoot = false := by
  have some_segment : a.segments ≠ [] := by simpa [isRoot] using below
  simp [Address.below, isRoot, some_segment]

end Address

/-- Whether a source answers at an address and below it as another does at an address and below it. Addresses matter
where errors do. -/
structure Source.Mirrors (source target : Source) (τ : Transfer) (a b : Address) : Prop where
  path : ∀ rest e, ¬ τ.excused e → τ.path (a.below rest).text = (b.below rest).text
  stored : ∀ rest, Corresponds τ Eq (Schema.stored source (a.below rest)) (Schema.stored target (b.below rest))
  count : ∀ rest, Corresponds τ Eq ((source.count (a.below rest)).mapError .store)
    ((target.count (b.below rest)).mapError .store)
  backs : source.Backs target τ

namespace Source.Mirrors

variable {source target : Source} {τ : Transfer} {a b : Address} {sliced sliced' : Bool}

theorem text (mirrors : source.Mirrors target τ a b) {e : ResolveError} (unexcused : ¬ τ.excused e) :
    τ.path a.text = b.text := by
  simpa [Address.below] using mirrors.path [] e unexcused

theorem scalar (mirrors : source.Mirrors target τ a b) :
    Corresponds τ Eq (Schema.stored source a) (Schema.stored target b) := by
  simpa [Address.below] using mirrors.stored []

theorem size (mirrors : source.Mirrors target τ a b) :
    Corresponds τ Eq ((source.count a).mapError ResolveError.store) ((target.count b).mapError ResolveError.store) := by
  simpa [Address.below] using mirrors.count []

theorem storedCount (mirrors : source.Mirrors target τ a b) :
    Corresponds τ Eq (Schema.storedCount source a) (Schema.storedCount target b) :=
  Schema.storedCount_corresponds (fun _ => mirrors.text) mirrors.backs mirrors.size

theorem child (mirrors : source.Mirrors target τ a b) (segment : Segment) :
    source.Mirrors target τ (a.child segment) (b.child segment) where
  path := fun rest => by simpa [Address.below, Address.child] using mirrors.path (segment :: rest)
  stored := fun rest => by simpa [Address.below, Address.child] using mirrors.stored (segment :: rest)
  count := fun rest => by simpa [Address.below, Address.child] using mirrors.count (segment :: rest)
  backs := mirrors.backs

theorem index (mirrors : source.Mirrors target τ a b) (i : Nat) :
    source.Mirrors target τ (a.index i) (b.index i) :=
  mirrors.child (.index i)

theorem member (mirrors : source.Mirrors target τ a b) (name : String) :
    source.Mirrors target τ (a.member name) (b.member name) := by
  by_cases usable : isFieldName name = true
  · rw [Address.member_eq usable, Address.member_eq usable]
    exact mirrors.child _
  · rw [Address.member, Address.member, dif_neg usable, dif_neg usable]
    exact mirrors

theorem block (mirrors : source.Mirrors target τ a b) (own : (sliced || a.isRoot) = (sliced' || b.isRoot)) :
    source.Mirrors target τ (a.block sliced) (b.block sliced') := by
  rw [Address.block, Address.block, own]
  split
  · exact mirrors
  · exact mirrors.index 0

end Source.Mirrors

/-- Whether a source answers below an address as another does below an address, and has the same count there. What
scalars stand at the two addresses is left open. -/
structure Source.MirrorsBelow (source target : Source) (τ : Transfer) (a b : Address) : Prop where
  text : ∀ e, ¬ τ.excused e → τ.path a.text = b.text
  size : Corresponds τ Eq ((source.count a).mapError .store) ((target.count b).mapError .store)
  child : ∀ segment, source.Mirrors target τ (a.child segment) (b.child segment)
  backs : source.Backs target τ

theorem Source.Mirrors.below {source target : Source} {τ : Transfer} {a b : Address}
    (mirrors : source.Mirrors target τ a b) : source.MirrorsBelow target τ a b :=
  ⟨fun _ => mirrors.text, mirrors.size, mirrors.child, mirrors.backs⟩

namespace Source.MirrorsBelow

variable {source target : Source} {τ : Transfer} {a b : Address} {sliced sliced' : Bool}

theorem storedCount (mirrors : source.MirrorsBelow target τ a b) :
    Corresponds τ Eq (Schema.storedCount source a) (Schema.storedCount target b) :=
  Schema.storedCount_corresponds mirrors.text mirrors.backs mirrors.size

theorem index (mirrors : source.MirrorsBelow target τ a b) (i : Nat) :
    source.Mirrors target τ (a.index i) (b.index i) :=
  mirrors.child (.index i)

theorem member (mirrors : source.MirrorsBelow target τ a b) {name : String} (usable : isFieldName name = true) :
    source.Mirrors target τ (a.member name) (b.member name) := by
  rw [Address.member_eq usable, Address.member_eq usable]
  exact mirrors.child _

theorem block (mirrors : source.MirrorsBelow target τ a b) (own : (sliced || a.isRoot) = (sliced' || b.isRoot)) :
    source.MirrorsBelow target τ (a.block sliced) (b.block sliced') := by
  rw [Address.block, Address.block, own]
  split
  · exact mirrors
  · exact (mirrors.index 0).below

end Source.MirrorsBelow

namespace Schema

variable {source target : Source} {τ : Transfer} {schema : Schema} {choice : TaggedUnion Schema}
  {a b base other : Address} {sliced sliced' : Bool} {cs ds : List Candidate}

/-! ### Scalars and blocks -/

theorem unexpected_corresponds {α β : Type} {related : α → β → Prop} (mirrors : source.Mirrors target τ a b)
    (kind : ScalarKind) (found : Scalar) :
    Corresponds τ related (.error (unexpected a kind found)) (.error (unexpected b kind found)) :=
  .error fun unexcused => by rw [unexpected, ResolveError.relabel, mirrors.text unexcused, unexpected]

theorem resolveScalar_corresponds (mirrors : source.Mirrors target τ a b) (kind : ScalarKind) :
    Corresponds τ Eq (resolveScalar source kind a) (resolveScalar target kind b) := by
  refine mirrors.scalar.bind_eq fun found => ?_
  cases found with
  | none => exact .pure rfl
  | some x =>
    by_cases same : x.kind = kind
    · simp only [same, if_true]
      exact .pure rfl
    · simp only [same, if_false]
      exact unexpected_corresponds mirrors kind x

theorem present_corresponds (mirrors : source.MirrorsBelow target τ a b)
    (own : (sliced || a.isRoot) = (sliced' || b.isRoot)) :
    Corresponds τ Eq (present source a sliced) (present target b sliced') := by
  rw [present, present, own]
  split
  · exact .pure rfl
  · refine mirrors.size.bind_eq fun n => ?_
    split <;> exact .pure rfl

theorem basePresent_corresponds {tagName : String} (usable : isFieldName tagName = true)
    (mirrors : source.MirrorsBelow target τ a b) (own : (sliced || a.isRoot) = (sliced' || b.isRoot)) :
    Corresponds τ Eq (basePresent source tagName a sliced) (basePresent target tagName b sliced') := by
  refine (present_corresponds mirrors own).bind_eq fun there => ?_
  cases there with
  | true => exact .pure rfl
  | false =>
    rw [Address.append_eq usable, Address.append_eq usable]
    exact ((mirrors.index 0).member tagName).scalar.bind_eq fun found => .pure rfl

/-! ### Collections -/

theorem resolveItems_corresponds {element later : Address → Resolved Json} {maxItems : Option UInt64}
    {wrapper : Option String} (mirrors : source.MirrorsBelow target τ a b)
    (each : ∀ i, Corresponds τ Eq (element (a.index i)) (later (b.index i))) :
    Corresponds τ Eq (resolveItems source element maxItems wrapper a)
      (resolveItems target later maxItems wrapper b) := by
  have items : ∀ n (wrap : Json → Json), Corresponds τ Eq
      (do
        let items ← (List.range n).mapM fun i => do return wrap (← element (a.index i))
        return some (Json.array items))
      (do
        let items ← (List.range n).mapM fun i => do return wrap (← later (b.index i))
        return some (Json.array items)) := by
    intro n wrap
    refine .bind_eq (.mapM fun i _ => ?_) fun items => .pure rfl
    exact (each i).bind_eq fun item => .pure rfl
  refine mirrors.storedCount.bind_eq fun n => ?_
  cases n with
  | none => exact .pure rfl
  | some n =>
    cases maxItems with
    | none => cases wrapper <;> exact items n _
    | some max =>
      by_cases exceeded : max.toNat < n
      · simp only [exceeded, if_true]
        exact .error fun unexcused => by rw [ResolveError.relabel, mirrors.text _ unexcused]
      · simp only [exceeded, if_false]
        cases wrapper <;> exact items n _

theorem resolveEntry_corresponds {element later : Address → Resolved Json} (mirrors : source.Mirrors target τ a b)
    (value : Corresponds τ Eq (element a) (later b)) :
    Corresponds τ Eq (resolveEntry source element a) (resolveEntry target later b) := by
  have unkeyed : Corresponds τ (@Eq (String × Json))
      (.error (.missingMapKey a.text)) (.error (.missingMapKey b.text)) :=
    .error fun unexcused => by rw [ResolveError.relabel, mirrors.text unexcused]
  rw [resolveEntry, resolveEntry, Address.field_eq_member, Address.field_eq_member]
  refine (mirrors.member mapKeyName.text).scalar.bind_eq fun key => ?_
  cases key with
  | none => exact unkeyed
  | some x =>
    cases x with
    | string key => exact value.bind_eq fun found => .pure rfl
    | bool | int | float => exact unkeyed

theorem resolveEntries_corresponds {element later : Address → Resolved Json}
    (mirrors : source.MirrorsBelow target τ a b)
    (each : ∀ i, Corresponds τ Eq (element (a.index i)) (later (b.index i))) :
    Corresponds τ Eq (resolveEntries source element a) (resolveEntries target later b) := by
  refine mirrors.storedCount.bind_eq fun n => ?_
  cases n with
  | none => exact .pure rfl
  | some n =>
    refine .bind_eq (.mapM fun i _ => ?_) fun members => .pure rfl
    exact resolveEntry_corresponds (mirrors.index i) (each i)

/-! ### Candidates -/

/-- Whether the same is read at two candidates. -/
structure Paired (source target : Source) (τ : Transfer) (sliced sliced' : Bool) (c d : Candidate) : Prop where
  only : c.only = d.only
  mirrors : source.Mirrors target τ c.address d.address
  own : (sliced || c.address.isRoot) = (sliced' || d.address.isRoot)

/-- Whether the same is read at two candidates by whatever reads no scalar there. -/
structure PairedBelow (source target : Source) (τ : Transfer) (sliced sliced' : Bool) (c d : Candidate) : Prop where
  only : c.only = d.only
  mirrors : source.MirrorsBelow target τ c.address d.address
  own : (sliced || c.address.isRoot) = (sliced' || d.address.isRoot)

theorem Paired.below {c d : Candidate} (pair : Paired source target τ sliced sliced' c d) :
    PairedBelow source target τ sliced sliced' c d :=
  ⟨pair.only, pair.mirrors.below, pair.own⟩

theorem resolveFirst_corresponds {read later : Address → Resolved (Option Json)}
    (paired : List.Forall₂ (Paired source target τ sliced sliced') cs ds)
    (each : ∀ c d, Paired source target τ sliced sliced' c d → Corresponds τ Eq (read c.address) (later d.address)) :
    Corresponds τ Eq (resolveFirst read cs) (resolveFirst later ds) := by
  induction paired with
  | nil => exact .pure rfl
  | cons head _ ih =>
    refine (each _ _ head).bind_eq fun found => ?_
    cases found with
    | some value => exact .pure rfl
    | none => exact ih

/-- The candidates of a field in two blocks are related if those with the same name are. -/
theorem forall₂_candidatesOf {f : Field Schema} {related : Candidate → Candidate → Prop}
    (each : ∀ name ∈ f.candidateNames, ∀ only, related ⟨base.member name, only⟩ ⟨other.member name, only⟩) :
    List.Forall₂ related (candidatesOf f base) (candidatesOf f other) := by
  refine List.rel_append (.cons (each f.name (name_mem_candidateNames f) none) ?_) ?_
  · rw [List.forall₂_map_left_iff, List.forall₂_map_right_iff, List.forall₂_same]
    rintro ⟨i, segment⟩ mem
    exact each segment (segment_mem_candidateNames mem) _
  · rw [List.forall₂_map_left_iff, List.forall₂_map_right_iff, List.forall₂_same]
    exact fun name mem => each name (alias_mem_candidateNames mem) none

/-- The candidates of a field are paired if its candidate names are. -/
theorem candidates_paired {f : Field Schema} (usable : ∀ name ∈ f.candidateNames, isFieldName name = true)
    (each : ∀ name ∈ f.candidateNames, source.Mirrors target τ (base.member name) (other.member name)) :
    List.Forall₂ (Paired source target τ false false) (candidatesOf f base) (candidatesOf f other) := by
  refine forall₂_candidatesOf fun name mem only => ⟨rfl, each name mem, ?_⟩
  rw [Address.isRoot_member (usable name mem), Address.isRoot_member (usable name mem)]

/-! ### Unions -/

/-- Whether the same variant is chosen, or the base, in blocks where the same is read. -/
def SameChoice (source target : Source) (τ : Transfer) (choice : TaggedUnion Schema)
    (x y : Address × Option (Variant Schema)) : Prop :=
  x.2 = y.2 ∧ choice.shapeAs x.2 ∈ choice.shapes ∧ source.MirrorsBelow target τ x.1 y.1

/-- An admitted variant is one of the union. -/
theorem mem_variants_of_admitted {only : Option Nat} {tag : String} {v : Variant Schema}
    (admitted : choice.admitted only tag = some v) : v ∈ choice.variants := by
  cases only with
  | none => exact List.mem_of_find?_eq_some admitted
  | some i => exact List.mem_of_getElem? (Option.filter_eq_some_iff.1 admitted).1

section
variable (usable : isFieldName choice.discriminator.name = true)
include usable

theorem chosenVariant_corresponds (paired : List.Forall₂ (PairedBelow source target τ sliced sliced') cs ds) :
    Corresponds τ (Option.Rel fun x y => SameChoice source target τ choice (x.1, some x.2) (y.1, some y.2))
      (chosenVariant source choice sliced cs) (chosenVariant target choice sliced' ds) := by
  induction paired with
  | nil => exact .pure .none
  | @cons c d _ _ head _ ih =>
    -- the tags are the same, so that both candidates are passed by or both decide
    have inner := head.mirrors.block head.own
    have tagged := inner.member usable
    rw [chosenVariant, chosenVariant, Address.append_eq usable, Address.append_eq usable]
    refine tagged.scalar.bind_eq fun found => ?_
    cases found with
    | none => exact ih
    | some x =>
      cases x with
      | string tag =>
        dsimp only
        rw [← head.only]
        cases admitted : choice.admitted c.only tag with
        | none => exact ih
        | some v =>
          have shape : v.shape ∈ choice.shapes :=
            List.mem_cons_of_mem _ (List.mem_map_of_mem (mem_variants_of_admitted admitted))
          exact .pure (.some ⟨rfl, shape, inner⟩)
      | bool | int | float => exact unexpected_corresponds tagged _ _

theorem chosenBase_corresponds {first second : List Address} (paired : List.Forall₂ (fun a b =>
      source.MirrorsBelow target τ a b ∧ (sliced || a.isRoot) = (sliced' || b.isRoot)) first second) :
    Corresponds τ (Option.Rel fun a b => source.MirrorsBelow target τ (a.block sliced) (b.block sliced'))
      (chosenBase source choice sliced first) (chosenBase target choice sliced' second) := by
  induction paired with
  | nil => exact .pure .none
  | cons head _ ih =>
    refine (basePresent_corresponds usable head.1 head.2).bind_eq fun there => ?_
    cases there with
    | true => exact .pure (.some (head.1.block head.2))
    | false => exact ih

/-- The same variant, or the base, is chosen at candidates that are paired. -/
theorem chosen_corresponds (paired : List.Forall₂ (PairedBelow source target τ sliced sliced') cs ds) :
    Corresponds τ (Option.Rel (SameChoice source target τ choice))
      (chosen source choice sliced cs) (chosen target choice sliced' ds) := by
  have shared : List.Forall₂
      (fun a b => source.MirrorsBelow target τ a b ∧ (sliced || a.isRoot) = (sliced' || b.isRoot))
      ((cs.filter (·.only.isNone)).map Candidate.address) ((ds.filter (·.only.isNone)).map Candidate.address) := by
    rw [List.forall₂_map_left_iff, List.forall₂_map_right_iff]
    refine (List.rel_filter (fun c d same => ?_) paired).imp fun c d same => ⟨same.mirrors, same.own⟩
    dsimp only
    rw [same.only]
  refine (chosenVariant_corresponds usable paired).bind fun x y related => ?_
  cases related with
  | some same => exact .pure (.some same)
  | none =>
    refine (chosenBase_corresponds usable shared).bind fun x y related => ?_
    cases related with
    | none => exact .pure .none
    | some mirrors => exact .pure (.some ⟨rfl, List.mem_cons_self, mirrors⟩)

end

/-! ### All values -/

/-- Whether what is read by a schema corresponds at candidates that are paired. -/
def Transfers (source target : Source) (τ : Transfer) (schema : Schema) : Prop :=
  ∀ {cs ds sliced sliced'}, schema.Valid → List.Forall₂ (Paired source target τ sliced sliced') cs ds →
    Corresponds τ Eq (schema.readAt source cs sliced) (schema.readAt target ds sliced')

theorem Transfers.resolve (transfers : Transfers source target τ schema) (valid : schema.Valid)
    (mirrors : source.Mirrors target τ a b) (own : (sliced || a.isRoot) = (sliced' || b.isRoot)) :
    Corresponds τ Eq (schema.resolve source a sliced) (schema.resolve target b sliced') := by
  have paired : List.Forall₂ (Paired source target τ sliced sliced') [⟨a, none⟩] [⟨b, none⟩] :=
    .cons ⟨rfl, mirrors, own⟩ .nil
  rw [← readAt_single, ← readAt_single]
  exact transfers valid paired

theorem Transfers.field {f : Field Schema} (transfers : Transfers source target τ f.schema) (valid : f.schema.Valid)
    (usable : ∀ name ∈ f.candidateNames, isFieldName name = true)
    (each : ∀ name ∈ f.candidateNames, source.Mirrors target τ (base.member name) (other.member name)) :
    Corresponds τ Eq (resolveField source base f) (resolveField target other f) := by
  rw [resolveField_eq usable, resolveField_eq usable, ← readAt_false, ← readAt_false]
  exact transfers valid (candidates_paired usable each)

/-- The fields of a block correspond if each of them does. -/
theorem resolveFields_corresponds {fields : List (Field Schema)}
    (each : ∀ f ∈ fields, Corresponds τ Eq (resolveField source base f) (resolveField target other f)) :
    Corresponds τ Eq (resolveFields source base fields) (resolveFields target other fields) := by
  induction fields with
  | nil => exact .pure rfl
  | cons f rest ih =>
    obtain ⟨here, later⟩ := List.forall_mem_cons.1 each
    rw [resolveFields_cons, resolveFields_cons]
    exact here.bind_eq fun found => (ih later).bind_eq fun members => .pure rfl

private theorem shape_corresponds {shape : Shape Schema} (sound : SoundShape shape)
    (ih : ∀ f ∈ shape.fields, Transfers source target τ f.schema) (mirrors : source.MirrorsBelow target τ base other) :
    Corresponds τ Eq (resolveFields source base shape.fields) (resolveFields target other shape.fields) :=
  resolveFields_corresponds fun f mem => Transfers.field (ih f mem) (sound.field_valid f mem)
    (sound.candidate_usable mem) fun name candidate => mirrors.member (sound.candidate_usable mem name candidate)

private theorem items_correspond {c : Collection Schema} (form : schema.collection? = some c)
    (ih : Transfers source target τ c.element) (valid : schema.Valid) (mirrors : source.MirrorsBelow target τ a b) :
    Corresponds τ Eq (schema.resolve source a sliced) (schema.resolve target b sliced') := by
  rw [resolve_items form, resolve_items form]
  refine resolveItems_corresponds mirrors fun i => ?_
  exact (ih.resolve (valid.element form).2 (mirrors.index i) rfl).map _

private theorem map_corresponds {element : Schema} (ih : Transfers source target τ element)
    (valid : (map element).Valid) (mirrors : source.MirrorsBelow target τ a b) :
    Corresponds τ Eq ((map element).resolve source a sliced) ((map element).resolve target b sliced') := by
  rw [resolve_map, resolve_map]
  refine resolveEntries_corresponds mirrors fun i => .map _ ?_
  have inner := mirrors.index i
  unfold entryAddress
  cases element.isBlock with
  | true => exact ih.resolve (valid_map_iff.1 valid).2.2 inner rfl
  | false =>
    have own : ∀ b : Address, (false || (b.member mapValueField).isRoot) = false :=
      fun b => Address.isRoot_member (by decide)
    exact ih.resolve (valid_map_iff.1 valid).2.2 (inner.member mapValueField) ((own _).trans (own _).symm)

private theorem object_corresponds {shape : Shape Schema}
    (ih : ∀ f ∈ shape.fields, Transfers source target τ f.schema) (valid : (object shape).Valid)
    (mirrors : source.MirrorsBelow target τ a b) (own : (sliced || a.isRoot) = (sliced' || b.isRoot)) :
    Corresponds τ Eq ((object shape).resolve source a sliced) ((object shape).resolve target b sliced') := by
  rw [resolve_object, resolve_object]
  refine (present_corresponds mirrors own).bind_eq fun there => ?_
  cases there with
  | false => exact .pure rfl
  | true =>
    have fields := shape_corresponds (valid_object_iff.1 valid) ih (mirrors.block own)
    exact fields.bind_eq fun members => .pure rfl

private theorem choice_corresponds
    (ih : ∀ shape ∈ choice.shapes, ∀ f ∈ shape.fields, Transfers source target τ f.schema)
    (valid : (union choice).Valid) (paired : List.Forall₂ (PairedBelow source target τ sliced sliced') cs ds) :
    Corresponds τ Eq (resolveChoice source choice sliced cs) (resolveChoice target choice sliced' ds) := by
  obtain ⟨-, usable, -, -, sound⟩ := valid_union_iff.1 valid
  rw [resolveChoice_eq_chosen, resolveChoice_eq_chosen]
  refine (chosen_corresponds usable paired).bind fun x y related => ?_
  cases related with
  | none => exact .pure rfl
  | @some x y same =>
    obtain ⟨base, variant⟩ := x
    obtain ⟨other, variant'⟩ := y
    obtain ⟨rfl, own, mirrors⟩ := same
    exact (shape_corresponds (sound _ own) (ih _ own) mirrors).bind_eq fun members => .pure rfl

/-- Whatever is read at an address corresponds to what is read at another where the source answers alike. -/
theorem transfers (source target : Source) (τ : Transfer) (schema : Schema) : Transfers source target τ schema := by
  induction schema using formInduction with
  | scalar kind =>
    intro cs ds sliced sliced' valid paired
    rw [readAt_first (by simp), readAt_first (by simp)]
    exact resolveFirst_corresponds paired fun c d pair => resolveScalar_corresponds pair.mirrors kind
  | items schema c form ih =>
    intro cs ds sliced sliced' valid paired
    have other : ∀ choice, schema ≠ .union choice := by
      rintro choice rfl
      cases form
    rw [readAt_first other, readAt_first other]
    exact resolveFirst_corresponds paired fun c d pair => items_correspond form ih valid pair.mirrors.below
  | map element ih =>
    intro cs ds sliced sliced' valid paired
    rw [readAt_first (by simp), readAt_first (by simp)]
    exact resolveFirst_corresponds paired fun c d pair => map_corresponds ih valid pair.mirrors.below
  | block schema block ih =>
    intro cs ds sliced sliced' valid paired
    cases schema with
    | object shape =>
      rw [readAt_first (by simp), readAt_first (by simp)]
      refine resolveFirst_corresponds paired fun c d pair => ?_
      exact object_corresponds (ih shape List.mem_cons_self) valid pair.mirrors.below pair.own
    | union choice => exact choice_corresponds ih valid (paired.imp fun c d pair => pair.below)
    | scalar | list | set | map => cases block

/-- No schema but a scalar reads what stands at the address itself. -/
theorem resolve_corresponds_of_below (other : ∀ kind, schema ≠ .scalar kind) (valid : schema.Valid)
    (mirrors : source.MirrorsBelow target τ a b) (own : (sliced || a.isRoot) = (sliced' || b.isRoot)) :
    Corresponds τ Eq (schema.resolve source a sliced) (schema.resolve target b sliced') := by
  have all := transfers source target τ
  cases schema with
  | scalar kind => exact absurd rfl (other kind)
  | list c | set c => exact items_correspond rfl (all c.element) valid mirrors
  | map element => exact map_corresponds (all element) valid mirrors
  | object shape => exact object_corresponds (fun f _ => all f.schema) valid mirrors own
  | union choice =>
    rw [resolve_union, resolve_union]
    exact choice_corresponds (fun _ _ f _ => all f.schema) valid (.cons ⟨rfl, mirrors, own⟩ .nil)

end Schema

/-! ### Stores -/

/-- A store that holds the same at an address and below it as another elsewhere answers alike. -/
theorem Source.Mirrors.of_stores {s t : Store} {τ : Transfer} {a b : Address}
    (path : ∀ rest e, ¬ τ.excused e → τ.path (a.below rest).text = (b.below rest).text)
    (leaf : ∀ rest, t.get? (b.below rest).text = s.get? (a.below rest).text)
    (count : ∀ rest, t.get? (b.below rest).countKey = s.get? (a.below rest).countKey)
    (backs : s.source.Backs t.source τ) : s.source.Mirrors t.source τ a b where
  path := path
  stored := fun rest => by
    rw [Store.stored_source, Store.stored_source, leaf]
    exact .pure rfl
  count := fun rest => Schema.count_corresponds (path rest) (count rest)
  backs := backs

end FlatStore
