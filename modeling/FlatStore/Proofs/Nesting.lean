import FlatStore.Proofs.Reload
import FlatStore.Proofs.Synthesized

/-!
How deep synthesis goes. Types may refer to the types around them, so that what ends synthesis is the count of levels
alone. The recursion that counts them upwards, with nothing said of the calls that it makes (`Synthesis.call`), is left
after so many nested calls that it does not matter what would be answered behind them
(`Synthesis.iterate_call_eq`). A schema nests no deeper than the levels that were left, but for the field for the tag of
a union, which is put into shapes that were not counted (`Synthesis.SchemaAt.within`). Both hold of every type in
`Descriptor.synthesize_bounded`.
-/
namespace FlatStore

/-! ### Calls -/

namespace Synthesis

attribute [ext] Level

variable (catalog : Catalog)

/-- What one call at a depth gives, if the calls that it makes give `rest` at theirs. A type and an embedded object lie
one level deeper and are refused behind the last level. The shapes of a union lie two levels deeper than its place. -/
def call (rest : Nat → Level) (depth : Nat) : Level where
  schema place type :=
    if maxDepth < depth + 1 then tooDeep place
    else schemaOf catalog (rest (depth + 1)) (rest (depth + 2)) place type
  shape place object :=
    shapeOf catalog (rest depth).schema
      (fun place object => if maxDepth < depth + 1 then tooDeep place else (rest (depth + 1)).shape place object)
      place object

def levelAt (depth : Nat) : Level := (levels catalog (maxDepth - depth)).1

theorem call_levelAt : call catalog (levelAt catalog) = levelAt catalog := by
  funext depth
  by_cases deep : maxDepth < depth + 1
  · have left : maxDepth - depth = 0 := by omega
    simp only [call, levelAt, if_pos deep, left]
    rfl
  · obtain ⟨n, left⟩ : ∃ n, maxDepth - depth = n + 1 := ⟨maxDepth - (depth + 1), by omega⟩
    have below : maxDepth - (depth + 1) = n := by omega
    have variants : maxDepth - (depth + 2) = n - 1 := by omega
    simp only [call, levelAt, if_neg deep, left, below, variants, ← levels_snd]
    rfl

variable {catalog}

/-- Calls that nest deeply enough give what is left at a depth, whatever is said of the calls behind them. Two calls are
made for every level, one for a type and one for its shape. -/
theorem iterate_call_eq (rest : Nat → Level) (calls depth : Nat) :
    (2 * (maxDepth - depth) < calls →
      ((call catalog)^[calls] rest depth).schema = (levelAt catalog depth).schema) ∧
    (2 * (maxDepth - depth) + 1 < calls → (call catalog)^[calls] rest depth = levelAt catalog depth) := by
  induction calls generalizing depth with
  | zero => exact ⟨fun bound => absurd bound (Nat.not_lt_zero _), fun bound => absurd bound (Nat.not_lt_zero _)⟩
  | succ calls ih =>
    rw [Function.iterate_succ_apply', ← congrFun (call_levelAt catalog) depth]
    have schemas : 2 * (maxDepth - depth) < calls + 1 → (call catalog ((call catalog)^[calls] rest) depth).schema =
        (call catalog (levelAt catalog) depth).schema := by
      intro bound
      simp only [call]
      by_cases deep : maxDepth < depth + 1
      · simp only [if_pos deep]
      · rw [(ih (depth + 1)).2 (by omega), (ih (depth + 2)).2 (by omega)]
    refine ⟨schemas, fun bound => Level.ext (schemas (by omega)) ?_⟩
    simp only [call]
    rw [(ih depth).1 (by omega)]
    by_cases deep : maxDepth < depth + 1
    · simp only [if_pos deep]
    · rw [(ih (depth + 1)).2 (by omega)]

end Synthesis

/-- Synthesis by nested calls, behind which `rest` is answered. -/
def Descriptor.synthesizeBy (catalog : Catalog) (rest : Nat → Synthesis.Level) (calls : Nat) (type : Descriptor) :
    Except SchemaError Schema := do
  let type := catalog.expand type
  let schema ← ((Synthesis.call catalog)^[calls] rest 0).schema (Synthesis.rootPlace type) type
  schema.validate
  return schema

/-! ### Depth of schemas -/

namespace Schema

/-- Whether a schema nests no deeper than a number of levels, the tag of a union on the last of them not counted. -/
def Within : Nat → Schema → Prop
  | 0, _ => False
  | n + 1, schema => ∀ part ∈ schema.children, part.Within n ∨
    n = 0 ∧ (∃ choice, schema = .union choice) ∧ part = .scalar .string

variable {n : Nat} {schema : Schema}

theorem within_scalar (kind : ScalarKind) : (scalar kind).Within (n + 1) :=
  fun _ mem => nomatch mem

theorem Within.succ (within : schema.Within n) : schema.Within (n + 1) := by
  induction n generalizing schema with
  | zero => exact within.elim
  | succ n ih =>
    intro part mem
    rcases within part mem with inner | ⟨rfl, -, rfl⟩
    · exact .inl (ih inner)
    · exact .inl (within_scalar _)

theorem Within.mono {m : Nat} (within : schema.Within m) (le : m ≤ n) : schema.Within n := by
  induction le with
  | refl => exact within
  | step _ ih => exact ih.succ

/-- A chain of schemas in one another is no longer than the levels, or ends with the tag of a union on the last. -/
theorem Within.chain {chain : List Schema} (within : schema.Within n)
    (nested : (schema :: chain).IsChain fun whole part => part ∈ whole.children) : (schema :: chain).length ≤ n ∨
      ∃ front choice, schema :: chain = front ++ [.union choice, .scalar .string] ∧ front.length + 1 = n := by
  induction chain generalizing n schema with
  | nil =>
    cases n with
    | zero => exact within.elim
    | succ n => exact .inl (by simp)
  | cons part rest ih =>
    obtain ⟨mem, below⟩ := List.isChain_cons_cons.1 nested
    cases n with
    | zero => exact within.elim
    | succ n =>
      rcases within part mem with inner | ⟨rfl, ⟨choice, rfl⟩, rfl⟩
      · rcases ih inner below with short | ⟨front, choice, same, levels⟩
        · exact .inl (Nat.succ_le_succ short)
        · refine .inr ⟨schema :: front, choice, ?_, ?_⟩
          · rw [same, List.cons_append]
          · rw [List.length_cons, levels]
      · -- nothing lies in a tag
        cases rest with
        | nil => exact .inr ⟨[], choice, rfl, rfl⟩
        | cons next _ => exact absurd (List.isChain_cons_cons.1 below).1 List.not_mem_nil

end Schema

namespace Synthesis

variable {catalog : Catalog} {n : Nat} {schema : Schema}

theorem within_withLimits {minItems maxItems : Option UInt64} (within : schema.Within n) :
    (withLimits minItems maxItems schema).Within n := by
  cases n with
  | zero => exact within.elim
  | succ n =>
    cases schema with
    | list items | set items =>
      intro part mem
      refine .inl ((within part mem).resolve_right ?_)
      rintro ⟨-, ⟨choice, union⟩, -⟩
      cases union
    | scalar | map | object | union => exact within

theorem within_unwrap (within : schema.Within n) : (unwrap schema).1.Within n := by
  rcases unwrap_fst schema with same | ⟨mem, inner, object⟩
  · rwa [same]
  · cases n with
    | zero => exact within.elim
    | succ n =>
      rcases within _ mem with inner | ⟨-, -, tag⟩
      · exact inner.succ
      · rw [object] at tag
        cases tag

theorem SchemaMade.within {type : Descriptor} (made : SchemaMade catalog (SchemaAt catalog n) (ShapeAt catalog n)
      (ShapeAt catalog (n - 1)) type schema)
    (schemas : ∀ type made, SchemaAt catalog n type made → made.Within n)
    (shapes : ∀ object made, ShapeAt catalog n object made → ∀ f ∈ made.fields, f.schema.Within n)
    (variants : ∀ object made, ShapeAt catalog (n - 1) object made → ∀ f ∈ made.fields, f.schema.Within (n - 1)) :
    schema.Within (n + 1) := by
  cases made with
  | scalar kind => exact Schema.within_scalar kind
  | optional inner => exact (schemas _ _ inner).succ
  | list element | set element =>
    intro part mem
    obtain rfl := List.mem_singleton.1 mem
    exact .inl (within_unwrap (schemas _ _ element))
  | map element =>
    intro part mem
    obtain rfl := List.mem_singleton.1 mem
    exact .inl (schemas _ _ element)
  | @object _ made own =>
    intro part mem
    obtain ⟨_, shape, f, held, rfl⟩ := Schema.exists_field_of_mem_children rfl mem
    cases List.mem_singleton.1 shape
    exact .inl (shapes _ _ own f held)
  | @union _ made own =>
    intro part mem
    obtain ⟨shape, shape_mem, f, declared, rfl⟩ := Schema.exists_field_of_mem_children rfl mem
    rcases own.fields (fun _ _ object made _ => variants object made) shape shape_mem f declared with inner | tag
    · exact .inl (inner.mono (Nat.sub_le n 1))
    · cases n with
      | zero => exact .inr ⟨rfl, ⟨made, rfl⟩, tag⟩
      | succ n => exact .inl (tag ▸ Schema.within_scalar _)

/-- A schema nests no deeper than the levels that were left for its type, and the fields of a shape no deeper than those
that were left behind it. -/
theorem within_of_levels (n : Nat) : (∀ type made, SchemaAt catalog n type made → made.Within n) ∧
    ∀ object made, ShapeAt catalog n object made → ∀ f ∈ made.fields, f.schema.Within n := by
  refine levels_induction (S := fun n _ made => made.Within n) (F := fun n _ made => made.Within n) ?_ ?_ ?_ n
  · intro n type made schemas shapes variants own
    exact own.within schemas shapes variants
  · intro n minItems maxItems made object f declared own
    exact within_withLimits own
  · intro n inner made object f declared type own
    exact own.succ

end Synthesis

/-- Synthesis ends for every type, also for those that refer to types around them: it is done by calls that nest to no
more than twice the levels, whatever would be answered behind them. In a schema that is synthesized no chain of schemas
in one another is longer than the levels, but for the tag of a union on the last of them, which is one more. -/
theorem Descriptor.synthesize_bounded (catalog : Catalog) (type : Descriptor) :
    (∀ rest calls, 2 * Synthesis.maxDepth < calls → type.synthesizeBy catalog rest calls = type.synthesize catalog) ∧
      ∀ schema, type.synthesize catalog = .ok schema →
        ∀ chain : List Schema, (schema :: chain).IsChain (fun whole part => part ∈ whole.children) →
          (schema :: chain).length ≤ Synthesis.maxDepth ∨ ∃ front choice,
            schema :: chain = front ++ [.union choice, .scalar .string] ∧ front.length + 1 = Synthesis.maxDepth := by
  refine ⟨fun rest calls enough => ?_, fun schema synthesized chain nested => ?_⟩
  · have same : ((Synthesis.call catalog)^[calls] rest 0).schema = (Synthesis.levelAt catalog 0).schema :=
      (Synthesis.iterate_call_eq rest calls 0).1 enough
    rw [Descriptor.synthesizeBy, same]
    rfl
  · have within := (Synthesis.within_of_levels Synthesis.maxDepth).1 _ _ (schemaAt_of_synthesize synthesized)
    exact within.chain nested

def Catalog.linked : Catalog := [("Node", .record "Node" [.of "next" "next" (.optional (.named "Node"))])]

theorem Descriptor.synthesize_bounded_linked :
    (named "Node").synthesizeBy .linked (fun _ => Synthesis.ground .linked) 129 = (named "Node").synthesize .linked ∧
      (named "Node").synthesize .linked =
        .error (.tooDeep ("Node" ++ String.join (List.replicate 64 ".next")) Synthesis.maxDepth) ∧
      (nested 2).synthesize [] = .ok (.nested 2) ∧
      [Schema.nested 2, Schema.nested 1, Schema.nested 0].length ≤ Synthesis.maxDepth := by
  have synthesized : (nested 2).synthesize [] = .ok (.nested 2) := by decide +kernel
  have chain : [Schema.nested 2, Schema.nested 1, Schema.nested 0].IsChain fun whole part => part ∈ whole.children :=
    .cons_cons (by decide) (.cons_cons (by decide) (.singleton _))
  refine ⟨(synthesize_bounded .linked (named "Node")).1 _ _ (by decide), by decide +kernel, synthesized, ?_⟩
  rcases (synthesize_bounded [] _).2 _ synthesized _ chain with short | ⟨front, choice, same, levels⟩
  · exact short
  · have length := congrArg List.length same
    rw [List.length_append] at length
    simp only [List.length_cons, List.length_nil, Synthesis.maxDepth] at length levels
    omega

/-- Objects that stand in one another around a union whose variant has no fields. -/
def Descriptor.tapAt : Nat → Descriptor
  | 0 => .union ⟨"Event", ⟨"type", "type"⟩, [⟨"Tap", ["tap"], none, .record "Tap" []⟩], none⟩
  | n + 1 => .record "Level" [.of "inner" "inner" (tapAt n)]

def Schema.tapAt : Nat → Schema
  | 0 =>
    .union ⟨"Event", ⟨"type", "type"⟩, [⟨"Tap", ["tap"], none, ⟨"Tap", [Synthesis.tagField ⟨"type", "type"⟩]⟩⟩],
      ⟨"EventBase", [Synthesis.tagField ⟨"type", "type"⟩]⟩⟩
  | n + 1 => .object ⟨"Level", [.plain "inner" (tapAt n)]⟩

theorem Schema.exists_chain_tapAt (n : Nat) : ∃ chain : List Schema,
    (tapAt n :: chain).IsChain (fun whole part => part ∈ whole.children) ∧ (tapAt n :: chain).length = n + 2 := by
  induction n with
  | zero =>
    refine ⟨[.scalar .string], .cons_cons ?_ (.singleton _), rfl⟩
    let tag := Synthesis.tagField ⟨"type", "type"⟩
    have declared : tag ∈ (⟨"EventBase", [tag]⟩ : Shape Schema).fields := List.mem_cons_self
    exact field_mem_children List.mem_cons_self declared
  | succ n ih =>
    obtain ⟨chain, nested, length⟩ := ih
    refine ⟨tapAt n :: chain, .cons_cons ?_ nested, by rw [List.length_cons, length]⟩
    let inner := Field.plain "inner" (tapAt n)
    have declared : inner ∈ (⟨"Level", [inner]⟩ : Shape Schema).fields := List.mem_cons_self
    exact field_mem_children List.mem_cons_self declared

/-- The tag of a union on the last level is put one level deeper, and nothing refuses it there. -/
theorem Descriptor.exceeds_tapAt : ∃ (schema : Schema) (chain : List Schema), (tapAt 63).synthesize [] = .ok schema ∧
    (schema :: chain).IsChain (fun whole part => part ∈ whole.children) ∧
      Synthesis.maxDepth < (schema :: chain).length := by
  obtain ⟨chain, nested, length⟩ := Schema.exists_chain_tapAt 63
  have synthesized : (tapAt 63).synthesize [] = .ok (Schema.tapAt 63) := by decide +kernel
  exact ⟨_, chain, synthesized, nested, by rw [length]; decide⟩

end FlatStore
