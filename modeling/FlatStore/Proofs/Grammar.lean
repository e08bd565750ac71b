import FlatStore.Json.Draft
import FlatStore.Proofs.Lexemes
import Mathlib.Data.List.Forall2

/-!
The grammar of JSON over tokens, and the reader of texts. A text that is one JSON value is read to its end
(`Draft.build_derives`). Where a reader finds a draft without a fault that would stop it, the text in front of what is
left is one JSON value (`Draft.derives_of_build`). In both cases the draft is that of the value, with what lies too deep
in it cut off (`Draft.clip`).
-/
namespace FlatStore.Draft

open Token (stops)

/-- Induction over drafts: what holds of a draft if it holds of the items or members in it holds of all. -/
@[elab_as_elim]
theorem partInduction {motive : Draft → Prop} (null : motive .null) (bool : ∀ b, motive (.bool b))
    (whole : ∀ n, motive (.whole n)) (float : ∀ x, motive (.float x)) (string : ∀ s, motive (.string s))
    (flawed : ∀ flaw, motive (.flawed flaw))
    (array : ∀ items closing, (∀ item ∈ items, motive item) → motive (.array items closing))
    (object : ∀ members closing, (∀ member ∈ members, motive member.2) → motive (.object members closing))
    (d : Draft) : motive d := by
  refine @Draft.rec motive (fun items => ∀ item ∈ items, motive item)
    (fun members => ∀ member ∈ members, motive member.2) (fun member => motive member.2) null bool whole float string
    flawed array object (by simp) ?_ (by simp) ?_ (fun _ _ ih => ih) d
  · exact fun head tail ihHead ihTail => List.forall_mem_cons.2 ⟨ihHead, ihTail⟩
  · exact fun head tail ihHead ihTail => List.forall_mem_cons.2 ⟨ihHead, ihTail⟩

/-! ### The grammar -/

/-- What a row of tokens may stand for. -/
inductive Part where
  | value (draft : Draft)
  | items (drafts : List Draft)
  | members (drafts : List (DraftName × Draft))

/-- The value that a token is on its own. -/
def ofToken? : Token → Option Draft
  | .null => some .null
  | .bool b => some (.bool b)
  | .whole n => some (.whole n)
  | .float x => some (.float x)
  | .text (.ok s) => some (.string s)
  | .text (.error flaw) | .flawed flaw => some (.flawed flaw)
  | _ => none

/-- The grammar of JSON: what rows of tokens are values, items or members. -/
inductive Derives : List Token → Part → Prop
  | token {token draft} : ofToken? token = some draft → Derives [token] (.value draft)
  | emptyArray : Derives [.openArray, .closeArray] (.value (.array [] none))
  | array {tokens items} : Derives tokens (.items items) →
      Derives (.openArray :: (tokens ++ [.closeArray])) (.value (.array items none))
  | item {tokens draft} : Derives tokens (.value draft) → Derives tokens (.items [draft])
  | moreItems {tokens others items draft} : Derives tokens (.items items) → Derives others (.value draft) →
      Derives (tokens ++ .comma :: others) (.items (items ++ [draft]))
  | emptyObject : Derives [.openObject, .closeObject] (.value (.object [] none))
  | object {tokens members} : Derives tokens (.members members) →
      Derives (.openObject :: (tokens ++ [.closeObject])) (.value (.object members none))
  | member {name tokens draft} : Derives tokens (.value draft) →
      Derives (.text name :: .colon :: tokens) (.members [(name, draft)])
  | moreMembers {tokens others members name draft} : Derives tokens (.members members) → Derives others (.value draft) →
      Derives (tokens ++ .comma :: .text name :: .colon :: others) (.members (members ++ [(name, draft)]))

/-- No two numbers stand side by side in a value. -/
theorem Derives.separated {tokens : List Token} {part : Part} (derives : Derives tokens part) :
    Token.Separated tokens := by
  unfold Token.Separated
  induction derives with
  | token => exact List.isChain_singleton _
  | emptyArray | emptyObject => simp [Token.isNumber]
  | array _ ih | object _ ih => simpa [List.isChain_cons, List.isChain_append, Token.isNumber] using ih
  | item _ ih => exact ih
  | moreItems _ _ first second =>
    simpa [List.isChain_cons, List.isChain_append, Token.isNumber] using ⟨first, second⟩
  | member _ ih => simpa [List.isChain_cons, Token.isNumber] using ih
  | moreMembers _ _ first second =>
    simpa [List.isChain_cons, List.isChain_append, Token.isNumber] using ⟨first, second⟩

/-! ### Values that lie too deep -/

/-- A container inside of a number of others. -/
def limitAt (depth : Nat) (container : Draft) : Draft :=
  if depth < maxDepth then container else .flawed ⟨.malformed, container.skipFault⟩

mutual
/-- A draft inside of a number of containers, with what lies too deep cut off. -/
def clip (depth : Nat) : Draft → Draft
  | .array items closing => limitAt depth (.array (clipItems (depth + 1) items) closing)
  | .object members closing => limitAt depth (.object (clipMembers (depth + 1) members) closing)
  | .null => .null
  | .bool b => .bool b
  | .whole n => .whole n
  | .float x => .float x
  | .string s => .string s
  | .flawed flaw => .flawed flaw
def clipItems (depth : Nat) : List Draft → List Draft
  | [] => []
  | item :: rest => clip depth item :: clipItems depth rest
def clipMembers (depth : Nat) : List (DraftName × Draft) → List (DraftName × Draft)
  | [] => []
  | (name, value) :: rest => (name, clip depth value) :: clipMembers depth rest
end

theorem clipItems_eq_map (depth : Nat) (items : List Draft) : clipItems depth items = items.map (clip depth) := by
  induction items with
  | nil => rfl
  | cons item rest ih => rw [clipItems, ih, List.map_cons]

theorem clipMembers_eq_map (depth : Nat) (members : List (DraftName × Draft)) :
    clipMembers depth members = members.map fun member => (member.1, clip depth member.2) := by
  induction members with
  | nil => rfl
  | cons member rest ih => rw [clipMembers, ih, List.map_cons]

theorem limit_eq (stack : List Frame) (container : Draft) : limit stack container = limitAt stack.length container := by
  have deep : (stack.take maxDepth).length < maxDepth ↔ stack.length < maxDepth := by
    rw [List.length_take]
    omega
  simp only [limit, limitAt, deep]

theorem skipFault_limitAt (depth : Nat) (container : Draft) : (limitAt depth container).skipFault = container.skipFault := by
  unfold limitAt
  split <;> rfl

/-- A token is a value at every depth. -/
theorem clip_ofToken {token : Token} {draft : Draft} (alone : ofToken? token = some draft) (depth : Nat) :
    clip depth draft = draft := by
  unfold ofToken? at alone
  split at alone <;> cases alone <;> rfl

theorem height_ofToken {token : Token} {draft : Draft} (alone : ofToken? token = some draft) : draft.height = 0 := by
  unfold ofToken? at alone
  split at alone <;> cases alone <;> rfl

theorem heightItems_le_iff {items : List Draft} {n : Nat} :
    heightItems items ≤ n ↔ ∀ item ∈ items, item.height ≤ n := by
  induction items with
  | nil => simp [heightItems]
  | cons item rest ih => rw [heightItems, Nat.max_le, ih, List.forall_mem_cons]

theorem heightMembers_le_iff {members : List (DraftName × Draft)} {n : Nat} :
    heightMembers members ≤ n ↔ ∀ member ∈ members, member.2.height ≤ n := by
  induction members with
  | nil => simp [heightMembers]
  | cons member rest ih => rw [heightMembers, Nat.max_le, ih, List.forall_mem_cons]

/-- What does not lie too deep stays. -/
theorem clip_eq_self {depth : Nat} {draft : Draft} (fits : depth + draft.height ≤ maxDepth) : clip depth draft = draft := by
  induction draft using partInduction generalizing depth with
  | null | bool | whole | float | string | flawed => rfl
  | array items closing ih =>
    rw [height] at fits
    have each := heightItems_le_iff.1 (show heightItems items ≤ maxDepth - (depth + 1) by omega)
    have same : clipItems (depth + 1) items = items := by
      rw [clipItems_eq_map]
      refine (List.map_congr_left fun item mem => ih item mem ?_).trans (List.map_id items)
      have := each item mem
      omega
    rw [clip, same, limitAt, if_pos (by omega)]
  | object members closing ih =>
    rw [height] at fits
    have each := heightMembers_le_iff.1 (show heightMembers members ≤ maxDepth - (depth + 1) by omega)
    have same : clipMembers (depth + 1) members = members := by
      have same : ∀ member ∈ members, (member.1, clip (depth + 1) member.2) = id member := fun member mem =>
        Prod.ext rfl (ih member mem (by have := each member mem; omega))
      rw [clipMembers_eq_map, List.map_congr_left same, List.map_id]
    rw [clip, same, limitAt, if_pos (by omega)]

/-! ### Drafts that are read -/

theorem exists_of_forall₂ {α β : Type} {R : α → β → Prop} {as : List α} {bs : List β} (each : List.Forall₂ R as bs) {a : α}
    (mem : a ∈ as) : ∃ b ∈ bs, R a b := by
  induction each with
  | nil => cases mem
  | cons here _ ih =>
    rcases List.mem_cons.1 mem with rfl | mem
    · exact ⟨_, List.mem_cons_self, here⟩
    · obtain ⟨b, held, related⟩ := ih mem
      exact ⟨b, List.mem_cons_of_mem _ held, related⟩

/-- Items are read if each of them is. -/
theorem readItems_eq_ok_iff {items : List Draft} {values : List Json} :
    readItems items = .ok values ↔ List.Forall₂ (fun item value => item.read = .ok value) items values := by
  induction items generalizing values with
  | nil => simp [readItems, eq_comm]
  | cons item rest ih =>
    rw [readItems, bind_eq_ok_iff, List.forall₂_cons_left_iff]
    simp only [bind_eq_ok_iff, ih]
    constructor
    · rintro ⟨value, read, others, later, same⟩
      cases same
      exact ⟨value, others, read, later, rfl⟩
    · rintro ⟨value, others, read, later, rfl⟩
      exact ⟨value, read, others, later, rfl⟩

theorem readName_eq_ok_iff {name : DraftName} {s : String} : readName name = .ok s ↔ name = .ok s := by
  cases name <;> simp [readName, Except.mapError]

/-- Members are read if each of their values is and their names are. -/
theorem readMembers_eq_ok_iff {members : List (DraftName × Draft)} {values : List (String × Json)} :
    readMembers members = .ok values ↔
      List.Forall₂ (fun member value => member.1 = .ok value.1 ∧ member.2.read = .ok value.2) members values := by
  induction members generalizing values with
  | nil => simp [readMembers, eq_comm]
  | cons member rest ih =>
    rw [readMembers, bind_eq_ok_iff, List.forall₂_cons_left_iff]
    simp only [bind_eq_ok_iff, readName_eq_ok_iff, ih]
    constructor
    · rintro ⟨name, named, value, read, others, later, same⟩
      cases same
      exact ⟨(name, value), others, ⟨named, read⟩, later, rfl⟩
    · rintro ⟨⟨name, value⟩, others, ⟨named, read⟩, later, rfl⟩
      exact ⟨name, named, value, read, others, later, rfl⟩

theorem close_eq_ok_iff {closing : Option Fault} : close closing = .ok () ↔ closing = none := by
  cases closing <;> simp [close]

theorem read_array_eq_ok_iff {items : List Draft} {closing : Option Fault} {value : Json} :
    (array items closing).read = .ok value ↔ closing = none ∧ ∃ values,
      List.Forall₂ (fun item value => item.read = .ok value) items values ∧ value = .array values := by
  rw [read, bind_eq_ok_iff]
  simp only [then_eq_ok_iff, readItems_eq_ok_iff, close_eq_ok_iff]
  constructor
  · rintro ⟨values, read, closed, same⟩
    cases same
    exact ⟨closed, values, read, rfl⟩
  · rintro ⟨closed, values, read, rfl⟩
    exact ⟨values, read, closed, rfl⟩

theorem read_object_eq_ok_iff {members : List (DraftName × Draft)} {closing : Option Fault} {value : Json} :
    (object members closing).read = .ok value ↔ closing = none ∧ ∃ values,
      List.Forall₂ (fun member value => member.1 = .ok value.1 ∧ member.2.read = .ok value.2) members values ∧
        value = .object (membersOf values) := by
  rw [read, bind_eq_ok_iff]
  simp only [then_eq_ok_iff, readMembers_eq_ok_iff, close_eq_ok_iff]
  constructor
  · rintro ⟨values, read, closed, same⟩
    cases same
    exact ⟨closed, values, read, rfl⟩
  · rintro ⟨closed, values, read, rfl⟩
    exact ⟨values, read, closed, rfl⟩

theorem read_limitAt {depth : Nat} {container : Draft} {value : Json}
    (read : (limitAt depth container).read = .ok value) : depth < maxDepth ∧ container.read = .ok value := by
  unfold limitAt at read
  split at read
  · next near => exact ⟨near, read⟩
  · cases read

/-- A draft that is read does not lie too deep. -/
theorem fits_of_read {depth : Nat} {draft : Draft} {value : Json} (within : depth ≤ maxDepth)
    (read : (clip depth draft).read = .ok value) : depth + draft.height ≤ maxDepth := by
  induction draft using partInduction generalizing depth value with
  | null | bool | whole | float | string | flawed => exact within
  | array items closing ih =>
    obtain ⟨room, read⟩ := read_limitAt read
    obtain ⟨-, values, each, -⟩ := read_array_eq_ok_iff.1 read
    have below : heightItems items ≤ maxDepth - (depth + 1) := heightItems_le_iff.2 fun item mem => by
      rw [clipItems_eq_map] at each
      obtain ⟨value, -, read⟩ := exists_of_forall₂ each (List.mem_map_of_mem mem)
      have := ih item mem (show depth + 1 ≤ maxDepth from room) read
      omega
    rw [height]
    omega
  | object members closing ih =>
    obtain ⟨room, read⟩ := read_limitAt read
    obtain ⟨-, values, each, -⟩ := read_object_eq_ok_iff.1 read
    have below : heightMembers members ≤ maxDepth - (depth + 1) := heightMembers_le_iff.2 fun member mem => by
      rw [clipMembers_eq_map] at each
      obtain ⟨value, -, -, read⟩ := exists_of_forall₂ each (List.mem_map_of_mem mem)
      have := ih member mem (show depth + 1 ≤ maxDepth from room) read
      omega
    rw [height]
    omega

/-! ### Steps -/

/-- Whether the next token may begin a value. -/
def Expected.IsValue (expected : Expected) : Prop := expected = .value ∨ expected = .itemOrEnd

/-- The ways to go on with a token. -/
inductive Moves : List Frame → Expected → Token → Progress → Prop
  | token {stack expected token draft} : expected.IsValue → ofToken? token = some draft →
      Moves stack expected token (finish draft stack)
  | openArray {stack expected} : expected.IsValue →
      Moves stack expected .openArray (.goOn (.array [] :: stack) .itemOrEnd)
  | openObject {stack expected} : expected.IsValue →
      Moves stack expected .openObject (.goOn (.object [] :: stack) .nameOrEnd)
  | closeArray {done stack expected} : expected = .itemOrEnd ∨ expected = .commaOrEnd →
      Moves (.array done :: stack) expected .closeArray (finish (limit stack (.array done.reverse none)) stack)
  | closeObject {done stack expected} : expected = .nameOrEnd ∨ expected = .commaOrEnd →
      Moves (.object done :: stack) expected .closeObject (finish (limit stack (.object done.reverse none)) stack)
  | nextItem {done stack} : Moves (.array done :: stack) .commaOrEnd .comma (.goOn (.array done :: stack) .value)
  | nextMember {done stack} : Moves (.object done :: stack) .commaOrEnd .comma (.goOn (.object done :: stack) .name)
  | name {stack expected name} : expected = .nameOrEnd ∨ expected = .name →
      Moves stack expected (.text name) (.goOn stack (.colon name))
  | colon {done stack name} : Moves (.object done :: stack) (.colon name) .colon (.goOn (.member done name :: stack) .value)

theorem moves_of_startValue {stack : List Frame} {expected : Expected} {token : Token} {progress : Progress}
    (isValue : expected.IsValue) (starts : startValue stack token = some progress) :
    Moves stack expected token progress := by
  unfold startValue at starts
  split at starts
  · cases starts; exact .openArray isValue
  · cases starts; exact .openObject isValue
  · cases starts; exact .token isValue rfl
  · cases starts; exact .token isValue rfl
  · cases starts; exact .token isValue rfl
  · cases starts; exact .token isValue rfl
  · cases starts; exact .token isValue rfl
  · cases starts; exact .token isValue rfl
  · cases starts; exact .token isValue rfl
  · cases starts

theorem moves_of_step {stack : List Frame} {expected : Expected} {token : Token} {progress : Progress}
    (steps : step stack expected token = some progress) : Moves stack expected token progress := by
  unfold step at steps
  split at steps
  · cases steps; exact .closeArray (.inl rfl)
  · cases steps; exact .closeArray (.inr rfl)
  · cases steps; exact .closeObject (.inl rfl)
  · cases steps; exact .closeObject (.inr rfl)
  · exact moves_of_startValue (.inl rfl) steps
  · exact moves_of_startValue (.inr rfl) steps
  · cases steps; exact .nextItem
  · cases steps; exact .nextMember
  · cases steps; exact .name (.inl rfl)
  · cases steps; exact .name (.inr rfl)
  · cases steps; exact .colon
  · cases steps

theorem step_isValue {stack : List Frame} {expected : Expected} {token : Token} (isValue : expected.IsValue)
    (other : token ≠ .closeArray) : step stack expected token = startValue stack token := by
  rcases isValue with rfl | rfl
  · rcases stack with _ | ⟨_ | _ | _, _⟩ <;> rfl
  · rcases stack with _ | ⟨_ | _ | _, _⟩ <;> cases token <;> first | rfl | exact absurd rfl other

theorem step_of_moves {stack : List Frame} {expected : Expected} {token : Token} {progress : Progress}
    (moves : Moves stack expected token progress) : step stack expected token = some progress := by
  cases moves with
  | token isValue alone =>
    rw [step_isValue isValue (by rintro rfl; cases alone)]
    unfold ofToken? at alone
    split at alone <;> cases alone <;> rfl
  | openArray isValue => exact step_isValue isValue nofun
  | openObject isValue => exact step_isValue isValue nofun
  | closeArray ends => rcases ends with rfl | rfl <;> rfl
  | closeObject ends => rcases ends with rfl | rfl <;> rfl
  | nextItem => rfl
  | nextMember => rfl
  | name awaited => rcases awaited with rfl | rfl <;> rcases stack with _ | ⟨_ | _ | _, _⟩ <;> rfl
  | colon => rfl

/-! ### Values are read to their end -/

/-- Reading on behind some progress. -/
def goOn (tokens : List Token) : Progress → Draft × List Token
  | .goOn stack expected => build stack expected tokens
  | .done value => (value, tokens)

variable {stack : List Frame} {expected : Expected} {tokens rest : List Token}

theorem build_cons {token : Token} {progress : Progress} (moves : Moves stack expected token progress) :
    build stack expected (token :: rest) = goOn rest progress := by
  rw [build, step_of_moves moves]
  cases progress <;> rfl

/-- A frame of items that have been read inside of a number of containers. -/
def Frame.ofItems (depth : Nat) (items : List Draft) : Frame := .array (clipItems (depth + 1) items).reverse

def Frame.ofMembers (depth : Nat) (members : List (DraftName × Draft)) : Frame :=
  .object (clipMembers (depth + 1) members).reverse

theorem Frame.take_ofItems (depth : Nat) (items : List Draft) (draft : Draft) :
    (Frame.ofItems depth items).take (clip (depth + 1) draft) = Frame.ofItems depth (items ++ [draft]) := by
  simp [Frame.ofItems, Frame.take, clipItems_eq_map]

theorem Frame.take_ofMembers (depth : Nat) (members : List (DraftName × Draft)) (name : DraftName) (draft : Draft) :
    (Frame.member (clipMembers (depth + 1) members).reverse name).take (clip (depth + 1) draft) =
      Frame.ofMembers depth (members ++ [(name, draft)]) := by
  simp [Frame.ofMembers, Frame.take, clipMembers_eq_map]

theorem limit_ofItems (stack : List Frame) (items : List Draft) :
    limit stack (.array (clipItems (stack.length + 1) items).reverse.reverse none) =
      clip stack.length (.array items none) := by
  rw [List.reverse_reverse, limit_eq, clip]

theorem limit_ofMembers (stack : List Frame) (members : List (DraftName × Draft)) :
    limit stack (.object (clipMembers (stack.length + 1) members).reverse.reverse none) =
      clip stack.length (.object members none) := by
  rw [List.reverse_reverse, limit_eq, clip]

/-- What reading the tokens of a part does, wherever the part may stand. -/
def Part.IsRead (tokens : List Token) : Part → Prop
  | .value draft => ∀ stack expected rest, expected.IsValue →
      build stack expected (tokens ++ rest) = goOn rest (finish (clip stack.length draft) stack)
  | .items drafts => ∀ stack expected rest, expected.IsValue →
      build (Frame.ofItems stack.length [] :: stack) expected (tokens ++ rest) =
        build (Frame.ofItems stack.length drafts :: stack) .commaOrEnd rest
  | .members drafts => ∀ stack rest,
      build (Frame.ofMembers stack.length [] :: stack) .nameOrEnd (tokens ++ rest) =
        build (Frame.ofMembers stack.length drafts :: stack) .commaOrEnd rest

/-- A value behind the name of a member is read into the object. -/
theorem build_member {members : List (DraftName × Draft)} {name : DraftName} {draft : Draft}
    (awaited : expected = .nameOrEnd ∨ expected = .name) (value : (Part.value draft).IsRead tokens) :
    build (Frame.ofMembers stack.length members :: stack) expected (.text name :: .colon :: (tokens ++ rest)) =
      build (Frame.ofMembers stack.length (members ++ [(name, draft)]) :: stack) .commaOrEnd rest := by
  rw [build_cons (.name awaited), goOn, Frame.ofMembers, build_cons .colon, goOn, value _ _ _ (.inl rfl),
    ← Frame.take_ofMembers]
  rfl

/-- What the grammar derives is read, whatever follows it. -/
theorem Derives.isRead {part : Part} (derives : Derives tokens part) : part.IsRead tokens := by
  induction derives with
  | token alone =>
    intro stack expected rest isValue
    rw [List.singleton_append, build_cons (.token isValue alone), clip_ofToken alone]
  | emptyArray =>
    intro stack expected rest isValue
    rw [List.cons_append, build_cons (.openArray isValue)]
    exact (build_cons (.closeArray (.inl rfl))).trans (congrArg (fun d => goOn rest (finish d stack))
      (limit_ofItems stack []))
  | array _ ih =>
    intro stack expected rest isValue
    rw [List.cons_append, List.append_assoc, build_cons (.openArray isValue)]
    refine (ih stack .itemOrEnd _ (.inr rfl)).trans ((build_cons (.closeArray (.inr rfl))).trans ?_)
    rw [limit_ofItems]
    rfl
  | @item tokens draft _ ih =>
    intro stack expected rest isValue
    rw [ih _ _ _ isValue, List.length_cons]
    exact congrArg (fun frame => build (frame :: stack) .commaOrEnd rest) (Frame.take_ofItems stack.length [] draft)
  | @moreItems tokens others items draft _ _ first second =>
    intro stack expected rest isValue
    rw [List.append_assoc, first _ _ _ isValue]
    refine (build_cons .nextItem).trans ((second _ _ _ (.inl rfl)).trans ?_)
    exact congrArg (fun frame => build (frame :: stack) .commaOrEnd rest) (Frame.take_ofItems stack.length items draft)
  | emptyObject =>
    intro stack expected rest isValue
    rw [List.cons_append, build_cons (.openObject isValue)]
    exact (build_cons (.closeObject (.inl rfl))).trans (congrArg (fun d => goOn rest (finish d stack))
      (limit_ofMembers stack []))
  | object _ ih =>
    intro stack expected rest isValue
    rw [List.cons_append, List.append_assoc, build_cons (.openObject isValue)]
    refine (ih stack _).trans ((build_cons (.closeObject (.inr rfl))).trans ?_)
    rw [limit_ofMembers]
    rfl
  | member _ ih => exact fun stack rest => build_member (.inl rfl) ih
  | moreMembers _ _ first second =>
    intro stack rest
    rw [List.append_assoc, first]
    exact (build_cons .nextMember).trans (build_member (.inr rfl) second)

/-- A value at the start of a row of tokens is read, and nothing behind it. -/
theorem build_derives {draft : Draft} (derives : Derives tokens (.value draft)) :
    build [] .value (tokens ++ rest) = (clip 0 draft, rest) :=
  derives.isRead [] .value rest (.inl rfl)

/-! ### What is read is a value -/

/-- The items in front of another one, each with a comma behind it. -/
def ItemsBefore (tokens : List Token) (items : List Draft) : Prop :=
  tokens = [] ∧ items = [] ∨ ∃ others, Derives others (.items items) ∧ tokens = others ++ [.comma]

def MembersBefore (tokens : List Token) (members : List (DraftName × Draft)) : Prop :=
  tokens = [] ∧ members = [] ∨ ∃ others, Derives others (.members members) ∧ tokens = others ++ [.comma]

/-- Whether a value is awaited inside of the open containers behind some tokens. -/
inductive Awaits : List Frame → List Token → Prop
  | start : Awaits [] []
  | item {stack before tokens items} : Awaits stack before → ItemsBefore tokens items →
      Awaits (.ofItems stack.length items :: stack) (before ++ .openArray :: tokens)
  | member {stack before tokens members name} : Awaits stack before → MembersBefore tokens members →
      Awaits (.member (clipMembers (stack.length + 1) members).reverse name :: stack)
        (before ++ .openObject :: (tokens ++ [.text name, .colon]))

/-- Whether the open containers and what is expected next are those behind some tokens. -/
def Begun (stack : List Frame) (expected : Expected) (tokens : List Token) : Prop :=
  match expected with
  | .value => Awaits stack tokens
  | .itemOrEnd => ∃ outer before, Awaits outer before ∧ stack = .ofItems outer.length [] :: outer ∧
      tokens = before ++ [.openArray]
  | .nameOrEnd => ∃ outer before, Awaits outer before ∧ stack = .ofMembers outer.length [] :: outer ∧
      tokens = before ++ [.openObject]
  | .name => ∃ outer before inner members, Awaits outer before ∧ Derives inner (.members members) ∧
      stack = .ofMembers outer.length members :: outer ∧ tokens = before ++ .openObject :: (inner ++ [.comma])
  | .colon name => ∃ outer before inner members, Awaits outer before ∧ MembersBefore inner members ∧
      stack = .ofMembers outer.length members :: outer ∧ tokens = before ++ .openObject :: (inner ++ [.text name])
  | .commaOrEnd => ∃ outer before inner, Awaits outer before ∧
      ((∃ items, Derives inner (.items items) ∧ stack = .ofItems outer.length items :: outer ∧
          tokens = before ++ .openArray :: inner) ∨
        ∃ members, Derives inner (.members members) ∧ stack = .ofMembers outer.length members :: outer ∧
          tokens = before ++ .openObject :: inner)

/-- Whether some progress is that behind some tokens. -/
def Reached (tokens : List Token) : Progress → Prop
  | .goOn stack expected => Begun stack expected tokens
  | .done value => ∃ draft, Derives tokens (.value draft) ∧ value = clip 0 draft

theorem Begun.awaits (begun : Begun stack expected tokens) (isValue : expected.IsValue) : Awaits stack tokens := by
  rcases isValue with rfl | rfl
  · exact begun
  · obtain ⟨outer, before, awaits, rfl, rfl⟩ := begun
    exact .item awaits (.inl ⟨rfl, rfl⟩)

/-- A value that is awaited is taken when it is complete. -/
theorem Awaits.reached {draft : Draft} {before : List Token} (awaits : Awaits stack before)
    (derives : Derives tokens (.value draft)) : Reached (before ++ tokens) (finish (clip stack.length draft) stack) := by
  cases awaits with
  | start => exact ⟨draft, derives, rfl⟩
  | @item stack before inner items awaits listed =>
    refine ⟨stack, before, inner ++ tokens, awaits, .inl ⟨items ++ [draft], ?_, ?_, by simp⟩⟩
    · rcases listed with ⟨rfl, rfl⟩ | ⟨others, listed, rfl⟩
      · exact .item derives
      · rw [List.append_assoc]
        exact .moreItems listed derives
    · rw [← Frame.take_ofItems]
      rfl
  | @member stack before inner members name awaits listed =>
    refine ⟨stack, before, inner ++ .text name :: .colon :: tokens, awaits,
      .inr ⟨members ++ [(name, draft)], ?_, ?_, by simp⟩⟩
    · rcases listed with ⟨rfl, rfl⟩ | ⟨others, listed, rfl⟩
      · exact .member derives
      · rw [List.append_assoc]
        exact .moreMembers listed derives
    · rw [← Frame.take_ofMembers]
      rfl

/-- A step goes on behind its token. -/
theorem Begun.step {token : Token} {progress : Progress} (begun : Begun stack expected tokens)
    (moves : Moves stack expected token progress) : Reached (tokens ++ [token]) progress := by
  cases moves with
  | @token _ _ _ draft isValue alone =>
    rw [← clip_ofToken alone stack.length]
    exact (begun.awaits isValue).reached (.token alone)
  | openArray isValue => exact ⟨stack, tokens, begun.awaits isValue, rfl, rfl⟩
  | openObject isValue => exact ⟨stack, tokens, begun.awaits isValue, rfl, rfl⟩
  | @closeArray done stack expected ends =>
    rcases ends with rfl | rfl
    · obtain ⟨outer, before, awaits, same, rfl⟩ := begun
      cases same
      rw [limit_ofItems stack [], List.append_assoc]
      exact awaits.reached .emptyArray
    · obtain ⟨outer, before, inner, awaits, ⟨items, derives, same, rfl⟩ | ⟨members, -, same, -⟩⟩ := begun
      · cases same
        rw [limit_ofItems, List.append_assoc]
        exact awaits.reached (.array derives)
      · cases same
  | @closeObject done stack expected ends =>
    rcases ends with rfl | rfl
    · obtain ⟨outer, before, awaits, same, rfl⟩ := begun
      cases same
      rw [limit_ofMembers stack [], List.append_assoc]
      exact awaits.reached .emptyObject
    · obtain ⟨outer, before, inner, awaits, ⟨items, -, same, -⟩ | ⟨members, derives, same, rfl⟩⟩ := begun
      · cases same
      · cases same
        rw [limit_ofMembers, List.append_assoc]
        exact awaits.reached (.object derives)
  | nextItem =>
    obtain ⟨outer, before, inner, awaits, ⟨items, derives, same, rfl⟩ | ⟨members, -, same, -⟩⟩ := begun
    · cases same
      rw [List.append_assoc]
      exact .item awaits (.inr ⟨inner, derives, rfl⟩)
    · cases same
  | nextMember =>
    obtain ⟨outer, before, inner, awaits, ⟨items, -, same, -⟩ | ⟨members, derives, same, rfl⟩⟩ := begun
    · cases same
    · cases same
      exact ⟨_, before, inner, members, awaits, derives, rfl, by simp⟩
  | name awaited =>
    rcases awaited with rfl | rfl
    · obtain ⟨outer, before, awaits, rfl, rfl⟩ := begun
      exact ⟨outer, before, [], [], awaits, .inl ⟨rfl, rfl⟩, rfl, by simp⟩
    · obtain ⟨outer, before, inner, members, awaits, derives, rfl, rfl⟩ := begun
      exact ⟨outer, before, inner ++ [.comma], members, awaits, .inr ⟨inner, derives, rfl⟩, rfl, by simp⟩
  | @colon done stack name =>
    obtain ⟨outer, before, inner, members, awaits, listed, same, rfl⟩ := begun
    cases same
    rw [List.append_assoc, List.cons_append, List.append_assoc]
    exact .member awaits listed

/-! ### Faults that stop every reader -/

theorem skipFault_abandon {value : Draft} (broken : value.skipFault ≠ none) (fault : Fault) (stack : List Frame) :
    (abandon fault value stack).skipFault ≠ none := by
  induction stack generalizing value with
  | nil => exact broken
  | cons frame stack ih =>
    refine ih ?_
    rw [limit_eq, skipFault_limitAt]
    cases frame <;> simp [Frame.take, Frame.draft, skipFault]

/-- A text that stops leaves a draft that cannot be skipped. -/
theorem skipFault_stop (stack : List Frame) (expected : Expected) (fault : Fault) :
    (stop stack expected fault).skipFault ≠ none := by
  have broken : (Draft.flawed (.hard fault)).skipFault ≠ none := nofun
  have inside : ∀ (frame : Frame) (stack : List Frame),
      (abandon fault (limit stack (frame.draft (some fault))) stack).skipFault ≠ none := by
    intro frame stack
    refine skipFault_abandon ?_ fault stack
    rw [limit_eq, skipFault_limitAt]
    cases frame <;> simp [Frame.draft, skipFault]
  unfold stop
  dsimp only
  split
  · exact skipFault_abandon broken fault _
  · exact skipFault_abandon broken fault _
  · exact skipFault_abandon broken fault _
  · exact inside _ _
  · exact broken

/-- A draft that can be skipped is that of a value, which stands in front of what is left. -/
theorem Begun.build {before : List Token} (begun : Begun stack expected before)
    (clean : (Draft.build stack expected tokens).1.skipFault = none) :
    ∃ value draft, before ++ tokens = value ++ (Draft.build stack expected tokens).2 ∧ Derives value (.value draft) ∧
      (Draft.build stack expected tokens).1 = clip 0 draft := by
  induction tokens generalizing stack expected before with
  | nil => exact absurd clean (skipFault_stop stack expected .truncated)
  | cons token rest ih =>
    cases steps : Draft.step stack expected token with
    | none =>
      rw [Draft.build, steps] at clean
      exact absurd clean (skipFault_stop stack expected .malformed)
    | some progress =>
      have moves := moves_of_step steps
      have reached := begun.step moves
      rw [build_cons moves] at clean ⊢
      cases progress with
      | goOn stack expected =>
        obtain ⟨value, draft, same, derives, found⟩ := ih reached clean
        exact ⟨value, draft, by simpa [goOn] using same, derives, found⟩
      | done value =>
        obtain ⟨draft, derives, rfl⟩ := reached
        exact ⟨_, draft, by simp [goOn], derives, rfl⟩

theorem derives_of_build (clean : (build [] .value tokens).1.skipFault = none) :
    ∃ value draft, tokens = value ++ (build [] .value tokens).2 ∧ Derives value (.value draft) ∧
      (build [] .value tokens).1 = clip 0 draft :=
  Begun.build (show Begun [] .value [] from .start) clean

theorem skipItems_eq_none_iff {items : List Draft} :
    skipItems items = none ↔ ∀ item ∈ items, item.skipFault = none := by
  induction items with
  | nil => simp [skipItems]
  | cons item rest ih => rw [skipItems, Option.or_eq_none_iff, ih, List.forall_mem_cons]

theorem skipMembers_eq_none_iff {members : List (DraftName × Draft)} : skipMembers members = none ↔
    ∀ member ∈ members, (Token.text member.1).stops = false ∧ member.2.skipFault = none := by
  induction members with
  | nil => simp [skipMembers]
  | cons member rest ih =>
    obtain ⟨name, value⟩ := member
    rw [List.forall_mem_cons, ← ih]
    rcases name with ⟨_, _ | fault⟩ | s <;> simp [skipMembers, stops]

theorem skipItems_map {f : Draft → Draft} {items : List Draft}
    (same : ∀ item ∈ items, (f item).skipFault = item.skipFault) : skipItems (items.map f) = skipItems items := by
  induction items with
  | nil => rfl
  | cons item rest ih =>
    obtain ⟨here, later⟩ := List.forall_mem_cons.1 same
    rw [List.map_cons, skipItems, skipItems, here, ih later]

theorem skipMembers_map {f : Draft → Draft} {members : List (DraftName × Draft)}
    (same : ∀ member ∈ members, (f member.2).skipFault = member.2.skipFault) :
    skipMembers (members.map fun member => (member.1, f member.2)) = skipMembers members := by
  induction members with
  | nil => rfl
  | cons member rest ih =>
    obtain ⟨⟨_, _ | fault⟩ | s, value⟩ := member <;> obtain ⟨here, later⟩ := List.forall_mem_cons.1 same <;>
      simp [skipMembers, here, ih later]

/-- What is cut off is skipped as before. -/
theorem skipFault_clip (depth : Nat) (draft : Draft) : (clip depth draft).skipFault = draft.skipFault := by
  induction draft using partInduction generalizing depth with
  | null | bool | whole | float | string | flawed => rfl
  | array items closing ih =>
    rw [clip, skipFault_limitAt, skipFault, skipFault, clipItems_eq_map, skipItems_map fun item mem => ih item mem _]
  | object members closing ih =>
    rw [clip, skipFault_limitAt, skipFault, skipFault, clipMembers_eq_map,
      skipMembers_map fun member mem => ih member mem _]

/-- The fault in what a row of tokens stands for that stops every reader. -/
def Part.skipFault : Part → Option Fault
  | .value draft => draft.skipFault
  | .items drafts => skipItems drafts
  | .members drafts => skipMembers drafts

/-- A reader that gets past a value gets past each of its tokens. -/
theorem Derives.passed {part : Part} (derives : Derives tokens part) (clean : part.skipFault = none) :
    ∀ token ∈ tokens, token.stops = false := by
  have single : ∀ {token : Token}, token.stops = false → ∀ t ∈ [token], t.stops = false :=
    fun passed => List.forall_mem_singleton.2 passed
  induction derives with
  | @token token draft alone =>
    refine single ?_
    unfold ofToken? at alone
    split at alone
    all_goals cases alone
    any_goals rfl
    all_goals
      next flaw =>
      obtain ⟨onRead, _ | fault⟩ := flaw
      · rfl
      · cases clean
  | emptyArray | emptyObject => exact List.forall_mem_cons.2 ⟨rfl, single rfl⟩
  | array _ ih | object _ ih =>
    exact List.forall_mem_cons.2 ⟨rfl, List.forall_mem_append.2 ⟨ih (Option.or_eq_none_iff.1 clean).1, single rfl⟩⟩
  | item _ ih => exact ih (skipItems_eq_none_iff.1 clean _ List.mem_cons_self)
  | moreItems _ _ first second =>
    obtain ⟨before, last⟩ := List.forall_mem_append.1 (skipItems_eq_none_iff.1 clean)
    exact List.forall_mem_append.2 ⟨first (skipItems_eq_none_iff.2 before),
      List.forall_mem_cons.2 ⟨rfl, second (last _ List.mem_cons_self)⟩⟩
  | member _ ih =>
    obtain ⟨name, value⟩ := skipMembers_eq_none_iff.1 clean _ List.mem_cons_self
    exact List.forall_mem_cons.2 ⟨name, List.forall_mem_cons.2 ⟨rfl, ih value⟩⟩
  | moreMembers _ _ first second =>
    obtain ⟨before, last⟩ := List.forall_mem_append.1 (skipMembers_eq_none_iff.1 clean)
    obtain ⟨name, value⟩ := List.forall_mem_singleton.1 last
    exact List.forall_mem_append.2 ⟨first (skipMembers_eq_none_iff.2 before), List.forall_mem_cons.2 ⟨rfl,
      List.forall_mem_cons.2 ⟨name, List.forall_mem_cons.2 ⟨rfl, second value⟩⟩⟩⟩

/-! ### Texts -/

variable {text : List UInt8}

/-- A row of lexemes that is a value is read, and nothing behind it. -/
theorem build_lexes {draft : Draft} (lexes : Token.Lexes text tokens) (derives : Derives tokens (.value draft))
    {behind : List UInt8} (apart : Token.Apart text behind) :
    build [] .value (Token.all (text ++ behind)) = (clip 0 draft, Token.all behind) := by
  rw [Token.all_lexes lexes derives.separated apart, build_derives derives]

/-- A text that is one value is read to its end. -/
theorem build_whole {draft : Draft} (lexes : Token.Lexes text tokens) (derives : Derives tokens (.value draft)) :
    build [] .value (Token.all text) = (clip 0 draft, []) := by
  have apart : Token.Apart text [] := fun _ _ _ => by simp [Token.Ends]
  have read := build_lexes lexes derives apart
  rw [List.append_nil] at read
  rw [read, Token.all]

/-- What is read from a text that a reader gets past is a row of lexemes that is a value. -/
theorem lexes_of_build (clean : (ofBytes text).skipFault = none) :
    ∃ value behind tokens draft, text = value ++ behind ∧ Token.Lexes value tokens ∧ Derives tokens (.value draft) ∧
      build [] .value (Token.all text) = (clip 0 draft, Token.all behind) := by
  obtain ⟨tokens, draft, same, derives, found⟩ := derives_of_build clean
  have whole : draft.skipFault = none := by
    rw [← skipFault_clip 0, ← found]
    exact clean
  obtain ⟨value, behind, lexes, rfl, left⟩ := Token.lexes_of_all same (derives.passed whole)
  exact ⟨value, behind, tokens, draft, rfl, lexes, derives, Prod.ext found left⟩

end FlatStore.Draft
