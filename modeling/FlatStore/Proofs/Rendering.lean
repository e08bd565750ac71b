import FlatStore.Proofs.Numeral
import Std.Data.String.ToInt

/-!
The written form of JSON values. Whatever may follow a value in a document, the value can be told from the text: no two
values have the same compact form (`Json.render_injective`).
-/
namespace FlatStore.Json

/-- Induction over values: what holds of a value if it holds of the items or members in it holds of all. -/
@[elab_as_elim]
theorem partInduction {motive : Json → Prop} (null : motive .null) (bool : ∀ b, motive (.bool b))
    (whole : ∀ n, motive (.whole n)) (float : ∀ x, motive (.float x)) (string : ∀ s, motive (.string s))
    (array : ∀ items, (∀ item ∈ items, motive item) → motive (.array items))
    (object : ∀ members, (∀ member ∈ members, motive member.2) → motive (.object members)) (v : Json) : motive v := by
  refine @Json.rec motive (fun items => ∀ item ∈ items, motive item) (fun members => ∀ member ∈ members, motive member.2)
    (fun member => motive member.2) null bool whole float string array object (by simp) ?_ (by simp) ?_
    (fun _ _ ih => ih) v
  · exact fun head tail ihHead ihTail => List.forall_mem_cons.2 ⟨ihHead, ihTail⟩
  · exact fun head tail ihHead ihTail => List.forall_mem_cons.2 ⟨ihHead, ihTail⟩

/-! ### Strings -/

/-- The number of a hexadecimal digit. -/
def hexValue (c : Char) : Nat := if c.toNat < 58 then c.toNat - 48 else c.toNat - 87

/-- Reads a string up to its closing quote, and what follows it. -/
def unquote : List Char → Option (List Char × List Char)
  | [] => none
  | '"' :: rest => some ([], rest)
  | '\\' :: '"' :: rest => (unquote rest).map fun (s, r) => ('"' :: s, r)
  | '\\' :: '\\' :: rest => (unquote rest).map fun (s, r) => ('\\' :: s, r)
  | '\\' :: 'n' :: rest => (unquote rest).map fun (s, r) => ('\n' :: s, r)
  | '\\' :: 'r' :: rest => (unquote rest).map fun (s, r) => ('\r' :: s, r)
  | '\\' :: 't' :: rest => (unquote rest).map fun (s, r) => ('\t' :: s, r)
  | '\\' :: 'b' :: rest => (unquote rest).map fun (s, r) => ('\x08' :: s, r)
  | '\\' :: 'f' :: rest => (unquote rest).map fun (s, r) => ('\x0c' :: s, r)
  | '\\' :: 'u' :: '0' :: '0' :: high :: low :: rest =>
    (unquote rest).map fun (s, r) => (Char.ofNat (16 * hexValue high + hexValue low) :: s, r)
  | c :: rest => (unquote rest).map fun (s, r) => (c :: s, r)

theorem hexValue_hexDigit {n : Nat} (small : n < 16) : hexValue (hexDigit n) = n := by
  have each : ∀ n < 16, hexValue (hexDigit n) = n := by decide
  exact each n small

/-- A character is read back from its escape. -/
theorem unquote_escape (c : Char) (text : List Char) :
    unquote (escape c ++ text) = (unquote text).map fun (s, rest) => (c :: s, rest) := by
  unfold escape
  by_cases quote : c = '"'
  · simp [quote, unquote]
  by_cases backslash : c = '\\'
  · simp [backslash, unquote]
  by_cases line : c = '\n'
  · simp [line, unquote]
  by_cases back : c = '\r'
  · simp [back, unquote]
  by_cases tab : c = '\t'
  · simp [tab, unquote]
  by_cases erase : c = '\x08'
  · simp [erase, unquote]
  by_cases feed : c = '\x0c'
  · simp [feed, unquote]
  by_cases control : c.toNat < 32
  · have read : 16 * hexValue (hexDigit (c.toNat / 16)) + hexValue (hexDigit (c.toNat % 16)) = c.toNat := by
      rw [hexValue_hexDigit (by omega), hexValue_hexDigit (by omega)]
      omega
    simp [quote, backslash, line, back, tab, erase, feed, control, unquote, read]
  · simp [quote, backslash, line, back, tab, erase, feed, control, unquote]

theorem unquote_quote (s rest : List Char) : unquote (s.flatMap escape ++ '"' :: rest) = some (s, rest) := by
  induction s with
  | nil => rfl
  | cons c s ih => rw [List.flatMap_cons, List.append_assoc, unquote_escape, ih, Option.map_some]

/-- The characters of a string in quotes. -/
theorem toList_quote (s : String) : (quote s).toList = '"' :: (s.toList.flatMap escape ++ ['"']) := by
  simp [quote]

theorem quote_cancel {s t : String} {r r' : List Char} (same : (quote s).toList ++ r = (quote t).toList ++ r') :
    s = t ∧ r = r' := by
  rw [toList_quote, toList_quote, List.cons_append, List.cons_append, List.append_assoc, List.append_assoc] at same
  have read := congrArg unquote (List.cons.inj same).2
  simp only [List.singleton_append, unquote_quote, Option.some.injEq, Prod.mk.injEq, String.toList_inj] at read
  exact read

/-! ### Sequences -/

/-- Whether a text can follow a value in a document. -/
def Follows (r : List Char) : Prop := r = [] ∨ ∃ c rest, r = c :: rest ∧ (c = ',' ∨ c = ']' ∨ c = '\x7d')

section
variable {α : Type} {write : α → List Char} {close : Char} {r r' : List Char} {x : α} {xs ys : List α}

/-- Whether what is written can be told from whatever follows it. -/
def Told (write : α → List Char) (x : α) : Prop :=
  ∀ ⦃y r r'⦄, Follows r → Follows r' → write x ++ r = write y ++ r' → x = y ∧ r = r'

/-- The parts of a sequence behind the first one, up to the end of the text. -/
def behind (close : Char) (r : List Char) : List (List Char) → List Char
  | [] => close :: r
  | part :: rest => ',' :: (part ++ behind close r rest)

theorem intercalate_behind (part : List Char) (rest : List (List Char)) :
    [','].intercalate (part :: rest) ++ close :: r = part ++ behind close r rest := by
  induction rest generalizing part with
  | nil => simp [behind]
  | cons second rest ih =>
    rw [List.intercalate_cons_cons, List.append_assoc, ih, behind]
    simp

variable (closes : close = ']' ∨ close = '\x7d')
include closes

theorem follows_behind (parts : List (List Char)) : Follows (behind close r parts) := by
  cases parts with
  | nil => exact .inr ⟨close, r, rfl, .inr closes⟩
  | cons part rest => exact .inr ⟨',', _, rfl, .inl rfl⟩

theorem behind_cancel (each : ∀ x ∈ xs, Told write x)
    (same : behind close r (xs.map write) = behind close r' (ys.map write)) : xs = ys ∧ r = r' := by
  have comma : close ≠ ',' := by rcases closes with rfl | rfl <;> decide
  induction xs generalizing ys with
  | nil =>
    cases ys with
    | nil => exact ⟨rfl, (List.cons.inj same).2⟩
    | cons y ys => exact absurd (List.cons.inj same).1 comma
  | cons x xs ih =>
    cases ys with
    | nil => exact absurd (List.cons.inj same).1.symm comma
    | cons y ys =>
      obtain ⟨here, later⟩ := List.forall_mem_cons.1 each
      obtain ⟨rfl, rest⟩ := here (follows_behind closes _) (follows_behind closes _) (List.cons.inj same).2
      obtain ⟨rfl, rfl⟩ := ih later rest
      exact ⟨rfl, rfl⟩

/-- A sequence is told from what follows it if its parts are, and none begins like its end. -/
theorem sequence_cancel (each : ∀ x ∈ xs, Told write x) (first : ∀ x, ∃ c rest, write x = c :: rest ∧ c ≠ close)
    (same : [','].intercalate (xs.map write) ++ close :: r = [','].intercalate (ys.map write) ++ close :: r') :
    xs = ys ∧ r = r' := by
  cases xs with
  | nil =>
    cases ys with
    | nil => exact ⟨rfl, (List.cons.inj same).2⟩
    | cons y ys =>
      obtain ⟨c, rest, begins, other⟩ := first y
      rw [List.map_cons, intercalate_behind, begins] at same
      exact absurd (List.cons.inj same).1.symm other
  | cons x xs =>
    cases ys with
    | nil =>
      obtain ⟨c, rest, begins, other⟩ := first x
      rw [List.map_cons, intercalate_behind, begins] at same
      exact absurd (List.cons.inj same).1 other
    | cons y ys =>
      rw [List.map_cons, List.map_cons, intercalate_behind, intercalate_behind] at same
      obtain ⟨here, later⟩ := List.forall_mem_cons.1 each
      obtain ⟨rfl, rest⟩ := here (follows_behind closes _) (follows_behind closes _) same
      obtain ⟨rfl, rfl⟩ := behind_cancel closes later rest
      exact ⟨rfl, rfl⟩

end

/-! ### Numbers -/

theorem numeric_whole (n : Whole) :
    (toString n.val).toList ≠ [] ∧ ∀ c ∈ (toString n.val).toList, c.isDigit = true ∨ c = '-' := by
  rw [Int.toString_eq_repr, Int.repr_eq_if]
  split
  · rw [Nat.toList_repr]
    exact ⟨Nat.toDigits_ne_nil, fun c mem => .inl (digits_toDigits _ c mem)⟩
  · rw [String.toList_append, Nat.toList_repr]
    refine ⟨by simp, fun c mem => ?_⟩
    rcases List.mem_append.1 mem with sign | mem
    · exact .inr (by simpa using sign)
    · exact .inl (digits_toDigits _ c mem)

theorem numeric_float (x : Finite64) : (∀ c ∈ (x.text numberLayout).toList, IsNumeric c) ∧
    ('.' ∈ (x.text numberLayout).toList ∨ 'e' ∈ (x.text numberLayout).toList) := by
  obtain ⟨body, v, spells, -, text⟩ := x.spells_text
  have numeric := spells.numeric
  have marked := spells.marked
  rw [text]
  split
  · refine ⟨List.forall_mem_cons.2 ⟨.inr (by decide), numeric⟩, ?_⟩
    exact marked.imp (List.mem_cons_of_mem _) (List.mem_cons_of_mem _)
  · exact ⟨numeric, marked⟩

/-- Texts of numbers end where something follows. -/
theorem numeric_cancel {s t r r' : List Char} (numeric : ∀ c ∈ s, IsNumeric c) (numeric' : ∀ c ∈ t, IsNumeric c)
    (follows : Follows r) (follows' : Follows r') (same : s ++ r = t ++ r') : s = t ∧ r = r' := by
  have stop : ∀ c : Char, c = ',' ∨ c = ']' ∨ c = '\x7d' → ¬ IsNumeric c := by
    rintro c (rfl | rfl | rfl) <;> rintro (digit | mark) <;> simp at *
  induction s generalizing t with
  | nil =>
    cases t with
    | nil => exact ⟨rfl, same⟩
    | cons d t =>
      rcases follows with rfl | ⟨c, rest, rfl, stops⟩
      · cases same
      · rw [(List.cons.inj same).1] at stops
        exact absurd (numeric' d List.mem_cons_self) (stop d stops)
  | cons c s ih =>
    cases t with
    | nil =>
      rcases follows' with rfl | ⟨d, rest, rfl, stops⟩
      · cases same
      · rw [← (List.cons.inj same).1] at stops
        exact absurd (numeric c List.mem_cons_self) (stop c stops)
    | cons d t =>
      obtain ⟨rfl, later⟩ := List.cons.inj same
      obtain ⟨rfl, rest⟩ := ih (List.forall_mem_cons.1 numeric).2 (List.forall_mem_cons.1 numeric').2 later
      exact ⟨rfl, rest⟩

/-! ### Values -/

theorem toList_render_array (items : List Json) : (array items).render.toList =
    '[' :: ([','].intercalate (items.map fun item => item.render.toList) ++ [']']) := by
  rw [render, renderItems_eq_map]
  simp [String.toList_intercalate, Function.comp_def]

/-- The characters of a member. -/
def memberText (member : String × Json) : List Char := (quote member.1).toList ++ ':' :: member.2.render.toList

theorem toList_render_object (members : List (String × Json)) : (object members).render.toList =
    '\x7b' :: ([','].intercalate (members.map memberText) ++ ['\x7d']) := by
  have texts : (renderMembers members).map String.toList = members.map memberText := by
    rw [renderMembers_eq_map]
    simp [memberText, Function.comp_def]
  rw [render]
  simp [String.toList_intercalate, texts]

/-- A character that the texts of a form of values begin with. -/
def mark : Json → Char
  | .null => 'n'
  | .bool _ => 't'
  | .whole _ | .float _ => '0'
  | .string _ => '"'
  | .array _ => '['
  | .object _ => '\x7b'

/-- The mark of the values whose texts begin with a character. -/
def markOf (c : Char) : Char :=
  if c.isDigit || ['.', 'e', '-', '+'].contains c then '0' else if c = 'f' then 't' else c

theorem markOf_numeric {c : Char} (numeric : IsNumeric c) : markOf c = '0' := by
  have here : (c.isDigit || ['.', 'e', '-', '+'].contains c) = true := by
    rcases numeric with digit | sign
    · simp [digit]
    · rw [Bool.or_eq_true, List.contains_iff_mem]
      exact .inr sign
  rw [markOf, if_pos here]

/-- The text of a value begins as the form of the value says. -/
theorem render_begins (v : Json) : ∃ c rest, v.render.toList = c :: rest ∧ markOf c = v.mark := by
  have number : ∀ {text : List Char}, text ≠ [] → (∀ c ∈ text, IsNumeric c) →
      ∃ c rest, text = c :: rest ∧ markOf c = '0' := by
    intro text nonempty numeric
    obtain ⟨c, rest, rfl⟩ := List.exists_cons_of_ne_nil nonempty
    exact ⟨c, rest, rfl, markOf_numeric (numeric c List.mem_cons_self)⟩
  cases v with
  | null => exact ⟨'n', _, rfl, rfl⟩
  | bool b => cases b <;> exact ⟨_, _, rfl, rfl⟩
  | whole n =>
    obtain ⟨nonempty, numeric⟩ := numeric_whole n
    exact number nonempty fun c mem => (numeric c mem).imp_right fun sign => by simp [sign]
  | float x =>
    obtain ⟨numeric, marked⟩ := numeric_float x
    exact number (marked.elim List.ne_nil_of_mem List.ne_nil_of_mem) numeric
  | string s => exact ⟨'"', _, toList_quote s, rfl⟩
  | array items => exact ⟨'[', _, toList_render_array items, rfl⟩
  | object members => exact ⟨'\x7b', _, toList_render_object members, rfl⟩

/-- Values whose texts begin alike have the same mark. -/
theorem mark_eq {v w : Json} {r r' : List Char} (same : v.render.toList ++ r = w.render.toList ++ r') :
    v.mark = w.mark := by
  obtain ⟨c, rest, begins, here⟩ := v.render_begins
  obtain ⟨d, rest', begins', there⟩ := w.render_begins
  rw [begins, begins'] at same
  rw [← here, ← there, (List.cons.inj same).1]

/-- The text of a number is told from whatever follows it. -/
theorem number_cancel {v w : Json} (number : v.mark = '0') (number' : w.mark = '0') {r r' : List Char}
    (follows : Follows r) (follows' : Follows r') (same : v.render.toList ++ r = w.render.toList ++ r') :
    v = w ∧ r = r' := by
  have numeric : ∀ {v : Json}, v.mark = '0' → ∀ c ∈ v.render.toList, IsNumeric c := by
    intro v number c mem
    cases v with
    | whole n => exact ((numeric_whole n).2 c mem).imp_right fun sign => by simp [sign]
    | float x => exact (numeric_float x).1 c mem
    | null | bool | string | array | object => simp [mark] at number
  -- a float has a point or an exponent
  have mixed : ∀ {n : Whole} {x : Finite64}, (toString n.val).toList ≠ (x.text numberLayout).toList := by
    intro n x same
    rcases same ▸ (numeric_float x).2 with marked | marked <;> rcases (numeric_whole n).2 _ marked with digit | sign <;>
      simp at *
  obtain ⟨texts, rest⟩ := numeric_cancel (numeric number) (numeric number') follows follows' same
  refine ⟨?_, rest⟩
  cases v with
  | whole n =>
    cases w with
    | whole m =>
      have eq : n.val = m.val := Int.repr_injective (String.toList_inj.1 texts)
      cases n
      cases m
      cases eq
      rfl
    | float y => exact absurd texts mixed
    | null | bool | string | array | object => simp [mark] at number'
  | float x =>
    cases w with
    | whole m => exact absurd texts.symm mixed
    | float y => rw [Finite64.text_injective (String.toList_inj.1 texts)]
    | null | bool | string | array | object => simp [mark] at number'
  | null | bool | string | array | object => simp [mark] at number

theorem told_member {member : String × Json} (told : Told (fun v : Json => v.render.toList) member.2) :
    Told memberText member := by
  intro other r r' follows follows' same
  simp only [memberText, List.append_assoc, List.cons_append] at same
  obtain ⟨name, same⟩ := quote_cancel same
  obtain ⟨value, rest⟩ := told follows follows' (List.cons.inj same).2
  exact ⟨Prod.ext name value, rest⟩

private theorem told_leaf {v : Json} (noArray : ∀ items, v ≠ .array items) (noObject : ∀ members, v ≠ .object members) :
    Told (fun v : Json => v.render.toList) v := by
  intro w r r' follows follows' same
  dsimp only at same
  have marks := mark_eq same
  cases v with
  | whole | float => exact number_cancel rfl marks.symm follows follows' same
  | null =>
    cases w with
    | null => exact ⟨rfl, List.append_cancel_left same⟩
    | bool | whole | float | string | array | object => simp [mark] at marks
  | bool b =>
    cases w with
    | bool b' =>
      have first : b = b' := by
        cases b <;> cases b' <;> simp [render] at same ⊢
      subst first
      exact ⟨rfl, List.append_cancel_left same⟩
    | null | whole | float | string | array | object => simp [mark] at marks
  | string s =>
    cases w with
    | string t =>
      obtain ⟨rfl, rest⟩ := quote_cancel same
      exact ⟨rfl, rest⟩
    | null | bool | whole | float | array | object => simp [mark] at marks
  | array items => exact absurd rfl (noArray items)
  | object members => exact absurd rfl (noObject members)

private theorem told_array {items : List Json} (each : ∀ item ∈ items, Told (fun v : Json => v.render.toList) item) :
    Told (fun v : Json => v.render.toList) (.array items) := by
  intro w r r' follows follows' same
  dsimp only at same
  have marks := mark_eq same
  cases w with
  | array others =>
    rw [toList_render_array, toList_render_array] at same
    simp only [List.cons_append, List.append_assoc, List.cons.injEq, true_and] at same
    have begins : ∀ v : Json, ∃ c rest, v.render.toList = c :: rest ∧ c ≠ ']' := by
      intro v
      obtain ⟨c, rest, begins, here⟩ := v.render_begins
      refine ⟨c, rest, begins, ?_⟩
      rintro rfl
      cases v <;> simp [mark, markOf] at here
    obtain ⟨rfl, rest⟩ := sequence_cancel (.inl rfl) each begins same
    exact ⟨rfl, rest⟩
  | null | bool | whole | float | string | object => simp [mark] at marks

private theorem told_object {members : List (String × Json)}
    (each : ∀ member ∈ members, Told (fun v : Json => v.render.toList) member.2) :
    Told (fun v : Json => v.render.toList) (.object members) := by
  intro w r r' follows follows' same
  dsimp only at same
  have marks := mark_eq same
  cases w with
  | object others =>
    rw [toList_render_object, toList_render_object] at same
    simp only [List.cons_append, List.append_assoc, List.cons.injEq, true_and] at same
    have begins : ∀ member, ∃ c rest, memberText member = c :: rest ∧ c ≠ '\x7d' :=
      fun member => ⟨'"', _, by rw [memberText, toList_quote]; rfl, by decide⟩
    obtain ⟨rfl, rest⟩ := sequence_cancel (.inr rfl) (fun member mem => told_member (each member mem)) begins same
    exact ⟨rfl, rest⟩
  | null | bool | whole | float | string | array => simp [mark] at marks

/-- The text of a value is told from whatever follows it. -/
theorem told_render (v : Json) : Told (fun v : Json => v.render.toList) v := by
  induction v using partInduction with
  | null | bool | whole | float | string => exact told_leaf nofun nofun
  | array items ih => exact told_array ih
  | object members ih => exact told_object ih

/-- No two values have the same text. -/
theorem render_injective : Function.Injective render := by
  intro v w same
  have texts : v.render.toList ++ [] = w.render.toList ++ [] := by rw [same]
  exact (told_render v (.inl rfl) (.inl rfl) texts).1

instance : DecidableEq Json := fun _ _ => decidable_of_iff _ render_injective.eq_iff

end FlatStore.Json
