/-!
Texts in pieces. Cutting a text at its separators and joining pieces by them undo each other (`join_pieces`,
`pieces_join`).
-/
namespace FlatStore

variable {α : Type} [DecidableEq α]

/-- The pieces of a text between the separators in it. There is one more piece than there are separators. -/
def pieces (separator : α) : List α → List (List α)
  | [] => [[]]
  | c :: rest =>
    if c = separator then [] :: pieces separator rest
    else
      match pieces separator rest with
      | first :: others => (c :: first) :: others
      | [] => [[c]]

theorem pieces_ne_nil (separator : α) (text : List α) : pieces separator text ≠ [] := by
  fun_cases pieces separator text <;> simp [*]

theorem separator_not_mem {separator : α} {text piece : List α} (mem : piece ∈ pieces separator text) :
    separator ∉ piece := by
  induction text generalizing piece with
  | nil => simp_all [pieces]
  | cons c rest ih =>
    unfold pieces at mem
    split at mem
    · rcases List.mem_cons.1 mem with rfl | mem
      · simp
      · exact ih mem
    · next other =>
      split at mem
      · next first others eq =>
        rw [eq] at ih
        rcases List.mem_cons.1 mem with rfl | mem
        · exact fun inside => (List.mem_cons.1 inside).elim (fun same => other same.symm) (ih List.mem_cons_self)
        · exact ih (List.mem_cons_of_mem _ mem)
      · next eq => exact absurd eq (pieces_ne_nil _ _)

theorem join_pieces (separator : α) (text : List α) : [separator].intercalate (pieces separator text) = text := by
  induction text with
  | nil => simp [pieces, List.intercalate]
  | cons c rest ih =>
    unfold pieces
    split
    · next same =>
      cases eq : pieces separator rest with
      | nil => exact absurd eq (pieces_ne_nil _ _)
      | cons first others =>
        rw [eq] at ih
        rw [List.intercalate_cons_cons, ih, same]
        rfl
    · cases eq : pieces separator rest with
      | nil => exact absurd eq (pieces_ne_nil _ _)
      | cons first others =>
        rw [eq] at ih
        cases others with
        | nil => simpa using ih
        | cons second more =>
          rw [List.intercalate_cons_cons] at ih ⊢
          simp [← ih]

theorem pieces_join {separator : α} {parts : List (List α)} (nonempty : parts ≠ [])
    (apart : ∀ part ∈ parts, separator ∉ part) : pieces separator ([separator].intercalate parts) = parts := by
  have single : ∀ part : List α, separator ∉ part → pieces separator part = [part] := by
    intro part
    induction part with
    | nil => simp [pieces]
    | cons c rest ih =>
      intro clear
      simp only [List.mem_cons, not_or] at clear
      simp [pieces, Ne.symm clear.1, ih clear.2]
  have front : ∀ part rest : List α, separator ∉ part →
      pieces separator (part ++ separator :: rest) = part :: pieces separator rest := by
    intro part rest
    induction part with
    | nil => simp [pieces]
    | cons c part ih =>
      intro clear
      simp only [List.mem_cons, not_or] at clear
      simp [pieces, Ne.symm clear.1, ih clear.2]
  induction parts with
  | nil => exact absurd rfl nonempty
  | cons part rest ih =>
    have clear := apart part List.mem_cons_self
    cases rest with
    | nil => simpa using single part clear
    | cons second more =>
      rw [List.intercalate_cons_cons, List.append_assoc, List.singleton_append, front _ _ clear,
        ih (by simp) fun p mem => apart p (List.mem_cons_of_mem _ mem)]

def piecesOf (separator : Char) (text : String) : List String := (pieces separator text.toList).map String.ofList

def numeralValue (digits : List Char) : Nat := digits.foldl (fun n c => n * 10 + (c.toNat - '0'.toNat)) 0

def isDecimalDigit (c : Char) : Bool := '0' ≤ c && c ≤ '9'

/-- The white space of Unicode. -/
def isWhiteSpace (c : Char) : Bool :=
  [0x20, 0x85, 0xa0, 0x1680, 0x2028, 0x2029, 0x202f, 0x205f, 0x3000].contains c.toNat ||
    (0x09 ≤ c.toNat && c.toNat ≤ 0x0d) || (0x2000 ≤ c.toNat && c.toNat ≤ 0x200a)

end FlatStore
