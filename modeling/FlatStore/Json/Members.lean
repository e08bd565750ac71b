import FlatStore.Json.Basic

/-!
Members as a map: what setting a member does to what is found under the names, and to the names themselves. Members
given one after another keep each name once, at its first place and with its last value (`membersOf_eq_of_nodup`,
`lookup_membersOf_append`).
-/
namespace FlatStore

variable {α : Type} {name : String} {value : α} {members : List (String × α)}

theorem lookup_eq_some_iff_mem (nodup : (members.map Prod.fst).Nodup) :
    members.lookup name = some value ↔ (name, value) ∈ members := by
  induction members with
  | nil => simp
  | cons member rest ih =>
    obtain ⟨n, v⟩ := member
    rw [List.map_cons, List.nodup_cons] at nodup
    by_cases same : name = n
    · subst same
      have absent : (name, value) ∉ rest := fun mem => nodup.1 (List.mem_map.2 ⟨_, mem, rfl⟩)
      simp [absent, eq_comm]
    · simp [List.lookup_cons, beq_false_of_ne same, same, ih nodup.2]

theorem lookup_eq_none_iff : members.lookup name = none ↔ name ∉ members.map Prod.fst := by
  simp only [List.lookup_eq_none_iff, List.mem_map, not_exists, not_and, bne_iff_ne]
  exact ⟨fun other m mem same => other m mem same.symm, fun other m mem same => other m mem same.symm⟩

theorem mem_of_lookup (found : members.lookup name = some value) : (name, value) ∈ members := by
  induction members with
  | nil => cases found
  | cons member rest ih =>
    obtain ⟨n, v⟩ := member
    by_cases same : name = n
    · subst same
      obtain rfl : v = value := by simpa using found
      exact List.mem_cons_self
    · exact List.mem_cons_of_mem _ (ih (by simpa [List.lookup_cons, beq_false_of_ne same] using found))

/-- What is found under a name stays where members of other names are left out. -/
theorem lookup_filter {p : String → Bool} (kept : p name = true) :
    (members.filter fun member => p member.1).lookup name = members.lookup name := by
  induction members with
  | nil => rfl
  | cons member rest ih =>
    obtain ⟨n, v⟩ := member
    rw [List.filter_cons]
    by_cases same : name = n
    · subst same
      simp [kept]
    · split
      · simp only [List.lookup_cons, beq_false_of_ne same, ih]
      · simpa only [List.lookup_cons, beq_false_of_ne same] using ih

theorem lookup_setMember (name : String) (value : α) (members : List (String × α)) (n : String) :
    (setMember name value members).lookup n = if n = name then some value else members.lookup n := by
  induction members with
  | nil =>
    by_cases same : n = name
    · simp [setMember, same]
    · simp [setMember, List.lookup_cons, beq_false_of_ne same, same]
  | cons member rest ih =>
    obtain ⟨m, v⟩ := member
    by_cases here : m = name
    · subst here
      by_cases same : n = m
      · simp [setMember, same]
      · simp [setMember, List.lookup_cons, beq_false_of_ne same, same]
    · rw [setMember, if_neg here, List.lookup_cons, List.lookup_cons, ih]
      by_cases same : n = m
      · subst same
        simp [here]
      · simp [beq_false_of_ne same]

theorem setMember_of_not_mem (absent : name ∉ members.map Prod.fst) :
    setMember name value members = members ++ [(name, value)] := by
  induction members with
  | nil => rfl
  | cons member rest ih =>
    obtain ⟨m, v⟩ := member
    simp only [List.map_cons, List.mem_cons, not_or] at absent
    rw [setMember, if_neg (Ne.symm absent.1), ih absent.2, List.cons_append]

theorem names_setMember (name : String) (value : α) (members : List (String × α)) :
    (setMember name value members).map Prod.fst =
      if name ∈ members.map Prod.fst then members.map Prod.fst else members.map Prod.fst ++ [name] := by
  induction members with
  | nil => rfl
  | cons member rest ih =>
    obtain ⟨m, v⟩ := member
    by_cases here : m = name
    · subst here
      simp [setMember]
    · rw [setMember, if_neg here, List.map_cons, ih, List.map_cons]
      by_cases present : name ∈ rest.map Prod.fst
      · rw [if_pos present, if_pos (List.mem_cons_of_mem _ present)]
      · rw [if_neg present, if_neg (by simpa [Ne.symm here] using present), List.cons_append]

theorem nodup_setMember (nodup : (members.map Prod.fst).Nodup) (name : String) (value : α) :
    ((setMember name value members).map Prod.fst).Nodup := by
  rw [names_setMember]
  split
  · exact nodup
  · next absent =>
    rw [List.nodup_append]
    refine ⟨nodup, by simp, ?_⟩
    rintro n mem _ last rfl
    exact absent (List.mem_singleton.1 last ▸ mem)

/-! ### Members that are set one after another -/

theorem setMember_setMember (name : String) (first last : α) (members : List (String × α)) :
    setMember name last (setMember name first members) = setMember name last members := by
  induction members with
  | nil => simp [setMember]
  | cons member rest ih =>
    obtain ⟨n, v⟩ := member
    by_cases here : n = name
    · simp [setMember, here]
    · simp [setMember, here, ih]

/-- A member that is there already may be set before another one or after it. -/
theorem setMember_comm {other : String} (differ : name ≠ other) (present : name ∈ members.map Prod.fst)
    (value last : α) :
    setMember other last (setMember name value members) = setMember name value (setMember other last members) := by
  induction members with
  | nil => cases present
  | cons member rest ih =>
    obtain ⟨n, v⟩ := member
    by_cases here : n = name
    · subst here
      simp [setMember, differ]
    · by_cases there : n = other
      · subst there
        simp [setMember, here]
      · have behind : name ∈ rest.map Prod.fst := by
          simpa [Ne.symm here] using present
        simp [setMember, here, there, ih behind]

theorem foldl_setMember_comm {others : List (String × α)} (differ : name ∉ others.map Prod.fst)
    (present : name ∈ members.map Prod.fst) (value : α) :
    others.foldl (fun members m => setMember m.1 m.2 members) (setMember name value members) =
      setMember name value (others.foldl (fun members m => setMember m.1 m.2 members) members) := by
  induction others generalizing members with
  | nil => rfl
  | cons other rest ih =>
    simp only [List.map_cons, List.mem_cons, not_or] at differ
    have kept : name ∈ (setMember other.1 other.2 members).map Prod.fst := by
      rw [names_setMember]
      split
      · exact present
      · exact List.mem_append_left _ present
    rw [List.foldl_cons, List.foldl_cons, setMember_comm differ.1 present, ih differ.2 kept]

/-- Setting a member among some that are set later is setting it after them. -/
theorem foldl_setMember {later : List (String × α)} (nodup : (later.map Prod.fst).Nodup) (name : String) (value : α)
    (members : List (String × α)) :
    (setMember name value later).foldl (fun members m => setMember m.1 m.2 members) members =
      setMember name value (later.foldl (fun members m => setMember m.1 m.2 members) members) := by
  induction later generalizing members with
  | nil => rfl
  | cons member rest ih =>
    obtain ⟨n, v⟩ := member
    rw [List.map_cons, List.nodup_cons] at nodup
    by_cases here : n = name
    · subst here
      have present : n ∈ (setMember n v members).map Prod.fst := by
        rw [names_setMember]
        split
        · next there => exact there
        · simp
      rw [setMember, if_pos rfl, List.foldl_cons, List.foldl_cons, ← foldl_setMember_comm nodup.1 present,
        setMember_setMember]
    · rw [setMember, if_neg here, List.foldl_cons, List.foldl_cons, ih nodup.2]

theorem membersOf_append (first second : List (String × α)) :
    membersOf (first ++ second) =
      second.foldl (fun members m => setMember m.1 m.2 members) (membersOf first) :=
  List.foldl_append

theorem lookup_membersOf_append (given : List (String × α)) (name : String) (value : α) (n : String) :
    (membersOf (given ++ [(name, value)])).lookup n = if n = name then some value else (membersOf given).lookup n := by
  rw [membersOf_append]
  exact lookup_setMember name value _ n

theorem nodup_membersOf (given : List (String × α)) : ((membersOf given).map Prod.fst).Nodup := by
  have general : ∀ (given members : List (String × α)), (members.map Prod.fst).Nodup →
      ((given.foldl (fun members m => setMember m.1 m.2 members) members).map Prod.fst).Nodup := by
    intro given
    induction given with
    | nil => exact fun _ nodup => nodup
    | cons member rest ih => exact fun members nodup => ih _ (nodup_setMember nodup member.1 member.2)
  exact general given [] (by simp)

theorem mem_names_membersOf_iff {given : List (String × α)} :
    name ∈ (membersOf given).map Prod.fst ↔ name ∈ given.map Prod.fst := by
  have general : ∀ given members : List (String × α),
      name ∈ (given.foldl (fun members m => setMember m.1 m.2 members) members).map Prod.fst ↔
        name ∈ members.map Prod.fst ∨ name ∈ given.map Prod.fst := by
    intro given
    induction given with
    | nil => simp
    | cons member rest ih =>
      intro members
      have names : name ∈ (setMember member.1 member.2 members).map Prod.fst ↔
          name ∈ members.map Prod.fst ∨ name = member.1 := by
        rw [names_setMember]
        split
        · next there => exact ⟨.inl, fun either => either.elim id fun same => same ▸ there⟩
        · rw [List.mem_append, List.mem_singleton]
      rw [List.foldl_cons, ih, names, List.map_cons, List.mem_cons, or_assoc]
  exact (general given []).trans (by simp)

/-- Members may be collected by themselves before they are set. -/
theorem foldl_membersOf (given members : List (String × α)) :
    (membersOf given).foldl (fun members m => setMember m.1 m.2 members) members =
      given.foldl (fun members m => setMember m.1 m.2 members) members := by
  have general : ∀ given collected : List (String × α), (collected.map Prod.fst).Nodup →
      (given.foldl (fun members m => setMember m.1 m.2 members) collected).foldl
          (fun members m => setMember m.1 m.2 members) members =
        given.foldl (fun members m => setMember m.1 m.2 members)
          (collected.foldl (fun members m => setMember m.1 m.2 members) members) := by
    intro given
    induction given with
    | nil => exact fun _ _ => rfl
    | cons member rest ih =>
      intro collected nodup
      rw [List.foldl_cons, List.foldl_cons, ih _ (nodup_setMember nodup member.1 member.2), foldl_setMember nodup]
  exact general given [] (by simp)

/-- Members that are not of a sort stay as they are when one of the sort is set. -/
theorem filter_setMember {p : String → Bool} (excluded : p name = false) (value : α) (members : List (String × α)) :
    (setMember name value members).filter (fun m => p m.1) = members.filter fun m => p m.1 := by
  induction members with
  | nil => simp [setMember, excluded]
  | cons member rest ih =>
    obtain ⟨n, v⟩ := member
    by_cases here : n = name
    · simp [setMember, here, excluded]
    · rw [setMember, if_neg here, List.filter_cons, List.filter_cons, ih]

section
variable {rename : String → String} (apart : Function.Injective rename)
include apart

/-- What is found under a name is found under the new one, if no two names become one. -/
theorem lookup_rename (members : List (String × α)) (name : String) :
    (members.map fun m => (rename m.1, m.2)).lookup (rename name) = members.lookup name := by
  induction members with
  | nil => rfl
  | cons member rest ih =>
    obtain ⟨n, v⟩ := member
    rw [List.map_cons, List.lookup_cons, List.lookup_cons, ih, Bool.eq_iff_iff.2 (by simp [apart.eq_iff] :
      (rename name == rename n) = true ↔ (name == n) = true)]

theorem setMember_rename (name : String) (value : α) (members : List (String × α)) :
    setMember (rename name) value (members.map fun m => (rename m.1, m.2)) =
      (setMember name value members).map fun m => (rename m.1, m.2) := by
  induction members with
  | nil => rfl
  | cons member rest ih =>
    obtain ⟨n, v⟩ := member
    by_cases here : n = name
    · simp [setMember, here]
    · have there : rename n ≠ rename name := fun same => here (apart same)
      simp [setMember, here, there, ih]

/-- Members may be renamed before they are collected or after it. -/
theorem membersOf_rename (given : List (String × α)) :
    membersOf (given.map fun m => (rename m.1, m.2)) = (membersOf given).map fun m => (rename m.1, m.2) := by
  have general : ∀ given members : List (String × α),
      (given.map fun m => (rename m.1, m.2)).foldl (fun members m => setMember m.1 m.2 members)
          (members.map fun m => (rename m.1, m.2)) =
        (given.foldl (fun members m => setMember m.1 m.2 members) members).map fun m => (rename m.1, m.2) := by
    intro given
    induction given with
    | nil => exact fun _ => rfl
    | cons member rest ih =>
      intro members
      rw [List.map_cons, List.foldl_cons, List.foldl_cons, setMember_rename apart, ih]
  exact general given []

end

theorem membersOf_eq_of_nodup {given : List (String × α)} (nodup : (given.map Prod.fst).Nodup) :
    membersOf given = given := by
  have general : ∀ given members : List (String × α), ((members ++ given).map Prod.fst).Nodup →
      given.foldl (fun members m => setMember m.1 m.2 members) members = members ++ given := by
    intro given
    induction given with
    | nil => simp
    | cons member rest ih =>
      intro members nodup
      obtain ⟨n, v⟩ := member
      have absent : n ∉ members.map Prod.fst := by
        rw [List.map_append, List.nodup_append] at nodup
        exact fun mem => nodup.2.2 n mem n (by simp) rfl
      rw [List.foldl_cons, setMember_of_not_mem absent, ih _ (by simpa using nodup)]
      simp
  exact general given [] (by simpa using nodup)

/-- A member whose name does not come again stays the first. -/
theorem membersOf_cons {given : List (String × α)} (apart : name ∉ (membersOf given).map Prod.fst) :
    membersOf ((name, value) :: given) = (name, value) :: membersOf given := by
  have nodup : (((name, value) :: membersOf given).map Prod.fst).Nodup :=
    List.nodup_cons.2 ⟨apart, nodup_membersOf given⟩
  rw [← membersOf_eq_of_nodup nodup]
  exact (foldl_membersOf given [(name, value)]).symm

end FlatStore
