import FlatStore.Proofs.Reports
import Mathlib.Data.List.Nodup

/-!
Gates that stay behind. A report that has left its gate asks who else owns the gate, and takes it away if nobody does. It
still owns the gate for a while after that. If the last report that asks comes during that time of another one, then no
report takes the gate away, and it stays until the kind is reported again (`Reports.gates_of_idle`).
-/
namespace FlatStore.Setup.Reports

variable {webhooks : Bool} {s t u : Reports} {m : Move} {e : Event} {moves : List Move} {events : List Event}
  {failure : Option SetupError} {kind : String} {stage later : Stage} {r : Report} {i gate : Nat}

/-! ### Numbers of gates -/

/-- The gates in the list have numbers of their own. -/
structure Numbered (s : Reports) : Prop where
  below : ∀ entry ∈ s.gates, entry.2 < s.made
  nodup : (s.gates.map Prod.snd).Nodup

namespace Numbered

theorem empty : Numbered empty := ⟨nofun, .nil⟩

theorem takeGate (numbered : Numbered s) (kind : String) : Numbered (s.takeGate kind).2 := by
  rw [Reports.takeGate]
  cases s.gates.lookup kind with
  | some gate => exact numbered
  | none =>
    refine ⟨List.forall_mem_cons.2 ⟨Nat.lt_succ_self _, fun entry mem => Nat.lt_succ_of_lt (numbered.below entry mem)⟩,
      List.nodup_cons.2 ⟨fun mem => ?_, numbered.nodup⟩⟩
    obtain ⟨entry, held, same⟩ := List.mem_map.1 mem
    exact Nat.lt_irrefl _ (same ▸ numbered.below entry held)

theorem releaseGate (numbered : Numbered s) (kind : String) (gate : Nat) : Numbered (s.releaseGate kind gate) := by
  rw [Reports.releaseGate]
  split
  · exact ⟨fun entry mem => numbered.below entry ((List.mem_filter.1 mem).1),
      numbered.nodup.sublist (List.filter_sublist.map _)⟩
  · exact numbered

theorem move (numbered : Numbered s) (moved : s.move webhooks m = some (t, e)) : Numbered t := by
  rcases move_cases moved with ⟨_, -, rfl, -⟩ | ⟨_, _, r, stage, u, -, -, step, rfl⟩ | ⟨-, rfl, -⟩
  · exact ⟨numbered.below, numbered.nodup⟩
  · have after : Numbered u := by
      rcases step.gate_cases with ⟨-, -, rfl⟩ | ⟨gate, _, -, -, rfl⟩ | ⟨-, -, gates, made, -⟩
      · exact numbered.takeGate r.kind
      · exact numbered.releaseGate r.kind gate
      · exact ⟨gates ▸ made ▸ numbered.below, gates ▸ numbered.nodup⟩
    exact ⟨after.below, after.nodup⟩
  · exact ⟨numbered.below, numbered.nodup⟩

/-- No two kinds have the same gate. -/
theorem kind_eq (numbered : Numbered s) {other : String} (first : s.gates.lookup kind = some gate)
    (second : s.gates.lookup other = some gate) : kind = other :=
  congrArg Prod.fst (List.inj_on_of_nodup_map numbered.nodup (mem_of_lookup first) (mem_of_lookup second) rfl)

/-- A report that finds other owners of its gate is not the only one. -/
theorem exists_owner (numbered : Numbered s) (found : s.all[i]? = some r) (owns : r.stage.gate? = some gate)
    (listed : s.gates.lookup kind = some gate) (more : s.owners gate ≠ 2) :
    ∃ j r', j ≠ i ∧ s.all[j]? = some r' ∧ r'.stage.gate? = some gate := by
  by_contra alone
  refine more ?_
  have reports : s.all.countP (·.stage.gate? = some gate) = 1 := by
    refine (countP_eq_one_iff found (decide_eq_true owns)).2 fun j r' there also => ?_
    by_contra ne
    exact alone ⟨j, r', ne, there, of_decide_eq_true also⟩
  have list : s.gates.countP (·.2 = gate) = 1 := by
    have mem : gate ∈ s.gates.map Prod.snd := List.mem_map_of_mem (mem_of_lookup listed)
    have once := List.count_eq_one_of_mem numbered.nodup mem
    rwa [List.count_eq_countP, List.countP_map] at once
  rw [owners, reports, list]

end Numbered

/-! ### Gates that stay behind -/

/-- A report of a kind takes the gate of the kind. -/
def Takes (s : Reports) (m : Move) (kind : String) : Prop :=
  ∃ i failure r, m = .advance i failure ∧ s.all[i]? = some r ∧ r.kind = kind ∧ r.stage = .unstarted

/-- The last report of a kind that holds a gate asks about its owners and finds others, which have asked already. -/
def Leaves (s : Reports) (m : Move) (kind : String) : Prop :=
  ∃ i failure r gate result, m = .advance i failure ∧ s.all[i]? = some r ∧ r.kind = kind ∧
    r.stage = .outside gate result ∧ (∃ j r', j ≠ i ∧ s.all[j]? = some r' ∧ r'.stage.gate? = some gate) ∧
    ∀ j r', j ≠ i → s.all[j]? = some r' → r'.stage.held? ≠ some gate

/-- Moves have left the gate of a kind behind, and no report has taken it since. -/
inductive LeftBehind (webhooks : Bool) (kind : String) : List Move → Prop
  | now {moves : List Move} {m : Move} {s : Reports} {events : List Event}
    (ran : run webhooks empty moves = some (s, events)) (leaves : s.Leaves m kind) :
    LeftBehind webhooks kind (moves ++ [m])
  | before {moves : List Move} {m : Move} {s : Reports} {events : List Event} (left : LeftBehind webhooks kind moves)
    (ran : run webhooks empty moves = some (s, events)) (kept : ¬ s.Takes m kind) :
    LeftBehind webhooks kind (moves ++ [m])

theorem leftBehind_concat_iff (ran : run webhooks empty moves = some (s, events)) :
    LeftBehind webhooks kind (moves ++ [m]) ↔ s.Leaves m kind ∨ (LeftBehind webhooks kind moves ∧ ¬ s.Takes m kind) := by
  constructor
  · intro left
    generalize same : moves ++ [m] = all at left
    cases left with
    | now ran' leaves =>
      obtain ⟨rfl, last⟩ := List.append_inj' same rfl
      cases last
      rw [ran] at ran'
      cases ran'
      exact .inl leaves
    | before left ran' kept =>
      obtain ⟨rfl, last⟩ := List.append_inj' same rfl
      cases last
      rw [ran] at ran'
      cases ran'
      exact .inr ⟨left, kept⟩
  · rintro (leaves | ⟨left, kept⟩)
    · exact .now ran leaves
    · exact .before left ran kept

/-- Another report than that of a number holds the gate of a kind. -/
def OtherHolds (s : Reports) (i : Nat) (kind : String) : Prop :=
  ∃ j r gate, j ≠ i ∧ s.all[j]? = some r ∧ r.kind = kind ∧ r.stage.held? = some gate

/-- A report holds the gate of a kind. -/
def Holds (s : Reports) (kind : String) : Prop :=
  ∃ (i : Nat) (r : Report) (gate : Nat), s.all[i]? = some r ∧ r.kind = kind ∧ r.stage.held? = some gate

theorem holds_iff (found : s.all[i]? = some r) :
    s.Holds kind ↔ (r.kind = kind ∧ ∃ gate, r.stage.held? = some gate) ∨ s.OtherHolds i kind := by
  constructor
  · rintro ⟨j, r', gate, there, same, held⟩
    by_cases own : j = i
    · subst own
      rw [found] at there
      cases there
      exact .inl ⟨same, gate, held⟩
    · exact .inr ⟨j, r', gate, own, there, same, held⟩
  · rintro (⟨same, gate, held⟩ | ⟨j, r', gate, -, there, same, held⟩)
    · exact ⟨i, r, gate, found, same, held⟩
    · exact ⟨j, r', gate, there, same, held⟩

theorem holds_advance_iff (found : s.all[i]? = some r)
    (step : Advance webhooks failure s r.kind r.stage later u e) :
    Holds { u with all := u.all.set i { r with stage := later } } kind ↔
      (r.kind = kind ∧ ∃ gate, later.held? = some gate) ∨ s.OtherHolds i kind := by
  have within := (List.getElem?_eq_some_iff.1 found).1
  have there : (u.all.set i { r with stage := later })[i]? = some { r with stage := later } := by
    rw [step.all_eq, List.getElem?_set_self within]
  rw [holds_iff there]
  refine or_congr .rfl ?_
  simp only [OtherHolds, step.all_eq]
  exact exists_congr fun j => exists_congr fun r' => exists_congr fun gate => and_congr_right fun ne => by
    rw [List.getElem?_set_ne (Ne.symm ne)]

theorem takes_iff (found : s.all[i]? = some r) :
    s.Takes (.advance i failure) kind ↔ r.kind = kind ∧ r.stage = .unstarted := by
  constructor
  · rintro ⟨j, _, r', same, there, kinds, stage⟩
    cases same
    rw [found] at there
    cases there
    exact ⟨kinds, stage⟩
  · exact fun ⟨kinds, stage⟩ => ⟨i, failure, r, rfl, found, kinds, stage⟩

theorem leaves_iff (found : s.all[i]? = some r) : s.Leaves (.advance i failure) kind ↔ r.kind = kind ∧
    ∃ gate result, r.stage = .outside gate result ∧
      (∃ j r', j ≠ i ∧ s.all[j]? = some r' ∧ r'.stage.gate? = some gate) ∧
      ∀ j r', j ≠ i → s.all[j]? = some r' → r'.stage.held? ≠ some gate := by
  constructor
  · rintro ⟨j, _, r', gate, result, same, there, kinds, stage, others⟩
    cases same
    rw [found] at there
    cases there
    exact ⟨kinds, gate, result, stage, others⟩
  · exact fun ⟨kinds, gate, result, stage, others⟩ => ⟨i, failure, r, gate, result, rfl, found, kinds, stage, others⟩

theorem Advance.lookup_of_ne (step : Advance webhooks failure s kind stage later u e) {other : String}
    (ne : other ≠ kind) : u.gates.lookup other = s.gates.lookup other := by
  rcases step.gate_cases with ⟨-, -, rfl⟩ | ⟨gate, _, -, -, rfl⟩ | ⟨-, -, gates, -⟩
  · exact lookup_takeGate_of_ne ne
  · exact lookup_releaseGate ne
  · rw [gates]

/-- A gate is taken away from its kind exactly if a report and the list are its only owners. -/
theorem lookup_releaseGate_self (listed : s.gates.lookup kind = some gate) :
    (s.releaseGate kind gate).gates.lookup kind ≠ none ↔ s.owners gate ≠ 2 := by
  rw [releaseGate]
  split
  · next two =>
    have gone : (s.gates.filter (·.1 ≠ kind)).lookup kind = none := by
      refine lookup_eq_none_iff.2 fun mem => ?_
      obtain ⟨entry, held, same⟩ := List.mem_map.1 mem
      exact of_decide_eq_true (List.mem_filter.1 held).2 same
    simp only [gone, ne_eq, not_true_eq_false, two]
  · next more => simp [listed, more]

/-- What is so of gates after a run. The gate of a kind is in the list while a report of the kind holds it, and if it was
left behind. -/
structure Tracked (webhooks : Bool) (moves : List Move) (events : List Event) (s : Reports) : Prop where
  ran : run webhooks Reports.empty moves = some (s, events)
  sound : Sound s
  numbered : Numbered s
  left : ∀ kind, LeftBehind webhooks kind moves ↔ s.gates.lookup kind ≠ none ∧ ¬ s.Holds kind

namespace Tracked

variable (tracked : Tracked webhooks moves events s)
include tracked

/-- The report that asks last about the owners of its gate takes the gate away, or leaves it behind. -/
theorem leaves_iff_listed (found : s.all[i]? = some r) {result : Except SetupError Bool}
    (stage : r.stage = .outside gate result) :
    ((∃ j r', j ≠ i ∧ s.all[j]? = some r' ∧ r'.stage.gate? = some gate) ∧
      ∀ j r', j ≠ i → s.all[j]? = some r' → r'.stage.held? ≠ some gate) ↔
      (s.releaseGate r.kind gate).gates.lookup r.kind ≠ none ∧ ¬ s.OtherHolds i r.kind := by
  have listed := tracked.sound.held i r gate found (by rw [stage]; rfl)
  have owns : r.stage.gate? = some gate := by rw [stage]; rfl
  rw [lookup_releaseGate_self listed]
  refine and_congr ⟨?_, tracked.numbered.exists_owner found owns listed⟩ ⟨?_, ?_⟩
  · rintro ⟨j, r', ne, there, also⟩ two
    exact ne (alone_of_owners found owns listed two j r' there also)
  · rintro free ⟨j, r', other, ne, there, same, held⟩
    have own := tracked.sound.held j r' other there held
    rw [same, listed] at own
    cases own
    exact free j r' ne there held
  · intro free j r' ne there held
    have own := tracked.sound.held j r' gate there held
    exact free ⟨j, r', gate, ne, there, tracked.numbered.kind_eq own listed, held⟩

theorem left_advance (found : s.all[i]? = some r) (step : Advance webhooks failure s r.kind r.stage later u e) :
    LeftBehind webhooks kind (moves ++ [.advance i failure]) ↔
      u.gates.lookup kind ≠ none ∧ ¬ Holds { u with all := u.all.set i { r with stage := later } } kind := by
  rw [leftBehind_concat_iff tracked.ran, takes_iff found, leaves_iff found, holds_advance_iff found step,
    tracked.left kind, holds_iff found]
  by_cases same : r.kind = kind
  · subst same
    rcases step.gate_cases with ⟨before, rfl, rfl⟩ | ⟨gate, result, before, rfl, rfl⟩ | ⟨ne, outside, gates, -, held⟩
    · simp [before, Stage.held?]
    · have asked := tracked.leaves_iff_listed found before
      simpa [before, Stage.held?] using asked
    · simp [ne, outside, gates, held]
  · simp [same, step.lookup_of_ne (Ne.symm same)]

/-- A move of no report. -/
theorem left_still (still : ∀ i failure, m ≠ .advance i failure) (gates : t.gates = s.gates)
    (holds : t.Holds kind ↔ s.Holds kind) :
    LeftBehind webhooks kind (moves ++ [m]) ↔ t.gates.lookup kind ≠ none ∧ ¬ t.Holds kind := by
  have takes : ¬ s.Takes m kind := fun ⟨i, failure, _, same, _⟩ => still i failure same
  have leaves : ¬ s.Leaves m kind := fun ⟨i, failure, _, _, _, same, _⟩ => still i failure same
  rw [leftBehind_concat_iff tracked.ran, gates, holds, ← tracked.left kind]
  simp [leaves, takes]

theorem move (moved : s.move webhooks m = some (t, e)) : Tracked webhooks (moves ++ [m]) (events ++ [e]) t := by
  refine ⟨run_concat tracked.ran moved, tracked.sound.move moved, tracked.numbered.move moved, fun kind => ?_⟩
  rcases move_cases moved with ⟨other, rfl, rfl, -⟩ | ⟨i, failure, r, stage, u, rfl, found, step, rfl⟩ | ⟨rfl, rfl, -⟩
  · refine tracked.left_still nofun rfl ⟨?_, ?_⟩
    · rintro ⟨j, r, gate, there, same, held⟩
      rcases getElem?_arrived there with old | new
      · exact ⟨j, r, gate, old, same, held⟩
      · cases new ▸ held
    · rintro ⟨j, r, gate, there, same, held⟩
      exact ⟨j, r, gate, (List.getElem?_append_left (List.getElem?_eq_some_iff.1 there).1).trans there, same, held⟩
  · exact tracked.left_advance found step
  · exact tracked.left_still nofun rfl .rfl

end Tracked

theorem tracked_of_run (ran : run webhooks empty moves = some (s, events)) : Tracked webhooks moves events s := by
  have none_left : ∀ kind, LeftBehind webhooks kind [] ↔ empty.gates.lookup kind ≠ none ∧ ¬ empty.Holds kind := by
    intro kind
    refine ⟨fun left => ?_, fun listed => absurd rfl listed.1⟩
    generalize same : ([] : List Move) = all at left
    cases left <;> simp at same
  exact run_preserves (P := Tracked webhooks) (fun _ _ _ _ _ _ tracked moved => tracked.move moved) [] []
    ⟨rfl, .empty, .empty, none_left⟩ ran

/-- When all reports have ended, the gates in the list are those that were left behind. -/
theorem gates_of_idle (ran : run webhooks empty moves = some (s, events)) (idle : s.idle = true) :
    s.gates = [] ↔ ∀ kind, ¬ LeftBehind webhooks kind moves := by
  have tracked := tracked_of_run ran
  have free : ∀ kind, ¬ s.Holds kind := by
    rintro kind ⟨j, r, gate, there, -, held⟩
    have ended := List.all_eq_true.1 idle r (List.mem_of_getElem? there)
    cases stage : r.stage <;> simp [stage, Stage.isEnded, Stage.held?] at ended held
  constructor
  · intro none kind left
    exact ((tracked.left kind).1 left).1 (by rw [none]; rfl)
  · intro none
    cases gates : s.gates with
    | nil => rfl
    | cons entry rest =>
      refine absurd ((tracked.left entry.1).2 ⟨?_, free entry.1⟩) (none entry.1)
      simp [gates]

/-- Two reports of a kind wait for the same gate. The first one sets the kind up, and both have left the gate. -/
def bothOutside : List Move := [.report "Project", .report "Project", .advance 0 none, .advance 1 none,
  .advance 0 none, .advance 1 none, .advance 0 none, .advance 0 none, .advance 0 none, .advance 0 none, .advance 0 none,
  .advance 1 none, .advance 1 none, .advance 1 none]

/-- The second report asks about the owners of the gate after the first one has ended. -/
def oneByOne : List Move := bothOutside ++ [.advance 0 none, .advance 0 none, .advance 1 none, .advance 1 none]

/-- Both reports ask before one of them ends. -/
def overlapping : List Move := bothOutside ++ [.advance 0 none, .advance 1 none, .advance 0 none, .advance 1 none]

theorem gates_of_idle_project :
    (∃ s events, run false empty oneByOne = some (s, events) ∧ s.idle = true ∧ s.gates = [] ∧
      ∀ kind, ¬ LeftBehind false kind oneByOne) ∧
    ∃ s events, run false empty overlapping = some (s, events) ∧ s.idle = true ∧ s.gates = [("Project", 0)] ∧
      ∃ kind, LeftBehind false kind overlapping := by
  have first : run false empty oneByOne = some (_, _) := rfl
  have second : run false empty overlapping = some (_, _) := rfl
  refine ⟨⟨_, _, first, rfl, rfl, (gates_of_idle first rfl).1 rfl⟩, _, _, second, rfl, rfl, ?_⟩
  by_contra none
  cases (gates_of_idle second rfl).2 fun kind left => none ⟨kind, left⟩

theorem gates_of_overlapping : ¬ ∀ webhooks moves s events, run webhooks empty moves = some (s, events) →
    s.idle = true → s.gates = [] := by
  intro always
  cases always false overlapping _ _ rfl rfl

end FlatStore.Setup.Reports
