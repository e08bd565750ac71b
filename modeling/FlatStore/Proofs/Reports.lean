import FlatStore.Json.Members
import FlatStore.Setup.Gates

/-!
Reports that come at the same time, move by move. What a report can do next is said once (`Reports.Advance`), and what
holds of reports whatever moves are made is shown for one move at a time (`Reports.run_preserves`). A gate has a
single kind as long as it is held (`Reports.Sound.held`), and no two reports are inside the same gate
(`Reports.Sound.exclusive`), so that no two reports of a kind are inside of gates at the same time
(`Reports.Sound.alone`).
-/
namespace FlatStore.Setup

/-! ### Counting in lists -/

/-- Of the members of a list with a property, one is the only one exactly if the count is one. -/
theorem countP_eq_one_iff {α : Type} {p : α → Bool} {l : List α} {i : Nat} {a : α} (found : l[i]? = some a)
    (holds : p a = true) : l.countP p = 1 ↔ ∀ j b, l[j]? = some b → p b = true → j = i := by
  induction l generalizing i with
  | nil => cases found
  | cons b rest ih =>
    rw [List.countP_cons]
    cases i with
    | zero =>
      cases found
      simp only [holds, if_true, Nat.add_eq_right, List.countP_eq_zero]
      constructor
      · rintro none (_ | j) c there also
        · rfl
        · exact absurd also (none c (List.mem_of_getElem? there))
      · intro alone c mem also
        obtain ⟨j, there⟩ := List.mem_iff_getElem?.1 mem
        cases alone (j + 1) c there also
    | succ i =>
      have here : 0 < rest.countP p := List.countP_pos_iff.2 ⟨a, List.mem_of_getElem? found, holds⟩
      by_cases first : p b = true
      · simp only [first, if_true]
        constructor
        · omega
        · intro alone
          cases alone 0 b rfl first
      · simp only [first]
        refine (ih found).trans ⟨?_, fun alone j c there also => ?_⟩
        · rintro alone (_ | j) c there also
          · cases there
            exact absurd also first
          · rw [alone j c there also]
        · exact Nat.succ.inj (alone (j + 1) c there also)

theorem countP_set_add {α : Type} {p : α → Bool} {l : List α} {i : Nat} {a : α} (found : l[i]? = some a) (b : α) :
    (l.set i b).countP p + (if p a = true then 1 else 0) = l.countP p + if p b = true then 1 else 0 := by
  obtain ⟨within, here⟩ := List.getElem?_eq_some_iff.1 found
  rw [List.countP_set within, here]
  by_cases holds : p a = true
  · have counted : 0 < l.countP p := List.countP_pos_iff.2 ⟨a, List.mem_of_getElem? found, holds⟩
    rw [if_pos holds]
    omega
  · rw [if_neg holds, Nat.sub_zero, Nat.add_zero]

namespace Stage

/-- The gate that a report owns and about whose owners it has not yet asked. -/
def held? : Stage → Option Nat
  | .waiting gate | .entered gate | .settingUp gate _ | .setUp gate | .leaving gate _ | .outside gate _ => some gate
  | .new | .unstarted | .released .. | .ended _ => none

/-- How a report ends, as soon as that is settled. -/
def result? : Stage → Option (Except SetupError Bool)
  | .leaving _ result | .outside _ result | .released _ result | .ended result => some result
  | .new | .unstarted | .waiting _ | .entered _ | .settingUp .. | .setUp _ => none

theorem held?_of_inside? {stage : Stage} {gate : Nat} (inside : stage.inside? = some gate) :
    stage.held? = some gate := by
  cases stage <;> first | exact inside | cases inside

theorem gate?_of_held? {stage : Stage} {gate : Nat} (held : stage.held? = some gate) : stage.gate? = some gate := by
  cases stage <;> first | exact held | cases held

theorem exists_inside? {stage : Stage} (setup : stage.isSetup = true) : ∃ gate, stage.inside? = some gate := by
  cases stage <;> first | exact ⟨_, rfl⟩ | cases setup

end Stage

namespace Reports

variable {webhooks : Bool} {s t u : Reports} {m : Move} {e : Event} {moves : List Move} {events : List Event}
  {failure : Option SetupError} {kind : String} {stage later : Stage} {gate : Nat} {r : Report}

/-! ### What a report can do next -/

/-- A report of a kind moves from one stage to the next. A step of the setup ends as given. -/
inductive Advance (webhooks : Bool) (failure : Option SetupError) (s : Reports) (kind : String) :
    Stage → Stage → Reports → Event → Prop
  | known (started : kind ∈ s.started) :
    Advance webhooks failure s kind .new (.ended (.ok false)) s (.ended kind (.ok false))
  | unknown (unstarted : kind ∉ s.started) : Advance webhooks failure s kind .new .unstarted s .silent
  | take : Advance webhooks failure s kind .unstarted (.waiting (s.takeGate kind).1) (s.takeGate kind).2 .silent
  | enter (gate : Nat) (free : ∀ r ∈ s.all, r.stage.inside? ≠ some gate) :
    Advance webhooks failure s kind (.waiting gate) (.entered gate) s .silent
  | late (gate : Nat) (started : kind ∈ s.started) :
    Advance webhooks failure s kind (.entered gate) (.leaving gate (.ok false)) s .silent
  | begin (gate : Nat) (unstarted : kind ∉ s.started) :
    Advance webhooks failure s kind (.entered gate) (.settingUp gate .manager) s .silent
  | failed (gate : Nat) (phase : Phase) (error : SetupError) (given : failure = some error) :
    Advance webhooks failure s kind (.settingUp gate phase) (.leaving gate (.error error)) s
      (.ran kind phase (some error))
  | managed (gate : Nat) (given : failure = none) (more : webhooks = true) :
    Advance webhooks failure s kind (.settingUp gate .manager) (.settingUp gate .webhook) s (.ran kind .manager none)
  | done (gate : Nat) (phase : Phase) (given : failure = none) (last : phase = .manager → webhooks = false) :
    Advance webhooks failure s kind (.settingUp gate phase) (.setUp gate) s (.ran kind phase none)
  | start (gate : Nat) : Advance webhooks failure s kind (.setUp gate) (.leaving gate (.ok true))
      { s with started := kind :: s.started } (.started kind)
  | leave (gate : Nat) (result : Except SetupError Bool) :
    Advance webhooks failure s kind (.leaving gate result) (.outside gate result) s .silent
  | release (gate : Nat) (result : Except SetupError Bool) :
    Advance webhooks failure s kind (.outside gate result) (.released gate result) (s.releaseGate kind gate) .silent
  | finish (gate : Nat) (result : Except SetupError Bool) :
    Advance webhooks failure s kind (.released gate result) (.ended result) s (.ended kind result)

theorem isStarted_iff : s.isStarted kind = true ↔ kind ∈ s.started := List.contains_iff_mem

theorem isOccupied_eq_false_iff : s.isOccupied gate = false ↔ ∀ r ∈ s.all, r.stage.inside? ≠ some gate := by
  simp [isOccupied]

theorem advance_of_next (moved : s.next webhooks failure r = some (stage, t, e)) :
    Advance webhooks failure s r.kind r.stage stage t e := by
  obtain ⟨kind, old⟩ := r
  cases old with
  | new =>
    simp only [Reports.next] at moved
    split at moved
    · cases moved
      exact .known (isStarted_iff.1 ‹_›)
    · cases moved
      exact .unknown (mt isStarted_iff.2 ‹_›)
  | unstarted =>
    cases moved
    exact .take
  | waiting gate =>
    simp only [Reports.next] at moved
    split at moved
    · cases moved
    · cases moved
      exact .enter gate (isOccupied_eq_false_iff.1 (Bool.eq_false_iff.2 ‹_›))
  | entered gate =>
    simp only [Reports.next] at moved
    split at moved
    · cases moved
      exact .late gate (isStarted_iff.1 ‹_›)
    · cases moved
      exact .begin gate (mt isStarted_iff.2 ‹_›)
  | settingUp gate phase =>
    cases failure with
    | some error =>
      cases moved
      exact .failed gate phase error rfl
    | none =>
      cases phase with
      | manager =>
        cases webhooks with
        | true =>
          cases moved
          exact .managed gate rfl rfl
        | false =>
          cases moved
          exact .done gate .manager rfl fun _ => rfl
      | webhook =>
        cases moved
        exact .done gate .webhook rfl nofun
  | setUp gate =>
    cases moved
    exact .start gate
  | leaving gate result =>
    cases moved
    exact .leave gate result
  | outside gate result =>
    cases moved
    exact .release gate result
  | released gate result =>
    cases moved
    exact .finish gate result
  | ended result => cases moved

/-- A move is the arrival of a report, an advance of one, or a shutdown. -/
theorem move_cases (moved : s.move webhooks m = some (t, e)) :
    (∃ kind, m = .report kind ∧ t = { s with all := s.all ++ [⟨kind, .new⟩] } ∧ e = .silent) ∨
      (∃ i failure r stage u, m = .advance i failure ∧ s.all[i]? = some r ∧
        Advance webhooks failure s r.kind r.stage stage u e ∧
        t = { u with all := u.all.set i { r with stage := stage } }) ∨
      (m = .shutdown ∧ t = { s with started := [] } ∧ e = .cleared) := by
  cases m with
  | report kind =>
    cases moved
    exact .inl ⟨kind, rfl, rfl, rfl⟩
  | advance i failure =>
    obtain ⟨r, found, moved⟩ := Option.bind_eq_some_iff.1 moved
    obtain ⟨⟨stage, u, event⟩, next, moved⟩ := Option.bind_eq_some_iff.1 moved
    cases moved
    exact .inr (.inl ⟨i, failure, r, stage, u, rfl, found, advance_of_next next, rfl⟩)
  | shutdown =>
    cases moved
    exact .inr (.inr ⟨rfl, rfl, rfl⟩)

/-! ### Runs -/

theorem run_cons_eq_some_iff : run webhooks s (m :: moves) = some (t, events) ↔
    ∃ u e rest, s.move webhooks m = some (u, e) ∧ run webhooks u moves = some (t, rest) ∧ events = e :: rest := by
  rw [run]
  constructor
  · intro ran
    obtain ⟨⟨u, e⟩, moved, ran⟩ := Option.bind_eq_some_iff.1 ran
    obtain ⟨⟨t', rest⟩, later, ran⟩ := Option.bind_eq_some_iff.1 ran
    cases ran
    exact ⟨u, e, rest, moved, later, rfl⟩
  · rintro ⟨u, e, rest, moved, later, rfl⟩
    simp [moved, later]

theorem exists_move (ran : run webhooks s moves = some (t, e :: events)) :
    ∃ u m rest, moves = m :: rest ∧ s.move webhooks m = some (u, e) ∧ run webhooks u rest = some (t, events) := by
  cases moves with
  | nil => cases ran
  | cons m rest =>
    obtain ⟨u, e', later, moved, onward, same⟩ := run_cons_eq_some_iff.1 ran
    obtain ⟨rfl, rfl⟩ := List.cons.inj same
    exact ⟨u, m, rest, rfl, moved, onward⟩

/-- What is so before a run, and after one more move whenever it was so before that move, is so after the run. -/
theorem run_preserves {P : List Move → List Event → Reports → Prop}
    (step : ∀ moves events s m t e, P moves events s → s.move webhooks m = some (t, e) →
      P (moves ++ [m]) (events ++ [e]) t) (before : List Move) (seen : List Event) (start : P before seen s)
    (ran : run webhooks s moves = some (t, events)) : P (before ++ moves) (seen ++ events) t := by
  induction moves generalizing before seen s events with
  | nil =>
    cases ran
    simpa using start
  | cons m rest ih =>
    obtain ⟨u, e, later, moved, onward, rfl⟩ := run_cons_eq_some_iff.1 ran
    simpa using ih _ _ (step before seen s m u e start moved) onward

/-- Moves and what they do can be cut at the same places. -/
theorem run_append_moves {first second : List Move} (ran : run webhooks s (first ++ second) = some (t, events)) :
    ∃ u before after, run webhooks s first = some (u, before) ∧ run webhooks u second = some (t, after) ∧
      events = before ++ after := by
  induction first generalizing s events with
  | nil => exact ⟨s, [], events, rfl, ran, rfl⟩
  | cons m rest ih =>
    obtain ⟨v, e, later, moved, onward, rfl⟩ := run_cons_eq_some_iff.1 ran
    obtain ⟨u, before, after, start, finish, rfl⟩ := ih onward
    exact ⟨u, e :: before, after, run_cons_eq_some_iff.2 ⟨v, e, before, moved, start, rfl⟩, finish, rfl⟩

theorem run_concat {e : Event} (ran : run webhooks s moves = some (t, events)) (moved : t.move webhooks m = some (u, e)) :
    run webhooks s (moves ++ [m]) = some (u, events ++ [e]) := by
  induction moves generalizing s events with
  | nil =>
    cases ran
    simp [run, moved]
  | cons m' rest ih =>
    obtain ⟨v, e', later, first, onward, rfl⟩ := run_cons_eq_some_iff.1 ran
    exact run_cons_eq_some_iff.2 ⟨v, e', later ++ [e], first, ih onward, rfl⟩

theorem run_append_events {before after : List Event} (ran : run webhooks s moves = some (t, before ++ after)) :
    ∃ u first second, run webhooks s first = some (u, before) ∧ run webhooks u second = some (t, after) ∧
      moves = first ++ second := by
  induction before generalizing s moves with
  | nil => exact ⟨s, [], moves, rfl, ran, rfl⟩
  | cons e rest ih =>
    obtain ⟨v, m, moves, rfl, moved, onward⟩ := exists_move ran
    obtain ⟨u, first, second, start, finish, rfl⟩ := ih onward
    exact ⟨u, m :: first, second, run_cons_eq_some_iff.2 ⟨v, e, rest, moved, start, rfl⟩, finish, rfl⟩

/-! ### Gates and their owners -/

theorem lookup_takeGate (s : Reports) (kind : String) :
    (s.takeGate kind).2.gates.lookup kind = some (s.takeGate kind).1 := by
  rw [takeGate]
  cases found : s.gates.lookup kind with
  | some gate => exact found
  | none => simp

theorem lookup_takeGate_of_ne {other : String} (ne : other ≠ kind) :
    (s.takeGate kind).2.gates.lookup other = s.gates.lookup other := by
  rw [takeGate]
  cases s.gates.lookup kind with
  | some _ => rfl
  | none => simp [List.lookup_cons, beq_false_of_ne ne]

theorem lookup_takeGate_of_lookup {other : String} (found : s.gates.lookup other = some gate) :
    (s.takeGate kind).2.gates.lookup other = some gate := by
  by_cases same : other = kind
  · subst same
    rw [takeGate, found]
    exact found
  · rwa [lookup_takeGate_of_ne same]

theorem lookup_releaseGate {other : String} (ne : other ≠ kind) :
    (s.releaseGate kind gate).gates.lookup other = s.gates.lookup other := by
  rw [releaseGate]
  split
  · exact lookup_filter (p := fun name => decide (name ≠ kind)) (decide_eq_true ne)
  · rfl

theorem all_takeGate (s : Reports) (kind : String) : (s.takeGate kind).2.all = s.all := by
  rw [takeGate]
  cases s.gates.lookup kind <;> rfl

theorem all_releaseGate (s : Reports) (kind : String) (gate : Nat) : (s.releaseGate kind gate).all = s.all := by
  rw [releaseGate]
  split <;> rfl

theorem started_takeGate (s : Reports) (kind : String) : (s.takeGate kind).2.started = s.started := by
  rw [takeGate]
  cases s.gates.lookup kind <;> rfl

theorem started_releaseGate (s : Reports) (kind : String) (gate : Nat) :
    (s.releaseGate kind gate).started = s.started := by
  rw [releaseGate]
  split <;> rfl

/-- A report that finds no other owner of its gate is the only one. -/
theorem alone_of_owners {i : Nat} (found : s.all[i]? = some r) (owns : r.stage.gate? = some gate)
    (listed : s.gates.lookup kind = some gate) (two : s.owners gate = 2) :
    ∀ j r', s.all[j]? = some r' → r'.stage.gate? = some gate → j = i := by
  have reports : 0 < s.all.countP (·.stage.gate? = some gate) :=
    List.countP_pos_iff.2 ⟨r, List.mem_of_getElem? found, decide_eq_true owns⟩
  have list : 0 < s.gates.countP (·.2 = gate) :=
    List.countP_pos_iff.2 ⟨(kind, gate), mem_of_lookup listed, decide_eq_true rfl⟩
  have one : s.all.countP (·.stage.gate? = some gate) = 1 := by
    rw [owners] at two
    omega
  intro j r' there also
  exact (countP_eq_one_iff found (decide_eq_true owns)).1 one j r' there (decide_eq_true also)

/-! ### What every advance does -/

namespace Advance

theorem all_eq (step : Advance webhooks failure s kind stage later u e) : u.all = s.all := by
  cases step with
  | take => exact all_takeGate s kind
  | release => exact all_releaseGate s kind _
  | _ => rfl

/-- A report takes a gate, or asks about the owners of the gate that it holds, or leaves all gates as they are. -/
theorem gate_cases (step : Advance webhooks failure s kind stage later u e) :
    (stage = .unstarted ∧ later = .waiting (s.takeGate kind).1 ∧ u = (s.takeGate kind).2) ∨
      (∃ gate result, stage = .outside gate result ∧ later = .released gate result ∧ u = s.releaseGate kind gate) ∨
      (stage ≠ .unstarted ∧ (∀ gate result, stage ≠ .outside gate result) ∧ u.gates = s.gates ∧ u.made = s.made ∧
        later.held? = stage.held?) := by
  cases step with
  | take => exact .inl ⟨rfl, rfl, rfl⟩
  | release => exact .inr (.inl ⟨_, _, rfl, rfl, rfl⟩)
  | _ => exact .inr (.inr ⟨nofun, nofun, rfl, rfl, rfl⟩)

/-- A report that comes inside of a gate finds nobody there. -/
theorem inside_cases (step : Advance webhooks failure s kind stage later u e) (inside : later.inside? = some gate) :
    stage.inside? = some gate ∨ ∀ r ∈ s.all, r.stage.inside? ≠ some gate := by
  cases step with
  | enter other free =>
    cases inside
    exact .inr free
  | late | begin | managed | done | failed | start => exact .inl inside
  | known | unknown | take | leave | release | finish => cases inside

/-- A report starts a kind, or leaves the started kinds as they are. -/
theorem started_cases (step : Advance webhooks failure s kind stage later u e) :
    (∃ gate, stage = .setUp gate ∧ later = .leaving gate (.ok true) ∧ u.started = kind :: s.started ∧
      e = .started kind) ∨ (u.started = s.started ∧ ∀ other, e ≠ .started other) := by
  cases step with
  | start gate => exact .inl ⟨gate, rfl, rfl, rfl, rfl⟩
  | take => exact .inr ⟨started_takeGate s kind, nofun⟩
  | release => exact .inr ⟨started_releaseGate s kind _, nofun⟩
  | _ => exact .inr ⟨rfl, nofun⟩

/-- A setup begins only if its kind is not started. -/
theorem setup_cases (step : Advance webhooks failure s kind stage later u e) (setup : later.isSetup = true) :
    stage.isSetup = true ∨ kind ∉ s.started := by
  cases step with
  | begin gate unstarted => exact .inr unstarted
  | managed | done => exact .inl rfl
  | known | unknown | take | enter | late | failed | start | leave | release | finish => cases setup

end Advance

theorem getElem?_set_cases {i j : Nat} {l : List Report} {r' : Report} (found : (l.set i r)[j]? = some r') :
    (j = i ∧ r' = r) ∨ (j ≠ i ∧ l[j]? = some r') := by
  rw [List.getElem?_set] at found
  split at found
  · next same =>
    split at found
    · exact .inl ⟨same.symm, (Option.some.inj found).symm⟩
    · cases found
  · next ne => exact .inr ⟨Ne.symm ne, found⟩

theorem getElem?_arrived {j : Nat} {l : List Report} {r : Report} (found : (l ++ [⟨kind, .new⟩])[j]? = some r) :
    l[j]? = some r ∨ r.stage = .new := by
  rw [List.getElem?_append] at found
  split at found
  · exact .inl found
  · have new := List.mem_of_getElem? found
    rw [List.mem_singleton] at new
    exact .inr (by rw [new])

/-! ### What holds at any time -/

/-- What holds of reports whatever moves they have made. -/
structure Sound (s : Reports) : Prop where
  /-- A report that holds a gate holds the gate of its kind. -/
  held : ∀ (i : Nat) r gate, s.all[i]? = some r → r.stage.held? = some gate → s.gates.lookup r.kind = some gate
  /-- At most one report is inside of a gate. -/
  exclusive : ∀ (i j : Nat) r r' gate, s.all[i]? = some r → s.all[j]? = some r' → r.stage.inside? = some gate →
    r'.stage.inside? = some gate → i = j
  /-- No kind is started during its setup. -/
  unstarted : ∀ (i : Nat) r, s.all[i]? = some r → r.stage.isSetup = true → r.kind ∉ s.started

namespace Sound

/-- Reports inside of gates are of different kinds. -/
theorem alone (sound : Sound s) {i j : Nat} {r r' : Report} (first : s.all[i]? = some r) (second : s.all[j]? = some r')
    (same : r.kind = r'.kind) {gate gate' : Nat} (inside : r.stage.inside? = some gate)
    (inside' : r'.stage.inside? = some gate') : i = j := by
  have here := sound.held i r gate first (Stage.held?_of_inside? inside)
  have there := sound.held j r' gate' second (Stage.held?_of_inside? inside')
  rw [same, there] at here
  cases here
  exact sound.exclusive i j r r' gate first second inside inside'

theorem empty : Sound empty := ⟨by simp [Reports.empty], by simp [Reports.empty], by simp [Reports.empty]⟩

section advance
variable {i : Nat} (sound : Sound s) (found : s.all[i]? = some r)
  (step : Advance webhooks failure s r.kind r.stage later u e)
include sound found step

theorem held_advance {j : Nat} {r' : Report} (there : (s.all.set i { r with stage := later })[j]? = some r')
    (held : r'.stage.held? = some gate) : u.gates.lookup r'.kind = some gate := by
  rcases step.gate_cases with ⟨-, rfl, rfl⟩ | ⟨own, result, before, rfl, rfl⟩ | ⟨-, -, gates, -, stays⟩
  · rcases getElem?_set_cases there with ⟨-, rfl⟩ | ⟨-, other⟩
    · cases held
      exact lookup_takeGate s r.kind
    · exact lookup_takeGate_of_lookup (sound.held j r' gate other held)
  · rcases getElem?_set_cases there with ⟨-, rfl⟩ | ⟨ne, other⟩
    · cases held
    · have listed := sound.held j r' gate other held
      by_cases same : r'.kind = r.kind
      · -- The other report owns the gate too, so that it is not taken away.
        have mine := sound.held i r own found (by rw [before]; rfl)
        rw [same, mine] at listed
        obtain rfl : own = gate := Option.some.inj listed
        have kept : ¬ s.owners own = 2 := fun two =>
          ne (alone_of_owners found (by rw [before]; rfl) mine two j r' other (Stage.gate?_of_held? held))
        rw [same, releaseGate, if_neg kept, mine]
      · rwa [lookup_releaseGate same]
  · rw [gates]
    rcases getElem?_set_cases there with ⟨-, rfl⟩ | ⟨-, other⟩
    · exact sound.held i r gate found (stays.symm.trans held)
    · exact sound.held j r' gate other held

theorem exclusive_advance {j k : Nat} {r' r'' : Report}
    (first : (s.all.set i { r with stage := later })[j]? = some r')
    (second : (s.all.set i { r with stage := later })[k]? = some r'') (inside : r'.stage.inside? = some gate)
    (inside' : r''.stage.inside? = some gate) : j = k := by
  rcases getElem?_set_cases first with ⟨rfl, rfl⟩ | ⟨-, one⟩ <;>
    rcases getElem?_set_cases second with ⟨rfl, rfl⟩ | ⟨-, two⟩
  · rfl
  · rcases step.inside_cases inside with already | free
    · exact sound.exclusive _ _ r r'' gate found two already inside'
    · exact absurd inside' (free r'' (List.mem_of_getElem? two))
  · rcases step.inside_cases inside' with already | free
    · exact sound.exclusive _ _ r' r gate one found inside already
    · exact absurd inside (free r' (List.mem_of_getElem? one))
  · exact sound.exclusive _ _ r' r'' gate one two inside inside'

theorem unstarted_advance {j : Nat} {r' : Report} (there : (s.all.set i { r with stage := later })[j]? = some r')
    (setup : r'.stage.isSetup = true) : r'.kind ∉ u.started := by
  rcases step.started_cases with ⟨gate, before, rfl, started, -⟩ | ⟨same, -⟩
  · rcases getElem?_set_cases there with ⟨-, rfl⟩ | ⟨ne, other⟩
    · cases setup
    · -- The report that starts its kind is still inside of its gate.
      obtain ⟨gate', inside⟩ := Stage.exists_inside? setup
      rw [started, List.mem_cons, not_or]
      refine ⟨fun kinds => ne ?_, sound.unstarted j r' other setup⟩
      have mine : r.stage.inside? = some gate := by rw [before]; rfl
      exact sound.alone other found kinds inside mine
  · rw [same]
    rcases getElem?_set_cases there with ⟨-, rfl⟩ | ⟨-, other⟩
    · rcases step.setup_cases setup with already | unstarted
      · exact sound.unstarted i r found already
      · exact unstarted
    · exact sound.unstarted j r' other setup

end advance

/-- Every move keeps what holds. -/
theorem move (sound : Sound s) (moved : s.move webhooks m = some (t, e)) : Sound t := by
  rcases move_cases moved with ⟨kind, -, rfl, -⟩ | ⟨i, failure, r, stage, u, -, found, step, rfl⟩ | ⟨-, rfl, -⟩
  · refine ⟨fun j r gate there held => ?_, fun j k r r' gate first second inside inside' => ?_,
      fun j r there setup => ?_⟩
    · rcases getElem?_arrived there with old | new
      · exact sound.held j r gate old held
      · cases new ▸ held
    · rcases getElem?_arrived first with old | new
      · rcases getElem?_arrived second with old' | new
        · exact sound.exclusive j k r r' gate old old' inside inside'
        · cases new ▸ inside'
      · cases new ▸ inside
    · rcases getElem?_arrived there with old | new
      · exact sound.unstarted j r old setup
      · cases new ▸ setup
  · refine ⟨?_, ?_, ?_⟩
    · intro j r' gate there
      rw [step.all_eq] at there
      exact sound.held_advance found step there
    · intro j k r' r'' gate first second
      rw [step.all_eq] at first second
      exact sound.exclusive_advance found step first second
    · intro j r' there
      rw [step.all_eq] at there
      exact sound.unstarted_advance found step there
  · exact ⟨sound.held, sound.exclusive, by simp⟩

theorem run (sound : Sound s) (ran : run webhooks s moves = some (t, events)) : Sound t :=
  run_preserves (P := fun _ _ s => Sound s) (fun _ _ _ _ _ _ sound moved => sound.move moved) [] [] sound ran

end Sound

end Reports
end FlatStore.Setup
