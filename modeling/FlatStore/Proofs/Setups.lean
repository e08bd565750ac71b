import FlatStore.Proofs.Reports
import Mathlib.Data.List.Count

/-!
Setups of one kind, whatever reports of it come at the same time. No two of them run at once, none runs while its kind is
started, one that fails starts nothing, and a kind is set up once more at most than the started kinds are forgotten
(`Reports.setUp_once`).
-/
namespace FlatStore.Setup

deriving instance DecidableEq for Event

def Stage.isSuccessful (stage : Stage) : Bool := stage.result? = some (.ok true) && !stage.isEnded

namespace Reports

variable {webhooks : Bool} {s t u v : Reports} {m : Move} {e : Event} {moves : List Move} {events : List Event}
  {failure : Option SetupError} {kind : String} {stage later : Stage} {r : Report} {i : Nat}

/-! ### Started kinds -/

theorem started_of_run (started : kind ∈ s.started) (ran : run webhooks s moves = some (t, events))
    (kept : .cleared ∉ events) : kind ∈ t.started := by
  refine run_preserves (P := fun _ events s => .cleared ∉ events → kind ∈ s.started) ?_ [] [] (fun _ => started) ran
    (by simpa using kept)
  intro moves events s m t e before moved kept
  have before := before fun mem => kept (List.mem_append_left _ mem)
  rcases move_cases moved with ⟨_, -, rfl, -⟩ | ⟨i, failure, r, stage, u, -, found, step, rfl⟩ | ⟨-, -, rfl⟩
  · exact before
  · rcases step.started_cases with ⟨_, -, -, started, -⟩ | ⟨same, -⟩
    · exact started ▸ List.mem_cons_of_mem _ before
    · exact same ▸ before
  · exact absurd List.mem_concat_self kept

theorem started_of_move (moved : s.move webhooks m = some (t, .started kind)) : kind ∈ t.started := by
  rcases move_cases moved with ⟨_, -, -, other⟩ | ⟨i, failure, r, stage, u, -, found, step, rfl⟩ | ⟨-, -, other⟩
  · cases other
  · rcases step.started_cases with ⟨_, -, -, started, same⟩ | ⟨-, other⟩
    · cases same
      exact started ▸ List.mem_cons_self
    · exact absurd rfl (other kind)
  · cases other

theorem Sound.unstarted_of_ran {phase : Phase} (sound : Sound s)
    (moved : s.move webhooks m = some (t, .ran kind phase failure)) : kind ∉ s.started := by
  rcases move_cases moved with ⟨_, -, -, other⟩ | ⟨i, given, r, stage, u, -, found, step, -⟩ | ⟨-, -, other⟩
  · cases other
  · have setup : r.stage.isSetup = true ∧ r.kind = kind := by
      generalize r.kind = name, r.stage = old at step ⊢
      cases step <;> exact ⟨rfl, rfl⟩
    exact setup.2 ▸ sound.unstarted i r found setup.1
  · cases other

/-! ### Outcomes -/

/-- The outcome of a report is settled once and for all. -/
theorem Advance.result_eq (step : Advance webhooks failure s kind stage later u e) {result : Except SetupError Bool}
    (settled : stage.result? = some result) : later.result? = some result := by
  cases step with
  | leave | release | finish => exact settled
  | known | unknown | take | enter | late | begin | failed | managed | done | start => cases settled

theorem settled_of_run {result : Except SetupError Bool}
    (settled : ∃ r, s.all[i]? = some r ∧ r.stage.result? = some result)
    (ran : run webhooks s moves = some (t, events)) : ∃ r, t.all[i]? = some r ∧ r.stage.result? = some result := by
  refine run_preserves (P := fun _ _ s => ∃ r, s.all[i]? = some r ∧ r.stage.result? = some result) ?_ [] [] settled ran
  rintro - - s m t e ⟨r, found, same⟩ moved
  have within := (List.getElem?_eq_some_iff.1 found).1
  rcases move_cases moved with ⟨_, -, rfl, -⟩ | ⟨j, failure, r', stage, u, -, found', step, rfl⟩ | ⟨-, rfl, -⟩
  · exact ⟨r, (List.getElem?_append_left within).trans found, same⟩
  · rw [step.all_eq]
    by_cases own : j = i
    · subst own
      rw [found] at found'
      cases found'
      exact ⟨_, List.getElem?_set_self within, step.result_eq same⟩
    · exact ⟨r, (List.getElem?_set_ne own).trans found, same⟩
  · exact ⟨r, found, same⟩

/-- A move that is made in the course of a run from the beginning, with the reports before and after it. -/
def Made (webhooks : Bool) (moves : List Move) (m : Move) (s : Reports) (e : Event) (t : Reports) : Prop :=
  ∃ before after events, moves = before ++ m :: after ∧ run webhooks empty before = some (s, events) ∧
    s.move webhooks m = some (t, e)

theorem Made.moved (made : Made webhooks moves m s e t) : s.move webhooks m = some (t, e) := by
  obtain ⟨_, _, _, -, -, moved⟩ := made
  exact moved

theorem Made.settled {result : Except SetupError Bool} (made : Made webhooks moves m s e t)
    (settled : ∃ r, t.all[i]? = some r ∧ r.stage.result? = some result)
    (ran : run webhooks empty moves = some (u, events)) : ∃ r, u.all[i]? = some r ∧ r.stage.result? = some result := by
  obtain ⟨before, after, earlier, rfl, start, moved⟩ := made
  obtain ⟨s', seen, rest, start', onward, -⟩ := run_append_moves ran
  rw [start] at start'
  cases start'
  obtain ⟨t', e', later, moved', onward, -⟩ := run_cons_eq_some_iff.1 onward
  rw [moved] at moved'
  cases moved'
  exact settled_of_run settled onward

theorem settled_of_failed {phase : Phase} {error : SetupError}
    (moved : s.move webhooks (.advance i failure) = some (t, .ran kind phase (some error))) :
    ∃ r, t.all[i]? = some r ∧ r.stage.result? = some (.error error) := by
  rcases move_cases moved with ⟨_, other, -⟩ | ⟨j, given, r, stage, u, same, found, step, rfl⟩ | ⟨other, -⟩
  · cases other
  · cases same
    have outcome : stage.result? = some (.error error) := by
      generalize r.kind = name, r.stage = old at step
      cases step
      rfl
    rw [step.all_eq]
    exact ⟨_, List.getElem?_set_self (List.getElem?_eq_some_iff.1 found).1, outcome⟩
  · cases other

theorem settled_of_started (moved : s.move webhooks (.advance i failure) = some (t, e)) (changed : t.started ≠ s.started) :
    ∃ r, t.all[i]? = some r ∧ r.stage.result? = some (.ok true) := by
  rcases move_cases moved with ⟨_, other, -⟩ | ⟨j, given, r, stage, u, same, found, step, rfl⟩ | ⟨other, -⟩
  · cases other
  · cases same
    rw [step.all_eq]
    rcases step.started_cases with ⟨gate, -, rfl, -⟩ | ⟨same, -⟩
    · exact ⟨_, List.getElem?_set_self (List.getElem?_eq_some_iff.1 found).1, rfl⟩
    · exact absurd same changed
  · cases other

/-! ### How often kinds are set up -/

theorem count_concat (events : List Event) (e other : Event) :
    (events ++ [e]).count other = events.count other + if e = other then 1 else 0 := by
  simp [List.count_singleton]

/-- How many reports have set a kind up and are about to say so. -/
def successes (s : Reports) (kind : String) : Nat := s.all.countP fun r => r.kind = kind && r.stage.isSuccessful

/-- A report that starts its kind has set it up until it says so. -/
theorem Advance.successful_add (step : Advance webhooks failure s kind stage later u e) :
    (if later.isSuccessful = true then 1 else 0) + (if e = .ended kind (.ok true) then 1 else 0) =
      (if stage.isSuccessful = true then 1 else 0) + if e = .started kind then 1 else 0 := by
  cases step <;> simp [Stage.isSuccessful, Stage.result?, Stage.isEnded]

theorem Advance.other_kind (step : Advance webhooks failure s kind stage later u e) {other : String}
    (ne : kind ≠ other) : e ≠ .started other ∧ e ≠ .ended other (.ok true) := by
  cases step <;> simp [ne]

theorem Advance.not_cleared (step : Advance webhooks failure s kind stage later u e) : e ≠ .cleared := by
  cases step <;> nofun

theorem successes_advance (found : s.all[i]? = some r) (step : Advance webhooks failure s r.kind r.stage later u e)
    (kind : String) :
    successes { u with all := u.all.set i { r with stage := later } } kind +
      (if e = .ended kind (.ok true) then 1 else 0) = s.successes kind + if e = .started kind then 1 else 0 := by
  have changed := countP_set_add (p := fun r => r.kind = kind && r.stage.isSuccessful) found { r with stage := later }
  simp only [successes, step.all_eq]
  by_cases same : r.kind = kind
  · subst same
    have balance := step.successful_add
    simp only [decide_true, Bool.true_and] at changed
    omega
  · obtain ⟨started, ended⟩ := step.other_kind same
    simp only [same, decide_false, Bool.false_and, Bool.false_eq_true, if_false, Nat.add_zero] at changed
    rw [if_neg started, if_neg ended, changed]

/-- How often a kind has been started and how often this was said. -/
structure Counted (kind : String) (events : List Event) (s : Reports) : Prop where
  started : events.count (.started kind) ≤ events.count .cleared + if kind ∈ s.started then 1 else 0
  returned : events.count (.ended kind (.ok true)) + s.successes kind = events.count (.started kind)

section
variable (counted : Counted kind events s)
include counted

theorem Counted.started_advance (sound : Sound s) (found : s.all[i]? = some r)
    (step : Advance webhooks failure s r.kind r.stage later u e) : (events ++ [e]).count (.started kind) ≤
      (events ++ [e]).count .cleared + if kind ∈ u.started then 1 else 0 := by
  have bounded := counted.started
  rw [count_concat, count_concat, if_neg step.not_cleared]
  rcases step.started_cases with ⟨gate, before, -, started, rfl⟩ | ⟨same, quiet⟩
  · rw [started]
    by_cases same : r.kind = kind
    · -- The kind was not started before, so that there is room for it.
      have unstarted : kind ∉ s.started := same ▸ sound.unstarted i r found (by rw [before]; rfl)
      rw [if_neg unstarted] at bounded
      rw [if_pos (same ▸ rfl), if_pos (same ▸ List.mem_cons_self)]
      omega
    · rw [if_neg fun eq => same (Event.started.inj eq)]
      simpa [Ne.symm same] using bounded
  · rw [if_neg (quiet kind), same]
    exact bounded

theorem Counted.move (sound : Sound s) (moved : s.move webhooks m = some (t, e)) :
    Counted kind (events ++ [e]) t := by
  rcases move_cases moved with ⟨_, -, rfl, rfl⟩ | ⟨i, failure, r, stage, u, -, found, step, rfl⟩ | ⟨-, rfl, rfl⟩
  · have arrived : ∀ other, successes { s with all := s.all ++ [⟨other, .new⟩] } kind = s.successes kind := by
      intro other
      simp [successes, List.countP_append, Stage.isSuccessful, Stage.result?]
    refine ⟨?_, ?_⟩
    · simpa [count_concat] using counted.started
    · rw [count_concat, count_concat, arrived]
      exact counted.returned
  · have started := counted.started_advance sound found step
    refine ⟨started, ?_⟩
    have returned := counted.returned
    have balance := successes_advance found step kind
    rw [count_concat, count_concat]
    omega
  · refine ⟨?_, ?_⟩
    · have bounded := counted.started
      rw [count_concat, count_concat, if_neg nofun, if_pos rfl]
      split at bounded <;> omega
    · rw [count_concat, count_concat]
      exact counted.returned

end

theorem counted_of_run (ran : run webhooks empty moves = some (s, events)) (kind : String) : Counted kind events s := by
  have both := run_preserves (P := fun _ events s => Sound s ∧ Counted kind events s)
    (fun _ _ _ _ _ _ before moved => ⟨before.1.move moved, before.2.move before.1 moved⟩) [] [] ⟨.empty, by simp, rfl⟩ ran
  exact both.2

/-! ### Setups -/

section
variable (ran : run webhooks empty moves = some (s, events))
include ran

theorem eq_of_setup {i j : Nat} {r r' : Report} (first : s.all[i]? = some r) (second : s.all[j]? = some r')
    (setup : r.stage.isSetup = true) (setup' : r'.stage.isSetup = true) (same : r.kind = r'.kind) : i = j := by
  obtain ⟨gate, inside⟩ := Stage.exists_inside? setup
  obtain ⟨gate', inside'⟩ := Stage.exists_inside? setup'
  exact (Sound.empty.run ran).alone first second same inside inside'

/-- A kind that has been started is set up again only after the started kinds have been forgotten. -/
theorem cleared_between {before between after : List Event} {phase : Phase}
    (cut : events = before ++ .started kind :: (between ++ .ran kind phase failure :: after)) : .cleared ∈ between := by
  subst cut
  by_contra kept
  obtain ⟨t, _, _, start, onward, -⟩ := run_append_events ran
  obtain ⟨u, _, _, -, starts, onward⟩ := exists_move onward
  obtain ⟨v, _, _, quiet, onward, -⟩ := run_append_events onward
  obtain ⟨w, _, _, -, sets, -⟩ := exists_move onward
  have sound := ((Sound.empty.run start).move starts).run quiet
  exact sound.unstarted_of_ran sets (started_of_run (started_of_move starts) quiet kept)

/-- A report whose setup fails never changes the started kinds. -/
theorem started_eq_of_failed {i : Nat} {failure failure' : Option SetupError} {phase : Phase} {error : SetupError}
    {t u v w : Reports} (failed : Made webhooks moves (.advance i failure) t (.ran kind phase (some error)) u)
    (other : Made webhooks moves (.advance i failure') v e w) : w.started = v.started := by
  by_contra changed
  obtain ⟨r, found, unsuccessful⟩ := failed.settled (settled_of_failed failed.moved) ran
  obtain ⟨r', found', successful⟩ := other.settled (settled_of_started other.moved changed) ran
  rw [found] at found'
  cases found'
  rw [unsuccessful] at successful
  cases successful

theorem count_ended_le (kind : String) : events.count (.ended kind (.ok true)) ≤ events.count .cleared + 1 := by
  obtain ⟨bounded, returned⟩ := counted_of_run ran kind
  split at bounded <;> omega

/-- Setups of a kind come one at a time and only while the kind is not started, whatever reports come and however their
moves are mixed. -/
theorem setUp_once :
    (∀ (i j : Nat) (r r' : Report), s.all[i]? = some r → s.all[j]? = some r' → r.stage.isSetup = true →
      r'.stage.isSetup = true → r.kind = r'.kind → i = j) ∧
    (∀ before between after kind phase failure,
      events = before ++ .started kind :: (between ++ .ran kind phase failure :: after) → .cleared ∈ between) ∧
    (∀ i failure failure' kind phase error e t u v w,
      Made webhooks moves (.advance i failure) t (.ran kind phase (some error)) u →
      Made webhooks moves (.advance i failure') v e w → w.started = v.started) ∧
    ∀ kind, events.count (.ended kind (.ok true)) ≤ events.count .cleared + 1 :=
  ⟨fun _ _ _ _ first second setup setup' same => eq_of_setup ran first second setup setup' same,
    fun _ _ _ _ _ _ cut => cleared_between ran cut,
    fun _ _ _ _ _ _ _ _ _ _ _ failed other => started_eq_of_failed ran failed other, count_ended_le ran⟩

end

/-- Two reports of a kind come. The first is in the middle of its setup and the second waits. -/
def twoReports : List Move := [.report "Project", .report "Project", .advance 0 none, .advance 1 none, .advance 0 none,
  .advance 1 none, .advance 0 none, .advance 0 none]

def refused : SetupError := .failed .manager "Project" "refused"

/-- The setup of the first report fails, and the second report sets the kind up. The kind is forgotten, and a third
report sets it up again. -/
def threeReports : List Move := twoReports ++ .advance 0 (some refused) :: [.advance 0 none, .advance 1 none,
  .advance 1 none, .advance 1 none, .advance 1 none, .advance 1 none, .advance 0 none, .advance 0 none,
  .advance 1 none, .advance 1 none, .shutdown, .report "Project", .advance 2 none, .advance 2 none, .advance 2 none,
  .advance 2 none, .advance 2 none, .advance 2 none, .advance 2 none, .advance 2 none, .advance 2 none]

theorem setUp_once_project :
    (∃ s events, run false empty twoReports = some (s, events) ∧ (∃ r, s.all[0]? = some r ∧ r.stage.isSetup = true) ∧
      ∀ j r r', s.all[0]? = some r → s.all[j]? = some r' → r.stage.isSetup = true → r'.stage.isSetup = true →
        r.kind = r'.kind → 0 = j) ∧
    ∃ s before between after,
      run false empty threeReports =
        some (s, before ++ .started "Project" :: (between ++ .ran "Project" .manager none :: after)) ∧
      .cleared ∈ between ∧
      (∀ failure e v w, Made false threeReports (.advance 0 failure) v e w → w.started = v.started) ∧
      (before ++ .started "Project" :: (between ++ .ran "Project" .manager none :: after)).count
        (.ended "Project" (.ok true)) ≤ 2 := by
  have first : run false empty twoReports = some (_, .replicate 8 .silent) := rfl
  let before : List Event := .replicate 8 .silent ++
    [.ran "Project" .manager (some refused), .silent, .silent, .silent, .ran "Project" .manager none]
  let between : List Event := [.silent, .silent, .ended "Project" (.error refused), .silent,
    .ended "Project" (.ok true), .cleared, .silent, .silent, .silent, .silent, .silent]
  let after : List Event := [.started "Project", .silent, .silent, .ended "Project" (.ok true)]
  have second : run false empty threeReports =
      some (_, before ++ .started "Project" :: (between ++ .ran "Project" .manager none :: after)) := rfl
  have failed : ∃ u v, Made false threeReports (.advance 0 (some refused)) u
      (.ran "Project" .manager (some refused)) v := ⟨_, _, twoReports, _, _, rfl, first, rfl⟩
  obtain ⟨u, v, failed⟩ := failed
  refine ⟨⟨_, _, first, ⟨_, rfl, rfl⟩, fun j => (setUp_once first).1 0 j⟩, _, before, between, after, second,
    (setUp_once second).2.1 _ _ _ _ _ _ rfl, fun failure e t w other => ?_, (setUp_once second).2.2.2 "Project"⟩
  exact (setUp_once second).2.2.1 _ _ _ _ _ _ _ _ _ _ _ failed other

end Reports
end FlatStore.Setup
