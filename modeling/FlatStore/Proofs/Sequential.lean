import FlatStore.Proofs.Gates
import FlatStore.Setup.Basic

/-!
Reports one after another. A report that comes when no other is on its way does, move by move, what observing its kind
does in one go (`Reports.run_observe`): it ends the same way, and the same kinds are started afterwards. This holds of
plans whose setups report no kinds that are being set up already. Such plans have a rank for each kind, which falls
from the kind of a setup to the kinds that its steps report.
-/
namespace FlatStore.Setup

/-! ### Runs over the registry -/

namespace Run

variable {α β : Type}

def after (x : Run α) (r : Registry) : Except SetupError α × Registry := StateT.run (ExceptT.run x) r

theorem after_bind (x : Run α) (f : α → Run β) (r : Registry) : (x >>= f).after r = match x.after r with
    | (.ok a, later) => (f a).after later
    | (.error e, later) => (.error e, later) := by
  unfold after ExceptT.run StateT.run
  simp only [bind, ExceptT.bind, ExceptT.mk, StateT.bind, ExceptT.bindCont]
  rcases x r with ⟨_ | _, _⟩ <;> rfl

theorem after_forM (f : α → Run Unit) (a : α) (rest : List α) (r : Registry) :
    ((a :: rest).forM f).after r = match (f a).after r with
    | (.ok _, later) => (rest.forM f).after later
    | (.error e, later) => (.error e, later) := by
  rw [List.forM_eq_forM, List.forM_cons, after_bind]
  rcases (f a).after r with ⟨_ | _, _⟩ <;> rfl

end Run

namespace Plan

variable {plan : Plan} {observe : String → Run Bool} {kind : String} {phase : Phase}

/-- A step runs its actions, and then it ends well unless its script says that this attempt fails. -/
theorem step_after (r : Registry) : (plan.step observe phase kind).after r =
    match ((plan.script phase kind).actions.forM (Action.run observe)).after (r.log (.step phase kind)) with
    | (.error e, later) => (.error e, later)
    | (.ok _, later) =>
      if (later.attempt phase kind).attemptsAt phase kind ≤ (plan.script phase kind).failures then
        (.error (.failed phase kind ((plan.script phase kind).message ++ " " ++
          toString ((later.attempt phase kind).attemptsAt phase kind))), later.attempt phase kind)
      else (.ok (), later.attempt phase kind) := by
  rw [step, Run.after_bind]
  change Run.after (_ >>= _) (r.log (.step phase kind)) = _
  rw [Run.after_bind]
  rcases ((plan.script phase kind).actions.forM (Action.run observe)).after (r.log (.step phase kind)) with ⟨_ | _, later⟩
  · rfl
  · change (if _ then _ else _ : Run Unit).after (later.attempt phase kind) = _
    dsimp only
    split <;> rfl

def setUp (plan : Plan) (observe : String → Run Bool) (kind : String) : Run Bool := do
  plan.step observe .manager kind
  if plan.webhooks then plan.step observe .webhook kind
  modify (·.start kind)
  return true

theorem observeWithin_after (plan : Plan) (bound : Nat) (kind : String) (r : Registry) :
    (plan.observeWithin (bound + 1) kind).after r =
      if r.isStarted kind then (.ok false, r) else (plan.setUp (plan.observeWithin bound) kind).after r := by
  rw [observeWithin, Run.after_bind]
  change Run.after (if r.isStarted kind = true then _ else _) r = _
  split <;> rfl

theorem setUp_after (plan : Plan) (observe : String → Run Bool) (kind : String) (r : Registry) :
    (plan.setUp observe kind).after r = match (plan.step observe .manager kind).after r with
      | (.error e, later) => (.error e, later)
      | (.ok _, later) =>
        if plan.webhooks then
          match (plan.step observe .webhook kind).after later with
          | (.error e, later) => (.error e, later)
          | (.ok _, later) => (.ok true, later.start kind)
        else (.ok true, later.start kind) := by
  rw [setUp, Run.after_bind]
  rcases (plan.step observe .manager kind).after r with ⟨_ | _, later⟩
  · rfl
  · cases plan.webhooks with
    | true =>
      dsimp only
      rw [if_pos rfl, if_pos rfl, Run.after_bind]
      rcases (plan.step observe .webhook kind).after later with ⟨_ | _, _⟩ <;> rfl
    | false => rfl

/-- How many scripts are for kinds of no higher rank. -/
def scriptsBelow (plan : Plan) (rank : String → Nat) (kind : String) : Nat :=
  plan.scripts.countP fun entry => rank entry.1.2 ≤ rank kind

/-- A kind whose setup reports another one has a script, which is not among those for the other. -/
theorem scriptsBelow_lt {rank : String → Nat} {other : String} (lower : rank other < rank kind)
    (mem : .observe other ∈ (plan.script phase kind).actions) :
    plan.scriptsBelow rank other < plan.scriptsBelow rank kind := by
  obtain ⟨script, found⟩ : ∃ script, plan.scripts.lookup (phase, kind) = some script := by
    cases found : plan.scripts.lookup (phase, kind) with
    | some script => exact ⟨script, rfl⟩
    | none =>
      rw [Plan.script, found] at mem
      cases mem
  obtain ⟨before, behind, split, -⟩ := List.lookup_eq_some_iff.1 found
  have fewer : ∀ entries : List ((Phase × String) × Script), entries.countP (fun entry => rank entry.1.2 ≤ rank other) ≤
      entries.countP fun entry => rank entry.1.2 ≤ rank kind := by
    intro entries
    refine List.countP_mono_left fun entry _ below => ?_
    exact decide_eq_true (Nat.le_trans (of_decide_eq_true below) (Nat.le_of_lt lower))
  have first := fewer before
  have second := fewer behind
  rw [scriptsBelow, scriptsBelow, split, List.countP_append, List.countP_append, List.countP_cons, List.countP_cons,
    if_neg (by simpa using lower), if_pos (by simp)]
  omega

end Plan
namespace Reports

variable {webhooks : Bool} {s t u : Reports} {e : Event} {failure : Option SetupError} {kind : String}
  {stage later : Stage} {front back : List Report} {gate : Nat} {rank : String → Nat}

/-! ### Moves of one report -/

def Reaches (webhooks : Bool) (s t : Reports) : Prop := ∃ moves events, run webhooks s moves = some (t, events)

namespace Reaches

theorem refl (s : Reports) : Reaches webhooks s s := ⟨[], [], rfl⟩

theorem concat {m : Move} (reached : Reaches webhooks s t) (moved : t.move webhooks m = some (u, e)) :
    Reaches webhooks s u := by
  obtain ⟨moves, events, ran⟩ := reached
  exact ⟨_, _, run_concat ran moved⟩

theorem trans (first : Reaches webhooks s t) (second : Reaches webhooks t u) : Reaches webhooks s u := by
  obtain ⟨moves, events, ran⟩ := second
  exact run_preserves (P := fun _ _ t => Reaches webhooks s t) (fun _ _ _ _ _ _ reached moved => reached.concat moved)
    [] [] first ran

theorem sound (reached : Reaches webhooks s t) (sound : Sound s) : Sound t := by
  obtain ⟨moves, events, ran⟩ := reached
  exact sound.run ran

theorem numbered (reached : Reaches webhooks s t) (numbered : Numbered s) : Numbered t := by
  obtain ⟨moves, events, ran⟩ := reached
  exact run_preserves (P := fun _ _ s => Numbered s) (fun _ _ _ _ _ _ numbered moved => numbered.move moved) [] []
    numbered ran

theorem advance (failure : Option SetupError) (all : s.all = front ++ ⟨kind, stage⟩ :: back)
    (next : s.next webhooks failure ⟨kind, stage⟩ = some (later, u, e)) :
    Reaches webhooks s { u with all := front ++ ⟨kind, later⟩ :: back } := by
  have found : s.all[front.length]? = some ⟨kind, stage⟩ := by simp [all]
  have same : u.all.set front.length ⟨kind, later⟩ = front ++ ⟨kind, later⟩ :: back := by
    rw [(advance_of_next next).all_eq, all]
    simp
  have moved : s.move webhooks (.advance front.length failure) =
      some ({ u with all := front ++ ⟨kind, later⟩ :: back }, e) := by
    simp [move, found, next, same]
  exact (refl s).concat moved

end Reaches

theorem exists_ended {result : Except SetupError Bool} (all : s.all = front ++ ⟨kind, .leaving gate result⟩ :: back) :
    ∃ t, Reaches webhooks s t ∧ t.started = s.started ∧ t.all = front ++ ⟨kind, .ended result⟩ :: back := by
  have outside : Reaches webhooks s _ := .advance none all rfl
  have released := outside.trans (.advance none rfl rfl)
  exact ⟨_, released.trans (.advance none rfl rfl), started_releaseGate _ kind gate, rfl⟩

/-- No report is inside of the gate that a report waits for, if no other report of its kind is inside of a gate. -/
theorem isOccupied_waiting (sound : Sound s) (numbered : Numbered s)
    (all : s.all = front ++ ⟨kind, .waiting gate⟩ :: back)
    (free : ∀ r ∈ front ++ back, r.stage.inside? ≠ none → r.kind ≠ kind) : s.isOccupied gate = false := by
  rw [isOccupied_eq_false_iff]
  intro r mem inside
  have waits : s.all[front.length]? = some ⟨kind, .waiting gate⟩ := by simp [all]
  have own := sound.held front.length _ gate waits rfl
  obtain ⟨j, there⟩ := List.mem_iff_getElem?.1 mem
  have same := numbered.kind_eq (sound.held j r gate there (Stage.held?_of_inside? inside)) own
  rw [all, List.mem_append, List.mem_cons] at mem
  rcases mem with before | rfl | behind
  · exact free r (List.mem_append_left _ before) (by simp [inside]) same
  · cases inside
  · exact free r (List.mem_append_right _ behind) (by simp [inside]) same

theorem exists_settingUp (sound : Sound s) (numbered : Numbered s) (unstarted : kind ∉ s.started)
    (free : ∀ r ∈ s.all, r.stage.inside? ≠ none → r.kind ≠ kind) :
    ∃ t gate, Reaches webhooks s t ∧ t.started = s.started ∧ t.all = s.all ++ [⟨kind, .settingUp gate .manager⟩] := by
  have fresh : ∀ u : Reports, u.started = s.started → ¬ u.isStarted kind = true :=
    fun u same => mt isStarted_iff.1 (same ▸ unstarted)
  have arrived : Reaches webhooks s { s with all := s.all ++ [⟨kind, .new⟩] } :=
    (Reaches.refl s).concat (m := .report kind) rfl
  have asked := arrived.trans (.advance none rfl (if_neg (fresh _ rfl)))
  have waiting := asked.trans (.advance none rfl rfl)
  have open_gate := isOccupied_waiting (waiting.sound sound) (waiting.numbered numbered) rfl (by simpa using free)
  have entered := waiting.trans (.advance none rfl (if_neg (Bool.eq_false_iff.1 open_gate)))
  refine ⟨_, _, entered.trans (.advance none rfl (if_neg (fresh _ ?_))), ?_, rfl⟩
  · exact started_takeGate _ kind
  · exact started_takeGate _ kind

/-! ### Setups that report other kinds -/

/-- Those of the reports that are inside of gates have kinds of at least this rank. -/
def Above (rank : String → Nat) (n : Nat) (reports : List Report) : Prop :=
  ∀ r ∈ reports, r.stage.inside? ≠ none → n ≤ rank r.kind

theorem Above.append {n : Nat} {ended : List Report} (above : Above rank n front)
    (done : ∀ r ∈ ended, r.stage.isEnded = true) : Above rank n (front ++ ended) := by
  refine List.forall_mem_append.2 ⟨above, fun r mem inside => ?_⟩
  have finished := done r mem
  cases stage : r.stage <;> simp_all [Stage.isEnded, Stage.inside?]

/-- A report of a kind that nobody else sets up does what observing the kind does. -/
def Simulates (webhooks : Bool) (rank : String → Nat) (observe : String → Run Bool) (kind : String) : Prop :=
  ∀ (r : Registry) (s : Reports), Sound s → Numbered s → s.started = r.started → Above rank (rank kind + 1) s.all →
    ∃ t ended, Reaches webhooks s t ∧ t.started = ((observe kind).after r).2.started ∧
      t.all = s.all ++ ⟨kind, .ended ((observe kind).after r).1⟩ :: ended ∧ ∀ x ∈ ended, x.stage.isEnded = true

theorem simulates_actions {observe : String → Run Bool} {actions : List Action} {n : Nat}
    (each : ∀ other, .observe other ∈ actions → rank other < n ∧ Simulates webhooks rank observe other) :
    ∀ (r : Registry) (s : Reports), Sound s → Numbered s → s.started = r.started → Above rank n s.all →
      ∃ t ended, Reaches webhooks s t ∧
        t.started = ((actions.forM (Action.run observe)).after r).2.started ∧ t.all = s.all ++ ended ∧
        ∀ x ∈ ended, x.stage.isEnded = true := by
  induction actions with
  | nil => exact fun r s _ _ same _ => ⟨s, [], .refl s, same, (List.append_nil _).symm, nofun⟩
  | cons action rest ih =>
    intro r s sound numbered same above
    have ih := ih fun other mem => each other (List.mem_cons_of_mem _ mem)
    rw [Run.after_forM]
    cases action with
    | isStarted kind => exact ih (r.log (.asked kind (r.isStarted kind))) s sound numbered same above
    | observe kind =>
      obtain ⟨lower, simulates⟩ := each kind List.mem_cons_self
      obtain ⟨t, ended, reached, started, all, done⟩ := simulates r s sound numbered same fun x mem inside =>
        Nat.le_trans lower (above x mem inside)
      have done : ∀ x ∈ ⟨kind, .ended ((observe kind).after r).1⟩ :: ended, x.stage.isEnded = true :=
        List.forall_mem_cons.2 ⟨rfl, done⟩
      rw [Action.run, Run.after_bind]
      generalize (observe kind).after r = outcome at started all done
      obtain ⟨_ | first, later⟩ := outcome
      · exact ⟨t, _, reached, started, all, done⟩
      · obtain ⟨u, more, onward, started', all', done'⟩ := ih (later.log (.observed kind first)) t (reached.sound sound)
          (reached.numbered numbered) started (all ▸ above.append done)
        refine ⟨u, _ ++ more, reached.trans onward, started', ?_, List.forall_mem_append.2 ⟨done, done'⟩⟩
        rw [all', all, List.append_assoc]

theorem simulates_step {observe : String → Run Bool} {plan : Plan} {phase : Phase}
    (each : ∀ other, .observe other ∈ (plan.script phase kind).actions →
      rank other < rank kind ∧ Simulates webhooks rank observe other)
    (sound : Sound s) (numbered : Numbered s) {r : Registry} (same : s.started = r.started)
    (above : Above rank (rank kind) s.all) (all : s.all = front ++ ⟨kind, .settingUp gate phase⟩ :: back) :
    ∃ t ended, Reaches webhooks s t ∧ t.started = ((plan.step observe phase kind).after r).2.started ∧
      t.all = front ++ ⟨kind, match ((plan.step observe phase kind).after r).1 with
        | .error error => .leaving gate (.error error)
        | .ok _ =>
          match phase with
          | .manager => if webhooks then .settingUp gate .webhook else .setUp gate
          | .webhook => .setUp gate⟩ :: (back ++ ended) ∧
      ∀ x ∈ ended, x.stage.isEnded = true := by
  obtain ⟨t, ended, reached, started, all', done⟩ :=
    simulates_actions each (r.log (.step phase kind)) s sound numbered same above
  have place : t.all = front ++ ⟨kind, .settingUp gate phase⟩ :: (back ++ ended) := by
    rw [all', all, List.append_assoc, List.cons_append]
  rw [Plan.step_after]
  generalize ((plan.script phase kind).actions.forM (Action.run observe)).after (r.log (.step phase kind)) = outcome
    at started
  have advance : ∀ failure, Reaches webhooks s _ := fun failure => reached.trans (.advance failure place rfl)
  obtain ⟨error | _, later⟩ := outcome
  · exact ⟨_, ended, advance (some error), started, rfl, done⟩
  · dsimp only
    split
    · exact ⟨_, ended, advance (some _), started, rfl, done⟩
    · exact ⟨_, ended, advance none, started, by cases phase <;> rfl, done⟩

theorem exists_started (all : s.all = front ++ ⟨kind, .setUp gate⟩ :: back) :
    ∃ t, Reaches webhooks s t ∧ t.started = kind :: s.started ∧ t.all = front ++ ⟨kind, .ended (.ok true)⟩ :: back := by
  let u : Reports :=
    { s with started := kind :: s.started, all := front ++ ⟨kind, .leaving gate (.ok true)⟩ :: back }
  have started : Reaches webhooks s u := .advance none all rfl
  obtain ⟨t, reached, same, all⟩ := exists_ended (s := u) rfl
  exact ⟨t, started.trans reached, same, all⟩

section
variable {plan : Plan} {observe : String → Run Bool} (each : ∀ phase other,
  .observe other ∈ (plan.script phase kind).actions → rank other < rank kind ∧ Simulates plan.webhooks rank observe other)
include each

theorem simulates_setUp (sound : Sound s) (numbered : Numbered s) {r : Registry} (same : s.started = r.started)
    (above : Above rank (rank kind) front) (all : s.all = front ++ [⟨kind, .settingUp gate .manager⟩]) :
    ∃ t ended, Reaches plan.webhooks s t ∧ t.started = ((plan.setUp observe kind).after r).2.started ∧
      t.all = front ++ ⟨kind, .ended ((plan.setUp observe kind).after r).1⟩ :: ended ∧
      ∀ x ∈ ended, x.stage.isEnded = true := by
  have within : ∀ stage ended, (∀ x ∈ ended, x.stage.isEnded = true) →
      Above rank (rank kind) (front ++ ⟨kind, stage⟩ :: ended) := by
    intro stage ended done
    have own : Above rank (rank kind) (front ++ [⟨kind, stage⟩]) :=
      List.forall_mem_append.2 ⟨above, List.forall_mem_singleton.2 fun _ => Nat.le_refl _⟩
    simpa using own.append done
  obtain ⟨t, ended, reached, started, all, done⟩ :=
    simulates_step (each .manager) sound numbered same (all ▸ within _ [] nofun) all
  rw [Plan.setUp_after]
  generalize (plan.step observe .manager kind).after r = outcome at started all ⊢
  obtain ⟨error | _, later⟩ := outcome
  · obtain ⟨u, ends, same, all⟩ := exists_ended all
    exact ⟨u, ended, reached.trans ends, same.trans started, all, done⟩
  · dsimp only at all ⊢
    by_cases webhooks : plan.webhooks = true
    · rw [if_pos webhooks] at all ⊢
      obtain ⟨u, more, onward, started, all, done'⟩ := simulates_step (each .webhook) (reached.sound sound)
        (reached.numbered numbered) started (all ▸ within _ _ done) all
      have reached := reached.trans onward
      have done := List.forall_mem_append.2 ⟨done, done'⟩
      generalize (plan.step observe .webhook kind).after later = outcome at started all ⊢
      obtain ⟨error | _, last⟩ := outcome
      · obtain ⟨v, ends, same, all⟩ := exists_ended all
        exact ⟨v, _, reached.trans ends, same.trans started, all, done⟩
      · obtain ⟨v, ends, same, all⟩ := exists_started all
        exact ⟨v, _, reached.trans ends, same.trans (congrArg (kind :: ·) started), all, done⟩
    · rw [if_neg webhooks] at all ⊢
      obtain ⟨u, ends, same, all⟩ := exists_started all
      exact ⟨u, ended, reached.trans ends, same.trans (congrArg (kind :: ·) started), all, done⟩

end

/-- Observing a kind is a run of moves, if the steps of setups report only kinds of lower rank. -/
theorem simulates_observe {plan : Plan} (lower : ∀ phase kind other,
    .observe other ∈ (plan.script phase kind).actions → rank other < rank kind) (bound : Nat) :
    ∀ kind, rank kind < bound → Simulates plan.webhooks rank (plan.observeWithin bound) kind := by
  induction bound with
  | zero => exact fun kind less => absurd less (Nat.not_lt_zero _)
  | succ bound ih =>
    intro kind less r s sound numbered same above
    rw [Plan.observeWithin_after]
    split
    · next started =>
      have known : s.isStarted kind = true := (congrArg (·.contains kind) same).trans started
      have arrived : Reaches plan.webhooks s { s with all := s.all ++ [⟨kind, .new⟩] } :=
        (Reaches.refl s).concat (m := .report kind) rfl
      exact ⟨_, [], arrived.trans (.advance none rfl (if_pos known)), same, rfl, nofun⟩
    · next unstarted =>
      have fresh : kind ∉ s.started := fun mem => unstarted (List.contains_iff_mem.2 (same ▸ mem))
      obtain ⟨t, gate, reached, started, all⟩ := exists_settingUp sound numbered fresh
        fun x mem inside same => Nat.lt_irrefl _ (same ▸ above x mem inside)
      have each : ∀ phase other, .observe other ∈ (plan.script phase kind).actions →
          rank other < rank kind ∧ Simulates plan.webhooks rank (plan.observeWithin bound) other := by
        intro phase other mem
        have below := lower phase kind other mem
        exact ⟨below, ih other (Nat.lt_of_lt_of_le below (Nat.le_of_lt_succ less))⟩
      obtain ⟨u, ended, onward, ends⟩ := simulates_setUp each (reached.sound sound) (reached.numbered numbered)
        (started.trans same) (fun x mem inside => Nat.le_of_lt (above x mem inside)) all
      exact ⟨u, ended, reached.trans onward, ends⟩

/-- A report that comes alone does what observing its kind does. -/
theorem run_observe {plan : Plan} (lower : ∀ phase kind other,
    .observe other ∈ (plan.script phase kind).actions → rank other < rank kind) {moves : List Move} {events : List Event}
    (ran : run plan.webhooks empty moves = some (s, events)) (idle : s.idle = true) {r : Registry}
    (same : s.started = r.started) (kind : String) :
    ∃ t, Reaches plan.webhooks s t ∧ t.idle = true ∧ t.started = ((plan.observe kind).after r).2.started ∧
      t.all[s.all.length]? = some ⟨kind, .ended ((plan.observe kind).after r).1⟩ := by
  have tracked := tracked_of_run ran
  have outside : ∀ x ∈ s.all, x.stage.inside? = none := by
    intro x mem
    have finished := List.all_eq_true.1 idle x mem
    cases stage : x.stage <;> simp_all [Stage.isEnded, Stage.inside?]
  have fits : plan.scriptsBelow rank kind < plan.scripts.length + 1 := Nat.lt_succ_of_le List.countP_le_length
  obtain ⟨t, ended, reached, started, all, done⟩ := simulates_observe
    (fun phase kind other mem => plan.scriptsBelow_lt (lower phase kind other mem) mem) _ kind fits r s tracked.sound
    tracked.numbered same fun x mem inside => absurd (outside x mem) inside
  refine ⟨t, reached, ?_, started, ?_⟩
  · rw [Reports.idle, all, List.all_eq_true]
    exact List.forall_mem_append.2 ⟨List.all_eq_true.1 idle, List.forall_mem_cons.2 ⟨rfl, done⟩⟩
  · rw [all, List.getElem?_append_right (Nat.le_refl _), Nat.sub_self]
    rfl

end Reports
end FlatStore.Setup
