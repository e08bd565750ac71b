import FlatStore.Setup.Basic

/-!
Reports that come at the same time. Each kind that is being set up has a gate, and at most one report at a time is
inside of it. The first report that asks for the gate of a kind makes it, and a report that finds no other owner takes
it away again. Different kinds have different gates and do not wait for one another.

Reports move step by step and in any order. What a step of a setup does is left open here: it ends well, or it fails.
The reports that it makes itself are reports like all others.
-/
namespace FlatStore.Setup

/-- How far a report has got. From the time when it gets its gate until it ends it is an owner of the gate. It is inside
of the gate until it has left; then it sees who else owns the gate, and owns it a last time. -/
inductive Stage where
  | new
  | unstarted
  | waiting (gate : Nat)
  | entered (gate : Nat)
  | settingUp (gate : Nat) (phase : Phase)
  | setUp (gate : Nat)
  | leaving (gate : Nat) (result : Except SetupError Bool)
  | outside (gate : Nat) (result : Except SetupError Bool)
  | released (gate : Nat) (result : Except SetupError Bool)
  | ended (result : Except SetupError Bool)

namespace Stage

def gate? : Stage → Option Nat
  | .waiting gate | .entered gate | .settingUp gate _ | .setUp gate | .leaving gate _ | .outside gate _
  | .released gate _ => some gate
  | .new | .unstarted | .ended _ => none

def inside? : Stage → Option Nat
  | .entered gate | .settingUp gate _ | .setUp gate | .leaving gate _ => some gate
  | _ => none

/-- Whether a report is between the first step of a setup and its end. -/
def isSetup : Stage → Bool
  | .settingUp .. | .setUp _ => true
  | _ => false

def isEnded : Stage → Bool
  | .ended _ => true
  | _ => false

end Stage

structure Report where
  kind : String
  stage : Stage

/-- All reports so far and what they share. -/
structure Reports where
  started : List String
  gates : List (String × Nat)
  made : Nat
  all : List Report

/-- What a move does, as far as it can be told from outside. -/
inductive Event where
  | silent
  | ran (kind : String) (phase : Phase) (failure : Option SetupError)
  | started (kind : String)
  | ended (kind : String) (result : Except SetupError Bool)
  | cleared

inductive Move where
  | report (kind : String)
  /-- The report of a number moves on. If it runs a step of a setup, the step fails with the error or ends well. -/
  | advance (i : Nat) (failure : Option SetupError)
  | shutdown

namespace Reports

def empty : Reports := ⟨[], [], 0, []⟩

def isStarted (s : Reports) (kind : String) : Bool := s.started.contains kind

/-- How many own a gate: the reports that do, and the list of gates if the gate is in it. -/
def owners (s : Reports) (gate : Nat) : Nat :=
  s.all.countP (·.stage.gate? = some gate) + s.gates.countP (·.2 = gate)

def isOccupied (s : Reports) (gate : Nat) : Bool := s.all.any (·.stage.inside? = some gate)

def takeGate (s : Reports) (kind : String) : Nat × Reports :=
  match s.gates.lookup kind with
  | some gate => (gate, s)
  | none => (s.made, { s with gates := (kind, s.made) :: s.gates, made := s.made + 1 })

/-- Takes away the gate of a kind, if a report that has left a gate and the list are its only owners. -/
def releaseGate (s : Reports) (kind : String) (gate : Nat) : Reports :=
  if s.owners gate = 2 then { s with gates := s.gates.filter (·.1 ≠ kind) } else s

/-- What comes of a report that moves on, or none if it has to wait or has ended. -/
def next (webhooks : Bool) (failure : Option SetupError) (s : Reports) (r : Report) :
    Option (Stage × Reports × Event) :=
  match r.stage with
  | .new =>
    if s.isStarted r.kind then some (.ended (.ok false), s, .ended r.kind (.ok false))
    else some (.unstarted, s, .silent)
  | .unstarted => some (.waiting (s.takeGate r.kind).1, (s.takeGate r.kind).2, .silent)
  | .waiting gate => if s.isOccupied gate then none else some (.entered gate, s, .silent)
  | .entered gate =>
    if s.isStarted r.kind then some (.leaving gate (.ok false), s, .silent)
    else some (.settingUp gate .manager, s, .silent)
  | .settingUp gate phase =>
    let after : Stage := match failure, phase with
      | some error, _ => .leaving gate (.error error)
      | none, .manager => if webhooks then .settingUp gate .webhook else .setUp gate
      | none, .webhook => .setUp gate
    some (after, s, .ran r.kind phase failure)
  | .setUp gate => some (.leaving gate (.ok true), { s with started := r.kind :: s.started }, .started r.kind)
  | .leaving gate result => some (.outside gate result, s, .silent)
  | .outside gate result => some (.released gate result, s.releaseGate r.kind gate, .silent)
  | .released _ result => some (.ended result, s, .ended r.kind result)
  | .ended _ => none

def move (webhooks : Bool) (s : Reports) : Move → Option (Reports × Event)
  | .report kind => some ({ s with all := s.all ++ [⟨kind, .new⟩] }, .silent)
  | .advance i failure => do
    let r ← s.all[i]?
    let (stage, s, event) ← s.next webhooks failure r
    return ({ s with all := s.all.set i { r with stage := stage } }, event)
  | .shutdown => some ({ s with started := [] }, .cleared)

def run (webhooks : Bool) (s : Reports) : List Move → Option (Reports × List Event)
  | [] => some (s, [])
  | m :: rest => do
    let (s, event) ← s.move webhooks m
    let (s, events) ← s.run webhooks rest
    return (s, event :: events)

def idle (s : Reports) : Bool := s.all.all (·.stage.isEnded)

end Reports
end FlatStore.Setup
