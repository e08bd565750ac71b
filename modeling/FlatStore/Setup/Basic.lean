/-!
The setup of kinds. Workers report the kinds that they see, and the first report of a kind runs its setup: the step of
the manager and, where webhooks are in use, the step of the webhook. A kind whose setup failed is not started, so that
its next report tries again.

What a step does is given by a script: it may ask whether kinds are started, it may report other kinds, and then it
ends well or fails.
-/
namespace FlatStore.Setup

inductive Phase where
  | manager
  | webhook
deriving DecidableEq

def Phase.name : Phase → String
  | .manager => "manager"
  | .webhook => "webhook"

inductive SetupError where
  | failed (phase : Phase) (kind message : String)
  /-- The setup of the kind waits for its own end. -/
  | stuck (kind : String)
deriving DecidableEq

def SetupError.message : SetupError → String
  | .failed phase kind message => phase.name ++ " for `" ++ kind ++ "`: " ++ message
  | .stuck kind => "setup of `" ++ kind ++ "` waits for itself"

inductive Action where
  | observe (kind : String)
  | isStarted (kind : String)
deriving DecidableEq

/-- What a step does, and how many attempts at it fail. -/
structure Script where
  actions : List Action
  failures : Nat
  message : String

inductive Call where
  | step (phase : Phase) (kind : String)
  | observed (kind : String) (first : Bool)
  | asked (kind : String) (started : Bool)
deriving DecidableEq

def Call.text : Call → String
  | .step phase kind => phase.name ++ ":" ++ kind
  | .observed kind first => "observe " ++ kind ++ " = " ++ (if first then "true" else "false")
  | .asked kind started => "is_started " ++ kind ++ " = " ++ (if started then "true" else "false")

structure Plan where
  webhooks : Bool
  scripts : List ((Phase × String) × Script)

/-- The script of a step. A step without one does nothing and ends well. -/
def Plan.script (plan : Plan) (phase : Phase) (kind : String) : Script :=
  (plan.scripts.lookup (phase, kind)).getD ⟨[], 0, ""⟩

/-- The started kinds, the attempts at each step that came to its end, and the calls so far, last first. -/
structure Registry where
  started : List String
  attempts : List ((Phase × String) × Nat)
  calls : List Call

/-- A run over the registry, which keeps what happened before a failure. -/
abbrev Run (α : Type) := ExceptT SetupError (StateM Registry) α

namespace Registry

def empty : Registry := ⟨[], [], []⟩

def isStarted (r : Registry) (kind : String) : Bool := r.started.contains kind

def startedKinds (r : Registry) : List String := r.started.mergeSort fun a b => decide (a ≤ b)

def start (r : Registry) (kind : String) : Registry := { r with started := kind :: r.started }

def log (r : Registry) (call : Call) : Registry := { r with calls := call :: r.calls }

def shutdown (r : Registry) : Registry := { r with started := [] }

def attemptsAt (r : Registry) (phase : Phase) (kind : String) : Nat := (r.attempts.lookup (phase, kind)).getD 0

def attempt (r : Registry) (phase : Phase) (kind : String) : Registry :=
  { r with attempts := ((phase, kind), r.attemptsAt phase kind + 1) :: r.attempts }

end Registry

/-- One action of a step. A report that fails ends the step. -/
def Action.run (observe : String → Run Bool) : Action → Run Unit
  | .isStarted kind => modify fun r => r.log (.asked kind (r.isStarted kind))
  | .observe kind => do
    let first ← observe kind
    modify (·.log (.observed kind first))

def Plan.step (plan : Plan) (observe : String → Run Bool) (phase : Phase) (kind : String) : Run Unit := do
  let script := plan.script phase kind
  modify (·.log (.step phase kind))
  script.actions.forM (Action.run observe)
  modify (·.attempt phase kind)
  let attempt := (← get).attemptsAt phase kind
  if attempt ≤ script.failures then throw (.failed phase kind (script.message ++ " " ++ toString attempt))

/-- The report of a kind, from within the setup of no more than a bound of others. Whether it set the kind up. -/
def Plan.observeWithin (plan : Plan) : (bound : Nat) → String → Run Bool
  | 0, kind => throw (.stuck kind)
  | bound + 1, kind => do
    if (← get).isStarted kind then return false
    plan.step (plan.observeWithin bound) .manager kind
    if plan.webhooks then plan.step (plan.observeWithin bound) .webhook kind
    modify (·.start kind)
    return true

/-- The report of a kind. A setup that reports others has a script, and none runs inside of itself. -/
def Plan.observe (plan : Plan) (kind : String) : Run Bool := plan.observeWithin (plan.scripts.length + 1) kind

/-- Reports of one kind that come at the same time wait for one another. The outcomes of all. -/
def Plan.observeMany (plan : Plan) (kind : String) : Nat → StateM Registry (List (Except SetupError Bool))
  | 0 => return []
  | n + 1 => do
    let outcome ← (plan.observe kind).run
    let rest ← plan.observeMany kind n
    return outcome :: rest

end FlatStore.Setup
