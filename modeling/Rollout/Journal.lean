import Rollout.Error
import Rollout.Journal.Line
import Rollout.Text.Quoted

/-!
The journal of a controller. Whatever happens is entered in order: changes of the roster, calls of
deployers and how they ended, moves of deployments with the positions before and after, and what
clients asked for. The log and the stream of events are both read off the journal, so they cannot
disagree with it or with each other.
-/

set_option autoImplicit false
set_option relaxedAutoImplicit false

namespace Rollout

/-- What a batch has done. -/
structure Tally where
  passes : Nat := 0
  advanced : Nat := 0
  retreated : Nat := 0
  failed : Nat := 0
  invocations : Nat := 0
deriving DecidableEq, Repr

/-- Where everything stands at one moment. -/
structure Position (β : Type) where
  forest : Forest β
  board : Board

/-- A single move of a deployment: the stage it left, the one it came to, and where everything
stood before and after. -/
structure Move (β : Type) where
  root : Handle
  name : String
  start : Stage
  goal : Stage
  before : Position β
  after : Position β

/-- One thing that happened. -/
inductive Entry (β : Type)
  | enlisted (deployer : String) (stage : Stage)
  | dismissed (deployer : String)
  | deploying (deployer : Deployer β) (unit : Handle) (name : String) (stage : Stage)
  | deployed (deployer : Deployer β) (unit : Handle) (name : String) (stage : Stage)
  | deployFailed (deployer : Deployer β) (unit : Handle) (name : String) (stage : Stage)
    (cause : Cause)
  | undeploying (deployer : Deployer β) (unit : Handle) (name : String) (stage : Stage)
  | undeployFailed (deployer : Deployer β) (unit : Handle) (name : String) (stage : Stage)
    (cause : Cause)
  | needsDropped (unit : String) (stage : Stage) (count : Nat)
  | replacing (root : Handle) (name : String)
  | queued (plan : Blueprint)
  | unqueued (name : String)
  | retiring (root : Handle) (name : String)
  | passLimit (passes : Nat)
  | recalling (name : String) (dependent : Handle) (goal : Stage)
  | retreated (move : Move β) (undone : Nat)
  | advanced (move : Move β) (applied : Nat)
  | failed (root : Handle) (name : String) (stage : Stage) (failure : Failure)
  | parked (root : Handle) (name : String) (stage : Stage) (missing : List Shortfall)
  | removed (root : Handle) (name : String) (units : List String)
  | added (root : Handle) (plan : Blueprint) (units : Nat) (target : Stage)
  | rejected (name : String) (error : Error)
  | completed (tally : Tally)
  | changing (stage : Stage) (roots : List Handle)
  | bouncing (stage : Stage) (roots : List Handle)

namespace Entry

variable {β : Type}

/-- What an entry tells a log, if anything. -/
def line? : Entry β → Option Line
  | enlisted deployer stage =>
    some ⟨.debug, "Registered deployer", [("deployer", deployer), ("stage", stage.name)]⟩
  | dismissed deployer => some ⟨.debug, "Removed deployer", [("deployer", deployer)]⟩
  | deploying d _ unit stage =>
    some ⟨.debug, "Deploying", [("deployer", d.name), ("unit", unit), ("stage", stage.name)]⟩
  | deployed .. => none
  | deployFailed .. => none
  | undeploying d _ unit stage =>
    some ⟨.debug, "Undeploying", [("deployer", d.name), ("unit", unit), ("stage", stage.name)]⟩
  | undeployFailed d _ unit stage cause =>
    some ⟨.warn, "Undeploy failed, continuing",
      [("deployer", d.name), ("unit", unit), ("stage", stage.name), ("error", cause.account)]⟩
  | needsDropped unit stage count =>
    some ⟨.debug, "Dropped dependencies",
      [("unit", unit), ("stage", stage.name), ("dropped", toString count)]⟩
  | replacing _ name => some ⟨.info, "Scheduling redeploy", [("deployment", name)]⟩
  | queued plan => some ⟨.debug, "Queued deployment", [("deployment", plan.name)]⟩
  | unqueued name => some ⟨.debug, "Dropped queued deployment", [("deployment", name)]⟩
  | retiring _ name => some ⟨.debug, "Scheduled removal", [("deployment", name)]⟩
  | passLimit passes =>
    some ⟨.warn, "Batch pass limit reached", [("max_passes", toString passes)]⟩
  | recalling name dependent goal =>
    some ⟨.debug, "Pulling back dependent",
      [("deployment", name), ("dependent", dependent.text), ("to", goal.name)]⟩
  | retreated move undone =>
    some ⟨.debug, "Retreated",
      [("deployment", move.name), ("from", move.start.name), ("to", move.goal.name),
        ("undeployed", toString undone)]⟩
  | advanced move applied =>
    some ⟨.debug, "Advanced",
      [("deployment", move.name), ("stage", move.goal.name), ("deployed", toString applied)]⟩
  | failed _ name stage failure =>
    some ⟨.error, "Deployment failed",
      [("deployment", name), ("unit", failure.unit), ("stage", stage.name),
        ("error", failure.cause.account)]⟩
  | parked _ name stage missing =>
    some ⟨.debug, "Parked on dependencies",
      [("deployment", name), ("stage", stage.name),
        ("waiting", Text.quotedList (missing.map Shortfall.text))]⟩
  | removed _ name units =>
    some ⟨.info, "Deployment removed",
      [("deployment", name), ("units", toString units.length)]⟩
  | added _ plan units target =>
    some ⟨.info, "Deployment added",
      [("deployment", plan.name), ("units", toString units), ("target", target.name)]⟩
  | rejected name error =>
    some ⟨.error, "Deployment rejected", [("deployment", name), ("error", error.message)]⟩
  | completed t =>
    some ⟨.info, "Batch completed",
      [("passes", toString t.passes), ("advanced", toString t.advanced),
        ("retreated", toString t.retreated), ("failed", toString t.failed),
        ("invocations", toString t.invocations)]⟩
  | changing stage roots =>
    some ⟨.info, "Changing deployments",
      [("stage", stage.name), ("deployments", toString roots.length)]⟩
  | bouncing stage roots =>
    some ⟨.info, "Bouncing deployments",
      [("stage", stage.name), ("deployments", toString roots.length)]⟩

/-- The event an entry amounts to, if any, at a given time. -/
def event? (time : String) : Entry β → Option Event
  | added _ plan units _ =>
    some (.ofFields "deployment.added" time
      [("deployment", .text plan.name), ("units", .count units)])
  | removed _ name units =>
    some (.ofFields "deployment.removed" time
      [("deployment", .text name), ("units", .array (units.map .text))])
  | advanced move _ =>
    some (.ofFields "unit.stage_entered" time
      [("deployment", .text move.name), ("stage", .text move.goal.name)])
  | retreated move _ =>
    some (.ofFields "unit.stage_left" time
      [("deployment", .text move.name), ("stage", .text move.start.name),
        ("now", .text move.goal.name)])
  | failed _ name stage failure =>
    some (.ofFields "unit.failed" time
      [("deployment", .text name), ("unit", .text failure.unit), ("stage", .text stage.name),
        ("error", .text failure.cause.account)])
  | parked _ name stage missing =>
    some (.ofFields "unit.parked" time
      [("deployment", .text name), ("stage", .text stage.name),
        ("waiting_on", .array (missing.map fun m ↦ .text m.text))])
  | completed t =>
    some (.ofFields "batch.completed" time
      [("passes", .count t.passes), ("advanced", .count t.advanced),
        ("retreated", .count t.retreated), ("failed", .count t.failed),
        ("invocations", .count t.invocations)])
  | _ => none

end Entry

/-- Everything that has happened, in order. -/
abbrev Journal (β : Type) := Array (Entry β)

end Rollout
