import Rollout.Board.Progress
import Rollout.Json
import Rollout.Sorting

/-!
Reports on what is incomplete. A report lists the deployments that are in error and those that have
stopped short of the stage asked for, each under its name and in the order of the names. It can be
read as a listing and as JSON.
-/

set_option autoImplicit false
set_option relaxedAutoImplicit false

namespace Rollout

/-- A deployment in error, with the error itself, which is not written out. -/
structure FailedDeployment where
  deployment : String
  unit : String
  stage : Stage
  requested : Stage
  failedStage : Stage
  message : String
  rootCause : String
  error : Failure
deriving DecidableEq, Repr

/-- A deployment that has stopped short without an error. -/
structure BlockedDeployment where
  deployment : String
  stage : Stage
  requested : Stage
  missing : List Shortfall
deriving DecidableEq, Repr

/-- What is incomplete, under the names of the deployments and in their order. -/
structure Report where
  failures : List (String × FailedDeployment)
  blocked : List (String × BlockedDeployment)
deriving DecidableEq, Repr

namespace Report

/-- The report that nothing is incomplete. -/
def empty : Report := ⟨[], []⟩

instance : Inhabited Report := ⟨empty⟩

/-- The account of a deployment that is in error. -/
def failed (p : Progress) (failure : Failure) : FailedDeployment where
  deployment := p.name
  unit := failure.unit
  stage := p.stage
  requested := p.requested
  failedStage := failure.stage
  message := failure.message
  rootCause := failure.cause.root
  error := failure

/-- The account of a deployment that has stopped short. -/
def stopped (p : Progress) : BlockedDeployment where
  deployment := p.name
  stage := p.stage
  requested := p.requested
  missing := p.waiting

/-- The report with one more deployment looked at. -/
def record (r : Report) (p : Progress) : Report :=
  match p.error with
  | some failure => { r with failures := Sorting.enter p.name (failed p failure) r.failures }
  | none =>
    if p.stage = p.requested then r
    else { r with blocked := Sorting.enter p.name (stopped p) r.blocked }

/-- The report on some deployments. -/
def of (ps : List Progress) : Report := ps.foldl record empty

/-- Whether nothing is incomplete. -/
def isEmpty (r : Report) : Bool := r.failures.isEmpty && r.blocked.isEmpty

/-- The names of the deployments in error. -/
def failedNames (r : Report) : List String := r.failures.map Prod.fst

/-- The names of the deployments that have stopped short. -/
def blockedNames (r : Report) : List String := r.blocked.map Prod.fst

/-- The lines on a deployment that has stopped short. -/
def blockedText (b : BlockedDeployment) : String :=
  if b.missing.isEmpty then
    "\n  Deployment \"" ++ b.deployment ++ "\" stopped at " ++ b.stage.name ++ " (requested " ++
      b.requested.name ++ ")"
  else
    "\n  Deployment \"" ++ b.deployment ++ "\" is missing the following dependencies:" ++
      String.join (b.missing.map fun m ↦ "\n    " ++ m.text)

/-- The line on a deployment in error. -/
def failedText (f : FailedDeployment) : String :=
  "\n  Deployment \"" ++ f.deployment ++ "\" is in error due to the following reason(s): " ++
    f.rootCause

/-- The lines on several deployments under a heading, or nothing at all. -/
def listing {α : Type} (heading : String) (line : α → String) (xs : List α) : String :=
  if xs.isEmpty then "" else "\n\n" ++ heading ++ String.join (xs.map line)

/-- The report as a listing. -/
def text (r : Report) : String :=
  "Incomplete Deployment listing:" ++
    listing "DEPLOYMENTS MISSING DEPENDENCIES:" blockedText (r.blocked.map Prod.snd) ++
    listing "DEPLOYMENTS IN ERROR:" failedText (r.failures.map Prod.snd)

/-- A shortfall as JSON. -/
def shortfallJson (m : Shortfall) : Json :=
  .object [("dependent", .text m.dependent), ("depends_on", .text m.target),
    ("when_required", .text m.before.name), ("required_state", .text m.atLeast.name),
    ("actual_state", .text? (m.actual.map Stage.name)), ("target_in_error", .bool m.targetFailed)]

/-- A deployment in error as JSON. -/
def failedJson (f : FailedDeployment) : Json :=
  .object [("deployment", .text f.deployment), ("unit", .text f.unit),
    ("stage", .text f.stage.name), ("requested", .text f.requested.name),
    ("failed_stage", .text f.failedStage.name),
    ("message", .text f.message), ("root_cause", .text f.rootCause)]

/-- A deployment that has stopped short as JSON. -/
def blockedJson (b : BlockedDeployment) : Json :=
  .object [("deployment", .text b.deployment), ("stage", .text b.stage.name),
    ("requested", .text b.requested.name), ("missing", .array (b.missing.map shortfallJson))]

/-- The report as JSON. -/
def toJson (r : Report) : Json :=
  .object [("failures", .object (r.failures.map fun (name, f) ↦ (name, failedJson f))),
    ("blocked", .object (r.blocked.map fun (name, b) ↦ (name, blockedJson b)))]

end Report

end Rollout
