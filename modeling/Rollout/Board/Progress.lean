import Rollout.Forest.LiveUnit

/-!
The progress of a deployment: the stage it has reached, the stage it is asked for, and what keeps it
from getting there. A failed step leaves its failure here, with the chain of causes from what was
being done down to the root of it.
-/

set_option autoImplicit false
set_option relaxedAutoImplicit false

namespace Rollout

/-- Why a deployer failed: the outermost account, and those below it down to the root. -/
structure Cause where
  account : String
  below : List String
deriving DecidableEq, Repr

namespace Cause

/-- All accounts from the outermost down. -/
def accounts (c : Cause) : List String := c.account :: c.below

/-- The last account, with nothing below it. -/
def root (c : Cause) : String := c.below.getLastD c.account

end Cause

/-- A failed step: the unit whose deployer failed, the stage that was being entered, and why. -/
structure Failure where
  unit : String
  stage : Stage
  cause : Cause
deriving DecidableEq, Repr

namespace Failure

/-- The failure in words. -/
def message (f : Failure) : String :=
  s!"Error deploying '{f.unit}' at stage {f.stage}: " ++ f.cause.account

end Failure

/-- What a deployment shows of itself: its stage, and whether it is in error there. -/
inductive Standing
  | settled (stage : Stage)
  | failed (stage : Stage)
deriving DecidableEq, Repr

namespace Standing

/-- The stage of a standing. -/
def stage : Standing → Stage
  | settled stage => stage
  | failed stage => stage

/-- Whether the deployment is in error. -/
def isFailed : Standing → Bool
  | settled _ => false
  | failed _ => true

/-- The word for a standing without its stage. -/
def word : Standing → String
  | settled _ => "at"
  | failed _ => "error"

/-- The standing in words. -/
def text : Standing → String
  | settled stage => stage.name
  | failed stage => s!"Error (at {stage})"

end Standing

/-- How far a deployment has got. -/
structure Progress where
  root : Handle
  name : String
  stage : Stage
  requested : Stage
  error : Option Failure
  waiting : List Shortfall
  removing : Bool
deriving DecidableEq, Repr

namespace Progress

/-- A deployment on the floor that has only been asked for a stage. -/
def start (root : Handle) (name : String) (requested : Stage) : Progress :=
  ⟨root, name, Stage.floor, requested, none, [], false⟩

/-- What the deployment shows of itself. -/
def standing (p : Progress) : Standing :=
  if p.error.isSome then .failed p.stage else .settled p.stage

/-- Free of error and at the stage asked for. -/
def isComplete (p : Progress) : Bool :=
  p.error.isNone && p.stage == p.requested

end Progress

end Rollout
