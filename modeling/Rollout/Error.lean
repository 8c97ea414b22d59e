import Rollout.Board
import Rollout.Config
import Rollout.Report
import Rollout.Roster

/-!
Errors of a controller. Every refusal and every failure that a client can see is one of these, with
one text each.
-/

set_option autoImplicit false
set_option relaxedAutoImplicit false

namespace Rollout

/-- What a client is told when a call does not succeed. -/
inductive Error
  | deployment (failure : Failure)
  | incomplete (report : Report)
  | unknownStage (name : String)
  | chain (error : ChainError)
  | roster (error : RosterError)
  | duplicateDeployment (name : String)
  | unknownDeployment (name : String)
  | invalidDeployment (reason : String)
  | config (reason : String)
  | unreadable
  | internal (reason : String)
deriving DecidableEq, Repr

namespace Error

/-- The text of an error. A text that cannot be read is not quoted back. -/
def message : Error → String
  | deployment failure => failure.message
  | incomplete report => report.text
  | unknownStage name => s!"Unknown stage: '{name}'"
  | chain error => error.message
  | roster error => error.message
  | duplicateDeployment name => s!"Deployment '{name}' already exists"
  | unknownDeployment name => s!"Unknown deployment: {name}"
  | invalidDeployment reason => s!"Invalid deployment: {reason}"
  | config reason => s!"Configuration error: {reason}"
  | unreadable => "Serialization error"
  | internal reason => s!"Internal error: {reason}"

/-- The error that a fault in a unit's name amounts to. -/
def ofNameFault : NameFault → Error
  | .blank => .invalidDeployment "unit name cannot be empty"
  | .taken name => .duplicateDeployment name

/-- The error that a move refused by the board amounts to. -/
def ofBoardFault (fault : BoardFault) : Error := .internal fault.message

end Error

namespace Config

/-- Refuses a configuration that has a fault. -/
def check (c : Config) : Except Error Unit :=
  match c.fault? with
  | none => .ok ()
  | some fault => .error (.config fault.message)

/-- The usable configuration that a text describes. -/
def ofText (s : String) : Except Error Config :=
  match ofText? s with
  | none => .error .unreadable
  | some c => c.check.map fun _ ↦ c

end Config

end Rollout
