import Rollout.Deployer
import Rollout.Sorting
import Rollout.Stage.Chain

/-!
The roster of deployers. Deployers are enlisted under their own names and placed at a stage of the
chain above the floor. The deployers of a stage work in the order they ask for; those that ask for
the same turn work in the order in which they were enlisted. One who is dismissed and enlisted again
counts as new.
-/

set_option autoImplicit false
set_option relaxedAutoImplicit false

namespace Rollout

/-- Why a deployer is not enlisted. -/
inductive RosterError
  | blankName
  | duplicate (name : String)
  | unknownStage (deployer stage : String)
  | floorStage (deployer stage : String)
  | blankKey (deployer : String)
deriving DecidableEq, Repr

namespace RosterError

/-- The text of a refusal. -/
def message : RosterError → String
  | blankName => "Deployer name cannot be empty"
  | duplicate name => s!"Deployer '{name}' is already registered"
  | unknownStage deployer stage => s!"Deployer '{deployer}' declares unknown stage '{stage}'"
  | floorStage deployer stage =>
    s!"Deployer '{deployer}' cannot run at the floor stage '{stage}'"
  | blankKey deployer => s!"Deployer '{deployer}' declares an empty attachment key"

end RosterError

/-- A deployer on the roster: the stage of the chain it works at, and its number. -/
structure Enrolment (β : Type) where
  deployer : Deployer β
  stage : Stage
  number : Nat

/-- The enlisted deployers over a chain, in the order in which they were enlisted. -/
structure Roster (β : Type) where
  chain : Chain
  enrolments : List (Enrolment β)
  next : Nat

namespace Roster

variable {β : Type}

/-- A roster without deployers. -/
def vacant (chain : Chain) : Roster β := ⟨chain, [], 0⟩

/-- The names of the enlisted deployers. -/
def names (r : Roster β) : List String := r.enrolments.map fun e ↦ e.deployer.name

/-- The stage at which a deployer would be placed, or why it cannot be enlisted. -/
def placing (r : Roster β) (d : Deployer β) : Except RosterError Stage :=
  if Text.isBlank d.name then .error .blankName
  else match r.chain.resolve? d.profile.stage with
    | none => .error (.unknownStage d.name d.profile.stage.name)
    | some stage =>
      if stage.isFloor then .error (.floorStage d.name stage.name)
      else if d.profile.keys.any Text.isBlank then .error (.blankKey d.name)
      else if d.name ∈ r.names then .error (.duplicate d.name)
      else .ok stage

/-- Enlists a deployer. -/
def enlist (r : Roster β) (d : Deployer β) : Except RosterError (Stage × Roster β) :=
  (r.placing d).map fun stage ↦
    (stage, { r with enrolments := r.enrolments ++ [⟨d, stage, r.next⟩], next := r.next + 1 })

/-- The enlisted deployer of a name. -/
def find? (r : Roster β) (name : String) : Option (Deployer β) :=
  (r.enrolments.find? fun e ↦ e.deployer.name == name).map Enrolment.deployer

/-- Takes the deployer of a name off the roster. -/
def dismiss (r : Roster β) (name : String) : Roster β :=
  { r with enrolments := r.enrolments.eraseP fun e ↦ e.deployer.name == name }

/-- Whether one enrolment works before another of the same stage, or is the same. -/
def precedes (a b : Enrolment β) : Bool :=
  a.deployer.profile.order < b.deployer.profile.order ||
    (a.deployer.profile.order == b.deployer.profile.order && a.number ≤ b.number)

/-- The deployers of a stage in the order in which they work. -/
def atStage (r : Roster β) (stage : Stage) : List (Deployer β) :=
  match r.chain.resolve? stage with
  | none => []
  | some stage =>
    (Sorting.sortBy precedes (r.enrolments.filter fun e ↦ e.stage == stage)).map
      Enrolment.deployer

/-- How many deployers are enlisted. -/
def size (r : Roster β) : Nat := r.enrolments.length

end Roster

/-- A change that a deployer makes to the roster while it is at work. -/
inductive RosterChange (β : Type)
  | enlist (deployer : Deployer β)
  | dismiss (name : String)

end Rollout
