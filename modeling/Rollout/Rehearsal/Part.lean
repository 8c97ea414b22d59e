import Rollout.Board.Progress
import Rollout.Forest.LiveUnit

/-!
Parts for rehearsals. A rehearsal runs a controller with deployers that follow a part: one that
leaves its mark on every unit, one that fails on demand, one that does the bare minimum, or one that
follows a script. A line of a script says on which units it is played, and what is done there.
-/

set_option autoImplicit false
set_option relaxedAutoImplicit false

namespace Rollout.Rehearsal

/-- When a line of a script is played: on the unit of a name, where there is a value under a key,
where there is none under another, and only so many times. -/
structure Cue where
  unit : Option String := none
  ifKey : Option String := none
  unlessKey : Option String := none
  times : Option Nat := none
deriving DecidableEq, Repr

mutual

/-- What a deployer does when it is called. -/
inductive Part
  | marking (demand : Option Demand)
  | failing (message : String) (unit : Option String) (fails : Bool) (failsUndeploy : Bool)
  | minimal
  | scripted (deploy : List Line) (undeploy : Option (List Line))

/-- A line of a script. -/
inductive Line
  | mk (cue : Cue) (act : Act)

/-- What is done at a line. -/
inductive Act
  | put (key : String) (v : Value)
  | putNull (key : String)
  | remove (key : String)
  | depend (demand : Demand)
  | tellStage
  | enlist (profile : Profile) (part : Part)
  | dismiss (name : String)
  | setFailing (name : String) (fails : Bool)
  | fail (cause : Cause)

end

/-- A deployer's part, and the number by which it is told from others with the same part. -/
structure Instance where
  number : Nat
  part : Part

/-- A call that was written down: what for, by whom, and on which unit. -/
structure Call where
  action : Action
  deployer : String
  unit : String
deriving DecidableEq, Repr

namespace Call

/-- A call in words. -/
def text (c : Call) : String := c.action.text ++ " " ++ c.deployer ++ " " ++ c.unit

end Call

/-- What the deployers of a rehearsal keep between calls: the calls written down, how many instances
there have been, which of them have been switched to fail or not to, the failing ones that are known
by name, and how often each line of a script has been reached. -/
structure Memory where
  calls : Array Call := #[]
  hired : Nat := 0
  switches : List (Nat × Bool) := []
  known : List (String × Nat) := []
  reached : List ((Nat × Action × Nat) × Nat) := []

namespace Memory

instance : Inhabited Memory := ⟨{}⟩

/-- Writes a call down. -/
def record (m : Memory) (action : Action) (deployer unit : String) : Memory :=
  { m with calls := m.calls.push ⟨action, deployer, unit⟩ }

/-- A new deployer with a part. -/
def hire (m : Memory) (profile : Profile) (part : Part) : Deployer Instance × Memory :=
  (⟨profile, ⟨m.hired, part⟩⟩, { m with hired := m.hired + 1 })

/-- Remembers a deployer that has been enlisted, if it is one that fails on demand. -/
def learn (m : Memory) (d : Deployer Instance) : Memory :=
  match d.body.part with
  | .failing .. =>
    { m with known := (d.name, d.body.number) :: m.known.filter fun k ↦ k.1 != d.name }
  | _ => m

/-- Switches the failing deployer of a name to fail or not to, if one is known. -/
def setFailing (m : Memory) (name : String) (fails : Bool) : Option Memory :=
  (m.known.lookup name).map fun number ↦
    { m with switches := (number, fails) :: m.switches.filter fun s ↦ s.1 != number }

/-- Whether an instance is switched to fail, if it begins as given. -/
def fails (m : Memory) (number : Nat) (atFirst : Bool) : Bool :=
  (m.switches.lookup number).getD atFirst

/-- How often a line has been reached before, and the memory of reaching it once more. -/
def reach (m : Memory) (line : Nat × Action × Nat) : Nat × Memory :=
  let before := (m.reached.lookup line).getD 0
  (before, { m with reached := (line, before + 1) :: m.reached.filter fun r ↦ r.1 != line })

end Memory

end Rollout.Rehearsal
