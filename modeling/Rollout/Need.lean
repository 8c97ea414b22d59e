import Rollout.Stage

/-!
Needs between units. A unit may enter a stage only when each unit it needs before that stage has
got far enough. A need is declared with the deployment, and then it stands for good, or by a
deployer while it works on the unit, and then it is forgotten when that stage is left again. A need
that is not met is reported with what was found instead.
-/

set_option autoImplicit false
set_option relaxedAutoImplicit false

namespace Rollout

/-- What is asked of another unit: it has to have reached `atLeast` before `before` is entered. -/
structure Demand where
  target : String
  before : Stage
  atLeast : Stage
deriving DecidableEq, Repr

/-- A demand of a unit, with the stage whose work declared it, if one did. -/
structure Need extends Demand where
  dependent : String
  declaredAt : Option Stage
deriving DecidableEq, Repr

namespace Need

/-- The demand made by a unit. -/
def of (dependent : String) (demand : Demand) (declaredAt : Option Stage) : Need :=
  ⟨demand, dependent, declaredAt⟩

/-- The need in words. -/
def text (n : Need) : String :=
  s!"{n.dependent} needs {n.target} at {n.atLeast} before {n.before}"

/-- Adds a need unless the very same one is there. -/
def addTo (needs : List Need) (n : Need) : List Need :=
  if n ∈ needs then needs else needs ++ [n]

/-- The needs less those that the work of one stage declared. -/
def forget (needs : List Need) (stage : Stage) : List Need :=
  needs.filter fun n ↦ n.declaredAt != some stage

/-- The given needs in order, exact repetitions dropped. -/
def distinct (needs : List Need) : List Need := needs.foldl addTo []

theorem mem_addTo {needs : List Need} {n m : Need} : m ∈ addTo needs n ↔ m ∈ needs ∨ m = n := by
  unfold addTo
  split
  · next h => exact ⟨Or.inl, fun | .inl hm => hm | .inr e => e ▸ h⟩
  · simp

theorem mem_forget {needs : List Need} {stage : Stage} {n : Need} :
    n ∈ forget needs stage ↔ n ∈ needs ∧ n.declaredAt ≠ some stage := by
  simp [forget]

end Need

/-- A need that is not met: the stage its target was found at, if the target was found, and whether
the target was in error. -/
structure Shortfall where
  dependent : String
  target : String
  before : Stage
  atLeast : Stage
  actual : Option Stage
  targetFailed : Bool
deriving DecidableEq, Repr

namespace Shortfall

/-- The shortfall of a need. -/
def of (n : Need) (actual : Option Stage) (targetFailed : Bool) : Shortfall :=
  ⟨n.dependent, n.target, n.before, n.atLeast, actual, targetFailed⟩

/-- What was found, in words. -/
def found (m : Shortfall) : String :=
  match m.actual with
  | none => "** NOT FOUND **"
  | some stage => if m.targetFailed then "** ERROR **" else stage.name

/-- The shortfall in words. -/
def text (m : Shortfall) : String :=
  m.target ++ " \x7bRequired: " ++ m.atLeast.name ++ ", Actual: " ++ m.found ++ "\x7d"

end Shortfall

end Rollout
