import Rollout.Controller

/-!
Expectations about a controller. Each either holds or gives the text that says what was found
instead.
-/

set_option autoImplicit false
set_option relaxedAutoImplicit false

namespace Rollout.Controller

variable {β σ : Type}

/-- A standing spelled out, or the lack of one. -/
def spelledStanding : Option Standing → String
  | none => "None"
  | some (.settled stage) => "Some(At(" ++ stage.spelled ++ "))"
  | some (.failed stage) => "Some(Error(" ++ stage.spelled ++ "))"

/-- What is wrong if a unit is expected to be at a stage and free of error. -/
def expectStage (c : Controller β σ) (name : String) (stage : Stage) : Option String :=
  match c.standing? name with
  | none => some s!"Deployment '{name}' is not tracked"
  | some found =>
    if found = .settled stage then none
    else some (s!"Expected '{name}' at {stage}, got " ++ found.text)

/-- What is wrong if a unit is expected to be in error. -/
def expectFailed (c : Controller β σ) (name : String) : Option String :=
  if (c.standing? name).any Standing.isFailed then none
  else some (s!"Expected '{name}' to be in error, got " ++ spelledStanding (c.standing? name))

/-- What is wrong if a unit is expected to wait for another. -/
def expectWaiting (c : Controller β σ) (name target : String) : Option String :=
  let waiting := c.waiting name
  if waiting.any fun m ↦ m.target == target then none
  else some (s!"Expected '{name}' to wait on '{target}', waiting on: " ++
    Text.quotedList (waiting.map Shortfall.text))

/-- What is wrong if nothing is expected to be incomplete. -/
def expectComplete (c : Controller β σ) : Option String :=
  if c.report.isEmpty then none
  else some ("Expected a complete batch, got:\n" ++ c.report.text)

end Rollout.Controller
