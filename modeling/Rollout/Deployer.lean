import Rollout.Stage

/-!
Deployers. A deployer says about itself where it works, in what turn, and on which units; what it
does when it is called is not part of this description. What it says is a constant, read once and for
all: a deployer that says something else each time it is asked, or comes to say something else while
it is enlisted, is not described. The body of a deployer is whatever tells one deployer from another
to those who call it.
-/

set_option autoImplicit false
set_option relaxedAutoImplicit false

namespace Rollout

/-- What a deployer declares about itself. -/
structure Profile where
  name : String
  stage : Stage
  order : Int := 0
  inputs : List String := []
  outputs : List String := []
  requires : Option String := none
  topOnly : Bool := false
  componentsOnly : Bool := false
  wantsComponents : Bool := false
deriving DecidableEq, Repr

namespace Profile

/-- The profile that also skips units without a value under a key. The key counts as an input. -/
def requiring (p : Profile) (key : String) : Profile :=
  { p with
    inputs := if key ∈ p.inputs then p.inputs else p.inputs ++ [key]
    requires := some key }

/-- All attachment keys a profile names. -/
def keys (p : Profile) : List String :=
  p.inputs ++ p.outputs ++ p.requires.toList

/-- A deployer with this profile spelled out. -/
def spelled (p : Profile) : String :=
  "FnDeployer \x7b name: " ++ Text.quoted p.name ++ ", stage: " ++ p.stage.spelled ++ " \x7d"

end Profile

/-- A deployer: its profile, and the body by which it is told apart. -/
structure Deployer (β : Type) where
  profile : Profile
  body : β

namespace Deployer

variable {β : Type}

/-- The name of a deployer. -/
def name (d : Deployer β) : String := d.profile.name

end Deployer

/-- What a deployer is called for. -/
inductive Action
  | deploy
  | undeploy
deriving DecidableEq, Repr

namespace Action

/-- The action in words. -/
def text : Action → String
  | deploy => "deploy"
  | undeploy => "undeploy"

end Action

end Rollout
