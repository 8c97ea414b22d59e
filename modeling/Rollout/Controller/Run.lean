import Rollout.Controller.Calls

/-!
Runs. Everything a client can ask of a controller is a request, and a controller is reachable when
it is one that was set up over some chain and has served some requests since. Between requests the
roster may be changed, and so may whatever the deployers keep, by anyone. While a batch runs, only
the replies of the deployers that are called in it change the roster; a change that comes from
another thread then, or from whoever listens to events, is not described.
-/

set_option autoImplicit false
set_option relaxedAutoImplicit false

namespace Rollout

/-- What a client can ask for. -/
inductive Request (β σ : Type)
  | add (b : Blueprint)
  | remove (name : String)
  | process
  | deploy (b : Blueprint)
  | deployAll (bs : List Blueprint)
  | undeploy (name : String)
  | change (stage : Stage) (strict : Bool) (names : List String)
  | bounce (stage : Stage) (strict : Bool) (names : List String)
  | enlist (d : Deployer β)
  | dismiss (name : String)
  | replaceState (state : σ)

namespace Controller

variable {β σ : Type}

/-- Serves a request, and tells whether it was refused. -/
def serve (crew : Crew β σ) (c : Controller β σ) :
    Request β σ → Except Error Unit × Controller β σ
  | .add b => c.add b
  | .remove name => ((c.remove name).1.map fun _ ↦ (), (c.remove name).2)
  | .process => c.process crew
  | .deploy b => c.deploy crew b
  | .deployAll bs => c.deployAll crew bs
  | .undeploy name => c.undeploy crew name
  | .change stage strict names => c.change crew stage strict names
  | .bounce stage strict names => c.bounce crew stage strict names
  | .enlist d => ((c.enlist d).1.mapError Error.roster, (c.enlist d).2)
  | .dismiss name => (.ok (), (c.dismiss name).2)
  | .replaceState state => (.ok (), c.withState state)

/-- Serves requests one after another, refused or not. -/
def serveAll (crew : Crew β σ) (requests : List (Request β σ)) (c : Controller β σ) :
    Controller β σ :=
  requests.foldl (fun c r ↦ (c.serve crew r).2) c

/-- The controllers that a client can come to have. -/
inductive Reachable (crew : Crew β σ) : Controller β σ → Prop
  | build {config : Config} {sink : Sink} {chain : Chain} {state : σ} {c : Controller β σ} :
    build config sink (Roster.vacant chain) state = .ok c → Reachable crew c
  | serve {c : Controller β σ} (r : Request β σ) :
    Reachable crew c → Reachable crew (c.serve crew r).2

theorem Reachable.serveAll {crew : Crew β σ} {c : Controller β σ} (h : Reachable crew c)
    (requests : List (Request β σ)) : Reachable crew (c.serveAll crew requests) := by
  induction requests generalizing c with
  | nil => exact h
  | cons r rs ih => exact ih (h.serve r)

end Controller

end Rollout
