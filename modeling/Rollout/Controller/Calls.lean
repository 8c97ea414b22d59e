import Rollout.Controller.Process
import Rollout.Controller.Queue

/-!
What clients call. Deploying and undeploying queue the change and run a batch. Changing asks some
deployments for another stage. Bouncing takes deployments down to a stage and back up to where they
were, and leaves them with the stage they were asked for and the error they had.
-/

set_option autoImplicit false
set_option relaxedAutoImplicit false

namespace Rollout.Controller

variable {β σ : Type}

/-- Goes on with a call unless it has been refused. -/
def andThen (r : Except Error Unit × Controller β σ)
    (next : Controller β σ → Except Error Unit × Controller β σ) :
    Except Error Unit × Controller β σ :=
  match r with
  | (.ok (), c) => next c
  | (.error e, c) => (.error e, c)

@[simp] theorem andThen_ok (c : Controller β σ)
    (next : Controller β σ → Except Error Unit × Controller β σ) :
    andThen (.ok (), c) next = next c := rfl

@[simp] theorem andThen_error (e : Error) (c : Controller β σ)
    (next : Controller β σ → Except Error Unit × Controller β σ) :
    andThen (.error e, c) next = (.error e, c) := rfl

/-- Queues deployments in order, up to the first that is refused. -/
def addAll : List Blueprint → Controller β σ → Except Error Unit × Controller β σ
  | [], c => (.ok (), c)
  | b :: bs, c => andThen (c.add b) (addAll bs)

/-- Brings several deployments live in one batch. -/
def deployAll (crew : Crew β σ) (bs : List Blueprint) (c : Controller β σ) :
    Except Error Unit × Controller β σ :=
  andThen (addAll bs c) fun c ↦ andThen (c.process crew) fun c ↦
    (if c.config.errorOnIncomplete then c.checkNamed (bs.map Blueprint.name) else .ok (), c)

/-- Brings a deployment live. -/
def deploy (crew : Crew β σ) (b : Blueprint) (c : Controller β σ) :
    Except Error Unit × Controller β σ :=
  deployAll crew [b] c

/-- Takes a deployment down and out. -/
def undeploy (crew : Crew β σ) (name : String) (c : Controller β σ) :
    Except Error Unit × Controller β σ :=
  match c.remove name with
  | (.error e, c) => (.error e, c)
  | (.ok false, c) => (.error (.unknownDeployment name), c)
  | (.ok true, c) => andThen (c.process crew) fun c ↦
    (if c.config.errorOnIncomplete && (c.forest.find? name).isSome then c.checkNamed [name]
      else .ok (), c)

/-- Asks some deployments for a stage. -/
def requestEach (roots : List Handle) (stage : Stage) (c : Controller β σ) : Controller β σ :=
  { c with board := roots.foldl (fun b root ↦ b.request root stage) c.board }

/-- The stage that a call names and the deployments that its units belong to. -/
def aims (c : Controller β σ) (stage : Stage) (names : List String) :
    Except Error (Stage × List Handle) :=
  match c.chain.resolve? stage with
  | none => .error (.unknownStage stage.name)
  | some target => (c.roots names).map (target, ·)

/-- Moves the deployments of some units to a stage. -/
def change (crew : Crew β σ) (stage : Stage) (strict : Bool) (names : List String)
    (c : Controller β σ) : Except Error Unit × Controller β σ :=
  match c.aims stage names with
  | .error e => (.error e, c)
  | .ok (target, roots) =>
    andThen (((c.note (.changing target roots)).requestEach roots target).process crew) fun c ↦
      (if strict then c.checkRoots roots else .ok (), c)

/-- The progress, before a bounce, of those deployments that take part in it: the ones above its
stage that are not to be removed. -/
def bounced (c : Controller β σ) (target : Stage) (roots : List Handle) : List Progress :=
  (roots.filterMap c.board.get?).filter fun p ↦ !p.removing && decide (target < p.stage)

/-- Sets the stages asked for to what a function tells of the earlier progress. -/
def aimEach (ps : List Progress) (stage : Progress → Stage) (c : Controller β σ) :
    Controller β σ :=
  { c with board := ps.foldl (fun b p ↦ b.aim p.root (stage p)) c.board }

/-- Gives back the stage a deployment was asked for, and the error it had if it has come back to
where it was without another. -/
def reinstate (b : Board) (p : Progress) : Board :=
  let b := b.aim p.root p.requested
  match p.error with
  | none => b
  | some failure =>
    if (b.get? p.root).any fun q ↦ q.error.isNone && q.stage == p.stage then
      b.fail p.root failure
    else b

/-- Takes the deployments of some units down to a stage and up again to where they were. -/
def bounce (crew : Crew β σ) (stage : Stage) (strict : Bool) (names : List String)
    (c : Controller β σ) : Except Error Unit × Controller β σ :=
  match c.aims stage names with
  | .error e => (.error e, c)
  | .ok (target, roots) =>
    let ps := c.bounced target roots
    let handles := ps.map Progress.root
    andThen (((c.note (.bouncing target handles)).requestEach handles target).process crew)
      fun c ↦ andThen ((c.aimEach ps Progress.stage).process crew) fun c ↦
        andThen (({ c with board := ps.foldl reinstate c.board }).process crew) fun c ↦
          (if strict then c.checkRoots roots else .ok (), c)

end Rollout.Controller
