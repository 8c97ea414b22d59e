import Rollout.Controller

/-!
The queue. A deployment is queued only if it could go live once everything that is to be removed is
gone: its names must be new, but for those of the live deployment it replaces, and the stages of its
demands must be known. A queued deployment can be taken back; a live one is scheduled for removal.
-/

set_option autoImplicit false
set_option relaxedAutoImplicit false

namespace Rollout.Controller

variable {β σ : Type}

/-- Whether a name cannot be given to a unit of a new deployment, when the units of the tree on
`replaced` are going to be removed. -/
def nameTaken (c : Controller β σ) (replaced : Option Handle) (name : String) : Bool :=
  c.queue.any (fun b ↦ name ∈ b.names) ||
    ((c.forest.find? name).isSome &&
      !(replaced.any fun root ↦ (c.forest.treeUnits root).any fun u ↦ u.name == name))

/-- The first stage of some needs that is not known to the chain. -/
def unknownStage? (chain : Chain) : List Need → Option Stage
  | [] => none
  | n :: ns =>
    if (chain.resolve? n.before).isNone then some n.before
    else if (chain.resolve? n.atLeast).isNone then some n.atLeast
    else unknownStage? chain ns

/-- Why a deployment cannot be queued, if it cannot. -/
def queueError? (c : Controller β σ) (b : Blueprint) : Option Error :=
  match NameFault.first? (c.nameTaken (c.forest.topLevel? b.name)) [] b.names with
  | some fault => some (Error.ofNameFault fault)
  | none => (unknownStage? c.chain b.needs).map fun s ↦ .unknownStage s.name

/-- Queues a deployment, and schedules the live deployment of its name for removal. -/
def add (c : Controller β σ) (b : Blueprint) : Except Error Unit × Controller β σ :=
  match c.queueError? b with
  | some e => (.error e, c)
  | none =>
    let c := match c.forest.topLevel? b.name with
      | none => c
      | some root =>
        { c.note (.replacing root b.name) with board := c.board.retire root }
    let c := c.note (.queued b)
    (.ok (), { c with queue := c.queue ++ [b] })

/-- Takes back the queued deployment of a name, or schedules the live one for removal. Tells whether
there was one. -/
def remove (c : Controller β σ) (name : String) : Except Error Bool × Controller β σ :=
  if c.queue.any fun b ↦ b.name == name then
    let c := c.note (.unqueued name)
    (.ok true, { c with queue := c.queue.eraseP fun b ↦ b.name == name })
  else match c.unit? name with
    | none => (.ok false, c)
    | some u =>
      if u.kind = .topLevel then
        let c := c.note (.retiring u.id name)
        (.ok true, { c with board := c.board.retire u.id })
      else (.error (.invalidDeployment s!"'{name}' is not a top-level deployment"), c)

end Rollout.Controller
