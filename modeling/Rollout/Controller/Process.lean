import Rollout.Controller.Advance
import Rollout.Controller.Retreat

/-!
Processing a batch. A batch first moves what is live, then takes out what was to be removed and has
come down, then plants what is queued, and moves everything again. It moves in passes: as long as
anything has to go down nothing goes up, and it ends when a pass gets nowhere or when it has used up
its passes.
-/

set_option autoImplicit false
set_option relaxedAutoImplicit false

namespace Rollout

namespace Batch

variable {β σ : Type}

/-- Takes passes until one gets nowhere or none are left. -/
def passes (crew : Crew β σ) : Nat → Batch β σ → Batch β σ × Option BoardFault
  | 0, b => (b.note (.passLimit b.controller.config.maxPasses), none)
  | left + 1, b =>
    let b := { b with tally := { b.tally with passes := b.tally.passes + 1 } }
    andThen (retreatPass crew b) fun b ↦
      if b.progressed then passes crew left b
      else andThen (advancePass crew b) fun b ↦
        if b.progressed then passes crew left b else (b, none)

/-- Takes the passes that the batch has left. -/
def run (crew : Crew β σ) (b : Batch β σ) : Batch β σ × Option BoardFault :=
  passes crew (b.controller.config.maxPasses - b.tally.passes) b

end Batch

namespace Controller

variable {β σ : Type}

/-- Takes a deployment off the board and its tree out of the forest. -/
def discard (root : Handle) (c : Controller β σ) : Controller β σ :=
  match c.board.get? root with
  | none => c
  | some p =>
    let felled := c.forest.uproot root
    let c := { c with board := c.board.leave root, site := { c.site with forest := felled.2 } }
    c.note (.removed root p.name felled.1)

/-- The deployments that are to be removed and have come down to the floor. -/
def discardable (c : Controller β σ) : List Handle :=
  (c.board.tracked.filter fun p ↦ p.removing && p.stage.isFloor).map Progress.root

/-- Takes out everything that is to be removed and has come down. -/
def sweep (c : Controller β σ) : Controller β σ :=
  c.discardable.foldl (fun c root ↦ c.discard root) c

/-- Plants one deployment and enters it on the board, or tells why not. -/
def plant (b : Blueprint) (c : Controller β σ) : Controller β σ × Option Error :=
  match c.forest.plant b with
  | .error fault =>
    let e := Error.ofNameFault fault
    (c.note (.rejected b.name e), some e)
  | .ok (root, forest) =>
    let c := { c with
      site := { c.site with forest }
      board := c.board.enter root b.name c.target }
    (c.note (.added root b (forest.tree root).length c.target), none)

/-- Plants some deployments in order, and gives the first refusal. -/
def plantAll : List Blueprint → Controller β σ → Controller β σ × Option Error
  | [], c => (c, none)
  | b :: bs, c =>
    let first := c.plant b
    let rest := plantAll bs first.1
    (rest.1, first.2.or rest.2)

/-- Plants everything that is queued. -/
def materialize (c : Controller β σ) : Controller β σ × Option Error :=
  plantAll c.queue { c with queue := [] }

/-- Runs a batch. -/
def process (crew : Crew β σ) (c : Controller β σ) : Except Error Unit × Controller β σ :=
  match Batch.run crew (Batch.start c) with
  | (b, some fault) => (.error (.ofBoardFault fault), b.controller)
  | (b, none) =>
    let (c, rejected) := b.controller.sweep.materialize
    match Batch.run crew { b with controller := c } with
    | (b, some fault) => (.error (.ofBoardFault fault), b.controller)
    | (b, none) =>
      (match rejected with
        | some e => .error e
        | none => .ok (),
        b.controller.note (.completed b.tally))

end Controller

end Rollout
