import Rollout.Controller.Batch

/-!
Going up. A pass goes once through the deployments in the order in which they were entered, and each
that is below the stage it is asked for takes one step up, if all its needs for that step are met.
One that cannot is parked with the list of what it is missing. One whose deployers fail is left in
error where it was.
-/

set_option autoImplicit false
set_option relaxedAutoImplicit false

namespace Rollout.Batch

variable {β σ : Type}

/-- Records what a deployment is missing, if that is news. -/
def park (root : Handle) (missing : List Shortfall) (b : Batch β σ) : Batch β σ :=
  let c := b.controller
  match c.board.get? root with
  | none => b
  | some p =>
    if p.waiting = missing then b
    else
      let parked := { c with board := c.board.wait root missing }
      { b with controller := parked.note (.parked root p.name p.stage missing) }

/-- A deployment enters the next stage, or is left in error. -/
def climb (crew : Crew β σ) (root : Handle) (p : Progress) (next : Stage) (b : Batch β σ) :
    Batch β σ × Option BoardFault :=
  let c := b.controller
  match c.site.enterStage crew root next with
  | (.ok applied, site) =>
    let entered := { c with site }
    match c.board.ascend root next with
    | .error fault => ({ b with controller := entered }, some fault)
    | .ok board =>
      let after := { entered with board }
      let move : Move β := ⟨root, p.name, p.stage, next, c.position, after.position⟩
      ({ b with
          controller := after.note (.advanced move applied)
          tally := { b.tally with
            advanced := b.tally.advanced + 1
            invocations := b.tally.invocations + applied } }, none)
  | (.error failure, site) =>
    let noted := ({ c with site } : Controller β σ).note (.failed root p.name next failure)
    ({ b with
        controller := { noted with board := c.board.fail root failure }
        tally := { b.tally with failed := b.tally.failed + 1 } }, none)

/-- A deployment takes its next step up, if it can. -/
def advance (crew : Crew β σ) (root : Handle) (b : Batch β σ) : Batch β σ × Option BoardFault :=
  let c := b.controller
  match c.board.get? root with
  | none => (b, none)
  | some p =>
    match c.board.verdict c.chain c.forest root with
    | .idle => (b, none)
    | .blocked missing => (b.park root missing, none)
    | .ready next => climb crew root p next (b.mark true)

/-- Every deployment takes its next step up, if it can, those entered first first. -/
def advancePass (crew : Crew β σ) (b : Batch β σ) : Batch β σ × Option BoardFault :=
  forEach (advance crew) b.controller.board.order (b.mark false)

end Rollout.Batch
