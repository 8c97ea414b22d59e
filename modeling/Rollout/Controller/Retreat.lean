import Rollout.Controller.Batch

/-!
Going down. Before a deployment goes down by a stage, every other deployment that may not stay where
it is without it goes down first, and those that hang on that one before it, and so on; a deployment
that is on this path already is not asked again, so a circle of needs does no harm. A pass goes
through the deployments from the one entered last to the one entered first and takes each of them
down to the stage it is asked for.
-/

set_option autoImplicit false
set_option relaxedAutoImplicit false

namespace Rollout

/-- The deployments that have to go down before another one goes down by a stage, and how far. -/
def Controller.recalled {β σ : Type} (c : Controller β σ) (root : Handle) (below : Stage) :
    List (Handle × Stage) :=
  c.board.recalled c.chain c.forest root below

namespace Batch

variable {β σ : Type}

/-- A deployment leaves its stage for the one below. -/
def leave (crew : Crew β σ) (p : Progress) (below : Stage) (b : Batch β σ) :
    Batch β σ × Option BoardFault :=
  let c := b.controller
  let w := c.site.leaveStage crew p.root p.stage
  let left := { c with site := w.2 }
  match c.board.descend p.root below with
  | .error fault => ({ b with controller := left }, some fault)
  | .ok board =>
    let after := { left with board }
    let move : Move β := ⟨p.root, p.name, p.stage, below, c.position, after.position⟩
    ({ b with
        controller := after.note (.retreated move w.1)
        tally := { b.tally with
          retreated := b.tally.retreated + 1
          invocations := b.tally.invocations + w.1 } }, none)

/-- Takes another deployment down to a stage with `down`, which goes down by one stage; it takes at
most `steps` of them, and stops early where it does not get any further. -/
def callDownOne (down : Handle → Batch β σ → Batch β σ × Option BoardFault) (name : String)
    (dependent : Handle) (goal : Stage) : Nat → Batch β σ → Batch β σ × Option BoardFault
  | 0, b => (b, none)
  | steps + 1, b =>
    match b.stage? dependent with
    | none => (b, none)
    | some stage =>
      if stage ≤ goal then (b, none)
      else andThen (down dependent (b.note (.recalling name dependent goal))) fun b ↦
        if b.stage? dependent = some stage then (b, none)
        else callDownOne down name dependent goal steps b

/-- Takes another deployment down to a stage, unless it is on the path already. -/
def callDown (down : Handle → Batch β σ → Batch β σ × Option BoardFault) (path : List Handle)
    (name : String) (target : Handle × Stage) (b : Batch β σ) : Batch β σ × Option BoardFault :=
  if target.1 ∈ path then (b, none)
  else
    let steps := (b.stage? target.1).elim 0 fun s ↦ s.index + 1
    callDownOne down name target.1 target.2 steps b

/-- A deployment goes down by one stage, after all those that may not stay where they are without
it. The path holds the deployments that are going down already, and at most `depth` of them can be
on it together. -/
def descendOn (crew : Crew β σ) : (depth : Nat) → (path : List Handle) → (root : Handle) →
    Batch β σ → Batch β σ × Option BoardFault
  | 0, _, _, b => (b, none)
  | depth + 1, path, root, b =>
    match b.controller.board.get? root with
    | none => (b, none)
    | some p => match b.controller.chain.prev? p.stage with
      | none => (b, none)
      | some below =>
        let path := root :: path
        andThen
          (forEach (callDown (descendOn crew depth path) path p.name)
            (b.controller.recalled root below) b)
          (leave crew p below)

/-- A deployment goes down by one stage, and all others that have to. No path is longer than the
board. -/
def descend (crew : Crew β σ) (root : Handle) (b : Batch β σ) : Batch β σ × Option BoardFault :=
  descendOn crew (b.controller.board.order.length + 1) [] root b

/-- The stage of a deployment that is above the one it is asked for. -/
def excess? (b : Batch β σ) (root : Handle) : Option Stage :=
  (b.controller.board.get? root).bind fun p ↦
    if p.requested < p.stage then some p.stage else none

/-- Takes a deployment down to the stage it is asked for, in at most so many steps; it stops early
where it does not get any further. -/
def lower (crew : Crew β σ) (root : Handle) : Nat → Batch β σ → Batch β σ × Option BoardFault
  | 0, b => (b, none)
  | steps + 1, b =>
    match b.excess? root with
    | none => (b, none)
    | some stage =>
      andThen (descend crew root b) fun b ↦
        if b.stage? root = some stage then (b.mark true, none)
        else lower crew root steps (b.mark true)

/-- Takes a deployment down to the stage it is asked for. -/
def settleDown (crew : Crew β σ) (root : Handle) (b : Batch β σ) :
    Batch β σ × Option BoardFault :=
  lower crew root ((b.stage? root).elim 0 fun s ↦ s.index + 1) b

/-- Takes every deployment down to the stage it is asked for, those entered last first. -/
def retreatPass (crew : Crew β σ) (b : Batch β σ) : Batch β σ × Option BoardFault :=
  forEach (settleDown crew) b.controller.board.order.reverse (b.mark false)

end Batch

end Rollout
