import Mathlib.Data.Finset.Basic
import Rollout.Controller.Retreat

/-!
Descents without a bound. A descent takes a deployment down by a stage after those that need it
there. It keeps a stack of what is still to be done, of any depth, and a set of the deployments that
are going down, which grows when one sets out and shrinks when it has left its stage.
-/

set_option autoImplicit false
set_option relaxedAutoImplicit false

namespace Rollout

variable {β σ : Type}

/-- Something that is still to be done on the way down. -/
inductive Frame
  /-- A deployment goes down by a stage. -/
  | descend (root : Handle)
  /-- Deployments go down to given stages for another one, in turn. -/
  | each (name : String) (targets : List (Handle × Stage))
  /-- One of them goes down by a stage as long as it is too high. -/
  | again (name : String) (dependent : Handle) (goal : Stage)
  /-- It is seen whether this has taken it down from where it was. -/
  | look (name : String) (dependent : Handle) (goal stage : Stage)
  /-- A deployment leaves its stage for the one below. -/
  | leave (p : Progress) (below : Stage)

/-- A descent on its way: what is still to be done, who is going down, and the batch so far. -/
structure Descent (β σ : Type) where
  frames : List Frame
  active : Finset Handle
  batch : Batch β σ
  fault : Option BoardFault

namespace Descent

/-- A descent that is about to set out. -/
def start (root : Handle) (b : Batch β σ) : Descent β σ := ⟨[.descend root], ∅, b, none⟩

/-- A descent that has come to its end without a fault, with nobody going down any more. -/
def done (b : Batch β σ) : Descent β σ := ⟨[], ∅, b, none⟩

/-- Does what comes next. -/
def next (crew : Crew β σ) (r : Descent β σ) : Descent β σ :=
  match r.frames with
  | [] => r
  | .descend root :: rest =>
    match r.batch.controller.board.get? root with
    | none => { r with frames := rest }
    | some p =>
      match r.batch.controller.chain.prev? p.stage with
      | none => { r with frames := rest }
      | some below =>
        { r with
          frames := .each p.name (r.batch.controller.recalled root below) :: .leave p below :: rest
          active := insert root r.active }
  | .each _ [] :: rest => { r with frames := rest }
  | .each name ((dependent, goal) :: targets) :: rest =>
    if dependent ∈ r.active then { r with frames := .each name targets :: rest }
    else { r with frames := .again name dependent goal :: .each name targets :: rest }
  | .again name dependent goal :: rest =>
    match r.batch.stage? dependent with
    | none => { r with frames := rest }
    | some stage =>
      if stage ≤ goal then { r with frames := rest }
      else
        { r with
          frames := .descend dependent :: .look name dependent goal stage :: rest
          batch := r.batch.note (.recalling name dependent goal) }
  | .look name dependent goal stage :: rest =>
    if r.batch.stage? dependent = some stage then { r with frames := rest }
    else { r with frames := .again name dependent goal :: rest }
  | .leave p below :: rest =>
    match Batch.leave crew p below r.batch with
    | (b, none) => { r with frames := rest, active := r.active.erase p.root, batch := b }
    | (b, some fault) => { r with frames := [], batch := b, fault := some fault }

end Descent

end Rollout
