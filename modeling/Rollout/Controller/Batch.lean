import Rollout.Controller

/-!
Batches. A batch is a controller at work, with the tally of what it has done so far and whether it
has got anywhere in the current pass. A step of a batch gives the batch as it is then, and the fault
that stopped it, if there was one.
-/

set_option autoImplicit false
set_option relaxedAutoImplicit false

namespace Rollout

/-- A controller at work. -/
structure Batch (β σ : Type) where
  controller : Controller β σ
  tally : Tally
  progressed : Bool

namespace Batch

variable {β σ : Type}

/-- A batch at its beginning. -/
def start (c : Controller β σ) : Batch β σ := ⟨c, {}, false⟩

/-- The stage of a deployment. -/
def stage? (b : Batch β σ) (root : Handle) : Option Stage := b.controller.board.stage? root

/-- Makes an entry in the journal. -/
def note (b : Batch β σ) (e : Entry β) : Batch β σ :=
  { b with controller := b.controller.note e }

/-- Sets whether the pass has got anywhere. -/
def mark (b : Batch β σ) (progressed : Bool) : Batch β σ := { b with progressed }

/-- Goes on with a step unless there was a fault. -/
def andThen (r : Batch β σ × Option BoardFault) (next : Batch β σ → Batch β σ × Option BoardFault) :
    Batch β σ × Option BoardFault :=
  match r with
  | (b, none) => next b
  | (b, some fault) => (b, some fault)

@[simp] theorem andThen_none (b : Batch β σ)
    (next : Batch β σ → Batch β σ × Option BoardFault) : andThen (b, none) next = next b := rfl

@[simp] theorem andThen_some (b : Batch β σ) (fault : BoardFault)
    (next : Batch β σ → Batch β σ × Option BoardFault) :
    andThen (b, some fault) next = (b, some fault) := rfl

/-- Takes a step for each of some things in turn, up to the first fault. -/
def forEach {α : Type} (step : α → Batch β σ → Batch β σ × Option BoardFault) :
    List α → Batch β σ → Batch β σ × Option BoardFault
  | [], b => (b, none)
  | x :: xs, b => andThen (step x b) (forEach step xs)

end Batch

end Rollout
