import Rollout.Journal

/-!
Crews. A crew is the behaviour of all deployers together: called on a unit, a deployer sees the
unit, the roster and whatever the deployers keep between calls, and replies with what it changes of
these and whether it failed. Of a unit it can change the attachments and declare further needs; to
the roster it can add deployers and it can take them off. As long as deployers are at work, the
roster changes by nothing but such replies: what other threads do to it meanwhile, or those who
listen to events, is not described.
-/

set_option autoImplicit false
set_option relaxedAutoImplicit false

namespace Rollout

/-- What comes of one call of a deployer. -/
structure Reply (β σ : Type) where
  attachments : Attachments
  declared : List Demand
  changes : List (RosterChange β)
  state : σ
  failure : Option Cause

/-- The behaviour of deployers with bodies `β`, who keep `σ` between calls. -/
structure Crew (β σ : Type) where
  call : Action → Deployer β → LiveUnit β → Roster β → σ → Reply β σ

/-- What deployers work in: the roster, what they keep between calls, and the journal. -/
structure Ambient (β σ : Type) where
  roster : Roster β
  state : σ
  journal : Journal β

namespace Ambient

variable {β σ : Type}

/-- Makes an entry in the journal. -/
def note (a : Ambient β σ) (e : Entry β) : Ambient β σ :=
  { a with journal := a.journal.push e }

/-- Enlists a deployer, or tells why not. -/
def enlist (a : Ambient β σ) (d : Deployer β) : Except RosterError (Ambient β σ) :=
  (a.roster.enlist d).map fun (stage, roster) ↦
    { a with roster, journal := a.journal.push (.enlisted d.name stage) }

/-- Takes the deployer of a name off the roster, if there is one. -/
def dismiss (a : Ambient β σ) (name : String) : Ambient β σ :=
  if name ∈ a.roster.names then
    { a with roster := a.roster.dismiss name, journal := a.journal.push (.dismissed name) }
  else a

/-- Makes a change to the roster. One that is refused has no effect. -/
def change (a : Ambient β σ) : RosterChange β → Ambient β σ
  | .enlist d => match a.enlist d with
    | .ok a => a
    | .error _ => a
  | .dismiss name => a.dismiss name

end Ambient

/-- A unit that has been worked on, with everything around it, and why the work failed if it did. -/
structure Work (β σ : Type) where
  unit : LiveUnit β
  ambient : Ambient β σ
  failure : Option Cause

namespace Crew

variable {β σ : Type}

/-- One call of a deployer on a unit. -/
def perform (crew : Crew β σ) (action : Action) (d : Deployer β) (u : LiveUnit β)
    (a : Ambient β σ) : Work β σ :=
  let reply := crew.call action d u a.roster a.state
  { unit := reply.declared.foldl LiveUnit.declare { u with attachments := reply.attachments }
    ambient := reply.changes.foldl Ambient.change { a with state := reply.state }
    failure := reply.failure }

/-- Calls those of some deployers that the unit suits when their turn comes, up to the first who
fails. -/
def deployAll (crew : Crew β σ) (stage : Stage) :
    List (Deployer β) → LiveUnit β → Ambient β σ → Work β σ
  | [], u, a => ⟨u, a, none⟩
  | d :: ds, u, a =>
    if u.suits d.profile then
      let w := crew.perform .deploy d u (a.note (.deploying d u.id u.name stage))
      match w.failure with
      | some cause =>
        { w with ambient := w.ambient.note (.deployFailed d u.id u.name stage cause) }
      | none =>
        crew.deployAll stage ds (w.unit.apply stage d)
          (w.ambient.note (.deployed d u.id u.name stage))
    else crew.deployAll stage ds u a

/-- Calls some deployers to take back what they did. Failures are noted and passed over. -/
def undeployAll (crew : Crew β σ) (stage : Stage) :
    List (Deployer β) → LiveUnit β → Ambient β σ → LiveUnit β × Ambient β σ
  | [], u, a => (u, a)
  | d :: ds, u, a =>
    let w := crew.perform .undeploy d u (a.note (.undeploying d u.id u.name stage))
    match w.failure with
    | some cause =>
      crew.undeployAll stage ds w.unit (w.ambient.note (.undeployFailed d u.id u.name stage cause))
    | none => crew.undeployAll stage ds w.unit w.ambient

/-- Works on a unit for a stage that is being entered. -/
def enterUnit (crew : Crew β σ) (stage : Stage) (ds : List (Deployer β)) (u : LiveUnit β)
    (a : Ambient β σ) : Work β σ :=
  let w := crew.deployAll stage ds (u.working (some stage)) a
  { w with unit := w.unit.working none }

/-- Takes back what was applied to a unit for a stage, last applied first, and then forgets the
needs that were declared for the stage. -/
def leaveUnit (crew : Crew β σ) (stage : Stage) (u : LiveUnit β) (a : Ambient β σ) :
    LiveUnit β × Ambient β σ :=
  let w := crew.undeployAll stage (u.appliedAt stage).reverse
    ((u.clearApplied stage).working (some stage)) a
  let unit := w.1.working none
  let kept := unit.forgetNeeds stage
  let dropped := unit.needs.length - kept.needs.length
  (kept, if dropped = 0 then w.2 else w.2.note (.needsDropped u.name stage dropped))

end Crew

end Rollout
