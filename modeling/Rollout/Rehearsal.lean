import Rollout.Controller.Calls
import Rollout.Rehearsal.Part

/-!
Rehearsals. Here the parts of a rehearsal are played: this is the crew whose deployers follow them,
and what it keeps in mind between calls is the memory of the rehearsal.
-/

set_option autoImplicit false
set_option relaxedAutoImplicit false

namespace Rollout.Rehearsal

/-- A call under way: the unit as it is by now, the roster as it is by now, what has been declared
and changed so far, and the memory. -/
structure Scene where
  unit : LiveUnit Instance
  roster : Roster Instance
  declared : List Demand := []
  changes : List (RosterChange Instance) := []
  memory : Memory

namespace Scene

/-- Writes down a call of a deployer on the unit. -/
def record (s : Scene) (action : Action) (deployer : String) : Scene :=
  { s with memory := s.memory.record action deployer s.unit.name }

/-- Puts other attachments on the unit. -/
def attach (s : Scene) (attachments : Attachments) : Scene :=
  { s with unit := { s.unit with attachments } }

/-- Declares a need of the unit. -/
def declare (s : Scene) (demand : Demand) : Scene :=
  { s with unit := s.unit.declare demand, declared := s.declared ++ [demand] }

/-- Enlists a new deployer with a part. -/
def enlist (s : Scene) (profile : Profile) (part : Part) : Except RosterError Unit × Scene :=
  let (d, memory) := s.memory.hire profile part
  match s.roster.enlist d with
  | .error e => (.error e, { s with memory })
  | .ok (_, roster) =>
    (.ok (), { s with roster, memory := memory.learn d, changes := s.changes ++ [.enlist d] })

/-- Takes the deployer of a name off the roster and tells whether there was one. -/
def dismiss (s : Scene) (name : String) : Bool × Scene :=
  (decide (name ∈ s.roster.names),
    { s with roster := s.roster.dismiss name, changes := s.changes ++ [.dismiss name] })

/-- The reply that a scene amounts to. -/
def reply (s : Scene) (failure : Option Cause) : Reply Instance Memory :=
  ⟨s.unit.attachments, s.declared, s.changes, s.memory, failure⟩

/-- Whether a line is played, and the scene in which that is known. A line that has a count is
counted whenever nothing else speaks against it. -/
def cued (s : Scene) (line : Nat × Action × Nat) (cue : Cue) : Bool × Scene :=
  if cue.unit.all (· == s.unit.name) && cue.ifKey.all s.unit.attachments.isPresent &&
      cue.unlessKey.all fun key ↦ !s.unit.attachments.isPresent key then
    match cue.times with
    | none => (true, s)
    | some times =>
      let (before, memory) := s.memory.reach line
      (decide (before < times), { s with memory })
  else (false, s)

end Scene

/-- The word for a refusal by the roster. -/
def refusalWord : RosterError → String
  | .blankName => "Registry.EmptyName"
  | .duplicate _ => "Registry.DuplicateName"
  | .unknownStage .. => "Registry.UnknownStage"
  | .floorStage .. => "Registry.FloorStage"
  | .blankKey _ => "Registry.EmptyAttachmentKey"

/-- Does what a line says. What comes of it is written down as a call under the deployer's name with
a note. -/
def play (action : Action) (deployer : String) (act : Act) (s : Scene) : Option Cause × Scene :=
  let noted (s : Scene) (note : String) := (none, s.record action (deployer ++ ":" ++ note))
  let unit := s.unit
  match act with
  | .put key v =>
    noted (s.attach (unit.attachments.put key v)) s!"put={unit.attachments.contains key}"
  | .putNull key =>
    noted (s.attach (unit.attachments.putNull key)) s!"null={unit.attachments.contains key}"
  | .remove key =>
    noted (s.attach (unit.attachments.erase key)) s!"remove={unit.attachments.contains key}"
  | .depend demand =>
    let s := s.declare demand
    noted s s!"deps={s.unit.needs.length}"
  | .tellStage => noted s ("at=" ++ (unit.stepping.map Stage.name).getD "none")
  | .enlist profile part =>
    let r := s.enlist profile part
    noted r.2 ("added=" ++ match r.1 with
      | .ok () => "ok"
      | .error e => refusalWord e)
  | .dismiss name =>
    let r := s.dismiss name
    noted r.2 s!"removed={r.1}"
  | .setFailing name fails =>
    (none, { s with memory := (s.memory.setFailing name fails).getD s.memory })
  | .fail cause => (some cause, s)

/-- Goes through the lines of a script from the one of the given number, up to the first that fails,
and writes the call down at the end. -/
def follow (action : Action) (d : Deployer Instance) :
    Nat → List Line → Scene → Option Cause × Scene
  | _, [], s => (none, s.record action d.name)
  | i, .mk cue act :: lines, s =>
    let r := s.cued (d.body.number, action, i) cue
    if r.1 then
      match play action d.name act r.2 with
      | (some cause, s) => (some cause, s)
      | (none, s) => follow action d (i + 1) lines s
    else follow action d (i + 1) lines r.2

/-- A call of the deployer that leaves its mark: its name under each output, and a demand. -/
def mark (action : Action) (d : Deployer Instance) (demand : Option Demand) (s : Scene) : Scene :=
  let outputs := d.profile.outputs
  match action with
  | .deploy =>
    let s := s.attach (outputs.foldl (fun a key ↦ a.put key (.text d.name)) s.unit.attachments)
    (demand.toList.foldl Scene.declare s).record action d.name
  | .undeploy =>
    (s.attach (outputs.foldl Attachments.erase s.unit.attachments)).record action d.name

/-- A call of a deployer in a rehearsal. -/
def act (action : Action) (d : Deployer Instance) (u : LiveUnit Instance)
    (roster : Roster Instance) (memory : Memory) : Reply Instance Memory :=
  let s : Scene := { unit := u, roster, memory }
  match d.body.part with
  | .marking demand => (mark action d demand s).reply none
  | .failing message unit fails failsUndeploy =>
    let aimed := unit.all (· == u.name)
    match action with
    | .deploy =>
      if memory.fails d.body.number fails && aimed then s.reply (some ⟨message, []⟩)
      else (s.record action d.name).reply none
    | .undeploy =>
      if failsUndeploy && aimed then s.reply (some ⟨d.name ++ " undeploy failed", []⟩)
      else (s.record action d.name).reply none
  | .minimal =>
    match action with
    | .deploy => (s.record action d.name).reply none
    | .undeploy => s.reply none
  | .scripted deploy undeploy =>
    let script := match action with
      | .deploy => some deploy
      | .undeploy => undeploy
    match script with
    | none => s.reply none
    | some lines =>
      let r := follow action d 0 lines s
      r.2.reply r.1

/-- The crew of a rehearsal. -/
def crew : Crew Instance Memory := ⟨act⟩

/-- Enlists a new deployer with a part from outside. -/
def enlist (profile : Profile) (part : Part) (c : Controller Instance Memory) :
    Except RosterError Unit × Controller Instance Memory :=
  let (d, memory) := c.state.hire profile part
  match (c.withState memory).enlist d with
  | (.error e, c) => (.error e, c)
  | (.ok (), c) => (.ok (), c.withState (c.state.learn d))

/-- Switches the failing deployer of a name to fail or not to, if one is known. -/
def setFailing (name : String) (fails : Bool) (c : Controller Instance Memory) :
    Option (Controller Instance Memory) :=
  (c.state.setFailing name fails).map c.withState

end Rollout.Rehearsal
