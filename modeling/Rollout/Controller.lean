import Rollout.Sink
import Rollout.Site

/-!
Controllers. A controller owns the live deployments, tracks them on its board, and holds the
deployments that are queued to go live. What it does in a batch is told in the modules below this
one; here are its parts, how one is set up, and what it can be asked.
-/

set_option autoImplicit false
set_option relaxedAutoImplicit false

namespace Rollout

/-- A controller with deployers of bodies `β`, who keep `σ` between calls. -/
structure Controller (β σ : Type) where
  config : Config
  sink : Sink
  chain : Chain
  target : Stage
  site : Site β σ
  board : Board
  queue : List Blueprint

namespace Controller

variable {β σ : Type}

/-- Sets up a controller over a roster. The configuration has to be usable and its default target a
stage of the chain. -/
def build (config : Config) (sink : Sink) (roster : Roster β) (state : σ) :
    Except Error (Controller β σ) :=
  match config.check with
  | .error e => .error e
  | .ok () => match roster.chain.find? config.defaultTarget with
    | none => .error (.unknownStage config.defaultTarget)
    | some target => .ok
      { config, sink, target
        chain := roster.chain
        site := ⟨.empty, ⟨roster, state, #[]⟩⟩
        board := .empty
        queue := [] }

/-- The live units. -/
def forest (c : Controller β σ) : Forest β := c.site.forest

/-- The roster of deployers. -/
def roster (c : Controller β σ) : Roster β := c.site.ambient.roster

/-- Everything that has happened. -/
def journal (c : Controller β σ) : Journal β := c.site.ambient.journal

/-- What the deployers keep between calls. -/
def state (c : Controller β σ) : σ := c.site.ambient.state

/-- Where everything stands. -/
def position (c : Controller β σ) : Position β := ⟨c.forest, c.board⟩

/-- Makes an entry in the journal. -/
def note (c : Controller β σ) (e : Entry β) : Controller β σ := { c with site := c.site.note e }

/-- Whether events go anywhere. -/
def emits (c : Controller β σ) : Bool := c.config.emitEvents

/-- What some entries tell the log at a given time, events that go there included. -/
def lines (c : Controller β σ) (time : String) (entries : List (Entry β)) : List Line :=
  entries.flatMap fun e ↦
    e.line?.toList ++
      if c.emits then (e.event? time).toList.flatMap c.sink.lines else []

/-- The events that the sink keeps of some entries at a given time. -/
def events (c : Controller β σ) (time : String) (entries : List (Entry β)) : List Event :=
  if c.emits then c.sink.kept (entries.filterMap fun e ↦ e.event? time) else []

/-- Enlists a deployer. -/
def enlist (c : Controller β σ) (d : Deployer β) : Except RosterError Unit × Controller β σ :=
  match c.site.ambient.enlist d with
  | .error e => (.error e, c)
  | .ok ambient => (.ok (), { c with site := { c.site with ambient } })

/-- Takes a deployer off the roster and tells whether there was one. -/
def dismiss (c : Controller β σ) (name : String) : Bool × Controller β σ :=
  (decide (name ∈ c.roster.names),
    { c with site := { c.site with ambient := c.site.ambient.dismiss name } })

/-- Replaces what the deployers keep between calls. -/
def withState (c : Controller β σ) (state : σ) : Controller β σ :=
  { c with site := { c.site with ambient := { c.site.ambient with state } } }

/-- The live unit of a name. -/
def unit? (c : Controller β σ) (name : String) : Option (LiveUnit β) := c.forest.byName? name

/-- The progress of the deployment that a live unit belongs to. -/
def progress? (c : Controller β σ) (name : String) : Option Progress :=
  c.board.ofUnit? c.forest name

/-- The stage a unit's deployment has reached. -/
def stage? (c : Controller β σ) (name : String) : Option Stage :=
  (c.progress? name).map Progress.stage

/-- What a unit's deployment shows of itself. -/
def standing? (c : Controller β σ) (name : String) : Option Standing :=
  (c.progress? name).map Progress.standing

/-- The stage a unit's deployment is asked for. -/
def requested? (c : Controller β σ) (name : String) : Option Stage :=
  (c.progress? name).map Progress.requested

/-- What a unit's deployment waits for. -/
def waiting (c : Controller β σ) (name : String) : List Shortfall :=
  ((c.progress? name).map Progress.waiting).getD []

/-- The names of the tracked deployments in order. -/
def names (c : Controller β σ) : List String := c.board.tracked.map Progress.name

/-- The names of the queued deployments in order. -/
def queuedNames (c : Controller β σ) : List String := c.queue.map Blueprint.name

/-- The report on all tracked deployments. -/
def report (c : Controller β σ) : Report := Report.of c.board.tracked

/-- Refuses a report that lists anything. -/
def demandEmpty (r : Report) : Except Error Unit :=
  if r.isEmpty then .ok () else .error (.incomplete r)

/-- Refuses if any tracked deployment is incomplete. -/
def checkAll (c : Controller β σ) : Except Error Unit := demandEmpty c.report

/-- Refuses if any of the deployments on some handles is incomplete. -/
def checkRoots (c : Controller β σ) (roots : List Handle) : Except Error Unit :=
  demandEmpty (Report.of (roots.filterMap c.board.get?))

/-- The handles of the deployments that some units belong to, each once, after those found. -/
def rootsFrom (c : Controller β σ) (found : List Handle) :
    List String → Except Error (List Handle)
  | [] => .ok found
  | name :: names => match c.unit? name with
    | none => .error (.unknownDeployment name)
    | some u => c.rootsFrom (if u.top ∈ found then found else found ++ [u.top]) names

/-- The handles of the deployments that some units belong to, each once. -/
def roots (c : Controller β σ) (names : List String) : Except Error (List Handle) :=
  c.rootsFrom [] names

/-- Refuses if a deployment that one of the named units belongs to is incomplete. -/
def checkNamed (c : Controller β σ) (names : List String) : Except Error Unit :=
  match c.roots names with
  | .error e => .error e
  | .ok roots => c.checkRoots roots

/-- The controller spelled out. -/
def spelled (c : Controller β σ) : String :=
  "DeploymentController \x7b config: " ++ c.config.spelled ++ ", default_target: " ++
    c.target.spelled ++ ", deployments: " ++ Text.quotedList c.names ++ ", pending: " ++
    Text.quotedList c.queuedNames ++ ", .. \x7d"

/-- The way to a controller spelled out. -/
def spelledSetup (config : Config) : String :=
  "ControllerBuilder \x7b config: " ++ config.spelled ++ ", .. \x7d"

end Controller

end Rollout
