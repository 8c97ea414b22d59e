import Rollout.Proofs.Quiescence
import Rollout.Proofs.Scoping

/-!
Idling. Where everything is at rest, nothing is queued and nothing is to be removed, a batch has
nothing to do: its passes take nothing down, take nothing up and write nothing down, and then it
ends. Asking deployments for the stage at which they are anyway changes nothing of this, since what
the others need of them is where they stand and not what they are asked for.
-/

set_option autoImplicit false
set_option relaxedAutoImplicit false

namespace Rollout

variable {β σ : Type} {crew : Crew β σ}

namespace Batch

open Controller

/-- A deployment that is at rest takes no step, and nothing is written down about it. -/
theorem advance_eq_self (crew : Crew β σ) {root : Handle} {b : Batch β σ}
    (rests : b.controller.Rests root) : advance crew root b = (b, none) := by
  rw [advance_eq]
  cases hp : b.controller.board.get? root with
  | none => rfl
  | some p =>
    rcases rests p hp with hidle | hblocked
    · rw [hidle]
    · rw [hblocked]
      simp only [park, hp, if_true]

/-- The passes of a batch that finds everything at rest are over with the first one. -/
theorem passes_eq_self (crew : Crew β σ) (left : Nat) {b : Batch β σ}
    (sound : b.controller.Sound) (low : ∀ h, b.controller.Low h)
    (rests : ∀ h, b.controller.Rests h) :
    passes crew (left + 1) b = (b.counted.mark false, none) := by
  have hretreat : retreatPass crew b.counted = (b.counted.mark false, none) :=
    retreatPass_eq crew sound low
  have hadvance : advancePass crew (b.counted.mark false) = (b.counted.mark false, none) :=
    forEach_eq_self fun root _ ↦ advance_eq_self crew (b := b.counted.mark false) (rests root)
  unfold counted at hretreat
  unfold passes
  simp only [hretreat, andThen_none]
  rw [if_neg (by simp [mark])]
  unfold counted at hadvance
  rw [hadvance, andThen_none, if_neg (by simp [mark])]
  rfl

end Batch

namespace Report

/-- The report on deployments that are complete lists nothing. -/
theorem of_eq_empty {ps : List Progress}
    (complete : ∀ p ∈ ps, p.error = none ∧ p.stage = p.requested) : Report.of ps = empty := by
  unfold Report.of
  induction ps with
  | nil => rfl
  | cons p ps ih =>
    obtain ⟨herror, hstage⟩ := complete p List.mem_cons_self
    have hrecord : record empty p = empty := by
      unfold record
      rw [herror]
      simp only
      rw [if_pos hstage]
    rw [List.foldl_cons, hrecord, ih fun q hq ↦ complete q (List.mem_cons_of_mem _ hq)]

end Report

namespace Controller

open Batch

variable {c d e : Controller β σ} {h : Handle} {p : Progress} {stage target : Stage}
  {names : List String} {roots : List Handle}

/-- A controller that a batch finds nothing to do for. -/
structure AtRest (c : Controller β σ) : Prop where
  sound : c.Sound
  low : ∀ h, c.Low h
  rests : ∀ h, c.Rests h
  queue : c.queue = []
  stays : c.Stays

/-- One controller is the other but for what has been noted since, and none of this tells of
deployers at work. -/
def NotesOnly (c d : Controller β σ) : Prop :=
  ∃ es : List (Entry β), d = es.foldl note c ∧ ∀ e ∈ es, e.ofCrew = false

theorem NotesOnly.refl (c : Controller β σ) : NotesOnly c c := ⟨[], rfl, by simp⟩

theorem NotesOnly.trans (first : NotesOnly c d) (second : NotesOnly d e) : NotesOnly c e := by
  obtain ⟨es, rfl, hes⟩ := first
  obtain ⟨fs, rfl, hfs⟩ := second
  refine ⟨es ++ fs, by rw [List.foldl_append], fun entry hentry ↦ ?_⟩
  rcases List.mem_append.1 hentry with hentry | hentry
  · exact hes entry hentry
  · exact hfs entry hentry

theorem notesOnly_note (c : Controller β σ) (entry : Entry β) (hcrew : entry.ofCrew = false) :
    NotesOnly c (c.note entry) := ⟨[entry], rfl, by simpa using hcrew⟩

theorem NotesOnly.board_eq (notes : NotesOnly c d) : d.board = c.board := by
  obtain ⟨es, rfl, -⟩ := notes
  induction es generalizing c with
  | nil => rfl
  | cons entry es ih => exact ih

theorem AtRest.of_notes (rest : AtRest c) (notes : NotesOnly c d) : AtRest d := by
  obtain ⟨es, rfl, -⟩ := notes
  induction es generalizing c with
  | nil => exact rest
  | cons entry es ih =>
    exact ih ⟨rest.sound.note entry, rest.low, rest.rests, rest.queue, rest.stays⟩

theorem AtRest.materialize_eq (rest : AtRest c) : c.materialize = (c, none) := by
  have hsame : { c with queue := [] } = c := by rw [← rest.queue]
  unfold materialize
  rw [rest.queue, hsame]
  rfl

/-- The passes of a batch note at most that there are none left. -/
theorem AtRest.run_notes {b : Batch β σ} (rest : AtRest b.controller) (crew : Crew β σ) :
    ∃ b', run crew b = (b', none) ∧ NotesOnly b.controller b'.controller := by
  unfold run
  cases b.controller.config.maxPasses - b.tally.passes with
  | zero => exact ⟨_, rfl, notesOnly_note _ _ rfl⟩
  | succ left =>
    exact ⟨_, passes_eq_self crew left rest.sound rest.low rest.rests, .refl _⟩

/-- A batch that has nothing to do has no effect but for what it notes. -/
theorem AtRest.process_notes (rest : AtRest c) (crew : Crew β σ) :
    (c.process crew).1 = .ok () ∧ NotesOnly c (c.process crew).2 := by
  obtain ⟨b, hfirst, hnotes⟩ := AtRest.run_notes (b := start c) rest crew
  have hrest := rest.of_notes hnotes
  obtain ⟨b', hsecond, hnotes'⟩ := AtRest.run_notes (b := b) hrest crew
  unfold process
  rw [hfirst]
  simp only [hrest.sound.sweep_eq_self hrest.stays, hrest.materialize_eq, hsecond]
  exact ⟨trivial, (NotesOnly.trans hnotes hnotes').trans (notesOnly_note _ _ rfl)⟩

/-! Asking for what is the case. -/

/-- The deployments that are asked for a stage are there already, without an error. -/
def AtGoal (c : Controller β σ) (target : Stage) (roots : List Handle) : Prop :=
  ∀ h ∈ roots, ∀ p, c.board.get? h = some p → p.error = none ∧ p.stage = target

/-- Deployments that are asked for the stage where they are come to be asked for just that, and wait
for nothing. -/
theorem AtRest.get?_changing (rest : AtRest c) (hnodup : roots.Nodup)
    (arrived : AtGoal c target roots) (h : Handle) :
    h ∉ roots ∧ (c.changing target roots).board.get? h = c.board.get? h ∨
      h ∈ roots ∧ (c.changing target roots).board.get? h =
        (c.board.get? h).map fun p ↦ { p with requested := p.stage, waiting := [] } := by
  have hget : (c.changing target roots).board.get? h = _ :=
    get?_requestEach (c := c.note (.changing target roots)) hnodup
  rw [hget]
  split
  · next hh =>
    refine Or.inr ⟨hh, ?_⟩
    change (c.board.get? h).map (asked target) = _
    cases hp : c.board.get? h with
    | none => rfl
    | some p =>
      obtain ⟨herror, hstage⟩ := arrived h hh p hp
      rw [Option.map_some, Option.map_some, asked_of_staying (rest.stays h p hp), ← hstage,
        ← herror]
  · next hh => exact Or.inl ⟨hh, rfl⟩

/-- Asking deployments for the stage where they are leaves everything at rest: they themselves have
arrived, and to the others they show what they showed before. -/
theorem AtRest.changing (rest : AtRest c) (hsound : (c.changing target roots).Sound)
    (hnodup : roots.Nodup) (arrived : AtGoal c target roots) :
    AtRest (c.changing target roots) := by
  have hget := rest.get?_changing hnodup arrived
  have hsame : SameStandings c (c.changing target roots) := by
    refine ⟨rfl, fun _ ↦ rfl, fun _ ↦ rfl, fun h ↦ ?_⟩
    rcases hget h with ⟨_, heq⟩ | ⟨_, heq⟩
    · rw [heq]
    · rw [heq, Option.map_map]
      rfl
  refine ⟨hsound, fun h q hq ↦ ?_, fun h q hq ↦ ?_, rest.queue, fun h q hq ↦ ?_⟩
  · rcases hget h with ⟨_, heq⟩ | ⟨_, heq⟩
    · exact rest.low h q (heq ▸ hq)
    · obtain ⟨p, _, rfl⟩ := Option.map_eq_some_iff.1 (heq ▸ hq)
      exact Nat.le_refl _
  · rcases hget h with ⟨_, heq⟩ | ⟨_, heq⟩
    · have hverdict : (c.changing target roots).verdict h = c.verdict h := by
        unfold verdict Board.verdict
        rw [heq, funext (hsame.missing h)]
        rfl
      rw [hverdict]
      exact rest.rests h q (heq ▸ hq)
    · obtain ⟨p, _, rfl⟩ := Option.map_eq_some_iff.1 (heq ▸ hq)
      have hle : p.stage ≤ p.stage :=
        (Chain.le_iff_index (hsound.stage hq) (hsound.stage hq)).2 (Nat.le_refl _)
      refine Or.inl ?_
      unfold verdict Board.verdict
      rw [hq]
      simp only
      rw [if_pos (by simp [hle])]
  · rcases hget h with ⟨_, heq⟩ | ⟨_, heq⟩
    · exact rest.stays h q (heq ▸ hq)
    · obtain ⟨p, hp, rfl⟩ := Option.map_eq_some_iff.1 (heq ▸ hq)
      exact rest.stays h p hp

/-- Deployments that are named and are all at a stage without an error are where a change to this
stage asks them to be. -/
theorem atGoal_of_aims (haims : c.aims stage names = .ok (target, roots))
    (settled : ∀ name ∈ names, ∀ p, c.progress? name = some p →
      p.error = none ∧ c.chain.resolve? stage = some p.stage) : AtGoal c target roots := by
  intro h hh p hp
  obtain ⟨name, hname, hhome⟩ := (mem_aims_iff haims).1 hh
  have hprogress : c.progress? name = some p := by
    unfold progress?
    rw [ofUnit?_eq, hhome, Option.bind_some, hp]
  obtain ⟨herror, hstage⟩ := settled name hname p hprogress
  exact ⟨herror, Option.some_inj.1 (hstage.symm.trans (aims_eq_ok_iff.1 haims).1)⟩

/-- There is nothing to report on deployments that are where they are asked to be. -/
theorem AtRest.checkRoots_changing (rest : AtRest c) (hnodup : roots.Nodup)
    (arrived : AtGoal c target roots) (notes : NotesOnly (c.changing target roots) d) :
    d.checkRoots roots = .ok () := by
  have hempty : Report.of (roots.filterMap d.board.get?) = Report.empty := by
    refine Report.of_eq_empty fun q hq ↦ ?_
    obtain ⟨h, hh, hq⟩ := List.mem_filterMap.1 hq
    rw [notes.board_eq] at hq
    rcases rest.get?_changing hnodup arrived h with ⟨hout, _⟩ | ⟨_, heq⟩
    · exact absurd hh hout
    · obtain ⟨p, hp, rfl⟩ := Option.map_eq_some_iff.1 (heq ▸ hq)
      exact ⟨(arrived h hh p hp).1, rfl⟩
  unfold checkRoots
  rw [hempty]
  rfl

/-- A change of deployments to where they are succeeds, and comes to asking them for it. -/
theorem AtRest.change_notes (rest : AtRest c) (crew : Crew β σ) (strict : Bool)
    (haims : c.aims stage names = .ok (target, roots)) (arrived : AtGoal c target roots) :
    (c.change crew stage strict names).1 = .ok () ∧
      NotesOnly (c.changing target roots) (c.change crew stage strict names).2 := by
  have hnodup := (of_aims haims).2
  have hsound := Steps.sound (rest.sound.steps_changing crew haims) rest.sound
  obtain ⟨_, hnotes⟩ := (rest.changing hsound hnodup arrived).process_notes crew
  rw [rest.sound.change_eq crew haims strict, rest.checkRoots_changing hnodup arrived hnotes]
  cases strict <;> exact ⟨rfl, hnotes⟩

/-- What can be reached is at rest when the last batch has not used up its passes, nothing is queued
and nothing is to be removed. -/
theorem Reachable.atRest (reachable : Reachable crew c) (ended : c.Ended) (hqueue : c.queue = [])
    (stays : c.Stays) : AtRest c := by
  obtain ⟨sound, _, tidy, _⟩ := reachable.invariant
  exact ⟨sound, fun h p hp ↦ tidy hp (stays h p hp), reachable.rests ended stays, hqueue, stays⟩

/-- Where nothing can move, nothing does. When the last batch has not used up its passes and nothing
is queued or to be removed, another batch has no effect but for what it notes, and it calls nobody.
The same goes for a change of deployments to the stage at which they are without an error: it is
refused only for a stage or a name that is not there, it calls nobody, and of the board it changes
only what these deployments are asked for and wait for. -/
theorem batches_idempotent (reachable : Reachable crew c) (ended : c.Ended) (hqueue : c.queue = [])
    (stays : ∀ p ∈ c.board.tracked, p.removing = false) :
    ((c.process crew).1 = .ok () ∧ NotesOnly c (c.process crew).2) ∧
      ∀ (stage : Stage) (strict : Bool) (names : List String),
        (∀ name ∈ names, ∀ p, c.progress? name = some p →
          p.error = none ∧ c.chain.resolve? stage = some p.stage) →
        (c.change crew stage strict names).1 = (c.aims stage names).map (fun _ ↦ ()) ∧
          ∃ board : Board, NotesOnly { c with board } (c.change crew stage strict names).2 ∧
            board.order = c.board.order ∧
            ∀ h, board.get? h = c.board.get? h ∨
              (∃ name ∈ names, c.home? name = some h) ∧ board.get? h =
                (c.board.get? h).map fun p ↦ { p with requested := p.stage, waiting := [] } := by
  have sound := reachable.sound
  have rest : AtRest c := reachable.atRest ended hqueue fun h p hp ↦
    stays p ((mem_tracked_iff sound).2 (by rwa [Board.root_of_get? hp]))
  refine ⟨rest.process_notes crew, fun stage strict names settled ↦ ?_⟩
  cases haims : c.aims stage names with
  | error error =>
    unfold change
    rw [haims]
    exact ⟨rfl, c.board, .refl c, rfl, fun h ↦ Or.inl rfl⟩
  | ok aim =>
    obtain ⟨target, roots⟩ := aim
    have arrived := atGoal_of_aims haims settled
    obtain ⟨hok, hnotes⟩ := rest.change_notes crew strict haims arrived
    refine ⟨hok, (c.changing target roots).board, ?_, ?_, fun h ↦ ?_⟩
    · exact NotesOnly.trans (notesOnly_note _ (.changing target roots) rfl) hnotes
    · exact order_foldl (fun b root ↦ b.request root target) (fun _ _ ↦ rfl) roots c.board
    · rcases rest.get?_changing (of_aims haims).2 arrived h with ⟨_, heq⟩ | ⟨hh, heq⟩
      · exact Or.inl heq
      · exact Or.inr ⟨(mem_aims_iff haims).1 hh, heq⟩

/-- A run after which one deployment is at its stage, and another one waits on the floor for what is
not live. -/
def lingering : List (Request Unit Unit) :=
  [.enlist ⟨{ name := "loader", stage := ⟨"Parse", 1⟩ }, ()⟩,
    .deployAll [.mk "db" .none [] [] [],
      .mk "gui" .none [⟨"net", ⟨"Parse", 1⟩, ⟨"Parse", 1⟩⟩] [] []]]

theorem batches_idempotent_lingering :
    NotesOnly (parsing.serveAll idle lingering) ((parsing.serveAll idle lingering).process idle).2 ∧
      ((parsing.serveAll idle lingering).change idle Stage.floor true ["gui"]).1 = .ok () ∧
      ((parsing.serveAll idle lingering).change idle Stage.floor true ["gui"]).2.board.order =
        (parsing.serveAll idle lingering).board.order ∧
      (parsing.serveAll idle lingering).board.tracked.map
          (fun p ↦ (p.name, p.stage.index, p.requested.index, p.waiting.length)) =
        [("db", 1, 1, 0), ("gui", 0, 1, 1)] := by
  have hended : (parsing.serveAll idle lingering).Ended := by
    unfold Ended
    decide +kernel
  have hqueue : (parsing.serveAll idle lingering).queue = [] := by decide +kernel
  have hstays : ∀ p ∈ (parsing.serveAll idle lingering).board.tracked, p.removing = false := by
    decide +kernel
  obtain ⟨⟨_, hnotes⟩, hchange⟩ := batches_idempotent (reachable_parsing idle lingering) hended
    hqueue hstays
  have hsettled : ∀ name ∈ ["gui"], ∀ p,
      (parsing.serveAll idle lingering).progress? name = some p → p.error = none ∧
        (parsing.serveAll idle lingering).chain.resolve? Stage.floor = some p.stage := by
    decide +kernel
  obtain ⟨hok, _, hnotes', horder, _⟩ := hchange Stage.floor true ["gui"] hsettled
  refine ⟨hnotes, hok.trans ?_, ?_, by decide +kernel⟩
  · rfl
  · rw [hnotes'.board_eq]
    exact horder

end Controller

end Rollout
