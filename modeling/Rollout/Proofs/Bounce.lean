import Rollout.Proofs.DependencySafety
import Rollout.Proofs.Restoring

/-!
Bouncing a controller at rest. The first batch takes down whoever is bounced, and all those that may
not stay where they are without it; the second and the third take them up again. Through all three
nothing gets above where it was, and when the last is over everything is asked for what it was asked
for before, so it is back.
-/

set_option autoImplicit false
set_option relaxedAutoImplicit false

namespace Rollout.Controller

variable {β σ : Type} {crew : Crew β σ} {c d e : Controller β σ} {h : Handle} {p q : Progress}
  {aim other : Progress → Stage} {roots : List Handle} {ps : List Progress}

/-! What a bounce asks for. -/

/-- What deployments are asked for when only some of them are asked for something else. -/
def aimed (roots : List Handle) (aim : Progress → Stage) (p : Progress) : Stage :=
  if p.root ∈ roots then aim p else p.requested

theorem aimed_requested (roots : List Handle) :
    aimed roots Progress.requested = Progress.requested := by
  ext p : 1
  exact ite_self p.requested

theorem index_aimed_le (roots : List Handle)
    (haim : ∀ p, c.board.get? p.root = some p → p.root ∈ roots →
      (aim p).index ≤ p.requested.index) (h : Handle) (p : Progress)
    (hp : c.board.get? h = some p) : (aimed roots aim p).index ≤ p.requested.index := by
  obtain rfl := Board.root_of_get? hp
  unfold aimed
  split
  · next hmem => exact haim p hp hmem
  · exact Nat.le_refl _

theorem Calm.under (calm : Calm c) : Under Progress.requested c c :=
  ⟨.refl _, rfl, rfl, rfl, fun hu ↦ ⟨_, hu, rfl⟩,
    fun {h p} hp ↦ ⟨p, hp, rfl, rfl, calm.error h p hp, Nat.le_refl _, rfl⟩⟩

/-- Some deployments are asked for something else, and all others for what they were asked for at
rest. -/
theorem Under.ask_each (under : Under (aimed roots aim) c d) {board : Board}
    (horder : board.order = d.board.order)
    (hother : ∀ h, h ∉ roots → board.get? h = d.board.get? h)
    (heach : ∀ {p q : Progress}, p.root ∈ roots → c.board.get? p.root = some p →
      d.board.get? p.root = some q → q.error = none → q.removing = p.removing →
      ∃ waiting, board.get? p.root = some { q with requested := other p, waiting }) :
    Under (aimed roots other) c { d with board } := by
  refine under.ask horder fun {h p q} hp hq hbeneath ↦ ?_
  obtain rfl := Board.root_of_get? hp
  have hrequested := hbeneath.requested
  unfold aimed at hrequested ⊢
  by_cases hmem : p.root ∈ roots
  · obtain ⟨waiting, hboard⟩ := heach hmem hp hq hbeneath.error hbeneath.removing
    rw [if_pos hmem]
    exact ⟨_, hboard, hbeneath.name, hbeneath.removing, hbeneath.error, hbeneath.stage, rfl⟩
  · rw [if_neg hmem] at hrequested ⊢
    exact ⟨q, (hother _ hmem).trans hq, hbeneath.name, hbeneath.removing, hbeneath.error,
      hbeneath.stage, hrequested⟩

/-- Whoever is asked for something by a bounce is read off the controller before it. -/
theorem mem_of_mem_map (hps : ∀ p ∈ ps, c.board.get? p.root = some p)
    (hmem : p.root ∈ ps.map Progress.root) (hp : c.board.get? p.root = some p) : p ∈ ps := by
  obtain ⟨q, hq, hroot⟩ := List.mem_map.1 hmem
  have hget := hps q hq
  rw [hroot, hp] at hget
  obtain rfl := Option.some_inj.1 hget
  exact hq

theorem Under.sinking (under : Under (aimed (ps.map Progress.root) aim) c d) (stays : c.Stays)
    (hps : ∀ p ∈ ps, c.board.get? p.root = some p) (hnodup : (ps.map Progress.root).Nodup)
    (target : Stage) :
    Under (aimed (ps.map Progress.root) fun _ ↦ target) c (d.sinking target ps) := by
  have reasks := reasks_sinking hnodup target d
  refine (under.note (.bouncing target (ps.map Progress.root))).ask_each reasks.order
    reasks.other fun {p q} hmem hp hq herror hremoving ↦ ⟨[], ?_⟩
  have hgoing : q.removing = false := hremoving.trans (stays _ p hp)
  have hget := reasks.each p (mem_of_mem_map hps hmem hp)
  change d.board.get? p.root = some q at hq
  rw [hq, Option.map_some] at hget
  rw [asked_of_staying hgoing, hgoing] at hget
  rw [hgoing, herror]
  exact hget

theorem Under.rising (under : Under (aimed (ps.map Progress.root) aim) c d)
    (hps : ∀ p ∈ ps, c.board.get? p.root = some p) (hnodup : (ps.map Progress.root).Nodup) :
    Under (aimed (ps.map Progress.root) Progress.stage) c (d.rising ps) := by
  have reasks := reasks_rising hnodup d
  refine under.ask_each reasks.order reasks.other fun {p q} hmem hp hq _ _ ↦ ⟨q.waiting, ?_⟩
  have hget := reasks.each p (mem_of_mem_map hps hmem hp)
  rw [hq] at hget
  exact hget

theorem Under.returning (under : Under (aimed (ps.map Progress.root) aim) c d) (calm : Calm c)
    (hps : ∀ p ∈ ps, c.board.get? p.root = some p) (hnodup : (ps.map Progress.root).Nodup) :
    Under Progress.requested c (d.returning ps) := by
  rw [← aimed_requested (ps.map Progress.root)]
  have reasks := reasks_returning hnodup d
  refine under.ask_each reasks.order reasks.other fun {p q} hmem hp hq _ _ ↦ ⟨q.waiting, ?_⟩
  have hget := reasks.each p (mem_of_mem_map hps hmem hp)
  rw [hq, Option.map_some] at hget
  rw [reinstated_of_kept (Or.inl (calm.error _ p hp))] at hget
  exact hget

/-! Its batches. -/

/-- A batch without trouble leaves deployments at rest, and none above where it was. -/
theorem Under.process (under : Under aim c d) (calm : Calm c) (stays : c.Stays)
    (hqueue : c.queue = []) (hd : d.Sound)
    (haim : ∀ h p, c.board.get? h = some p → (aim p).index ≤ p.requested.index)
    (hprocess : d.process crew = (.ok (), e))
    (hsmooth : ∀ entry, Told d e entry → entry.Smooth) :
    Under aim c e ∧ ∀ h, e.Rests h := by
  obtain ⟨m, k, tally, rfl, hfalls, hrest, hends⟩ := exists_process_calm hd
    (under.queue.trans hqueue) (under.stays calm.sound hd stays) hprocess
  have hturns := (Batch.turns_of_falls hfalls hd).1.trans hrest
  have hsmooth' : ∀ entry, Told d k entry → entry.Smooth :=
    fun entry htold ↦ hsmooth entry ((continues_note _ _).told htold)
  refine ⟨(Turns.under hturns under calm hd haim hsmooth').note _, ?_⟩
  rcases hends with hspent | hrests
  · obtain ⟨_, htold⟩ := hspent.told hd
    exact absurd (hsmooth' _ htold).1 (by simp [Entry.isTrouble])
  · exact hrests

/-- Bouncing without trouble leaves what is tracked at rest as it is. -/
theorem Bounces.tracked_eq {target : Stage} {d₁ d₂ d₃ : Controller β σ}
    (bounces : Bounces crew target ps c d₁ d₂ d₃) (calm : Calm c) (stays : c.Stays)
    (hqueue : c.queue = []) (tidy : c.Tidy) (waits : c.Waits) {rank : Handle → Nat → Nat}
    (ranked : Ranked c rank) (proper : c.Proper) (hnodup : (ps.map Progress.root).Nodup)
    (hps : ∀ p ∈ ps, c.board.get? p.root = some p ∧ target.index < p.stage.index)
    (hsmooth : ∀ entry, Told c d₃ entry → entry.Smooth) :
    d₃.board.tracked = c.board.tracked := by
  obtain ⟨hrises, hreturns⟩ := bounces.steps calm.sound
  have hsunk := Steps.sound bounces.sinks calm.sound
  have hrisen := Steps.sound hrises calm.sound
  have hreturned := Steps.sound hreturns hrisen
  have hfirst := hsunk.steps_of_process bounces.first
  have hsecond := hrisen.steps_of_process bounces.second
  have hthird := hreturned.steps_of_process bounces.third
  have htold : ∀ {a b : Controller β σ}, Steps crew c a → Steps crew b d₃ → b.Sound →
      ∀ entry, Told a b entry → entry.Smooth := fun ha hb sound entry htold ↦
    hsmooth entry ((Steps.continues hb sound).told
      (htold.continues (Steps.continues ha calm.sound)))
  have hget : ∀ p ∈ ps, c.board.get? p.root = some p := fun p hp ↦ (hps p hp).1
  have hstage : ∀ p, c.board.get? p.root = some p → p.stage.index ≤ p.requested.index :=
    fun p hp ↦ tidy hp (stays _ p hp)
  have hlow : ∀ p, c.board.get? p.root = some p → p.root ∈ ps.map Progress.root →
      target.index ≤ p.requested.index := fun p hp hmem ↦
    Nat.le_trans (Nat.le_of_lt (hps p (mem_of_mem_map hget hmem hp)).2) (hstage p hp)
  have hstart : Under (aimed (ps.map Progress.root) Progress.requested) c c := by
    rw [aimed_requested]
    exact calm.under
  obtain ⟨under₁, _⟩ := (hstart.sinking stays hget hnodup target).process calm stays hqueue hsunk
    (index_aimed_le _ hlow) bounces.first
    (htold bounces.sinks (.head bounces.rises (hreturns.trans hthird)) (Steps.sound hfirst hsunk))
  obtain ⟨under₂, _⟩ := (under₁.rising hget hnodup).process calm stays hqueue hrisen
    (index_aimed_le _ fun p hp _ ↦ hstage p hp) bounces.second
    (htold hrises (.head bounces.returns hthird) (Steps.sound hsecond hrisen))
  have hd₃ := Steps.sound hthird hreturned
  obtain ⟨under₃, hrests⟩ := (under₂.returning calm hget hnodup).process calm stays hqueue hreturned
    (fun _ _ _ ↦ Nat.le_refl _) bounces.third (htold (hrises.trans hreturns) .refl hd₃)
  have hsteps := (hrises.trans hreturns).trans hthird
  exact under₃.tracked_eq calm hd₃ ranked proper tidy stays waits
    (Steps.waits hsteps calm.sound waits) hrests

/-! All bounces. -/

/-- Whatever a client can come to have is calm when nothing is scheduled for removal, its last batch
has not used up its passes, and no deployment is in error. -/
theorem Reachable.calm (reachable : Reachable crew c) (ended : c.Ended) (stays : c.Stays)
    (brought : Brought c) (herror : ∀ h p, c.board.get? h = some p → p.error = none)
    (hneeds : ∀ entry ∈ c.journal, ∀ n ∈ entry.needs, n.declaredAt = none) : Calm c := by
  exact ⟨reachable.sound, reachable.rests ended stays, herror,
    brought.lasting reachable.sound hneeds⟩

/-- Bouncing is the identity on a controller without errors: when nothing is queued or scheduled for
removal, the last batch has not used up its passes, and all needs are declared with deployments and
ask for stages above the floor, whatever is tracked is after a bounce as it was before, unless a
deployer fails or a batch uses up its passes on the way. -/
theorem bounce_restores (reachable : Reachable crew c) (ended : c.Ended) (hqueue : c.queue = [])
    (stays : ∀ p ∈ c.board.tracked, p.removing = false)
    (herror : ∀ p ∈ c.board.tracked, p.error = none) (stage : Stage) (strict : Bool)
    (names : List String)
    (proper : ∀ entry ∈ (c.bounce crew stage strict names).2.journal, ∀ n ∈ entry.needs,
      n.declaredAt = none ∧ n.Proper c.chain)
    (smooth : ∀ entry ∈ (c.bounce crew stage strict names).2.journal.toList.drop c.journal.size,
      entry.isTrouble = false) :
    (c.bounce crew stage strict names).2.board.tracked = c.board.tracked := by
  obtain ⟨sound, waits, tidy, _⟩ := reachable.invariant
  have hstays : c.Stays := fun h p hp ↦ stays p ((mem_tracked_iff sound).2 (by
    rwa [Board.root_of_get? hp]))
  have hfree : ∀ h p, c.board.get? h = some p → p.error = none := fun h p hp ↦
    herror p ((mem_tracked_iff sound).2 (by rwa [Board.root_of_get? hp]))
  cases haims : c.aims stage names with
  | error error =>
    unfold bounce
    rw [haims]
  | ok aims =>
    obtain ⟨target, roots⟩ := aims
    obtain ⟨htarget, hroots⟩ := of_aims haims
    obtain ⟨d₁, d₂, d₃, hbounces, heq⟩ := exists_bounce crew sound waits tidy strict haims
    rw [heq] at proper smooth ⊢
    obtain ⟨hrises, hreturns⟩ := hbounces.steps sound
    have hsteps := (hrises.trans hreturns).trans
      ((Steps.sound (hrises.trans hreturns) sound).steps_of_process hbounces.third)
    have hcontinues := Steps.continues hsteps sound
    have hproper : Told.Proper c := fun entry hentry n hn ↦
      (proper entry (hcontinues.mem hentry) n hn).2
    obtain ⟨hbrought, rank, hranked, _⟩ := reachable.ranked hproper
    have hcalm := reachable.calm ended hstays hbrought hfree fun entry hentry n hn ↦
      (proper entry (hcontinues.mem hentry) n hn).1
    refine hbounces.tracked_eq hcalm hstays hqueue tidy waits hranked (hbrought.proper hproper)
      (nodup_bounced hroots) (fun p hp ↦ ?_) fun entry htold ↦ ?_
    · obtain ⟨hget, _, hlt⟩ := sound.of_mem_bounced htarget hp
      exact ⟨hget, hlt⟩
    · exact ⟨smooth entry htold.mem_drop, fun n hn ↦ (proper entry htold.mem n hn).1⟩

/-- A run after which one deployment hangs on another, and a third waits for what is not live. -/
def stacked : List (Request Unit Unit) :=
  [.deployAll [.mk "db" .none [] [] [],
    .mk "app" .none [⟨"db", ⟨"Parse", 1⟩, ⟨"Parse", 1⟩⟩] [] [],
    .mk "gui" .none [⟨"net", ⟨"Parse", 1⟩, ⟨"Parse", 1⟩⟩] [] []]]

theorem bounce_restores_stacked :
    ((parsing.serveAll idle stacked).bounce idle Stage.floor true ["db"]).2.board.tracked =
        (parsing.serveAll idle stacked).board.tracked ∧
      (parsing.serveAll idle stacked).board.tracked.map
          (fun p ↦ (p.name, p.stage.index, p.waiting.length)) =
        [("db", 1, 0), ("app", 1, 0), ("gui", 0, 1)] :=
  have hended : (parsing.serveAll idle stacked).Ended := by
    unfold Ended
    decide +kernel
  have hqueue : (parsing.serveAll idle stacked).queue = [] := by decide +kernel
  have hstays : ∀ p ∈ (parsing.serveAll idle stacked).board.tracked, p.removing = false := by
    decide +kernel
  have herror : ∀ p ∈ (parsing.serveAll idle stacked).board.tracked, p.error = none := by
    decide +kernel
  have hproper : ∀ entry ∈
      ((parsing.serveAll idle stacked).bounce idle Stage.floor true ["db"]).2.journal,
      ∀ n ∈ entry.needs, n.declaredAt = none ∧ n.Proper (parsing.serveAll idle stacked).chain := by
    decide +kernel
  have hsmooth : ∀ entry ∈
      ((parsing.serveAll idle stacked).bounce idle Stage.floor true ["db"]).2.journal.toList.drop
        (parsing.serveAll idle stacked).journal.size, entry.isTrouble = false := by
    decide +kernel
  ⟨bounce_restores (reachable_parsing idle stacked) hended hqueue hstays herror Stage.floor true
    ["db"] hproper hsmooth, by decide +kernel⟩

end Rollout.Controller
