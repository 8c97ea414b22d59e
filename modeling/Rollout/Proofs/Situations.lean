import Rollout.Proofs.Restoring

/-!
The situations in which a batch leaves deployments. When its passes have not been used up, each
tracked deployment is in error, or has arrived where it is asked for, or is parked below; the first
two wait for nothing, and the list of the third is that of the needs which stand in its way as
things are at the end, in the order of its tree.
-/

set_option autoImplicit false
set_option relaxedAutoImplicit false

namespace Rollout

/-- How a deployment is left by a batch. -/
inductive Situation
  | failed
  | arrived
  | parked
deriving DecidableEq, Repr

namespace Controller

variable {β σ : Type} {crew : Crew β σ} {c d : Controller β σ} {h : Handle} {p : Progress}

/-- Whether a need is met as things stand: a deployment that is free of error has the unit it names,
and has reached the stage it asks for. -/
def meets (c : Controller β σ) (n : Need) : Bool :=
  (c.progress? n.target).any fun t ↦
    t.error.isNone && (c.chain.resolve? n.atLeast).any fun s ↦ decide (s ≤ t.stage)

/-- A need with what is found for it: where its target is, and whether that is in error. -/
def account (c : Controller β σ) (n : Need) : Shortfall :=
  .of n ((c.progress? n.target).map Progress.stage)
    ((c.progress? n.target).any fun t ↦ t.error.isSome)

/-- The needs of a deployment that stand in the way of a stage, in tree order. -/
def unmet (c : Controller β σ) (root : Handle) (next : Stage) : List Need :=
  (c.needs root).filter fun n ↦
    decide (Board.appliesFrom c.chain n ≤ next) && !c.meets n

theorem shortfall?_eq (c : Controller β σ) (n : Need) :
    c.board.shortfall? c.chain c.forest n = if c.meets n then none else some (c.account n) := by
  unfold meets account progress? Board.shortfall?
  cases c.board.ofUnit? c.forest n.target with
  | none => rfl
  | some t =>
    cases herror : t.error with
    | some failure => simp [herror]
    | none =>
      cases c.chain.resolve? n.atLeast with
      | none => simp [herror]
      | some s => by_cases hle : s ≤ t.stage <;> simp [herror, hle]

/-- What is missing for a stage is the account of the needs that stand in its way. -/
theorem missing_eq (c : Controller β σ) (root : Handle) (next : Stage) :
    c.board.missing c.chain c.forest root next = (c.unmet root next).map c.account := by
  show ((c.needs root).filter fun n ↦ decide (Board.appliesFrom c.chain n ≤ next)).filterMap
    (c.board.shortfall? c.chain c.forest) = _
  unfold unmet
  rw [funext c.shortfall?_eq, ← List.filterMap_eq_map, List.filterMap_filter,
    List.filterMap_filter]
  refine List.filterMap_congr fun n _ ↦ ?_
  cases c.meets n <;> simp

end Controller

namespace Situation

variable {β σ : Type}

/-- What it means for a deployment to be in a situation. One that is parked waits for all needs that
stand in the way of the next stage. -/
def Holds (c : Controller β σ) (p : Progress) : Situation → Prop
  | failed => p.error ≠ none ∧ p.waiting = []
  | arrived => p.error = none ∧ p.stage = p.requested ∧ p.waiting = []
  | parked => p.error = none ∧ p.stage < p.requested ∧ p.waiting ≠ [] ∧
      ∃ next, c.chain.next? p.stage = some next ∧
        p.waiting = (c.unmet p.root next).map c.account

/-- No deployment is in two situations. -/
theorem Holds.eq {c : Controller β σ} {p : Progress} {s t : Situation} (hs : s.Holds c p)
    (ht : t.Holds c p) : s = t := by
  cases s <;> cases t
  case failed.failed | arrived.arrived | parked.parked => rfl
  case failed.arrived | failed.parked => exact absurd ht.1 hs.1
  case arrived.failed | parked.failed => exact absurd hs.1 ht.1
  case arrived.parked => exact absurd hs.2.2 ht.2.2.1
  case parked.arrived => exact absurd ht.2.2 hs.2.2.1

end Situation

namespace Controller

variable {β σ : Type} {crew : Crew β σ} {c d : Controller β σ} {h : Handle} {p : Progress}

/-- A deployment at rest that is not above the stage it is asked for is in one of the situations. -/
theorem Sound.exists_situation (sound : c.Sound) (waits : c.Waits)
    (hp : c.board.get? p.root = some p) (low : c.Low p.root) (rests : c.Rests p.root) :
    ∃ s : Situation, s.Holds c p := by
  by_cases herror : p.error = none
  · rcases Nat.lt_or_eq_of_le (low p hp) with hlt | heq
    · refine ⟨.parked, herror, Stage.lt_of_index_lt hlt, ?_⟩
      obtain ⟨next, hnext, hmissing, hne⟩ := exists_missing sound hp rests herror hlt
      exact ⟨hne, next, hnext, hmissing.symm.trans (c.missing_eq p.root next)⟩
    · refine ⟨.arrived, herror, ?_, ?_⟩
      · exact Chain.eq_of_index_eq (sound.stage hp) (sound.requested hp) heq
      · by_contra hwaiting
        exact absurd (waits hp hwaiting).2 (Nat.not_lt.2 (Nat.le_of_eq heq.symm))
  · refine ⟨.failed, herror, ?_⟩
    by_contra hwaiting
    exact herror (waits hp hwaiting).1

/-- A batch that has not used up its passes leaves each tracked deployment in exactly one of the
situations, and none that could take a step up. -/
theorem process_settles (reachable : Reachable crew c)
    (unspent : ∀ entry ∈ (c.process crew).2.journal.toList.drop c.journal.size,
      entry.isPassLimit = false) :
    (c.process crew).1 = .ok () ∧ ∀ p ∈ (c.process crew).2.board.tracked,
      (∃! s : Situation, s.Holds (c.process crew).2 p) ∧
        ∀ next, (c.process crew).2.verdict p.root ≠ .ready next := by
  obtain ⟨sound, waits, _⟩ := reachable.invariant
  have hsteps := sound.steps_process crew
  have hsound := Steps.sound hsteps sound
  have hrests := sound.rests_of_told crew fun entry htold ↦ unspent entry htold.mem_drop
  refine ⟨by rw [sound.process_ok crew], fun p hp ↦ ⟨?_, (hrests p.root).still⟩⟩
  have hget := (mem_tracked_iff hsound).1 hp
  obtain ⟨s, hs⟩ := hsound.exists_situation (Steps.waits hsteps sound waits) hget
    ((sound.finished_process crew).low p.root) (hrests p.root)
  exact ⟨s, hs, fun _ ht ↦ ht.eq hs⟩

/-- A run on which three deployments are queued: one that is going to fail at the second stage, one
that needs it before that stage, and one that needs nothing. -/
def mixed : List (Request Unit Unit) :=
  [.enlist ⟨{ name := "db", stage := ⟨"PostParse", 2⟩ }, ()⟩, .add (.mk "db" .none [] [] []),
    .add (.mk "app" .none [⟨"db", ⟨"PostParse", 2⟩, ⟨"Parse", 1⟩⟩] [] []),
    .add (.mk "gui" .none [] [] [])]

theorem process_settles_mixed :
    ((postParsing.serveAll touchy mixed).process touchy).2.board.tracked.map
          (fun p ↦ (p.name, p.stage.index, p.error.isSome, p.waiting.map Shortfall.text)) =
        [("db", 1, true, []),
          ("app", 1, false, ["db \x7bRequired: Parse, Actual: ** ERROR **\x7d"]),
          ("gui", 2, false, [])] ∧
      ∀ p ∈ ((postParsing.serveAll touchy mixed).process touchy).2.board.tracked,
        ∃! s : Situation, s.Holds ((postParsing.serveAll touchy mixed).process touchy).2 p :=
  have hunspent : ∀ entry ∈
      ((postParsing.serveAll touchy mixed).process touchy).2.journal.toList.drop
        (postParsing.serveAll touchy mixed).journal.size, entry.isPassLimit = false := by
    decide +kernel
  have hsettles := process_settles (reachable_postParsing touchy mixed) hunspent
  ⟨by decide +kernel, fun p hp ↦ (hsettles.2 p hp).1⟩

end Controller

end Rollout
