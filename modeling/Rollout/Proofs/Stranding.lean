import Rollout.Proofs.DependencySafety

/-!
Taking out what others need. As long as all needs are declared with the deployments, every firm need
that is in force has its target live and far enough after each batch, whatever has been taken out,
deployed again or sent down in it. A need that asks for no more than the floor, or that applies from
the floor on, is looked at before every move up but before none down, so whoever has one is stranded
when its target is taken out.
-/

set_option autoImplicit false
set_option relaxedAutoImplicit false

namespace Rollout.Controller

variable {β σ : Type} {crew : Crew β σ} {c d : Controller β σ}

/-- Whatever deployers do and whatever clients ask for, as long as all needs are declared with the
deployments: after every batch of every request each firm need that is in force has its target live,
tracked and at least at the stage it asks for. -/
theorem removals_strand_none (reachable : Reachable crew c) (course : Course crew c d)
    (hdeclared : ∀ entry ∈ d.journal, ∀ n ∈ entry.needs, n.declaredAt = none) :
    ∀ p ∈ d.board.tracked, ∀ n ∈ d.forest.treeNeeds p.root, n.Firm d.chain →
      Board.appliesFrom d.chain n ≤ p.stage → d.position.Meets d.chain n := by
  have htimely : Told.Timely d := fun entry hentry n hn s hs ↦ by
    rw [hdeclared entry hentry n hn] at hs
    exact absurd hs (by simp)
  obtain ⟨_, rank, hranked, _⟩ := reachable.ranked_timely course htimely
  have hsound : d.Sound := Steps.sound (course.steps reachable.sound) reachable.sound
  exact fun p hp n hn ↦ hranked.meets hsound hp hn

/-- One of two deployments that others need is to be removed. -/
def leaving : List (Request Unit Unit) :=
  [.deployAll [.mk "net" .none [] [] [], .mk "db" .none [] [] [],
    .mk "app" .none [⟨"db", ⟨"Parse", 1⟩, ⟨"Parse", 1⟩⟩] [] [],
    .mk "gui" .none [⟨"net", ⟨"Parse", 1⟩, ⟨"Parse", 1⟩⟩] [] []], .remove "db"]

/-- What is left once it has been. -/
def bereft : Controller Unit Unit := ((parsing.serveAll idle leaving).process idle).2

theorem removals_strand_none_bereft :
    (∀ entry ∈ bereft.journal, ∀ n ∈ entry.needs, n.declaredAt = none) ∧
      (∀ p ∈ bereft.board.tracked, ∀ n ∈ bereft.forest.treeNeeds p.root, n.Firm bereft.chain →
        Board.appliesFrom bereft.chain n ≤ p.stage → bereft.position.Meets bereft.chain n) ∧
      bereft.board.tracked.map (fun p ↦ (p.name, p.stage.index)) =
        [("net", 1), ("app", 0), ("gui", 1)] := by
  have hreachable : Reachable idle (parsing.serveAll idle leaving) :=
    reachable_parsing idle leaving
  have hcourse : Course idle (parsing.serveAll idle leaving) bereft := .single (.batch _)
  have hdeclared : ∀ entry ∈ bereft.journal, ∀ n ∈ entry.needs, n.declaredAt = none := by
    decide +kernel
  exact ⟨hdeclared, removals_strand_none hreachable hcourse hdeclared, by decide +kernel⟩

/-- A deployment that two others need is to be removed: one of them asks for no more than the floor,
and one has its need from the floor on. -/
def stranding : List (Request Unit Unit) :=
  [.deployAll [.mk "db" .none [] [] [],
    .mk "app" .none [⟨"db", ⟨"Parse", 1⟩, Stage.floor⟩] [] [],
    .mk "gui" .none [⟨"db", Stage.floor, ⟨"Parse", 1⟩⟩] [] []], .remove "db"]

/-- What is left once it has been. -/
def stranded : Controller Unit Unit := ((parsing.serveAll idle stranding).process idle).2

/-- Both are left above the floor with a need in force whose target is gone. -/
theorem removal_strands_both :
    Reachable idle (parsing.serveAll idle stranding) ∧
      (∀ entry ∈ stranded.journal, ∀ n ∈ entry.needs, n.declaredAt = none) ∧
      stranded.board.tracked.map Progress.name = ["app", "gui"] ∧
      ∀ p ∈ stranded.board.tracked, 0 < p.stage.index ∧
        ∃ n ∈ stranded.forest.treeNeeds p.root,
          Board.appliesFrom stranded.chain n ≤ p.stage ∧ stranded.forest.byName? n.target = none :=
  ⟨reachable_parsing idle stranding, by decide +kernel, by decide +kernel, by decide +kernel⟩

end Rollout.Controller
