import Rollout.Crew

/-!
Steps of whole trees. A tree enters a stage unit by unit in tree order, with the deployers that are
on the roster when the step begins; if one of them fails, all that the step has done is taken back
in reverse, and the tree is where it was. A tree leaves a stage in the reverse order, by the
deployers that were applied then, whoever is on the roster now.
-/

set_option autoImplicit false
set_option relaxedAutoImplicit false

namespace Rollout

/-- The live units and what deployers work in. -/
structure Site (β σ : Type) where
  forest : Forest β
  ambient : Ambient β σ

namespace Site

variable {β σ : Type}

/-- Makes an entry in the journal. -/
def note (s : Site β σ) (e : Entry β) : Site β σ := { s with ambient := s.ambient.note e }

/-- Leaves a stage on the units of some handles, one after another, and counts the deployers that
were called. -/
def leaveEach (crew : Crew β σ) (stage : Stage) : List Handle → Site β σ → Nat × Site β σ
  | [], s => (0, s)
  | h :: hs, s =>
    match s.forest.get? h with
    | none => leaveEach crew stage hs s
    | some u =>
      let w := crew.leaveUnit stage u s.ambient
      let rest := leaveEach crew stage hs ⟨s.forest.put h w.1, w.2⟩
      ((u.appliedAt stage).length + rest.1, rest.2)

/-- Enters a stage on the units of some handles, one after another, and counts the deployers that
are applied to them for it. If a deployer fails, the unit and those done before it, latest first,
leave the stage again. -/
def enterEach (crew : Crew β σ) (stage : Stage) (ds : List (Deployer β)) :
    List Handle → List Handle → Nat → Site β σ → Except Failure Nat × Site β σ
  | [], _, count, s => (.ok count, s)
  | h :: hs, done, count, s =>
    match s.forest.get? h with
    | none => enterEach crew stage ds hs (h :: done) count s
    | some u =>
      let w := crew.enterUnit stage ds u s.ambient
      let s : Site β σ := ⟨s.forest.put h w.unit, w.ambient⟩
      match w.failure with
      | none =>
        enterEach crew stage ds hs (h :: done) (count + (w.unit.appliedAt stage).length) s
      | some cause => (.error ⟨u.name, stage, cause⟩, (leaveEach crew stage (h :: done) s).2)

/-- The tree on a handle enters a stage: how many deployers are applied for it, or why it stays. -/
def enterStage (crew : Crew β σ) (root : Handle) (stage : Stage) (s : Site β σ) :
    Except Failure Nat × Site β σ :=
  enterEach crew stage (s.ambient.roster.atStage stage) (s.forest.tree root) [] 0 s

/-- The tree on a handle leaves a stage: how many deployers are taken back. -/
def leaveStage (crew : Crew β σ) (root : Handle) (stage : Stage) (s : Site β σ) :
    Nat × Site β σ :=
  leaveEach crew stage (s.forest.tree root).reverse s

end Site

end Rollout
