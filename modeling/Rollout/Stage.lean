import Rollout.Text.Quoted

/-!
Stages. A stage is a waypoint of a rollout: its name and its place in a chain of stages, counted
from the floor, where nothing is installed. Stages are ordered by place; two stages that claim the
same place, which can only come from different chains, are ordered by name.
-/

set_option autoImplicit false
set_option relaxedAutoImplicit false

namespace Rollout

/-- A waypoint: a name, and a place counted from the floor. -/
structure Stage where
  name : String
  index : Nat
deriving DecidableEq, Repr, Inhabited

namespace Stage

/-- The floor of every chain. -/
def floor : Stage := ⟨"NotInstalled", 0⟩

/-- A stage at the place of the floor, whatever its name. -/
def isFloor (s : Stage) : Bool := s.index == 0

instance : LT Stage := ⟨fun a b ↦ a.index < b.index ∨ a.index = b.index ∧ a.name < b.name⟩

instance : LE Stage := ⟨fun a b ↦ ¬ b < a⟩

instance (a b : Stage) : Decidable (a < b) :=
  inferInstanceAs (Decidable (a.index < b.index ∨ a.index = b.index ∧ a.name < b.name))

instance (a b : Stage) : Decidable (a ≤ b) :=
  inferInstanceAs (Decidable (¬ b < a))

instance : Ord Stage :=
  ⟨fun a b ↦ if a < b then .lt else if b < a then .gt else .eq⟩

theorem lt_iff {a b : Stage} :
    a < b ↔ a.index < b.index ∨ a.index = b.index ∧ a.name < b.name := Iff.rfl

theorem not_lt {a b : Stage} : ¬ a < b ↔ b ≤ a := Iff.rfl

theorem lt_of_index_lt {a b : Stage} (h : a.index < b.index) : a < b := Or.inl h

theorem index_le_of_le {a b : Stage} (h : a ≤ b) : a.index ≤ b.index :=
  Nat.le_of_not_lt fun hlt ↦ h (lt_of_index_lt hlt)

instance : ToString Stage := ⟨Stage.name⟩

/-- A stage spelled out. -/
def spelled (s : Stage) : String :=
  "Stage \x7b name: " ++ Text.quoted s.name ++ s!", index: {s.index} \x7d"

end Stage

end Rollout
