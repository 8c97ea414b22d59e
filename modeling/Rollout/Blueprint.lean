import Rollout.Attachments
import Rollout.Need

/-!
Blueprints. A blueprint describes a deployment before it goes live: a named unit with attachments
and demands, made of components and having children, which are described the same way. A tree is
always read in one order: the unit, then its components, then its children.
-/

set_option autoImplicit false
set_option relaxedAutoImplicit false

namespace Rollout

/-- The description of a unit and of all units below it. -/
inductive Blueprint where
  | mk (name : String) (attachments : Attachments) (demands : List Demand)
    (components children : List Blueprint)

namespace Blueprint

/-- The name of the unit on top. -/
def name : Blueprint → String
  | mk name _ _ _ _ => name

/-- What is attached to the unit on top. -/
def attachments : Blueprint → Attachments
  | mk _ attachments _ _ _ => attachments

/-- The demands of the unit on top. -/
def demands : Blueprint → List Demand
  | mk _ _ demands _ _ => demands

/-- The components of the unit on top. -/
def components : Blueprint → List Blueprint
  | mk _ _ _ components _ => components

/-- The children of the unit on top. -/
def children : Blueprint → List Blueprint
  | mk _ _ _ _ children => children

mutual

/-- The names of all units in tree order. -/
def names : Blueprint → List String
  | mk name _ _ components children => name :: (namesOfAll components ++ namesOfAll children)

/-- The names of all units of several trees. -/
def namesOfAll : List Blueprint → List String
  | [] => []
  | b :: bs => b.names ++ namesOfAll bs

end

mutual

/-- The needs of all units in tree order, repetitions included. -/
def needs : Blueprint → List Need
  | mk name _ demands components children =>
    demands.map (Need.of name · none) ++ (needsOfAll components ++ needsOfAll children)

/-- The needs of all units of several trees. -/
def needsOfAll : List Blueprint → List Need
  | [] => []
  | b :: bs => b.needs ++ needsOfAll bs

end

instance : Inhabited Blueprint := ⟨mk "" .none [] [] []⟩

theorem name_mem_names (b : Blueprint) : b.name ∈ b.names := by
  cases b; simp [name, names]

theorem namesOfAll_eq (bs : List Blueprint) : namesOfAll bs = bs.flatMap names := by
  induction bs with
  | nil => rfl
  | cons b bs ih => simp [namesOfAll, ih]

theorem needsOfAll_eq (bs : List Blueprint) : needsOfAll bs = bs.flatMap needs := by
  induction bs with
  | nil => rfl
  | cons b bs ih => simp [needsOfAll, ih]

end Blueprint

end Rollout
