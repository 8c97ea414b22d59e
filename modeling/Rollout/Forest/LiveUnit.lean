import Rollout.Blueprint
import Rollout.Deployer

/-!
Live units. A live unit knows its place in its tree by handles, carries its attachments and needs,
and keeps a record of every deployer that has been applied to it and not yet taken back, with the
stage it was applied for.
-/

set_option autoImplicit false
set_option relaxedAutoImplicit false

namespace Rollout

/-- The number of a slot in which a unit lives. -/
abbrev Handle := Nat

namespace Handle

/-- A handle in words. -/
def text (h : Handle) : String := "#" ++ toString h

end Handle

/-- The part a unit plays in its tree. -/
inductive Kind
  | topLevel
  | child
  | component
deriving DecidableEq, Repr

namespace Kind

/-- The kind in words. -/
def text : Kind → String
  | topLevel => "top_level"
  | child => "child"
  | component => "component"

/-- The kind that a text names. -/
def ofText? (s : String) : Option Kind :=
  [topLevel, child, component].find? fun k ↦ k.text == s

end Kind

/-- A deployer that has been applied to a unit, and the stage it was applied for. -/
structure Application (β : Type) where
  stage : Stage
  deployer : Deployer β

/-- The place of a unit: its slot, its name, the part it plays, and its links to other slots. It
does not change while the unit lives. -/
structure Node where
  id : Handle
  name : String
  kind : Kind
  parent : Option Handle
  top : Handle
  children : List Handle
  components : List Handle
deriving DecidableEq, Repr

/-- A unit in its slot: its place, and what is done to it. -/
structure LiveUnit (β : Type) extends Node where
  attachments : Attachments
  needs : List Need
  stepping : Option Stage
  applied : List (Application β)

namespace LiveUnit

variable {β : Type}

/-- Declares a need, marked with the stage that is being worked on. -/
def declare (u : LiveUnit β) (demand : Demand) : LiveUnit β :=
  { u with needs := Need.addTo u.needs (Need.of u.name demand u.stepping) }

/-- Marks the stage that is being worked on. -/
def working (u : LiveUnit β) (stage : Option Stage) : LiveUnit β :=
  { u with stepping := stage }

/-- The deployers applied for a stage, in the order in which they were applied. -/
def appliedAt (u : LiveUnit β) (stage : Stage) : List (Deployer β) :=
  (u.applied.filter fun a ↦ a.stage == stage).map Application.deployer

/-- Records that a deployer has been applied. -/
def apply (u : LiveUnit β) (stage : Stage) (d : Deployer β) : LiveUnit β :=
  { u with applied := u.applied ++ [⟨stage, d⟩] }

/-- Clears the record of a stage. -/
def clearApplied (u : LiveUnit β) (stage : Stage) : LiveUnit β :=
  { u with applied := u.applied.filter fun a ↦ a.stage != stage }

/-- Forgets the needs that the work of a stage declared. -/
def forgetNeeds (u : LiveUnit β) (stage : Stage) : LiveUnit β :=
  { u with needs := Need.forget u.needs stage }

/-- Whether a deployer with this profile is called for the unit as it stands. -/
def suits (u : LiveUnit β) (p : Profile) : Bool :=
  (!p.topOnly || u.kind == .topLevel) &&
  (if p.componentsOnly then u.kind == .component
    else u.kind != .component || p.wantsComponents) &&
  p.requires.all u.attachments.isPresent

theorem appliedAt_apply (u : LiveUnit β) (stage other : Stage) (d : Deployer β) :
    (u.apply stage d).appliedAt other =
      if stage = other then u.appliedAt other ++ [d] else u.appliedAt other := by
  by_cases h : stage = other <;> simp [apply, appliedAt, h]

theorem appliedAt_clearApplied (u : LiveUnit β) (stage other : Stage) :
    (u.clearApplied stage).appliedAt other =
      if other = stage then [] else u.appliedAt other := by
  unfold clearApplied appliedAt
  rw [List.filter_filter]
  by_cases h : other = stage
  · subst h
    simp
  · have kept : (fun a : Application β ↦ (a.stage == other) && (a.stage != stage)) =
        fun a ↦ a.stage == other := by
      funext a
      by_cases ha : a.stage = other <;> simp [ha, h]
    rw [kept, if_neg h]

end LiveUnit

end Rollout
