import Rollout.Stage
import Rollout.Text.Blank

/-!
Chains of stages. A chain is the list of stage names from the floor up, without repetition; the
stage of a name is that name with its position, so every stage of a chain knows its own place. A
chain grows by one name at a time, at the end or next to a name it already has, never below the
floor. A stage that was made for another chain is found again by its name.
-/

set_option autoImplicit false
set_option relaxedAutoImplicit false

namespace Rollout

/-- Why a chain refuses a new stage. -/
inductive ChainError
  | blankName
  | duplicate (name : String)
  | unknownAnchor (name anchor : String)
  | beforeFloor (name : String)
deriving DecidableEq, Repr

namespace ChainError

/-- The text of a refusal. -/
def message : ChainError → String
  | blankName => "Stage name cannot be empty"
  | duplicate name => s!"Duplicate stage name: '{name}'"
  | unknownAnchor name anchor =>
    s!"Cannot position stage '{name}' relative to unknown stage '{anchor}'"
  | beforeFloor name => s!"Stage '{name}' cannot be placed before the floor stage"

end ChainError

/-- The stage names of a rollout from the floor up, each once. -/
structure Chain where
  names : List String
  nodup : names.Nodup
  floor_first : names.head? = some Stage.floor.name

namespace Chain

/-- The stages at their places. -/
def stages (c : Chain) : List Stage :=
  c.names.mapIdx fun i name ↦ ⟨name, i⟩

/-- How many stages there are, the floor included. -/
def size (c : Chain) : Nat := c.names.length

/-- The stage at a place. -/
def at? (c : Chain) (i : Nat) : Option Stage :=
  c.names[i]?.map fun name ↦ ⟨name, i⟩

/-- The stage of a name. -/
def find? (c : Chain) (name : String) : Option Stage :=
  (c.names.idxOf? name).map fun i ↦ ⟨name, i⟩

/-- The stage of this chain that a stage of any chain stands for: itself if it stands at its own
place here, else the stage of its name. -/
def resolve? (c : Chain) (s : Stage) : Option Stage :=
  if c.at? s.index = some s then some s else c.find? s.name

/-- Whether this very stage belongs to the chain. -/
def contains (c : Chain) (s : Stage) : Bool := c.at? s.index == some s

/-- The stage one place above. -/
def next? (c : Chain) (s : Stage) : Option Stage := c.at? (s.index + 1)

/-- The stage one place below. -/
def prev? (c : Chain) (s : Stage) : Option Stage :=
  match s.index with
  | 0 => none
  | i + 1 => c.at? i

theorem at?_eq_some_iff {c : Chain} {i : Nat} {s : Stage} :
    c.at? i = some s ↔ s.index = i ∧ c.names[i]? = some s.name := by
  cases s
  simp only [at?, Option.map_eq_some_iff, Stage.mk.injEq]
  constructor
  · rintro ⟨name, h, rfl, rfl⟩
    exact ⟨rfl, h⟩
  · rintro ⟨rfl, h⟩
    exact ⟨_, h, rfl, rfl⟩

theorem index_of_next? {c : Chain} {s t : Stage} (h : c.next? s = some t) :
    t.index = s.index + 1 :=
  (at?_eq_some_iff.1 h).1

theorem index_of_prev? {c : Chain} {s t : Stage} (h : c.prev? s = some t) :
    t.index + 1 = s.index := by
  unfold prev? at h
  cases hi : s.index with
  | zero => simp [hi] at h
  | succ i =>
    rw [hi] at h
    rw [(at?_eq_some_iff.1 h).1]

/-- The highest stage. -/
def last (c : Chain) : Stage :=
  (c.at? (c.size - 1)).getD Stage.floor

/-- The single steps between two stages: going up the stages entered, going down the stages left.
There are none to tell when one of the two lies beyond the chain. -/
def path? (c : Chain) (start goal : Stage) : Option (List Stage) :=
  if c.size ≤ max start.index goal.index then none
  else if start.index < goal.index then
    some ((c.stages.take (goal.index + 1)).drop (start.index + 1))
  else
    some ((c.stages.take (start.index + 1)).drop (goal.index + 1)).reverse

/-- The chain of the floor alone. -/
def base : Chain := ⟨[Stage.floor.name], by decide, rfl⟩

/-- The standard chain of ten stages. -/
def standard : Chain :=
  ⟨["NotInstalled", "Parse", "PostParse", "PreDescribe", "Describe", "ClassLoader",
    "PostClassLoader", "PreReal", "Real", "Installed"], by decide, rfl⟩

instance : Inhabited Chain := ⟨standard⟩

theorem ext_names {c d : Chain} (h : c.names = d.names) : c = d := by
  cases c; cases d; cases h; rfl

instance : DecidableEq Chain := fun c d ↦
  if h : c.names = d.names then .isTrue (ext_names h) else .isFalse fun e ↦ h (e ▸ rfl)

theorem names_ne_nil (c : Chain) : c.names ≠ [] := by
  intro h
  simpa [h] using c.floor_first

theorem size_pos (c : Chain) : 0 < c.size :=
  List.length_pos_iff.2 c.names_ne_nil

/-- The chain with one more name, at a position above the floor. -/
def place (c : Chain) (name : String) (position : Nat) (fresh : name ∉ c.names)
    (above : 0 < position) : Chain where
  names := c.names.take position ++ name :: c.names.drop position
  nodup := by
    rw [List.perm_middle.nodup_iff, List.take_append_drop]
    exact List.nodup_cons.2 ⟨fresh, c.nodup⟩
  floor_first := by
    obtain ⟨names, nodup, first⟩ := c
    cases names with
    | nil => simp at first
    | cons n ns => cases position with
      | zero => simp at above
      | succ p => simpa using first

/-- Where a new stage goes. -/
inductive Placement
  | atEnd
  | after (anchor : String)
  | before (anchor : String)
deriving DecidableEq, Repr

/-- Adds a stage. The name is looked at first, then the anchor, then the floor. -/
def insert (c : Chain) (name : String) (placement : Placement) : Except ChainError Chain :=
  if Text.isBlank name then .error .blankName
  else if fresh : name ∈ c.names then .error (.duplicate name)
  else match placement with
    | .atEnd => .ok (c.place name c.size fresh c.size_pos)
    | .after anchor => match c.names.idxOf? anchor with
      | none => .error (.unknownAnchor name anchor)
      | some i => .ok (c.place name (i + 1) fresh i.succ_pos)
    | .before anchor => match c.names.idxOf? anchor with
      | none => .error (.unknownAnchor name anchor)
      | some 0 => .error (.beforeFloor name)
      | some (i + 1) => .ok (c.place name (i + 1) fresh i.succ_pos)

/-- Adds stages one after another and passes over those that are refused. -/
def insertAll (c : Chain) (steps : List (String × Placement)) : Chain :=
  steps.foldl (fun c step ↦ (c.insert step.1 step.2).toOption.getD c) c

end Chain

end Rollout
