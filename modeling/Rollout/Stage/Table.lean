import Rollout.Error
import Rollout.Stage.Chain

/-!
Drafts and tables. A draft is a chain in the making: names in a row, and each new one is put in after
a look at those that are there. A table is what is made of a draft: stages in a row, each with the
place that was written into it. Neither type keeps a name from standing twice, or a stage from
standing where it does not belong.
-/

set_option autoImplicit false
set_option relaxedAutoImplicit false

namespace Rollout

/-- Stages in a row. -/
structure Table where
  stages : List Stage
deriving DecidableEq, Repr

namespace Table

/-- The stages of the standard chain, each with its place. -/
def builtin : List Stage :=
  [Stage.floor, ⟨"Parse", 1⟩, ⟨"PostParse", 2⟩, ⟨"PreDescribe", 3⟩, ⟨"Describe", 4⟩,
    ⟨"ClassLoader", 5⟩, ⟨"PostClassLoader", 6⟩, ⟨"PreReal", 7⟩, ⟨"Real", 8⟩, ⟨"Installed", 9⟩]

/-- The first stage of a name from the floor up. -/
def lookup (t : Table) (name : String) : Except Error Stage :=
  match t.stages.find? fun s ↦ s.name == name with
  | some s => .ok s
  | none => .error (.unknownStage name)

/-- The stage that a stage stands for: what is at its place if that is the stage itself, else the
first of its name. -/
def resolve (t : Table) (s : Stage) : Except Error Stage :=
  match t.stages[s.index]? with
  | some found => if found = s then .ok found else t.lookup s.name
  | none => t.lookup s.name

/-- Whether this very stage is in the table. -/
def contains (t : Table) (s : Stage) : Bool := t.stages[s.index]? == some s

/-- What is one place above a stage. -/
def next? (t : Table) (s : Stage) : Option Stage := t.stages[s.index + 1]?

/-- What is one place below a stage. -/
def prev? (t : Table) (s : Stage) : Option Stage :=
  match s.index with
  | 0 => none
  | i + 1 => t.stages[i]?

/-- A piece of the row, from one place up to below another, if it has all these places. -/
def slice? (t : Table) (low high : Nat) : Option (List Stage) :=
  if low ≤ high ∧ high ≤ t.stages.length then some ((t.stages.take high).drop low) else none

/-- The single steps between two stages, cut out of the row: those above the lower one up to the
higher one, and if the walk goes down, from there. -/
def path? (t : Table) (start goal : Stage) : Option (List Stage) :=
  if start.index < goal.index then t.slice? (start.index + 1) (goal.index + 1)
  else (t.slice? (goal.index + 1) (start.index + 1)).map List.reverse

end Table

/-- Names in a row. -/
structure Draft where
  names : List String
deriving DecidableEq, Repr

namespace Draft

/-- Refuses a name that is blank or there already. -/
def check (d : Draft) (name : String) : Except ChainError Unit :=
  if Text.isBlank name then .error .blankName
  else if name ∈ d.names then .error (.duplicate name)
  else .ok ()

/-- The place of the name that another one is to stand next to. -/
def position (d : Draft) (name anchor : String) : Except ChainError Nat :=
  match d.names.idxOf? anchor with
  | some i => .ok i
  | none => .error (.unknownAnchor name anchor)

/-- Puts in one more name. -/
def add (d : Draft) (name : String) (placement : Chain.Placement) : Except ChainError Draft :=
  (d.check name).bind fun _ ↦ match placement with
    | .atEnd => .ok ⟨d.names ++ [name]⟩
    | .after anchor => (d.position name anchor).map fun i ↦ ⟨d.names.insertIdx (i + 1) name⟩
    | .before anchor => (d.position name anchor).bind fun i ↦
      if i = 0 then .error (.beforeFloor name) else .ok ⟨d.names.insertIdx i name⟩

/-- Puts in names one after another and passes over those that are refused. -/
def addAll (d : Draft) (calls : List (String × Chain.Placement)) : Draft :=
  calls.foldl (fun d call ↦ (d.add call.1 call.2).toOption.getD d) d

/-- Turns a draft into a table: a standard stage that is at its standard place is taken as it is,
and a stage is made for any other name. -/
def build (d : Draft) : Table where
  stages := d.names.mapIdx fun i name ↦
    match Table.builtin[i]? with
    | some s => if s.name = name then s else ⟨name, i⟩
    | none => ⟨name, i⟩

end Draft

/-- What a draft can begin with: the floor alone, or the standard chain. -/
inductive Seed
  | floor
  | standard
deriving DecidableEq, Repr

namespace Seed

/-- The chain to begin with. -/
def chain : Seed → Chain
  | floor => .base
  | standard => .standard

/-- The draft to begin with. -/
def draft : Seed → Draft
  | floor => ⟨[Stage.floor.name]⟩
  | standard => ⟨Table.builtin.map Stage.name⟩

end Seed

end Rollout
