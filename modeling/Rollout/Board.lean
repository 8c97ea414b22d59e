import Rollout.Board.Progress
import Rollout.Forest
import Rollout.Stage.Chain

/-!
The board. The board holds the progress of every tracked deployment, in the order in which they were
entered. It moves a deployment by single stages only, tells which needs stand in the way of the next
stage, and tells which other deployments may not stay where they are when one goes down.
-/

set_option autoImplicit false
set_option relaxedAutoImplicit false

namespace Rollout

/-- A move that the board refuses. -/
inductive BoardFault
  | untracked (root : Handle)
  | cannotAdvance (name : String) (start goal : Stage)
  | cannotRetreat (name : String) (start goal : Stage)
deriving DecidableEq, Repr

namespace BoardFault

/-- The text of a refusal. -/
def message : BoardFault → String
  | untracked root => "no context for unit " ++ root.text
  | cannotAdvance name start goal => s!"'{name}' cannot advance from {start} to {goal}"
  | cannotRetreat name start goal => s!"'{name}' cannot retreat from {start} to {goal}"

end BoardFault

/-- Whether a deployment can take its next step. -/
inductive Verdict
  | idle
  | ready (next : Stage)
  | blocked (missing : List Shortfall)
deriving DecidableEq, Repr

/-- The tracked deployments: the order in which they were entered, and the progress of each. -/
structure Board where
  order : List Handle
  entries : List Progress
deriving DecidableEq, Repr

namespace Board

/-- A board that tracks nothing. -/
def empty : Board := ⟨[], []⟩

instance : Inhabited Board := ⟨empty⟩

/-- The progress of a deployment. -/
def get? (b : Board) (root : Handle) : Option Progress :=
  b.entries.find? fun p ↦ p.root == root

/-- The progress of every tracked deployment in order. -/
def tracked (b : Board) : List Progress := b.order.filterMap b.get?

/-- The stage of a deployment. -/
def stage? (b : Board) (root : Handle) : Option Stage := (b.get? root).map Progress.stage

/-- Changes the progress of one deployment. -/
def update (b : Board) (root : Handle) (change : Progress → Progress) : Board :=
  { b with entries := b.entries.map fun p ↦ if p.root == root then change p else p }

/-- Enters a deployment on the floor. -/
def enter (b : Board) (root : Handle) (name : String) (requested : Stage) : Board where
  order := b.order ++ [root]
  entries := b.entries.filter (fun p ↦ p.root != root) ++ [Progress.start root name requested]

/-- Takes a deployment off the board. -/
def leave (b : Board) (root : Handle) : Board where
  order := b.order.filter (· != root)
  entries := b.entries.filter fun p ↦ p.root != root

/-- Asks a deployment for a stage, afresh. One that is to be removed is not asked any more. -/
def request (b : Board) (root : Handle) (stage : Stage) : Board :=
  b.update root fun p ↦
    if p.removing then p else { p with requested := stage, error := none, waiting := [] }

/-- Sets the stage asked for and nothing else. -/
def aim (b : Board) (root : Handle) (stage : Stage) : Board :=
  b.update root fun p ↦ { p with requested := stage }

/-- Schedules a deployment for removal: it is asked to go down to the floor. -/
def retire (b : Board) (root : Handle) : Board :=
  b.update root fun p ↦ { p with removing := true, requested := Stage.floor, waiting := [] }

/-- Records a failed step. -/
def fail (b : Board) (root : Handle) (failure : Failure) : Board :=
  b.update root fun p ↦ { p with error := some failure, waiting := [] }

/-- Whether a deployment is recorded as waiting for anything else than the given. -/
def waitsOtherwise (b : Board) (root : Handle) (missing : List Shortfall) : Bool :=
  (b.get? root).any fun p ↦ p.waiting != missing

/-- Records what a deployment waits for. -/
def wait (b : Board) (root : Handle) (missing : List Shortfall) : Board :=
  b.update root fun p ↦ { p with waiting := missing }

/-- Moves a deployment one stage up. -/
def ascend (b : Board) (root : Handle) (stage : Stage) : Except BoardFault Board :=
  match b.get? root with
  | none => .error (.untracked root)
  | some p =>
    if stage.index = p.stage.index + 1 then
      .ok (b.update root fun p ↦ { p with stage, waiting := [] })
    else .error (.cannotAdvance p.name p.stage stage)

/-- Moves a deployment one stage down. -/
def descend (b : Board) (root : Handle) (stage : Stage) : Except BoardFault Board :=
  match b.get? root with
  | none => .error (.untracked root)
  | some p =>
    if stage.index + 1 = p.stage.index then
      .ok (b.update root fun p ↦ { p with stage })
    else .error (.cannotRetreat p.name p.stage stage)

/-- Moves a deployment along single steps from a stage: up where a step is above that stage, else
out of the step into the one below. -/
def follow (chain : Chain) (root : Handle) (start : Stage) :
    List Stage → Board → Except BoardFault Board
  | [], b => .ok b
  | s :: steps, b =>
    (if start < s then b.ascend root s
      else b.descend root ((chain.prev? s).getD Stage.floor)).bind (follow chain root start steps)

theorem root_of_get? {b : Board} {root : Handle} {p : Progress} (h : b.get? root = some p) :
    p.root = root := by
  simpa using List.find?_some h

@[simp] theorem order_update (b : Board) (root : Handle) (change : Progress → Progress) :
    (b.update root change).order = b.order := rfl

theorem get?_update (b : Board) (root other : Handle) {change : Progress → Progress}
    (keeps : ∀ p, (change p).root = p.root) :
    (b.update root change).get? other =
      if other = root then (b.get? root).map change else b.get? other := by
  unfold update get?
  rw [List.find?_map]
  have same : ((fun p : Progress ↦ p.root == other) ∘
      fun p ↦ if p.root == root then change p else p) = fun p ↦ p.root == other := by
    funext p
    by_cases hp : p.root = root <;> simp [hp, keeps]
  rw [same]
  cases hf : b.entries.find? fun p ↦ p.root == other with
  | none =>
    by_cases ho : other = root
    · subst ho; simp [hf]
    · simp [ho]
  | some p =>
    have hp : p.root = other := by simpa using List.find?_some hf
    by_cases ho : other = root
    · subst ho; simp [hf, hp]
    · simp [hp, ho]

theorem get?_leave (b : Board) (root other : Handle) :
    (b.leave root).get? other = if other = root then none else b.get? other := by
  unfold leave get?
  rw [List.find?_filter]
  by_cases ho : other = root
  · subst ho
    simp
  · have gone : (fun p : Progress ↦ (p.root != root) && (p.root == other)) =
        fun p ↦ p.root == other := by
      funext p
      by_cases hp : p.root = other <;> simp [hp, ho]
    simp only [Bool.decide_and, Bool.decide_eq_true, gone, if_neg ho]

theorem get?_enter (b : Board) (root other : Handle) (name : String) (requested : Stage) :
    (b.enter root name requested).get? other =
      if other = root then some (Progress.start root name requested) else b.get? other := by
  have h := get?_leave b root other
  unfold leave get? at h
  unfold enter get?
  rw [List.find?_append, h]
  by_cases ho : other = root
  · subst ho
    simp [Progress.start]
  · have new : ¬ root = other := fun e ↦ ho e.symm
    simp [Progress.start, ho, new]

theorem ascend_eq_ok_iff {b b' : Board} {root : Handle} {stage : Stage} :
    b.ascend root stage = .ok b' ↔ ∃ p, b.get? root = some p ∧
      stage.index = p.stage.index + 1 ∧
      b' = b.update root fun p ↦ { p with stage, waiting := [] } := by
  unfold ascend
  cases b.get? root with
  | none => simp
  | some p => by_cases h : stage.index = p.stage.index + 1 <;> simp [h, eq_comm]

theorem descend_eq_ok_iff {b b' : Board} {root : Handle} {stage : Stage} :
    b.descend root stage = .ok b' ↔ ∃ p, b.get? root = some p ∧
      stage.index + 1 = p.stage.index ∧ b' = b.update root fun p ↦ { p with stage } := by
  unfold descend
  cases b.get? root with
  | none => simp
  | some p =>
    by_cases h : stage.index + 1 = p.stage.index
    · simp [h, eq_comm]
    · simp [h]

variable {β : Type}

/-- The progress of the deployment that the live unit of a name belongs to. -/
def ofUnit? (b : Board) (f : Forest β) (name : String) : Option Progress :=
  (f.byName? name).bind fun u ↦ b.get? u.top

/-- What is missing for a need, if it is not met. -/
def shortfall? (b : Board) (chain : Chain) (f : Forest β) (n : Need) : Option Shortfall :=
  match b.ofUnit? f n.target with
  | none => some (.of n none false)
  | some target =>
    if target.error.isSome then some (.of n (some target.stage) true)
    else match chain.resolve? n.atLeast with
      | none => some (.of n (some target.stage) false)
      | some required =>
        if required ≤ target.stage then none else some (.of n (some target.stage) false)

/-- The first stage that a need has a say in: the one it names, or the first above the floor if it
names none of the chain. -/
def appliesFrom (chain : Chain) (n : Need) : Stage :=
  ((chain.resolve? n.before).or (chain.next? Stage.floor)).getD Stage.floor

/-- Everything that is missing for a tree to enter a stage. -/
def missing (b : Board) (chain : Chain) (f : Forest β) (root : Handle) (next : Stage) :
    List Shortfall :=
  ((f.treeNeeds root).filter fun n ↦ appliesFrom chain n ≤ next).filterMap
    (b.shortfall? chain f)

/-- Whether a deployment can take its next step up, and if not, what it is missing. -/
def verdict (b : Board) (chain : Chain) (f : Forest β) (root : Handle) : Verdict :=
  match b.get? root with
  | none => .idle
  | some p =>
    if p.error.isSome || p.requested ≤ p.stage then .idle
    else match chain.next? p.stage with
      | none => .idle
      | some next => match b.missing chain f root next with
        | [] => .ready next
        | missing => .blocked missing

/-- How far down a need of a deployment at `stage` sends it, when the tree on `root` goes down to
`below`. -/
def pullBack? (chain : Chain) (f : Forest β) (root : Handle) (below stage : Stage) (n : Need) :
    Option Stage :=
  if (f.byName? n.target).any (fun u ↦ u.top == root) then
    match chain.resolve? n.atLeast with
    | none => none
    | some required =>
      let first := appliesFrom chain n
      if required ≤ below ∨ stage < first then none else chain.prev? first
  else none

/-- The lowest of some stages. -/
def lowest? : List Stage → Option Stage
  | [] => none
  | s :: rest => some (rest.foldl (fun least s ↦ if s < least then s else least) s)

/-- The other deployments that have to go down before the tree on `root` goes down to `below`, each
with the stage it has to go down to. -/
def recalled (b : Board) (chain : Chain) (f : Forest β) (root : Handle) (below : Stage) :
    List (Handle × Stage) :=
  b.order.eraseDups.filterMap fun dependent ↦
    if dependent = root then none
    else (b.get? dependent).bind fun p ↦
      (lowest? ((f.treeNeeds dependent).filterMap
        (pullBack? chain f root below p.stage))).map (dependent, ·)

end Board

end Rollout
