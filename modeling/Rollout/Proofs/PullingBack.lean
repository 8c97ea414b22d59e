import Mathlib.Order.Bounds.Defs
import Rollout.Proofs.Ranks
import Rollout.Proofs.Requests

/-!
Advancing and pulling back. Before a deployment enters a stage it is looked at what it demands for
that stage. When another deployment goes down, some of this may not be met any more, and the one
that demanded it has to go down first. Needs that apply from above the floor have it listed for
that, once, with the highest stage that none of them is demanded for. A need that applies from the
floor does not: no stage is below the floor, so there is none to send its deployment down to.
-/

set_option autoImplicit false
set_option relaxedAutoImplicit false

namespace Rollout

variable {β : Type}

namespace Board

variable {b : Board} {chain : Chain} {f : Forest β} {root dependent : Handle}
  {below stage s : Stage} {p : Progress} {n : Need}

/-- The needs of a tree that are looked at before it enters a stage. -/
def demanded (chain : Chain) (f : Forest β) (root : Handle) (stage : Stage) : List Need :=
  (f.treeNeeds root).filter fun n ↦ appliesFrom chain n ≤ stage

/-- What is missing for a tree to enter a stage is missing for the needs looked at before it. -/
theorem missing_eq_demanded (b : Board) (chain : Chain) (f : Forest β) (root : Handle)
    (next : Stage) :
    b.missing chain f root next = (demanded chain f root next).filterMap (b.shortfall? chain f) :=
  rfl

/-- The needs that were looked at before a tree entered a stage, on units of the tree on `root`, and
that are not met there any more when that one is at `below`. -/
def undone (chain : Chain) (f : Forest β) (root : Handle) (below : Stage) (dependent : Handle)
    (stage : Stage) : List Need :=
  (demanded chain f dependent stage).filter fun n ↦
    (f.byName? n.target).any (fun u ↦ u.top == root) &&
      (chain.resolve? n.atLeast).any fun required ↦ ¬ required ≤ below

theorem mem_undone_iff : n ∈ undone chain f root below dependent stage ↔
    n ∈ f.treeNeeds dependent ∧ appliesFrom chain n ≤ stage ∧
      ∃ u required, f.byName? n.target = some u ∧ u.top = root ∧
        chain.resolve? n.atLeast = some required ∧ ¬ required ≤ below := by
  simp only [undone, demanded, List.mem_filter, Bool.and_eq_true, Option.any_eq_true,
    decide_eq_true_eq, beq_iff_eq, and_assoc]
  constructor
  · rintro ⟨hn, happlies, ⟨u, hu, htop⟩, required, hrequired, hnot⟩
    exact ⟨hn, happlies, u, required, hu, htop, hrequired, hnot⟩
  · rintro ⟨hn, happlies, u, required, hu, htop, hrequired, hnot⟩
    exact ⟨hn, happlies, ⟨u, hu, htop⟩, required, hrequired, hnot⟩

/-- A need sends its deployment down if it is undone, to the stage below the one it applies from. -/
theorem pullBack?_iff (hn : n ∈ f.treeNeeds dependent) {goal : Stage} :
    pullBack? chain f root below stage n = some goal ↔
      n ∈ undone chain f root below dependent stage ∧
        chain.prev? (appliesFrom chain n) = some goal := by
  rw [Controller.pullBack?_eq_some_iff, mem_undone_iff]
  constructor
  · rintro ⟨u, required, hu, htop, hrequired, hnot, happlies, hprev⟩
    exact ⟨⟨hn, happlies, u, required, hu, htop, hrequired, hnot⟩, hprev⟩
  · rintro ⟨⟨_, happlies, u, required, hu, htop, hrequired, hnot⟩, hprev⟩
    exact ⟨u, required, hu, htop, hrequired, hnot, happlies, hprev⟩

/-- The undone needs that apply from above the floor. -/
def binding (chain : Chain) (f : Forest β) (root : Handle) (below : Stage) (dependent : Handle)
    (stage : Stage) : List Need :=
  (undone chain f root below dependent stage).filter fun n ↦ 0 < (appliesFrom chain n).index

/-- The stages that needs send a deployment down to. -/
def goals (chain : Chain) (f : Forest β) (root : Handle) (below : Stage) (dependent : Handle)
    (stage : Stage) : List Stage :=
  (f.treeNeeds dependent).filterMap (pullBack? chain f root below stage)

theorem mem_goals_iff : s ∈ goals chain f root below dependent stage ↔
    ∃ n ∈ binding chain f root below dependent stage,
      chain.prev? (appliesFrom chain n) = some s := by
  unfold goals binding
  rw [List.mem_filterMap]
  constructor
  · rintro ⟨n, hn, hpull⟩
    obtain ⟨hundone, hprev⟩ := (pullBack?_iff hn).1 hpull
    have hindex := Chain.index_of_prev? hprev
    exact ⟨n, List.mem_filter.2 ⟨hundone, decide_eq_true (by omega)⟩, hprev⟩
  · rintro ⟨n, hbinding, hprev⟩
    have hundone := (List.mem_filter.1 hbinding).1
    have hn := (mem_undone_iff.1 hundone).1
    exact ⟨n, hn, (pullBack?_iff hn).2 ⟨hundone, hprev⟩⟩

/-- Every binding need sends its deployment down. -/
theorem exists_goal (hn : n ∈ binding chain f root below dependent stage) :
    ∃ goal ∈ goals chain f root below dependent stage,
      goal.index + 1 = (appliesFrom chain n).index := by
  have habove := of_decide_eq_true (List.mem_filter.1 hn).2
  obtain ⟨goal, hgoal⟩ := Chain.exists_prev? (contains_appliesFrom chain n) habove
  exact ⟨goal, mem_goals_iff.2 ⟨n, hn, hgoal⟩, Chain.index_of_prev? hgoal⟩

theorem lowest?_eq_none_iff {stages : List Stage} : lowest? stages = none ↔ stages = [] := by
  cases stages <;> simp [lowest?]

/-- The lowest of the stages that needs send a deployment down to is the highest that is demanded
by none of them. -/
theorem isGreatest_lowest (hleast : lowest? (goals chain f root below dependent stage) = some s) :
    s < stage ∧ IsGreatest {t | chain.contains t = true ∧
      ∀ n ∈ binding chain f root below dependent stage, ¬ appliesFrom chain n ≤ t} s := by
  obtain ⟨n, hn, hprev⟩ := mem_goals_iff.1 (Controller.lowest?_mem hleast)
  have hindex := Chain.index_of_prev? hprev
  have hs := Chain.contains_of_prev? hprev
  have happlies := (mem_undone_iff.1 (List.mem_filter.1 hn).1).2.1
  refine ⟨Stage.lt_of_index_lt ?_, ⟨hs, fun m hm hle ↦ ?_⟩, fun t ⟨ht, hfree⟩ ↦ ?_⟩
  · have hle := Stage.index_le_of_le happlies
    omega
  · obtain ⟨goal, hgoal, happlies⟩ := exists_goal hm
    have hle := Stage.index_le_of_le hle
    have hlowest := Controller.lowest?_le hleast hgoal
    omega
  · have hnot := hfree n hn
    rw [Chain.le_iff_index (contains_appliesFrom chain n) ht] at hnot
    rw [Chain.le_iff_index ht hs]
    omega

/-- The stage that a deployment has to go down to before the tree on `root` goes down to `below`. -/
def goal? (b : Board) (chain : Chain) (f : Forest β) (root : Handle) (below : Stage)
    (dependent : Handle) : Option Stage :=
  if dependent = root then none
  else (b.get? dependent).bind fun p ↦ lowest? (goals chain f root below dependent p.stage)

theorem recalled_eq (b : Board) (chain : Chain) (f : Forest β) (root : Handle) (below : Stage) :
    b.recalled chain f root below = b.order.eraseDups.filterMap fun dependent ↦
      (b.goal? chain f root below dependent).map (dependent, ·) := by
  refine congrArg (fun g ↦ b.order.eraseDups.filterMap g) (funext fun dependent ↦ ?_)
  unfold goal?
  split
  · rfl
  · rw [Option.map_bind]
    rfl

theorem nodup_eraseDups (handles : List Handle) : handles.eraseDups.Nodup := by
  cases handles with
  | nil => simp
  | cons h rest =>
    rw [List.eraseDups_cons, List.nodup_cons]
    exact ⟨by simp, nodup_eraseDups _⟩
termination_by handles.length
decreasing_by
  rw [List.length_cons]
  exact Nat.lt_succ_of_le (List.length_filter_le _ _)

/-- What is found for the members of a list tells of each of them at most once. -/
theorem filter_found {α : Type} (g : Handle → Option α) {l : List Handle} (hnodup : l.Nodup)
    (hmem : dependent ∈ l) :
    (l.filterMap fun h ↦ (g h).map (h, ·)).filter (fun found ↦ found.1 = dependent) =
      ((g dependent).map (dependent, ·)).toList := by
  obtain ⟨before, after, rfl⟩ := List.append_of_mem hmem
  have hothers : ∀ others : List Handle, dependent ∉ others →
      (others.filterMap fun h ↦ (g h).map (h, ·)).filter
        (fun found ↦ found.1 = dependent) = [] := by
    intro others hnot
    refine List.filter_eq_nil_iff.2 fun found hfound ↦ ?_
    obtain ⟨h, hh, heq⟩ := List.mem_filterMap.1 hfound
    obtain ⟨x, _, rfl⟩ := Option.map_eq_some_iff.1 heq
    exact fun hfst ↦ hnot (of_decide_eq_true hfst ▸ hh)
  rw [List.nodup_append, List.nodup_cons] at hnodup
  obtain ⟨_, ⟨hafter, _⟩, hbefore⟩ := hnodup
  rw [List.filterMap_append, List.filter_append, List.filterMap_cons,
    hothers before fun hb ↦ hbefore _ hb _ List.mem_cons_self rfl, List.nil_append]
  cases g dependent with
  | none => exact hothers after hafter
  | some x =>
    rw [Option.map_some, List.filter_cons_of_pos (by simp), hothers after hafter]
    rfl

/-- A tracked deployment is called down before another tree goes down if and only if it holds
binding needs, and then once, to the highest stage that none of them is demanded for. -/
theorem recalled_covers (chain : Chain) (f : Forest β) (below : Stage) (hne : dependent ≠ root)
    (htracked : dependent ∈ b.order) (hp : b.get? dependent = some p) :
    (binding chain f root below dependent p.stage = [] →
        ∀ goal, (dependent, goal) ∉ b.recalled chain f root below) ∧
      (binding chain f root below dependent p.stage ≠ [] → ∃ goal,
        (b.recalled chain f root below).filter (fun target ↦ target.1 = dependent) =
          [(dependent, goal)] ∧ goal < p.stage ∧
        IsGreatest {s | chain.contains s = true ∧
          ∀ n ∈ binding chain f root below dependent p.stage, ¬ appliesFrom chain n ≤ s} goal) := by
  have hgoal : b.goal? chain f root below dependent =
      lowest? (goals chain f root below dependent p.stage) := by
    rw [goal?, if_neg hne, hp, Option.bind_some]
  have honce := filter_found (b.goal? chain f root below) (nodup_eraseDups b.order)
    (List.mem_eraseDups.2 htracked)
  rw [← recalled_eq, hgoal] at honce
  constructor
  · intro hnone goal hmem
    have hgoals : goals chain f root below dependent p.stage = [] :=
      List.eq_nil_iff_forall_not_mem.2 fun s hs ↦ by
        obtain ⟨n, hn, _⟩ := mem_goals_iff.1 hs
        rw [hnone] at hn
        exact absurd hn List.not_mem_nil
    rw [hgoals] at honce
    exact List.filter_eq_nil_iff.1 honce _ hmem (by simp)
  · intro hsome
    obtain ⟨n, hn⟩ := List.exists_mem_of_ne_nil _ hsome
    obtain ⟨goal, hmem, _⟩ := exists_goal hn
    cases hleast : lowest? (goals chain f root below dependent p.stage) with
    | none =>
      rw [lowest?_eq_none_iff.1 hleast] at hmem
      exact absurd hmem List.not_mem_nil
    | some least =>
      rw [hleast] at honce
      obtain ⟨hlt, hgreatest⟩ := isGreatest_lowest hleast
      exact ⟨least, honce, hlt, hgreatest⟩

end Board

namespace Controller

open Board

/-- Both `app` and `gui` need `db` at the stage it is driven to, `app` before it enters its first
stage and again before its second, and `gui` from the floor on. -/
def leaning : Controller Unit Unit := postParsing.serveAll idle [.deployAll [
  .mk "db" .none [] [] [],
  .mk "app" .none [⟨"db", ⟨"Parse", 1⟩, ⟨"PostParse", 2⟩⟩,
    ⟨"db", ⟨"PostParse", 2⟩, ⟨"PostParse", 2⟩⟩] [] [],
  .mk "gui" .none [⟨"db", Stage.floor, ⟨"PostParse", 2⟩⟩] [] []]]

theorem recalled_covers_leaning :
    (binding leaning.chain leaning.forest 0 ⟨"Parse", 1⟩ 1 ⟨"PostParse", 2⟩).length = 2 ∧
      ∃ goal, (leaning.board.recalled leaning.chain leaning.forest 0 ⟨"Parse", 1⟩).filter
          (fun target ↦ target.1 = 1) = [(1, goal)] ∧ goal < ⟨"PostParse", 2⟩ ∧
        IsGreatest {s | leaning.chain.contains s = true ∧
          ∀ n ∈ binding leaning.chain leaning.forest 0 ⟨"Parse", 1⟩ 1 ⟨"PostParse", 2⟩,
            ¬ appliesFrom leaning.chain n ≤ s} goal := by
  have hp : leaning.board.get? 1 = some
      ⟨1, "app", ⟨"PostParse", 2⟩, ⟨"PostParse", 2⟩, none, [], false⟩ := by decide +kernel
  have hlen : (binding leaning.chain leaning.forest 0 ⟨"Parse", 1⟩ 1
      ⟨"PostParse", 2⟩).length = 2 := by decide +kernel
  refine ⟨hlen, (recalled_covers leaning.chain leaning.forest ⟨"Parse", 1⟩ (by decide)
    (by decide +kernel) hp).2 fun hnil ↦ ?_⟩
  rw [hnil] at hlen
  exact absurd hlen (by simp)

/-- The need that applies from the floor was looked at all the same, and will not be met any more,
but its deployment is not called down. -/
theorem recalled_misses_floor :
    Reachable idle leaning ∧ leaning.board.stage? 0 = some ⟨"PostParse", 2⟩ ∧
      leaning.chain.prev? ⟨"PostParse", 2⟩ = some ⟨"Parse", 1⟩ ∧
      leaning.board.stage? 2 = some ⟨"PostParse", 2⟩ ∧
      (undone leaning.chain leaning.forest 0 ⟨"Parse", 1⟩ 2 ⟨"PostParse", 2⟩).length = 1 ∧
      ∀ goal, (2, goal) ∉ leaning.board.recalled leaning.chain leaning.forest 0 ⟨"Parse", 1⟩ := by
  refine ⟨reachable_postParsing idle _, by decide +kernel, by decide +kernel, by decide +kernel,
    by decide +kernel, fun goal hmem ↦ ?_⟩
  have hlisted : (leaning.board.recalled leaning.chain leaning.forest 0 ⟨"Parse", 1⟩).map
      Prod.fst = [1] := by decide +kernel
  have hfst := List.mem_map_of_mem (f := Prod.fst) hmem
  rw [hlisted] at hfst
  exact absurd hfst (by simp)

end Controller

end Rollout
