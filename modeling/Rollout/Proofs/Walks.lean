import Rollout.Board
import Rollout.Proofs.Tables

/-!
Walks along a chain. Going up, a walk tells the stages it enters, and going down those it leaves, so
the two are cut out of the row of stages with the same bounds and read in opposite directions. The
board takes single steps only. It takes each step of a walk in turn, and comes out where the walk
leads; of all stages of a chain it goes to no other than a neighbour of the one where it is.
-/

set_option autoImplicit false
set_option relaxedAutoImplicit false

namespace Rollout

namespace Chain

variable {c : Chain} {s t start mid goal : Stage}

theorem path?_table (c : Chain) (start goal : Stage) :
    c.table.path? start goal = c.path? start goal := by
  have hlen : c.table.stages.length = c.size := c.length_stages
  unfold Table.path? Table.slice? path?
  rw [hlen]
  by_cases hout : c.size ≤ max start.index goal.index
  · rw [if_pos hout]
    split
    · rw [if_neg (by omega)]
    · rw [if_neg (by omega)]
      rfl
  · rw [if_neg hout]
    split
    · rw [if_pos (by omega)]
      rfl
    · rw [if_pos (by omega)]
      rfl

/-! Pieces of a chain. -/

/-- The stages above one place, up to another. -/
def above (c : Chain) (i j : Nat) : List Stage := (c.stages.take (j + 1)).drop (i + 1)

theorem above_eq (c : Chain) (i j : Nat) : c.above i j = (c.stages.drop (i + 1)).take (j - i) := by
  rw [above, List.drop_take, Nat.add_sub_add_right]

theorem above_self (c : Chain) (i : Nat) : c.above i i = [] := by
  rw [above_eq, Nat.sub_self, List.take_zero]

theorem above_append {i j k : Nat} (hij : i ≤ j) (hjk : j ≤ k) :
    c.above i j ++ c.above j k = c.above i k := by
  have hsplit : k - i = (j - i) + (k - j) := by omega
  have hstart : i + 1 + (j - i) = j + 1 := by omega
  rw [above_eq, above_eq, above_eq, hsplit, List.take_add, List.drop_drop, hstart]

theorem length_above {i j : Nat} (hj : j < c.size) : (c.above i j).length = j - i := by
  rw [above_eq, List.length_take, List.length_drop, length_stages]
  omega

theorem above_next (ht : c.contains t = true) {i : Nat} (hi : t.index = i + 1) :
    c.above i (i + 1) = [t] := by
  have hget : c.stages[i + 1]? = some t := by
    rw [getElem?_stages, at?_eq_some_iff, ← hi]
    exact ⟨rfl, contains_iff.1 ht⟩
  obtain ⟨hlt, heq⟩ := List.getElem?_eq_some_iff.1 hget
  rw [above_eq, Nat.add_sub_cancel_left, ← List.getElem_cons_drop hlt, heq]
  rfl

theorem above_cons (ht : c.contains t = true) {i j : Nat} (hi : t.index = i + 1)
    (hj : t.index ≤ j) : c.above i j = t :: c.above t.index j := by
  rw [hi] at hj ⊢
  rw [← above_append (Nat.le_succ i) hj, above_next ht hi]
  rfl

theorem above_concat (ht : c.contains t = true) {i j : Nat} (hj : t.index = j + 1) (hi : i ≤ j) :
    c.above i t.index = c.above i j ++ [t] := by
  rw [hj, ← above_append hi (Nat.le_succ j), above_next ht hj]

theorem mem_above {i j : Nat} (hs : s ∈ c.above i j) : c.contains s = true ∧ i < s.index := by
  have htake := List.mem_of_mem_drop hs
  refine ⟨mem_stages_iff.1 (List.mem_of_mem_take htake), ?_⟩
  rw [above_eq] at hs
  exact le_index_of_mem_drop (List.mem_of_mem_take hs)

theorem path?_up (hle : start.index ≤ goal.index) (hgoal : goal.index < c.size) :
    c.path? start goal = some (c.above start.index goal.index) := by
  unfold path?
  rw [if_neg (by omega)]
  rcases Nat.lt_or_eq_of_le hle with hlt | heq
  · rw [if_pos hlt]
    rfl
  · rw [heq, if_neg (Nat.lt_irrefl _), above_self, ← above, above_self, List.reverse_nil]

theorem path?_down (hle : goal.index ≤ start.index) (hstart : start.index < c.size) :
    c.path? start goal = some (c.above goal.index start.index).reverse := by
  unfold path?
  rw [if_neg (by omega), if_neg (Nat.not_lt.2 hle)]
  rfl

/-- A walk that is broken on its way leads to the same along the same stages. -/
theorem path?_append (hstart : c.contains start = true) (hmid : c.contains mid = true)
    (hgoal : c.contains goal = true)
    (hbetween : start ≤ mid ∧ mid ≤ goal ∨ goal ≤ mid ∧ mid ≤ start) :
    ∃ first rest, c.path? start mid = some first ∧ c.path? mid goal = some rest ∧
      c.path? start goal = some (first ++ rest) := by
  rw [le_iff_index hstart hmid, le_iff_index hmid hgoal, le_iff_index hgoal hmid,
    le_iff_index hmid hstart] at hbetween
  rcases hbetween with ⟨hsm, hmg⟩ | ⟨hgm, hms⟩
  · refine ⟨_, _, path?_up hsm (index_lt_size hmid), path?_up hmg (index_lt_size hgoal), ?_⟩
    rw [above_append hsm hmg]
    exact path?_up (Nat.le_trans hsm hmg) (index_lt_size hgoal)
  · refine ⟨_, _, path?_down hms (index_lt_size hstart), path?_down hgm (index_lt_size hmid), ?_⟩
    rw [← List.reverse_append, above_append hgm hms]
    exact path?_down (Nat.le_trans hgm hms) (index_lt_size hstart)

/-- There is a walk between any two stages, as long as they are apart, and the way back is the same
read from its end. -/
theorem exists_path? (hstart : c.contains start = true) (hgoal : c.contains goal = true) :
    ∃ steps, c.path? start goal = some steps ∧ c.path? goal start = some steps.reverse ∧
      steps.length = ((start.index : Int) - goal.index).natAbs ∧
      ∀ s ∈ steps, start < s ∨ ∃ below, c.prev? s = some below := by
  have hs := index_lt_size hstart
  have hg := index_lt_size hgoal
  rcases Nat.le_total start.index goal.index with hle | hle
  · refine ⟨_, path?_up hle hg, path?_down hle hg, ?_, fun s hmem ↦ ?_⟩
    · rw [length_above hg]
      omega
    · exact Or.inl (Stage.lt_of_index_lt (mem_above hmem).2)
  · refine ⟨_, path?_down hle hs, ?_, ?_, fun s hmem ↦ Or.inr ?_⟩
    · rw [List.reverse_reverse]
      exact path?_up hle hs
    · rw [List.length_reverse, length_above hs]
      omega
    · obtain ⟨hcontains, hlt⟩ := mem_above (List.mem_reverse.1 hmem)
      exact exists_prev? hcontains (Nat.zero_lt_of_lt hlt)

end Chain

/-- A mark on the board: a deployment has gone up into a stage, or down into one. -/
inductive Mark
  | up (stage : Stage)
  | down (stage : Stage)
deriving DecidableEq, Repr

namespace Mark

/-- The stage that a deployment has gone into. -/
def stage : Mark → Stage
  | up stage => stage
  | down stage => stage

/-- The only stage of a chain that can be gone into from a stage, in the direction of a mark. -/
def neighbour? (chain : Chain) (s : Stage) : Mark → Option Stage
  | up _ => chain.next? s
  | down _ => chain.prev? s

/-- Progress with a mark on it. What was waited for is over with a step up. -/
def note (p : Progress) : Mark → Progress
  | up stage => { p with stage, waiting := [] }
  | down stage => { p with stage }

theorem root_note (m : Mark) (p : Progress) : (m.note p).root = p.root := by
  cases m <;> rfl

end Mark

namespace Progress

variable {p : Progress} {t goal : Stage}

/-- The progress at the end of a walk. What was waited for is over with the first step up. -/
def arrived (p : Progress) (goal : Stage) : Progress :=
  { p with stage := goal, waiting := if p.stage.index < goal.index then [] else p.waiting }

theorem arrived_self (p : Progress) : p.arrived p.stage = p := by
  rw [arrived, if_neg (Nat.lt_irrefl _)]

/-- Whoever has taken the first step up arrives as it was to be. -/
theorem arrived_up (ht : t.index = p.stage.index + 1) (hle : t.index ≤ goal.index) :
    arrived { p with stage := t, waiting := [] } goal = p.arrived goal := by
  unfold arrived
  rw [if_pos (show p.stage.index < goal.index by omega), ite_self]

theorem arrived_down (ht : t.index + 1 = p.stage.index) (hle : goal.index ≤ t.index) :
    arrived { p with stage := t } goal = p.arrived goal := by
  unfold arrived
  rw [if_neg (show ¬ t.index < goal.index by omega),
    if_neg (show ¬ p.stage.index < goal.index by omega)]

end Progress

namespace Board

variable {b b₁ b₂ : Board} {c : Chain} {root : Handle} {p p₁ p₂ : Progress} {s start goal : Stage}
  {m : Mark}

/-- Sets a mark on the board. -/
def mark (b : Board) (root : Handle) : Mark → Except BoardFault Board
  | .up stage => b.ascend root stage
  | .down stage => b.descend root stage

/-- Sets a mark in place: tells whether it was set, and what the board is then. -/
def markHere (b : Board) (root : Handle) (m : Mark) : Except BoardFault Unit × Board :=
  match b.mark root m with
  | .ok b' => (.ok (), b')
  | .error fault => (.error fault, b)

/-- All that has changed on a board is the progress of one deployment. -/
structure Moved (b : Board) (root : Handle) (p : Progress) (b' : Board) : Prop where
  self : b'.get? root = some p
  others : ∀ h, h ≠ root → b'.get? h = b.get? h
  order : b'.order = b.order

theorem Moved.refl (h : b.get? root = some p) : b.Moved root p b := ⟨h, fun _ _ ↦ rfl, rfl⟩

theorem Moved.trans (h₁ : b.Moved root p₁ b₁) (h₂ : b₁.Moved root p₂ b₂) : b.Moved root p₂ b₂ :=
  ⟨h₂.self, fun h hne ↦ (h₂.others h hne).trans (h₁.others h hne), h₂.order.trans h₁.order⟩

theorem moved_update {change : Progress → Progress} (keeps : ∀ p, (change p).root = p.root)
    (hp : b.get? root = some p) : b.Moved root (change p) (b.update root change) where
  self := by
    rw [get?_update b root root keeps, if_pos rfl, hp]
    rfl
  others h hne := by rw [get?_update b root h keeps, if_neg hne]
  order := b.order_update root change

/-- A mark can be set if it is on a neighbour of where the deployment is, and on nothing else. -/
theorem mark_eq_ok_iff (hm : c.contains m.stage = true) :
    b.mark root m = .ok b₁ ↔ ∃ p, b.get? root = some p ∧
      m.neighbour? c p.stage = some m.stage ∧ b₁ = b.update root m.note := by
  cases m with
  | up stage =>
    refine ascend_eq_ok_iff.trans (exists_congr fun p ↦ and_congr_right fun _ ↦ ?_)
    exact and_congr_left fun _ ↦ (Chain.next?_iff_index hm).symm
  | down stage =>
    refine descend_eq_ok_iff.trans (exists_congr fun p ↦ and_congr_right fun _ ↦ ?_)
    exact and_congr_left fun _ ↦ (Chain.prev?_iff_index hm).symm

theorem exists_mark (hm : c.contains m.stage = true) (hp : b.get? root = some p)
    (hnext : m.neighbour? c p.stage = some m.stage) :
    ∃ b', b.mark root m = .ok b' ∧ b.Moved root (m.note p) b' :=
  ⟨_, (mark_eq_ok_iff hm).2 ⟨p, hp, hnext, rfl⟩, moved_update m.root_note hp⟩

/-- Step by step up, from wherever the walk has got to by now. -/
theorem exists_follow_up {n : Nat} (hp : b.get? root = some p)
    (hcontains : c.contains p.stage = true) (hgoal : c.contains goal = true)
    (hstart : start.index ≤ p.stage.index) (hn : goal.index = p.stage.index + n) :
    ∃ b', follow c root start (c.above p.stage.index goal.index) b = .ok b' ∧
      b.Moved root (p.arrived goal) b' := by
  induction n generalizing b p with
  | zero =>
    obtain rfl := Chain.eq_of_index_eq hgoal hcontains hn
    rw [Chain.above_self]
    exact ⟨b, rfl, p.arrived_self.symm ▸ .refl hp⟩
  | succ n ih =>
    obtain ⟨t, ht⟩ := Chain.exists_next? hgoal (show p.stage.index < goal.index by omega)
    have htcontains := Chain.contains_of_next? ht
    have hindex := Chain.index_of_next? ht
    have hle : t.index ≤ goal.index := by omega
    obtain ⟨b₁, hmark, hmoved⟩ := exists_mark (m := .up t) htcontains hp ht
    obtain ⟨b₂, hfollow, hrest⟩ := ih hmoved.self htcontains
      (show start.index ≤ t.index by omega) (show goal.index = t.index + n by omega)
    refine ⟨b₂, ?_, Progress.arrived_up hindex hle ▸ hmoved.trans hrest⟩
    rw [Chain.above_cons htcontains hindex hle, follow,
      if_pos (Stage.lt_of_index_lt (by omega)), show b.ascend root t = .ok b₁ from hmark]
    exact hfollow

/-- Step by step down, likewise. -/
theorem exists_follow_down {n : Nat} (hp : b.get? root = some p)
    (hcontains : c.contains p.stage = true) (hgoal : c.contains goal = true)
    (hstart : c.contains start = true) (hle : p.stage.index ≤ start.index)
    (hn : p.stage.index = goal.index + n) :
    ∃ b', follow c root start (c.above goal.index p.stage.index).reverse b = .ok b' ∧
      b.Moved root (p.arrived goal) b' := by
  induction n generalizing b p with
  | zero =>
    obtain rfl := Chain.eq_of_index_eq hcontains hgoal hn
    rw [Chain.above_self]
    exact ⟨b, rfl, p.arrived_self.symm ▸ .refl hp⟩
  | succ n ih =>
    obtain ⟨t, ht⟩ := Chain.exists_prev? hcontains (show 0 < p.stage.index by omega)
    have htcontains := Chain.contains_of_prev? ht
    have hindex := Chain.index_of_prev? ht
    have hlow : goal.index ≤ t.index := by omega
    obtain ⟨b₁, hmark, hmoved⟩ := exists_mark (m := .down t) htcontains hp ht
    obtain ⟨b₂, hfollow, hrest⟩ := ih hmoved.self htcontains
      (show t.index ≤ start.index by omega) (show t.index = goal.index + n by omega)
    refine ⟨b₂, ?_, Progress.arrived_down hindex hlow ▸ hmoved.trans hrest⟩
    have hnot : ¬ start < p.stage := by
      rw [Chain.lt_iff_index hstart hcontains]
      omega
    rw [Chain.above_concat hcontains hindex.symm hlow,
      List.reverse_concat, follow, if_neg hnot, ht,
      show b.descend root ((some t).getD Stage.floor) = .ok b₁ from hmark]
    exact hfollow

/-- The board takes every walk between two stages of a chain. -/
theorem exists_follow (hp : b.get? root = some p) (hstart : c.contains p.stage = true)
    (hgoal : c.contains goal = true) :
    ∃ steps b', c.path? p.stage goal = some steps ∧ follow c root p.stage steps b = .ok b' ∧
      b.Moved root (p.arrived goal) b' := by
  rcases Nat.le_total p.stage.index goal.index with hle | hle
  · obtain ⟨n, hn⟩ := Nat.exists_eq_add_of_le hle
    obtain ⟨b', hfollow, hmoved⟩ := exists_follow_up hp hstart hgoal (Nat.le_refl _) hn
    exact ⟨_, b', Chain.path?_up hle (Chain.index_lt_size hgoal), hfollow, hmoved⟩
  · obtain ⟨n, hn⟩ := Nat.exists_eq_add_of_le hle
    obtain ⟨b', hfollow, hmoved⟩ :=
      exists_follow_down hp hstart hgoal hstart (Nat.le_refl _) hn
    exact ⟨_, b', Chain.path?_down hle (Chain.index_lt_size hstart), hfollow, hmoved⟩

/-- Between any two stages of a chain there is a walk, as long as they are apart. It is cut out of
the row of stages without going beyond its ends, the way back is the same read from its end, and a
walk by way of a stage in between is the walk there and the walk on from there. A deployment on the
board that takes its steps, up into the stages entered and out of the stages left, is refused none
of them and arrives. Of all stages of the chain it can go into its neighbours and no others; a mark
that is refused leaves the board as it is. -/
theorem walks_arrive (c : Chain) (b : Board) (root : Handle) :
    (∀ p goal, b.get? root = some p → c.contains p.stage = true → c.contains goal = true →
      ∃ steps b', c.table.path? p.stage goal = some steps ∧ c.path? p.stage goal = some steps ∧
        steps.length = ((p.stage.index : Int) - goal.index).natAbs ∧
        (∀ s ∈ steps, p.stage < s ∨ ∃ below, c.prev? s = some below) ∧
        follow c root p.stage steps b = .ok b' ∧ b.Moved root (p.arrived goal) b' ∧
        c.path? goal p.stage = some steps.reverse ∧
        ∀ mid, c.contains mid = true →
          (p.stage ≤ mid ∧ mid ≤ goal ∨ goal ≤ mid ∧ mid ≤ p.stage) →
          ∃ first rest, c.path? p.stage mid = some first ∧ c.path? mid goal = some rest ∧
            steps = first ++ rest) ∧
    ∀ m : Mark, c.contains m.stage = true →
      (∀ p, b.get? root = some p → m.neighbour? c p.stage = some m.stage →
        (b.markHere root m).1 = .ok () ∧ b.Moved root (m.note p) (b.markHere root m).2) ∧
      ((∀ p, b.get? root = some p → m.neighbour? c p.stage ≠ some m.stage) →
        ∃ fault, b.markHere root m = (.error fault, b)) := by
  refine ⟨fun p goal hp hstart hgoal ↦ ?_, fun m hm ↦ ⟨fun p hp hnext ↦ ?_, fun hnone ↦ ?_⟩⟩
  · obtain ⟨steps, hpath, hback, hlength, hgrounded⟩ := Chain.exists_path? hstart hgoal
    obtain ⟨_, b', hsame, hfollow, hmoved⟩ := exists_follow hp hstart hgoal
    obtain rfl := Option.some_inj.1 (hpath.symm.trans hsame)
    refine ⟨steps, b', (c.path?_table _ _).trans hpath, hpath, hlength, hgrounded, hfollow, hmoved,
      hback, fun mid hmid hbetween ↦ ?_⟩
    obtain ⟨first, rest, hfirst, hrest, hwhole⟩ := Chain.path?_append hstart hmid hgoal hbetween
    exact ⟨first, rest, hfirst, hrest, Option.some_inj.1 (hpath.symm.trans hwhole)⟩
  · obtain ⟨b', hmark, hmoved⟩ := exists_mark hm hp hnext
    rw [markHere, hmark]
    exact ⟨rfl, hmoved⟩
  · unfold markHere
    cases hmark : b.mark root m with
    | error fault => exact ⟨fault, rfl⟩
    | ok b' =>
      obtain ⟨p, hp, hnext, -⟩ := (mark_eq_ok_iff hm).1 hmark
      exact absurd hnext (hnone p hp)

/-- A chain of four stages, one of which has been put in below another. -/
def stairs : Chain :=
  Chain.base.insertAll [("Fetch", .atEnd), ("Run", .atEnd), ("Test", .before "Run")]

/-- One deployment on its way up. -/
def climber : Progress := ⟨0, "db", ⟨"Fetch", 1⟩, ⟨"Run", 3⟩, none, [], false⟩

/-- One that is as far up as it gets, and has something noted that it waited for. -/
def faller : Progress :=
  ⟨1, "web", ⟨"Run", 3⟩, ⟨"Fetch", 1⟩, none, [⟨"web", "net", ⟨"Run", 3⟩, ⟨"Run", 3⟩, none, false⟩],
    false⟩

/-- A board with the two of them. -/
def landing : Board := ⟨[0, 1], [climber, faller]⟩

theorem walks_arrive_landing :
    ∃ up down,
      follow stairs 0 ⟨"Fetch", 1⟩ [⟨"Test", 2⟩, ⟨"Run", 3⟩] landing = .ok up ∧
      landing.Moved 0 (climber.arrived ⟨"Run", 3⟩) up ∧
      follow stairs 1 ⟨"Run", 3⟩ [⟨"Run", 3⟩, ⟨"Test", 2⟩] landing = .ok down ∧
      landing.Moved 1 (faller.arrived ⟨"Fetch", 1⟩) down ∧
      ∃ fault, landing.markHere 0 (.up ⟨"Run", 3⟩) = (.error fault, landing) := by
  obtain ⟨hclimb, hmarks⟩ := walks_arrive stairs landing 0
  obtain ⟨hfall, -⟩ := walks_arrive stairs landing 1
  obtain ⟨ups, up, -, hups, -, -, hfollow, hmoved, -⟩ :=
    hclimb climber ⟨"Run", 3⟩ rfl (by decide +kernel) (by decide +kernel)
  obtain ⟨downs, down, -, hdowns, -, -, hfollow', hmoved', -⟩ :=
    hfall faller ⟨"Fetch", 1⟩ rfl (by decide +kernel) (by decide +kernel)
  obtain rfl : ups = [⟨"Test", 2⟩, ⟨"Run", 3⟩] :=
    Option.some_inj.1 (hups.symm.trans (by decide +kernel))
  obtain rfl : downs = [⟨"Run", 3⟩, ⟨"Test", 2⟩] :=
    Option.some_inj.1 (hdowns.symm.trans (by decide +kernel))
  refine ⟨up, down, hfollow, hmoved, hfollow', hmoved', ?_⟩
  refine (hmarks (.up ⟨"Run", 3⟩) (by decide +kernel)).2 fun p hp ↦ ?_
  obtain rfl : climber = p := Option.some_inj.1 hp
  decide +kernel

end Board

end Rollout
