import Mathlib.Tactic.Common
import Rollout.Stage.Chain

/-!
The order of the stages of one chain. Between stages that belong to a chain the order is the order
of their places, and a place determines its stage. Whatever a chain hands out, by place, by name, as
a neighbour or as the stage that another one stands for, belongs to it.
-/

set_option autoImplicit false
set_option relaxedAutoImplicit false

namespace Rollout.Chain

variable {c : Chain} {s t : Stage}

theorem contains_iff : c.contains s = true ↔ c.names[s.index]? = some s.name := by
  unfold contains
  rw [beq_iff_eq, at?_eq_some_iff]
  exact and_iff_right rfl

theorem index_lt_size (hs : c.contains s = true) : s.index < c.size :=
  (List.getElem?_eq_some_iff.1 (contains_iff.1 hs)).1

theorem contains_of_at? {i : Nat} (h : c.at? i = some s) : c.contains s = true := by
  obtain ⟨rfl, hname⟩ := at?_eq_some_iff.1 h
  exact contains_iff.2 hname

theorem contains_of_find? {name : String} (h : c.find? name = some s) :
    c.contains s = true := by
  obtain ⟨i, hi, rfl⟩ := Option.map_eq_some_iff.1 h
  rw [contains_iff]
  obtain ⟨hlt, hname, _⟩ := List.idxOf?_eq_some_iff.1 hi
  exact List.getElem?_eq_some_iff.2 ⟨hlt, hname⟩

theorem contains_of_resolve? (h : c.resolve? s = some t) : c.contains t = true := by
  unfold resolve? at h
  split at h
  · next hself =>
    cases h
    exact contains_of_at? hself
  · exact contains_of_find? h

theorem contains_of_next? (h : c.next? s = some t) : c.contains t = true :=
  contains_of_at? h

theorem contains_of_prev? (h : c.prev? s = some t) : c.contains t = true := by
  unfold prev? at h
  split at h
  · exact absurd h (by simp)
  · exact contains_of_at? h

theorem contains_floor (c : Chain) : c.contains Stage.floor = true := by
  rw [contains_iff]
  have hfirst := c.floor_first
  rw [List.head?_eq_getElem?] at hfirst
  exact hfirst

/-- A stage of a chain is the only one at its place. -/
theorem eq_of_index_eq (hs : c.contains s = true) (ht : c.contains t = true)
    (h : s.index = t.index) : s = t := by
  have hname := contains_iff.1 hs
  rw [h, contains_iff.1 ht] at hname
  cases s
  cases t
  simp_all

theorem le_iff_index (hs : c.contains s = true) (ht : c.contains t = true) :
    s ≤ t ↔ s.index ≤ t.index := by
  constructor
  · exact Stage.index_le_of_le
  · intro hle hlt
    rcases hlt with hlt | ⟨heq, hlt⟩
    · omega
    · have hsame := eq_of_index_eq ht hs heq
      rw [hsame] at hlt
      exact (String.lt_irrefl _) hlt

theorem lt_iff_index (hs : c.contains s = true) (ht : c.contains t = true) :
    s < t ↔ s.index < t.index := by
  have hle := le_iff_index ht hs
  constructor
  · intro hlt
    by_contra hge
    exact hle.2 (Nat.le_of_not_lt hge) hlt
  · exact Stage.lt_of_index_lt

theorem exists_next? (ht : c.contains t = true) (h : s.index < t.index) :
    ∃ next, c.next? s = some next := by
  have hlen := (List.getElem?_eq_some_iff.1 (contains_iff.1 ht)).1
  have hlt : s.index + 1 < c.names.length := by omega
  refine ⟨⟨c.names[s.index + 1], s.index + 1⟩, ?_⟩
  unfold next?
  rw [at?_eq_some_iff]
  exact ⟨rfl, List.getElem?_eq_getElem hlt⟩

theorem exists_prev? (hs : c.contains s = true) (h : 0 < s.index) :
    ∃ below, c.prev? s = some below := by
  have hlen := (List.getElem?_eq_some_iff.1 (contains_iff.1 hs)).1
  obtain ⟨i, hi⟩ := Nat.exists_eq_succ_of_ne_zero (Nat.ne_of_gt h)
  have hlt : i < c.names.length := by omega
  refine ⟨⟨c.names[i], i⟩, ?_⟩
  unfold prev?
  rw [hi]
  exact at?_eq_some_iff.2 ⟨rfl, List.getElem?_eq_getElem hlt⟩

theorem next?_iff_index (ht : c.contains t = true) :
    c.next? s = some t ↔ t.index = s.index + 1 := by
  constructor
  · exact index_of_next?
  · intro h
    exact at?_eq_some_iff.2 ⟨h, h ▸ contains_iff.1 ht⟩

theorem prev?_iff_index (ht : c.contains t = true) :
    c.prev? s = some t ↔ t.index + 1 = s.index := by
  constructor
  · exact index_of_prev?
  · intro h
    unfold prev?
    rw [← h]
    exact at?_eq_some_iff.2 ⟨rfl, contains_iff.1 ht⟩

/-! Stages found by name. -/

theorem find?_eq_some_iff {name : String} :
    c.find? name = some s ↔ c.contains s = true ∧ s.name = name := by
  constructor
  · intro h
    refine ⟨contains_of_find? h, ?_⟩
    obtain ⟨i, -, rfl⟩ := Option.map_eq_some_iff.1 h
    rfl
  · rintro ⟨hs, rfl⟩
    obtain ⟨hlt, hname⟩ := List.getElem?_eq_some_iff.1 (contains_iff.1 hs)
    refine Option.map_eq_some_iff.2 ⟨s.index, List.idxOf?_eq_some_iff.2 ⟨hlt, hname, ?_⟩, rfl⟩
    intro j hj heq
    exact List.pairwise_iff_getElem.1 c.nodup j s.index (Nat.lt_trans hj hlt) hlt hj
      (heq.trans hname.symm)

/-- A stage of a chain is the only one of its name. -/
theorem eq_of_name_eq (hs : c.contains s = true) (ht : c.contains t = true)
    (h : s.name = t.name) : s = t := by
  have hfound : c.find? t.name = some s := find?_eq_some_iff.2 ⟨hs, h⟩
  rw [find?_eq_some_iff.2 ⟨ht, rfl⟩] at hfound
  exact (Option.some_inj.1 hfound).symm

theorem isFloor_iff (hs : c.contains s = true) : s.isFloor = true ↔ s.name = Stage.floor.name := by
  constructor
  · intro h
    exact congrArg Stage.name (eq_of_index_eq hs c.contains_floor (beq_iff_eq.1 h))
  · intro h
    rw [eq_of_name_eq hs c.contains_floor h]
    rfl

/-- Looking at the place of a stage first makes no difference: no other place has its name. -/
theorem resolve?_eq_find? (c : Chain) (s : Stage) : c.resolve? s = c.find? s.name := by
  unfold resolve?
  split
  · next hself => exact (find?_eq_some_iff.2 ⟨contains_of_at? hself, rfl⟩).symm
  · rfl

theorem resolve?_eq_some_iff : c.resolve? s = some t ↔ c.contains t = true ∧ t.name = s.name := by
  rw [resolve?_eq_find?, find?_eq_some_iff]

/-- A chain knows a stage if and only if it has one of its name. -/
theorem isSome_resolve?_iff : (c.resolve? s).isSome = true ↔ s.name ∈ c.names := by
  rw [resolve?_eq_find?, find?, Option.isSome_map, List.isSome_idxOf?]

/-! The list of all stages. -/

theorem getElem?_stages (c : Chain) (i : Nat) : c.stages[i]? = c.at? i := by
  unfold stages at?
  rw [List.getElem?_mapIdx]

theorem mem_stages_iff : s ∈ c.stages ↔ c.contains s = true := by
  rw [List.mem_iff_getElem?, contains_iff]
  constructor
  · rintro ⟨i, hi⟩
    rw [getElem?_stages, at?_eq_some_iff] at hi
    obtain ⟨rfl, hname⟩ := hi
    exact hname
  · intro hname
    refine ⟨s.index, ?_⟩
    rw [getElem?_stages, at?_eq_some_iff]
    exact ⟨rfl, hname⟩

/-- A stage comes after those below it and before those above it. -/
theorem stages_eq (hs : c.contains s = true) :
    c.stages = c.stages.take s.index ++ s :: c.stages.drop (s.index + 1) := by
  have hget : c.stages[s.index]? = some s := by
    rw [getElem?_stages, at?_eq_some_iff]
    exact ⟨rfl, contains_iff.1 hs⟩
  obtain ⟨hlt, heq⟩ := List.getElem?_eq_some_iff.1 hget
  conv_lhs => rw [← List.take_append_drop s.index c.stages, ← List.getElem_cons_drop hlt, heq]

theorem index_lt_of_mem_take {i : Nat} (ht : t ∈ c.stages.take i) : t.index < i := by
  obtain ⟨j, hj⟩ := List.mem_iff_getElem?.1 ht
  rw [List.getElem?_take] at hj
  split at hj
  · rw [getElem?_stages, at?_eq_some_iff] at hj
    omega
  · exact absurd hj (by simp)

theorem le_index_of_mem_drop {i : Nat} (ht : t ∈ c.stages.drop i) : i ≤ t.index := by
  obtain ⟨j, hj⟩ := List.mem_iff_getElem?.1 ht
  rw [List.getElem?_drop, getElem?_stages, at?_eq_some_iff] at hj
  omega

end Rollout.Chain
