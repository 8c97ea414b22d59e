import Mathlib.Data.List.Perm.Subperm
import Mathlib.Tactic.Common
import Rollout.Forest

/-!
The shape of a forest. Its shape is the place of every unit, without what is done to the units, and
the free slots; trees, names and handles can be read off the shape alone. A forest is sound if every
unit knows its own slot, names are unique, the free slots are the empty ones, and the tree on a
top-level unit lists, each once, the units whose top it is.
-/

set_option autoImplicit false
set_option relaxedAutoImplicit false

namespace Rollout.Forest

variable {β : Type} {f g : Forest β} {h : Handle}

/-- The place of the unit in a slot. -/
def node? (f : Forest β) (h : Handle) : Option Node := (f.get? h).map LiveUnit.toNode

/-- The places of all units, slot by slot. -/
def skeleton (f : Forest β) : List (Option Node) := f.slots.map (Option.map LiveUnit.toNode)

/-- The same units in the same places, and the same free slots. -/
structure SameShape (f g : Forest β) : Prop where
  skeleton : f.skeleton = g.skeleton
  free : f.free = g.free

theorem SameShape.refl (f : Forest β) : SameShape f f := ⟨rfl, rfl⟩

theorem SameShape.symm (same : SameShape f g) : SameShape g f :=
  ⟨same.skeleton.symm, same.free.symm⟩

theorem SameShape.trans {k : Forest β} (first : SameShape f g) (second : SameShape g k) :
    SameShape f k :=
  ⟨first.skeleton.trans second.skeleton, first.free.trans second.free⟩

theorem node?_eq_skeleton (f : Forest β) (h : Handle) : f.node? h = f.skeleton[h]?.join := by
  unfold node? get? skeleton
  rw [List.getElem?_map]
  rcases f.slots[h]? with _ | (_ | u) <;> rfl

theorem node?_eq_some_iff {n : Node} :
    f.node? h = some n ↔ ∃ u, f.get? h = some u ∧ u.toNode = n := by
  simp [node?]

theorem node?_of_get? {u : LiveUnit β} (hu : f.get? h = some u) : f.node? h = some u.toNode := by
  simp [node?, hu]

theorem get?_eq_none_iff : f.get? h = none ↔ f.node? h = none := by
  simp [node?]

theorem SameShape.node? (same : SameShape f g) (h : Handle) : f.node? h = g.node? h := by
  rw [node?_eq_skeleton, node?_eq_skeleton, same.skeleton]

theorem SameShape.exists_get? (same : SameShape f g) {v : LiveUnit β} (hv : g.get? h = some v) :
    ∃ u, f.get? h = some u ∧ u.toNode = v.toNode :=
  node?_eq_some_iff.1 ((same.node? h).trans (node?_of_get? hv))

theorem SameShape.length (same : SameShape f g) : f.slots.length = g.slots.length := by
  have hlen := congrArg List.length same.skeleton
  simpa [Forest.skeleton] using hlen

/-- Work on a unit that leaves its place alone keeps the shape. -/
theorem sameShape_put {u v : LiveUnit β} (hu : f.get? h = some u) (hv : v.toNode = u.toNode) :
    SameShape f (f.put h v) := by
  refine ⟨?_, rfl⟩
  unfold skeleton put
  have hslot : f.slots[h]? = some (some u) := Option.join_eq_some_iff.1 hu
  obtain ⟨hlt, hat⟩ := List.getElem?_eq_some_iff.1 hslot
  refine List.ext_getElem? fun k ↦ ?_
  rw [List.map_set, List.getElem?_set, List.length_map, if_pos hlt]
  by_cases hk : h = k
  · subst hk
    simp [hlt, hat, hv]
  · rw [if_neg hk]

theorem lt_length_of_node? {n : Node} (hn : f.node? h = some n) : h < f.slots.length := by
  by_contra hge
  obtain ⟨u, hu, _⟩ := node?_eq_some_iff.1 hn
  simp [get?, List.getElem?_eq_none (Nat.le_of_not_lt hge)] at hu

/-! Trees. -/

/-- The units on some handles and all that hang below them, in tree order. -/
inductive Spans (place : Handle → Option Node) : List Handle → List Handle → Prop
  | nil : Spans place [] []
  | cons {h : Handle} {n : Node} {below rest hs : List Handle} :
    place h = some n → Spans place (n.components ++ n.children) below → Spans place hs rest →
      Spans place (h :: hs) (h :: (below ++ rest))

theorem Spans.congr {place other : Handle → Option Node} {hs l : List Handle}
    (spans : Spans place hs l) (same : ∀ h ∈ l, other h = place h) : Spans other hs l := by
  induction spans with
  | nil => exact .nil
  | cons hn _ _ ihBelow ihRest =>
    refine .cons ((same _ List.mem_cons_self).trans hn) (ihBelow fun k hk ↦ ?_)
      (ihRest fun k hk ↦ ?_)
    · exact same k (List.mem_cons_of_mem _ (List.mem_append_left _ hk))
    · exact same k (List.mem_cons_of_mem _ (List.mem_append_right _ hk))

theorem Spans.append {place : Handle → Option Node} {hs ks l m : List Handle}
    (first : Spans place hs l) (second : Spans place ks m) : Spans place (hs ++ ks) (l ++ m) := by
  induction first with
  | nil => exact second
  | cons hn below _ _ ihRest =>
    have hall := Spans.cons hn below ihRest
    simpa [List.append_assoc] using hall

/-- A walk that may go as deep as the tree has units lists the tree. -/
theorem Spans.walk {hs l : List Handle} (spans : Spans f.node? hs l) {depth : Nat}
    (deep : l.length ≤ depth) : hs.flatMap (f.walk depth) = l := by
  induction spans generalizing depth with
  | nil => rfl
  | cons hn _ _ ihBelow ihRest =>
    obtain ⟨u, hu, rfl⟩ := node?_eq_some_iff.1 hn
    simp only [List.length_cons, List.length_append] at deep
    obtain ⟨d, rfl⟩ : ∃ d, depth = d + 1 := ⟨depth - 1, by omega⟩
    rw [List.flatMap_cons, ihRest (by omega)]
    simp only [Forest.walk, hu]
    rw [ihBelow (by omega), List.cons_append]

/-- Where something is spanned, so is each part of it: what hangs below one of its units comes in
one piece. -/
theorem Spans.exists_infix {place : Handle → Option Node} {hs l : List Handle}
    (spans : Spans place hs l) {k : Handle} (hk : k ∈ l) :
    ∃ m, Spans place [k] m ∧ m <:+: l := by
  induction spans with
  | nil => exact absurd hk List.not_mem_nil
  | @cons h _ below rest _ hn hbelow _ ihBelow ihRest =>
    rcases List.mem_cons.1 hk with rfl | hk
    · have hone := Spans.cons hn hbelow .nil
      rw [List.append_nil] at hone
      exact ⟨_, hone, [], rest, by simp⟩
    · rcases List.mem_append.1 hk with hk | hk
      · obtain ⟨m, hm, hinfix⟩ := ihBelow hk
        exact ⟨m, hm, hinfix.trans ⟨[h], rest, by simp⟩⟩
      · obtain ⟨m, hm, hinfix⟩ := ihRest hk
        exact ⟨m, hm, hinfix.trans ⟨h :: below, [], by simp⟩⟩

/-- A tree that lists no unit twice is no deeper than there are slots. -/
theorem Spans.tree_eq {l : List Handle} (spans : Spans f.node? [h] l) (hnodup : l.Nodup) :
    f.tree h = l := by
  have hsub : l ⊆ List.range f.slots.length := fun k hk ↦ by
    obtain ⟨_, hbelow, _⟩ := spans.exists_infix hk
    cases hbelow with
    | cons hn _ _ => exact List.mem_range.2 (lt_length_of_node? hn)
  have hlen := (List.Nodup.subperm hnodup hsub).length_le
  rw [List.length_range] at hlen
  have hwalk := spans.walk hlen
  rwa [List.flatMap_singleton] at hwalk

/-- What a walk lists is live. -/
theorem exists_get?_of_mem_walk {depth : Nat} {r : Handle} (hh : h ∈ f.walk depth r) :
    ∃ u, f.get? h = some u := by
  induction depth generalizing r with
  | zero => exact absurd hh List.not_mem_nil
  | succ depth ih =>
    unfold walk at hh
    cases hu : f.get? r with
    | none =>
      rw [hu] at hh
      exact absurd hh List.not_mem_nil
    | some u =>
      rw [hu] at hh
      rcases List.mem_cons.1 hh with rfl | hh
      · exact ⟨u, hu⟩
      · obtain ⟨k, _, hk⟩ := List.mem_flatMap.1 hh
        exact ih hk

theorem walk_congr (same : ∀ h, f.node? h = g.node? h) (depth : Nat) (h : Handle) :
    f.walk depth h = g.walk depth h := by
  induction depth generalizing h with
  | zero => rfl
  | succ depth ih =>
    have hn := same h
    unfold walk
    unfold node? at hn
    cases hf : f.get? h with
    | none =>
      rw [hf, Option.map_none, eq_comm, Option.map_eq_none_iff] at hn
      rw [hn]
    | some u =>
      rw [hf, Option.map_some, eq_comm, Option.map_eq_some_iff] at hn
      obtain ⟨v, hv, huv⟩ := hn
      have hbelow : v.components ++ v.children = u.components ++ u.children := by rw [huv]
      rw [hv]
      simp only [hbelow, funext ih]

theorem SameShape.tree (same : SameShape f g) (root : Handle) : f.tree root = g.tree root := by
  unfold Forest.tree
  rw [same.length]
  exact walk_congr same.node? _ _

/-- The names of the units of a tree in tree order. -/
def treeNames (f : Forest β) (root : Handle) : List String :=
  (f.treeUnits root).map fun u ↦ u.name

theorem treeUnits_congr {root : Handle} (htree : g.tree root = f.tree root)
    (same : ∀ h ∈ f.tree root, g.get? h = f.get? h) : g.treeUnits root = f.treeUnits root := by
  unfold treeUnits
  rw [htree]
  exact List.filterMap_congr same

/-- What is read off the units of two trees of one shape is the same if it is of each unit. -/
theorem SameShape.map_treeUnits {γ : Type} (same : SameShape f g) {read read' : LiveUnit β → γ}
    {root : Handle} (heach : ∀ h ∈ f.tree root, ∀ u, f.get? h = some u →
      ∃ v, g.get? h = some v ∧ read' v = read u) :
    (g.treeUnits root).map read' = (f.treeUnits root).map read := by
  unfold treeUnits
  rw [List.map_filterMap, List.map_filterMap, ← same.tree]
  refine List.filterMap_congr fun h hh ↦ ?_
  cases hu : f.get? h with
  | none =>
    have hnone := get?_eq_none_iff.1 hu
    rw [same.node?, ← get?_eq_none_iff] at hnone
    rw [hnone]
    rfl
  | some u =>
    obtain ⟨v, hv, hread⟩ := heach h hh u hu
    rw [hv, Option.map_some, Option.map_some, hread]

/-- The names of a tree can be read off the places of its units. -/
theorem treeNames_congr {root : Handle} (htree : g.tree root = f.tree root)
    (same : ∀ h ∈ f.tree root, g.node? h = f.node? h) : g.treeNames root = f.treeNames root := by
  have hread : ∀ k : Forest β, k.treeNames root =
      (k.tree root).filterMap fun h ↦ (k.node? h).map Node.name := fun k ↦ by
    unfold treeNames treeUnits node?
    rw [List.map_filterMap]
    refine List.filterMap_congr fun h _ ↦ ?_
    rw [Option.map_map]
    rfl
  rw [hread, hread, htree]
  refine List.filterMap_congr fun h hh ↦ ?_
  rw [same h hh]

theorem SameShape.treeNames (same : SameShape f g) (root : Handle) :
    g.treeNames root = f.treeNames root :=
  treeNames_congr (same.tree root).symm fun h _ ↦ (same.node? h).symm

/-! Sound forests. -/

/-- Every unit knows its slot, names are unique, free slots are the empty ones, and the units are
split up into the trees of the top-level ones. -/
structure Sound (f : Forest β) : Prop where
  id_eq : ∀ {h : Handle} {n : Node}, f.node? h = some n → n.id = h
  name_inj : ∀ {h k : Handle} {m n : Node}, f.node? h = some m → f.node? k = some n →
    m.name = n.name → h = k
  free_nodup : f.free.Nodup
  mem_free : ∀ {h : Handle}, h ∈ f.free ↔ h < f.slots.length ∧ f.node? h = none
  top : ∀ {h : Handle} {n : Node}, f.node? h = some n →
    ∃ t, f.node? n.top = some t ∧ t.kind = .topLevel
  top_self : ∀ {r : Handle} {t : Node}, f.node? r = some t → t.kind = .topLevel → t.top = r
  spans : ∀ {r : Handle} {t : Node}, f.node? r = some t → t.kind = .topLevel →
    ∃ l, Spans f.node? [r] l ∧ l.Nodup ∧ ∀ h, h ∈ l ↔ ∃ n, f.node? h = some n ∧ n.top = r

theorem sound_empty : (empty : Forest β).Sound := by
  constructor
  all_goals simp [node?, get?, empty]

theorem Sound.of_sameShape (sound : f.Sound) (same : SameShape f g) : g.Sound := by
  have hnode : g.node? = f.node? := funext fun h ↦ (same.node? h).symm
  constructor
  · rw [hnode]
    exact sound.id_eq
  · rw [hnode]
    exact sound.name_inj
  · rw [← same.free]
    exact sound.free_nodup
  · rw [hnode, ← same.free, ← same.length]
    exact sound.mem_free
  · rw [hnode]
    exact sound.top
  · rw [hnode]
    exact sound.top_self
  · rw [hnode]
    exact sound.spans

/-- The tree on a top-level unit spans it and lists the units whose top it is, each once. -/
theorem Sound.tree_spec (sound : f.Sound) {r : Handle} {t : Node} (ht : f.node? r = some t)
    (hkind : t.kind = .topLevel) :
    Spans f.node? [r] (f.tree r) ∧ (f.tree r).Nodup ∧
      ∀ h, h ∈ f.tree r ↔ ∃ n, f.node? h = some n ∧ n.top = r := by
  obtain ⟨l, hspans, hnodup, hmem⟩ := sound.spans ht hkind
  rw [hspans.tree_eq hnodup]
  exact ⟨hspans, hnodup, hmem⟩

/-- No tree of a sound forest lists a unit twice, whatever handle it is on. -/
theorem Sound.nodup_tree (sound : f.Sound) (root : Handle) : (f.tree root).Nodup := by
  cases hu : f.get? root with
  | none =>
    have hempty : f.tree root = [] := by
      unfold tree
      cases f.slots.length <;> simp [walk, hu]
    rw [hempty]
    exact List.nodup_nil
  | some u =>
    have hn := node?_of_get? hu
    obtain ⟨t, ht, hkind⟩ := sound.top hn
    obtain ⟨hspans, hnodup, hmem⟩ := sound.tree_spec ht hkind
    obtain ⟨m, hm, hinfix⟩ := hspans.exists_infix ((hmem root).2 ⟨_, hn, rfl⟩)
    have hm' : m.Nodup := hnodup.sublist hinfix.sublist
    rw [hm.tree_eq hm']
    exact hm'

theorem Sound.mem_tree_iff (sound : f.Sound) {r : Handle} {t : Node} (ht : f.node? r = some t)
    (hkind : t.kind = .topLevel) :
    h ∈ f.tree r ↔ ∃ n, f.node? h = some n ∧ n.top = r :=
  (sound.tree_spec ht hkind).2.2 h

theorem Sound.root_mem_tree (sound : f.Sound) {r : Handle} {t : Node} (ht : f.node? r = some t)
    (hkind : t.kind = .topLevel) : r ∈ f.tree r :=
  (sound.mem_tree_iff ht hkind).2 ⟨t, ht, sound.top_self ht hkind⟩

/-! Names. -/

theorem SameShape.find? (same : SameShape f g) (name : String) : f.find? name = g.find? name := by
  have hread : ∀ k : Forest β, k.find? name =
      k.skeleton.findIdx? fun slot ↦ slot.any fun n ↦ n.name == name := fun k ↦ by
    unfold Forest.find? Forest.skeleton
    rw [List.findIdx?_map]
    congr 1
    funext slot
    cases slot <;> rfl
  rw [hread, hread, same.skeleton]

theorem find?_eq_none_iff {name : String} :
    f.find? name = none ↔ ∀ h n, f.node? h = some n → n.name ≠ name := by
  unfold find?
  rw [List.findIdx?_eq_none_iff]
  constructor
  · intro hnone h n hn hname
    obtain ⟨u, hu, rfl⟩ := node?_eq_some_iff.1 hn
    have hslot := hnone (some u) (List.mem_iff_getElem?.2 ⟨h, Option.join_eq_some_iff.1 hu⟩)
    simp [hname] at hslot
  · intro hne slot hslot
    obtain ⟨h, hh⟩ := List.mem_iff_getElem?.1 hslot
    cases slot with
    | none => rfl
    | some u =>
      have hu : f.get? h = some u := by simp [get?, hh]
      have hname := hne h _ (node?_of_get? hu)
      simpa using hname

theorem exists_of_find? {name : String} (hfind : f.find? name = some h) :
    ∃ n, f.node? h = some n ∧ n.name = name := by
  unfold find? at hfind
  obtain ⟨hlt, hslot, _⟩ := List.findIdx?_eq_some_iff_getElem.1 hfind
  obtain ⟨u, hu, hname⟩ := Option.any_eq_true _ _ |>.1 hslot
  have hget : f.get? h = some u := by simp [get?, List.getElem?_eq_getElem hlt, hu]
  exact ⟨_, node?_of_get? hget, eq_of_beq hname⟩

theorem Sound.find?_eq_some_iff (sound : f.Sound) {name : String} :
    f.find? name = some h ↔ ∃ n, f.node? h = some n ∧ n.name = name := by
  constructor
  · exact exists_of_find?
  · rintro ⟨n, hn, hname⟩
    cases hfind : f.find? name with
    | none => exact absurd hname (find?_eq_none_iff.1 hfind h n hn)
    | some k =>
      obtain ⟨m, hm, hmname⟩ := exists_of_find? hfind
      rw [sound.name_inj hm hn (hmname.trans hname.symm)]

theorem Sound.byName?_eq_some_iff (sound : f.Sound) {name : String} {u : LiveUnit β} :
    f.byName? name = some u ↔ ∃ h, f.get? h = some u ∧ u.name = name := by
  unfold byName?
  rw [Option.bind_eq_some_iff]
  constructor
  · rintro ⟨h, hfind, hu⟩
    obtain ⟨n, hn, hname⟩ := exists_of_find? hfind
    rw [node?_of_get? hu, Option.some_inj] at hn
    exact ⟨h, hu, hn ▸ hname⟩
  · rintro ⟨h, hu, hname⟩
    exact ⟨h, sound.find?_eq_some_iff.2 ⟨_, node?_of_get? hu, hname⟩, hu⟩

theorem Sound.topLevel?_eq_some_iff (sound : f.Sound) {name : String} :
    f.topLevel? name = some h ↔
      ∃ n, f.node? h = some n ∧ n.name = name ∧ n.kind = .topLevel := by
  unfold topLevel?
  rw [Option.filter_eq_some_iff, sound.find?_eq_some_iff]
  constructor
  · rintro ⟨⟨n, hn, hname⟩, hkind⟩
    obtain ⟨u, hu, rfl⟩ := node?_eq_some_iff.1 hn
    exact ⟨_, hn, hname, by simpa [hu] using hkind⟩
  · rintro ⟨n, hn, hname, hkind⟩
    obtain ⟨u, hu, rfl⟩ := node?_eq_some_iff.1 hn
    exact ⟨⟨_, hn, hname⟩, by simpa [hu] using hkind⟩

end Rollout.Forest
