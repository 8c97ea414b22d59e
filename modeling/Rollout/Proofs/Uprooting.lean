import Rollout.Proofs.ForestShape

/-!
Uprooting a tree. The slots of the tree are emptied in tree order and become the free slots that are
handed out next, the last one first; every other unit and every other tree stays as it is. A forest
that was sound stays sound.
-/

set_option autoImplicit false
set_option relaxedAutoImplicit false

namespace Rollout.Forest

variable {β : Type} {f : Forest β} {h root : Handle}

theorem get?_clear (f : Forest β) (hs : List Handle) (h : Handle) :
    (f.clear hs).2.get? h = if h ∈ hs then none else f.get? h := by
  induction hs generalizing f with
  | nil => rfl
  | cons k hs ih =>
    unfold clear
    cases hk : f.get? k with
    | none =>
      simp only
      rw [ih]
      by_cases heq : h = k
      · subst heq
        simp [hk]
      · simp [heq]
    | some u =>
      simp only
      rw [ih]
      have hset : ∀ other, (⟨f.slots.set k none, k :: f.free⟩ : Forest β).get? other =
          if other = k then none else f.get? other := by
        intro other
        unfold get?
        by_cases heq : other = k
        · subst heq
          rw [if_pos rfl, List.getElem?_set]
          simp
          split <;> rfl
        · rw [if_neg heq, List.getElem?_set_ne (Ne.symm heq)]
      rw [hset]
      by_cases heq : h = k <;> simp [heq]

theorem length_clear (f : Forest β) (hs : List Handle) :
    (f.clear hs).2.slots.length = f.slots.length := by
  induction hs generalizing f with
  | nil => rfl
  | cons k hs ih =>
    unfold clear
    split
    · exact ih f
    · simp only
      rw [ih, List.length_set]

/-- The units of a list of live handles without repetition are cleared one after another. -/
theorem clear_eq {hs : List Handle} (hnodup : hs.Nodup)
    (hlive : ∀ k ∈ hs, ∃ u, f.get? k = some u) :
    (f.clear hs).1 = (hs.filterMap f.get?).map (fun u ↦ u.name) ∧
      (f.clear hs).2.free = hs.reverse ++ f.free := by
  induction hs generalizing f with
  | nil => exact ⟨rfl, rfl⟩
  | cons k hs ih =>
    obtain ⟨u, hu⟩ := hlive k List.mem_cons_self
    rw [List.nodup_cons] at hnodup
    have hset : ∀ other ∈ hs, (⟨f.slots.set k none, k :: f.free⟩ : Forest β).get? other =
        f.get? other := by
      intro other hother
      have hne : k ≠ other := fun heq ↦ hnodup.1 (heq ▸ hother)
      unfold get?
      rw [List.getElem?_set_ne hne]
    have hih := ih hnodup.2 (f := ⟨f.slots.set k none, k :: f.free⟩) fun other hother ↦ by
      rw [hset other hother]
      exact hlive other (List.mem_cons_of_mem _ hother)
    unfold clear
    rw [hu]
    simp only
    constructor
    · rw [hih.1, List.filterMap_congr hset, List.filterMap_cons_some hu, List.map_cons]
    · rw [hih.2, List.reverse_cons, List.append_assoc]
      rfl

theorem node?_uproot (f : Forest β) (root h : Handle) :
    (f.uproot root).2.node? h = if h ∈ f.tree root then none else f.node? h := by
  unfold node? uproot
  rw [get?_clear]
  split <;> rfl

/-- Uprooting a tree leaves the units that belong to the others. -/
theorem Sound.node?_uproot_iff (sound : f.Sound) {t n : Node} (ht : f.node? root = some t)
    (hkind : t.kind = .topLevel) :
    (f.uproot root).2.node? h = some n ↔ f.node? h = some n ∧ n.top ≠ root := by
  rw [node?_uproot]
  by_cases hh : h ∈ f.tree root
  · obtain ⟨m, hm, htop⟩ := (sound.mem_tree_iff ht hkind).1 hh
    rw [if_pos hh, hm, Option.some_inj]
    constructor
    · exact fun hnone ↦ absurd hnone (by simp)
    · rintro ⟨rfl, hne⟩
      exact absurd htop hne
  · rw [if_neg hh]
    refine ⟨fun hn ↦ ⟨hn, fun htop ↦ hh ?_⟩, And.left⟩
    exact (sound.mem_tree_iff ht hkind).2 ⟨n, hn, htop⟩

/-- What has happened to a forest when the tree on a handle has been uprooted. -/
structure Uprooted (f : Forest β) (root : Handle) (names : List String) (g : Forest β) : Prop where
  sound : g.Sound
  get? : ∀ h, g.get? h = if h ∈ f.tree root then none else f.get? h
  names : names = f.treeNames root

theorem Sound.uprooted (sound : f.Sound) {t : Node} (ht : f.node? root = some t)
    (hkind : t.kind = .topLevel) :
    Uprooted f root (f.uproot root).1 (f.uproot root).2 := by
  obtain ⟨_, hnodup, hmem⟩ := sound.tree_spec ht hkind
  have hlive : ∀ k ∈ f.tree root, ∃ u, f.get? k = some u := by
    intro k hk
    obtain ⟨n, hn, _⟩ := (hmem k).1 hk
    obtain ⟨u, hu, _⟩ := node?_eq_some_iff.1 hn
    exact ⟨u, hu⟩
  obtain ⟨hnames, hfree⟩ := clear_eq hnodup hlive
  have hstay : ∀ {k : Handle} {n : Node}, (f.uproot root).2.node? k = some n ↔
      f.node? k = some n ∧ n.top ≠ root := sound.node?_uproot_iff ht hkind
  refine ⟨⟨?_, ?_, ?_, ?_, ?_, ?_, ?_⟩, get?_clear f _, hnames⟩
  · exact fun hn ↦ sound.id_eq (hstay.1 hn).1
  · exact fun hm hn ↦ sound.name_inj (hstay.1 hm).1 (hstay.1 hn).1
  · show (f.clear (f.tree root)).2.free.Nodup
    rw [hfree, List.nodup_append]
    refine ⟨(List.reverse_perm _).nodup_iff.2 hnodup, sound.free_nodup, fun k hk k' hk' heq ↦ ?_⟩
    obtain ⟨n, hn, _⟩ := (hmem k).1 (List.mem_reverse.1 hk)
    rw [heq, (sound.mem_free.1 hk').2] at hn
    exact absurd hn (by simp)
  · intro k
    show k ∈ (f.clear (f.tree root)).2.free ↔ k < (f.clear (f.tree root)).2.slots.length ∧ _
    rw [hfree, length_clear, List.mem_append, List.mem_reverse, node?_uproot, sound.mem_free]
    by_cases hk : k ∈ f.tree root
    · obtain ⟨n, hn, _⟩ := (hmem k).1 hk
      simp [hk, lt_length_of_node? hn]
    · simp [hk]
  · intro k n hn
    obtain ⟨hn, hne⟩ := hstay.1 hn
    obtain ⟨t', ht', hkind'⟩ := sound.top hn
    exact ⟨t', hstay.2 ⟨ht', fun heq ↦ hne ((sound.top_self ht' hkind').symm.trans heq)⟩, hkind'⟩
  · exact fun ht' hkind' ↦ sound.top_self (hstay.1 ht').1 hkind'
  · intro r t' ht' hkind'
    obtain ⟨ht', hne⟩ := hstay.1 ht'
    obtain ⟨l, hl, hlnodup, hlmem⟩ := sound.spans ht' hkind'
    have htop : r ≠ root := fun heq ↦ hne ((sound.top_self ht' hkind').trans heq)
    refine ⟨l, hl.congr fun k hk ↦ ?_, hlnodup, fun k ↦ ?_⟩
    · obtain ⟨n, hn, hntop⟩ := (hlmem k).1 hk
      rw [hn]
      exact hstay.2 ⟨hn, fun heq ↦ htop (hntop.symm.trans heq)⟩
    · rw [hlmem]
      constructor
      · rintro ⟨n, hn, hntop⟩
        exact ⟨n, hstay.2 ⟨hn, fun heq ↦ htop (hntop.symm.trans heq)⟩, hntop⟩
      · rintro ⟨n, hn, hntop⟩
        exact ⟨n, (hstay.1 hn).1, hntop⟩

end Rollout.Forest
