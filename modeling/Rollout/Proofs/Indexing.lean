import Rollout.Proofs.Grove

/-!
The index of a grove. The index of a grove has each name once. It finds what a search of the slots
finds when it starts, each name that is planted is entered with its slot, and each name of a tree
that is uprooted leaves. So a grove plants and uproots what its forest plants and uproots, and its
index goes on finding what a search finds.
-/

set_option autoImplicit false
set_option relaxedAutoImplicit false

namespace Rollout

namespace Forest

variable {β : Type} {f g : Forest β} {b : Blueprint} {root : Handle} {name : String}

theorem Sound.proper (sound : f.Sound) : f.stock.Proper :=
  ⟨sound.free_nodup, fun _ hh ↦ (sound.mem_free.1 hh).1⟩

/-- A search finds the same in two forests that agree on the units of a name. -/
theorem Sound.find?_congr (sound : f.Sound) (sound' : g.Sound)
    (same : ∀ h n, n.name = name → (g.node? h = some n ↔ f.node? h = some n)) :
    g.find? name = f.find? name := by
  refine Option.ext fun h ↦ ?_
  rw [sound'.find?_eq_some_iff, sound.find?_eq_some_iff]
  refine exists_congr fun n ↦ ?_
  constructor
  · rintro ⟨hn, hname⟩
    exact ⟨(same h n hname).1 hn, hname⟩
  · rintro ⟨hn, hname⟩
    exact ⟨(same h n hname).2 hn, hname⟩

theorem Planted.find?_of_notMem (planted : Planted f b root g) (sound : f.Sound)
    (hname : name ∉ b.names) : g.find? name = f.find? name := by
  refine sound.find?_congr planted.sound fun h n heq ↦ ⟨fun hn ↦ ?_, planted.node?⟩
  obtain ⟨u, hu, rfl⟩ := node?_eq_some_iff.1 hn
  rcases planted.fresh hu with hold | ⟨-, -, hmem, -⟩
  · exact node?_of_get? hold
  · exact absurd (heq ▸ hmem) hname

theorem mem_treeNames_iff : name ∈ f.treeNames root ↔
    ∃ h ∈ f.tree root, ∃ n, f.node? h = some n ∧ n.name = name := by
  unfold treeNames treeUnits
  simp only [List.mem_map, List.mem_filterMap, node?_eq_some_iff]
  constructor
  · rintro ⟨u, ⟨h, hh, hu⟩, rfl⟩
    exact ⟨h, hh, _, ⟨u, hu, rfl⟩, rfl⟩
  · rintro ⟨h, hh, _, ⟨u, hu, rfl⟩, rfl⟩
    exact ⟨u, ⟨h, hh, hu⟩, rfl⟩

/-- Once a tree has been uprooted, a search finds all names but those of the tree. -/
theorem Sound.find?_uproot (sound : f.Sound) {t : Node} (ht : f.node? root = some t)
    (hkind : t.kind = .topLevel) :
    (f.uproot root).2.find? name =
      if name ∈ f.treeNames root then none else f.find? name := by
  have hsound := (sound.uprooted ht hkind).sound
  split
  · next hmem =>
    obtain ⟨h, hh, n, hn, hname⟩ := mem_treeNames_iff.1 hmem
    refine find?_eq_none_iff.2 fun k m hm heq ↦ ?_
    rw [node?_uproot] at hm
    split at hm
    · exact absurd hm (by simp)
    · next hk => exact hk (sound.name_inj hn hm (hname.trans heq.symm) ▸ hh)
  · next hmem =>
    refine sound.find?_congr hsound fun h n heq ↦ ?_
    rw [node?_uproot]
    split
    · next hh =>
      refine ⟨fun hnone ↦ absurd hnone (by simp), fun hn ↦ ?_⟩
      exact absurd (mem_treeNames_iff.2 ⟨h, hh, n, hn, heq⟩) hmem
    · exact Iff.rfl

end Forest

namespace Grove

variable {β : Type} {a : Grove β} {b : Blueprint} {root : Handle} {name : String}

/-- The index finds what a search of the slots finds. -/
def Indexed (a : Grove β) : Prop := ∀ name, a.slotOf? name = a.find? name

theorem indexed_empty : (empty : Grove β).Indexed := fun _ ↦ rfl

theorem lookup_foldl_insert_of_notMem {us : List (LiveUnit β)}
    {index : AList fun _ : String ↦ Handle} (hname : name ∉ us.map fun u ↦ u.name) :
    (us.foldl (fun index u ↦ index.insert u.name u.id) index).lookup name = index.lookup name := by
  induction us generalizing index with
  | nil => rfl
  | cons u us ih =>
    rw [List.map_cons, List.mem_cons, not_or] at hname
    rw [List.foldl_cons, ih hname.2, AList.lookup_insert_ne hname.1]

theorem lookup_foldl_insert_of_mem {us : List (LiveUnit β)}
    {index : AList fun _ : String ↦ Handle} (hnodup : (us.map fun u ↦ u.name).Nodup)
    {u : LiveUnit β} (hu : u ∈ us) :
    (us.foldl (fun index u ↦ index.insert u.name u.id) index).lookup u.name = some u.id := by
  induction us generalizing index with
  | nil => cases hu
  | cons v us ih =>
    rw [List.map_cons, List.nodup_cons] at hnodup
    rw [List.foldl_cons]
    rcases List.mem_cons.1 hu with rfl | hu
    · rw [lookup_foldl_insert_of_notMem hnodup.1, AList.lookup_insert]
    · exact ih hnodup.2 hu

/-! Planting. -/

/-- A grove takes in the trees that its forest takes in, and plants them as its forest does. -/
theorem plant_eq (indexed : a.Indexed) (sound : a.toForest.Sound) (b : Blueprint) :
    a.plant b = match a.toForest.plant b with
      | .error fault => (.error fault, a)
      | .ok (root, _) => (.ok root, a.settle (a.layout b)) := by
  have hsame : (fun n ↦ (a.slotOf? n).isSome) = fun n ↦ (a.find? n).isSome :=
    funext fun n ↦ by rw [indexed n]
  unfold plant Forest.plant
  rw [hsame]
  cases NameFault.first? (fun n ↦ (a.find? n).isSome) [] b.names with
  | some fault => rfl
  | none =>
    simp only [insert_eq a rfl sound.proper]
    rfl

theorem plant_of_error (indexed : a.Indexed) (sound : a.toForest.Sound) {fault : NameFault}
    (hplant : a.toForest.plant b = .error fault) : a.plant b = (.error fault, a) := by
  rw [plant_eq indexed sound, hplant]

theorem plant_of_ok (indexed : a.Indexed) (sound : a.toForest.Sound) {g : Forest β}
    (hplant : a.toForest.plant b = .ok (root, g)) :
    (a.plant b).1 = .ok root ∧ (a.plant b).2.toForest = g ∧ (a.plant b).2.Indexed := by
  rw [plant_eq indexed sound, hplant]
  have hplanted := sound.planted hplant
  obtain ⟨rfl, rfl, -, hnodup⟩ := Forest.plant_eq_ok hplant
  refine ⟨rfl, rfl, fun name ↦ ?_⟩
  have hlaid := sound.laid b
  by_cases hname : name ∈ b.names
  · rw [← hlaid.names] at hname hnodup
    obtain ⟨u, hu, rfl⟩ := List.mem_map.1 hname
    have hfind : (a.toForest.settle (a.layout b)).find? u.name = some u.id :=
      hplanted.sound.find?_eq_some_iff.2 ⟨_, hlaid.node?_of_mem hu, rfl⟩
    exact (lookup_foldl_insert_of_mem hnodup hu).trans hfind.symm
  · have hfind : (a.toForest.settle (a.layout b)).find? name = a.find? name :=
      hplanted.find?_of_notMem sound hname
    rw [← hlaid.names] at hname
    exact (lookup_foldl_insert_of_notMem hname).trans ((indexed name).trans hfind.symm)

/-! Uprooting. -/

theorem clear_toForest (a : Grove β) (hs : List Handle) :
    (a.clear hs).1 = (a.toForest.clear hs).1 ∧
      (a.clear hs).2.toForest = (a.toForest.clear hs).2 := by
  induction hs generalizing a with
  | nil => exact ⟨rfl, rfl⟩
  | cons h hs ih =>
    unfold clear Forest.clear
    cases a.get? h with
    | none => exact ih a
    | some u =>
      obtain ⟨hnames, hforest⟩ :=
        ih { slots := a.slots.set h none, free := h :: a.free, index := a.index.erase u.name }
      exact ⟨congrArg (u.name :: ·) hnames, hforest⟩

/-- Exactly the names that are given leave the index. -/
theorem slotOf?_clear (a : Grove β) (hs : List Handle) (name : String) :
    (a.clear hs).2.slotOf? name = if name ∈ (a.clear hs).1 then none else a.slotOf? name := by
  induction hs generalizing a with
  | nil => rfl
  | cons h hs ih =>
    unfold clear
    cases a.get? h with
    | none => exact ih a
    | some u =>
      simp only
      rw [ih]
      unfold slotOf?
      by_cases hname : name = u.name
      · subst hname
        simp [AList.lookup_erase]
      · simp [hname, AList.lookup_erase_ne hname]

theorem uproot_toForest (a : Grove β) (root : Handle) :
    (a.uproot root).1 = (a.toForest.uproot root).1 ∧
      (a.uproot root).2.toForest = (a.toForest.uproot root).2 :=
  a.clear_toForest (a.tree root)

theorem Indexed.uproot (indexed : a.Indexed) (sound : a.toForest.Sound) {t : Node}
    (ht : a.node? root = some t) (hkind : t.kind = .topLevel) : (a.uproot root).2.Indexed := by
  obtain ⟨hnames, hforest⟩ := a.uproot_toForest root
  intro name
  rw [hforest, sound.find?_uproot ht hkind, ← (sound.uprooted ht hkind).names, ← hnames,
    ← indexed name]
  exact a.slotOf?_clear _ _

end Grove

end Rollout
