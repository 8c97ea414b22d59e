import Mathlib.Order.Bounds.Basic
import Rollout.Proofs.Indexing
import Rollout.Proofs.Links

/-!
Tending a grove. Trees are planted in a grove, or refused, and trees are uprooted, one after
another. Whatever is done, units know their slots, the index leads from names to slots and back, the
free slots are the empty ones, links agree and lead in no circle, and the trees list each live unit
once. New slots are made only when all others are taken, so there are never more slots than there
once were live units.
-/

set_option autoImplicit false
set_option relaxedAutoImplicit false

namespace Rollout

/-- Something done to a forest: a tree is brought to it, or the tree on a handle is taken out. -/
inductive Chore
  | plant (b : Blueprint)
  | uproot (root : Handle)

namespace Forest

variable {β : Type} {f g : Forest β} {h : Handle} {c : Chore}

/-- The forest after a chore. A tree that is refused changes nothing. -/
def tend (f : Forest β) : Chore → Forest β
  | .plant b =>
    match f.plant b with
    | .ok (_, g) => g
    | .error _ => f
  | .uproot root => (f.uproot root).2

/-- Any tree may be brought, but only the tree of a live top-level unit may be taken out. -/
def Admits (f : Forest β) : Chore → Prop
  | .plant _ => True
  | .uproot root => ∃ u, f.get? root = some u ∧ u.kind = .topLevel

instance decidableAdmits (f : Forest β) : (c : Chore) → Decidable (f.Admits c)
  | .plant _ => isTrue trivial
  | .uproot root =>
    decidable_of_iff ((f.get? root).any (fun u ↦ u.kind == .topLevel) = true)
      (by simp [Admits, Option.any_eq_true])

theorem tend_of_ok {b : Blueprint} {root : Handle} (hplant : f.plant b = .ok (root, g)) :
    f.tend (.plant b) = g := by
  simp only [tend, hplant]

theorem tend_of_error {b : Blueprint} {fault : NameFault} (hplant : f.plant b = .error fault) :
    f.tend (.plant b) = f := by
  simp only [tend, hplant]

/-! How many units there are. -/

theorem slots_eq (f : Forest β) : f.slots = (List.range f.slots.length).map f.get? := by
  refine List.ext_getElem (by simp) fun h hlt _ ↦ ?_
  simp [get?, hlt]

theorem units_eq (f : Forest β) : f.units = (List.range f.slots.length).filterMap f.get? := by
  conv_lhs => rw [units, slots_eq f]
  rw [List.filterMap_map]
  rfl

/-- Every slot has a unit or is free. -/
theorem Sound.size_add_free (sound : f.Sound) : f.size + f.free.length = f.slots.length := by
  have hperm : f.free.Perm ((List.range f.slots.length).filter fun h ↦ ¬(f.get? h).isSome) := by
    refine (List.perm_ext_iff_of_nodup sound.free_nodup (List.nodup_range.filter _)).2 fun h ↦ ?_
    simp [sound.mem_free, ← get?_eq_none_iff]
  have hsplit : (List.range f.slots.length).length = _ :=
    List.length_eq_countP_add_countP fun h ↦ (f.get? h).isSome
  rw [List.length_range] at hsplit
  rw [size, units_eq, List.length_filterMap_eq_countP, hperm.length_eq,
    ← List.countP_eq_length_filter]
  exact hsplit.symm

theorem size_le_length (f : Forest β) : f.size ≤ f.slots.length :=
  List.length_filterMap_le _ _

theorem Sound.nodup_names (sound : f.Sound) : (f.units.map fun u ↦ u.name).Nodup := by
  rw [units_eq, List.map_filterMap]
  refine List.nodup_range.filterMap fun h k name hh hk ↦ ?_
  simp only [Option.mem_def, Option.map_eq_some_iff] at hh hk
  obtain ⟨u, hu, rfl⟩ := hh
  obtain ⟨v, hv, hname⟩ := hk
  exact sound.name_inj (node?_of_get? hu) (node?_of_get? hv) hname.symm

/-- A tree takes new slots only if no slot stays free. -/
theorem Sound.length_planted (sound : f.Sound) {b : Blueprint} {root : Handle}
    (hplant : f.plant b = .ok (root, g)) : f.slots.length ≤ g.slots.length ∧
      (g.slots.length = f.slots.length ∨ g.slots.length = g.size) := by
  have hsum := (sound.planted hplant).sound.size_add_free
  obtain ⟨rfl, rfl, -⟩ := plant_eq_ok hplant
  have hlen := length_settle_layout f b
  have hfree : (f.settle (f.layout b)).free = f.free.drop b.names.length :=
    congrArg Stock.free (stock_layout f b)
  rw [hfree, List.length_drop] at hsum
  omega

theorem Sound.length_tend (sound : f.Sound) (c : Chore) : f.slots.length ≤ (f.tend c).slots.length ∧
    ((f.tend c).slots.length = f.slots.length ∨ (f.tend c).slots.length = (f.tend c).size) := by
  cases c with
  | plant b =>
    cases hplant : f.plant b with
    | error fault =>
      rw [tend_of_error hplant]
      exact ⟨Nat.le_refl _, Or.inl rfl⟩
    | ok made =>
      rw [tend_of_ok hplant]
      exact sound.length_planted hplant
  | uproot root =>
    have hlen : (f.tend (.uproot root)).slots.length = f.slots.length := length_clear f _
    exact ⟨Nat.le_of_eq hlen.symm, Or.inl hlen⟩

end Forest

namespace Grove

variable {β : Type} {a : Grove β} {c : Chore}

/-- The grove after a chore. -/
def tend (a : Grove β) : Chore → Grove β
  | .plant b => (a.plant b).2
  | .uproot root => (a.uproot root).2

/-- The grove after several chores, one after another. -/
def tendAll (a : Grove β) (chores : List Chore) : Grove β := chores.foldl tend a

/-- Each chore is admitted by the grove as it is by then. -/
def AdmitsAll (a : Grove β) : List Chore → Prop
  | [] => True
  | c :: chores => a.Admits c ∧ (a.tend c).AdmitsAll chores

instance decidableAdmitsAll (a : Grove β) : (chores : List Chore) → Decidable (a.AdmitsAll chores)
  | [] => isTrue trivial
  | c :: chores =>
    have := decidableAdmitsAll (a.tend c) chores
    inferInstanceAs (Decidable (a.Admits c ∧ (a.tend c).AdmitsAll chores))

/-- What is kept whatever is done to a grove. -/
structure Tidy (a : Grove β) : Prop where
  sound : a.toForest.Sound
  linked : a.toForest.Linked
  indexed : a.Indexed

theorem tidy_empty : (empty : Grove β).Tidy :=
  ⟨Forest.sound_empty, Forest.linked_empty, indexed_empty⟩

/-- A chore does to a grove what it does to its forest, and leaves it tidy. -/
theorem Tidy.tend (tidy : a.Tidy) (admits : a.Admits c) :
    (a.tend c).toForest = a.toForest.tend c ∧ (a.tend c).Tidy := by
  cases c with
  | plant b =>
    cases hplant : a.toForest.plant b with
    | error fault =>
      have hsame : a.tend (.plant b) = a :=
        congrArg Prod.snd (plant_of_error tidy.indexed tidy.sound hplant)
      rw [hsame, Forest.tend_of_error hplant]
      exact ⟨rfl, tidy⟩
    | ok made =>
      obtain ⟨root, g⟩ := made
      obtain ⟨-, hforest, hindexed⟩ := plant_of_ok tidy.indexed tidy.sound hplant
      change (a.tend (.plant b)).toForest = g at hforest
      refine ⟨hforest.trans (Forest.tend_of_ok hplant).symm, ?_, ?_, hindexed⟩
      · rw [hforest]
        exact (tidy.sound.planted hplant).sound
      · rw [hforest]
        exact tidy.linked.planted tidy.sound hplant
  | uproot root =>
    obtain ⟨u, hu, hkind⟩ := admits
    have ht := Forest.node?_of_get? hu
    have hforest := (a.uproot_toForest root).2
    refine ⟨hforest, ?_, ?_, tidy.indexed.uproot tidy.sound ht hkind⟩
    · exact hforest ▸ (tidy.sound.uprooted ht hkind).sound
    · exact hforest ▸ tidy.linked.uprooted tidy.sound ht hkind

theorem Tidy.tendAll (tidy : a.Tidy) {chores : List Chore} (admits : a.AdmitsAll chores) :
    (a.tendAll chores).toForest = chores.foldl Forest.tend a.toForest ∧
      (a.tendAll chores).Tidy := by
  induction chores generalizing a with
  | nil => exact ⟨rfl, tidy⟩
  | cons c chores ih =>
    obtain ⟨hforest, htidy⟩ := tidy.tend admits.1
    have hrest := ih htidy admits.2
    rw [hforest] at hrest
    exact hrest

/-- A grove that has been tended since it was empty. -/
def Tended (a : Grove β) : Prop :=
  ∃ chores, (empty : Grove β).AdmitsAll chores ∧ (empty : Grove β).tendAll chores = a

theorem Tended.tidy (tended : a.Tended) : a.Tidy := by
  obtain ⟨chores, lawful, rfl⟩ := tended
  exact (tidy_empty.tendAll lawful).2

/-! The number of slots. -/

theorem Tidy.length_tend (tidy : a.Tidy) (admits : a.Admits c) :
    a.slots.length ≤ (a.tend c).slots.length ∧
      ((a.tend c).slots.length = a.slots.length ∨ (a.tend c).slots.length = (a.tend c).size) := by
  rw [(tidy.tend admits).1]
  exact tidy.sound.length_tend c

theorem Tidy.length_le (tidy : a.Tidy) {chores : List Chore} (admits : a.AdmitsAll chores) :
    a.slots.length ≤ (a.tendAll chores).slots.length := by
  induction chores generalizing a with
  | nil => exact Nat.le_refl _
  | cons c chores ih =>
    have hrest := ih (tidy.tend admits.1).2 admits.2
    exact Nat.le_trans (tidy.length_tend admits.1).1 hrest

/-- At no time were there more live units than there are slots in the end. -/
theorem Tidy.size_le (tidy : a.Tidy) {chores : List Chore} (admits : a.AdmitsAll chores) :
    ∀ g ∈ chores.scanl Grove.tend a, g.size ≤ (a.tendAll chores).slots.length := by
  induction chores generalizing a with
  | nil =>
    intro g hg
    obtain rfl := List.mem_singleton.1 hg
    exact g.size_le_length
  | cons c chores ih =>
    intro g hg
    rw [List.scanl_cons] at hg
    rcases List.mem_cons.1 hg with rfl | hg
    · exact Nat.le_trans g.size_le_length (tidy.length_le admits)
    · exact ih (tidy.tend admits.1).2 admits.2 g hg

/-- Unless there are as many slots as at first, there were once as many live units as there are
slots in the end. -/
theorem Tidy.exists_size_eq (tidy : a.Tidy) {chores : List Chore} (admits : a.AdmitsAll chores) :
    (a.tendAll chores).slots.length = a.slots.length ∨
      ∃ g ∈ chores.scanl Grove.tend a, g.size = (a.tendAll chores).slots.length := by
  induction chores generalizing a with
  | nil => exact Or.inl rfl
  | cons c chores ih =>
    rw [List.scanl_cons]
    rcases ih (tidy.tend admits.1).2 admits.2 with hlen | ⟨g, hg, hsize⟩
    · rcases (tidy.length_tend admits.1).2 with hsame | hfull
      · exact Or.inl (hlen.trans hsame)
      · refine Or.inr ⟨a.tend c, List.mem_cons_of_mem _ ?_, (hlen.trans hfull).symm⟩
        cases chores <;> simp
    · exact Or.inr ⟨g, List.mem_cons_of_mem _ hg, hsize⟩

/-! What a grove is to those who use it. -/

/-- A grove in which every unit is where its handle, its name and its links say. -/
structure Represents (a : Grove β) : Prop where
  id_eq : ∀ h u, a.get? h = some u → u.id = h
  slotOf?_iff : ∀ name h, a.slotOf? name = some h ↔ ∃ u, a.get? h = some u ∧ u.name = name
  names : a.index.keys.Perm (a.units.map fun u ↦ u.name)
  free_nodup : a.free.Nodup
  mem_free : ∀ h, h ∈ a.free ↔ h < a.slots.length ∧ a.get? h = none
  linked : a.Linked
  hanging : ∀ h u, a.get? h = some u → (u.components ++ u.children).Nodup
  top : ∀ h u, a.get? h = some u →
    (u.kind = .topLevel ↔ u.top = h) ∧ Relation.ReflTransGen a.Below u.top h
  acyclic : ∀ h, ¬Relation.TransGen a.Below h h
  visits_nodup : a.visits.Nodup
  mem_visits : ∀ h, h ∈ a.visits ↔ ∃ u, a.get? h = some u

theorem Tidy.slotOf?_iff (tidy : a.Tidy) {name : String} {h : Handle} :
    a.slotOf? name = some h ↔ ∃ u, a.get? h = some u ∧ u.name = name := by
  rw [tidy.indexed, tidy.sound.find?_eq_some_iff]
  simp only [Forest.node?_eq_some_iff]
  constructor
  · rintro ⟨_, ⟨u, hu, rfl⟩, hname⟩
    exact ⟨u, hu, hname⟩
  · rintro ⟨u, hu, hname⟩
    exact ⟨_, ⟨u, hu, rfl⟩, hname⟩

/-- The index has the names of the live units, each once. -/
theorem Tidy.names (tidy : a.Tidy) : a.index.keys.Perm (a.units.map fun u ↦ u.name) := by
  refine (List.perm_ext_iff_of_nodup a.index.keys_nodup tidy.sound.nodup_names).2 fun name ↦ ?_
  rw [← AList.mem_keys, ← AList.lookup_isSome, Option.isSome_iff_exists, List.mem_map]
  constructor
  · rintro ⟨h, hh⟩
    obtain ⟨u, hu, hname⟩ := tidy.slotOf?_iff.1 hh
    exact ⟨u, Forest.mem_units_iff.2 ⟨h, hu⟩, hname⟩
  · rintro ⟨u, hu, hname⟩
    obtain ⟨h, hh⟩ := Forest.mem_units_iff.1 hu
    exact ⟨h, tidy.slotOf?_iff.2 ⟨u, hh, hname⟩⟩

theorem Tidy.represents (tidy : a.Tidy) : a.Represents := by
  have hsound := tidy.sound
  refine
    { id_eq := fun h u hu ↦ hsound.id_eq (Forest.node?_of_get? hu)
      slotOf?_iff := fun name h ↦ tidy.slotOf?_iff
      names := tidy.names
      free_nodup := hsound.free_nodup
      mem_free := fun h ↦ ?_
      linked := tidy.linked
      hanging := fun h u hu ↦ hsound.nodup_hanging (Forest.node?_of_get? hu)
      top := fun h u hu ↦ ⟨hsound.topLevel_iff (Forest.node?_of_get? hu), ?_⟩
      acyclic := fun h ↦ hsound.acyclic
      visits_nodup := hsound.nodup_visits
      mem_visits := fun h ↦ hsound.mem_visits_iff }
  · rw [hsound.mem_free, Forest.get?_eq_none_iff]
  · have hn := Forest.node?_of_get? hu
    obtain ⟨t, ht, hkind⟩ := hsound.top hn
    have hh := (hsound.mem_tree_iff ht hkind).2 ⟨_, hn, rfl⟩
    obtain ⟨r, hr, hreach⟩ := (hsound.tree_spec ht hkind).1.exists_reaches hh
    rwa [List.mem_singleton.1 hr] at hreach

/-- Whatever trees are planted in a grove or refused, and whichever of its trees are uprooted, it
comes to the same forest, every unit is where it is said to be, and there are as many slots as there
were live units at the time when there were most. -/
theorem groves_represent (chores : List Chore) (lawful : (empty : Grove β).AdmitsAll chores) :
    ((empty : Grove β).tendAll chores).toForest = chores.foldl Forest.tend Forest.empty ∧
    ((empty : Grove β).tendAll chores).Represents ∧
    IsGreatest {n | ∃ g ∈ chores.scanl Grove.tend (empty : Grove β), g.size = n}
      ((empty : Grove β).tendAll chores).slots.length := by
  obtain ⟨hforest, htidy⟩ := tidy_empty.tendAll lawful
  refine ⟨hforest, htidy.represents, ?_, ?_⟩
  · rcases tidy_empty.exists_size_eq lawful with hnone | hsome
    · refine ⟨empty, ?_, hnone.symm⟩
      cases chores <;> simp
    · exact hsome
  · rintro _ ⟨g, hg, rfl⟩
    exact tidy_empty.size_le lawful g hg

/-- A tree of three units makes room for two trees, and one of its names is asked for too soon. -/
def recycled : List Chore :=
  [.plant (.mk "app" .none [] [.mk "db" .none [] [] []] [.mk "gui" .none [] [] []]),
    .plant (.mk "log" .none [] [] []),
    .plant (.mk "gui" .none [] [] []),
    .uproot 0,
    .plant (.mk "gui" .none [] [] [.mk "web" .none [] [] []]),
    .plant (.mk "app" .none [] [] [])]

theorem groves_represent_recycled :
    (empty : Grove Unit).AdmitsAll recycled ∧
    ((empty : Grove Unit).tendAll recycled).Represents ∧
    ((empty : Grove Unit).tendAll recycled).slots.length = 4 ∧
    ((empty : Grove Unit).tendAll recycled).tree 2 = [2, 1] ∧
    ∀ g ∈ recycled.scanl Grove.tend (empty : Grove Unit), g.size ≤ 4 := by
  have hlawful : (empty : Grove Unit).AdmitsAll recycled := by decide +kernel
  obtain ⟨-, hrepresents, -, hmost⟩ := groves_represent recycled hlawful
  have hlen : ((empty : Grove Unit).tendAll recycled).slots.length = 4 := by decide +kernel
  refine ⟨hlawful, hrepresents, hlen, by decide +kernel, fun g hg ↦ ?_⟩
  exact hlen ▸ hmost ⟨g, hg, rfl⟩

end Grove

end Rollout
