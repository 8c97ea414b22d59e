import Rollout.Proofs.Tending

/-!
Reading a tree back. From the unit on top of a tree and along its links, the blueprint that the tree
was planted from can be read off the units, with all it said but for demands that it repeated.
Planting puts a tree whole into slots that were empty, in the order of its names, and changes no
other unit, and uprooting it at once gives back its names in that order and leaves what there was
before.
-/

set_option autoImplicit false
set_option relaxedAutoImplicit false

namespace Rollout

/-! Repeated demands. -/

/-- What is told apart before it is renamed without a clash is told apart after. -/
theorem eraseDups_map {α γ : Type} [DecidableEq α] [DecidableEq γ] {f : α → γ}
    (hf : Function.Injective f) (l : List α) : (l.map f).eraseDups = l.eraseDups.map f := by
  match l with
  | [] => rfl
  | x :: l =>
    have hsame : ((fun z ↦ !z == f x) ∘ f) = fun y ↦ !y == x := by
      funext y
      simp [hf.eq_iff]
    rw [List.map_cons, List.eraseDups_cons, List.eraseDups_cons, List.map_cons, List.filter_map,
      hsame, eraseDups_map hf]
termination_by l.length
decreasing_by exact Nat.lt_succ_of_le (List.length_filter_le _ _)

theorem Need.of_injective (dependent : String) : Function.Injective (Need.of dependent · none) :=
  fun _ _ heq ↦ congrArg Need.toDemand heq

theorem Need.map_toDemand_distinct (dependent : String) (demands : List Demand) :
    (Need.distinct (demands.map (Need.of dependent · none))).map Need.toDemand =
      demands.eraseDups := by
  rw [Need.distinct_eq_eraseDups, eraseDups_map (Need.of_injective dependent), List.map_map]
  exact List.map_id _

namespace Blueprint

mutual

/-- The same description with no demand of a unit said twice. -/
def distinct : Blueprint → Blueprint
  | mk name attachments demands components children =>
    mk name attachments demands.eraseDups (distinctAll components) (distinctAll children)

/-- The same descriptions with no demand of a unit said twice. -/
def distinctAll : List Blueprint → List Blueprint
  | [] => []
  | b :: bs => b.distinct :: distinctAll bs

end

end Blueprint

namespace Forest

variable {β : Type} {f g : Forest β} {b : Blueprint} {root : Handle}

/-- The blueprint of the tree on a handle, read off the units down to a depth. Nothing is read
where a unit does not play the part it was reached for, has links that lead elsewhere, or has a need
that it was not described with. -/
def reading? (f : Forest β) : Nat → Kind → Option Handle → Handle → Handle → Option Blueprint
  | 0, _, _, _, _ => none
  | depth + 1, kind, parent, top, h => do
    let u ← f.get? h
    guard (u.id = h ∧ u.kind = kind ∧ u.parent = parent ∧ u.top = top ∧
      ∀ n ∈ u.needs, n = Need.of u.name n.toDemand none)
    let components ← u.components.mapM (f.reading? depth .component (some h) top)
    let children ← u.children.mapM (f.reading? depth .child (some h) top)
    return .mk u.name u.attachments (u.needs.map Need.toDemand) components children

/-- The blueprint of a whole tree. No tree is deeper than there are slots. -/
def readBack (f : Forest β) (root : Handle) : Option Blueprint :=
  f.reading? f.slots.length .topLevel none root root

theorem reading?_of_get? {depth : Nat} {kind : Kind} {parent : Option Handle} {top h : Handle}
    {u : LiveUnit β} {components children : List Blueprint} (hu : f.get? h = some u)
    (hplace : u.id = h ∧ u.kind = kind ∧ u.parent = parent ∧ u.top = top ∧
      ∀ n ∈ u.needs, n = Need.of u.name n.toDemand none)
    (hcomponents : u.components.mapM (f.reading? depth .component (some h) top) = some components)
    (hchildren : u.children.mapM (f.reading? depth .child (some h) top) = some children) :
    f.reading? (depth + 1) kind parent top h =
      some (.mk u.name u.attachments (u.needs.map Need.toDemand) components children) := by
  simp only [reading?, hu, hcomponents, hchildren, guard, if_pos hplace, Option.bind_eq_bind,
    Option.bind_some, Option.pure_def]

mutual

/-- What was laid out is read back from the slots it was put into. -/
theorem reading?_tree (kind : Kind) (parent top : Option Handle) (s : Stock) (b : Blueprint)
    (depth : Nat) (deep : b.names.length ≤ depth)
    (settled : ∀ u ∈ (Layout.tree kind parent top s b : Layout β).units, g.get? u.id = some u) :
    g.reading? depth kind parent (top.getD s.take.1) s.take.1 = some b.distinct := by
  match b with
  | .mk name attachments demands components children =>
    simp only [Blueprint.names, List.length_cons, List.length_append] at deep
    obtain ⟨depth, rfl⟩ : ∃ d, depth = d + 1 := ⟨depth - 1, by omega⟩
    simp only [Layout.tree, List.forall_mem_cons, List.forall_mem_append] at settled
    obtain ⟨hhead, hparts, hkids⟩ := settled
    have hcomponents := reading?_trees .component s.take.1 (top.getD s.take.1) s.take.2 components
      depth (by omega) hparts
    have hchildren := reading?_trees .child s.take.1 (top.getD s.take.1) _ children
      depth (by omega) hkids
    have hneeds : ∀ n ∈ Need.distinct (demands.map (Need.of name · none)),
        n = Need.of name n.toDemand none := by
      intro n hn
      obtain ⟨demand, -, rfl⟩ := List.mem_map.1 (Layout.mem_distinct.1 hn)
      rfl
    rw [reading?_of_get? hhead ⟨rfl, rfl, rfl, rfl, hneeds⟩ hcomponents hchildren,
      Need.map_toDemand_distinct, Blueprint.distinct]

theorem reading?_trees (kind : Kind) (above top : Handle) (s : Stock) (bs : List Blueprint)
    (depth : Nat) (deep : (Blueprint.namesOfAll bs).length ≤ depth)
    (settled : ∀ u ∈ (Layout.trees kind above top s bs : Layout β).units, g.get? u.id = some u) :
    (Layout.trees kind above top s bs : Layout β).tops.mapM
      (g.reading? depth kind (some above) top) = some (Blueprint.distinctAll bs) := by
  match bs with
  | [] => rfl
  | b :: rest =>
    simp only [Blueprint.namesOfAll, List.length_append] at deep
    simp only [Layout.trees, List.forall_mem_append] at settled
    have hfirst := reading?_tree kind (some above) (some top) s b depth (by omega) settled.1
    have hrest := reading?_trees kind above top _ rest depth (by omega) settled.2
    rw [Option.getD_some] at hfirst
    simp only [Layout.trees, Layout.tops_tree, List.singleton_append, List.mapM_cons, hfirst, hrest,
      Blueprint.distinctAll, Option.bind_eq_bind, Option.bind_some, Option.pure_def]

end

/-! A tree that has just been planted. -/

theorem Sound.readBack_planted (sound : f.Sound) (hplant : f.plant b = .ok (root, g)) :
    g.readBack root = some b.distinct := by
  have hlaid := sound.laid_planted hplant
  have hfree := sound.size_add_free
  obtain ⟨rfl, rfl, -⟩ := plant_eq_ok hplant
  have hlen := length_settle_layout f b
  refine reading?_tree .topLevel none none f.stock b _ (by omega) fun u hu ↦ ?_
  exact hlaid.get?.2 (Or.inl ⟨hu, rfl⟩)

variable {us : List (LiveUnit β)}

theorem Laid.vacant_of_mem_tree (laid : Laid f b root us g) (sound : g.Sound) :
    ∀ h ∈ g.tree root, f.get? h = none := by
  intro h hh
  rw [laid.tree_eq sound] at hh
  obtain ⟨u, hu, rfl⟩ := List.mem_map.1 hh
  exact get?_eq_none_iff.2 (laid.vacant u hu)

theorem Laid.get?_of_notMem_tree (laid : Laid f b root us g) (sound : g.Sound) {h : Handle}
    (hh : h ∉ g.tree root) : g.get? h = f.get? h := by
  rw [laid.tree_eq sound] at hh
  refine Option.ext fun u ↦ ?_
  rw [laid.get?]
  refine or_iff_right ?_
  rintro ⟨hu, rfl⟩
  exact hh (List.mem_map_of_mem hu)

/-- The handles of a tree are those of its units in the order of their names. -/
theorem Laid.map_tree (laid : Laid f b root us g) (sound : g.Sound) :
    (g.tree root).map (fun h ↦ (g.get? h).map fun u ↦ u.name) = b.names.map some := by
  rw [laid.tree_eq sound, List.map_map, ← laid.names, List.map_map]
  refine List.map_congr_left fun u hu ↦ ?_
  simp [laid.get?.2 (Or.inl ⟨hu, rfl⟩)]

/-- Uprooting what has just been planted leaves in each slot what was there before. -/
theorem Laid.get?_uproot (laid : Laid f b root us g) (sound : g.Sound) (h : Handle) :
    (g.uproot root).2.get? h = f.get? h := by
  unfold uproot
  rw [get?_clear]
  split
  · next hh => exact (laid.vacant_of_mem_tree sound h hh).symm
  · next hh => exact laid.get?_of_notMem_tree sound hh

end Forest

namespace Grove

variable {β : Type} {a g : Grove β} {b : Blueprint} {root : Handle}

/-- All names of a tree can be taken in: none is blank, none is used twice, and none is live. -/
structure Takes (a : Grove β) (b : Blueprint) : Prop where
  notBlank : ∀ name ∈ b.names, Text.isBlank name = false
  nodup : b.names.Nodup
  notLive : ∀ u ∈ a.units, u.name ∉ b.names

/-- A tree has been planted whole, and can be taken out again as if it had not been. -/
structure Planted (a : Grove β) (b : Blueprint) (root : Handle) (g : Grove β) : Prop where
  planted : a.toForest.plant b = .ok (root, g.toForest)
  vacant : ∀ h ∈ g.tree root, a.get? h = none
  names : (g.tree root).map (fun h ↦ (g.get? h).map fun u ↦ u.name) = b.names.map some
  readBack : g.readBack root = some b.distinct
  others : ∀ h, h ∉ g.tree root → g.get? h = a.get? h
  uprooted : g.toForest.uproot root = ((g.uproot root).1, (g.uproot root).2.toForest)
  removed : (g.uproot root).1 = b.names
  restored : ∀ h, (g.uproot root).2.get? h = a.get? h
  namesRestored : ∀ name, (g.uproot root).2.slotOf? name = a.slotOf? name

theorem takes_iff : a.Takes b ↔ ∃ root f, a.toForest.plant b = .ok (root, f) := by
  constructor
  · intro takes
    refine Forest.exists_plant takes.notBlank (fun name hname ↦ ?_) takes.nodup
    refine Forest.find?_eq_none_iff.2 fun h n hn heq ↦ ?_
    obtain ⟨u, hu, rfl⟩ := Forest.node?_eq_some_iff.1 hn
    exact takes.notLive u (Forest.mem_units_iff.2 ⟨h, hu⟩) (heq ▸ hname)
  · rintro ⟨root, f, hplant⟩
    obtain ⟨-, -, hnames, hnodup⟩ := Forest.plant_eq_ok hplant
    refine ⟨fun name hname ↦ (hnames name hname).1, hnodup, fun u hu hname ↦ ?_⟩
    obtain ⟨h, hh⟩ := Forest.mem_units_iff.1 hu
    have hnone := Forest.find?_eq_none_iff.1 (hnames u.name hname).2
    exact hnone h _ (Forest.node?_of_get? hh) rfl

theorem Tidy.planted (tidy : a.Tidy) {f : Forest β} (hplant : a.toForest.plant b = .ok (root, f)) :
    a.Planted b root (a.plant b).2 := by
  have hsound := tidy.sound
  have hlaid := hsound.laid_planted hplant
  have hplanted := hsound.planted hplant
  obtain ⟨t, ht, hkind, -⟩ := hplanted.top
  obtain ⟨-, rfl, hindexed⟩ := plant_of_ok tidy.indexed hsound hplant
  generalize a.plant b = made at *
  obtain ⟨hremoved, hforest⟩ := made.2.uproot_toForest root
  have hget := hlaid.get?_uproot hplanted.sound
  have huprooted := hplanted.sound.uprooted ht hkind
  refine
    { planted := hplant
      vacant := hlaid.vacant_of_mem_tree hplanted.sound
      names := hlaid.map_tree hplanted.sound
      readBack := hsound.readBack_planted hplant
      others := fun h ↦ hlaid.get?_of_notMem_tree hplanted.sound
      uprooted := Prod.ext hremoved.symm hforest.symm
      removed := ?_
      restored := fun h ↦ ?_
      namesRestored := fun name ↦ ?_ }
  · rw [hremoved, huprooted.names, hplanted.names]
  · rw [hforest, hget]
  · rw [(hindexed.uproot hplanted.sound ht hkind) name, tidy.indexed name, hforest]
    refine hsound.find?_congr huprooted.sound fun h n _ ↦ ?_
    rw [Forest.node?, hget, Forest.node?]

/-- A grove takes in a tree exactly if all its names can be taken in, and it is the same as before
if it does not. What it has taken in can be read back from it, and taken out again. -/
theorem planting_undone (tended : a.Tended) (b : Blueprint) :
    ((∃ root, (a.plant b).1 = .ok root) ↔ a.Takes b) ∧
    (∀ fault, (a.plant b).1 = .error fault →
      a.toForest.plant b = .error fault ∧ (a.plant b).2 = a) ∧
    ∀ root, (a.plant b).1 = .ok root → a.Planted b root (a.plant b).2 := by
  have tidy := tended.tidy
  rw [takes_iff]
  cases hplant : a.toForest.plant b with
  | error fault =>
    rw [plant_of_error tidy.indexed tidy.sound hplant]
    simp
  | ok made =>
    obtain ⟨root, f⟩ := made
    have hok := (plant_of_ok tidy.indexed tidy.sound hplant).1
    have hplanted := tidy.planted hplant
    rw [hok]
    refine ⟨⟨fun _ ↦ ⟨root, f, rfl⟩, fun _ ↦ ⟨root, rfl⟩⟩, fun fault herror ↦ ?_, ?_⟩
    · exact absurd herror (by simp)
    · rintro _ ⟨⟩
      exact hplanted

/-- Two trees leave their slots in two runs, with a tree that stays after them. -/
def scattered : Grove Unit :=
  (empty : Grove Unit).tendAll
    [.plant (.mk "app" .none [] [.mk "db" .none [] [] []] [.mk "gui" .none [] [] []]),
      .plant (.mk "log" .none [] [] [.mk "disk" .none [] [] []]),
      .plant (.mk "net" .none [] [] []),
      .uproot 3,
      .uproot 0]

/-- A tree with components and children of its own kinds below each other, and a demand that is
said twice. -/
def shop : Blueprint :=
  .mk "shop" .none
    [⟨"net", ⟨"Real", 8⟩, ⟨"Parse", 1⟩⟩, ⟨"db", ⟨"Real", 8⟩, ⟨"Parse", 1⟩⟩,
      ⟨"net", ⟨"Real", 8⟩, ⟨"Parse", 1⟩⟩]
    [.mk "cart" .none [] [.mk "price" .none [] [] []] []]
    [.mk "page" .none [] [] [.mk "menu" .none [] [] [], .mk "foot" .none [] [] []]]

theorem planting_undone_scattered :
    scattered.Tended ∧ scattered.Takes shop ∧ scattered.Planted shop 2 (scattered.plant shop).2 ∧
    (scattered.plant shop).2.tree 2 = [2, 1, 0, 4, 3, 6] ∧ shop.distinct.demands.length = 2 ∧
    (scattered.plant (.mk "web" .none [] [.mk "net" .none [] [] []] [])).2 = scattered := by
  have htended : scattered.Tended := ⟨_, by decide +kernel, rfl⟩
  obtain ⟨htakes, -, hplanted⟩ := planting_undone htended shop
  have hok : (scattered.plant shop).1 = .ok 2 := by decide +kernel
  have hrefused : (scattered.plant (.mk "web" .none [] [.mk "net" .none [] [] []] [])).1 =
      .error (.taken "net") := by decide +kernel
  refine ⟨htended, htakes.1 ⟨2, hok⟩, hplanted 2 hok, by decide +kernel, by decide +kernel, ?_⟩
  exact ((planting_undone htended _).2.1 _ hrefused).2

end Grove

end Rollout
