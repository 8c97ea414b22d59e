import Mathlib.Data.List.Nodup
import Mathlib.Data.List.TakeDrop
import Rollout.Proofs.ForestShape

/-!
Planting a tree. The units of a blueprint are laid out in tree order on the slots that the stock
hands out, one slot for each name, and links follow that order. Planting a tree whose names are new
keeps a forest sound, leaves all other units alone, and lists the new tree in the order of its
names.
-/

set_option autoImplicit false
set_option relaxedAutoImplicit false

namespace Rollout

namespace Need

/-- Adding needs one by one to what is there leaves out what is there and what is repeated. -/
theorem foldl_addTo (needs seen : List Need) :
    needs.foldl addTo seen = seen ++ (needs.filter fun n ↦ n ∉ seen).eraseDups := by
  induction needs generalizing seen with
  | nil => simp
  | cons n needs ih =>
    rw [List.foldl_cons, ih]
    unfold addTo
    by_cases hn : n ∈ seen
    · rw [if_pos hn, List.filter_cons_of_neg (by simpa using hn)]
    · rw [if_neg hn, List.filter_cons_of_pos (by simpa using hn), List.eraseDups_cons,
        List.append_assoc, List.filter_filter, List.singleton_append]
      refine congrArg (fun rest ↦ seen ++ n :: List.eraseDups rest) (List.filter_congr fun m _ ↦ ?_)
      by_cases hm : m = n <;> simp [hm, List.mem_append]

/-- The needs without repetitions are those that are left when what was there before is erased. -/
theorem distinct_eq_eraseDups (needs : List Need) : distinct needs = needs.eraseDups := by
  unfold distinct
  rw [foldl_addTo, List.nil_append, List.filter_eq_self.2 fun n _ ↦ by simp]

end Need

namespace Stock

/-- The first slots that are handed out, and what is left. -/
def draw : Nat → Stock → List Handle × Stock
  | 0, s => ([], s)
  | n + 1, s => (s.take.1 :: (draw n s.take.2).1, (draw n s.take.2).2)

theorem draw_add (m n : Nat) (s : Stock) :
    s.draw (m + n) =
      ((s.draw m).1 ++ ((s.draw m).2.draw n).1, ((s.draw m).2.draw n).2) := by
  induction m generalizing s with
  | zero => simp [draw]
  | succ m ih =>
    rw [Nat.succ_add]
    simp [draw, ih]

/-- First come the free slots in their order, then new ones. -/
theorem draw_eq (n : Nat) (s : Stock) :
    s.draw n = (s.free.take n ++ List.range' s.size (n - s.free.length),
      ⟨s.free.drop n, s.size + (n - s.free.length)⟩) := by
  induction n generalizing s with
  | zero => simp [draw]
  | succ n ih =>
    obtain ⟨free, size⟩ := s
    cases free with
    | nil =>
      simp only [draw, take, ih, List.take_nil, List.drop_nil, List.length_nil, Nat.sub_zero,
        List.nil_append, List.range'_succ]
      rw [Nat.add_assoc, Nat.add_comm 1 n]
    | cons h rest =>
      simp [draw, take, ih]

end Stock

namespace Layout

variable {β : Type}

/-- A layout of some names on the next slots of a stock, in order and with links that follow it. -/
structure Fits (s : Stock) (names : List String) (l : Layout β) : Prop where
  ids : l.units.map (fun u ↦ u.id) = (s.draw names.length).1
  stock : l.stock = (s.draw names.length).2
  names : l.units.map (fun u ↦ u.name) = names
  spans : ∀ place : Handle → Option Node, (∀ u ∈ l.units, place u.id = some u.toNode) →
    Forest.Spans place l.tops (l.units.map fun u ↦ u.id)

theorem Fits.append {s : Stock} {first second : List String} {l m : Layout β}
    (hl : Fits s first l) (hm : Fits l.stock second m) :
    Fits s (first ++ second) ⟨l.tops ++ m.tops, l.units ++ m.units, m.stock⟩ := by
  have hdraw := Stock.draw_add first.length second.length s
  refine ⟨?_, ?_, ?_, fun place hplace ↦ ?_⟩
  · rw [List.map_append, List.length_append, hdraw, hl.ids, hm.ids, hl.stock]
  · rw [List.length_append, hdraw, hm.stock, hl.stock]
  · rw [List.map_append, hl.names, hm.names]
  · rw [List.map_append]
    refine (hl.spans place fun u hu ↦ ?_).append (hm.spans place fun u hu ↦ ?_)
    · exact hplace u (List.mem_append_left _ hu)
    · exact hplace u (List.mem_append_right _ hu)

/-- A unit on the next slot, above what is laid out on the slots after it. -/
theorem Fits.cons {s : Stock} {names : List String} {l : Layout β} {u : LiveUnit β}
    {name : String} (hl : Fits s.take.2 names l) (hid : u.id = s.take.1) (hname : u.name = name)
    (hbelow : u.components ++ u.children = l.tops) :
    Fits s (name :: names) ⟨[s.take.1], u :: l.units, l.stock⟩ := by
  refine ⟨?_, ?_, ?_, fun place hplace ↦ ?_⟩
  · rw [List.map_cons, hl.ids, hid]
    rfl
  · rw [hl.stock]
    rfl
  · rw [List.map_cons, hl.names, hname]
  · have hhead := hplace u List.mem_cons_self
    have hrest := hl.spans place fun v hv ↦ hplace v (List.mem_cons_of_mem _ hv)
    rw [← hbelow] at hrest
    have hall := Forest.Spans.cons hhead hrest .nil
    rw [List.append_nil, hid] at hall
    rw [List.map_cons, hid]
    exact hall

mutual

theorem fits_tree (kind : Kind) (parent top : Option Handle) (s : Stock) (b : Blueprint) :
    Fits s b.names (tree kind parent top s b : Layout β) := by
  match b with
  | .mk name attachments demands components children =>
    have hparts := fits_trees .component s.take.1 (top.getD s.take.1) s.take.2 components
    have hkids := fits_trees .child s.take.1 (top.getD s.take.1)
      (trees .component s.take.1 (top.getD s.take.1) s.take.2 components : Layout β).stock children
    have hbelow := hparts.append hkids
    simp only [tree, Blueprint.names]
    exact hbelow.cons rfl rfl rfl

theorem fits_trees (kind : Kind) (parent top : Handle) (s : Stock) (bs : List Blueprint) :
    Fits s (Blueprint.namesOfAll bs) (trees kind parent top s bs : Layout β) := by
  match bs with
  | [] =>
    refine ⟨rfl, rfl, rfl, fun _ _ ↦ ?_⟩
    exact .nil
  | b :: rest =>
    have hfirst := fits_tree kind (some parent) (some top) s b
    have hrest := fits_trees kind parent top
      (tree kind (some parent) (some top) s b : Layout β).stock rest
    simp only [trees, Blueprint.namesOfAll]
    exact hfirst.append hrest

end

/-- A unit on which nothing has been done yet, below a top, with no needs but the given. -/
structure Fresh (top : Handle) (needs : List Need) (u : LiveUnit β) : Prop where
  top : u.top = top
  stepping : u.stepping = none
  applied : u.applied = []
  needs : ∀ n ∈ u.needs, n ∈ needs

theorem Fresh.mono {top : Handle} {needs more : List Need} {u : LiveUnit β}
    (fresh : Fresh top needs u) (sub : needs ⊆ more) : Fresh top more u :=
  { fresh with needs := fun n hn ↦ sub (fresh.needs n hn) }

theorem mem_distinct {needs : List Need} {n : Need} : n ∈ Need.distinct needs ↔ n ∈ needs := by
  rw [Need.distinct_eq_eraseDups, List.mem_eraseDups]

mutual

theorem fresh_tree (kind : Kind) (parent top : Option Handle) (s : Stock) (b : Blueprint) :
    ∀ u ∈ (tree kind parent top s b : Layout β).units,
      Fresh (top.getD s.take.1) b.needs u ∧ (u.kind = .topLevel → u.id = s.take.1) := by
  match b with
  | .mk name attachments demands components children =>
    intro u hu
    simp only [tree, Blueprint.needs, List.mem_cons, List.mem_append] at hu ⊢
    rcases hu with rfl | hu | hu
    · refine ⟨⟨rfl, rfl, rfl, fun n hn ↦ ?_⟩, fun _ ↦ rfl⟩
      exact List.mem_append_left _ (mem_distinct.1 hn)
    · obtain ⟨hfresh, hkind⟩ := fresh_trees .component _ _ _ components u hu
      refine ⟨hfresh.mono fun n hn ↦ ?_, fun htop ↦ ?_⟩
      · exact List.mem_append_right _ (List.mem_append_left _ hn)
      · exact absurd htop (hkind (by decide))
    · obtain ⟨hfresh, hkind⟩ := fresh_trees .child _ _ _ children u hu
      refine ⟨hfresh.mono fun n hn ↦ ?_, fun htop ↦ ?_⟩
      · exact List.mem_append_right _ (List.mem_append_right _ hn)
      · exact absurd htop (hkind (by decide))

theorem fresh_trees (kind : Kind) (parent top : Handle) (s : Stock) (bs : List Blueprint) :
    ∀ u ∈ (trees kind parent top s bs : Layout β).units,
      Fresh top (Blueprint.needsOfAll bs) u ∧ (kind ≠ .topLevel → u.kind ≠ .topLevel) := by
  match bs with
  | [] => simp [trees]
  | b :: rest =>
    intro u hu
    simp only [trees, Blueprint.needsOfAll, List.mem_append] at hu ⊢
    rcases hu with hu | hu
    · refine ⟨(fresh_tree kind _ _ s b u hu).1.mono (List.subset_append_left _ _), ?_⟩
      exact kind_tree kind _ _ s b u hu
    · obtain ⟨hfresh, hkind⟩ := fresh_trees kind parent top _ rest u hu
      exact ⟨hfresh.mono (List.subset_append_right _ _), hkind⟩

theorem kind_tree (kind : Kind) (parent top : Option Handle) (s : Stock) (b : Blueprint) :
    ∀ u ∈ (tree kind parent top s b : Layout β).units,
      kind ≠ .topLevel → u.kind ≠ .topLevel := by
  match b with
  | .mk name attachments demands components children =>
    intro u hu hkind
    simp only [tree, List.mem_cons, List.mem_append] at hu
    rcases hu with rfl | hu | hu
    · exact hkind
    · exact (fresh_trees .component _ _ _ components u hu).2 (by decide)
    · exact (fresh_trees .child _ _ _ children u hu).2 (by decide)

end

theorem tops_tree (kind : Kind) (parent top : Option Handle) (s : Stock) (b : Blueprint) :
    (tree kind parent top s b : Layout β).tops = [s.take.1] := by
  cases b
  rw [tree]

/-- The unit on top of a tree is laid out first. -/
theorem head_tree (kind : Kind) (parent top : Option Handle) (s : Stock) (b : Blueprint) :
    ∃ u rest, (tree kind parent top s b : Layout β).units = u :: rest ∧ u.id = s.take.1 ∧
      u.kind = kind ∧ u.name = b.name := by
  obtain ⟨name, attachments, demands, components, children⟩ := b
  rw [tree]
  exact ⟨_, _, rfl, rfl, rfl, rfl⟩

end Layout

namespace Forest

variable {β : Type} {f g : Forest β} {h : Handle}

theorem Spans.unique {place : Handle → Option Node} {hs l m : List Handle}
    (first : Spans place hs l) (second : Spans place hs m) : l = m := by
  induction first generalizing m with
  | nil =>
    cases second
    rfl
  | cons hn _ _ ihBelow ihRest =>
    cases second with
    | cons hn' below' rest' =>
      rw [hn, Option.some_inj] at hn'
      subst hn'
      rw [ihBelow below', ihRest rest']

/-- A tree stays the same tree as long as its units keep their places. -/
theorem Sound.tree_congr (sound : f.Sound) (sound' : g.Sound) {r : Handle} {t : Node}
    (ht : f.node? r = some t) (hkind : t.kind = .topLevel)
    (same : ∀ h ∈ f.tree r, g.node? h = f.node? h) : g.tree r = f.tree r := by
  have hroot := sound.root_mem_tree ht hkind
  have hspans := (sound.tree_spec ht hkind).1.congr same
  have ht' : g.node? r = some t := (same r hroot).trans ht
  exact (sound'.tree_spec ht' hkind).1.unique hspans

/-! Putting units into their slots. -/

theorem length_foldl_set (us : List (LiveUnit β)) (slots : List (Option (LiveUnit β))) :
    (us.foldl (fun slots u ↦ slots.set u.id (some u)) slots).length = slots.length := by
  induction us generalizing slots with
  | nil => rfl
  | cons u us ih => rw [List.foldl_cons, ih, List.length_set]

theorem getElem?_foldl_set_of_notMem {us : List (LiveUnit β)}
    {slots : List (Option (LiveUnit β))} (hh : h ∉ us.map fun u ↦ u.id) :
    (us.foldl (fun slots u ↦ slots.set u.id (some u)) slots)[h]? = slots[h]? := by
  induction us generalizing slots with
  | nil => rfl
  | cons u us ih =>
    rw [List.map_cons, List.mem_cons, not_or] at hh
    rw [List.foldl_cons, ih hh.2, List.getElem?_set_ne (Ne.symm hh.1)]

theorem getElem?_foldl_set_of_mem {us : List (LiveUnit β)} {slots : List (Option (LiveUnit β))}
    (hnodup : (us.map fun u ↦ u.id).Nodup) {u : LiveUnit β} (hu : u ∈ us)
    (hlt : u.id < slots.length) :
    (us.foldl (fun slots u ↦ slots.set u.id (some u)) slots)[u.id]? = some (some u) := by
  induction us generalizing slots with
  | nil => cases hu
  | cons v us ih =>
    rw [List.map_cons, List.nodup_cons] at hnodup
    rw [List.foldl_cons]
    rcases List.mem_cons.1 hu with rfl | hu
    · rw [getElem?_foldl_set_of_notMem hnodup.1, List.getElem?_set_self hlt]
    · exact ih hnodup.2 hu (by rwa [List.length_set])

theorem get?_settle_of_notMem {l : Layout β} (hh : h ∉ l.units.map fun u ↦ u.id) :
    (f.settle l).get? h = f.get? h := by
  unfold settle get?
  rw [getElem?_foldl_set_of_notMem hh, List.getElem?_append]
  by_cases hlt : h < f.slots.length
  · rw [if_pos hlt]
  · rw [if_neg hlt, List.getElem?_replicate, List.getElem?_eq_none (Nat.le_of_not_lt hlt)]
    split <;> rfl

theorem length_settle {l : Layout β} (hle : f.slots.length ≤ l.stock.size) :
    (f.settle l).slots.length = l.stock.size := by
  unfold settle
  rw [length_foldl_set, List.length_append, List.length_replicate]
  omega

theorem get?_settle_of_mem {l : Layout β} (hnodup : (l.units.map fun u ↦ u.id).Nodup)
    (hle : f.slots.length ≤ l.stock.size) {u : LiveUnit β} (hu : u ∈ l.units)
    (hlt : u.id < l.stock.size) : (f.settle l).get? u.id = some u := by
  unfold settle get?
  rw [getElem?_foldl_set_of_mem hnodup hu]
  · rfl
  · rw [List.length_append, List.length_replicate, Nat.add_sub_cancel' hle]
    exact hlt

/-! The slots that a sound forest hands out. -/

/-- The slots for a tree of so many units. -/
def sites (f : Forest β) (n : Nat) : List Handle :=
  f.free.take n ++ List.range' f.slots.length (n - f.free.length)

theorem Sound.vacant_of_mem_sites (sound : f.Sound) {n : Nat} (hh : h ∈ f.sites n) :
    f.node? h = none := by
  rcases List.mem_append.1 hh with hh | hh
  · exact (sound.mem_free.1 (List.mem_of_mem_take hh)).2
  · have hge := (List.mem_range'_1.1 hh).1
    cases hn : f.node? h with
    | none => rfl
    | some n => exact absurd (lt_length_of_node? hn) (Nat.not_lt.2 hge)

theorem Sound.nodup_sites (sound : f.Sound) (n : Nat) : (f.sites n).Nodup := by
  unfold sites
  refine List.nodup_append.2 ⟨?_, List.nodup_range', fun h hh k hk heq ↦ ?_⟩
  · exact sound.free_nodup.sublist (List.take_sublist _ _)
  · have hlt := (sound.mem_free.1 (List.mem_of_mem_take hh)).1
    have hge := (List.mem_range'_1.1 hk).1
    exact Nat.not_lt.2 hge (heq ▸ hlt)

theorem Sound.lt_of_mem_sites (sound : f.Sound) {n : Nat} (hh : h ∈ f.sites n) :
    h < f.slots.length + (n - f.free.length) := by
  rcases List.mem_append.1 hh with hh | hh
  · have hlt := (sound.mem_free.1 (List.mem_of_mem_take hh)).1
    exact Nat.lt_of_lt_of_le hlt (Nat.le_add_right _ _)
  · exact (List.mem_range'_1.1 hh).2

/-- A slot is free after planting if it was free before and has not been handed out. -/
theorem Sound.mem_free_drop (sound : f.Sound) {n : Nat} :
    h ∈ f.free.drop n ↔
      (h < f.slots.length + (n - f.free.length) ∧ f.node? h = none) ∧ h ∉ f.sites n := by
  have hnodup := sound.free_nodup
  rw [← List.take_append_drop n f.free, List.nodup_append] at hnodup
  constructor
  · intro hh
    obtain ⟨hlt, hnone⟩ := sound.mem_free.1 (List.mem_of_mem_drop hh)
    refine ⟨⟨Nat.lt_of_lt_of_le hlt (Nat.le_add_right _ _), hnone⟩, fun hsite ↦ ?_⟩
    rcases List.mem_append.1 hsite with htake | hnew
    · exact hnodup.2.2 h htake h hh rfl
    · have hge := (List.mem_range'_1.1 hnew).1
      exact Nat.not_lt.2 hge hlt
  · rintro ⟨⟨hlt, hnone⟩, hsite⟩
    have hold : h < f.slots.length := by
      by_contra hge
      exact hsite (List.mem_append_right _ (List.mem_range'_1.2 ⟨Nat.not_lt.1 hge, hlt⟩))
    have hfree := sound.mem_free.2 ⟨hold, hnone⟩
    rw [← List.take_append_drop n f.free, List.mem_append] at hfree
    rcases hfree with htake | hdrop
    · exact absurd (List.mem_append_left _ htake) hsite
    · exact hdrop

/-! Planting. -/

theorem ids_layout (f : Forest β) (b : Blueprint) :
    ((f.layout b).units.map fun u ↦ u.id) = f.sites b.names.length := by
  have hids := (Layout.fits_tree .topLevel none none f.stock b : Layout.Fits _ _ (f.layout b)).ids
  rw [Stock.draw_eq] at hids
  exact hids

theorem stock_layout (f : Forest β) (b : Blueprint) :
    (f.layout b).stock = ⟨f.free.drop b.names.length,
      f.slots.length + (b.names.length - f.free.length)⟩ := by
  have hstock :=
    (Layout.fits_tree .topLevel none none f.stock b : Layout.Fits _ _ (f.layout b)).stock
  rw [Stock.draw_eq] at hstock
  exact hstock

theorem length_settle_layout (f : Forest β) (b : Blueprint) :
    (f.settle (f.layout b)).slots.length =
      f.slots.length + (b.names.length - f.free.length) := by
  rw [length_settle] <;> rw [stock_layout]
  exact Nat.le_add_right _ _

theorem Sound.get?_settle_layout (sound : f.Sound) (b : Blueprint) {u : LiveUnit β} :
    (f.settle (f.layout b)).get? h = some u ↔
      u ∈ (f.layout b).units ∧ u.id = h ∨ f.get? h = some u := by
  have hids := ids_layout f b
  have hin : ∀ v ∈ (f.layout b).units, (f.settle (f.layout b)).get? v.id = some v := by
    intro v hv
    have hsite : v.id ∈ f.sites b.names.length := hids ▸ List.mem_map_of_mem hv
    refine get?_settle_of_mem (hids ▸ sound.nodup_sites _) ?_ hv ?_
    · rw [stock_layout]
      exact Nat.le_add_right _ _
    · rw [stock_layout]
      exact sound.lt_of_mem_sites hsite
  by_cases hsite : h ∈ f.sites b.names.length
  · have hvacant := get?_eq_none_iff.2 (sound.vacant_of_mem_sites hsite)
    rw [← hids, List.mem_map] at hsite
    obtain ⟨v, hv, rfl⟩ := hsite
    rw [hin v hv, hvacant, Option.some_inj]
    constructor
    · rintro rfl
      exact Or.inl ⟨hv, rfl⟩
    · rintro (⟨hu, hid⟩ | hnone)
      · have hu' := hin u hu
        rw [hid, hin v hv, Option.some_inj] at hu'
        exact hu'
      · exact absurd hnone (by simp)
  · rw [← hids] at hsite
    rw [get?_settle_of_notMem hsite]
    refine ⟨Or.inr, ?_⟩
    rintro (⟨hu, rfl⟩ | hu)
    · exact absurd (List.mem_map_of_mem hu) hsite
    · exact hu

/-- What has happened to a forest when a tree has been planted in it. -/
structure Planted (f : Forest β) (b : Blueprint) (root : Handle) (g : Forest β) : Prop where
  sound : g.Sound
  vacant : f.node? root = none
  kept : ∀ {h : Handle} {u : LiveUnit β}, f.get? h = some u → g.get? h = some u
  fresh : ∀ {h : Handle} {u : LiveUnit β}, g.get? h = some u →
    f.get? h = some u ∨ f.get? h = none ∧ Layout.Fresh root b.needs u ∧ u.name ∈ b.names ∧
      (u.kind = .topLevel → h = root)
  top : ∃ t, g.node? root = some t ∧ t.kind = .topLevel ∧ t.name = b.name
  names : g.treeNames root = b.names

variable {b : Blueprint} {root : Handle}

theorem Planted.node? (planted : Planted f b root g) {n : Node} (hn : f.node? h = some n) :
    g.node? h = some n := by
  obtain ⟨u, hu, rfl⟩ := node?_eq_some_iff.1 hn
  exact node?_of_get? (planted.kept hu)

/-- The tree that has been planted is all new. -/
theorem Planted.fresh_of_mem_tree (planted : Planted f b root g) (sound : f.Sound)
    (hh : h ∈ g.tree root) {u : LiveUnit β} (hu : g.get? h = some u) :
    Layout.Fresh root b.needs u := by
  obtain ⟨t, ht, hkind, _⟩ := planted.top
  obtain ⟨n, hn, htop⟩ := (planted.sound.mem_tree_iff ht hkind).1 hh
  obtain rfl := Option.some_inj.1 ((node?_of_get? hu).symm.trans hn)
  rcases planted.fresh hu with hold | ⟨_, hfresh, _⟩
  · obtain ⟨t', ht', _⟩ := sound.top (node?_of_get? hold)
    rw [htop, planted.vacant] at ht'
    exact absurd ht' (by simp)
  · exact hfresh

theorem plant_eq_ok (hplant : f.plant b = .ok (root, g)) :
    root = f.stock.take.1 ∧ g = f.settle (f.layout b) ∧
      (∀ name ∈ b.names, Text.isBlank name = false ∧ f.find? name = none) ∧ b.names.Nodup := by
  unfold plant at hplant
  split at hplant
  · exact absurd hplant (by simp)
  · next hfault =>
    obtain ⟨hnames, hnodup⟩ := NameFault.first?_eq_none_iff.1 hfault
    simp only [Except.ok.injEq, Prod.mk.injEq] at hplant
    obtain ⟨rfl, rfl⟩ := hplant
    refine ⟨rfl, rfl, fun name hname ↦ ⟨(hnames name hname).1, ?_⟩, hnodup⟩
    simpa using (hnames name hname).2.1

theorem exists_plant (hblank : ∀ name ∈ b.names, Text.isBlank name = false)
    (hnew : ∀ name ∈ b.names, f.find? name = none) (hnodup : b.names.Nodup) :
    ∃ root g, f.plant b = .ok (root, g) := by
  have hfault : NameFault.first? (fun n ↦ (f.find? n).isSome) [] b.names = none := by
    refine NameFault.first?_eq_none_iff.2 ⟨fun n hn ↦ ⟨hblank n hn, ?_, ?_⟩, hnodup⟩
    · rw [hnew n hn]
      rfl
    · exact List.not_mem_nil
  refine ⟨f.stock.take.1, f.settle (f.layout b), ?_⟩
  unfold plant
  rw [hfault]

/-- The units of a new tree in slots that were vacant, next to all that was in the forest. -/
structure Laid (f : Forest β) (b : Blueprint) (root : Handle) (us : List (LiveUnit β))
    (g : Forest β) : Prop where
  get? : ∀ {h : Handle} {u : LiveUnit β}, g.get? h = some u ↔
    u ∈ us ∧ u.id = h ∨ f.get? h = some u
  vacant : ∀ u ∈ us, f.node? u.id = none
  nodup : (us.map fun u ↦ u.id).Nodup
  names : (us.map fun u ↦ u.name) = b.names
  head : ∃ u ∈ us, u.id = root ∧ u.kind = .topLevel ∧ u.name = b.name
  fresh : ∀ u ∈ us, Layout.Fresh root b.needs u ∧ (u.kind = .topLevel → u.id = root)
  spans : Spans g.node? [root] (us.map fun u ↦ u.id)

variable {us : List (LiveUnit β)}

theorem Laid.node?_of_mem (laid : Laid f b root us g) {u : LiveUnit β} (hu : u ∈ us) :
    g.node? u.id = some u.toNode :=
  node?_of_get? (laid.get?.2 (Or.inl ⟨hu, rfl⟩))

theorem Laid.node? (laid : Laid f b root us g) {n : Node} (hn : f.node? h = some n) :
    g.node? h = some n := by
  obtain ⟨u, hu, rfl⟩ := node?_eq_some_iff.1 hn
  exact node?_of_get? (laid.get?.2 (Or.inr hu))

theorem Laid.cases (laid : Laid f b root us g) {n : Node} (hn : g.node? h = some n) :
    (∃ u ∈ us, u.id = h ∧ u.toNode = n) ∨ f.node? h = some n := by
  obtain ⟨u, hu, rfl⟩ := node?_eq_some_iff.1 hn
  rcases laid.get?.1 hu with ⟨hu, hid⟩ | hu
  · exact Or.inl ⟨u, hu, hid, rfl⟩
  · exact Or.inr (node?_of_get? hu)

theorem Laid.name_mem (laid : Laid f b root us g) {u : LiveUnit β} (hu : u ∈ us) :
    u.name ∈ b.names :=
  laid.names ▸ List.mem_map_of_mem hu

theorem Laid.vacant_root (laid : Laid f b root us g) : f.node? root = none := by
  obtain ⟨u, hu, rfl, _⟩ := laid.head
  exact laid.vacant u hu

theorem Laid.exists_root (laid : Laid f b root us g) :
    ∃ t, g.node? root = some t ∧ t.kind = .topLevel ∧ t.name = b.name := by
  obtain ⟨u, hu, rfl, hkind, hname⟩ := laid.head
  exact ⟨u.toNode, laid.node?_of_mem hu, hkind, hname⟩

/-- No unit that was in the forest belongs to the new tree. -/
theorem Laid.top_ne (laid : Laid f b root us g) (sound : f.Sound) {n : Node}
    (hn : f.node? h = some n) : n.top ≠ root := by
  intro htop
  obtain ⟨t, ht, _⟩ := sound.top hn
  rw [htop, laid.vacant_root] at ht
  exact absurd ht (by simp)

theorem Laid.name_inj (laid : Laid f b root us g) (sound : f.Sound) (hnodup : b.names.Nodup)
    (hnew : ∀ name ∈ b.names, f.find? name = none) {k : Handle} {m n : Node}
    (hm : g.node? h = some m) (hn : g.node? k = some n) (heq : m.name = n.name) : h = k := by
  rcases laid.cases hm with ⟨u, hu, rfl, rfl⟩ | hm
  · rcases laid.cases hn with ⟨v, hv, rfl, rfl⟩ | hn
    · have hsame : u = v := List.inj_on_of_nodup_map (laid.names ▸ hnodup) hu hv heq
      rw [hsame]
    · exact absurd heq.symm (find?_eq_none_iff.1 (hnew _ (laid.name_mem hu)) _ _ hn)
  · rcases laid.cases hn with ⟨v, hv, rfl, rfl⟩ | hn
    · exact absurd heq (find?_eq_none_iff.1 (hnew _ (laid.name_mem hv)) _ _ hm)
    · exact sound.name_inj hm hn heq

theorem Laid.top (laid : Laid f b root us g) (sound : f.Sound) {n : Node}
    (hn : g.node? h = some n) : ∃ t, g.node? n.top = some t ∧ t.kind = .topLevel := by
  rcases laid.cases hn with ⟨u, hu, _, rfl⟩ | hn
  · rw [(laid.fresh u hu).1.top]
    obtain ⟨t, ht, hkind, _⟩ := laid.exists_root
    exact ⟨t, ht, hkind⟩
  · obtain ⟨t, ht, hkind⟩ := sound.top hn
    exact ⟨t, laid.node? ht, hkind⟩

/-- Every tree spans the units that belong to it: the new one by the way it is laid out, and the
others because their units have kept their places. -/
theorem Laid.exists_spans (laid : Laid f b root us g) (sound : f.Sound) {r : Handle} {t : Node}
    (ht : g.node? r = some t) (hkind : t.kind = .topLevel) :
    ∃ l, Spans g.node? [r] l ∧ l.Nodup ∧ ∀ h, h ∈ l ↔ ∃ n, g.node? h = some n ∧ n.top = r := by
  rcases laid.cases ht with ⟨u, hu, rfl, rfl⟩ | ht
  · rw [(laid.fresh u hu).2 hkind]
    refine ⟨_, laid.spans, laid.nodup, fun k ↦ ?_⟩
    rw [List.mem_map]
    constructor
    · rintro ⟨v, hv, rfl⟩
      exact ⟨_, laid.node?_of_mem hv, (laid.fresh v hv).1.top⟩
    · rintro ⟨n, hn, htop⟩
      rcases laid.cases hn with ⟨v, hv, hid, rfl⟩ | hn
      · exact ⟨v, hv, hid⟩
      · exact absurd htop (laid.top_ne sound hn)
  · obtain ⟨l, hl, hnodup, hmem⟩ := sound.spans ht hkind
    refine ⟨l, hl.congr fun k hk ↦ ?_, hnodup, fun k ↦ ?_⟩
    · obtain ⟨n, hn, _⟩ := (hmem k).1 hk
      rw [hn, laid.node? hn]
    · rw [hmem]
      constructor
      · rintro ⟨n, hn, htop⟩
        exact ⟨n, laid.node? hn, htop⟩
      · rintro ⟨n, hn, htop⟩
        rcases laid.cases hn with ⟨u, hu, _, rfl⟩ | hn
        · rw [(laid.fresh u hu).1.top] at htop
          rw [← htop, laid.vacant_root] at ht
          exact absurd ht (by simp)
        · exact ⟨n, hn, htop⟩

theorem Sound.laid (sound : f.Sound) (b : Blueprint) :
    Laid f b f.stock.take.1 (f.layout b).units (f.settle (f.layout b)) := by
  have hids := ids_layout f b
  have hfits : Layout.Fits f.stock b.names (f.layout b) :=
    Layout.fits_tree .topLevel none none f.stock b
  obtain ⟨head, rest, hunits, hhead⟩ :
      ∃ u rest, (f.layout b).units = u :: rest ∧ u.id = f.stock.take.1 ∧
        u.kind = .topLevel ∧ u.name = b.name :=
    Layout.head_tree .topLevel none none f.stock b
  have hget : ∀ {k : Handle} {u : LiveUnit β}, (f.settle (f.layout b)).get? k = some u ↔
      u ∈ (f.layout b).units ∧ u.id = k ∨ f.get? k = some u := sound.get?_settle_layout b
  have htops : (f.layout b).tops = [f.stock.take.1] := Layout.tops_tree _ _ _ _ _
  refine ⟨hget, fun u hu ↦ ?_, hids ▸ sound.nodup_sites _, hfits.names,
    ⟨head, hunits ▸ List.mem_cons_self, hhead⟩,
    Layout.fresh_tree .topLevel none none f.stock b, ?_⟩
  · exact sound.vacant_of_mem_sites (hids ▸ List.mem_map_of_mem hu)
  · exact htops ▸ hfits.spans (f.settle (f.layout b)).node? fun u hu ↦
      node?_of_get? (hget.2 (Or.inl ⟨hu, rfl⟩))

theorem Sound.laid_planted (sound : f.Sound) (hplant : f.plant b = .ok (root, g)) :
    Laid f b root (f.layout b).units g := by
  obtain ⟨rfl, rfl, -⟩ := plant_eq_ok hplant
  exact sound.laid b

theorem Sound.mem_free_settle (sound : f.Sound) (b : Blueprint) :
    h ∈ (f.layout b).stock.free ↔
      h < (f.settle (f.layout b)).slots.length ∧ (f.settle (f.layout b)).node? h = none := by
  rw [stock_layout, sound.mem_free_drop, length_settle_layout, and_assoc]
  refine and_congr_right fun _ ↦ ?_
  rw [← ids_layout, ← get?_eq_none_iff, ← get?_eq_none_iff]
  constructor
  · rintro ⟨hnone, hsite⟩
    rw [get?_settle_of_notMem hsite, hnone]
  · intro hnone
    have hsite : h ∉ (f.layout b).units.map fun u ↦ u.id := by
      rw [List.mem_map]
      rintro ⟨u, hu, rfl⟩
      rw [(sound.laid b).get?.2 (Or.inl ⟨hu, rfl⟩)] at hnone
      exact absurd hnone (by simp)
    rw [get?_settle_of_notMem hsite] at hnone
    exact ⟨hnone, hsite⟩

theorem Sound.settle (sound : f.Sound) (hnodup : b.names.Nodup)
    (hnew : ∀ name ∈ b.names, f.find? name = none) : (f.settle (f.layout b)).Sound := by
  have hlaid := sound.laid b
  refine ⟨fun hn ↦ ?_, fun hm hn heq ↦ hlaid.name_inj sound hnodup hnew hm hn heq, ?_,
    sound.mem_free_settle b, hlaid.top sound, fun {r t} ht hkind ↦ ?_, hlaid.exists_spans sound⟩
  · rcases hlaid.cases hn with ⟨u, _, hid, rfl⟩ | hn
    · exact hid
    · exact sound.id_eq hn
  · show ((f.layout b).stock.free).Nodup
    rw [stock_layout]
    exact sound.free_nodup.sublist (List.drop_sublist _ _)
  · rcases hlaid.cases ht with ⟨u, hu, rfl, rfl⟩ | ht
    · rw [(hlaid.fresh u hu).1.top, (hlaid.fresh u hu).2 hkind]
    · exact sound.top_self ht hkind

theorem Laid.tree_eq (laid : Laid f b root us g) (sound : g.Sound) :
    g.tree root = us.map fun u ↦ u.id := by
  obtain ⟨t, ht, hkind, _⟩ := laid.exists_root
  exact (sound.tree_spec ht hkind).1.unique laid.spans

theorem Laid.treeUnits (laid : Laid f b root us g) (sound : g.Sound) : g.treeUnits root = us := by
  have hall : ∀ u ∈ us, (g.get? ∘ fun u ↦ u.id) u = some u :=
    fun u hu ↦ laid.get?.2 (Or.inl ⟨hu, rfl⟩)
  unfold Forest.treeUnits
  rw [laid.tree_eq sound, List.filterMap_map, List.filterMap_congr hall, List.filterMap_some]

/-- A tree whose names can be taken in is planted whole, next to what is there. -/
theorem Sound.planted (sound : f.Sound) (hplant : f.plant b = .ok (root, g)) :
    Planted f b root g := by
  obtain ⟨rfl, rfl, hnames, hnodup⟩ := plant_eq_ok hplant
  have hlaid := sound.laid b
  have hsound := sound.settle hnodup fun name hname ↦ (hnames name hname).2
  refine ⟨hsound, hlaid.vacant_root, fun hu ↦ hlaid.get?.2 (Or.inr hu), fun {k u} hu ↦ ?_,
    hlaid.exists_root, ?_⟩
  · rcases hlaid.get?.1 hu with ⟨hmem, rfl⟩ | hold
    · obtain ⟨hfresh, htop⟩ := hlaid.fresh u hmem
      exact Or.inr ⟨get?_eq_none_iff.2 (hlaid.vacant u hmem), hfresh, hlaid.name_mem hmem, htop⟩
    · exact Or.inl hold
  · unfold treeNames
    rw [hlaid.treeUnits hsound]
    exact hlaid.names

end Forest

end Rollout
