import Rollout.Forest.Grove
import Rollout.Proofs.Planting
import Rollout.Proofs.Uprooting

/-!
Groves and forests. A tree that is put into slots unit by unit, and hung together from below, comes
to one that is laid out and settled, because what has been handed out is not handed out again. So a
grove has the slots that a forest would have.
-/

set_option autoImplicit false
set_option relaxedAutoImplicit false

namespace Rollout

namespace LiveUnit

variable {β : Type}

theorem id_hang (kind : Kind) (u : LiveUnit β) (h : Handle) : (u.hang kind h).id = u.id := by
  cases kind <;> rfl

theorem name_hang (kind : Kind) (u : LiveUnit β) (h : Handle) : (u.hang kind h).name = u.name := by
  cases kind <;> rfl

theorem id_foldl_hang (kind : Kind) (u : LiveUnit β) (hs : List Handle) :
    (hs.foldl (hang kind) u).id = u.id := by
  induction hs generalizing u with
  | nil => rfl
  | cons h hs ih => exact (ih _).trans (u.id_hang kind h)

theorem foldl_hang_component (u : LiveUnit β) (hs : List Handle) :
    hs.foldl (hang .component) u = { u with components := u.components ++ hs } := by
  induction hs generalizing u with
  | nil => simp
  | cons h hs ih => simp [ih, hang]

theorem foldl_hang_child (u : LiveUnit β) (hs : List Handle) :
    hs.foldl (hang .child) u = { u with children := u.children ++ hs } := by
  induction hs generalizing u with
  | nil => simp
  | cons h hs ih => simp [ih, hang]

end LiveUnit

/-! The slots that a stock hands out. -/

namespace Stock

/-- No slot is free twice, and all free slots are there already. -/
structure Proper (s : Stock) : Prop where
  nodup : s.free.Nodup
  lt : ∀ h ∈ s.free, h < s.size

/-- A slot that is there and is not handed out. -/
structure Spares (s : Stock) (h : Handle) : Prop where
  lt : h < s.size
  notMem : h ∉ s.free

variable {s : Stock} {h : Handle}

theorem size_le_draw (s : Stock) (n : Nat) : s.size ≤ (s.draw n).2.size := by
  rw [draw_eq]
  exact Nat.le_add_right _ _

theorem Proper.draw (proper : s.Proper) (n : Nat) : (s.draw n).2.Proper := by
  rw [draw_eq]
  refine ⟨proper.nodup.sublist (List.drop_sublist _ _), fun h hh ↦ ?_⟩
  exact Nat.lt_of_lt_of_le (proper.lt h (List.mem_of_mem_drop hh)) (Nat.le_add_right _ _)

theorem Proper.lt_of_mem_draw (proper : s.Proper) {n : Nat} (hh : h ∈ (s.draw n).1) :
    h < (s.draw n).2.size := by
  rw [draw_eq] at hh ⊢
  rcases List.mem_append.1 hh with hh | hh
  · exact Nat.lt_of_lt_of_le (proper.lt h (List.mem_of_mem_take hh)) (Nat.le_add_right _ _)
  · exact (List.mem_range'_1.1 hh).2

theorem Spares.draw (spares : s.Spares h) (n : Nat) :
    (s.draw n).2.Spares h ∧ h ∉ (s.draw n).1 := by
  rw [draw_eq]
  refine ⟨⟨Nat.lt_of_lt_of_le spares.lt (Nat.le_add_right _ _), fun hh ↦ ?_⟩, fun hh ↦ ?_⟩
  · exact spares.notMem (List.mem_of_mem_drop hh)
  · rcases List.mem_append.1 hh with hh | hh
    · exact spares.notMem (List.mem_of_mem_take hh)
    · exact Nat.not_lt.2 (List.mem_range'_1.1 hh).1 spares.lt

/-- A slot that has been handed out is not handed out again. -/
theorem Proper.spares_take (proper : s.Proper) : s.take.2.Spares s.take.1 := by
  obtain ⟨free, size⟩ := s
  cases free with
  | nil => exact ⟨Nat.lt_succ_self size, List.not_mem_nil⟩
  | cons h rest => exact ⟨proper.lt h List.mem_cons_self, (List.nodup_cons.1 proper.nodup).1⟩

end Stock

namespace Layout

variable {β : Type} {s : Stock} {names : List String} {l : Layout β} {h : Handle}

theorem Fits.size_le (fits : Fits s names l) : s.size ≤ l.stock.size :=
  fits.stock ▸ s.size_le_draw names.length

theorem Fits.proper (fits : Fits s names l) (proper : s.Proper) : l.stock.Proper :=
  fits.stock ▸ proper.draw names.length

theorem Fits.id_lt (fits : Fits s names l) (proper : s.Proper) :
    ∀ u ∈ l.units, u.id < l.stock.size := by
  intro u hu
  rw [fits.stock]
  refine proper.lt_of_mem_draw ?_
  rw [← fits.ids]
  exact List.mem_map_of_mem hu

theorem Fits.spares (fits : Fits s names l) (spares : s.Spares h) :
    l.stock.Spares h ∧ h ∉ l.units.map fun u ↦ u.id := by
  rw [fits.stock, fits.ids]
  exact spares.draw names.length

end Layout

/-! Putting units into their slots one after another. -/

section Slots

variable {β : Type} {us : List (LiveUnit β)} {slots rest : List (Option (LiveUnit β))} {h : Handle}

theorem foldl_set_append (hids : ∀ u ∈ us, u.id < slots.length) :
    us.foldl (fun slots u ↦ slots.set u.id (some u)) (slots ++ rest) =
      us.foldl (fun slots u ↦ slots.set u.id (some u)) slots ++ rest := by
  induction us generalizing slots with
  | nil => rfl
  | cons u us ih =>
    rw [List.forall_mem_cons] at hids
    rw [List.foldl_cons, List.foldl_cons, List.set_append_left _ _ hids.1]
    refine ih fun v hv ↦ ?_
    rw [List.length_set]
    exact hids.2 v hv

theorem modify_append {f : Option (LiveUnit β) → Option (LiveUnit β)} (hlt : h < slots.length) :
    (slots ++ rest).modify h f = slots.modify h f ++ rest := by
  rw [List.modify_eq_set, List.modify_eq_set, List.getElem?_append_left hlt,
    List.set_append_left _ _ hlt]

theorem modify_set {f : Option (LiveUnit β) → Option (LiveUnit β)} {k : Handle}
    {x : Option (LiveUnit β)} (hne : h ≠ k) :
    (slots.set k x).modify h f = (slots.modify h f).set k x := by
  rw [List.modify_eq_set, List.modify_eq_set, List.getElem?_set_ne hne.symm,
    List.set_comm _ _ hne.symm]

theorem modify_set_self {f : Option (LiveUnit β) → Option (LiveUnit β)}
    {x : Option (LiveUnit β)} : (slots.set h x).modify h f = slots.set h (f x) := by
  refine List.ext_getElem? fun k ↦ ?_
  by_cases hk : h = k
  · subst hk
    by_cases hlt : h < slots.length <;> simp [hlt]
  · simp [hk]

theorem modify_foldl_set {f : Option (LiveUnit β) → Option (LiveUnit β)}
    (hh : h ∉ us.map fun u ↦ u.id) :
    (us.foldl (fun slots u ↦ slots.set u.id (some u)) slots).modify h f =
      us.foldl (fun slots u ↦ slots.set u.id (some u)) (slots.modify h f) := by
  induction us generalizing slots with
  | nil => rfl
  | cons u us ih =>
    rw [List.map_cons, List.mem_cons, not_or] at hh
    rw [List.foldl_cons, List.foldl_cons, ih hh.2, modify_set hh.1]

end Slots

namespace Grove

variable {β : Type} {a : Grove β} {l m : Layout β} {kind : Kind} {above h : Handle}

/-- Puts units that were laid out into their slots and their names into the index. -/
def settle (a : Grove β) (l : Layout β) : Grove β where
  toForest := a.toForest.settle l
  index := l.units.foldl (fun index u ↦ index.insert u.name u.id) a.index

theorem stock_settle (hle : a.slots.length ≤ l.stock.size) : (a.settle l).stock = l.stock := by
  unfold Forest.stock
  rw [show (a.settle l).slots.length = l.stock.size from Forest.length_settle hle]
  rfl

/-- What is settled after something else is settled with it. -/
theorem settle_settle (hl : a.slots.length ≤ l.stock.size) (hm : l.stock.size ≤ m.stock.size)
    (hids : ∀ u ∈ l.units, u.id < l.stock.size) (tops : List Handle) :
    (a.settle l).settle m = a.settle ⟨tops, l.units ++ m.units, m.stock⟩ := by
  have hlen : (a.settle l).slots.length = l.stock.size := Forest.length_settle hl
  have hgrow : m.stock.size - a.slots.length =
      (l.stock.size - a.slots.length) + (m.stock.size - l.stock.size) := by omega
  have hroom : ∀ u ∈ l.units, u.id <
      (a.slots ++ List.replicate (l.stock.size - a.slots.length) none).length := by
    rw [List.length_append, List.length_replicate, Nat.add_sub_cancel' hl]
    exact hids
  unfold settle Forest.settle at hlen ⊢
  simp only [hlen, List.foldl_append, Grove.mk.injEq, Forest.mk.injEq, and_true]
  rw [hgrow, ← List.replicate_append_replicate, ← List.append_assoc, foldl_set_append hroom]

theorem occupy_allocate {u : LiveUnit β} (hid : u.id = a.stock.take.1) (tops : List Handle) :
    a.allocate.2.occupy u = a.settle ⟨tops, [u], a.stock.take.2⟩ := by
  obtain ⟨⟨slots, free⟩, index⟩ := a
  cases free with
  | nil => simp [allocate, occupy, settle, Forest.settle, Forest.stock, Stock.take]
  | cons h rest => simp [allocate, occupy, settle, Forest.settle, Forest.stock, Stock.take]

theorem allocate_fst (a : Grove β) : a.allocate.1 = a.stock.take.1 := by
  obtain ⟨⟨slots, free⟩, index⟩ := a
  cases free <;> rfl

/-! Hanging units below others. -/

/-- Hangs several units below another. -/
def hangAll (a : Grove β) (kind : Kind) (above : Handle) (hs : List Handle) : Grove β :=
  hs.foldl (fun a h ↦ a.hang kind above h) a

theorem stock_hang (a : Grove β) (kind : Kind) (above h : Handle) :
    (a.hang kind above h).stock = a.stock := by
  simp [hang, Forest.stock]

theorem stock_hangAll (a : Grove β) (kind : Kind) (above : Handle) (hs : List Handle) :
    (a.hangAll kind above hs).stock = a.stock := by
  induction hs generalizing a with
  | nil => rfl
  | cons h hs ih => exact (ih _).trans (stock_hang a kind above h)

theorem length_hang (a : Grove β) (kind : Kind) (above h : Handle) :
    (a.hang kind above h).slots.length = a.slots.length :=
  congrArg Stock.size (stock_hang a kind above h)

/-- Units may be hung below another before or after other units are settled. -/
theorem hang_settle (kind : Kind) (hlt : above < a.slots.length)
    (hne : above ∉ l.units.map fun u ↦ u.id) (h : Handle) :
    (a.settle l).hang kind above h = (a.hang kind above h).settle l := by
  have hlen := length_hang a kind above h
  unfold hang at hlen
  unfold settle hang Forest.settle
  simp only [Grove.mk.injEq, Forest.mk.injEq, and_true] at hlen ⊢
  rw [modify_foldl_set hne, modify_append hlt, hlen]

theorem hangAll_settle (hlt : above < a.slots.length) (hne : above ∉ l.units.map fun u ↦ u.id)
    (hs : List Handle) :
    (a.settle l).hangAll kind above hs = (a.hangAll kind above hs).settle l := by
  induction hs generalizing a with
  | nil => rfl
  | cons h hs ih =>
    have hfirst := hang_settle kind hlt hne h
    rw [← length_hang a kind above h] at hlt
    calc (a.settle l).hangAll kind above (h :: hs)
        = ((a.settle l).hang kind above h).hangAll kind above hs := rfl
      _ = ((a.hang kind above h).settle l).hangAll kind above hs := by rw [hfirst]
      _ = (a.hangAll kind above (h :: hs)).settle l := ih hlt

theorem hang_settle_cons (kind : Kind) {u : LiveUnit β} {us : List (LiveUnit β)}
    (hid : u.id = above) (hne : above ∉ us.map fun u ↦ u.id) (tops : List Handle) (s : Stock)
    (h : Handle) :
    (a.settle ⟨tops, u :: us, s⟩).hang kind above h =
      a.settle ⟨tops, u.hang kind h :: us, s⟩ := by
  subst hid
  unfold settle hang Forest.settle
  simp only [List.foldl_cons, u.id_hang, u.name_hang, modify_foldl_set hne, modify_set_self,
    Option.map_some]

/-- What is hung below a unit that has just been put in place can be hung below it beforehand. -/
theorem hangAll_settle_cons {u : LiveUnit β} {us : List (LiveUnit β)} (hid : u.id = above)
    (hne : above ∉ us.map fun u ↦ u.id) (tops : List Handle) (s : Stock) (hs : List Handle) :
    (a.settle ⟨tops, u :: us, s⟩).hangAll kind above hs =
      a.settle ⟨tops, hs.foldl (LiveUnit.hang kind) u :: us, s⟩ := by
  induction hs generalizing u with
  | nil => rfl
  | cons h hs ih =>
    have hfirst := hang_settle_cons (a := a) kind hid hne tops s h
    calc (a.settle ⟨tops, u :: us, s⟩).hangAll kind above (h :: hs)
        = ((a.settle ⟨tops, u :: us, s⟩).hang kind above h).hangAll kind above hs := rfl
      _ = (a.settle ⟨tops, u.hang kind h :: us, s⟩).hangAll kind above hs := by rw [hfirst]
      _ = a.settle ⟨tops, (h :: hs).foldl (LiveUnit.hang kind) u :: us, s⟩ :=
        ih ((u.id_hang kind h).trans hid)

theorem length_hangAll (a : Grove β) (kind : Kind) (above : Handle) (hs : List Handle) :
    (a.hangAll kind above hs).slots.length = a.slots.length :=
  congrArg Stock.size (stock_hangAll a kind above hs)

theorem settle_nil (a : Grove β) (tops : List Handle) : a.settle ⟨tops, [], a.stock⟩ = a := by
  simp [settle, Forest.settle, Forest.stock]

/-! Putting trees into slots. -/

/-- A unit that has been put in place with some units below it, and then more below it. -/
theorem settle_below {u : LiveUnit β} {us : List (LiveUnit β)} {s : Stock} (hid : u.id = above)
    (hne : above ∉ us.map fun u ↦ u.id) (hsize : a.slots.length ≤ s.size) (hlt : above < s.size)
    (hids : ∀ v ∈ us, v.id < s.size) (hm : s.size ≤ m.stock.size) (tops : List Handle) :
    ((a.settle ⟨tops, u :: us, s⟩).hangAll kind above m.tops).settle m =
      a.settle ⟨tops, m.tops.foldl (LiveUnit.hang kind) u :: (us ++ m.units), m.stock⟩ := by
  rw [hangAll_settle_cons hid hne]
  refine settle_settle hsize hm (fun v hv ↦ ?_) tops
  rcases List.mem_cons.1 hv with rfl | hv
  · rw [LiveUnit.id_foldl_hang, hid]
    exact hlt
  · exact hids v hv

mutual

/-- Putting a tree into slots unit by unit comes to laying it out and settling it. -/
theorem insert_eq (a : Grove β) {s : Stock} (hs : a.stock = s) (proper : s.Proper) (kind : Kind)
    (parent top : Option Handle) (b : Blueprint) :
    a.insert kind parent top b = (s.take.1, a.settle (Layout.tree kind parent top s b)) := by
  match b with
  | .mk name attachments demands components children =>
    subst hs
    have hsize : a.slots.length ≤ a.stock.take.2.size := a.stock.size_le_draw 1
    have hproper : a.stock.take.2.Proper := proper.draw 1
    have hspares := proper.spares_take
    simp only [insert, Layout.tree, allocate_fst]
    rw [occupy_allocate (u := LiveUnit.bare _ _ _ _ _) rfl [a.stock.take.1]]
    generalize top.getD a.stock.take.1 = t
    generalize hu : LiveUnit.bare a.stock.take.1 kind parent t
      (.mk name attachments demands components children) = u
    have hid : u.id = a.stock.take.1 := hu ▸ rfl
    -- The components are hung below the unit on top, and then the children.
    have hparts : Layout.Fits a.stock.take.2 (Blueprint.namesOfAll components)
        (Layout.trees .component a.stock.take.1 t a.stock.take.2 components : Layout β) :=
      Layout.fits_trees _ _ _ _ _
    have hcomponents := insertEach_eq (a.settle ⟨[a.stock.take.1], [u], a.stock.take.2⟩)
      (stock_settle hsize) hproper .component a.stock.take.1 t hspares components
    rw [settle_below hid List.not_mem_nil hsize hspares.lt
      (List.forall_mem_nil _) hparts.size_le] at hcomponents
    rw [hcomponents, List.nil_append]
    generalize (Layout.trees .component a.stock.take.1 t a.stock.take.2 components : Layout β) =
      parts at hparts
    obtain ⟨hspares', hne⟩ := hparts.spares hspares
    have hsize' := Nat.le_trans hsize hparts.size_le
    have hkids : Layout.Fits parts.stock (Blueprint.namesOfAll children)
        (Layout.trees .child a.stock.take.1 t parts.stock children : Layout β) :=
      Layout.fits_trees _ _ _ _ _
    have hchildren := insertEach_eq (a.settle ⟨[a.stock.take.1],
        parts.tops.foldl (LiveUnit.hang .component) u :: parts.units, parts.stock⟩)
      (stock_settle hsize') (hparts.proper hproper) .child a.stock.take.1 t hspares' children
    rw [settle_below ((LiveUnit.id_foldl_hang _ _ _).trans hid) hne hsize' hspares'.lt
      (hparts.id_lt hproper) hkids.size_le] at hchildren
    rw [hchildren, LiveUnit.foldl_hang_child, LiveUnit.foldl_hang_component, ← hu]
    rfl

/-- Trees that are hung below a unit one after another may all be hung there first. -/
theorem insertEach_eq (a : Grove β) {s : Stock} (hs : a.stock = s) (proper : s.Proper)
    (kind : Kind) (above top : Handle) (spares : s.Spares above) (bs : List Blueprint) :
    a.insertEach kind above top bs =
      (a.hangAll kind above (Layout.trees kind above top s bs : Layout β).tops).settle
        (Layout.trees kind above top s bs) := by
  match bs with
  | [] =>
    subst hs
    simp only [insertEach, Layout.trees]
    exact (settle_nil a []).symm
  | b :: rest =>
    have hfits : Layout.Fits s b.names
        (Layout.tree kind (some above) (some top) s b : Layout β) := Layout.fits_tree _ _ _ _ _
    simp only [insertEach, Layout.trees, insert_eq a hs proper, Layout.tops_tree]
    generalize (Layout.tree kind (some above) (some top) s b : Layout β) = first at hfits
    obtain ⟨hspares, hne⟩ := hfits.spares spares
    have hlen : a.slots.length = s.size := congrArg Stock.size hs
    have hlen' : (a.hang kind above s.take.1).slots.length = s.size :=
      (length_hang a _ _ _).trans hlen
    have hsize : (a.hang kind above s.take.1).slots.length ≤ first.stock.size :=
      hlen' ▸ hfits.size_le
    have hrest := insertEach_eq ((a.hang kind above s.take.1).settle first)
      (stock_settle hsize) (hfits.proper proper) kind above top hspares rest
    have hmore : first.stock.size ≤
        (Layout.trees kind above top first.stock rest : Layout β).stock.size :=
      (Layout.fits_trees kind above top first.stock rest).size_le
    rw [hang_settle kind (hlen ▸ spares.lt) hne, hrest, hangAll_settle (hlen' ▸ spares.lt) hne]
    refine settle_settle ?_ hmore (hfits.id_lt proper) _
    rw [length_hangAll]
    exact hsize

end

end Grove

end Rollout
