import Mathlib.Logic.Relation
import Rollout.Proofs.Planting
import Rollout.Proofs.Uprooting

/-!
Links between units. A unit knows the unit above it and those that hang below it, as components or
as children, and the top of its tree. The links of a forest agree with each other if whatever one
end of a link says the other end says too. They do so in whatever is planted, and they still do when
a tree is uprooted, because no link leads from one tree to another. No link leads back up, and each
unit belongs to one tree.
-/

set_option autoImplicit false
set_option relaxedAutoImplicit false

namespace Rollout

namespace Node

/-- The units that hang below a unit and play this part in its tree. -/
def hanging (n : Node) : Kind → List Handle
  | .topLevel => []
  | .component => n.components
  | .child => n.children

end Node

namespace Layout

variable {β : Type} {kind : Kind} {parent : Option Handle} {l m : Layout β}

/-- Units whose links agree: those on top play one part below one unit, and every other hangs below
the unit that says so. -/
structure Joined (kind : Kind) (parent : Option Handle) (l : Layout β) : Prop where
  tops : ∀ h ∈ l.tops, ∃ u ∈ l.units, u.id = h ∧ u.kind = kind ∧ u.parent = parent
  up : ∀ u ∈ l.units, (u.kind = kind ∧ u.parent = parent ∧ u.id ∈ l.tops) ∨
    ∃ above ∈ l.units, u.parent = some above.id ∧ u.id ∈ above.hanging u.kind
  down : ∀ u ∈ l.units, ∀ part, ∀ h ∈ u.hanging part,
    ∃ below ∈ l.units, below.id = h ∧ below.kind = part ∧ below.parent = some u.id

theorem Joined.append (hl : Joined kind parent l) (hm : Joined kind parent m) (s : Stock) :
    Joined kind parent ⟨l.tops ++ m.tops, l.units ++ m.units, s⟩ := by
  refine ⟨fun h hh ↦ ?_, fun u hu ↦ ?_, fun u hu part h hh ↦ ?_⟩
  · rcases List.mem_append.1 hh with hh | hh
    · obtain ⟨u, hu, hid⟩ := hl.tops h hh
      exact ⟨u, List.mem_append_left _ hu, hid⟩
    · obtain ⟨u, hu, hid⟩ := hm.tops h hh
      exact ⟨u, List.mem_append_right _ hu, hid⟩
  · rcases List.mem_append.1 hu with hu | hu
    · rcases hl.up u hu with ⟨hkind, hparent, htop⟩ | ⟨above, habove, hup⟩
      · exact Or.inl ⟨hkind, hparent, List.mem_append_left _ htop⟩
      · exact Or.inr ⟨above, List.mem_append_left _ habove, hup⟩
    · rcases hm.up u hu with ⟨hkind, hparent, htop⟩ | ⟨above, habove, hup⟩
      · exact Or.inl ⟨hkind, hparent, List.mem_append_right _ htop⟩
      · exact Or.inr ⟨above, List.mem_append_right _ habove, hup⟩
  · rcases List.mem_append.1 hu with hu | hu
    · obtain ⟨below, hbelow, hdown⟩ := hl.down u hu part h hh
      exact ⟨below, List.mem_append_left _ hbelow, hdown⟩
    · obtain ⟨below, hbelow, hdown⟩ := hm.down u hu part h hh
      exact ⟨below, List.mem_append_right _ hbelow, hdown⟩

/-- Units that play one part below a unit are joined to it by the handles that it has for that
part. -/
theorem Joined.up_of_hanging {u : LiveUnit β} (hl : Joined kind (some u.id) l)
    (hangs : u.hanging kind = l.tops) :
    ∀ v ∈ l.units, ∃ above, (above = u ∨ above ∈ l.units) ∧ v.parent = some above.id ∧
      v.id ∈ above.hanging v.kind := by
  intro v hv
  rcases hl.up v hv with ⟨hkind, hparent, htop⟩ | ⟨above, habove, hup⟩
  · refine ⟨u, Or.inl rfl, hparent, ?_⟩
    rw [hkind, hangs]
    exact htop
  · exact ⟨above, Or.inr habove, hup⟩

/-- A unit with components and children that are joined below it. -/
theorem Joined.cons {id : Handle} {u : LiveUnit β} (hl : Joined .component (some id) l)
    (hm : Joined .child (some id) m) (hid : u.id = id) (hcomponents : u.components = l.tops)
    (hchildren : u.children = m.tops) (hkind : u.kind = kind) (hparent : u.parent = parent)
    (s : Stock) : Joined kind parent ⟨[id], u :: (l.units ++ m.units), s⟩ := by
  subst hid
  have hleft : ∀ v ∈ l.units, v ∈ u :: (l.units ++ m.units) := fun v hv ↦
    List.mem_cons_of_mem _ (List.mem_append_left _ hv)
  have hright : ∀ v ∈ m.units, v ∈ u :: (l.units ++ m.units) := fun v hv ↦
    List.mem_cons_of_mem _ (List.mem_append_right _ hv)
  refine ⟨fun h hh ↦ ?_, fun v hv ↦ ?_, fun v hv part h hh ↦ ?_⟩
  · exact ⟨u, List.mem_cons_self, (List.mem_singleton.1 hh).symm, hkind, hparent⟩
  · simp only [List.mem_cons, List.mem_append] at hv
    rcases hv with rfl | hv | hv
    · exact Or.inl ⟨hkind, hparent, List.mem_singleton_self _⟩
    · obtain ⟨above, rfl | habove, hup⟩ := hl.up_of_hanging hcomponents v hv
      · exact Or.inr ⟨above, List.mem_cons_self, hup⟩
      · exact Or.inr ⟨above, hleft above habove, hup⟩
    · obtain ⟨above, rfl | habove, hup⟩ := hm.up_of_hanging hchildren v hv
      · exact Or.inr ⟨above, List.mem_cons_self, hup⟩
      · exact Or.inr ⟨above, hright above habove, hup⟩
  · simp only [List.mem_cons, List.mem_append] at hv
    rcases hv with rfl | hv | hv
    · cases part with
      | topLevel => exact absurd hh List.not_mem_nil
      | component =>
        obtain ⟨below, hbelow, hdown⟩ := hl.tops h (hcomponents ▸ hh)
        exact ⟨below, hleft below hbelow, hdown⟩
      | child =>
        obtain ⟨below, hbelow, hdown⟩ := hm.tops h (hchildren ▸ hh)
        exact ⟨below, hright below hbelow, hdown⟩
    · obtain ⟨below, hbelow, hdown⟩ := hl.down v hv part h hh
      exact ⟨below, hleft below hbelow, hdown⟩
    · obtain ⟨below, hbelow, hdown⟩ := hm.down v hv part h hh
      exact ⟨below, hright below hbelow, hdown⟩

mutual

theorem joined_tree (kind : Kind) (parent top : Option Handle) (s : Stock) (b : Blueprint) :
    Joined kind parent (tree kind parent top s b : Layout β) := by
  match b with
  | .mk name attachments demands components children =>
    have hparts := joined_trees .component s.take.1 (top.getD s.take.1) s.take.2 components
    have hkids := joined_trees .child s.take.1 (top.getD s.take.1)
      (trees .component s.take.1 (top.getD s.take.1) s.take.2 components : Layout β).stock children
    simp only [tree]
    refine hparts.cons hkids ?_ ?_ ?_ ?_ ?_ _ <;> rfl

theorem joined_trees (kind : Kind) (parent top : Handle) (s : Stock) (bs : List Blueprint) :
    Joined kind (some parent) (trees kind parent top s bs : Layout β) := by
  match bs with
  | [] =>
    simp only [trees]
    constructor <;> simp
  | b :: rest =>
    have hfirst := joined_tree kind (some parent) (some top) s b
    have hrest := joined_trees kind parent top
      (tree kind (some parent) (some top) s b : Layout β).stock rest
    simp only [trees]
    exact hfirst.append hrest _

end

end Layout

namespace Forest

variable {β : Type} {f g : Forest β} {h k root : Handle} {b : Blueprint} {us : List (LiveUnit β)}

/-- What one end of a link says, the other end says too. -/
structure Linked (f : Forest β) : Prop where
  topLevel : ∀ {h : Handle} {n : Node}, f.node? h = some n →
    (n.kind = .topLevel ↔ n.parent = none)
  up : ∀ {h k : Handle} {n : Node}, f.node? h = some n → n.parent = some k →
    ∃ above, f.node? k = some above ∧ h ∈ above.hanging n.kind ∧ above.top = n.top
  down : ∀ {h k : Handle} {n : Node} {part : Kind}, f.node? h = some n → k ∈ n.hanging part →
    ∃ below, f.node? k = some below ∧ below.kind = part ∧ below.parent = some h ∧
      below.top = n.top

theorem linked_empty : (empty : Forest β).Linked := by
  constructor
  all_goals simp [node?, get?, empty]

/-- A tree whose links agree, planted next to others whose links agree. -/
theorem Linked.laid {l : Layout β} (linked : f.Linked) (laid : Laid f b root l.units g)
    (joined : Layout.Joined .topLevel none l) : g.Linked := by
  have hroot : ∀ u ∈ l.units, u.top = root := fun u hu ↦ (laid.fresh u hu).1.top
  refine ⟨fun {h n} hn ↦ ?_, fun {h k n} hn hparent ↦ ?_, fun {h k n part} hn hk ↦ ?_⟩
  · rcases laid.cases hn with ⟨u, hu, -, rfl⟩ | hn
    · rcases joined.up u hu with ⟨hkind, hparent, -⟩ | ⟨above, -, hparent, hup⟩
      · simp [hkind, hparent]
      · have hkind : u.kind ≠ .topLevel := fun heq ↦ by simp [heq, Node.hanging] at hup
        simp [hkind, hparent]
    · exact linked.topLevel hn
  · rcases laid.cases hn with ⟨u, hu, rfl, rfl⟩ | hn
    · rcases joined.up u hu with ⟨-, hnone, -⟩ | ⟨above, habove, hsome, hup⟩
      · exact absurd (hnone.symm.trans hparent) (by simp)
      · obtain rfl : above.id = k := Option.some_inj.1 (hsome.symm.trans hparent)
        exact ⟨_, laid.node?_of_mem habove, hup, (hroot above habove).trans (hroot u hu).symm⟩
    · obtain ⟨above, habove, hup⟩ := linked.up hn hparent
      exact ⟨above, laid.node? habove, hup⟩
  · rcases laid.cases hn with ⟨u, hu, rfl, rfl⟩ | hn
    · obtain ⟨below, hbelow, rfl, hkind, hparent⟩ := joined.down u hu part k hk
      exact ⟨_, laid.node?_of_mem hbelow, hkind, hparent,
        (hroot below hbelow).trans (hroot u hu).symm⟩
    · obtain ⟨below, hbelow, hdown⟩ := linked.down hn hk
      exact ⟨below, laid.node? hbelow, hdown⟩

theorem Linked.planted (linked : f.Linked) (sound : f.Sound) (hplant : f.plant b = .ok (root, g)) :
    g.Linked :=
  linked.laid (sound.laid_planted hplant) (Layout.joined_tree .topLevel none none f.stock b)

/-- No link leads out of the tree that is uprooted. -/
theorem Linked.uprooted (linked : f.Linked) (sound : f.Sound) {t : Node}
    (ht : f.node? root = some t) (hkind : t.kind = .topLevel) : (f.uproot root).2.Linked := by
  have hstay : ∀ {k : Handle} {n : Node}, (f.uproot root).2.node? k = some n ↔
      f.node? k = some n ∧ n.top ≠ root := sound.node?_uproot_iff ht hkind
  refine ⟨fun hn ↦ linked.topLevel (hstay.1 hn).1, fun hn hparent ↦ ?_, fun hn hk ↦ ?_⟩
  · obtain ⟨hn, hne⟩ := hstay.1 hn
    obtain ⟨above, habove, hup, htop⟩ := linked.up hn hparent
    exact ⟨above, hstay.2 ⟨habove, htop ▸ hne⟩, hup, htop⟩
  · obtain ⟨hn, hne⟩ := hstay.1 hn
    obtain ⟨below, hbelow, hpart, hparent, htop⟩ := linked.down hn hk
    exact ⟨below, hstay.2 ⟨hbelow, htop ▸ hne⟩, hpart, hparent, htop⟩

theorem Sound.topLevel_iff (sound : f.Sound) {n : Node} (hn : f.node? h = some n) :
    n.kind = .topLevel ↔ n.top = h := by
  refine ⟨sound.top_self hn, fun htop ↦ ?_⟩
  obtain ⟨t, ht, hkind⟩ := sound.top hn
  rw [htop, hn, Option.some_inj] at ht
  rw [ht]
  exact hkind

/-! The way down. -/

/-- One unit hangs below another. -/
def Below (f : Forest β) (h k : Handle) : Prop :=
  ∃ n, f.node? h = some n ∧ k ∈ n.components ++ n.children

theorem Spans.sublist {place : Handle → Option Node} {hs l : List Handle}
    (spans : Spans place hs l) : hs.Sublist l := by
  induction spans with
  | nil => exact .slnil
  | cons _ _ _ _ ihRest => exact (ihRest.trans (List.sublist_append_right _ _)).cons_cons _

/-- There is a way down from the handles that are spanned to each unit that is listed. -/
theorem Spans.exists_reaches {hs l : List Handle} (spans : Spans f.node? hs l) (hk : k ∈ l) :
    ∃ h ∈ hs, Relation.ReflTransGen f.Below h k := by
  induction spans with
  | nil => exact absurd hk List.not_mem_nil
  | @cons h n below rest hs hn _ _ ihBelow ihRest =>
    rcases List.mem_cons.1 hk with rfl | hk
    · exact ⟨_, List.mem_cons_self, .refl⟩
    · rcases List.mem_append.1 hk with hk | hk
      · obtain ⟨m, hm, hreach⟩ := ihBelow hk
        exact ⟨h, List.mem_cons_self, .head ⟨n, hn, hm⟩ hreach⟩
      · obtain ⟨m, hm, hreach⟩ := ihRest hk
        exact ⟨m, List.mem_cons_of_mem _ hm, hreach⟩

/-- The tree on any unit, top-level or not, spans it. -/
theorem Sound.spans_tree (sound : f.Sound) {n : Node} (hn : f.node? h = some n) :
    Spans f.node? [h] (f.tree h) := by
  obtain ⟨t, ht, hkind⟩ := sound.top hn
  obtain ⟨hspans, hnodup, hmem⟩ := sound.tree_spec ht hkind
  obtain ⟨m, hm, hpart⟩ := hspans.exists_infix ((hmem h).2 ⟨n, hn, rfl⟩)
  rwa [hm.tree_eq (hnodup.sublist hpart.sublist)]

/-- The tree on a unit lists the unit and then what is spanned by the units below it. -/
theorem Sound.exists_tree_eq (sound : f.Sound) {n : Node} (hn : f.node? h = some n) :
    ∃ below, f.tree h = h :: below ∧ Spans f.node? (n.components ++ n.children) below := by
  have hspans := sound.spans_tree hn
  generalize f.tree h = l at hspans
  cases hspans with
  | cons hm hbelow hrest =>
    cases hrest
    rw [hn, Option.some_inj] at hm
    subst hm
    exact ⟨_, by rw [List.append_nil], hbelow⟩

/-- No unit hangs below another twice. -/
theorem Sound.nodup_hanging (sound : f.Sound) {n : Node} (hn : f.node? h = some n) :
    (n.components ++ n.children).Nodup := by
  obtain ⟨below, htree, hbelow⟩ := sound.exists_tree_eq hn
  have hnodup := sound.nodup_tree h
  rw [htree, List.nodup_cons] at hnodup
  exact hnodup.2.sublist hbelow.sublist

/-- A tree is larger than the trees on the units below it. -/
theorem Sound.length_tree_lt (sound : f.Sound) (below : f.Below h k) :
    (f.tree k).length < (f.tree h).length := by
  obtain ⟨n, hn, hk⟩ := below
  obtain ⟨below, htree, hbelow⟩ := sound.exists_tree_eq hn
  have hnodup := sound.nodup_tree h
  rw [htree, List.nodup_cons] at hnodup
  obtain ⟨part, hspans, hpart⟩ := hbelow.exists_infix (hbelow.sublist.subset hk)
  have hle : part.length ≤ below.length := hpart.sublist.length_le
  rw [hspans.tree_eq (hnodup.2.sublist hpart.sublist), htree, List.length_cons]
  omega

/-- No way down leads back to where it began. -/
theorem Sound.acyclic (sound : f.Sound) : ¬Relation.TransGen f.Below h h := by
  intro hcycle
  have hlt : ∀ {k}, Relation.TransGen f.Below h k → (f.tree k).length < (f.tree h).length := by
    intro k hk
    induction hk with
    | single hbelow => exact sound.length_tree_lt hbelow
    | tail _ hbelow ih => exact Nat.lt_trans (sound.length_tree_lt hbelow) ih
  exact absurd (hlt hcycle) (Nat.lt_irrefl _)

/-! All trees of a forest. -/

/-- The top-level units in the order of their slots. -/
def tops (f : Forest β) : List Handle :=
  (List.range f.slots.length).filter fun h ↦ (f.get? h).any fun u ↦ u.kind == .topLevel

/-- The live handles, tree by tree. -/
def visits (f : Forest β) : List Handle := f.tops.flatMap f.tree

theorem mem_tops_iff : h ∈ f.tops ↔ ∃ n, f.node? h = some n ∧ n.kind = .topLevel := by
  unfold tops
  rw [List.mem_filter, List.mem_range, Option.any_eq_true]
  constructor
  · rintro ⟨-, u, hu, hkind⟩
    exact ⟨_, node?_of_get? hu, eq_of_beq hkind⟩
  · rintro ⟨n, hn, hkind⟩
    obtain ⟨u, hu, rfl⟩ := node?_eq_some_iff.1 hn
    exact ⟨lt_length_of_node? hn, u, hu, beq_iff_eq.2 hkind⟩

theorem Sound.mem_visits_iff (sound : f.Sound) : h ∈ f.visits ↔ ∃ u, f.get? h = some u := by
  unfold visits
  rw [List.mem_flatMap]
  constructor
  · rintro ⟨r, -, hh⟩
    exact exists_get?_of_mem_walk hh
  · rintro ⟨u, hu⟩
    have hn := node?_of_get? hu
    obtain ⟨t, ht, hkind⟩ := sound.top hn
    exact ⟨u.top, mem_tops_iff.2 ⟨t, ht, hkind⟩, (sound.mem_tree_iff ht hkind).2 ⟨_, hn, rfl⟩⟩

/-- Two trees have no unit in common. -/
theorem Sound.nodup_visits (sound : f.Sound) : f.visits.Nodup := by
  refine List.nodup_flatMap.2 ⟨fun r _ ↦ sound.nodup_tree r, ?_⟩
  have hdistinct : f.tops.Nodup := List.nodup_range.filter _
  refine hdistinct.pairwise_of_forall_ne fun r hr q hq hne h hh hh' ↦ hne ?_
  obtain ⟨t, ht, hkind⟩ := mem_tops_iff.1 hr
  obtain ⟨t', ht', hkind'⟩ := mem_tops_iff.1 hq
  obtain ⟨n, hn, htop⟩ := (sound.mem_tree_iff ht hkind).1 hh
  obtain ⟨n', hn', htop'⟩ := (sound.mem_tree_iff ht' hkind').1 hh'
  rw [hn, Option.some_inj] at hn'
  rw [← htop, ← htop', hn']

end Forest

end Rollout
