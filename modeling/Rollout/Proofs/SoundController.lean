import Rollout.Controller.Run
import Rollout.Proofs.Planting
import Rollout.Proofs.StageOrder
import Rollout.Proofs.TreeWork
import Rollout.Proofs.Uprooting

/-!
Sound controllers. In a sound controller the board tracks exactly the top-level units of a sound
forest, under their names and at stages of the chain; and a queued name that is also live belongs to
a deployment that is to be removed and that the queued one replaces. Work on the units of the forest
and changes of what is written on the board keep this, each under a small condition of its own.
-/

set_option autoImplicit false
set_option relaxedAutoImplicit false

namespace Rollout

variable {β σ : Type}

namespace Controller

/-- The parts of a controller fit together. -/
structure Sound (c : Controller β σ) : Prop where
  forest : c.forest.Sound
  order : c.board.order.Nodup
  mem_order : ∀ {h : Handle}, h ∈ c.board.order ↔
    ∃ t, c.forest.node? h = some t ∧ t.kind = .topLevel
  tracked : ∀ {h : Handle}, h ∈ c.board.order ↔ ∃ p, c.board.get? h = some p
  name : ∀ {h : Handle} {p : Progress} {t : Node}, c.board.get? h = some p →
    c.forest.node? h = some t → t.name = p.name
  stage : ∀ {h : Handle} {p : Progress}, c.board.get? h = some p →
    c.chain.contains p.stage = true
  requested : ∀ {h : Handle} {p : Progress}, c.board.get? h = some p →
    c.chain.contains p.requested = true
  removing : ∀ {h : Handle} {p : Progress}, c.board.get? h = some p → p.removing = true →
    p.requested = Stage.floor
  target : c.chain.contains c.target = true
  chain : c.roster.chain = c.chain
  passes : 0 < c.config.maxPasses
  queueBlank : ∀ b ∈ c.queue, ∀ name ∈ b.names, Text.isBlank name = false
  queueNodup : (c.queue.flatMap Blueprint.names).Nodup
  claimed : ∀ b ∈ c.queue, ∀ name ∈ b.names, ∀ {h : Handle} {n : Node},
    c.forest.node? h = some n → n.name = name →
      ∃ p, c.board.get? n.top = some p ∧ p.removing = true ∧ p.name = b.name

variable {c d : Controller β σ} {h root : Handle} {p q : Progress}

theorem Sound.exists_top (sound : c.Sound) (hp : c.board.get? root = some p) :
    ∃ t, c.forest.node? root = some t ∧ t.kind = .topLevel :=
  sound.mem_order.1 (sound.tracked.2 ⟨p, hp⟩)

theorem Sound.mem_tree_iff (sound : c.Sound) (hp : c.board.get? root = some p) :
    h ∈ c.forest.tree root ↔ ∃ n, c.forest.node? h = some n ∧ n.top = root := by
  obtain ⟨t, ht, hkind⟩ := sound.exists_top hp
  exact sound.forest.mem_tree_iff ht hkind

/-- Every live unit belongs to a tracked deployment. -/
theorem Sound.exists_progress (sound : c.Sound) {n : Node} (hn : c.forest.node? h = some n) :
    ∃ p, c.board.get? n.top = some p := by
  obtain ⟨t, ht, hkind⟩ := sound.forest.top hn
  exact sound.tracked.1 (sound.mem_order.2 ⟨t, ht, hkind⟩)

/-- Progress in the same deployments: each keeps its name, is at stages of the chain, and stays to
be removed if it was. -/
structure Keeps (chain : Chain) (p q : Progress) : Prop where
  name : q.name = p.name
  stage : chain.contains q.stage = true
  requested : chain.contains q.requested = true
  removing : q.removing = true → q.requested = Stage.floor
  still : p.removing = true → q.removing = true

/-- What is kept when units are worked on and when progress is written down. -/
structure Alike (c d : Controller β σ) : Prop where
  shape : c.forest.SameShape d.forest
  order : d.board.order = c.board.order
  get? : ∀ {h : Handle} {q : Progress}, d.board.get? h = some q →
    ∃ p, c.board.get? h = some p ∧ Keeps c.chain p q
  tracked : ∀ {h : Handle} {p : Progress}, c.board.get? h = some p →
    ∃ q, d.board.get? h = some q
  chain : d.chain = c.chain
  roster : d.roster.chain = c.roster.chain
  target : d.target = c.target
  config : d.config = c.config
  queue : d.queue = c.queue

theorem Sound.of_alike (sound : c.Sound) (alike : Alike c d) : d.Sound := by
  have hnode : ∀ k, d.forest.node? k = c.forest.node? k := fun k ↦ (alike.shape.node? k).symm
  refine ⟨sound.forest.of_sameShape alike.shape, alike.order ▸ sound.order, ?_, ?_, ?_, ?_, ?_, ?_,
    ?_, ?_, ?_, ?_, ?_, ?_⟩
  · intro k
    rw [alike.order, hnode]
    exact sound.mem_order
  · intro k
    rw [alike.order, sound.tracked]
    constructor
    · rintro ⟨p, hp⟩
      exact alike.tracked hp
    · rintro ⟨q, hq⟩
      obtain ⟨p, hp, _⟩ := alike.get? hq
      exact ⟨p, hp⟩
  · intro k q t hq ht
    obtain ⟨p, hp, hkeeps⟩ := alike.get? hq
    rw [hnode] at ht
    rw [hkeeps.name]
    exact sound.name hp ht
  · intro k q hq
    obtain ⟨p, hp, hkeeps⟩ := alike.get? hq
    rw [alike.chain]
    exact hkeeps.stage
  · intro k q hq
    obtain ⟨p, hp, hkeeps⟩ := alike.get? hq
    rw [alike.chain]
    exact hkeeps.requested
  · intro k q hq
    obtain ⟨p, hp, hkeeps⟩ := alike.get? hq
    exact hkeeps.removing
  · rw [alike.chain, alike.target]
    exact sound.target
  · rw [alike.roster, alike.chain]
    exact sound.chain
  · rw [alike.config]
    exact sound.passes
  · rw [alike.queue]
    exact sound.queueBlank
  · rw [alike.queue]
    exact sound.queueNodup
  · rw [alike.queue]
    intro b hb name hname k n hn heq
    rw [hnode] at hn
    obtain ⟨p, hp, hremoving, hpname⟩ := sound.claimed b hb name hname hn heq
    obtain ⟨q, hq⟩ := alike.tracked hp
    obtain ⟨p', hp', hkeeps⟩ := alike.get? hq
    rw [hp, Option.some_inj] at hp'
    subst hp'
    exact ⟨q, hq, hkeeps.still hremoving, hkeeps.name.trans hpname⟩

theorem Sound.keeps_self (sound : c.Sound) (hp : c.board.get? h = some p) :
    Keeps c.chain p p :=
  ⟨rfl, sound.stage hp, sound.requested hp, sound.removing hp, id⟩

/-- Changing the progress of one deployment in a way that fits keeps a controller alike. -/
theorem Sound.alike_update (sound : c.Sound) (change : Progress → Progress)
    (hroot : ∀ p, (change p).root = p.root)
    (hkeeps : ∀ p, c.board.get? root = some p → Keeps c.chain p (change p))
    {site : Site β σ} (hshape : c.forest.SameShape site.forest)
    (hroster : site.ambient.roster.chain = c.roster.chain) :
    Alike c { c with site, board := c.board.update root change } := by
  refine ⟨hshape, rfl, fun {k q} hq ↦ ?_, fun {k p} hp ↦ ?_, rfl, hroster, rfl, rfl, rfl⟩
  · rw [Board.get?_update _ _ _ hroot] at hq
    by_cases hk : k = root
    · subst hk
      rw [if_pos rfl, Option.map_eq_some_iff] at hq
      obtain ⟨p, hp, rfl⟩ := hq
      exact ⟨p, hp, hkeeps p hp⟩
    · rw [if_neg hk] at hq
      exact ⟨q, hq, sound.keeps_self hq⟩
  · show ∃ q, (c.board.update root change).get? k = some q
    rw [Board.get?_update _ _ _ hroot]
    by_cases hk : k = root
    · subst hk
      exact ⟨change p, by simp [hp]⟩
    · exact ⟨p, by simp [hk, hp]⟩

theorem Alike.note (alike : Alike c d) (e : Entry β) : Alike c (d.note e) :=
  ⟨alike.shape, alike.order, alike.get?, alike.tracked, alike.chain, alike.roster, alike.target,
    alike.config, alike.queue⟩

theorem Sound.note (sound : c.Sound) (e : Entry β) : (c.note e).Sound :=
  ⟨sound.forest, sound.order, sound.mem_order, sound.tracked, sound.name, sound.stage,
    sound.requested, sound.removing, sound.target, sound.chain, sound.passes, sound.queueBlank,
    sound.queueNodup, sound.claimed⟩

/-! A deployment that is entered on the board, and one that is taken off it. -/

/-- The controller with a tree planted and entered on the board. -/
def settled (b : Blueprint) (root : Handle) (forest : Forest β) (c : Controller β σ) :
    Controller β σ :=
  let entered := { c with
    site := { c.site with forest }
    board := c.board.enter root b.name c.target }
  entered.note (.added root b (forest.tree root).length c.target)

theorem Sound.vacant_of_planted (sound : c.Sound) {b : Blueprint} {g : Forest β}
    (planted : Forest.Planted c.forest b root g) : c.board.get? root = none := by
  cases hp : c.board.get? root with
  | none => rfl
  | some p =>
    obtain ⟨t, ht, _⟩ := sound.exists_top hp
    rw [planted.vacant] at ht
    exact absurd ht (by simp)

theorem get?_board_settled {b : Blueprint} {g : Forest β} :
    (c.settled b root g).board.get? h =
      if h = root then some (Progress.start root b.name c.target) else c.board.get? h :=
  Board.get?_enter _ _ _ _ _

theorem of_get?_settled {b : Blueprint} {g : Forest β}
    (hq : (c.settled b root g).board.get? h = some q) :
    h = root ∧ q = Progress.start root b.name c.target ∨ h ≠ root ∧ c.board.get? h = some q := by
  rw [get?_board_settled] at hq
  by_cases hh : h = root
  · rw [if_pos hh] at hq
    exact Or.inl ⟨hh, (Option.some_inj.1 hq).symm⟩
  · rw [if_neg hh] at hq
    exact Or.inr ⟨hh, hq⟩

theorem Sound.get?_settled (sound : c.Sound) {b : Blueprint} {g : Forest β}
    (planted : Forest.Planted c.forest b root g) (hp : c.board.get? h = some p) :
    (c.settled b root g).board.get? h = some p := by
  have hne : h ≠ root := fun heq ↦ by
    rw [heq, sound.vacant_of_planted planted] at hp
    exact absurd hp (by simp)
  rw [get?_board_settled, if_neg hne, hp]

theorem Sound.settled (sound : c.Sound) {b : Blueprint} {g : Forest β}
    (planted : Forest.Planted c.forest b root g) (hqueue : c.queue = []) :
    (c.settled b root g).Sound := by
  have horder : (c.settled b root g).board.order = c.board.order ++ [root] := rfl
  have hroot : root ∉ c.board.order := by
    rw [sound.tracked, sound.vacant_of_planted planted]
    simp
  have hforest : (c.settled b root g).forest = g := rfl
  refine ⟨planted.sound, ?_, ?_, ?_, ?_, ?_, ?_, ?_, sound.target, sound.chain, sound.passes,
    ?_, ?_, ?_⟩
  · rw [horder, List.nodup_append]
    refine ⟨sound.order, List.nodup_singleton _, fun k hk k' hk' heq ↦ hroot ?_⟩
    rwa [← List.mem_singleton.1 hk', ← heq]
  · intro k
    rw [horder, hforest, List.mem_append, List.mem_singleton, sound.mem_order]
    constructor
    · rintro (⟨t, ht, hkind⟩ | rfl)
      · exact ⟨t, planted.node? ht, hkind⟩
      · obtain ⟨t, ht, hkind, _⟩ := planted.top
        exact ⟨t, ht, hkind⟩
    · rintro ⟨t, ht, hkind⟩
      obtain ⟨u, hu, rfl⟩ := Forest.node?_eq_some_iff.1 ht
      rcases planted.fresh hu with hold | ⟨_, _, _, htop⟩
      · exact Or.inl ⟨_, Forest.node?_of_get? hold, hkind⟩
      · exact Or.inr (htop hkind)
  · intro k
    rw [horder, List.mem_append, List.mem_singleton, sound.tracked, get?_board_settled]
    by_cases hk : k = root <;> simp [hk]
  · intro k p t hp ht
    rw [hforest] at ht
    rcases of_get?_settled hp with ⟨rfl, rfl⟩ | ⟨hk, hp⟩
    · obtain ⟨t', ht', _, hname⟩ := planted.top
      rw [ht, Option.some_inj] at ht'
      rw [ht', hname]
      rfl
    · obtain ⟨t', ht', _⟩ := sound.exists_top hp
      rw [planted.node? ht', Option.some_inj] at ht
      exact ht ▸ sound.name hp ht'
  · intro k p hp
    rcases of_get?_settled hp with ⟨_, rfl⟩ | ⟨_, hp⟩
    · exact c.chain.contains_floor
    · exact sound.stage hp
  · intro k p hp
    rcases of_get?_settled hp with ⟨_, rfl⟩ | ⟨_, hp⟩
    · exact sound.target
    · exact sound.requested hp
  · intro k p hp hremoving
    rcases of_get?_settled hp with ⟨_, rfl⟩ | ⟨_, hp⟩
    · exact absurd hremoving (by simp [Progress.start])
    · exact sound.removing hp hremoving
  · show ∀ b ∈ c.queue, _
    simp [hqueue]
  · show (c.queue.flatMap Blueprint.names).Nodup
    simp [hqueue]
  · show ∀ b ∈ c.queue, _
    simp [hqueue]

/-- The trees of the deployments that are there stay as they are when another one is planted. -/
theorem Sound.tree_settled (sound : c.Sound) {b : Blueprint} {g : Forest β}
    (planted : Forest.Planted c.forest b root g) (hp : c.board.get? h = some p) :
    g.tree h = c.forest.tree h := by
  obtain ⟨t, ht, hkind⟩ := sound.exists_top hp
  refine sound.forest.tree_congr planted.sound ht hkind fun k hk ↦ ?_
  obtain ⟨n, hn, _⟩ := (sound.mem_tree_iff hp).1 hk
  rw [hn, planted.node? hn]

theorem Sound.treeUnits_settled (sound : c.Sound) {b : Blueprint} {g : Forest β}
    (planted : Forest.Planted c.forest b root g) (hp : c.board.get? h = some p) :
    g.treeUnits h = c.forest.treeUnits h := by
  refine Forest.treeUnits_congr (sound.tree_settled planted hp) fun k hk ↦ ?_
  obtain ⟨n, hn, _⟩ := (sound.mem_tree_iff hp).1 hk
  obtain ⟨u, hu, _⟩ := Forest.node?_eq_some_iff.1 hn
  rw [hu, planted.kept hu]

theorem discard_eq (hp : c.board.get? root = some p) :
    c.discard root = ({ c with
      board := c.board.leave root
      site := { c.site with forest := (c.forest.uproot root).2 } } : Controller β σ).note
        (.removed root p.name (c.forest.uproot root).1) := by
  unfold discard
  rw [hp]

theorem chain_discard (hp : c.board.get? root = some p) : (c.discard root).chain = c.chain := by
  rw [discard_eq hp]
  rfl

theorem Sound.uprooted (sound : c.Sound) (hp : c.board.get? root = some p) :
    Forest.Uprooted c.forest root (c.forest.uproot root).1 (c.forest.uproot root).2 := by
  obtain ⟨t, ht, hkind⟩ := sound.exists_top hp
  exact sound.forest.uprooted ht hkind

theorem Sound.discard (sound : c.Sound) (hp : c.board.get? root = some p) :
    (c.discard root).Sound := by
  have huprooted := sound.uprooted hp
  rw [discard_eq hp]
  refine Sound.note ?_ _
  have hget : ∀ k, (c.board.leave root).get? k = if k = root then none else c.board.get? k :=
    fun k ↦ Board.get?_leave _ _ _
  have hstay : ∀ {k q}, (c.board.leave root).get? k = some q →
      k ≠ root ∧ c.board.get? k = some q := by
    intro k q hq
    rw [hget] at hq
    by_cases hk : k = root
    · simp [hk] at hq
    · exact ⟨hk, by simpa [hk] using hq⟩
  obtain ⟨t, ht, hkind⟩ := sound.exists_top hp
  have hnode : ∀ {k n}, (c.forest.uproot root).2.node? k = some n ↔
      c.forest.node? k = some n ∧ n.top ≠ root := sound.forest.node?_uproot_iff ht hkind
  have horder : (c.board.leave root).order = c.board.order.filter (· != root) := rfl
  refine ⟨huprooted.sound, ?_, ?_, ?_, ?_, ?_, ?_, ?_, sound.target, sound.chain, sound.passes,
    sound.queueBlank, sound.queueNodup, ?_⟩
  · show ((c.board.leave root).order).Nodup
    rw [horder]
    exact sound.order.filter _
  · intro k
    show k ∈ (c.board.leave root).order ↔ ∃ t, (c.forest.uproot root).2.node? k = some t ∧ _
    rw [horder, List.mem_filter, sound.mem_order, bne_iff_ne]
    constructor
    · rintro ⟨⟨t, ht, hkind⟩, hne⟩
      refine ⟨t, hnode.2 ⟨ht, fun htop ↦ hne ?_⟩, hkind⟩
      exact (sound.forest.top_self ht hkind).symm.trans htop
    · rintro ⟨t, ht, hkind⟩
      obtain ⟨ht, hne⟩ := hnode.1 ht
      refine ⟨⟨t, ht, hkind⟩, fun heq ↦ hne ?_⟩
      exact (sound.forest.top_self ht hkind).trans heq
  · intro k
    show k ∈ (c.board.leave root).order ↔ ∃ q, (c.board.leave root).get? k = some q
    rw [horder, List.mem_filter, sound.tracked, bne_iff_ne, hget]
    by_cases hk : k = root <;> simp [hk]
  · intro k q t hq ht
    exact sound.name (hstay hq).2 (hnode.1 ht).1
  · intro k q hq
    exact sound.stage (hstay hq).2
  · intro k q hq
    exact sound.requested (hstay hq).2
  · intro k q hq
    exact sound.removing (hstay hq).2
  · intro b hb name hname k n hn heq
    obtain ⟨hn, hne⟩ := hnode.1 hn
    obtain ⟨q, hq, hrest⟩ := sound.claimed b hb name hname hn heq
    exact ⟨q, by simpa [hget, hne] using hq, hrest⟩

theorem Sound.get?_forest_discard (sound : c.Sound) (hp : c.board.get? root = some p)
    {u : LiveUnit β} : (c.discard root).forest.get? h = some u ↔
      c.forest.get? h = some u ∧ u.top ≠ root := by
  rw [discard_eq hp]
  show (c.forest.uproot root).2.get? h = some u ↔ _
  rw [(sound.uprooted hp).get?]
  by_cases hh : h ∈ c.forest.tree root
  · rw [if_pos hh]
    obtain ⟨n, hn, htop⟩ := (sound.mem_tree_iff hp).1 hh
    refine ⟨fun hnone ↦ absurd hnone (by simp), fun hu ↦ absurd ?_ hu.2⟩
    rw [Forest.node?_of_get? hu.1, Option.some_inj] at hn
    rw [hn]
    exact htop
  · rw [if_neg hh]
    refine ⟨fun hu ↦ ⟨hu, fun htop ↦ hh ?_⟩, And.left⟩
    exact (sound.mem_tree_iff hp).2 ⟨_, Forest.node?_of_get? hu, htop⟩

/-- The trees of all other deployments stay as they are when one is taken out. -/
theorem Sound.tree_discard (sound : c.Sound) (hp : c.board.get? root = some p)
    (hq : c.board.get? h = some q) (hne : h ≠ root) :
    (c.discard root).forest.tree h = c.forest.tree h := by
  obtain ⟨t, ht, hkind⟩ := sound.exists_top hq
  refine sound.forest.tree_congr (sound.discard hp).forest ht hkind fun k hk ↦ ?_
  obtain ⟨n, hn, htop⟩ := (sound.mem_tree_iff hq).1 hk
  obtain ⟨u, hu, rfl⟩ := Forest.node?_eq_some_iff.1 hn
  have hne' : u.top ≠ root := fun heq ↦ hne (htop.symm.trans heq)
  rw [hn, Forest.node?_of_get? ((sound.get?_forest_discard hp).2 ⟨hu, hne'⟩)]

theorem Sound.treeUnits_discard (sound : c.Sound) (hp : c.board.get? root = some p)
    (hq : c.board.get? h = some q) (hne : h ≠ root) :
    (c.discard root).forest.treeUnits h = c.forest.treeUnits h := by
  refine Forest.treeUnits_congr (sound.tree_discard hp hq hne) fun k hk ↦ ?_
  obtain ⟨n, hn, htop⟩ := (sound.mem_tree_iff hq).1 hk
  obtain ⟨u, hu, rfl⟩ := Forest.node?_eq_some_iff.1 hn
  have hne' : u.top ≠ root := fun heq ↦ hne (htop.symm.trans heq)
  rw [hu, (sound.get?_forest_discard hp).2 ⟨hu, hne'⟩]

theorem get?_board_discard (hp : c.board.get? root = some p) :
    (c.discard root).board.get? h = if h = root then none else c.board.get? h := by
  rw [discard_eq hp]
  exact Board.get?_leave _ _ _

theorem of_get?_discard (hp : c.board.get? root = some p)
    (hq : (c.discard root).board.get? h = some q) : h ≠ root ∧ c.board.get? h = some q := by
  rw [get?_board_discard hp] at hq
  by_cases hh : h = root
  · rw [if_pos hh] at hq
    exact absurd hq (by simp)
  · rw [if_neg hh] at hq
    exact ⟨hh, hq⟩

end Controller

end Rollout
