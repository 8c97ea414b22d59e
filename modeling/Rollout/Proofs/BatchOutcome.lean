import Rollout.Proofs.Requests

/-!
What a batch comes to. A batch cannot be refused and cannot run into a fault. After it nothing is
queued, what was queued is live and tracked, what was to be removed is gone with all its units, and
nothing is above the stage it is asked for. So a live deployment can always be undeployed.
-/

set_option autoImplicit false
set_option relaxedAutoImplicit false

namespace Rollout.Controller

variable {β σ : Type} {crew : Crew β σ} {c d : Controller β σ} {h root : Handle} {p q : Progress}
  {name : String}

/-- What a batch comes to: the tracked deployments are those that were not to be removed and those
that were queued, and the live names are theirs; whatever was to be removed has been taken out. -/
structure Completed (c d : Controller β σ) : Prop where
  queue : d.queue = []
  planted : ∀ b ∈ c.queue, ∃ root, d.forest.topLevel? b.name = some root ∧
    root ∈ d.board.order ∧ d.forest.treeNames root = b.names
  removed : ∀ p ∈ c.board.tracked, p.removing = true →
    Told c d (.removed p.root p.name (c.forest.treeNames p.root))
  tracked : d.names =
    (c.board.tracked.filter fun p ↦ !p.removing).map Progress.name ++ c.queuedNames
  live : ∀ name, (d.forest.find? name).isSome = true ↔
    (∃ p ∈ c.board.tracked, p.removing = false ∧ name ∈ c.forest.treeNames p.root) ∨
      ∃ b ∈ c.queue, name ∈ b.names
  low : ∀ p ∈ d.board.tracked, p.removing = false ∧ ¬ p.requested < p.stage

/-- A name is live if and only if it is among the names of a tracked deployment. -/
theorem Sound.isSome_find?_iff (sound : c.Sound) :
    (c.forest.find? name).isSome = true ↔
      ∃ h ∈ c.board.order, name ∈ c.forest.treeNames h := by
  rw [Option.isSome_iff_exists]
  constructor
  · rintro ⟨k, hk⟩
    obtain ⟨n, hn, rfl⟩ := sound.forest.find?_eq_some_iff.1 hk
    obtain ⟨p, hp⟩ := sound.exists_progress hn
    obtain ⟨u, hu, rfl⟩ := Forest.node?_eq_some_iff.1 hn
    refine ⟨u.top, sound.tracked.2 ⟨p, hp⟩, List.mem_map.2 ⟨u, ?_, rfl⟩⟩
    exact List.mem_filterMap.2 ⟨k, (sound.mem_tree_iff hp).2 ⟨_, hn, rfl⟩, hu⟩
  · rintro ⟨h, _, hname⟩
    obtain ⟨u, hu, rfl⟩ := List.mem_map.1 hname
    obtain ⟨k, _, hk⟩ := List.mem_filterMap.1 hu
    exact ⟨k, sound.forest.find?_eq_some_iff.2 ⟨_, Forest.node?_of_get? hk, rfl⟩⟩

theorem Sound.mem_staying_iff (sound : c.Sound) :
    h ∈ c.staying ↔ ∃ p, c.board.get? h = some p ∧ p.removing = false := by
  unfold staying
  rw [List.mem_filter, sound.tracked]
  constructor
  · rintro ⟨⟨p, hp⟩, hstays⟩
    exact ⟨p, hp, by simpa [hp] using hstays⟩
  · rintro ⟨p, hp, hremoving⟩
    exact ⟨⟨p, hp⟩, by simp [hp, hremoving]⟩

/-- The names of the tracked deployments that are not to be removed. -/
theorem names_staying (c : Controller β σ) :
    c.staying.filterMap (fun h ↦ (c.board.get? h).map Progress.name) =
      (c.board.tracked.filter fun p ↦ !p.removing).map Progress.name := by
  unfold staying Board.tracked
  rw [List.filterMap_filter, List.filter_filterMap, List.map_filterMap]
  refine List.filterMap_congr fun h _ ↦ ?_
  cases c.board.get? h with
  | none => rfl
  | some p => cases hremoving : p.removing <;> simp [Option.filter, hremoving]

theorem names_of_hosts {roots : List Handle} {bs : List Blueprint}
    (hall : List.Forall₂ d.Hosts roots bs) :
    roots.filterMap (fun h ↦ (d.board.get? h).map Progress.name) = bs.map Blueprint.name := by
  induction hall with
  | nil => rfl
  | cons hhosts _ ih =>
    obtain ⟨_, _, p, hp, hname, _⟩ := hhosts
    rw [List.filterMap_cons, hp, Option.map_some, hname, List.map_cons, ih]

theorem mem_of_hosts {roots : List Handle} {bs : List Blueprint}
    (hall : List.Forall₂ d.Hosts roots bs) :
    (∀ root ∈ roots, ∃ b ∈ bs, d.Hosts root b) ∧ ∀ b ∈ bs, ∃ root ∈ roots, d.Hosts root b := by
  induction hall with
  | nil => simp
  | cons hhosts _ ih =>
    refine ⟨fun root hroot ↦ ?_, fun b hb ↦ ?_⟩
    · rcases List.mem_cons.1 hroot with rfl | hroot
      · exact ⟨_, List.mem_cons_self, hhosts⟩
      · obtain ⟨b, hb, hb'⟩ := ih.1 root hroot
        exact ⟨b, List.mem_cons_of_mem _ hb, hb'⟩
    · rcases List.mem_cons.1 hb with rfl | hb
      · exact ⟨_, List.mem_cons_self, hhosts⟩
      · obtain ⟨root, hroot, hroot'⟩ := ih.2 b hb
        exact ⟨root, List.mem_cons_of_mem _ hroot, hroot'⟩

/-- Whoever is on a handle was there before under the same name and was not to be removed, or it was
queued and nobody was there who was to stay. -/
def Origin (c d : Controller β σ) : Prop :=
  ∀ h q, d.board.get? h = some q →
    (∃ p, c.board.get? h = some p ∧ p.removing = false ∧ p.name = q.name) ∨
      (∀ p, c.board.get? h = some p → p.removing = true) ∧ ∃ b ∈ c.queue, b.name = q.name

theorem Finished.origin (finished : Finished c d) (sound : c.Sound) (hd : d.Sound) :
    Origin c d := by
  intro h q hq
  obtain ⟨roots, horder, hall⟩ := finished.order
  have hmem : h ∈ d.board.order := hd.tracked.2 ⟨q, hq⟩
  have hnodup := hd.order
  rw [horder] at hmem hnodup
  rcases List.mem_append.1 hmem with hstays | hroot
  · obtain ⟨p, hp, hremoving⟩ := sound.mem_staying_iff.1 hstays
    obtain ⟨r, hr, hname, _⟩ := finished.kept hp hremoving
    obtain rfl := Option.some_inj.1 (hq.symm.trans hr)
    exact Or.inl ⟨p, hp, hremoving, hname.symm⟩
  · obtain ⟨b, hb, _, _, r, hr, hname, _⟩ := (mem_of_hosts hall).1 h hroot
    obtain rfl := Option.some_inj.1 (hq.symm.trans hr)
    refine Or.inr ⟨fun p hp ↦ Bool.of_not_eq_false fun hremoving ↦ ?_, b, hb, hname.symm⟩
    exact (List.nodup_append.1 hnodup).2.2 h (sound.mem_staying_iff.2 ⟨p, hp, hremoving⟩) h hroot
      rfl

theorem Finished.completed (finished : Finished c d) (sound : c.Sound) (hd : d.Sound) :
    Completed c d := by
  obtain ⟨roots, horder, hall⟩ := finished.order
  obtain ⟨heach, hplanted⟩ := mem_of_hosts hall
  refine ⟨finished.queue, fun b hb ↦ ?_, fun p hp hremoving ↦ ?_, ?_, fun name ↦ ?_, fun p hp ↦ ?_⟩
  · obtain ⟨root, _, htop, hnames, q, hq, _⟩ := hplanted b hb
    exact ⟨root, htop, hd.tracked.2 ⟨q, hq⟩, hnames⟩
  · exact finished.told ((mem_tracked_iff sound).1 hp) hremoving
  · have hkept : c.staying.filterMap (fun h ↦ (d.board.get? h).map Progress.name) =
        c.staying.filterMap fun h ↦ (c.board.get? h).map Progress.name := by
      refine List.filterMap_congr fun h hh ↦ ?_
      obtain ⟨p, hp, hremoving⟩ := sound.mem_staying_iff.1 hh
      obtain ⟨q, hq, hname, _⟩ := finished.kept hp hremoving
      rw [hp, hq, Option.map_some, Option.map_some, hname]
    unfold names
    rw [Board.tracked, List.map_filterMap, horder, List.filterMap_append, hkept, names_staying,
      names_of_hosts hall]
    rfl
  · rw [hd.isSome_find?_iff, horder]
    constructor
    · rintro ⟨h, hh, hname⟩
      rcases List.mem_append.1 hh with hh | hh
      · obtain ⟨p, hp, hremoving⟩ := sound.mem_staying_iff.1 hh
        obtain ⟨_, _, _, _, hnames⟩ := finished.kept hp hremoving
        obtain rfl := Board.root_of_get? hp
        exact Or.inl ⟨p, (mem_tracked_iff sound).2 hp, hremoving, hnames ▸ hname⟩
      · obtain ⟨b, hb, _, hnames, _⟩ := heach h hh
        exact Or.inr ⟨b, hb, hnames ▸ hname⟩
    · rintro (⟨p, hp, hremoving, hname⟩ | ⟨b, hb, hname⟩)
      · have hget := (mem_tracked_iff sound).1 hp
        obtain ⟨_, _, _, _, hnames⟩ := finished.kept hget hremoving
        refine ⟨p.root, List.mem_append_left _ ?_, hnames ▸ hname⟩
        exact sound.mem_staying_iff.2 ⟨p, hget, hremoving⟩
      · obtain ⟨root, hroot, _, hnames, _⟩ := hplanted b hb
        exact ⟨root, List.mem_append_right _ hroot, hnames ▸ hname⟩
  · have hget := (mem_tracked_iff hd).1 hp
    refine ⟨finished.staying hget, fun hlt ↦ ?_⟩
    rw [Chain.lt_iff_index (hd.requested hget) (hd.stage hget)] at hlt
    exact Nat.not_lt.2 (finished.low _ p hget) hlt

theorem Sound.exists_completed (sound : c.Sound) (crew : Crew β σ) :
    ∃ d, c.process crew = (.ok (), d) ∧ Completed c d := by
  refine ⟨_, sound.process_ok crew, (sound.finished_process crew).completed sound ?_⟩
  exact Steps.sound (sound.steps_process crew) sound

/-! Undeploying. -/

/-- No two queued deployments share a name. -/
theorem Sound.notMem_of_eraseP (sound : c.Sound) {b : Blueprint} (hb : b ∈ c.queue) :
    ∀ b' ∈ c.queue.eraseP fun b' ↦ b'.name == b.name, b.name ∉ b'.names := by
  obtain ⟨a, first, rest, _, ha, hqueue, herase⟩ :=
    List.exists_of_eraseP (p := fun b' ↦ b'.name == b.name) hb (beq_self_eq_true _)
  have hname : b.name ∈ a.names := eq_of_beq ha ▸ a.name_mem_names
  have hnodup := sound.queueNodup
  rw [hqueue, (List.perm_middle.flatMap_right Blueprint.names).nodup_iff, List.flatMap_cons,
    List.nodup_append] at hnodup
  intro b' hb' hname'
  rw [herase] at hb'
  exact hnodup.2.2 _ hname _ (List.mem_flatMap.2 ⟨b', hb', hname'⟩) rfl

/-- Removing the name of a live deployment finds something to remove, leaves the live one scheduled
for removal, and leaves nothing queued under its name. -/
theorem Sound.remove_live (sound : c.Sound) (hroot : c.forest.topLevel? name = some root) :
    (c.remove name).1 = .ok true ∧
      (∃ q, (c.remove name).2.board.get? root = some q ∧ q.removing = true) ∧
      ∀ b ∈ (c.remove name).2.queue, name ∉ b.names := by
  obtain ⟨t, ht, htname, hkind⟩ := sound.forest.topLevel?_eq_some_iff.1 hroot
  have hself := sound.forest.top_self ht hkind
  obtain ⟨p, hp⟩ := sound.tracked.1 (sound.mem_order.2 ⟨t, ht, hkind⟩)
  unfold remove
  split
  · next hqueued =>
    obtain ⟨b, hb, heq⟩ := List.any_eq_true.1 hqueued
    obtain rfl := eq_of_beq heq
    refine ⟨rfl, ?_, sound.notMem_of_eraseP hb⟩
    obtain ⟨q, hq, hremoving, _⟩ := sound.claimed b hb b.name b.name_mem_names ht htname
    exact ⟨q, hself ▸ hq, hremoving⟩
  · next hqueued =>
    obtain ⟨u, hu, rfl⟩ := Forest.node?_eq_some_iff.1 ht
    have hunit : c.unit? name = some u := sound.forest.byName?_eq_some_iff.2 ⟨root, hu, htname⟩
    have hid : u.id = root := sound.forest.id_eq ht
    rw [hunit]
    simp only [hkind, if_true]
    refine ⟨trivial, ?_, fun b hb hname ↦ hqueued ?_⟩
    · have hretired := get?_retire c.board u.id root
      rw [if_pos hid.symm, hp] at hretired
      exact ⟨_, hretired, rfl⟩
    · obtain ⟨q, hq, _, hqname⟩ := sound.claimed b hb name hname ht htname
      obtain rfl := Option.some_inj.1 (hp.symm.trans (hself ▸ hq))
      refine List.any_eq_true.2 ⟨b, hb, beq_iff_eq.2 ?_⟩
      exact hqname.symm.trans ((sound.name hp ht).symm.trans htname)

theorem Sound.exists_undeploy (sound : c.Sound) (crew : Crew β σ)
    (htop : (c.forest.topLevel? name).isSome = true) :
    ∃ d, c.undeploy crew name = (.ok (), d) ∧ d.forest.find? name = none ∧
      ∀ b ∈ d.queue, b.name ≠ name := by
  obtain ⟨root, hroot⟩ := Option.isSome_iff_exists.1 htop
  obtain ⟨t, ht, htname, hkind⟩ := sound.forest.topLevel?_eq_some_iff.1 hroot
  obtain ⟨hfound, ⟨q, hq, hremoving⟩, hqueue⟩ := sound.remove_live hroot
  have hprepares := sound.prepares_remove crew name
  unfold undeploy
  cases hremove : c.remove name with
  | mk result m =>
    rw [hremove] at hfound hq hqueue hprepares
    obtain rfl : result = .ok true := hfound
    have hm := Steps.sound hprepares.steps sound
    obtain ⟨d, hprocess, hcompleted⟩ := hm.exists_completed crew
    have hgone : d.forest.find? name = none := by
      rw [← Option.not_isSome_iff_eq_none, hcompleted.live]
      rintro (⟨p, hp, hstays, hname⟩ | ⟨b, hb, hname⟩)
      · have hget := (mem_tracked_iff hm).1 hp
        obtain ⟨u, hu, huname⟩ := List.mem_map.1 hname
        obtain ⟨k, hk, hku⟩ := List.mem_filterMap.1 hu
        obtain ⟨n, hn, htop⟩ := (hm.mem_tree_iff hget).1 hk
        obtain rfl := Option.some_inj.1 ((Forest.node?_of_get? hku).symm.trans hn)
        rw [hprepares.forest] at hn
        obtain rfl := sound.forest.name_inj hn ht (huname.trans htname.symm)
        obtain rfl := Option.some_inj.1 (hn.symm.trans ht)
        rw [← htop, sound.forest.top_self ht hkind] at hget
        obtain rfl := Option.some_inj.1 (hget.symm.trans hq)
        rw [hstays] at hremoving
        exact absurd hremoving (by simp)
      · exact hqueue b hb hname
    refine ⟨d, ?_, hgone, ?_⟩
    · simp only [hprocess, andThen_ok, hgone, Option.isSome_none, Bool.and_false,
        Bool.false_eq_true, if_false]
    · rw [hcompleted.queue]
      exact fun b hb ↦ absurd hb List.not_mem_nil

/-- A batch cannot fail: it takes out what was to be removed, brings live what was queued and leaves
nothing above the stage it is asked for. And a live deployment can always be undeployed. -/
theorem process_completes (reachable : Reachable crew c) :
    (∃ d, c.process crew = (.ok (), d) ∧ Completed c d) ∧
      ∀ name, (c.forest.topLevel? name).isSome = true →
        ∃ d, c.undeploy crew name = (.ok (), d) ∧ d.forest.find? name = none ∧
          ∀ b ∈ d.queue, b.name ≠ name := by
  refine ⟨reachable.sound.exists_completed crew, fun name htop ↦ ?_⟩
  exact reachable.sound.exists_undeploy crew htop

/-- A run on which one deployment is live and another one is queued. -/
def oneLive : Controller Unit Unit :=
  parsing.serveAll idle [.deploy (.mk "app" .none [] [] []), .add (.mk "db" .none [] [] [])]

theorem process_completes_oneLive :
    (∃ d, oneLive.process idle = (.ok (), d) ∧ Completed oneLive d) ∧
      ∃ d, oneLive.undeploy idle "app" = (.ok (), d) ∧ d.forest.find? "app" = none ∧
        ∀ b ∈ d.queue, b.name ≠ "app" :=
  have hall := process_completes (reachable_parsing idle
    [.deploy (.mk "app" .none [] [] []), .add (.mk "db" .none [] [] [])])
  ⟨hall.1, hall.2 "app" rfl⟩

end Rollout.Controller
