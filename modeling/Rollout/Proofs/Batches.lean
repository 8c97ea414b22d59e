import Mathlib.Data.List.Flatten
import Mathlib.Data.List.Forall2
import Rollout.Proofs.Passes
import Rollout.Proofs.Steps

/-!
Whole batches. A batch moves what is live, takes out what was to be removed, plants what is queued
and moves everything again, and none of this can fail: the first pass takes everything down that has
to go down, so all that was to be removed has come to the floor; and a queued name that was live
belonged to a deployment that is gone by then.
-/

set_option autoImplicit false
set_option relaxedAutoImplicit false

namespace Rollout.Controller

variable {β σ : Type} {crew : Crew β σ} {c d e : Controller β σ} {h root : Handle}
  {p q : Progress}

/-! The tracked deployments. -/

theorem mem_tracked_iff (sound : c.Sound) :
    p ∈ c.board.tracked ↔ c.board.get? p.root = some p := by
  unfold Board.tracked
  rw [List.mem_filterMap]
  constructor
  · rintro ⟨h, _, hp⟩
    rwa [Board.root_of_get? hp]
  · exact fun hp ↦ ⟨p.root, sound.tracked.2 ⟨p, hp⟩, hp⟩

theorem map_root_tracked (sound : c.Sound) : c.board.tracked.map Progress.root = c.board.order := by
  have hread : ∀ hs : List Handle, (∀ h ∈ hs, ∃ p, c.board.get? h = some p) →
      (hs.filterMap c.board.get?).map Progress.root = hs := by
    intro hs
    induction hs with
    | nil => exact fun _ ↦ rfl
    | cons h hs ih =>
      intro hall
      obtain ⟨p, hp⟩ := hall h List.mem_cons_self
      rw [List.filterMap_cons_some hp, List.map_cons, Board.root_of_get? hp,
        ih fun k hk ↦ hall k (List.mem_cons_of_mem _ hk)]
  exact hread _ fun h hh ↦ sound.tracked.1 hh

theorem mem_discardable_iff (sound : c.Sound) :
    h ∈ c.discardable ↔ ∃ p, c.board.get? h = some p ∧ p.removing = true ∧ p.stage.index = 0 := by
  unfold discardable
  rw [List.mem_map]
  simp only [List.mem_filter, mem_tracked_iff sound, Bool.and_eq_true, Stage.isFloor, beq_iff_eq]
  constructor
  · rintro ⟨p, ⟨hp, hremoving, hfloor⟩, rfl⟩
    exact ⟨p, hp, hremoving, hfloor⟩
  · rintro ⟨p, hp, hremoving, hfloor⟩
    have hroot := Board.root_of_get? hp
    exact ⟨p, ⟨hroot ▸ hp, hremoving, hfloor⟩, hroot⟩

theorem notMem_discardable (sound : c.Sound) (hp : c.board.get? h = some p)
    (hremoving : p.removing = false) : h ∉ c.discardable := by
  rw [mem_discardable_iff sound]
  rintro ⟨q, hq, hgoing, _⟩
  obtain rfl := Option.some_inj.1 (hp.symm.trans hq)
  rw [hremoving] at hgoing
  exact absurd hgoing (by simp)

/-- Nothing is taken out where nothing is to be removed. -/
theorem Sound.sweep_eq_self (sound : c.Sound)
    (hstays : ∀ h p, c.board.get? h = some p → p.removing = false) : c.sweep = c := by
  have hnone : c.discardable = [] := by
    refine List.eq_nil_iff_forall_not_mem.2 fun h hh ↦ ?_
    obtain ⟨p, hp, _⟩ := (mem_discardable_iff sound).1 hh
    exact notMem_discardable sound hp (hstays h p hp) hh
  unfold sweep
  rw [hnone]
  rfl

theorem nodup_discardable (sound : c.Sound) : c.discardable.Nodup := by
  have hsub : c.discardable.Sublist (c.board.tracked.map Progress.root) :=
    List.filter_sublist.map _
  rw [map_root_tracked sound] at hsub
  exact sound.order.sublist hsub

/-! The work of a batch. -/

/-- A queue may shrink. -/
theorem Sound.requeue (sound : c.Sound) {queue : List Blueprint} (hsub : queue.Sublist c.queue) :
    Sound { c with queue } := by
  refine ⟨sound.forest, sound.order, sound.mem_order, sound.tracked, sound.name, sound.stage,
    sound.requested, sound.removing, sound.target, sound.chain, sound.passes,
    fun b hb ↦ sound.queueBlank b (hsub.subset hb), ?_,
    fun b hb ↦ sound.claimed b (hsub.subset hb)⟩
  exact sound.queueNodup.sublist (hsub.flatMap _)

/-- A piece of the work of a batch. -/
inductive Work (crew : Crew β σ) : Controller β σ → Controller β σ → Prop
  | turn {c d : Controller β σ} : Turn crew c d → Work crew c d
  | discard {c : Controller β σ} {p : Progress} :
    c.board.get? p.root = some p → p.removing = true → p.stage.index = 0 →
    Work crew c (c.discard p.root)
  | clear (c : Controller β σ) : Work crew c { c with queue := [] }
  | plant {c : Controller β σ} {b : Blueprint} {root : Handle} {g : Forest β} :
    c.queue = [] → c.forest.plant b = .ok (root, g) → Work crew c (c.settled b root g)

/-- Pieces of work one after another. -/
abbrev Works (crew : Crew β σ) : Controller β σ → Controller β σ → Prop :=
  Relation.ReflTransGen (Work crew)

/-- A piece of the work in which a batch takes out what is to be removed and plants what is
queued. -/
inductive Renewal : Controller β σ → Controller β σ → Prop
  | discard {c : Controller β σ} {p : Progress} :
    c.board.get? p.root = some p → p.removing = true → p.stage.index = 0 →
    Renewal c (c.discard p.root)
  | clear (c : Controller β σ) : Renewal c { c with queue := [] }
  | plant {c : Controller β σ} {b : Blueprint} {root : Handle} {g : Forest β} :
    c.queue = [] → c.forest.plant b = .ok (root, g) → Renewal c (c.settled b root g)

/-- Such pieces of work one after another. -/
abbrev Renewals : Controller β σ → Controller β σ → Prop := Relation.ReflTransGen Renewal

theorem Renewal.work (crew : Crew β σ) (renewal : Renewal c d) : Work crew c d := by
  cases renewal with
  | discard hp hremoving hfloor => exact .discard hp hremoving hfloor
  | clear => exact .clear c
  | plant hqueue hplant => exact .plant hqueue hplant

theorem Renewals.works (crew : Crew β σ) (renewals : Renewals c d) : Works crew c d :=
  renewals.lift id fun _ _ ↦ Renewal.work crew

theorem Work.step (work : Work crew c d) (sound : c.Sound) : Step crew c d := by
  cases work with
  | turn turn => exact .turn turn
  | discard hp hremoving hfloor => exact .discard hp hremoving hfloor
  | clear => exact .plan (fun _ ↦ rfl) (sound.requeue (List.nil_sublist _)) id (remembers_self _)
  | plant hqueue hplant => exact .plant hqueue hplant

theorem Works.steps (works : Works crew c d) (sound : c.Sound) : Steps crew c d := by
  induction works with
  | refl => exact .refl
  | tail _ work ih => exact ih.tail (work.step (Steps.sound ih sound))

theorem Renewal.sound (renewal : Renewal c d) (sound : c.Sound) : d.Sound := by
  cases renewal with
  | discard hp _ _ => exact sound.discard hp
  | clear => exact sound.requeue (List.nil_sublist _)
  | plant hqueue hplant => exact sound.settled (sound.forest.planted hplant) hqueue

theorem Renewals.sound (renewals : Renewals c d) (sound : c.Sound) : d.Sound := by
  induction renewals with
  | refl => exact sound
  | tail _ renewal ih => exact renewal.sound ih

/-- All that such work is told with is which trees have been taken out and planted. -/
theorem Renewals.journal (renewals : Renewals c d) :
    ∃ es, d.journal.toList = c.journal.toList ++ es ∧ ∀ e ∈ es, e.isQuiet = false := by
  induction renewals with
  | refl => exact ⟨[], by simp⟩
  | @tail m _ _ renewal ih =>
    obtain ⟨es, hes, hloud⟩ := ih
    cases renewal with
    | discard hp _ _ =>
      refine ⟨_, (journal_discard hp).trans (by rw [hes, List.append_assoc]), fun e he ↦ ?_⟩
      rcases List.mem_append.1 he with he | he
      · exact hloud e he
      · rw [List.mem_singleton.1 he]
        rfl
    | clear => exact ⟨es, hes, hloud⟩
    | plant _ _ =>
      refine ⟨_, journal_settled.trans (by rw [hes, List.append_assoc]), fun e he ↦ ?_⟩
      rcases List.mem_append.1 he with he | he
      · exact hloud e he
      · rw [List.mem_singleton.1 he]
        rfl

theorem Renewals.continues (renewals : Renewals c d) : Continues c d := by
  obtain ⟨es, hes, _⟩ := renewals.journal
  exact ⟨es, hes⟩

theorem Turns.works (turns : Turns crew c d) : Works crew c d := by
  induction turns with
  | refl => exact .refl
  | tail _ turn ih => exact ih.tail (.turn turn)

/-! Taking out. -/

/-- What is left when some deployments have been taken out. -/
structure Swept (roots : List Handle) (c d : Controller β σ) : Prop where
  order : d.board.order = c.board.order.filter (· ∉ roots)
  get? : ∀ h, d.board.get? h = if h ∈ roots then none else c.board.get? h
  unit : ∀ {h : Handle} {u : LiveUnit β},
    d.forest.get? h = some u ↔ c.forest.get? h = some u ∧ u.top ∉ roots
  treeUnits : ∀ {h : Handle} {p : Progress}, c.board.get? h = some p → h ∉ roots →
    d.forest.treeUnits h = c.forest.treeUnits h
  chain : d.chain = c.chain
  target : d.target = c.target
  queue : d.queue = c.queue
  config : d.config = c.config
  told : ∀ {h : Handle} {p : Progress}, h ∈ roots → c.board.get? h = some p →
    Told c d (.removed h p.name (c.forest.treeNames h))

theorem Swept.treeNames {roots : List Handle} (swept : Swept roots c d)
    (hp : c.board.get? h = some p) (hh : h ∉ roots) :
    d.forest.treeNames h = c.forest.treeNames h := by
  unfold Forest.treeNames
  rw [swept.treeUnits hp hh]

/-- Taking out one deployment. -/
theorem Sound.swept_discard (sound : c.Sound) (hp : c.board.get? p.root = some p) :
    Swept [p.root] c (c.discard p.root) := by
  have hfields := discard_eq hp
  refine ⟨?_, fun h ↦ ?_, fun {h u} ↦ ?_, fun {h q} hq hh ↦ ?_, ?_, ?_, ?_, ?_,
    fun {h q} hh hq ↦ ?_⟩
  · rw [hfields]
    show c.board.order.filter (· != p.root) = _
    refine List.filter_congr fun h _ ↦ ?_
    rw [Bool.eq_iff_iff]
    simp
  · rw [get?_board_discard hp]
    simp
  · rw [sound.get?_forest_discard hp, List.mem_singleton]
  · exact sound.treeUnits_discard hp hq fun heq ↦ hh (List.mem_singleton.2 heq)
  · rw [hfields]
    rfl
  · rw [hfields]
    rfl
  · rw [hfields]
    rfl
  · rw [hfields]
    rfl
  · obtain rfl := List.mem_singleton.1 hh
    obtain rfl := Option.some_inj.1 (hp.symm.trans hq)
    rw [hfields, (sound.uprooted hp).names]
    exact ⟨_, journal_note _ _, List.mem_cons_self⟩

theorem Swept.trans {roots others : List Handle} (first : Swept roots c d)
    (second : Swept others d e) (continues : Continues c d) (continues' : Continues d e) :
    Swept (roots ++ others) c e := by
  refine ⟨?_, fun h ↦ ?_, fun {h u} ↦ ?_, fun {h p} hp hh ↦ ?_, second.chain.trans first.chain,
    second.target.trans first.target, second.queue.trans first.queue,
    second.config.trans first.config, fun {h p} hh hp ↦ ?_⟩
  · rw [second.order, first.order, List.filter_filter]
    exact List.filter_congr fun h _ ↦ by simp [Bool.and_comm]
  · rw [second.get?, first.get?]
    by_cases hh : h ∈ roots
    · simp [hh]
    · simp [hh]
  · rw [second.unit, first.unit, List.mem_append, not_or, and_assoc]
  · rw [List.mem_append, not_or] at hh
    have hd : d.board.get? h = some p := by rw [first.get?, if_neg hh.1, hp]
    rw [second.treeUnits hd hh.2, first.treeUnits hp hh.1]
  · by_cases hroot : h ∈ roots
    · exact continues'.told (first.told hroot hp)
    · have hd : d.board.get? h = some p := by rw [first.get?, if_neg hroot, hp]
      have htold := second.told ((List.mem_append.1 hh).resolve_left hroot) hd
      rw [first.treeNames hp hroot] at htold
      exact htold.continues continues

theorem exists_sweep {roots : List Handle} (sound : c.Sound)
    (hnodup : roots.Nodup) (hroots : ∀ h ∈ roots, ∃ p, c.board.get? h = some p ∧
      p.removing = true ∧ p.stage.index = 0) :
    Renewals c (roots.foldl (fun c root ↦ c.discard root) c) ∧
      Swept roots c (roots.foldl (fun c root ↦ c.discard root) c) := by
  induction roots generalizing c with
  | nil =>
    refine ⟨.refl, ?_, fun _ ↦ by simp, by simp, fun _ _ ↦ rfl, rfl, rfl, rfl, rfl,
      fun hh ↦ absurd hh List.not_mem_nil⟩
    exact (List.filter_eq_self.2 (by simp)).symm
  | cons root roots ih =>
    obtain ⟨hroot, hrest⟩ := List.nodup_cons.1 hnodup
    obtain ⟨p, hp, hremoving, hfloor⟩ := hroots root List.mem_cons_self
    obtain rfl := Board.root_of_get? hp
    have hrenewal : Renewal c (c.discard p.root) := .discard hp hremoving hfloor
    obtain ⟨hrenewals, hswept⟩ := ih (hrenewal.sound sound) hrest fun h hh ↦ by
      obtain ⟨q, hq, hrest⟩ := hroots h (List.mem_cons_of_mem _ hh)
      have hne : h ≠ p.root := fun heq ↦ hroot (heq ▸ hh)
      exact ⟨q, by rw [get?_board_discard hp, if_neg hne, hq], hrest⟩
    refine ⟨.head hrenewal hrenewals, ?_⟩
    exact (sound.swept_discard hp).trans hswept (Renewals.continues (.single hrenewal))
      hrenewals.continues

/-! Planting. -/

/-- The deployment on a handle is the live one of a blueprint. -/
def Hosts (c : Controller β σ) (root : Handle) (b : Blueprint) : Prop :=
  c.forest.topLevel? b.name = some root ∧ c.forest.treeNames root = b.names ∧
    ∃ p, c.board.get? root = some p ∧ p.name = b.name ∧ p.removing = false

theorem Sound.topLevel?_of_get? (sound : c.Sound) (hp : c.board.get? h = some p) :
    c.forest.topLevel? p.name = some h := by
  obtain ⟨t, ht, hkind⟩ := sound.exists_top hp
  exact sound.forest.topLevel?_eq_some_iff.2 ⟨t, ht, sound.name hp ht, hkind⟩

/-- No two tracked deployments have one name. -/
theorem Sound.root_eq (sound : c.Sound) (hp : c.board.get? h = some p)
    (hq : c.board.get? root = some q) (hname : p.name = q.name) : h = root := by
  have htop := sound.topLevel?_of_get? hp
  rw [hname, sound.topLevel?_of_get? hq] at htop
  exact (Option.some_inj.1 htop).symm

/-- What is left when some deployments have been planted. -/
structure Grown (bs : List Blueprint) (c d : Controller β σ) : Prop where
  order : ∃ roots, d.board.order = c.board.order ++ roots ∧ List.Forall₂ d.Hosts roots bs
  get? : ∀ {h : Handle} {p : Progress}, c.board.get? h = some p → d.board.get? h = some p
  fresh : ∀ {h : Handle} {p : Progress}, d.board.get? h = some p →
    c.board.get? h = some p ∨ ∃ name, p = Progress.start h name c.target
  treeUnits : ∀ {h : Handle} {p : Progress}, c.board.get? h = some p →
    d.forest.treeUnits h = c.forest.treeUnits h
  chain : d.chain = c.chain
  target : d.target = c.target
  queue : d.queue = c.queue
  config : d.config = c.config

theorem Grown.hosts {bs : List Blueprint} (grown : Grown bs c d) (sound : d.Sound) {b : Blueprint}
    (hosts : c.Hosts root b) : d.Hosts root b := by
  obtain ⟨_, hnames, p, hp, hname, hremoving⟩ := hosts
  have hp' := grown.get? hp
  refine ⟨hname ▸ sound.topLevel?_of_get? hp', ?_, p, hp', hname, hremoving⟩
  unfold Forest.treeNames at hnames ⊢
  rw [grown.treeUnits hp]
  exact hnames

/-- Planting one deployment. -/
theorem Sound.grown_settled (sound : c.Sound) {b : Blueprint} {g : Forest β}
    (planted : Forest.Planted c.forest b root g) (hsettled : (c.settled b root g).Sound) :
    Grown [b] c (c.settled b root g) := by
  have hroot : (c.settled b root g).board.get? root = some (Progress.start root b.name c.target) :=
    get?_board_settled.trans (if_pos rfl)
  have hhosts : (c.settled b root g).Hosts root b :=
    ⟨hsettled.topLevel?_of_get? hroot, planted.names, _, hroot, rfl, rfl⟩
  refine ⟨⟨[root], rfl, .cons hhosts .nil⟩, sound.get?_settled planted, fun {h p} hp ↦ ?_,
    fun hp ↦ sound.treeUnits_settled planted hp, rfl, rfl, rfl, rfl⟩
  rcases of_get?_settled hp with ⟨rfl, rfl⟩ | ⟨_, hp⟩
  · exact Or.inr ⟨b.name, rfl⟩
  · exact Or.inl hp

theorem Grown.trans {bs others : List Blueprint} (first : Grown bs c d)
    (second : Grown others d e) (he : e.Sound) : Grown (bs ++ others) c e := by
  obtain ⟨roots, horder, hall⟩ := first.order
  obtain ⟨more, horder', hall'⟩ := second.order
  refine ⟨⟨roots ++ more, ?_, ?_⟩, fun hp ↦ second.get? (first.get? hp), fun {h p} hp ↦ ?_,
    fun hp ↦ (second.treeUnits (first.get? hp)).trans (first.treeUnits hp),
    second.chain.trans first.chain, second.target.trans first.target,
    second.queue.trans first.queue, second.config.trans first.config⟩
  · rw [horder', horder, List.append_assoc]
  · exact List.rel_append (hall.imp fun _ _ hhosts ↦ second.hosts he hhosts) hall'
  · rcases second.fresh hp with hp | hfresh
    · exact first.fresh hp
    · rw [first.target] at hfresh
      exact Or.inr hfresh

/-- Names that were new before a deployment was planted and are not its own are new still. -/
theorem find?_eq_none_of_planted {b : Blueprint} {g : Forest β} {name : String}
    (planted : Forest.Planted c.forest b root g) (hnew : c.forest.find? name = none)
    (hname : name ∉ b.names) : g.find? name = none := by
  refine Forest.find?_eq_none_iff.2 fun h n hn heq ↦ ?_
  obtain ⟨u, hu, rfl⟩ := Forest.node?_eq_some_iff.1 hn
  rcases planted.fresh hu with hold | ⟨_, _, hmem, _⟩
  · exact Forest.find?_eq_none_iff.1 hnew h _ (Forest.node?_of_get? hold) heq
  · exact hname (heq ▸ hmem)

/-- A queue that was planted without a refusal was planted one deployment after another. -/
theorem plantAll_cons {b : Blueprint} {bs : List Blueprint}
    (hplant : plantAll (b :: bs) c = (d, none)) :
    ∃ root g, c.forest.plant b = .ok (root, g) ∧ plantAll bs (c.settled b root g) = (d, none) := by
  unfold plantAll plant at hplant
  cases hroot : c.forest.plant b with
  | error fault =>
    rw [hroot] at hplant
    simp at hplant
  | ok planted =>
    obtain ⟨root, g⟩ := planted
    rw [hroot] at hplant
    simp only [Option.none_or] at hplant
    exact ⟨root, g, rfl, hplant⟩

theorem exists_plantAll (bs : List Blueprint) (sound : c.Sound)
    (hqueue : c.queue = []) (hblank : ∀ b ∈ bs, ∀ name ∈ b.names, Text.isBlank name = false)
    (hnodup : (bs.flatMap Blueprint.names).Nodup)
    (hnew : ∀ b ∈ bs, ∀ name ∈ b.names, c.forest.find? name = none) :
    ∃ d, plantAll bs c = (d, none) ∧ Renewals c d ∧ Grown bs c d := by
  induction bs generalizing c with
  | nil =>
    refine ⟨c, rfl, .refl, ⟨[], by simp, .nil⟩, id, Or.inl, fun _ ↦ rfl, rfl, rfl, rfl, rfl⟩
  | cons b bs ih =>
    rw [List.flatMap_cons, List.nodup_append] at hnodup
    obtain ⟨hnames, hrest, hapart⟩ := hnodup
    obtain ⟨root, g, hplant⟩ := Forest.exists_plant (hblank b List.mem_cons_self)
      (hnew b List.mem_cons_self) hnames
    have hplanted := sound.forest.planted hplant
    have hrenewal : Renewal c (c.settled b root g) := .plant hqueue hplant
    have hsettled := hrenewal.sound sound
    obtain ⟨d, heq, hrenewals, hgrown⟩ := ih hsettled hqueue
      (fun b' hb' ↦ hblank b' (List.mem_cons_of_mem _ hb')) hrest fun b' hb' name hname ↦
        find?_eq_none_of_planted hplanted (hnew b' (List.mem_cons_of_mem _ hb') name hname)
          fun hmem ↦ hapart _ hmem _ (List.mem_flatMap.2 ⟨b', hb', hname⟩) rfl
    refine ⟨d, ?_, .head hrenewal hrenewals, ?_⟩
    · unfold plantAll plant
      rw [hplant]
      simp only [Option.none_or]
      exact Prod.ext (congrArg Prod.fst heq) (congrArg Prod.snd heq)
    · exact (sound.grown_settled hplanted hsettled).trans hgrown (hrenewals.sound hsettled)

/-! The whole batch. -/

theorem Spent.told (spent : Spent crew c d) (sound : c.Sound) :
    ∃ passes, Told c d (.passLimit passes) := by
  obtain ⟨m, passes, hturns, rfl⟩ := spent
  exact ⟨passes, (Steps.continues hturns.steps sound).told_note _⟩

/-- The tracked deployments that are not to be removed, in order. -/
def staying (c : Controller β σ) : List Handle :=
  c.board.order.filter fun h ↦ !(c.board.get? h).any Progress.removing

/-- What a batch comes to. -/
structure Finished (c d : Controller β σ) : Prop where
  queue : d.queue = []
  order : ∃ roots, d.board.order = c.staying ++ roots ∧ List.Forall₂ d.Hosts roots c.queue
  kept : ∀ {h : Handle} {p : Progress}, c.board.get? h = some p → p.removing = false →
    ∃ q, d.board.get? h = some q ∧ q.name = p.name ∧ q.requested = p.requested ∧
      d.forest.treeNames h = c.forest.treeNames h
  staying : ∀ {h : Handle} {q : Progress}, d.board.get? h = some q → q.removing = false
  low : ∀ h, d.Low h
  told : ∀ {h : Handle} {p : Progress}, c.board.get? h = some p → p.removing = true →
    Told c d (.removed h p.name (c.forest.treeNames h))
  chain : d.chain = c.chain
  config : d.config = c.config

/-- Whatever is to be removed and is not above the stage it is asked for can be taken out. -/
theorem mem_discardable_of_low (sound : c.Sound) (low : ∀ h, c.Low h) :
    h ∈ c.discardable ↔ ∃ p, c.board.get? h = some p ∧ p.removing = true := by
  rw [mem_discardable_iff sound]
  constructor
  · rintro ⟨p, hp, hremoving, _⟩
    exact ⟨p, hp, hremoving⟩
  · rintro ⟨p, hp, hremoving⟩
    have hle := low h p hp
    rw [sound.removing hp hremoving] at hle
    exact ⟨p, hp, hremoving, Nat.le_zero.1 hle⟩

/-- No queued name is live any more once everything that was to be removed is gone. -/
theorem Swept.find?_eq_none (sound : c.Sound) (low : ∀ h, c.Low h)
    (swept : Swept c.discardable c d) {b : Blueprint} (hb : b ∈ c.queue) {name : String}
    (hname : name ∈ b.names) : d.forest.find? name = none := by
  refine Forest.find?_eq_none_iff.2 fun h n hn heq ↦ ?_
  obtain ⟨u, hu, rfl⟩ := Forest.node?_eq_some_iff.1 hn
  obtain ⟨hu, htop⟩ := swept.unit.1 hu
  obtain ⟨p, hp, hremoving, _⟩ :=
    sound.claimed b hb name hname (Forest.node?_of_get? hu) heq
  exact htop ((mem_discardable_of_low sound low).2 ⟨p, hp, hremoving⟩)

theorem Hosts.moves (moves : Moves c d) (sound : d.Sound) {b : Blueprint}
    (hosts : c.Hosts root b) : d.Hosts root b := by
  obtain ⟨_, hnames, p, hp, hname, hremoving⟩ := hosts
  obtain ⟨q, hq, hqname, _, hqremoving⟩ := moves.exists_get? hp
  rw [← hqname] at hname
  refine ⟨hname ▸ sound.topLevel?_of_get? hq, ?_, q, hq, hname, hqremoving.trans hremoving⟩
  rw [moves.shape.treeNames, hnames]

/-- What is to be removed has been taken out, and what was queued has been planted. -/
structure Renewed (queue : List Blueprint) (m k : Controller β σ) : Prop where
  sweeps : Renewals m m.sweep
  swept : Swept m.discardable m m.sweep
  planted : plantAll queue { m.sweep with queue := [] } = (k, none)
  plants : Renewals { m.sweep with queue := [] } k
  grown : Grown queue { m.sweep with queue := [] } k

theorem Renewed.renewals {queue : List Blueprint} {m k : Controller β σ}
    (renewed : Renewed queue m k) : Renewals m k :=
  renewed.sweeps.trans (.head (.clear m.sweep) renewed.plants)

/-- Whatever turns have come before, as long as nothing is above the stage it is asked for, nothing
that is queued is refused. -/
theorem Sound.exists_renewed {m : Controller β σ} (sound : c.Sound) (turns : Turns crew c m)
    (low : ∀ h, m.Low h) : ∃ k, m.sweep.materialize = (k, none) ∧ Renewed c.queue m k := by
  obtain ⟨hm, hmoves⟩ := Turns.sound_moves turns sound
  obtain ⟨hsweep, hswept⟩ := exists_sweep hm (nodup_discardable hm)
    fun h hh ↦ (mem_discardable_iff hm).1 hh
  have hempty : Sound { m.sweep with queue := [] } :=
    (hsweep.sound hm).requeue (List.nil_sublist _)
  obtain ⟨k, hplant, hplanted, hgrown⟩ := exists_plantAll c.queue hempty rfl sound.queueBlank
    sound.queueNodup fun b hb name hname ↦
      hswept.find?_eq_none hm low (hmoves.queue ▸ hb) hname
  have hqueue : m.sweep.queue = c.queue := hswept.queue.trans hmoves.queue
  refine ⟨k, ?_, hsweep, hswept, hplant, hplanted, hgrown⟩
  unfold materialize
  rw [hqueue]
  exact hplant

/-- A deployment that is tracked once the queue has been planted was not to be removed, or is
new. -/
theorem Renewed.fresh {queue : List Blueprint} {m k : Controller β σ} (renewed : Renewed queue m k)
    (sound : m.Sound) (low : ∀ h, m.Low h) (hp : k.board.get? h = some p) :
    m.board.get? h = some p ∧ p.removing = false ∨
      ∃ name, p = Progress.start h name m.sweep.target := by
  rcases renewed.grown.fresh hp with hp | hfresh
  · change m.sweep.board.get? h = some p at hp
    rw [renewed.swept.get?] at hp
    split at hp
    · exact absurd hp (by simp)
    · next hh =>
      refine Or.inl ⟨hp, ?_⟩
      cases hremoving : p.removing with
      | false => rfl
      | true => exact absurd ((mem_discardable_of_low sound low).2 ⟨p, hp, hremoving⟩) hh
  · exact Or.inr hfresh

theorem Renewed.low {queue : List Blueprint} {m k : Controller β σ} (renewed : Renewed queue m k)
    (sound : m.Sound) (low : ∀ h, m.Low h) (h : Handle) : k.Low h := by
  intro p hp
  rcases renewed.fresh sound low hp with ⟨hp, _⟩ | ⟨name, rfl⟩
  · exact low h p hp
  · exact Nat.zero_le _

/-- A deployment that is not to be removed is left alone. -/
theorem Renewed.get? {queue : List Blueprint} {m k : Controller β σ} (renewed : Renewed queue m k)
    (sound : m.Sound) (hp : m.board.get? h = some p) (hremoving : p.removing = false) :
    k.board.get? h = some p ∧ k.forest.treeUnits h = m.forest.treeUnits h := by
  have hstays := notMem_discardable sound hp hremoving
  have hswept : m.sweep.board.get? h = some p := by rw [renewed.swept.get?, if_neg hstays, hp]
  exact ⟨renewed.grown.get? hswept,
    (renewed.grown.treeUnits hswept).trans (renewed.swept.treeUnits hp hstays)⟩

/-- The parts of a batch: what is live is moved, what can be taken out is, what is queued is
planted, and everything is moved again. -/
structure Parts (crew : Crew β σ) (c m k e : Controller β σ) : Prop
    extends Renewed c.queue m k where
  first : Turns crew c m
  starts : Spent crew c m ∨ Phase crew c m
  low : ∀ h, m.Low h
  second : Turns crew k e
  ends : Spent crew k e ∨ Phase crew k e

/-- A batch never fails: both its runs come to their end without a fault, and it has all its
parts. -/
theorem exists_runs (crew : Crew β σ) (sound : c.Sound) :
    ∃ b k b', Batch.run crew (Batch.start c) = (b, none) ∧
      b.controller.sweep.materialize = (k, none) ∧
      Batch.run crew { b with controller := k } = (b', none) ∧
      c.process crew = (.ok (), b'.controller.note (.completed b'.tally)) ∧
      Parts crew c b.controller k b'.controller := by
  obtain ⟨b, hrun, hfirst, hlow, hstart⟩ :=
    Batch.exists_passes crew (c.config.maxPasses - 0) (b := Batch.start c) sound
  have hlow := hlow sound.passes
  obtain ⟨k, hmaterialize, hrenewed⟩ := sound.exists_renewed hfirst hlow
  have hk := hrenewed.renewals.sound (Turns.sound_moves hfirst sound).1
  obtain ⟨b', hrun', hsecond, _, hend⟩ := Batch.exists_passes crew
    (k.config.maxPasses - b.tally.passes) (b := { b with controller := k }) hk
  have hbegin : Batch.run crew (Batch.start c) = (b, none) := hrun
  have hnext : Batch.run crew { b with controller := k } = (b', none) := hrun'
  refine ⟨b, k, b', hbegin, hmaterialize, hnext, ?_, hrenewed, hfirst, hstart, hlow, hsecond, hend⟩
  unfold process
  rw [hbegin]
  simp only [hmaterialize, hnext]

theorem exists_parts (crew : Crew β σ) (sound : c.Sound) :
    ∃ m k e tally, c.process crew = (.ok (), e.note (.completed tally)) ∧ Parts crew c m k e := by
  obtain ⟨b, k, b', _, _, _, heq, hparts⟩ := exists_runs crew sound
  exact ⟨b.controller, k, b'.controller, b'.tally, heq, hparts⟩

variable {m k : Controller β σ}

theorem Parts.emptied (parts : Parts crew c m k e) (sound : c.Sound) :
    Sound { m.sweep with queue := [] } := by
  obtain ⟨hm, _⟩ := Turns.sound_moves parts.first sound
  exact (parts.sweeps.sound hm).requeue (List.nil_sublist _)

/-- The work in which a batch takes out and plants. -/
theorem Parts.replaces (parts : Parts crew c m k e) : Works crew m k :=
  parts.renewals.works crew

/-- The work of a batch. -/
theorem Parts.works (parts : Parts crew c m k e) : Works crew c e :=
  (parts.first.works.trans parts.replaces).trans parts.second.works

theorem Parts.sound (parts : Parts crew c m k e) (sound : c.Sound) :
    m.Sound ∧ k.Sound ∧ e.Sound := by
  obtain ⟨hm, _⟩ := Turns.sound_moves parts.first sound
  have hk := parts.renewals.sound hm
  exact ⟨hm, hk, (Turns.sound_moves parts.second hk).1⟩

/-- The steps of a batch in which it takes out and plants. -/
theorem Parts.replaced (parts : Parts crew c m k e) (sound : c.Sound) : Steps crew m k :=
  parts.replaces.steps (parts.sound sound).1

/-- The steps of a batch up to where its queue has been planted. -/
theorem Parts.planned (parts : Parts crew c m k e) (sound : c.Sound) : Steps crew c k :=
  parts.first.steps.trans (parts.replaced sound)

theorem Parts.steps (parts : Parts crew c m k e) (sound : c.Sound) : Steps crew c e :=
  parts.works.steps sound

/-- The journal goes on after a batch has taken out what it takes out. -/
theorem Parts.continues_sweep (parts : Parts crew c m k e) (sound : c.Sound) :
    Continues m.sweep e := by
  obtain ⟨_, hk, _⟩ := parts.sound sound
  have hplants : Renewals m.sweep k := .head (.clear m.sweep) parts.plants
  exact hplants.continues.trans (Steps.continues parts.second.steps hk)

/-- A deployment that is not to be removed is left alone while the batch takes out and plants. -/
theorem Parts.exists_get? (parts : Parts crew c m k e) (sound : c.Sound)
    (hp : c.board.get? h = some p) (hremoving : p.removing = false) :
    ∃ q, m.board.get? h = some q ∧ k.board.get? h = some q ∧
      k.forest.treeUnits h = m.forest.treeUnits h := by
  obtain ⟨hm, hmoves⟩ := Turns.sound_moves parts.first sound
  obtain ⟨q, hq, _, _, hremoving'⟩ := hmoves.exists_get? hp
  exact ⟨q, hq, parts.get? hm hq (hremoving'.trans hremoving)⟩

/-- A deployment that is not to be removed is still there, and has its name and what is asked of it,
when the queue has been planted. -/
theorem Parts.kept (parts : Parts crew c m k e) (sound : c.Sound) (hp : c.board.get? h = some p)
    (hremoving : p.removing = false) :
    ∃ q, k.board.get? h = some q ∧ q.name = p.name ∧ q.requested = p.requested ∧
      k.forest.treeNames h = c.forest.treeNames h := by
  obtain ⟨_, hmoves⟩ := Turns.sound_moves parts.first sound
  obtain ⟨q, hq, hqk, hunits⟩ := parts.exists_get? sound hp hremoving
  obtain ⟨q', hq', hname, hrequested, _⟩ := hmoves.exists_get? hp
  obtain rfl := Option.some_inj.1 (hq.symm.trans hq')
  refine ⟨q, hqk, hname, hrequested, ?_⟩
  rw [← hmoves.shape.treeNames]
  unfold Forest.treeNames
  rw [hunits]

/-- The order after a batch: those that stay, and then those that were queued. -/
theorem Parts.order (parts : Parts crew c m k e) (sound : c.Sound) :
    ∃ roots, e.board.order = c.staying ++ roots ∧ List.Forall₂ e.Hosts roots c.queue := by
  obtain ⟨hm, hmoves⟩ := Turns.sound_moves parts.first sound
  obtain ⟨_, hk, he⟩ := parts.sound sound
  have hmoves' := (Turns.sound_moves parts.second hk).2
  obtain ⟨roots, horder, hall⟩ := parts.grown.order
  refine ⟨roots, ?_, hall.imp fun _ _ hhosts ↦ hhosts.moves hmoves' he⟩
  rw [hmoves'.order, horder]
  show m.sweep.board.order ++ roots = _
  rw [parts.swept.order, hmoves.order]
  congr 1
  refine List.filter_congr fun h hh ↦ ?_
  obtain ⟨p, hp⟩ := sound.tracked.1 hh
  obtain ⟨q, hq, _, _, haims⟩ := hmoves.exists_get? hp
  rw [hp, Option.any_some, ← haims]
  cases hremoving : q.removing with
  | true => simp [(mem_discardable_of_low hm parts.low).2 ⟨q, hq, hremoving⟩]
  | false => simp [notMem_discardable hm hq hremoving]

/-- What the parts of a batch leave comes together to what the whole batch comes to. -/
theorem Parts.finished (parts : Parts crew c m k e) (sound : c.Sound) : Finished c e := by
  obtain ⟨hm, hmoves⟩ := Turns.sound_moves parts.first sound
  obtain ⟨_, hk, he⟩ := parts.sound sound
  have hmoves' := (Turns.sound_moves parts.second hk).2
  refine ⟨hmoves'.queue.trans parts.grown.queue, parts.order sound, fun {h p} hp hremoving ↦ ?_,
    fun {h q} hq ↦ ?_, fun h ↦ ?_, fun {h p} hp hremoving ↦ ?_, ?_, ?_⟩
  · obtain ⟨q, hqk, hname, hrequested, hnames⟩ := parts.kept sound hp hremoving
    obtain ⟨r, hr, hname', hrequested', _⟩ := hmoves'.exists_get? hqk
    exact ⟨r, hr, hname'.trans hname, hrequested'.trans hrequested,
      (hmoves'.shape.treeNames h).trans hnames⟩
  · obtain ⟨p, hp, _⟩ := hmoves'.get? hq
    rw [(hmoves'.aims hp hq).2]
    rcases parts.fresh hm parts.low hp with ⟨_, hremoving⟩ | ⟨name, rfl⟩
    · exact hremoving
    · rfl
  · exact parts.second.low hk (parts.toRenewed.low hm parts.low h)
  · obtain ⟨q, hq, hname, _, hremoving'⟩ := hmoves.exists_get? hp
    have htold := parts.swept.told ((mem_discardable_of_low hm parts.low).2
      ⟨q, hq, hremoving'.trans hremoving⟩) hq
    rw [hname, hmoves.shape.treeNames] at htold
    exact (parts.continues_sweep sound).told
      (htold.continues (Steps.continues parts.first.steps sound))
  · rw [hmoves'.chain, parts.grown.chain]
    exact parts.swept.chain.trans hmoves.chain
  · rw [hmoves'.config, parts.grown.config]
    exact parts.swept.config.trans hmoves.config

theorem Finished.note (finished : Finished c d) (entry : Entry β) : Finished c (d.note entry) :=
  ⟨finished.queue, finished.order, finished.kept, finished.staying, finished.low,
    fun hp hremoving ↦ (continues_note d entry).told (finished.told hp hremoving), finished.chain,
    finished.config⟩

/-- A batch never fails, and comes to its end in steps. -/
theorem exists_process (crew : Crew β σ) (sound : c.Sound) :
    ∃ e : Controller β σ, ∃ tally, c.process crew = (.ok (), e.note (.completed tally)) ∧
      Steps crew c e ∧ Finished c e := by
  obtain ⟨m, k, e, tally, heq, hparts⟩ := exists_parts crew sound
  exact ⟨e, tally, heq, hparts.steps sound, hparts.finished sound⟩

/-- A batch with nothing to take out and nothing to plant only moves deployments: it takes all down
that has to go down before it takes anything up. -/
theorem exists_process_calm (sound : c.Sound) (hqueue : c.queue = [])
    (hstays : ∀ h p, c.board.get? h = some p → p.removing = false)
    (hprocess : c.process crew = (.ok (), d)) :
    ∃ m e : Controller β σ, ∃ tally, d = e.note (.completed tally) ∧
      Falls crew c m ∧ Turns crew m e ∧ (Spent crew c e ∨ ∀ h, e.Rests h) := by
  obtain ⟨b, k, b', hrun, _, _, heq, hparts⟩ := exists_runs crew sound
  obtain ⟨m, hfalls, hturns⟩ := Batch.falls_of_passes (b := Batch.start c) sound sound.passes hrun
  obtain ⟨hb, hmoves⟩ := Turns.sound_moves hparts.first sound
  have hsweep : b.controller.sweep = b.controller := hb.sweep_eq_self fun h q hq ↦ by
    obtain ⟨p, hp, _⟩ := hmoves.get? hq
    rw [(hmoves.aims hp hq).2, hstays h p hp]
  have hplanted := hparts.planted
  rw [hqueue, hsweep] at hplanted
  obtain rfl : k = { b.controller with queue := [] } := (congrArg Prod.fst hplanted).symm
  have hsame : { b.controller with queue := [] } = b.controller := by
    have hempty := hmoves.queue.trans hqueue
    rw [← hempty]
  have hsecond := hparts.second
  have hends := hparts.ends
  rw [hsame] at hsecond hends
  exact ⟨m, b'.controller, b'.tally, congrArg Prod.snd (hprocess.symm.trans heq), hfalls,
    hturns.trans hsecond,
    hends.imp (Spent.after hparts.first) Phase.rests⟩

theorem Sound.process_ok (sound : c.Sound) (crew : Crew β σ) :
    c.process crew = (.ok (), (c.process crew).2) := by
  obtain ⟨e, tally, heq, _⟩ := exists_process crew sound
  rw [heq]

theorem Sound.steps_process (sound : c.Sound) (crew : Crew β σ) :
    Steps crew c (c.process crew).2 := by
  obtain ⟨e, tally, heq, hsteps, _⟩ := exists_process crew sound
  rw [heq]
  exact hsteps.tail (.remark rfl)

theorem Sound.finished_process (sound : c.Sound) (crew : Crew β σ) :
    Finished c (c.process crew).2 := by
  obtain ⟨e, tally, heq, _, hfinished⟩ := exists_process crew sound
  rw [heq]
  exact hfinished.note _

end Rollout.Controller
