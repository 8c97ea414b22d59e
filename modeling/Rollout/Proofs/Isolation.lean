import Rollout.Proofs.BatchOutcome
import Rollout.Proofs.Quiescence
import Rollout.Proofs.Replacing
import Rollout.Proofs.Residue

/-!
Isolation. A batch is run twice, by two crews that treat the units of a group of deployments alike
and all others as they please. If what the group needs is its own, or to be removed, or nobody's,
the two runs do the same with it: they may take different numbers of passes, and no pass need end
where the other's does, but what has to go down goes down in step, what is gone is gone in both, the
queue is planted on the same slots, and then both go up until they are at rest.
-/

set_option autoImplicit false
set_option relaxedAutoImplicit false

namespace Rollout.Controller

variable {β σ : Type} {crew crew' : Crew β σ} {c d e k m : Controller β σ}
  {group : String → Prop} {h root : Handle} {p q : Progress} {b : Blueprint} {name : String}

/-! Groups that stay closed. -/

/-- Where a group gains no needs, it stays closed. -/
theorem closed_of_needs (hc : c.Sound) (hd : d.Sound) (hscope : d.scope group = c.scope group)
    (shape : c.forest.SameShape d.forest)
    (hneeds : ∀ h, (c.scope group).whole h → d.needs h ⊆ c.needs h)
    (closed : c.position.Closed group) : d.position.Closed group := by
  rw [hd.closed_iff, hscope]
  intro h hwhole n hn t hhome
  rw [home?_congr shape] at hhome
  exact hc.closed_iff.1 closed h hwhole n (hneeds h hwhole hn) t hhome

/-- Only a step up can bring up a need, and the entry that tells of it has the needs there are
then. -/
theorem Turn.closed (turn : Turn crew c d) (sound : c.Sound)
    (told : ∀ move applied, Told c d (.advanced move applied) → move.after.Closed group)
    (closed : c.position.Closed group) : d.position.Closed group := by
  have hmoves := turn.moves sound
  have hfewer : (∀ h, d.needs h ⊆ c.needs h) → d.position.Closed group := fun hneeds ↦
    closed_of_needs sound (sound.of_alike hmoves.toAlike) (hmoves.scope_eq group) hmoves.shape
      (fun h _ ↦ hneeds h) closed
  cases turn with
  | descend hp _ hbelow hrecalls =>
    exact hfewer fun _ ↦ (hrecalls.lowers_lowered sound hp hbelow).needs_subset
  | raise hp _ henter => exact told _ _ (sound.told_advanced henter)
  | stall hp _ henter => exact hfewer fun _ ↦ sound.needs_stalled henter
  | park _ _ => exact hfewer fun _ ↦ List.Subset.refl _
  | limit _ => exact hfewer fun _ ↦ List.Subset.refl _

theorem Turns.closed (turns : Turns crew c d) (sound : c.Sound)
    (told : ∀ move applied, Told c d (.advanced move applied) → move.after.Closed group)
    (closed : c.position.Closed group) : d.position.Closed group := by
  induction turns with
  | refl => exact closed
  | @tail x d hfirst turn ih =>
    have hx := (Turns.sound_moves hfirst sound).1
    have hcontinues := Steps.continues (Turns.steps hfirst) sound
    refine turn.closed hx (fun move applied htold ↦ told move applied
      (htold.continues hcontinues)) (ih fun move applied htold ↦ told move applied ?_)
    exact (turn.continues hx).told htold

/-- Where nothing has to go down no turn takes a need away: only the needs that a stage has declared
are forgotten when a tree fails to enter it, and before it is entered there are none. -/
theorem Turn.needs_kept (turn : Turn crew c d) (sound : c.Sound) (low : ∀ h, c.Low h)
    (clean : c.AllClean) (h : Handle) : c.needs h ⊆ d.needs h := by
  cases turn with
  | descend hp habove _ _ =>
    rw [Chain.lt_iff_index (sound.requested hp) (sound.stage hp)] at habove
    exact absurd (low _ _ hp) (Nat.not_le.2 habove)
  | raise hp _ henter =>
    obtain ⟨done, htreated⟩ := Site.exists_entered (sound.forest.nodup_tree _) henter
    refine needs_subset htreated.shape.symm fun {k v} hv ↦ ?_
    obtain ⟨u, hu, ⟨_, hentered⟩ | ⟨_, rfl⟩⟩ := htreated.exists_get? hv
    · obtain ⟨more, hmore, _⟩ := hentered.needs
      exact ⟨u, hu, hmore ▸ List.subset_append_left _ _⟩
    · exact ⟨_, hu, List.Subset.refl _⟩
  | @stall p next failure site hp hready henter =>
    obtain ⟨done, m, pre, last, _, _, _, hsub, _, hentered, hleft⟩ :=
      Site.exists_undone (sound.forest.nodup_tree _) henter
    have htreated := hentered.left next hleft
    refine needs_subset htreated.shape.symm fun {k v} hv ↦ ?_
    obtain ⟨u, hu, ⟨hk, hgone⟩ | ⟨_, rfl⟩⟩ := htreated.exists_get? hv
    · refine ⟨u, hu, fun n hn ↦ ?_⟩
      rw [hgone.needs]
      refine Need.mem_forget.2 ⟨hn, fun hmark ↦ ?_⟩
      obtain ⟨part, hpart⟩ := (clean p.root p hp).exists_part
        (mem_treeUnits_iff.2 ⟨k, hsub hk, hu⟩)
      have hreached := (Chain.reached_iff (sound.stage hp)).1 (hpart.declared n hn next hmark)
      have hindex := Chain.index_of_next? (of_verdict_ready hp hready).2.2.1
      omega
    · exact ⟨_, hu, List.Subset.refl _⟩
  | park _ _ => exact List.Subset.refl _
  | limit _ => exact List.Subset.refl _

theorem Turns.needs_kept (turns : Turns crew c d) (sound : c.Sound) (low : ∀ h, c.Low h)
    (clean : c.AllClean) (h : Handle) : c.needs h ⊆ d.needs h := by
  have hboth : d.AllClean ∧ c.needs h ⊆ d.needs h := by
    induction turns with
    | refl => exact ⟨clean, List.Subset.refl _⟩
    | @tail x d hfirst turn ih =>
      have hx := (Turns.sound_moves hfirst sound).1
      have hlow : ∀ h, x.Low h := fun h ↦ Turns.low hfirst sound (low h)
      exact ⟨turn.allClean ih.1 hx, List.Subset.trans ih.2 (turn.needs_kept hx hlow ih.1 h)⟩
  exact hboth.2

/-- On the way up a group that is closed in the end was closed all along. -/
theorem Turns.closed_of (turns : Turns crew c d) (sound : c.Sound) (low : ∀ h, c.Low h)
    (clean : c.AllClean) (closed : d.position.Closed group) : c.position.Closed group := by
  obtain ⟨hd, hmoves⟩ := Turns.sound_moves turns sound
  exact closed_of_needs hd sound (hmoves.scope_eq group).symm hmoves.shape.symm
    (fun h _ ↦ Turns.needs_kept turns sound low clean h) closed

/-- A group is closed at the beginning of a batch, after each step up that is told of, and at the
end. -/
structure ClosedThroughout (group : String → Prop) (c d : Controller β σ) : Prop where
  start : c.position.Closed group
  moved : ∀ move applied, Told c d (.advanced move applied) → move.after.Closed group
  finish : d.position.Closed group

/-! What comes out of the two runs. -/

/-- A deployment is the same in two controllers: its progress, all its units, and all calls that
have been made on them. -/
structure Same (root : Handle) (c d : Controller β σ) : Prop where
  progress : d.board.get? root = c.board.get? root
  units : d.forest.treeUnits root = c.forest.treeUnits root
  calls : callsOf (c.forest.treeNames root) d.journal.toList =
    callsOf (c.forest.treeNames root) c.journal.toList

/-- The names of what is seen of a group are heard, since no other tree has them. -/
theorem Sound.heard_of_seen (sound : c.Sound) (hseen : (c.scope group).seen h)
    (hname : name ∈ c.forest.treeNames h) : (c.scope group).heard name := by
  intro r q hq hstays hgroup hname'
  obtain ⟨p, hp, haims⟩ := hseen
  obtain ⟨u, hu, rfl⟩ := List.mem_map.1 hname
  obtain ⟨k, hk, hu⟩ := mem_treeUnits_iff.1 hu
  by_cases hne : r = h
  · subst hne
    obtain rfl := Option.some_inj.1 (hp.symm.trans hq)
    rw [hstays] at haims
    exact hgroup (haims.resolve_left (by simp))
  · exact sound.name_notMem_treeNames hp hq hne hk hu hname'

theorem Beside.same_of_whole (beside : Beside group c d) (hwhole : (c.scope group).whole h) :
    Same h c d := by
  have hseen := seen_of_whole hwhole
  obtain ⟨p, hp, _⟩ := id hwhole
  refine ⟨beside.same.progress h hseen, ?_, beside.same.calls _ fun name hname ↦
    beside.left.heard_of_seen hseen hname⟩
  refine Forest.treeUnits_congr (beside.same.shape.tree h).symm fun k hk ↦ ?_
  obtain ⟨n, hn, _⟩ := (beside.left.mem_tree_iff hp).1 hk
  obtain ⟨u, hu, _⟩ := Forest.node?_eq_some_iff.1 hn
  obtain ⟨v, hv, _⟩ := beside.same.shape.symm.exists_get? hu
  have htop := beside.left.top_eq hp hk hu
  rw [hv, hu, beside.same.units k u v hu hv (htop.symm ▸ hwhole)]

theorem Hosts.whole (hosts : c.Hosts root b) (hgroup : group b.name) :
    (c.scope group).whole root := by
  obtain ⟨_, _, q, hq, hname, hstays⟩ := hosts
  exact ⟨q, hq, hstays, hname.symm ▸ hgroup⟩

/-- A deployment of a group that is hosted on one side is hosted on the other. -/
theorem Beside.hosts (beside : Beside group c d) (hosts : c.Hosts root b)
    (hgroup : group b.name) : d.Hosts root b := by
  have hsame := beside.same_of_whole (hosts.whole hgroup)
  obtain ⟨_, hnames, q, hq, hname, hstays⟩ := hosts
  have hq' := hsame.progress.trans hq
  refine ⟨?_, ?_, q, hq', hname, hstays⟩
  · rw [← hname]
    exact beside.right.topLevel?_of_get? hq'
  · rw [beside.same.shape.treeNames, hnames]

/-- What two runs from one controller have in common. The deployments of the group that stay, and
those that were queued, are the same in the end; and what was to be removed is gone, with the same
calls on the way. -/
structure Isolated (group : String → Prop) (c d d' : Controller β σ) : Prop where
  live : ∀ p ∈ c.board.tracked, p.removing = false → group p.name →
    (∃ q, d.board.get? p.root = some q ∧ q.name = p.name) ∧ Same p.root d d'
  queued : ∀ b ∈ c.queue, group b.name → ∃ root, d.Hosts root b ∧ d'.Hosts root b ∧ Same root d d'
  removed : ∀ p ∈ c.board.tracked, p.removing = true → ∃ es es' fs fs',
    d.journal.toList =
        c.journal.toList ++ es ++ .removed p.root p.name (c.forest.treeNames p.root) :: fs ∧
      d'.journal.toList =
        c.journal.toList ++ es' ++ .removed p.root p.name (c.forest.treeNames p.root) :: fs' ∧
      callsOf (c.forest.treeNames p.root) es' = callsOf (c.forest.treeNames p.root) es

/-- What is to be removed is called in step until it is gone. -/
theorem Beside.removed {m' k' e' : Controller β σ} (beside : Beside group m m') (sound : c.Sound)
    (parts : Parts crew c m k e) (parts' : Parts crew' c m' k' e')
    (hp : c.board.get? h = some p) (hremoving : p.removing = true) : ∃ es es' fs fs',
      e.journal.toList = c.journal.toList ++ es ++ .removed h p.name (c.forest.treeNames h) :: fs ∧
      e'.journal.toList =
        c.journal.toList ++ es' ++ .removed h p.name (c.forest.treeNames h) :: fs' ∧
      callsOf (c.forest.treeNames h) es' = callsOf (c.forest.treeNames h) es := by
  obtain ⟨es, rs, fs, hm, hrs, he⟩ := parts.removed sound hp hremoving
  obtain ⟨es', rs', fs', hm', hrs', he'⟩ := parts'.removed sound hp hremoving
  have hmoves := (Turns.sound_moves parts.first sound).2
  obtain ⟨q, hq, _, _, hgoing⟩ := hmoves.exists_get? hp
  have hcalls := beside.same.calls (c.forest.treeNames h) fun name hname ↦ by
    rw [← hmoves.shape.treeNames] at hname
    exact beside.left.heard_of_seen ⟨q, hq, Or.inl (hgoing.trans hremoving)⟩ hname
  rw [hm, hm', callsOf_append, callsOf_append] at hcalls
  have hnone : ∀ rs : List (Entry β), (∀ e ∈ rs, e.isCall = false) →
      callsOf (c.forest.treeNames h) rs = [] := fun rs hrs ↦ by
    rw [← callsOf_filter, List.filter_eq_nil_iff.2 fun e he ↦ by simp [hrs e he]]
    rfl
  refine ⟨es ++ rs, es' ++ rs', fs, fs', he, he', ?_⟩
  rw [callsOf_append, callsOf_append, hnone rs hrs, hnone rs' hrs', List.append_nil,
    List.append_nil]
  exact List.append_cancel_left hcalls

/-! The two runs. -/

/-- Two crews that treat alike the units of a group in the end treat alike those that it had at the
beginning, and those it had when its queue had been planted. -/
theorem Parts.agreeOn (parts : Parts crew c m k e) (sound : c.Sound)
    (agree : AgreeOn crew crew' group e) :
    AgreeOn crew crew' group c ∧ AgreeOn crew crew' group k := by
  obtain ⟨_, hk, _⟩ := parts.sound sound
  have hmoves := (Turns.sound_moves parts.first sound).2
  have hmoves' := (Turns.sound_moves parts.second hk).2
  have hplanted := agree.of_shape (hmoves'.scope_eq group).symm hmoves'.shape.symm
  refine ⟨?_, hplanted⟩
  have hmoved : AgreeOn crew crew' group m := by
    rintro h ⟨q, hq, hstays, hgroup⟩ u hu
    obtain ⟨p, hp, _, hremoving⟩ := hmoves.of_get? hq
    obtain ⟨r, hr, hr', hunits⟩ := parts.exists_get? sound hp (hremoving.trans hstays)
    obtain rfl := Option.some_inj.1 (hq.symm.trans hr)
    exact hplanted h ⟨q, hr', hstays, hgroup⟩ u (hunits ▸ hu)
  exact hmoved.of_shape (hmoves.scope_eq group).symm hmoves.shape.symm

section Runs

variable (keeps : crew.KeepsRoster) (keeps' : crew'.KeepsRoster)

include keeps keeps'

/-- Two runs move what is live in step: what has to go down does, and then the rest goes up. -/
theorem Phase.beside (phase : Phase crew c m) (phase' : Phase crew' c k) (sound : c.Sound)
    (agree : AgreeOn crew crew' group c)
    (closed : ∀ x, Turns crew c x → Turns crew x m → x.position.Closed group) :
    Beside group m k := by
  obtain ⟨x, i, hfalls, rfl, hrests⟩ := phase
  obtain ⟨y, j, hfalls', rfl, hrests'⟩ := phase'
  have habreast : Abreast crew crew' (c.scope group).whole c c :=
    ⟨sound, sound, .refl _ c, agree.units sound⟩
  have hxy := habreast.falls keeps keeps' hfalls hfalls'
  obtain ⟨hturns, hlow⟩ := Batch.turns_of_falls hfalls sound
  obtain ⟨hturns', hlow'⟩ := Batch.turns_of_falls hfalls' sound
  have hmoves := (Turns.sound_moves hturns sound).2
  have hscope := hmoves.scope_eq group
  have hscope' := (Turns.sound_moves hturns' sound).2.scope_eq group
  have beside : Beside group x y := by
    refine ⟨hxy.left, hxy.right, hlow, hlow', hscope'.trans hscope.symm, ?_⟩
    exact hxy.same.mono (fun h hh ↦ hscope ▸ hh) (fun _ _ ↦ trivial) fun _ _ ↦ trivial
  exact beside.rested keeps keeps' (agree.of_moves hmoves) hrests hrests' fun z hz hrest ↦
    closed z (hturns.trans hz) hrest

/-- Two runs in which nothing has to go down any more go up in step. -/
theorem Beside.phase {m' k' : Controller β σ} (beside : Beside group m m')
    (phase : Phase crew m k) (phase' : Phase crew' m' k') (agree : AgreeOn crew crew' group m)
    (closed : ∀ x, Turns crew m x → Turns crew x k → x.position.Closed group) :
    Beside group k k' := by
  obtain ⟨x, i, hfalls, rfl, hrests⟩ := phase
  obtain ⟨y, j, hfalls', rfl, hrests'⟩ := phase'
  obtain rfl := Batch.eq_of_falls hfalls beside.left beside.low
  obtain rfl := Batch.eq_of_falls hfalls' beside.right beside.low'
  exact beside.rested keeps keeps' agree hrests hrests' closed

/-- Two runs do the same with a group that is closed throughout the first of them. -/
theorem Parts.beside {m' k' e' : Controller β σ} (parts : Parts crew c m k e)
    (parts' : Parts crew' c m' k' e') (sound : c.Sound) (clean : c.AllClean)
    (agree : AgreeOn crew crew' group e) (closed : ClosedThroughout group c e)
    (first : Phase crew c m) (second : Phase crew k e) (first' : Phase crew' c m')
    (second' : Phase crew' k' e') : Beside group m m' ∧ Beside group e e' := by
  obtain ⟨hm, hk, _⟩ := parts.sound sound
  obtain ⟨hagree, hagree'⟩ := parts.agreeOn sound agree
  have hrest : Continues m e := Steps.continues
    ((parts.replaced sound).trans parts.second.steps) hm
  have hmoved : Beside group m m' := by
    refine first.beside keeps keeps' first' sound hagree fun x hx hxm ↦ ?_
    have hxe : Continues x e :=
      (Steps.continues hxm.steps (Turns.sound_moves hx sound).1).trans hrest
    exact Turns.closed hx sound (fun move applied htold ↦ closed.moved move applied
      (hxe.told htold)) closed.start
  have hplanted := hmoved.replaced parts parts'
  refine ⟨hmoved, hplanted.phase keeps keeps' second second' hagree' fun x hx hxe ↦ ?_⟩
  have hxk := (Turns.sound_moves hx hk).1
  have hclean : x.AllClean := Steps.preserves ((parts.planned sound).trans hx.steps) sound AllClean
    (fun sound step hc ↦ step.allClean hc sound) clean
  exact Turns.closed_of hxe hxk (fun h ↦ Turns.low hx hk (hplanted.low h)) hclean closed.finish

end Runs

/-- Passes that are not told to have been used up were not. -/
theorem Spent.resolve (ends : Spent crew c d ∨ Phase crew c d) (sound : c.Sound)
    (unspent : ∀ entry, Told c d entry → entry.isPassLimit = false) : Phase crew c d := by
  refine ends.resolve_left fun spent ↦ ?_
  obtain ⟨passes, htold⟩ := spent.told sound
  exact absurd (unspent _ htold) (by simp [Entry.isPassLimit])

/-- Both ways up and down of a batch that does not tell that its passes have been used up. -/
theorem Parts.phases (parts : Parts crew c m k e) (sound : c.Sound)
    (unspent : ∀ entry, Told c e entry → entry.isPassLimit = false) :
    Phase crew c m ∧ Phase crew k e := by
  obtain ⟨hm, hk, _⟩ := parts.sound sound
  have hplanned := Steps.continues (parts.planned sound) sound
  have hrest := Steps.continues ((parts.replaced sound).trans parts.second.steps) hm
  exact ⟨Spent.resolve parts.starts sound fun entry htold ↦ unspent entry (hrest.told htold),
    Spent.resolve parts.ends hk fun entry htold ↦ unspent entry (htold.continues hplanned)⟩

/-- Failures are isolated. Whatever two crews do with the deployments that are not of a group, and
however many of those fail in one of the runs or in both, each deployment of the group comes out of
both batches the same: at the same stage, asked for the same, with the same error and waiting for
the same, with the same records and needs on its units, and with the same calls made on them. All it
takes is that the crews treat the units of the group alike, that these need nothing but each other,
what is to be removed and what is not live, and that neither batch uses up its passes. What is to be
removed is treated as the group is, whatever its deployers do: they are called on it in the same
order before it is out. -/
theorem failures_isolated {crew₀ : Crew β σ} (reachable : Reachable crew₀ c)
    (keeps : crew.KeepsRoster) (keeps' : crew'.KeepsRoster)
    (agree : ∀ p ∈ (c.process crew).2.board.tracked, group p.name →
      ∀ u ∈ (c.process crew).2.forest.treeUnits p.root, crew.Agree crew' u u)
    (closed : ClosedThroughout group c (c.process crew).2)
    (unspent : ∀ entry, Told c (c.process crew).2 entry → entry.isPassLimit = false)
    (unspent' : ∀ entry, Told c (c.process crew').2 entry → entry.isPassLimit = false) :
    Isolated group c (c.process crew).2 (c.process crew').2 := by
  have sound := reachable.sound
  have hd : (c.process crew).2.Sound := Steps.sound (sound.steps_process crew) sound
  have hd' : (c.process crew').2.Sound := Steps.sound (sound.steps_process crew') sound
  have hfinished := sound.finished_process crew
  obtain ⟨m, k, e, tally, heq, parts⟩ := exists_parts crew sound
  obtain ⟨m', k', e', tally', heq', parts'⟩ := exists_parts crew' sound
  rw [heq] at agree closed unspent hd hfinished ⊢
  rw [heq'] at unspent' hd' ⊢
  have hnoted : Continues e (e.note (.completed tally)) := continues_note _ _
  have hnoted' : Continues e' (e'.note (.completed tally')) := continues_note _ _
  obtain ⟨hfirst, hsecond⟩ :=
    parts.phases sound fun entry htold ↦ unspent entry (hnoted.told htold)
  obtain ⟨hfirst', hsecond'⟩ :=
    parts'.phases sound fun entry htold ↦ unspent' entry (hnoted'.told htold)
  have hagree : AgreeOn crew crew' group e := by
    rintro h ⟨p, hp, _, hgroup⟩ u hu
    obtain rfl := Board.root_of_get? hp
    exact agree p ((mem_tracked_iff hd).2 hp) hgroup u hu
  have hclosed : ClosedThroughout group c e := ⟨closed.start,
    fun move applied htold ↦ closed.moved move applied (hnoted.told htold), closed.finish⟩
  obtain ⟨hmoved, he⟩ := parts.beside keeps keeps' parts' sound reachable.allClean hagree hclosed
    hfirst hsecond hfirst' hsecond'
  have beside : Beside group (e.note (.completed tally)) (e'.note (.completed tally')) :=
    ⟨hd, hd', he.low, he.low', he.scope, he.same.note rfl rfl⟩
  refine ⟨fun p hp hstays hgroup ↦ ?_, fun b hb hgroup ↦ ?_, fun p hp hremoving ↦ ?_⟩
  · rw [mem_tracked_iff sound] at hp
    obtain ⟨q, hq, hname, _⟩ := hfinished.kept hp hstays
    exact ⟨⟨q, hq, hname⟩,
      beside.same_of_whole ⟨q, hq, hfinished.staying hq, hname.symm ▸ hgroup⟩⟩
  · obtain ⟨roots, _, hall⟩ := hfinished.order
    obtain ⟨root, _, hhosts⟩ := (mem_of_hosts hall).2 b hb
    exact ⟨root, hhosts, beside.hosts hhosts hgroup, beside.same_of_whole (hhosts.whole hgroup)⟩
  · rw [mem_tracked_iff sound] at hp
    obtain ⟨es, es', fs, fs', htold, htold', hcalls⟩ :=
      hmoved.removed sound parts parts' hp hremoving
    refine ⟨es, es', fs ++ [.completed tally], fs' ++ [.completed tally'], ?_, ?_, hcalls⟩
    · rw [journal_note, htold, List.append_assoc, List.cons_append]
    · rw [journal_note, htold', List.append_assoc, List.cons_append]

/-- Deployers that fail to deploy on "net", and only there. -/
def offline : Crew Unit Unit := ⟨fun action _ u _ _ ↦ ⟨u.attachments, [], [], (),
  if action = .deploy ∧ u.name = "net" then some ⟨"refused", []⟩ else none⟩⟩

/-- Three live deployments, one of which is to be removed and needed by another, and three that are
queued, of which one needs another. -/
def turnover : Controller Unit Unit := postParsing.serveAll idle
  [.enlist ⟨{ name := "loader", stage := ⟨"Parse", 1⟩ }, ()⟩,
    .deploy (.mk "old" .none [] [] []),
    .deploy (.mk "user" .none [⟨"old", ⟨"PostParse", 2⟩, ⟨"Parse", 1⟩⟩] [] []),
    .deploy (.mk "db" .none [] [] []),
    .remove "old",
    .add (.mk "net" .none [] [] []),
    .add (.mk "gui" .none [⟨"net", ⟨"PostParse", 2⟩, ⟨"Parse", 1⟩⟩] [] []),
    .add (.mk "app" .none [⟨"db", ⟨"PostParse", 2⟩, ⟨"PostParse", 2⟩⟩] [] [])]

theorem failures_isolated_turnover :
    (turnover.process idle).2.board.tracked.map (fun p ↦ (p.name, p.stage.index)) =
        [("user", 1), ("db", 2), ("net", 2), ("gui", 2), ("app", 2)] ∧
      (turnover.process offline).2.board.tracked.map (fun p ↦ (p.name, p.stage.index)) =
        [("user", 1), ("db", 2), ("net", 0), ("gui", 1), ("app", 2)] ∧
      Isolated (· ∈ ["user", "db", "app"]) turnover (turnover.process idle).2
        (turnover.process offline).2 := by
  have hnet : ∀ p ∈ (turnover.process idle).2.board.tracked, p.name ∈ ["user", "db", "app"] →
      ∀ u ∈ (turnover.process idle).2.forest.treeUnits p.root, u.name ≠ "net" := by decide +kernel
  have hmoved : ∀ entry ∈ (turnover.process idle).2.journal.toList.drop turnover.journal.size,
      (match entry with
        | .advanced move _ => decide (move.after.Closed (· ∈ ["user", "db", "app"]))
        | _ => true) = true := by decide +kernel
  have hunspent : ∀ entry ∈ (turnover.process idle).2.journal.toList.drop turnover.journal.size,
      entry.isPassLimit = false := by decide +kernel
  have hunspent' : ∀ entry ∈ (turnover.process offline).2.journal.toList.drop
      turnover.journal.size, entry.isPassLimit = false := by decide +kernel
  refine ⟨by decide +kernel, by decide +kernel, ?_⟩
  refine failures_isolated (reachable_postParsing idle _) (fun _ _ _ _ _ ↦ rfl)
    (fun _ _ _ _ _ ↦ rfl) (fun p hp hgroup u hu w x hw _ hsame action d _ _ _ _ ↦ ?_)
    ⟨by decide +kernel, fun move applied htold ↦ of_decide_eq_true (hmoved _ htold.mem_drop),
      by decide +kernel⟩ (fun entry htold ↦ hunspent entry htold.mem_drop)
    fun entry htold ↦ hunspent' entry htold.mem_drop
  have hname : x.name ≠ "net" := by
    have hnode : w.name = u.name := congrArg (fun n ↦ n.name) hw
    rw [LiveUnit.name_eq_of_unplaced hsame, hnode]
    exact hnet p hp hgroup u hu
  have hattachments := congrArg LiveUnit.attachments hsame
  exact ⟨hattachments, rfl, if_neg fun hfails ↦ hname hfails.2⟩

end Rollout.Controller
