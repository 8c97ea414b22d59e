import Rollout.Proofs.Batches
import Rollout.Proofs.SideBySide

/-!
Going up side by side. A step up only reads the needs of the tree that takes it and the progress of
the deployments that these lead to. So if the needs of some trees lead nowhere but to trees that are
seen, two runs that match in such a scope go on to match: a tree of the scope takes the same step in
both, and whatever another tree does, or does in one run alone, is out of the scope.
-/

set_option autoImplicit false
set_option relaxedAutoImplicit false

namespace Rollout

variable {β σ : Type}

/-- Whatever a deployment of a group needs belongs to the group as well, or is to be removed, or is
not live. -/
def Position.Closed (group : String → Prop) (x : Position β) : Prop :=
  ∀ p ∈ x.board.tracked, p.removing = false → group p.name →
    ∀ n ∈ x.forest.treeNeeds p.root, ∀ q ∈ x.board.ofUnit? x.forest n.target,
      q.removing = true ∨ group q.name

instance {group : String → Prop} [DecidablePred group] (x : Position β) :
    Decidable (x.Closed group) :=
  inferInstanceAs (Decidable (∀ p ∈ x.board.tracked, p.removing = false → group p.name →
    ∀ n ∈ x.forest.treeNeeds p.root, ∀ q ∈ x.board.ofUnit? x.forest n.target,
      q.removing = true ∨ group q.name))

namespace LiveUnit

variable {u : LiveUnit β} {stage : Stage} {ds : List (Deployer β)} {e : Entry β} {name : String}

theorem callee_of_deployCalls (he : e ∈ u.deployCalls stage ds) (hname : e.callee? = some name) :
    u.name = name := by
  obtain ⟨d, _, he⟩ := List.mem_flatMap.1 he
  rcases List.mem_pair.1 he with rfl | rfl
  · exact Option.some_inj.1 hname
  · exact Option.some_inj.1 hname

theorem callee_of_undeployCalls (he : e ∈ u.undeployCalls stage ds)
    (hname : e.callee? = some name) : u.name = name := by
  obtain ⟨d, _, rfl⟩ := List.mem_map.1 he
  exact Option.some_inj.1 hname

end LiveUnit

namespace Site

variable {crew : Crew β σ} {s t : Site β σ} {hs : List Handle}

/-- The units on some handles may have been worked on, and nothing else has. -/
structure Tended (hs : List Handle) (s t : Site β σ) : Prop where
  shape : s.forest.SameShape t.forest
  other : ∀ k, k ∉ hs → t.forest.get? k = s.forest.get? k
  roster : t.ambient.roster = s.ambient.roster
  passed : ∃ calls, s.ambient.Passed t.ambient calls ∧ ∀ e ∈ calls, ∀ name,
    e.callee? = some name → ∃ k ∈ hs, ∃ u, s.forest.get? k = some u ∧ u.name = name

theorem Tended.refl (hs : List Handle) (s : Site β σ) : Tended hs s s :=
  ⟨.refl _, fun _ _ ↦ rfl, rfl, [], .refl _, by simp⟩

/-- A tree that is to enter a stage is all that is worked on, whatever comes of it. -/
theorem tended_enterStage (keeps : crew.KeepsRoster) {root : Handle} (stage : Stage)
    (hnodup : (s.forest.tree root).Nodup) :
    Tended (s.forest.tree root) s (enterStage crew root stage s).2 := by
  have hroster := roster_enterStage keeps root stage s
  cases henter : enterStage crew root stage s with
  | mk result t =>
    rw [henter] at hroster
    cases result with
    | ok applied =>
      obtain ⟨done, htreated⟩ := exists_entered hnodup henter
      refine ⟨htreated.shape, fun k hk ↦ htreated.other hk, hroster, _, htreated.ambient,
        fun e he name hname ↦ ?_⟩
      obtain ⟨k, hk, u, hu, he⟩ := mem_callsOn.1 he
      exact ⟨k, hk, u, hu, u.callee_of_deployCalls he hname⟩
    | error failure =>
      obtain ⟨done, m, pre, k, u, d, cause, hsub, hu, hentered, hleft⟩ :=
        exists_undone hnodup henter
      have htreated := hentered.left stage hleft
      refine ⟨htreated.shape, fun l hl ↦ htreated.other fun hmem ↦ hl (hsub hmem), hroster, _,
        htreated.ambient, fun e he name hname ↦ ?_⟩
      rw [List.mem_append, List.mem_append] at he
      rcases he with (he | he) | he
      · obtain ⟨l, hl, w, hw, he⟩ := mem_callsOn.1 he
        exact ⟨l, hsub hl, w, hw, w.callee_of_deployCalls he hname⟩
      · refine ⟨k, hsub (List.mem_append_right _ List.mem_cons_self), u, hu, ?_⟩
        rcases List.mem_pair.1 he with rfl | rfl
        · exact Option.some_inj.1 hname
        · exact Option.some_inj.1 hname
      · obtain ⟨l, hl, w, hw, he⟩ := mem_callsOn.1 he
        obtain ⟨v, hv, hnode⟩ := hentered.shape.exists_get? hw
        have hsame : v.name = w.name := by rw [hnode]
        exact ⟨l, hsub (List.mem_reverse.1 hl), v, hv,
          hsame.trans (w.callee_of_undeployCalls he hname)⟩

variable {crew' : Crew β σ} {s' : Site β σ}

/-- Trees whose units are treated alike enter a stage in step. -/
theorem Shared.enterStage (keeps : crew.KeepsRoster) (keeps' : crew'.KeepsRoster) {root : Handle}
    (shared : Shared crew crew' (s.forest.tree root) s s')
    (hroster : s'.ambient.roster = s.ambient.roster)
    (htree : s'.forest.tree root = s.forest.tree root) (stage : Stage) :
    (Site.enterStage crew' root stage s').1 = (Site.enterStage crew root stage s).1 ∧
      (∀ k ∈ s.forest.tree root, (Site.enterStage crew' root stage s').2.forest.get? k =
        (Site.enterStage crew root stage s).2.forest.get? k) ∧
      Ambient.InStep s.ambient (Site.enterStage crew root stage s).2.ambient
        s'.ambient (Site.enterStage crew' root stage s').2.ambient := by
  unfold Site.enterStage
  rw [hroster, htree]
  obtain ⟨hresult, hshared, hstep⟩ := shared.enterEach keeps keeps' (List.Subset.refl _)
    (List.nil_subset _) (s.ambient.roster.atStage stage) 0
  exact ⟨hresult, hshared.units, hstep⟩

end Site

namespace Controller

variable {crew crew' : Crew β σ} {c d : Controller β σ} {s : Scope} {p : Progress} {h : Handle}
  {root : Handle} {site site' : Site β σ} {entry entry' : Entry β} {group : String → Prop}

/-- The controller after a tree has been worked on, some of its progress has been written down, and
an entry has been made of it. -/
def wrought (root : Handle) (change : Progress → Progress) (site : Site β σ) (entry : Entry β)
    (c : Controller β σ) : Controller β σ :=
  { c with site := site.note entry, board := c.board.update root change }

variable {change : Progress → Progress}

/-- What is done on a tree out of a scope does not show in it. -/
theorem matches_wrought (hroot : ¬ s.seen root) (hwhole : ∀ h, s.whole h → s.seen h)
    (hheard : ∀ name ∈ c.forest.treeNames root, ¬ s.heard name)
    (sound : c.Sound) (hp : c.board.get? root = some p) (hkeeps : ∀ p, (change p).root = p.root)
    (tended : Site.Tended (c.forest.tree root) c.site site) (hentry : entry.isCall = false) :
    Matches s c (c.wrought root change site entry) := by
  have hother : ∀ k u v, c.forest.get? k = some u → site.forest.get? k = some v →
      s.seen u.top → v = u := fun k u v hu hv hseen ↦ by
    have hk : k ∉ c.forest.tree root := fun hk ↦ hroot (sound.top_eq hp hk hu ▸ hseen)
    exact Option.some_inj.1 (hv.symm.trans ((tended.other k hk).trans hu))
  obtain ⟨calls, hpassed, hcalls⟩ := tended.passed
  refine ⟨tended.shape, rfl, rfl, tended.roster, rfl, fun h hh ↦ ?_, fun k u v hu hv hseen ↦ ?_,
    fun k u v hu hv hw ↦ hother k u v hu hv (hwhole _ hw), fun names hnames ↦ ?_⟩
  · have hne : h ≠ root := fun heq ↦ hroot (heq ▸ hh)
    exact (Board.get?_update _ _ _ hkeeps).trans (if_neg hne)
  · obtain rfl := hother k u v hu hv hseen
    exact ⟨rfl, rfl⟩
  · have hnone : callsOf names calls = [] := callsOf_eq_nil fun e he name hname hmem ↦ by
      obtain ⟨k, hk, u, hu, rfl⟩ := hcalls e he name hname
      exact hheard u.name (name_mem_treeNames hk hu) (hnames _ hmem)
    have htold := hpassed.callsOf entry hentry names
    rw [hnone, List.append_nil] at htold
    exact htold

/-- What is done in step on a tree that is compared as a whole is the same in both runs. -/
theorem Matches.wrought (same : Matches s c d) (hkeeps : ∀ p, (change p).root = p.root)
    (hroot : s.seen root) (tended : Site.Tended (c.forest.tree root) c.site site)
    (tended' : Site.Tended (c.forest.tree root) d.site site')
    (hunits : ∀ k ∈ c.forest.tree root, site'.forest.get? k = site.forest.get? k)
    (inStep : Ambient.InStep c.site.ambient site.ambient d.site.ambient site'.ambient)
    (hentry : entry.isCall = false) (hentry' : entry'.isCall = false) :
    Matches s (c.wrought root change site entry) (d.wrought root change site' entry') := by
  have hcases : ∀ k u₁ v₁, site.forest.get? k = some u₁ → site'.forest.get? k = some v₁ →
      v₁ = u₁ ∨ c.forest.get? k = some u₁ ∧ d.forest.get? k = some v₁ := fun k u₁ v₁ hu₁ hv₁ ↦ by
    by_cases hk : k ∈ c.forest.tree root
    · exact Or.inl (Option.some_inj.1 (hv₁.symm.trans ((hunits k hk).trans hu₁)))
    · exact Or.inr ⟨(tended.other k hk).symm.trans hu₁, (tended'.other k hk).symm.trans hv₁⟩
  refine ⟨(tended.shape.symm.trans same.shape).trans tended'.shape, same.chain, same.target,
    tended'.roster.trans (same.roster.trans tended.roster.symm), same.order, fun h hh ↦ ?_,
    fun k u v hu hv hseen ↦ ?_, fun k u v hu hv hw ↦ ?_, fun names hnames ↦ ?_⟩
  · show (d.board.update root change).get? h = (c.board.update root change).get? h
    rw [Board.get?_update _ _ _ hkeeps, Board.get?_update _ _ _ hkeeps, same.progress root hroot,
      same.progress h hh]
  · rcases hcases k u v hu hv with rfl | ⟨hu, hv⟩
    · exact ⟨rfl, rfl⟩
    · exact same.record k u v hu hv hseen
  · rcases hcases k u v hu hv with rfl | ⟨hu, hv⟩
    · rfl
    · exact same.units k u v hu hv hw
  · obtain ⟨es, hes, hes'⟩ := inStep
    have hnone : ∀ e : Entry β, e.isCall = false → callsOf names [e] = [] := fun e he ↦ by
      rw [← callsOf_filter, List.filter_singleton, he]
      rfl
    have hjournal : ∀ (a b : Ambient β σ) (e : Entry β), e.isCall = false →
        b.journal.toList = a.journal.toList ++ es → callsOf names (b.note e).journal.toList =
          callsOf names a.journal.toList ++ callsOf names es := fun a b e he heq ↦ by
      unfold Ambient.note
      rw [Array.toList_push, callsOf_append, hnone e he, List.append_nil, heq, callsOf_append]
    exact (hjournal _ _ _ hentry' hes').trans
      ((congrArg (· ++ _) (same.calls names hnames)).trans (hjournal _ _ _ hentry hes).symm)

/-- A tree whose needs lead nowhere but to trees that are seen may take the same steps in both
runs. -/
theorem Matches.verdict (same : Matches s c d) (sound : c.Sound) (hp : c.board.get? h = some p)
    (hseen : s.seen h)
    (hneeds : ∀ n ∈ c.needs h, ∀ t, c.home? n.target = some t → s.seen t) :
    d.verdict h = c.verdict h := by
  have hsame : d.needs h = c.needs h :=
    same.needs fun k hk u hu ↦ (sound.top_eq hp hk hu).symm ▸ hseen
  have hmissing : ∀ next, d.board.missing d.chain d.forest h next =
      c.board.missing c.chain c.forest h next := fun next ↦ by
    have hlist : d.forest.treeNeeds h = c.forest.treeNeeds h := hsame
    unfold Board.missing
    rw [hlist, same.chain]
    refine List.filterMap_congr fun n hn ↦ ?_
    unfold Board.shortfall?
    rw [ofUnit?_eq, ofUnit?_eq, same.home?]
    cases hhome : c.home? n.target with
    | none => rfl
    | some t =>
      rw [Option.bind_some, Option.bind_some,
        same.progress t (hneeds n (List.mem_filter.1 hn).1 t hhome)]
  unfold Controller.verdict Board.verdict
  rw [funext hmissing, same.progress h hseen, same.chain]

/-- A tree that is compared as a whole takes its next step up in step with itself. -/
theorem Matches.advanced (same : Matches s c d) (hc : c.Sound) (hd : d.Sound)
    (keeps : crew.KeepsRoster) (keeps' : crew'.KeepsRoster)
    (agree : crew.AgreeOn crew' s.whole c.forest) (hp : c.board.get? p.root = some p)
    (hseen : s.seen p.root) (hwhole : s.whole p.root)
    (hneeds : ∀ n ∈ c.needs p.root, ∀ t, c.home? n.target = some t → s.seen t) :
    Matches s (c.advanced crew p.root) (d.advanced crew' p.root) := by
  have hp' : d.board.get? p.root = some p := (same.progress p.root hseen).trans hp
  have htree : d.forest.tree p.root = c.forest.tree p.root := (same.shape.tree _).symm
  rw [advanced_eq crew hp, advanced_eq crew' hp', same.verdict hc hp hseen hneeds]
  cases hverdict : c.verdict p.root with
  | idle => exact same
  | blocked missing =>
    by_cases hwaiting : p.waiting = missing
    · simp only [if_pos hwaiting]
      exact same
    · simp only [if_neg hwaiting]
      exact same.wrought (fun _ ↦ rfl) hseen (.refl _ _) (.refl _ _)
        (same.shared hc agree hp hwhole).units (.refl _ _) rfl rfl
  | ready next =>
    have htended := Site.tended_enterStage keeps next (hc.forest.nodup_tree p.root)
    have htended' := Site.tended_enterStage keeps' next (hd.forest.nodup_tree p.root)
    change Site.Tended (d.forest.tree p.root) _ _ at htended'
    rw [htree] at htended'
    obtain ⟨hresult, hunits, hstep⟩ :=
      Site.Shared.enterStage keeps keeps' (same.shared hc agree hp hwhole) same.roster htree next
    cases henter : c.site.enterStage crew p.root next with
    | mk result site =>
      cases henter' : d.site.enterStage crew' p.root next with
      | mk result' site' =>
        rw [henter] at hresult hunits hstep htended
        rw [henter'] at hresult hunits hstep htended'
        simp only at hresult
        subst hresult
        simp only [henter, henter']
        cases result' with
        | ok applied =>
          exact same.wrought (fun _ ↦ rfl) hseen htended htended' hunits hstep rfl rfl
        | error failure =>
          exact same.wrought (fun _ ↦ rfl) hseen htended htended' hunits hstep rfl rfl

/-! Groups of deployments. -/

/-- The scope of a group: all of its deployments that stay, the progress of these and of what is to
be removed, and the calls on everything but the units of those that stay and do not belong to the
group. -/
def scope (group : String → Prop) (c : Controller β σ) : Scope where
  whole h := ∃ p, c.board.get? h = some p ∧ p.removing = false ∧ group p.name
  seen h := ∃ p, c.board.get? h = some p ∧ (p.removing = true ∨ group p.name)
  heard name := ∀ h p, c.board.get? h = some p → p.removing = false → ¬ group p.name →
    name ∉ c.forest.treeNames h

theorem seen_of_whole (hwhole : (c.scope group).whole h) : (c.scope group).seen h := by
  obtain ⟨p, hp, _, hgroup⟩ := hwhole
  exact ⟨p, hp, Or.inr hgroup⟩

theorem Moves.of_get? (moves : Moves c d) {q : Progress} (hq : d.board.get? h = some q) :
    ∃ p, c.board.get? h = some p ∧ p.name = q.name ∧ p.removing = q.removing := by
  obtain ⟨p, hp, hkeeps⟩ := moves.get? hq
  exact ⟨p, hp, hkeeps.name.symm, (moves.aims hp hq).2.symm⟩

/-- Deployments stay in the scope of a group when they are moved. -/
theorem Moves.scope_eq (moves : Moves c d) (group : String → Prop) :
    d.scope group = c.scope group := by
  have hforward : ∀ {h p}, c.board.get? h = some p →
      ∃ q, d.board.get? h = some q ∧ q.name = p.name ∧ q.removing = p.removing := fun hp ↦ by
    obtain ⟨q, hq, hname, _, hremoving⟩ := moves.exists_get? hp
    exact ⟨q, hq, hname, hremoving⟩
  unfold scope
  rw [Scope.mk.injEq]
  refine ⟨funext fun h ↦ propext ⟨?_, ?_⟩, funext fun h ↦ propext ⟨?_, ?_⟩,
    funext fun name ↦ propext ⟨fun hheard h p hp hstays hgroup ↦ ?_,
      fun hheard h q hq hstays hgroup ↦ ?_⟩⟩
  · rintro ⟨q, hq, hstays, hgroup⟩
    obtain ⟨p, hp, hname, hremoving⟩ := moves.of_get? hq
    exact ⟨p, hp, hremoving.trans hstays, hname ▸ hgroup⟩
  · rintro ⟨p, hp, hstays, hgroup⟩
    obtain ⟨q, hq, hname, hremoving⟩ := hforward hp
    exact ⟨q, hq, hremoving.trans hstays, hname ▸ hgroup⟩
  · rintro ⟨q, hq, hseen⟩
    obtain ⟨p, hp, hname, hremoving⟩ := moves.of_get? hq
    exact ⟨p, hp, by rw [hname, hremoving]; exact hseen⟩
  · rintro ⟨p, hp, hseen⟩
    obtain ⟨q, hq, hname, hremoving⟩ := hforward hp
    exact ⟨q, hq, by rw [hname, hremoving]; exact hseen⟩
  · obtain ⟨q, hq, hname, hremoving⟩ := hforward hp
    rw [← moves.shape.treeNames]
    exact hheard h q hq (hremoving.trans hstays) (hname ▸ hgroup)
  · obtain ⟨p, hp, hname, hremoving⟩ := moves.of_get? hq
    rw [moves.shape.treeNames]
    exact hheard h p hp (hremoving.trans hstays) (hname ▸ hgroup)

/-- A group is closed where all that its deployments need is in its scope. -/
theorem Sound.closed_iff (sound : c.Sound) : c.position.Closed group ↔
    ∀ h, (c.scope group).whole h → ∀ n ∈ c.needs h, ∀ t, c.home? n.target = some t →
      (c.scope group).seen t := by
  have hunit : ∀ name, c.position.board.ofUnit? c.position.forest name =
      (c.home? name).bind c.board.get? := fun name ↦ ofUnit?_eq ..
  constructor
  · rintro closed h ⟨p, hp, hstays, hgroup⟩ n hn t hhome
    obtain rfl := Board.root_of_get? hp
    obtain ⟨k, u, hu, _, rfl⟩ := sound.home?_eq_some_iff.1 hhome
    obtain ⟨q, hq⟩ := sound.exists_progress (Forest.node?_of_get? hu)
    refine ⟨q, hq, closed p ((mem_tracked_iff sound).2 hp) hstays hgroup n hn q ?_⟩
    rw [hunit, hhome]
    exact hq
  · intro hseen p hp hstays hgroup n hn q hq
    have hwhole : (c.scope group).whole p.root := ⟨p, (mem_tracked_iff sound).1 hp, hstays, hgroup⟩
    rw [hunit] at hq
    obtain ⟨t, hhome, hq⟩ := Option.bind_eq_some_iff.1 hq
    obtain ⟨r, hr, haims⟩ := hseen p.root hwhole n hn t hhome
    obtain rfl := Option.some_inj.1 (hq.symm.trans hr)
    exact haims

/-- What is to be removed does not go up. -/
theorem Sound.verdict_removing (sound : c.Sound) (hp : c.board.get? p.root = some p)
    (hremoving : p.removing = true) : c.verdict p.root = .idle := by
  have hle : p.requested ≤ p.stage := by
    rw [sound.removing hp hremoving, Chain.le_iff_index c.chain.contains_floor (sound.stage hp)]
    exact Nat.zero_le _
  rcases verdict_cases hp with ⟨hidle, _⟩ | ⟨_, hnot, _⟩
  · exact hidle
  · exact absurd hle hnot

/-- The next step up of a deployment out of the scope of a group does not show in it. -/
theorem Sound.matches_advanced (sound : c.Sound) (keeps : crew.KeepsRoster)
    (hroot : ¬ (c.scope group).seen root) :
    Matches (c.scope group) c (c.advanced crew root) := by
  cases hp : c.board.get? root with
  | none =>
    rw [advanced_of_untracked crew hp]
    exact .refl _ c
  | some p =>
    obtain rfl := Board.root_of_get? hp
    have hstays : p.removing = false :=
      Bool.of_not_eq_true fun hremoving ↦ hroot ⟨p, hp, Or.inl hremoving⟩
    have hgroup : ¬ group p.name := fun hgroup ↦ hroot ⟨p, hp, Or.inr hgroup⟩
    have hheard : ∀ name ∈ c.forest.treeNames p.root, ¬ (c.scope group).heard name :=
      fun name hname hheard ↦ hheard p.root p hp hstays hgroup hname
    have hwrought : ∀ (change : Progress → Progress) (site : Site β σ) (entry : Entry β),
        (∀ p, (change p).root = p.root) → Site.Tended (c.forest.tree p.root) c.site site →
          entry.isCall = false → Matches (c.scope group) c (c.wrought p.root change site entry) :=
      fun _ _ _ hkeeps tended hentry ↦
        matches_wrought hroot (fun _ ↦ seen_of_whole) hheard sound hp hkeeps tended hentry
    rw [advanced_eq crew hp]
    cases c.verdict p.root with
    | idle => exact .refl _ c
    | blocked missing =>
      simp only
      split
      · exact .refl _ c
      · exact hwrought _ _ _ (fun _ ↦ rfl) (.refl _ _) rfl
    | ready next =>
      have htended := Site.tended_enterStage keeps next (sound.forest.nodup_tree p.root)
      simp only
      cases henter : c.site.enterStage crew p.root next with
      | mk result site =>
        rw [henter] at htended
        cases result with
        | ok applied => exact hwrought _ _ _ (fun _ ↦ rfl) htended rfl
        | error failure => exact hwrought _ _ _ (fun _ ↦ rfl) htended rfl

/-- Two controllers in which nothing is above the stage it is asked for, and which match in the
scope of a group. -/
structure Beside (group : String → Prop) (c d : Controller β σ) : Prop where
  left : c.Sound
  right : d.Sound
  low : ∀ h, c.Low h
  low' : ∀ h, d.Low h
  scope : d.scope group = c.scope group
  same : Matches (c.scope group) c d

theorem Beside.of_turns {m e : Controller β σ} (beside : Beside group c d)
    (turns : Turns crew c m) (turns' : Turns crew' d e) (same : Matches (c.scope group) m e) :
    Beside group m e := by
  obtain ⟨hm, hmoves⟩ := Turns.sound_moves turns beside.left
  obtain ⟨he, hmoves'⟩ := Turns.sound_moves turns' beside.right
  refine ⟨hm, he, fun h ↦ turns.low beside.left (beside.low h),
    fun h ↦ turns'.low beside.right (beside.low' h), ?_, ?_⟩
  · rw [hmoves.scope_eq, hmoves'.scope_eq, beside.scope]
  · rw [hmoves.scope_eq]
    exact same

/-- Two crews treat alike all units of a group. -/
def AgreeOn (crew crew' : Crew β σ) (group : String → Prop) (c : Controller β σ) : Prop :=
  ∀ h, (c.scope group).whole h → ∀ u ∈ c.forest.treeUnits h, crew.Agree crew' u u

theorem AgreeOn.units (agree : AgreeOn crew crew' group c) (sound : c.Sound) :
    crew.AgreeOn crew' (c.scope group).whole c.forest := by
  intro k u hu hwhole
  obtain ⟨p, hp, _⟩ := id hwhole
  have hk := (sound.mem_tree_iff hp).2 ⟨_, Forest.node?_of_get? hu, rfl⟩
  exact agree u.top hwhole u (mem_treeUnits_iff.2 ⟨k, hk, hu⟩)

theorem AgreeOn.of_shape (agree : AgreeOn crew crew' group c)
    (hscope : d.scope group = c.scope group) (shape : c.forest.SameShape d.forest) :
    AgreeOn crew crew' group d := by
  intro h hwhole v hv
  rw [hscope] at hwhole
  obtain ⟨k, hk, hv⟩ := mem_treeUnits_iff.1 hv
  rw [← shape.tree] at hk
  obtain ⟨u, hu, hnode⟩ := shape.exists_get? hv
  exact (agree h hwhole u (mem_treeUnits_iff.2 ⟨k, hk, hu⟩)).congr hnode.symm hnode.symm

theorem AgreeOn.of_moves (agree : AgreeOn crew crew' group c) (moves : Moves c d) :
    AgreeOn crew crew' group d :=
  agree.of_shape (moves.scope_eq group) moves.shape

section Climbing

variable (keeps : crew.KeepsRoster) (keeps' : crew'.KeepsRoster)

include keeps keeps'

/-- One step up on each side. -/
theorem Beside.advanced (beside : Beside group c d) (agree : AgreeOn crew crew' group c)
    (closed : c.position.Closed group) (root : Handle) :
    Beside group (c.advanced crew root) (d.advanced crew' root) := by
  refine beside.of_turns (turns_advanced crew root c) (turns_advanced crew' root d) ?_
  by_cases hseen : (c.scope group).seen root
  · by_cases hwhole : (c.scope group).whole root
    · obtain ⟨p, hp, _⟩ := id hwhole
      obtain rfl := Board.root_of_get? hp
      exact beside.same.advanced beside.left beside.right keeps keeps' (agree.units beside.left) hp
        hseen hwhole (beside.left.closed_iff.1 closed p.root hwhole)
    · obtain ⟨p, hp, haims⟩ := id hseen
      have hremoving : p.removing = true := Bool.of_not_eq_false fun hstays ↦
        hwhole ⟨p, hp, hstays, haims.resolve_left fun h ↦ by simp [hstays] at h⟩
      obtain rfl := Board.root_of_get? hp
      have hp' : d.board.get? p.root = some p := (beside.same.progress p.root hseen).trans hp
      rw [advanced_eq crew hp, advanced_eq crew' hp', beside.left.verdict_removing hp hremoving,
        beside.right.verdict_removing hp' hremoving]
      exact beside.same
  · have hleft := beside.left.matches_advanced keeps hseen
    have hright := beside.right.matches_advanced keeps' (beside.scope ▸ hseen)
    rw [beside.scope] at hright
    exact (hleft.symm.trans beside.same).trans hright

omit keeps keeps' in
theorem turns_advanceEach (crew : Crew β σ) (roots : List Handle) (c : Controller β σ) :
    Turns crew c (roots.foldl (fun c root ↦ c.advanced crew root) c) := by
  induction roots generalizing c with
  | nil => exact .refl
  | cons root roots ih => exact (turns_advanced crew root c).trans (ih _)

/-- Steps up on each side, one deployment after another. What a group needs has to be in its scope
wherever the first run passes by. -/
theorem Beside.advanceEach (beside : Beside group c d) (agree : AgreeOn crew crew' group c)
    (roots : List Handle) (closed : ∀ x, Turns crew c x →
      Turns crew x (roots.foldl (fun c root ↦ c.advanced crew root) c) →
        x.position.Closed group) :
    Beside group (roots.foldl (fun c root ↦ c.advanced crew root) c)
      (roots.foldl (fun d root ↦ d.advanced crew' root) d) := by
  induction roots generalizing c d with
  | nil => exact beside
  | cons root roots ih =>
    have hfirst := turns_advanced crew root c
    have hmoves := (Turns.sound_moves hfirst beside.left).2
    refine ih (beside.advanced keeps keeps' agree
      (closed c .refl (turns_advanceEach crew (root :: roots) c)) root) (agree.of_moves hmoves)
      fun x hx hrest ↦ closed x (hfirst.trans hx) hrest

theorem Beside.climbed (beside : Beside group c d) (agree : AgreeOn crew crew' group c)
    (closed : ∀ x, Turns crew c x → Turns crew x (c.climbed crew) → x.position.Closed group) :
    Beside group (c.climbed crew) (d.climbed crew') := by
  unfold Controller.climbed at closed ⊢
  rw [beside.same.order]
  exact beside.advanceEach keeps keeps' agree c.board.order closed

omit keeps keeps' in
theorem turns_climbs (crew : Crew β σ) (k : Nat) (c : Controller β σ) :
    Turns crew c ((Controller.climbed crew)^[k] c) := by
  induction k generalizing c with
  | zero => exact .refl
  | succ k ih => exact (turns_advanceEach crew c.board.order c).trans (ih _)

theorem Beside.climbs (beside : Beside group c d) (agree : AgreeOn crew crew' group c) (k : Nat)
    (closed : ∀ x, Turns crew c x → Turns crew x ((Controller.climbed crew)^[k] c) →
      x.position.Closed group) :
    Beside group ((Controller.climbed crew)^[k] c) ((Controller.climbed crew')^[k] d) := by
  induction k generalizing c d with
  | zero => exact beside
  | succ k ih =>
    have hfirst : Turns crew c (c.climbed crew) := turns_advanceEach crew c.board.order c
    have hrest : Turns crew (c.climbed crew) ((Controller.climbed crew)^[k + 1] c) :=
      turns_climbs crew k _
    have hmoves := (Turns.sound_moves hfirst beside.left).2
    exact ih (beside.climbed keeps keeps' agree fun x hx hxm ↦ closed x hx (hxm.trans hrest))
      (agree.of_moves hmoves) fun x hx hrest ↦ closed x (hfirst.trans hx) hrest

omit keeps keeps' in
theorem climbs_eq {i k : Nat} (hle : i ≤ k)
    (rests : ∀ h, ((Controller.climbed crew)^[i] c).Rests h) :
    (Controller.climbed crew)^[k] c = (Controller.climbed crew)^[i] c := by
  obtain ⟨j, rfl⟩ := Nat.exists_eq_add_of_le hle
  rw [Nat.add_comm, Function.iterate_add_apply]
  exact Function.iterate_fixed (climbed_eq crew rests) j

/-- Both runs go up until they are at rest. They may need different numbers of passes for it; the
one that is at rest first stays as it is for those that the other still needs. -/
theorem Beside.rested {i j : Nat} (beside : Beside group c d)
    (agree : AgreeOn crew crew' group c)
    (rests : ∀ h, ((Controller.climbed crew)^[i] c).Rests h)
    (rests' : ∀ h, ((Controller.climbed crew')^[j] d).Rests h)
    (closed : ∀ x, Turns crew c x → Turns crew x ((Controller.climbed crew)^[i] c) →
      x.position.Closed group) :
    Beside group ((Controller.climbed crew)^[i] c) ((Controller.climbed crew')^[j] d) := by
  have hleft := climbs_eq (Nat.le_max_left i j) rests
  have hright := climbs_eq (Nat.le_max_right i j) rests'
  rw [← hleft] at closed ⊢
  rw [← hright]
  exact beside.climbs keeps keeps' agree (max i j) closed

end Climbing

end Controller

end Rollout
