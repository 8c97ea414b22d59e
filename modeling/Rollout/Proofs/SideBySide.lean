import Rollout.Proofs.LocalWork
import Rollout.Proofs.Passes
import Rollout.Proofs.Records
import Rollout.Proofs.StandingNeeds

/-!
Two runs side by side. Two controllers match in a scope when they have the same shape, some trees
with all that is on their units, more trees with their progress, needs and records, and the calls
that were made on some names. Whoever has to go down, and what has to go down before it, is read off
the board, the needs and the records alone, so two crews that treat the whole trees of a scope alike
take two controllers that match down in step, whatever else they do.
-/

set_option autoImplicit false
set_option relaxedAutoImplicit false

namespace Rollout

variable {β σ : Type}

namespace Entry

/-- The name of the unit that a call is about. -/
def callee? : Entry β → Option String
  | deploying _ _ name _ => some name
  | deployed _ _ name _ => some name
  | deployFailed _ _ name _ _ => some name
  | undeploying _ _ name _ => some name
  | _ => none

end Entry

/-- What a journal tells of the calls on units of some names. -/
def callsOf (names : List String) (es : List (Entry β)) : List (Entry β) :=
  es.filter fun e ↦ e.callee?.any (· ∈ names)

theorem callsOf_append (names : List String) (es fs : List (Entry β)) :
    callsOf names (es ++ fs) = callsOf names es ++ callsOf names fs :=
  List.filter_append _ _

theorem callsOf_eq_nil {names : List String} {es : List (Entry β)}
    (h : ∀ e ∈ es, ∀ name, e.callee? = some name → name ∉ names) : callsOf names es = [] := by
  refine List.filter_eq_nil_iff.2 fun e he hany ↦ ?_
  obtain ⟨name, hname, hmem⟩ := (Option.any_eq_true _ _).1 hany
  exact h e he name hname (of_decide_eq_true hmem)

/-- Only calls are about a unit. -/
theorem callsOf_filter (names : List String) (es : List (Entry β)) :
    callsOf names (es.filter Entry.isCall) = callsOf names es := by
  unfold callsOf
  rw [List.filter_filter]
  refine List.filter_congr fun e _ ↦ ?_
  cases e <;> simp [Entry.isCall, Entry.callee?]

/-- What deployers at work and one entry more, that is not a call, tell of the calls on some
units. -/
theorem Ambient.Passed.callsOf {a b : Ambient β σ} {calls : List (Entry β)}
    (passed : a.Passed b calls) (entry : Entry β) (hentry : entry.isCall = false)
    (names : List String) : callsOf names (b.note entry).journal.toList =
      callsOf names a.journal.toList ++ callsOf names calls := by
  obtain ⟨es, hes, _, rfl⟩ := passed.journal
  have hnone : Rollout.callsOf names [entry] = [] := by
    rw [← callsOf_filter, List.filter_singleton, hentry]
    rfl
  unfold note
  rw [Array.toList_push, hes, callsOf_append, callsOf_append, hnone, callsOf_filter,
    List.append_nil]

/-- Two crews treat every unit of some trees alike. -/
def Crew.AgreeOn (crew crew' : Crew β σ) (roots : Handle → Prop) (f : Forest β) : Prop :=
  ∀ k u, f.get? k = some u → roots u.top → crew.Agree crew' u u

theorem Crew.AgreeOn.of_shape {crew crew' : Crew β σ} {roots : Handle → Prop} {f g : Forest β}
    (agree : crew.AgreeOn crew' roots f) (shape : f.SameShape g) : crew.AgreeOn crew' roots g := by
  intro k v hv hroot
  obtain ⟨u, hu, hnode⟩ := shape.exists_get? hv
  have htop : u.top = v.top := by rw [hnode]
  exact (agree k u hu (htop ▸ hroot)).congr hnode.symm hnode.symm

/-- How much of two controllers is compared: the trees of which everything is, those of which
progress, needs and records are, and the names on which calls are. -/
structure Scope where
  whole : Handle → Prop
  seen : Handle → Prop
  heard : String → Prop

/-- The scope that takes in everything but for what is on the units of other than some trees. -/
def Scope.all (whole : Handle → Prop) : Scope := ⟨whole, fun _ ↦ True, fun _ ↦ True⟩

namespace Controller

variable {crew crew' : Crew β σ} {c d e m : Controller β σ} {s t : Scope} {p : Progress}
  {h : Handle} {below : Stage}

theorem Sound.top_eq (sound : c.Sound) (hp : c.board.get? h = some p) {k : Handle}
    {u : LiveUnit β} (hk : k ∈ c.forest.tree h) (hu : c.forest.get? k = some u) : u.top = h := by
  obtain ⟨n, hn, htop⟩ := (sound.mem_tree_iff hp).1 hk
  obtain rfl := Option.some_inj.1 ((Forest.node?_of_get? hu).symm.trans hn)
  exact htop

/-- Two controllers are the same as far as a scope goes. -/
structure Matches (s : Scope) (c d : Controller β σ) : Prop where
  shape : c.forest.SameShape d.forest
  chain : d.chain = c.chain
  target : d.target = c.target
  roster : d.roster = c.roster
  order : d.board.order = c.board.order
  progress : ∀ h, s.seen h → d.board.get? h = c.board.get? h
  record : ∀ k u v, c.forest.get? k = some u → d.forest.get? k = some v → s.seen u.top →
    v.needs = u.needs ∧ v.applied = u.applied
  units : ∀ k u v, c.forest.get? k = some u → d.forest.get? k = some v → s.whole u.top → v = u
  calls : ∀ names, (∀ name ∈ names, s.heard name) →
    callsOf names d.journal.toList = callsOf names c.journal.toList

theorem Matches.refl (s : Scope) (c : Controller β σ) : Matches s c c := by
  refine ⟨.refl _, rfl, rfl, rfl, rfl, fun _ _ ↦ rfl, fun k u v hu hv _ ↦ ?_,
    fun k u v hu hv _ ↦ ?_, fun _ _ ↦ rfl⟩
  · obtain rfl := Option.some_inj.1 (hu.symm.trans hv)
    exact ⟨rfl, rfl⟩
  · exact Option.some_inj.1 (hv.symm.trans hu)

theorem Matches.node_eq (same : Matches s c d) {k : Handle} {u v : LiveUnit β}
    (hu : c.forest.get? k = some u) (hv : d.forest.get? k = some v) : v.toNode = u.toNode := by
  obtain ⟨u', hu', hnode⟩ := same.shape.exists_get? hv
  obtain rfl := Option.some_inj.1 (hu.symm.trans hu')
  exact hnode.symm

theorem Matches.symm (same : Matches s c d) : Matches s d c := by
  have htop : ∀ {k u v}, c.forest.get? k = some u → d.forest.get? k = some v → v.top = u.top :=
    fun hu hv ↦ by rw [same.node_eq hu hv]
  refine ⟨same.shape.symm, same.chain.symm, same.target.symm, same.roster.symm, same.order.symm,
    fun h hh ↦ (same.progress h hh).symm, fun k v u hv hu hseen ↦ ?_, fun k v u hv hu hwhole ↦ ?_,
    fun names hnames ↦ (same.calls names hnames).symm⟩
  · obtain ⟨hneeds, happlied⟩ := same.record k u v hu hv (htop hu hv ▸ hseen)
    exact ⟨hneeds.symm, happlied.symm⟩
  · exact (same.units k u v hu hv (htop hu hv ▸ hwhole)).symm

theorem Matches.trans (first : Matches s c d) (second : Matches s d e) : Matches s c e := by
  refine ⟨first.shape.trans second.shape, second.chain.trans first.chain,
    second.target.trans first.target, second.roster.trans first.roster,
    second.order.trans first.order,
    fun h hh ↦ (second.progress h hh).trans (first.progress h hh), fun k u w hu hw hseen ↦ ?_,
    fun k u w hu hw hwhole ↦ ?_,
    fun names hnames ↦ (second.calls names hnames).trans (first.calls names hnames)⟩
  · obtain ⟨v, hv, _⟩ := second.shape.exists_get? hw
    have htop : v.top = u.top := by rw [first.node_eq hu hv]
    obtain ⟨hneeds, happlied⟩ := first.record k u v hu hv hseen
    obtain ⟨hneeds', happlied'⟩ := second.record k v w hv hw (htop ▸ hseen)
    exact ⟨hneeds'.trans hneeds, happlied'.trans happlied⟩
  · obtain ⟨v, hv, _⟩ := second.shape.exists_get? hw
    have htop : v.top = u.top := by rw [first.node_eq hu hv]
    exact (second.units k v w hv hw (htop ▸ hwhole)).trans (first.units k u v hu hv hwhole)

/-- What is the same in a scope is the same in a smaller one. -/
theorem Matches.mono (same : Matches s c d) (hwhole : ∀ h, t.whole h → s.whole h)
    (hseen : ∀ h, t.seen h → s.seen h) (hheard : ∀ name, t.heard name → s.heard name) :
    Matches t c d :=
  ⟨same.shape, same.chain, same.target, same.roster, same.order,
    fun h hh ↦ same.progress h (hseen h hh), fun k u v hu hv hh ↦ same.record k u v hu hv
      (hseen _ hh), fun k u v hu hv hh ↦ same.units k u v hu hv (hwhole _ hh),
    fun names hnames ↦ same.calls names fun name hname ↦ hheard name (hnames name hname)⟩

/-- Entries that are not calls make no difference. -/
theorem Matches.note (same : Matches s c d) {entry entry' : Entry β} (hcall : entry.isCall = false)
    (hcall' : entry'.isCall = false) : Matches s (c.note entry) (d.note entry') := by
  refine ⟨same.shape, same.chain, same.target, same.roster, same.order, same.progress,
    same.record, same.units, fun names hnames ↦ ?_⟩
  have hnoted := (Ambient.Passed.refl c.site.ambient).callsOf entry hcall names
  have hnoted' := (Ambient.Passed.refl d.site.ambient).callsOf entry' hcall' names
  exact hnoted'.trans ((congrArg (· ++ _) (same.calls names hnames)).trans hnoted.symm)

/-- The needs of a tree that is seen are the same. -/
theorem Matches.needs (same : Matches s c d)
    (hseen : ∀ k ∈ c.forest.tree h, ∀ u, c.forest.get? k = some u → s.seen u.top) :
    d.needs h = c.needs h := by
  have hread : (d.forest.treeUnits h).map LiveUnit.needs =
      (c.forest.treeUnits h).map LiveUnit.needs := same.shape.map_treeUnits fun k hk u hu ↦ by
    obtain ⟨v, hv, _⟩ := same.shape.symm.exists_get? hu
    exact ⟨v, hv, (same.record k u v hu hv (hseen k hk u hu)).1⟩
  unfold Controller.needs Forest.treeNeeds
  rw [List.flatMap_def, List.flatMap_def, hread]

theorem Matches.home? (same : Matches s c d) (name : String) : d.home? name = c.home? name :=
  home?_congr same.shape name

/-! Going down. -/

variable {whole : Handle → Prop}

/-- Where everything is seen, the same deployments have to go down. -/
theorem Matches.recalled (same : Matches (.all whole) c d) (root : Handle) (below : Stage) :
    d.recalled root below = c.recalled root below := by
  have hneeds : ∀ h, d.forest.treeNeeds h = c.forest.treeNeeds h :=
    fun h ↦ same.needs fun _ _ _ _ ↦ trivial
  have htop : ∀ name, (d.forest.byName? name).any (fun u ↦ u.top == root) =
      (c.forest.byName? name).any fun u ↦ u.top == root := fun name ↦ by
    have hhome := congrArg (Option.any (· == root)) (same.home? name)
    unfold Controller.home? at hhome
    rwa [Option.any_map, Option.any_map] at hhome
  have hpull : ∀ stage, Board.pullBack? d.chain d.forest root below stage =
      Board.pullBack? c.chain c.forest root below stage := fun stage ↦ funext fun n ↦ by
    unfold Board.pullBack?
    rw [htop, same.chain]
  unfold Controller.recalled Board.recalled
  rw [same.order]
  refine List.filterMap_congr fun h _ ↦ ?_
  rw [same.progress h trivial, hneeds]
  simp only [hpull]

/-- The units of a tree that is compared as a whole are shared. -/
theorem Matches.shared (same : Matches s c d) (sound : c.Sound)
    (agree : crew.AgreeOn crew' s.whole c.forest) (hp : c.board.get? h = some p)
    (hwhole : s.whole h) : Site.Shared crew crew' (c.forest.tree h) c.site d.site := by
  refine ⟨fun k hk ↦ ?_, fun k hk u hu ↦ agree k u hu (sound.top_eq hp hk hu ▸ hwhole)⟩
  obtain ⟨n, hn, _⟩ := (sound.mem_tree_iff hp).1 hk
  obtain ⟨u, hu, _⟩ := Forest.node?_eq_some_iff.1 hn
  obtain ⟨v, hv, _⟩ := same.shape.symm.exists_get? hu
  obtain rfl := same.units k u v hu hv (sound.top_eq hp hk hu ▸ hwhole)
  exact hv.trans hu.symm

/-- A deployment that goes down makes the same calls, whoever does the work. -/
theorem Matches.leaveCalls (same : Matches s c d) {hs : List Handle} (stage : Stage)
    (hseen : ∀ k ∈ hs, ∀ u, c.forest.get? k = some u → s.seen u.top) :
    d.site.callsOn hs (Site.leaveCalls stage) = c.site.callsOn hs (Site.leaveCalls stage) := by
  unfold Site.callsOn
  refine List.flatMap_congr fun k hk ↦ ?_
  show (d.forest.get? k).elim [] _ = (c.forest.get? k).elim [] _
  cases hu : c.forest.get? k with
  | none =>
    have hnone := Forest.get?_eq_none_iff.1 hu
    rw [same.shape.node?, ← Forest.get?_eq_none_iff] at hnone
    rw [hnone]
  | some u =>
    obtain ⟨v, hv, _⟩ := same.shape.symm.exists_get? hu
    obtain ⟨_, happlied⟩ := same.record k u v hu hv (hseen k hk u hu)
    rw [hv]
    show Site.leaveCalls stage k v = Site.leaveCalls stage k u
    unfold Site.leaveCalls LiveUnit.undeployCalls
    rw [LiveUnit.appliedAt_congr happlied, same.node_eq hu hv]

/-- A tree that is compared as a whole goes down in step with itself. -/
theorem Matches.units_lowered (same : Matches s c d) (sound : c.Sound) (keeps : crew.KeepsRoster)
    (keeps' : crew'.KeepsRoster) (agree : crew.AgreeOn crew' s.whole c.forest)
    (hp : c.board.get? p.root = some p) (hwhole : s.whole p.root) (below : Stage) {k : Handle}
    (hk : k ∈ c.forest.tree p.root) :
    (d.lowered crew' p below).forest.get? k = (c.lowered crew p below).forest.get? k := by
  have hshared := same.shared sound agree hp hwhole
  have hleave : d.site.leaveStage crew' p.root p.stage =
      Site.leaveEach crew' p.stage (c.forest.tree p.root).reverse d.site := by
    rw [same.shape.tree]
    rfl
  have hleft : Site.Shared crew crew' (c.forest.tree p.root)
      (c.site.leaveStage crew p.root p.stage).2
      (Site.leaveEach crew' p.stage (c.forest.tree p.root).reverse d.site).2 :=
    (hshared.leaveEach keeps keeps' (List.reverse_subset.2 (List.Subset.refl _))).2.1
  show (d.site.leaveStage crew' p.root p.stage).2.forest.get? k = _
  rw [hleave]
  exact hleft.units k hk

theorem Matches.lowered (same : Matches (.all whole) c d) (hc : c.Sound) (hd : d.Sound)
    (keeps : crew.KeepsRoster) (keeps' : crew'.KeepsRoster)
    (agree : crew.AgreeOn crew' whole c.forest) (hp : c.board.get? p.root = some p)
    (below : Stage) :
    Matches (.all whole) (c.lowered crew p below) (d.lowered crew' p below) := by
  have hp' : d.board.get? p.root = some p := (same.progress p.root trivial).trans hp
  have htree : d.forest.tree p.root = c.forest.tree p.root := (same.shape.tree _).symm
  have htreated := hc.treated_lowered crew p
  have htreated' := hd.treated_lowered crew' p
  rw [htree, same.leaveCalls p.stage fun _ _ _ _ ↦ trivial] at htreated'
  have hroster : (d.lowered crew' p below).roster = (c.lowered crew p below).roster :=
    (Site.roster_leaveStage keeps' p.root p.stage d.site).trans
      (same.roster.trans (Site.roster_leaveStage keeps p.root p.stage c.site).symm)
  refine ⟨(htreated.shape.symm.trans same.shape).trans htreated'.shape, same.chain, same.target,
    hroster, same.order, fun h _ ↦ ?_, fun k u₁ v₁ hu₁ hv₁ _ ↦ ?_, fun k u₁ v₁ hu₁ hv₁ hwhole ↦ ?_,
    fun names hnames ↦ ?_⟩
  · rw [get?_lowered crew hp, get?_lowered crew' hp', same.progress h trivial]
  · obtain ⟨u, hu, hwork⟩ := htreated.exists_get? hu₁
    obtain ⟨v, hv, hwork'⟩ := htreated'.exists_get? hv₁
    obtain ⟨hneeds, happlied⟩ := same.record k u v hu hv trivial
    rcases hwork with ⟨hk, hleft⟩ | ⟨hk, rfl⟩
    · have hleft' := (hwork'.resolve_right fun hother ↦ hother.1 hk).2
      rw [hleft.needs, hleft'.needs, hneeds, hleft.applied, hleft'.applied]
      unfold LiveUnit.clearApplied
      rw [happlied]
      exact ⟨rfl, rfl⟩
    · obtain rfl := (hwork'.resolve_left fun hleft ↦ hk hleft.1).2
      exact ⟨hneeds, happlied⟩
  · obtain ⟨u, hu, hnode⟩ := htreated.shape.exists_get? hu₁
    obtain ⟨v, hv, hwork'⟩ := htreated'.exists_get? hv₁
    have hwhole' : whole u.top := by rwa [hnode]
    by_cases hk : k ∈ c.forest.tree p.root
    · rw [hc.top_eq hp hk hu] at hwhole'
      have hunits := same.units_lowered hc keeps keeps' agree hp hwhole' below hk
      exact Option.some_inj.1 (hv₁.symm.trans (hunits.trans hu₁))
    · obtain rfl := Option.some_inj.1 (hu₁.symm.trans ((htreated.other hk).trans hu))
      obtain rfl := (hwork'.resolve_left fun hleft ↦ hk hleft.1).2
      exact same.units k _ _ hu hv hwhole
  · have hcalls := htreated.ambient.callsOf (.retreated ⟨p.root, p.name, p.stage, below,
      c.position, (c.lowered crew p below).position⟩ (c.site.leaveStage crew p.root p.stage).1)
      rfl names
    have hcalls' := htreated'.ambient.callsOf (.retreated ⟨p.root, p.name, p.stage, below,
      d.position, (d.lowered crew' p below).position⟩ (d.site.leaveStage crew' p.root p.stage).1)
      rfl names
    exact hcalls'.trans ((congrArg (· ++ _) (same.calls names hnames)).trans hcalls.symm)

/-- Two sound controllers that match where everything is seen, and two crews that treat alike the
units that are compared as a whole. -/
structure Abreast (crew crew' : Crew β σ) (whole : Handle → Prop) (c d : Controller β σ) :
    Prop where
  left : c.Sound
  right : d.Sound
  same : Matches (.all whole) c d
  agree : crew.AgreeOn crew' whole c.forest

theorem Abreast.get? (abreast : Abreast crew crew' whole c d) (h : Handle) :
    d.board.get? h = c.board.get? h :=
  abreast.same.progress h trivial

theorem Abreast.note (abreast : Abreast crew crew' whole c d) {entry entry' : Entry β}
    (hcall : entry.isCall = false) (hcall' : entry'.isCall = false) :
    Abreast crew crew' whole (c.note entry) (d.note entry') :=
  ⟨abreast.left.note _, abreast.right.note _, abreast.same.note hcall hcall', abreast.agree⟩

variable (keeps : crew.KeepsRoster) (keeps' : crew'.KeepsRoster)

include keeps keeps'

theorem Abreast.lowered (abreast : Abreast crew crew' whole c d)
    (hp : c.board.get? p.root = some p) (hbelow : c.chain.prev? p.stage = some below) :
    Abreast crew crew' whole (c.lowered crew p below) (d.lowered crew' p below) := by
  have hp' : d.board.get? p.root = some p := (abreast.get? p.root).trans hp
  have hbelow' : d.chain.prev? p.stage = some below := by
    rw [abreast.same.chain]
    exact hbelow
  have hleft := abreast.left.lowers_lowered crew List.not_mem_nil hp hbelow
  have hright := abreast.right.lowers_lowered crew' List.not_mem_nil hp' hbelow'
  exact ⟨abreast.left.of_alike hleft.alike, abreast.right.of_alike hright.alike,
    abreast.same.lowered abreast.left abreast.right keeps keeps' abreast.agree hp below,
    abreast.agree.of_shape hleft.alike.shape⟩

/-- Deployments that have to go down do so in step. The two ways down make the same choices since
these are made by the board, which is the same. -/
theorem Abreast.recalls {path : List Handle} {name : String} {targets : List (Handle × Stage)}
    (abreast : Abreast crew crew' whole c d) (recalls : Recalls crew path name targets c m)
    (recalls' : Recalls crew' path name targets d e) : Abreast crew crew' whole m e := by
  induction recalls generalizing d e with
  | nil =>
    cases recalls'
    exact abreast
  | @pass path name dependent goal targets c m hpass hrest ih =>
    rcases recalls'.cons_cases with
      ⟨_, hrest'⟩ | ⟨q, _, _, _, hpath, hq, habove, _, _, _⟩
    · exact ih abreast hrest'
    · rw [abreast.get?] at hq
      have hle := Stage.index_le_of_le (hpass.resolve_left hpath q hq)
      exact absurd habove (Nat.not_lt.2 hle)
  | @down path name goal below targets q c k m hpath hq habove hbelow hinner hrest ihInner ihRest =>
    have hq' : d.board.get? q.root = some q := (abreast.get? q.root).trans hq
    rcases recalls'.cons_cases with
      ⟨hpass, _⟩ | ⟨r, below', k', _, _, hr, _, hbelow', hinner', hrest'⟩
    · have hle := Stage.index_le_of_le (hpass.resolve_left hpath q hq')
      exact absurd habove (Nat.not_lt.2 hle)
    · obtain rfl := Option.some_inj.1 (hq'.symm.trans hr)
      rw [abreast.same.chain] at hbelow'
      obtain rfl := Option.some_inj.1 (hbelow.symm.trans hbelow')
      rw [abreast.same.recalled] at hinner'
      obtain ⟨_, hlowers⟩ := hinner.sound_lowers (abreast.left.note _)
      obtain ⟨hqk, hbelowk⟩ := hlowers.head_kept hq hbelow
      exact ihRest ((ihInner (abreast.note rfl rfl) hinner').lowered keeps keeps' hqk hbelowk)
        hrest'

/-! Retreat passes. -/

open Batch

variable {b b' : Batch β σ}

/-- A deployment is taken down in as many steps by both crews. -/
theorem Abreast.exists_lower (root : Handle) (steps : Nat)
    (abreast : Abreast crew crew' whole b.controller b'.controller) :
    ∃ k k' : Batch β σ, lower crew root steps b = (k, none) ∧
      lower crew' root steps b' = (k', none) ∧
      Abreast crew crew' whole k.controller k'.controller := by
  induction steps generalizing b b' with
  | zero => exact ⟨b, b', rfl, rfl, abreast⟩
  | succ steps ih =>
    have hexcess : b'.excess? root = b.excess? root := by
      unfold excess?
      rw [abreast.get?]
    unfold lower
    rw [hexcess]
    cases hstage : b.excess? root with
    | none => exact ⟨b, b', rfl, rfl, abreast⟩
    | some stage =>
      unfold excess? at hstage
      obtain ⟨p, hp, habove⟩ := Option.bind_eq_some_iff.1 hstage
      obtain rfl := Board.root_of_get? hp
      split at habove
      · next hlt =>
        obtain rfl := Option.some_inj.1 habove
        have hp' : b'.controller.board.get? p.root = some p := (abreast.get? p.root).trans hp
        rw [Chain.lt_iff_index (abreast.left.requested hp) (abreast.left.stage hp)] at hlt
        obtain ⟨below, hprev⟩ :=
          Chain.exists_prev? (abreast.left.stage hp) (Nat.zero_lt_of_lt hlt)
        have hprev' : b'.controller.chain.prev? p.stage = some below := by
          rw [abreast.same.chain]
          exact hprev
        obtain ⟨m, hdescend, hrecalls, _⟩ := exists_descend crew abreast.left hp hprev
        obtain ⟨m', hdescend', hrecalls', _⟩ := exists_descend crew' abreast.right hp' hprev'
        rw [abreast.same.recalled] at hrecalls'
        have hm := abreast.recalls keeps keeps' hrecalls hrecalls'
        have hlowers := (hrecalls.sound_lowers abreast.left).2
        obtain ⟨hpm, hprevm⟩ := hlowers.head_kept hp hprev
        have hpm' : m'.controller.board.get? p.root = some p := (hm.get? p.root).trans hpm
        have hprevm' : m'.controller.chain.prev? p.stage = some below := by
          rw [hm.same.chain]
          exact hprevm
        simp only [hdescend, hdescend', andThen_none,
          if_neg (stage?_left_ne crew hpm hprevm), if_neg (stage?_left_ne crew' hpm' hprevm')]
        exact ih (hm.lowered keeps keeps' hpm hprevm)
      · exact absurd habove (by simp)

theorem Abreast.exists_settleEach (roots : List Handle)
    (abreast : Abreast crew crew' whole b.controller b'.controller) :
    ∃ k k' : Batch β σ, forEach (settleDown crew) roots b = (k, none) ∧
      forEach (settleDown crew') roots b' = (k', none) ∧
      Abreast crew crew' whole k.controller k'.controller := by
  induction roots generalizing b b' with
  | nil => exact ⟨b, b', rfl, rfl, abreast⟩
  | cons root roots ih =>
    have hstage : b'.stage? root = b.stage? root :=
      congrArg (Option.map Progress.stage) (abreast.get? root)
    unfold forEach settleDown
    rw [hstage]
    obtain ⟨m, m', heq, heq', hm⟩ := abreast.exists_lower keeps keeps' root
      ((b.stage? root).elim 0 fun s ↦ s.index + 1)
    obtain ⟨k, k', hrest, hrest', hk⟩ := ih hm
    rw [heq, heq', andThen_none, andThen_none]
    exact ⟨k, k', hrest, hrest', hk⟩

/-- Whatever two crews do with other trees, a retreat pass takes both runs to where they match
again. -/
theorem Abreast.falls (abreast : Abreast crew crew' whole c d) (falls : Falls crew c m)
    (falls' : Falls crew' d e) : Abreast crew crew' whole m e := by
  obtain ⟨b, k, rfl, hretreat, rfl⟩ := falls
  obtain ⟨b', k', rfl, hretreat', rfl⟩ := falls'
  have hmark : Abreast crew crew' whole (b.mark false).controller (b'.mark false).controller :=
    abreast
  obtain ⟨m, m', heq, heq', hm⟩ :=
    hmark.exists_settleEach keeps keeps' b.controller.board.order.reverse
  unfold retreatPass at hretreat hretreat'
  rw [abreast.same.order] at hretreat'
  obtain rfl : m = k := congrArg Prod.fst (heq.symm.trans hretreat)
  obtain rfl : m' = k' := congrArg Prod.fst (heq'.symm.trans hretreat')
  exact hm

end Controller

end Rollout
