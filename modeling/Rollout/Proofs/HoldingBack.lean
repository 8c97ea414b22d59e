import Rollout.Proofs.Quiescence
import Rollout.Proofs.Ranks

/-!
Holding back. Where all needs stand for good, a deployment gets into a stage only once those that it
needs by then are where it needs them and free of error. So it can be told beforehand how far turns
can take anybody, from where all of them are, who is in error, who of these is to start afresh, and
who needs whom. Deployments none of which starts afresh get no further at all when each of them that
is asked for more lacks something of nobody, or of one of them.
-/

set_option autoImplicit false
set_option relaxedAutoImplicit false

namespace Rollout.Controller

variable {β σ : Type} {crew : Crew β σ} {c d e : Controller β σ} {h : Handle} {p q : Progress}

/-! Needs that stand for good. -/

/-- No need of a live unit has been declared by a deployer. -/
def Lasting (c : Controller β σ) : Prop :=
  ∀ {k : Handle} {u : LiveUnit β}, c.forest.get? k = some u → ∀ n ∈ u.needs, n.declaredAt = none

/-- The needs that live units have were brought up by the journal. -/
theorem Brought.lasting (brought : Brought c) (sound : c.Sound)
    (hneeds : ∀ entry ∈ c.journal, ∀ n ∈ entry.needs, n.declaredAt = none) : c.Lasting := by
  intro k u hu n hn
  have hnode := Forest.node?_of_get? hu
  obtain ⟨p, hp⟩ := sound.exists_progress hnode
  have hmem := (sound.mem_tree_iff hp).2 ⟨_, hnode, rfl⟩
  obtain ⟨entry, hentry, hn⟩ := brought _ p hp n (mem_needs_iff.2 ⟨k, hmem, u, hu, hn⟩)
  exact hneeds entry hentry n hn

theorem Reachable.brought (reachable : Reachable crew c) : Brought c := by
  obtain ⟨_, _, _, b, hsteps, hsound, hboard, _⟩ := reachable.invariant
  refine hsteps.preserves hsound Brought (fun sound step brought ↦ step.brought brought sound) ?_
  intro h p hp
  rw [hboard] at hp
  exact absurd hp (by simp [Board.empty, Board.get?])

/-- The same units with the same needs, and their deployments tracked in the same order. -/
structure Steady (c d : Controller β σ) : Prop where
  shape : c.forest.SameShape d.forest
  chain : d.chain = c.chain
  queue : d.queue = c.queue
  order : d.board.order = c.board.order
  needs : ∀ {k : Handle} {u : LiveUnit β}, c.forest.get? k = some u →
    ∃ v, d.forest.get? k = some v ∧ v.needs = u.needs

theorem Steady.refl (c : Controller β σ) : Steady c c :=
  ⟨.refl _, rfl, rfl, rfl, fun hu ↦ ⟨_, hu, rfl⟩⟩

theorem Steady.trans (first : Steady c d) (second : Steady d e) : Steady c e := by
  refine ⟨first.shape.trans second.shape, second.chain.trans first.chain,
    second.queue.trans first.queue, second.order.trans first.order, fun {k u} hu ↦ ?_⟩
  obtain ⟨v, hv, heq⟩ := first.needs hu
  obtain ⟨w, hw, heq'⟩ := second.needs hv
  exact ⟨w, hw, heq'.trans heq⟩

theorem Steady.note (steady : Steady c d) (entry : Entry β) : Steady c (d.note entry) :=
  ⟨steady.shape, steady.chain, steady.queue, steady.order, steady.needs⟩

theorem Steady.ask (steady : Steady c d) {board : Board} (horder : board.order = d.board.order) :
    Steady c { d with board } :=
  ⟨steady.shape, steady.chain, steady.queue, horder.trans steady.order, steady.needs⟩

theorem Steady.lasting (steady : Steady c d) (lasting : c.Lasting) : d.Lasting := by
  intro k v hv
  obtain ⟨u, hu, _⟩ := steady.shape.exists_get? hv
  obtain ⟨v', hv', hneeds⟩ := steady.needs hu
  obtain rfl := Option.some_inj.1 (hv.symm.trans hv')
  rw [hneeds]
  exact lasting hu

/-- Units that keep their needs make deployments that do. -/
theorem needs_congr (shape : c.forest.SameShape d.forest)
    (hneeds : ∀ {k : Handle} {u : LiveUnit β}, c.forest.get? k = some u →
      ∃ v, d.forest.get? k = some v ∧ v.needs = u.needs) (h : Handle) :
    d.needs h = c.needs h := by
  have hmap : (d.forest.treeUnits h).map LiveUnit.needs =
      (c.forest.treeUnits h).map LiveUnit.needs :=
    shape.map_treeUnits fun _ _ _ hu ↦ hneeds hu
  unfold needs Forest.treeNeeds
  rw [List.flatMap_def, hmap, ← List.flatMap_def]

theorem Steady.needs_eq (steady : Steady c d) (h : Handle) : d.needs h = c.needs h :=
  needs_congr steady.shape steady.needs h

theorem Steady.home?_eq (steady : Steady c d) (name : String) : d.home? name = c.home? name :=
  home?_congr steady.shape name

theorem forget_eq_self {needs : List Need} (hneeds : ∀ n ∈ needs, n.declaredAt = none)
    (stages : List Stage) : stages.foldl Need.forget needs = needs := by
  have hone : ∀ s, Need.forget needs s = needs := fun s ↦
    List.filter_eq_self.2 fun n hn ↦ by rw [hneeds n hn]; rfl
  induction stages with
  | nil => rfl
  | cons s stages ih => rw [List.foldl_cons, hone, ih]

/-- Going down, units keep the needs that stand for good. -/
theorem Lowers.steady {path : List Handle} (lowers : Lowers path c d) (lasting : c.Lasting) :
    Steady c d := by
  refine ⟨lowers.alike.shape, lowers.alike.chain, lowers.alike.queue, lowers.alike.order,
    fun {k u} hu ↦ ?_⟩
  obtain ⟨v, stages, hv, _, hforget⟩ := lowers.needs hu
  refine ⟨v, hv, ?_⟩
  rw [hforget]
  exact forget_eq_self (lasting hu) stages

/-- Going up, units gain no needs when deployers declare none. -/
theorem Sound.needs_raised (sound : c.Sound) {next : Stage} {applied : Nat} {site : Site β σ}
    (henter : c.site.enterStage crew p.root next = (.ok applied, site))
    (hnone : ∀ n ∈ (c.raised p next applied site).needs p.root, n.declaredAt = none) {k : Handle}
    {u : LiveUnit β} (hu : c.forest.get? k = some u) :
    ∃ v, site.forest.get? k = some v ∧ v.needs = u.needs := by
  obtain ⟨done, htreated⟩ := Site.exists_entered (sound.forest.nodup_tree _) henter
  by_cases hk : k ∈ c.forest.tree p.root
  · obtain ⟨v, hv, hentered⟩ := htreated.each hk hu
    refine ⟨v, hv, ?_⟩
    obtain ⟨more, hmore, hmark⟩ := hentered.needs
    have hempty : more = [] := by
      refine List.eq_nil_iff_forall_not_mem.2 fun n hn ↦ ?_
      have hmem : n ∈ (c.raised p next applied site).needs p.root := by
        refine mem_needs_iff.2 ⟨k, ?_, v, hv, ?_⟩
        · show k ∈ site.forest.tree p.root
          rw [← htreated.shape.tree]
          exact hk
        · rw [hmore]
          exact List.mem_append_right _ hn
      have hdeclared := hmark n hn
      rw [hnone n hmem] at hdeclared
      exact absurd hdeclared (by simp)
    rw [hmore, hempty, List.append_nil]
  · exact ⟨u, (htreated.other hk).trans hu, rfl⟩

/-- What is entered when a deployment is raised brings up the needs that it has then. -/
theorem Sound.told_raised (sound : c.Sound) {next : Stage} {applied : Nat} {site : Site β σ}
    (henter : c.site.enterStage crew p.root next = (.ok applied, site)) :
    ∃ entry, Told c (c.raised p next applied site) entry ∧
      entry.needs = (c.raised p next applied site).needs p.root :=
  ⟨_, sound.told_advanced henter, rfl⟩

/-- Units that fail to enter a stage keep the needs that stand for good. -/
theorem Sound.units_stalled (sound : c.Sound) (lasting : c.Lasting) {next : Stage}
    {failure : Failure} {site : Site β σ}
    (henter : c.site.enterStage crew p.root next = (.error failure, site)) {k : Handle}
    {u : LiveUnit β} (hu : c.forest.get? k = some u) :
    ∃ v, site.forest.get? k = some v ∧ v.needs = u.needs := by
  obtain ⟨done, m, pre, last, _, _, _, _, _, hentered, hleft⟩ :=
    Site.exists_undone (sound.forest.nodup_tree _) henter
  have htreated := hentered.left next hleft
  by_cases hk : k ∈ pre ++ [last]
  · obtain ⟨v, hv, hgone⟩ := htreated.each hk hu
    refine ⟨v, hv, ?_⟩
    rw [hgone.needs]
    exact forget_eq_self (lasting hu) [next]
  · exact ⟨u, (htreated.other hk).trans hu, rfl⟩

/-- As long as no deployer declares any, turns leave all needs as they are. -/
theorem Turn.steady (turn : Turn crew c d) (lasting : c.Lasting) (sound : c.Sound)
    (standing : ∀ entry, Told c d entry → ∀ n ∈ entry.needs, n.declaredAt = none) :
    Steady c d := by
  cases turn with
  | descend hp _ hbelow hrecalls =>
    exact (hrecalls.lowers_lowered sound hp hbelow).steady lasting
  | @raise p next applied site hp _ henter =>
    obtain ⟨entry, htold, hneeds⟩ := sound.told_raised henter
    have hnone : ∀ n ∈ (c.raised p next applied site).needs p.root, n.declaredAt = none := by
      rw [← hneeds]
      exact standing entry htold
    exact ⟨(sound.shape_enterStage crew henter).1, rfl, rfl, rfl,
      sound.needs_raised henter hnone⟩
  | stall hp _ henter =>
    exact ⟨(sound.shape_enterStage crew henter).1, rfl, rfl, rfl,
      sound.units_stalled lasting henter⟩
  | park _ _ => exact ⟨.refl _, rfl, rfl, rfl, fun hu ↦ ⟨_, hu, rfl⟩⟩
  | limit _ => exact (Steady.refl c).note _

/-! Deployments that stay where they are. -/

/-- A deployment has no step up to take. -/
def Still (c : Controller β σ) (h : Handle) : Prop := ∀ next, c.verdict h ≠ .ready next

theorem exists_of_ready {next : Stage} (hready : c.verdict h = .ready next) :
    ∃ p, c.board.get? h = some p := by
  unfold verdict Board.verdict at hready
  cases hp : c.board.get? h with
  | none =>
    rw [hp] at hready
    exact absurd hready (by simp)
  | some p => exact ⟨p, rfl⟩

theorem Rests.still (rests : c.Rests h) : c.Still h := by
  intro next hready
  obtain ⟨p, hp⟩ := exists_of_ready hready
  rcases rests p hp with hidle | hblocked
  · rw [hready] at hidle
    exact absurd hidle (by simp)
  · rw [hready] at hblocked
    exact absurd hblocked (by simp)

/-- A deployment without a step to take is in error, or is where it is asked for or above. -/
theorem of_verdict_idle (sound : c.Sound) (hp : c.board.get? p.root = some p)
    (hidle : c.verdict p.root = .idle) (herror : p.error = none) :
    p.requested.index ≤ p.stage.index := by
  rcases verdict_cases hp with
    ⟨_, hfailed | hreached | hlast⟩ | ⟨_, _, _, _, ⟨hready, _⟩ | ⟨hblocked, _⟩⟩
  · exact absurd herror hfailed
  · exact Stage.index_le_of_le hreached
  · by_contra hlt
    obtain ⟨next, hnext⟩ := Chain.exists_next? (sound.requested hp) (Nat.lt_of_not_le hlt)
    rw [hnext] at hlast
    exact absurd hlast (by simp)
  · rw [hidle] at hready
    exact absurd hready (by simp)
  · rw [hidle] at hblocked
    exact absurd hblocked (by simp)

/-- A deployment at rest that is free of error and asked for more is missing something, and waits
for it. -/
theorem exists_missing (sound : c.Sound) (hp : c.board.get? h = some p) (rests : c.Rests h)
    (herror : p.error = none) (hlt : p.stage.index < p.requested.index) :
    ∃ next, c.chain.next? p.stage = some next ∧
      c.board.missing c.chain c.forest h next = p.waiting ∧ p.waiting ≠ [] := by
  obtain rfl := Board.root_of_get? hp
  rcases rests p hp with hidle | hblocked
  · exact absurd (of_verdict_idle sound hp hidle herror) (Nat.not_le.2 hlt)
  · obtain ⟨_, _, next, hnext, hmissing, hne⟩ := of_verdict_blocked hp hblocked
    exact ⟨next, hnext, hmissing, hne⟩

/-- A deployment that has no step up to take, though it is free of error and asked for more, is
missing something for the next stage. -/
theorem Still.missing_ne_nil (still : c.Still h) (hp : c.board.get? h = some p)
    (herror : p.error = none) (hbelow : ¬ p.requested ≤ p.stage) {next : Stage}
    (hnext : c.chain.next? p.stage = some next) :
    c.board.missing c.chain c.forest h next ≠ [] := by
  obtain rfl := Board.root_of_get? hp
  rcases verdict_cases hp with
    ⟨_, hfailed | hreached | hlast⟩ | ⟨_, _, t, ht, ⟨hready, _⟩ | ⟨_, hne⟩⟩
  · exact absurd herror hfailed
  · exact absurd hreached hbelow
  · rw [hnext] at hlast
    exact absurd hlast (by simp)
  · exact absurd hready (still t)
  · obtain rfl := Option.some_inj.1 (ht.symm.trans hnext)
    exact hne

/-- Whoever is missing something has a need that is not met. -/
theorem exists_short {next : Stage} (hne : c.board.missing c.chain c.forest h next ≠ []) :
    ∃ n ∈ c.needs h, Board.appliesFrom c.chain n ≤ next ∧
      c.board.shortfall? c.chain c.forest n ≠ none := by
  rw [ne_eq, missing_eq_nil_iff] at hne
  push Not at hne
  exact hne

/-- So has a deployment at rest that is free of error and asked for more. -/
theorem Rests.exists_short (rests : c.Rests h) (hp : c.board.get? h = some p)
    (herror : p.error = none) (hlt : p.stage.index < p.requested.index) {next : Stage}
    (hnext : c.chain.next? p.stage = some next) :
    ∃ n ∈ c.needs h, Board.appliesFrom c.chain n ≤ next ∧
      c.board.shortfall? c.chain c.forest n ≠ none :=
  Controller.exists_short <| rests.still.missing_ne_nil hp herror
    (fun hle ↦ Nat.not_le.2 hlt (Stage.index_le_of_le hle)) hnext

/-! How far deployments can get. -/

/-- A need asks a tracked deployment for a stage of the chain. -/
structure Asks (c : Controller β σ) (n : Need) (t : Handle) (q : Progress) (r : Stage) : Prop where
  home : c.home? n.target = some t
  progress : c.board.get? t = some q
  stage : c.chain.resolve? n.atLeast = some r

/-- On what terms deployments are moved: where each of them may be to begin with, how far each may
be taken, which of those in error are free of it meanwhile, and whether nothing keeps these below
where they were. -/
structure Terms where
  start : Handle → Stage → Prop
  goal : Progress → Stage → Prop
  freed : Handle → Prop
  loose : Prop

mutual

/-- How far a deployment can get on some terms. It can enter the next stage if it may be taken so
far, if it is free of error or freed of it, and if every need that applies by then asks for a stage
of a deployment that is free of error or freed of it, and that can get there. One that is freed of
its error gets above where it was only if nothing keeps it below, or if it is undercut. -/
inductive Attains (c : Controller β σ) (terms : Terms) : Handle → Stage → Prop
  | starts {h : Handle} {r s : Stage} :
    terms.start h s → r.index ≤ s.index → Attains c terms h r
  | enters {h : Handle} {p : Progress} {s next : Stage} :
    Attains c terms h s → c.board.get? h = some p → c.chain.next? s = some next →
    terms.goal p next → (p.error = none ∨ terms.freed h) →
    (p.error ≠ none → ¬ terms.loose → p.stage.index < next.index → Undercut c terms h) →
    (∀ n ∈ c.needs h, Board.appliesFrom c.chain n ≤ next →
      ∃ t q r, c.Asks n t q r ∧ (q.error = none ∨ terms.freed t)) →
    (∀ n ∈ c.needs h, Board.appliesFrom c.chain n ≤ next → ∀ t q r, c.Asks n t q r →
      Attains c terms t r) →
    Attains c terms h next

/-- A deployment has a need in force that asks for more than there is but can be had, or it has one
in force on a deployment that is undercut. Once it has gone down, it may have to wait below where it
was for somebody to get further. -/
inductive Undercut (c : Controller β σ) (terms : Terms) : Handle → Prop
  | lacking {h t : Handle} {p q : Progress} {n : Need} {r : Stage} :
    c.board.get? h = some p → n ∈ c.needs h → Board.appliesFrom c.chain n ≤ p.stage →
    c.Asks n t q r → q.stage < r → Attains c terms t r → Undercut c terms h
  | through {h t : Handle} {p q : Progress} {n : Need} {r : Stage} :
    c.board.get? h = some p → n ∈ c.needs h → Board.appliesFrom c.chain n ≤ p.stage →
    c.Asks n t q r → r ≤ q.stage → (q.error = none ∨ terms.freed t) → Undercut c terms t →
    Undercut c terms h

end

variable {terms : Terms} {among : Handle → Prop} {t : Handle} {r s next : Stage} {n : Need}

/-- Whoever can get to a stage can get to those below. -/
theorem Attains.of_index_le (hr : c.chain.contains r = true) :
    ∀ {h s}, c.Attains terms h s → r.index ≤ s.index → c.Attains terms h r
  | _, _, .starts hstart hs, hle => .starts hstart (Nat.le_trans hle hs)
  | _, _, .enters (s := s) hfrom hp hnext hgoal hfree hcut hmet hreach, hle => by
    by_cases hlow : r.index ≤ s.index
    · exact hfrom.of_index_le hr hlow
    · have hindex := Chain.index_of_next? hnext
      obtain rfl := Chain.eq_of_index_eq hr (Chain.contains_of_next? hnext) (by omega)
      exact .enters hfrom hp hnext hgoal hfree hcut hmet hreach

/-- Deployments hold each other back if each lacks something for its next stage that it could only
have of one of them. -/
theorem Attains.index_le_of_lacking
    (hstart : ∀ {h : Handle} {p : Progress} {s : Stage}, among h → c.board.get? h = some p →
      terms.start h s → s.index ≤ p.stage.index)
    (hlacking : ∀ {h : Handle} {p : Progress} {next : Stage}, among h → c.board.get? h = some p →
      c.chain.next? p.stage = some next → terms.goal p next → (p.error = none ∨ terms.freed h) →
      ∃ n ∈ c.needs h, Board.appliesFrom c.chain n ≤ next ∧ ∀ t q r, c.Asks n t q r →
        (q.error = none ∨ terms.freed t) → among t ∧ q.stage.index < r.index) :
    ∀ {h s}, c.Attains terms h s → among h → ∀ {p}, c.board.get? h = some p →
      s.index ≤ p.stage.index
  | _, _, .starts hs hle, hh, _, hp => Nat.le_trans hle (hstart hh hp hs)
  | h, next, .enters hfrom hp hnext hgoal hfree _ hmet hreach, hh, p, hq => by
    obtain rfl := Option.some_inj.1 (hq.symm.trans hp)
    have hle := hfrom.index_le_of_lacking hstart hlacking hh hp
    have hindex := Chain.index_of_next? hnext
    by_contra hlt
    have hstep : c.chain.next? p.stage = some next :=
      (Chain.next?_iff_index (Chain.contains_of_next? hnext)).2 (by omega)
    obtain ⟨n, hn, happlies, hless⟩ := hlacking hh hp hstep hgoal hfree
    obtain ⟨t, q, r, hasks, hstarts⟩ := hmet n hn happlies
    obtain ⟨ht, hbelow⟩ := hless t q r hasks hstarts
    have hget := (hreach n hn happlies t q r hasks).index_le_of_lacking hstart hlacking ht
      hasks.progress
    omega

/-- A need that is not met though its target is free of error asks for more than there is. -/
theorem Asks.index_lt (asks : c.Asks n t q r) (sound : c.Sound)
    (hshort : c.board.shortfall? c.chain c.forest n ≠ none) (herror : q.error = none) :
    q.stage.index < r.index := by
  by_contra hge
  refine hshort (shortfall?_eq_none_iff.2
    ⟨t, q, r, asks.home, asks.progress, herror, asks.stage, ?_⟩)
  exact (Chain.le_iff_index (Chain.contains_of_resolve? asks.stage)
    (sound.stage asks.progress)).2 (Nat.le_of_not_lt hge)

/-- The terms of a batch that is asked for nothing: deployments begin where they are, and are taken
as far as they are asked for. -/
def plain (c : Controller β σ) : Terms where
  start h s := ∃ p, c.board.get? h = some p ∧ s ≤ p.stage
  goal p s := s ≤ p.requested
  freed _ := False
  loose := False

/-- On these terms nobody gets any further from where all are at rest. -/
theorem Attains.index_le_of_rests (rests : ∀ h, c.Rests h) (sound : c.Sound)
    (attains : c.Attains c.plain h s) (hp : c.board.get? h = some p) :
    s.index ≤ p.stage.index := by
  refine attains.index_le_of_lacking (fun {h p s} (_ : True) hp hstart ↦ ?_)
    (fun {h p next} _ hp hnext hgoal hfree ↦ ?_) trivial hp
  · obtain ⟨q, hq, hle⟩ := hstart
    obtain rfl := Option.some_inj.1 (hp.symm.trans hq)
    exact Stage.index_le_of_le hle
  · have hindex := Chain.index_of_next? hnext
    have hbelow := Stage.index_le_of_le hgoal
    obtain ⟨n, hn, happlies, hshort⟩ :=
      (rests h).exists_short hp (hfree.resolve_right id) (by omega) hnext
    exact ⟨n, hn, happlies, fun t q r hasks hstarts ↦
      ⟨trivial, hasks.index_lt sound hshort (hstarts.resolve_right id)⟩⟩

/-! Deployments that are moved. -/

/-- A controller with the units and the needs of another, on which every deployment is as far as it
can get there at most and may go no further than it may be taken, and only those that are freed of
an error may have lost it. -/
structure Follows (terms : Terms) (c d : Controller β σ) : Prop extends Steady c d where
  attains : ∀ {h : Handle} {q : Progress}, d.board.get? h = some q → c.Attains terms h q.stage
  error : ∀ {h : Handle} {p q : Progress}, c.board.get? h = some p → d.board.get? h = some q →
    q.error = none → p.error = none ∨ terms.freed h
  goal : ∀ {h : Handle} {p q : Progress} {s : Stage}, c.board.get? h = some p →
    d.board.get? h = some q → s.index ≤ q.requested.index → c.chain.contains s = true →
    terms.goal p s

theorem Sound.exists_get? (hc : c.Sound) (hd : d.Sound) (horder : c.board.order = d.board.order)
    (hp : c.board.get? h = some p) : ∃ q, d.board.get? h = some q :=
  hd.tracked.1 (horder ▸ hc.tracked.2 ⟨p, hp⟩)

theorem Steady.exists_get? (steady : Steady c d) (hc : c.Sound) (hd : d.Sound)
    (hq : d.board.get? h = some q) : ∃ p, c.board.get? h = some p :=
  hd.exists_get? hc steady.order hq

theorem Follows.note (follows : Follows terms c d) (entry : Entry β) :
    Follows terms c (d.note entry) :=
  ⟨follows.toSteady.note entry, follows.attains, follows.error, follows.goal⟩

/-- Whatever a need is met by can get there, and was free of error or is freed of it. -/
theorem Follows.exists_asks (follows : Follows terms c d) (hc : c.Sound) (hd : d.Sound)
    (hmet : d.board.shortfall? d.chain d.forest n = none) :
    ∃ t p q r, c.Asks n t p r ∧ (p.error = none ∨ terms.freed t) ∧ c.Attains terms t r ∧
      d.board.get? t = some q ∧ q.error = none ∧ r.index ≤ q.stage.index := by
  obtain ⟨t, q, r, hhome, hq, herror, hr, hrq⟩ := shortfall?_eq_none_iff.1 hmet
  rw [follows.home?_eq] at hhome
  rw [follows.chain] at hr
  obtain ⟨p, hp⟩ := follows.exists_get? hc hd hq
  have hle := Stage.index_le_of_le hrq
  exact ⟨t, p, q, r, ⟨hhome, hp, hr⟩, follows.error hp hq herror,
    (follows.attains hq).of_index_le (Chain.contains_of_resolve? hr) hle, hq, herror, hle⟩

/-- Whoever is ready for a stage can get there. -/
theorem Follows.attains_of_ready (follows : Follows terms c d) (hc : c.Sound) (hd : d.Sound)
    (hp : c.board.get? h = some p) (hq : d.board.get? h = some q)
    (hready : d.verdict h = .ready next)
    (hcut : p.error ≠ none → ¬ terms.loose → p.stage.index < next.index → c.Undercut terms h) :
    c.Attains terms h next := by
  obtain rfl := Board.root_of_get? hq
  obtain ⟨herror, hbelow, hnext, hmissing⟩ := of_verdict_ready hq hready
  have hindex := Chain.index_of_next? hnext
  rw [Chain.le_iff_index (hd.requested hq) (hd.stage hq)] at hbelow
  have hasks : ∀ n ∈ c.needs q.root, Board.appliesFrom c.chain n ≤ next →
      ∃ t x r, c.Asks n t x r ∧ (x.error = none ∨ terms.freed t) ∧ c.Attains terms t r := by
    intro n hn happlies
    rw [← follows.needs_eq] at hn
    rw [← follows.chain] at happlies
    obtain ⟨t, x, _, r, hasks, hstarts, hattains, _⟩ :=
      follows.exists_asks hc hd (missing_eq_nil_iff.1 hmissing n hn happlies)
    exact ⟨t, x, r, hasks, hstarts, hattains⟩
  rw [follows.chain] at hnext
  refine .enters (follows.attains hq) hp hnext ?_ (follows.error hp hq herror) hcut ?_ ?_
  · exact follows.goal hp hq (by omega) (Chain.contains_of_next? hnext)
  · intro n hn happlies
    obtain ⟨t, x, r, hasks, hstarts, _⟩ := hasks n hn happlies
    exact ⟨t, x, r, hasks, hstarts⟩
  · intro n hn happlies t x r hasks'
    obtain ⟨t', x', r', hasks, _, hattains⟩ := hasks n hn happlies
    obtain rfl := Option.some_inj.1 (hasks'.home.symm.trans hasks.home)
    obtain rfl := Option.some_inj.1 (hasks'.stage.symm.trans hasks.stage)
    exact hattains

/-- A turn takes nobody further than it can get, if it takes none that was in error above where it
was unless that one is undercut or nothing keeps it below. -/
theorem Turn.follows (turn : Turn crew d e) (follows : Follows terms c d) (lasting : c.Lasting)
    (hc : c.Sound) (hd : d.Sound)
    (hcut : ∀ {h : Handle} {p q : Progress} {next : Stage}, c.board.get? h = some p →
      d.board.get? h = some q → d.verdict h = .ready next → terms.freed h → ¬ terms.loose →
      p.stage.index < next.index → c.Undercut terms h)
    (standing : ∀ entry, Told d e entry → ∀ n ∈ entry.needs, n.declaredAt = none) :
    Follows terms c e := by
  have hmoves := turn.moves hd
  have he := hd.of_alike hmoves.toAlike
  have steady := follows.toSteady.trans
    (turn.steady (follows.toSteady.lasting lasting) hd standing)
  refine ⟨steady, fun {h y} hy ↦ ?_, fun {h x y} hx hy herror ↦ ?_,
    fun {h x y s} hx hy hle hs ↦ ?_⟩
  · obtain ⟨q, hq, _⟩ := hmoves.get? hy
    obtain ⟨p, hp⟩ := follows.exists_get? hc hd hq
    have hcontains := he.stage hy
    rw [steady.chain] at hcontains
    have hattains := follows.attains hq
    cases turn.turned hd hq hy with
    | kept | stalled _ _ _ | parked _ _ => exact hattains
    | lowered hle => exact hattains.of_index_le hcontains hle
    | @raised next _ _ hready _ _ =>
      obtain rfl := Board.root_of_get? hq
      refine follows.attains_of_ready hc hd hp hq hready fun hfailed hbound hlt ↦ ?_
      have hfreed := (follows.error hp hq (of_verdict_ready hq hready).1).resolve_left hfailed
      exact hcut hp hq hready hfreed hbound hlt
  · obtain ⟨q, hq, _⟩ := hmoves.get? hy
    refine follows.error hx hq ?_
    cases turn.turned hd hq hy with
    | kept | lowered _ | raised _ _ _ | parked _ _ => exact herror
    | stalled _ _ _ => exact absurd herror (by simp)
  · obtain ⟨q, hq, _⟩ := hmoves.get? hy
    rw [(hmoves.aims hq hy).1] at hle
    exact follows.goal hx hq hle hs

/-- So do many, where nothing keeps deployments below where they were. -/
theorem Turns.follows (turns : Turns crew d e) (follows : Follows terms c d)
    (loose : terms.loose) (lasting : c.Lasting) (hc : c.Sound) (hd : d.Sound)
    (standing : ∀ entry, Told d e entry → ∀ n ∈ entry.needs, n.declaredAt = none) :
    Follows terms c e := by
  induction turns with
  | refl => exact follows
  | @tail m e first turn ih =>
    have hm := (Turns.sound_moves first hd).1
    have hcontinues := Steps.continues (Turns.steps first) hd
    refine turn.follows (ih fun entry htold ↦ standing entry ?_) lasting hc hm
      (fun _ _ _ _ hbound _ ↦ absurd loose hbound) fun entry htold ↦
        standing entry (htold.continues hcontinues)
    exact (turn.continues hm).told htold

end Rollout.Controller
