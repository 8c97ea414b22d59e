import Rollout.Proofs.SoundController

/-!
Going down, without counting steps. `Recalls` tells how the deployments that have to go down before
another one does so, each after those that hang on it in turn, and passes over those that are going
down already; `CallsDown` tells the same of batches. The bounded recursion of a descent always comes
to such an end: the path holds every deployment at most once, and every deployment that it takes
down goes down by one stage at a time. For this it is enough that every deployment is at a stage of
the chain.
-/

set_option autoImplicit false
set_option relaxedAutoImplicit false

namespace Rollout

variable {β σ : Type}

namespace Controller

/-- The controller after a deployment has left its stage for the one below. -/
def lowered (crew : Crew β σ) (p : Progress) (below : Stage) (c : Controller β σ) :
    Controller β σ :=
  let after := { c with
    site := (c.site.leaveStage crew p.root p.stage).2
    board := c.board.update p.root fun q ↦ { q with stage := below } }
  after.note (.retreated ⟨p.root, p.name, p.stage, below, c.position, after.position⟩
    (c.site.leaveStage crew p.root p.stage).1)

variable {c d e : Controller β σ} {h : Handle} {p : Progress} {below : Stage}

theorem Alike.refl (sound : c.Sound) : Alike c c :=
  ⟨.refl _, rfl, fun {_ q} hq ↦ ⟨q, hq, sound.keeps_self hq⟩, fun {_ p} hp ↦ ⟨p, hp⟩, rfl, rfl, rfl,
    rfl, rfl⟩

theorem Alike.trans (first : Alike c d) (second : Alike d e) : Alike c e := by
  refine ⟨first.shape.trans second.shape, second.order.trans first.order, fun {h r} hr ↦ ?_,
    fun {h p} hp ↦ ?_, second.chain.trans first.chain, second.roster.trans first.roster,
    second.target.trans first.target, second.config.trans first.config,
    second.queue.trans first.queue⟩
  · obtain ⟨q, hq, hqr⟩ := second.get? hr
    obtain ⟨p, hp, hpq⟩ := first.get? hq
    rw [first.chain] at hqr
    exact ⟨p, hp, hqr.name.trans hpq.name, hqr.stage, hqr.requested, hqr.removing,
      fun hremoving ↦ hqr.still (hpq.still hremoving)⟩
  · obtain ⟨q, hq⟩ := first.tracked hp
    exact second.tracked hq

/-- What becomes of a board when deployments go down: all keep everything but their stage, and those
on the path have not moved. -/
structure Sinks (path : List Handle) (c d : Controller β σ) : Prop where
  chain : d.chain = c.chain
  order : d.board.order = c.board.order
  untracked : ∀ {h : Handle}, c.board.get? h = none → d.board.get? h = none
  stage : ∀ {h : Handle} {p : Progress}, c.board.get? h = some p →
    ∃ s, d.board.get? h = some { p with stage := s } ∧ s.index ≤ p.stage.index ∧
      (h ∈ path → s = p.stage)

theorem Sinks.refl (path : List Handle) (c : Controller β σ) : Sinks path c c :=
  ⟨rfl, rfl, id, fun {_ p} hp ↦ ⟨p.stage, hp, Nat.le_refl _, fun _ ↦ rfl⟩⟩

theorem Sinks.trans {path : List Handle} (first : Sinks path c d) (second : Sinks path d e) :
    Sinks path c e := by
  refine ⟨second.chain.trans first.chain, second.order.trans first.order,
    fun hnone ↦ second.untracked (first.untracked hnone), fun {h p} hp ↦ ?_⟩
  obtain ⟨s, hs, hle, hpath⟩ := first.stage hp
  obtain ⟨s', hs', hle', hpath'⟩ := second.stage hs
  exact ⟨s', hs', Nat.le_trans hle' hle, fun hh ↦ (hpath' hh).trans (hpath hh)⟩

theorem Sinks.mono {path sub : List Handle} (sinks : Sinks path c d) (hsub : sub ⊆ path) :
    Sinks sub c d := by
  refine ⟨sinks.chain, sinks.order, sinks.untracked, fun {h p} hp ↦ ?_⟩
  obtain ⟨s, hs, hle, hpath⟩ := sinks.stage hp
  exact ⟨s, hs, hle, fun hh ↦ hpath (hsub hh)⟩

theorem Sinks.of_note {path : List Handle} {entry : Entry β} (sinks : Sinks path (c.note entry) d) :
    Sinks path c d :=
  ⟨sinks.chain, sinks.order, sinks.untracked, sinks.stage⟩

/-- Whoever is about to go down is where it was once all others have gone down for it. -/
theorem Sinks.head_kept {path : List Handle} (sinks : Sinks (p.root :: path) c d)
    (hp : c.board.get? p.root = some p) (hbelow : c.chain.prev? p.stage = some below) :
    d.board.get? p.root = some p ∧ d.chain.prev? p.stage = some below := by
  obtain ⟨s, hs, _, hpath⟩ := sinks.stage hp
  rw [sinks.chain, hs, hpath List.mem_cons_self]
  exact ⟨rfl, hbelow⟩

/-- What is left when deployments have gone down: they keep all but their stage, their units keep
all needs but those that the stages they left had declared, and those on the path have not moved. -/
structure Lowers (path : List Handle) (c d : Controller β σ) : Prop where
  alike : Alike c d
  stage : ∀ {h : Handle} {p : Progress}, c.board.get? h = some p →
    ∃ s, d.board.get? h = some { p with stage := s } ∧ s.index ≤ p.stage.index ∧
      (h ∈ path → s = p.stage)
  needs : ∀ {h : Handle} {u : LiveUnit β}, c.forest.get? h = some u →
    ∃ (v : LiveUnit β) (stages : List Stage), d.forest.get? h = some v ∧ v.toNode = u.toNode ∧
      v.needs = stages.foldl Need.forget u.needs

theorem Lowers.refl {path : List Handle} (sound : c.Sound) : Lowers path c c :=
  ⟨.refl sound, (Sinks.refl path c).stage, fun {_ u} hu ↦ ⟨u, [], hu, rfl, rfl⟩⟩

theorem Lowers.sinks {path : List Handle} (lowers : Lowers path c d) : Sinks path c d := by
  refine ⟨lowers.alike.chain, lowers.alike.order, fun {h} hnone ↦ ?_, lowers.stage⟩
  cases hq : d.board.get? h with
  | none => rfl
  | some q =>
    obtain ⟨p, hp, _⟩ := lowers.alike.get? hq
    rw [hnone] at hp
    exact absurd hp (by simp)

theorem Lowers.trans {path : List Handle} (first : Lowers path c d) (second : Lowers path d e) :
    Lowers path c e := by
  refine ⟨first.alike.trans second.alike, (first.sinks.trans second.sinks).stage,
    fun {h u} hu ↦ ?_⟩
  obtain ⟨v, stages, hv, hnode, hneeds⟩ := first.needs hu
  obtain ⟨w, stages', hw, hnode', hneeds'⟩ := second.needs hv
  refine ⟨w, stages ++ stages', hw, hnode'.trans hnode, ?_⟩
  rw [hneeds', hneeds, List.foldl_append]

theorem Lowers.mono {path sub : List Handle} (lowers : Lowers path c d) (hsub : sub ⊆ path) :
    Lowers sub c d :=
  ⟨lowers.alike, (lowers.sinks.mono hsub).stage, lowers.needs⟩

theorem Lowers.head_kept {path : List Handle} (lowers : Lowers (p.root :: path) c d)
    (hp : c.board.get? p.root = some p) (hbelow : c.chain.prev? p.stage = some below) :
    d.board.get? p.root = some p ∧ d.chain.prev? p.stage = some below :=
  lowers.sinks.head_kept hp hbelow

theorem Lowers.get?_of_mem {path : List Handle} (lowers : Lowers path c d) (hh : h ∈ path)
    (hp : c.board.get? h = some p) : d.board.get? h = some p := by
  obtain ⟨s, hs, _, hpath⟩ := lowers.stage hp
  rw [hs, hpath hh]

theorem Lowers.note {path : List Handle} (lowers : Lowers path c d) (entry : Entry β) :
    Lowers path c (d.note entry) :=
  ⟨lowers.alike.note entry, lowers.stage, lowers.needs⟩

theorem Sound.treated_lowered (sound : c.Sound) (crew : Crew β σ) (p : Progress) :
    Site.Treated (fun _ ↦ LiveUnit.Left p.stage) (c.forest.tree p.root) c.site
      (c.site.leaveStage crew p.root p.stage).2
      (c.site.callsOn (c.forest.tree p.root).reverse (Site.leaveCalls p.stage)) :=
  (Site.leaveStage_spec crew p.stage (sound.forest.nodup_tree _)).1

theorem get?_lowered (crew : Crew β σ) (hp : c.board.get? p.root = some p) :
    (c.lowered crew p below).board.get? h =
      if h = p.root then some { p with stage := below } else c.board.get? h := by
  have hget : (c.lowered crew p below).board.get? h =
      if h = p.root then (c.board.get? p.root).map (fun q ↦ { q with stage := below })
      else c.board.get? h := Board.get?_update _ _ _ fun _ ↦ rfl
  rw [hget, hp, Option.map_some]

/-- Every deployment is at a stage of the chain. -/
def OnChain (c : Controller β σ) : Prop :=
  ∀ {h : Handle} {p : Progress}, c.board.get? h = some p → c.chain.contains p.stage = true

theorem Sound.onChain (sound : c.Sound) : c.OnChain := fun hp ↦ sound.stage hp

theorem OnChain.lowered (onChain : c.OnChain) (crew : Crew β σ)
    (hp : c.board.get? p.root = some p) (hbelow : c.chain.prev? p.stage = some below) :
    (c.lowered crew p below).OnChain := by
  intro h q hq
  rw [get?_lowered crew hp] at hq
  split at hq
  · obtain rfl := Option.some_inj.1 hq
    exact Chain.contains_of_prev? hbelow
  · exact onChain hq

theorem sinks_lowered (crew : Crew β σ) {path : List Handle} (hpath : p.root ∉ path)
    (hp : c.board.get? p.root = some p) (hbelow : c.chain.prev? p.stage = some below) :
    Sinks path c (c.lowered crew p below) := by
  refine ⟨rfl, rfl, fun {h} hnone ↦ ?_, fun {h q} hq ↦ ?_⟩
  · rw [get?_lowered crew hp, if_neg, hnone]
    rintro rfl
    rw [hp] at hnone
    exact absurd hnone (by simp)
  · rw [get?_lowered crew hp]
    by_cases hh : h = p.root
    · subst hh
      rw [hp, Option.some_inj] at hq
      subst hq
      have hindex := Chain.index_of_prev? hbelow
      exact ⟨below, if_pos rfl, by omega, fun hmem ↦ absurd hmem hpath⟩
    · exact ⟨q.stage, by rw [if_neg hh, hq], Nat.le_refl _, fun _ ↦ rfl⟩

theorem Sound.lowers_lowered (sound : c.Sound) (crew : Crew β σ) {path : List Handle}
    (hpath : p.root ∉ path) (hp : c.board.get? p.root = some p)
    (hbelow : c.chain.prev? p.stage = some below) : Lowers path c (c.lowered crew p below) := by
  have htreated := sound.treated_lowered crew p
  refine ⟨?_, (sinks_lowered crew hpath hp hbelow).stage, fun {h u} hu ↦ ?_⟩
  · refine Alike.note (sound.alike_update (fun q ↦ { q with stage := below })
      (fun _ ↦ rfl) (fun q hq ↦ ?_) htreated.shape htreated.ambient.chain) _
    exact ⟨rfl, Chain.contains_of_prev? hbelow, sound.requested (p := q) hq,
      sound.removing (p := q) hq, id⟩
  · by_cases hh : h ∈ c.forest.tree p.root
    · obtain ⟨v, hv, hleft⟩ := htreated.each hh hu
      exact ⟨v, [p.stage], hv, hleft.node, hleft.needs⟩
    · exact ⟨u, [], (htreated.other hh).trans hu, rfl, rfl⟩

/-- Some deployments are taken down to given stages, one after another. One that is on the path or
far enough down already is passed over; any other goes down by a stage, after those that have to go
down for this, and is then looked at again. -/
inductive Recalls (crew : Crew β σ) :
    List Handle → String → List (Handle × Stage) → Controller β σ → Controller β σ → Prop
  | nil {path : List Handle} {name : String} {c : Controller β σ} : Recalls crew path name [] c c
  | pass {path : List Handle} {name : String} {dependent : Handle} {goal : Stage}
      {targets : List (Handle × Stage)} {c d : Controller β σ} :
    (dependent ∈ path ∨ ∀ q, c.board.get? dependent = some q → q.stage ≤ goal) →
    Recalls crew path name targets c d →
    Recalls crew path name ((dependent, goal) :: targets) c d
  | down {path : List Handle} {name : String} {goal below : Stage}
      {targets : List (Handle × Stage)} {q : Progress} {c m d : Controller β σ} :
    q.root ∉ path → c.board.get? q.root = some q → goal.index < q.stage.index →
    c.chain.prev? q.stage = some below →
    Recalls crew (q.root :: path) q.name (c.recalled q.root below)
      (c.note (.recalling name q.root goal)) m →
    Recalls crew path name ((q.root, goal) :: targets) (m.lowered crew q below) d →
    Recalls crew path name ((q.root, goal) :: targets) c d

variable {crew : Crew β σ}

theorem Recalls.sound_lowers {path : List Handle} {name : String}
    {targets : List (Handle × Stage)} (recalls : Recalls crew path name targets c d)
    (sound : c.Sound) : d.Sound ∧ Lowers path c d := by
  induction recalls with
  | nil => exact ⟨sound, .refl sound⟩
  | pass _ _ ih => exact ih sound
  | @down path name goal below targets q c m d hpath hq _ hbelow _ _ ihInner ihRest =>
    obtain ⟨hm, hinner⟩ := ihInner (sound.note _)
    obtain ⟨hqm, hbelow'⟩ := hinner.head_kept hq hbelow
    have hleft : Lowers path m (m.lowered crew q below) := hm.lowers_lowered crew hpath hqm hbelow'
    obtain ⟨hd, hrest⟩ := ihRest (hm.of_alike hleft.alike)
    have hnote : Lowers path c (c.note (.recalling name q.root goal)) := (Lowers.refl sound).note _
    exact ⟨hd, ((hnote.trans (hinner.mono (List.subset_cons_self _ _))).trans hleft).trans hrest⟩

/-- What becomes of the first of the deployments that are to go down. -/
theorem Recalls.cons_cases {path : List Handle} {name : String} {dependent : Handle} {goal : Stage}
    {targets : List (Handle × Stage)}
    (recalls : Recalls crew path name ((dependent, goal) :: targets) c d) :
    (dependent ∈ path ∨ ∀ q, c.board.get? dependent = some q → q.stage ≤ goal) ∧
        Recalls crew path name targets c d ∨
      ∃ q below m, q.root = dependent ∧ dependent ∉ path ∧ c.board.get? dependent = some q ∧
        goal.index < q.stage.index ∧ c.chain.prev? q.stage = some below ∧
        Recalls crew (dependent :: path) q.name (c.recalled dependent below)
          (c.note (.recalling name dependent goal)) m ∧
        Recalls crew path name ((dependent, goal) :: targets) (m.lowered crew q below) d := by
  generalize htargets : (dependent, goal) :: targets = all at recalls
  cases recalls with
  | nil => exact absurd htargets (by simp)
  | pass hpass hrest =>
    rw [List.cons.injEq, Prod.mk.injEq] at htargets
    obtain ⟨⟨rfl, rfl⟩, rfl⟩ := htargets
    exact Or.inl ⟨hpass, hrest⟩
  | down hpath hq habove hbelow hinner hrest =>
    have hsame := htargets
    rw [List.cons.injEq, Prod.mk.injEq] at hsame
    obtain ⟨⟨rfl, rfl⟩, rfl⟩ := hsame
    exact Or.inr ⟨_, _, _, rfl, hpath, hq, habove, hbelow, hinner, hrest⟩

/-- A property that every single move down keeps is kept by all of them together. -/
theorem Recalls.preserves {path : List Handle} {name : String} {targets : List (Handle × Stage)}
    (recalls : Recalls crew path name targets c d) (sound : c.Sound)
    (holds : Controller β σ → Prop)
    (hnote : ∀ {c : Controller β σ} (name : String) (h : Handle) (goal : Stage), holds c →
      holds (c.note (.recalling name h goal)))
    (hlowered : ∀ {c : Controller β σ} {q : Progress} {below : Stage}, c.Sound →
      c.board.get? q.root = some q → c.chain.prev? q.stage = some below → holds c →
        holds (c.lowered crew q below))
    (start : holds c) : holds d := by
  induction recalls with
  | nil => exact start
  | pass _ _ ih => exact ih sound start
  | @down path name goal below targets q c m d hpath hq _ hbelow inner _ ihInner ihRest =>
    obtain ⟨hm, hlowers⟩ := inner.sound_lowers (sound.note _)
    obtain ⟨hqm, hbelow'⟩ := hlowers.head_kept hq hbelow
    refine ihRest ?_ (hlowered hm hqm hbelow' (ihInner (sound.note _) (hnote _ _ _ start)))
    exact hm.of_alike (hm.lowers_lowered crew hpath hqm hbelow').alike

/-- So it is kept when a deployment goes down by a stage after those that have to. -/
theorem Recalls.preserves_lowered {m : Controller β σ}
    (recalls : Recalls crew [p.root] p.name (c.recalled p.root below) c m) (sound : c.Sound)
    (hp : c.board.get? p.root = some p) (hbelow : c.chain.prev? p.stage = some below)
    (holds : Controller β σ → Prop)
    (hnote : ∀ {c : Controller β σ} (name : String) (h : Handle) (goal : Stage), holds c →
      holds (c.note (.recalling name h goal)))
    (hlowered : ∀ {c : Controller β σ} {q : Progress} {below : Stage}, c.Sound →
      c.board.get? q.root = some q → c.chain.prev? q.stage = some below → holds c →
        holds (c.lowered crew q below))
    (start : holds c) : holds (m.lowered crew p below) := by
  obtain ⟨hm, hlowers⟩ := recalls.sound_lowers sound
  obtain ⟨hpm, hbelow'⟩ := hlowers.head_kept hp hbelow
  exact hlowered hm hpm hbelow' (recalls.preserves sound holds hnote hlowered start)

/-- Whoever was to go down has done so, unless it was on the path. -/
theorem Recalls.reached {path : List Handle} {name : String} {targets : List (Handle × Stage)}
    (recalls : Recalls crew path name targets c d) (sound : c.Sound) {dependent : Handle}
    {goal : Stage} (htarget : (dependent, goal) ∈ targets) (hpath : dependent ∉ path)
    (hp : d.board.get? dependent = some p) : p.stage.index ≤ goal.index := by
  induction recalls with
  | nil => exact absurd htarget List.not_mem_nil
  | @pass path name dependent' goal' targets c d hlow rest ih =>
    rcases List.mem_cons.1 htarget with heq | htarget
    · rw [Prod.mk.injEq] at heq
      obtain ⟨rfl, rfl⟩ := heq
      obtain ⟨_, hlowers⟩ := rest.sound_lowers sound
      obtain ⟨q, hq, _⟩ := hlowers.alike.get? hp
      obtain ⟨s, hs, hle, _⟩ := hlowers.stage hq
      rw [hp, Option.some_inj] at hs
      have hgoal := Stage.index_le_of_le ((hlow.resolve_left hpath) q hq)
      rw [hs]
      exact Nat.le_trans hle hgoal
    · exact ih sound htarget hpath hp
  | @down path name goal' below targets q c m d hpath' hq _ hbelow inner _ _ ihRest =>
    obtain ⟨hm, hlowers⟩ := inner.sound_lowers (sound.note _)
    obtain ⟨hqm, hbelow'⟩ := hlowers.head_kept hq hbelow
    exact ihRest (hm.of_alike (hm.lowers_lowered crew hpath' hqm hbelow').alike) htarget hpath hp

theorem lowest?_mem {stages : List Stage} {s : Stage} (h : Board.lowest? stages = some s) :
    s ∈ stages := by
  cases stages with
  | nil => exact absurd h (by simp [Board.lowest?])
  | cons first rest =>
    simp only [Board.lowest?, Option.some_inj] at h
    subst h
    induction rest generalizing first with
    | nil => exact List.mem_cons_self
    | cons t rest ih =>
      rw [List.foldl_cons]
      split
      · exact List.mem_cons_of_mem _ (ih t)
      · rcases List.mem_cons.1 (ih first) with heq | hmem
        · rw [heq]
          exact List.mem_cons_self
        · exact List.mem_cons_of_mem _ (List.mem_cons_of_mem _ hmem)

/-- A deployment that is recalled holds a need that sends it as far down as it has to go. -/
theorem exists_need_of_recalled {dependent : Handle} {goal : Stage} {root : Handle}
    (htarget : (dependent, goal) ∈ c.recalled root below) :
    ∃ q n, c.board.get? dependent = some q ∧ n ∈ c.forest.treeNeeds dependent ∧
      Board.pullBack? c.chain c.forest root below q.stage n = some goal := by
  unfold recalled Board.recalled at htarget
  obtain ⟨h, _, hfound⟩ := List.mem_filterMap.1 htarget
  split at hfound
  · exact absurd hfound (by simp)
  · obtain ⟨q, hq, hlowest⟩ := Option.bind_eq_some_iff.1 hfound
    obtain ⟨s, hs, heq⟩ := Option.map_eq_some_iff.1 hlowest
    rw [Prod.mk.injEq] at heq
    obtain ⟨rfl, rfl⟩ := heq
    obtain ⟨n, hn, hpull⟩ := List.mem_filterMap.1 (lowest?_mem hs)
    exact ⟨q, n, hq, hn, hpull⟩

/-- Only deployments of the order are recalled. -/
theorem mem_order_of_recalled {dependent : Handle} {goal : Stage} {root : Handle}
    (htarget : (dependent, goal) ∈ c.recalled root below) : dependent ∈ c.board.order := by
  unfold recalled Board.recalled at htarget
  obtain ⟨h, hmem, hfound⟩ := List.mem_filterMap.1 htarget
  split at hfound
  · exact absurd hfound (by simp)
  · obtain ⟨_, _, hlowest⟩ := Option.bind_eq_some_iff.1 hfound
    obtain ⟨_, _, heq⟩ := Option.map_eq_some_iff.1 hlowest
    rw [← (Prod.mk.inj heq).1]
    exact List.mem_eraseDups.1 hmem

theorem pullBack?_eq_some_iff {chain : Chain} {f : Forest β} {root : Handle}
    {below stage goal : Stage} {n : Need} :
    Board.pullBack? chain f root below stage n = some goal ↔
      ∃ u required, f.byName? n.target = some u ∧ u.top = root ∧
        chain.resolve? n.atLeast = some required ∧ ¬ required ≤ below ∧
        ¬ stage < Board.appliesFrom chain n ∧
        chain.prev? (Board.appliesFrom chain n) = some goal := by
  unfold Board.pullBack?
  cases hu : f.byName? n.target with
  | none => simp
  | some u =>
    cases hrequired : chain.resolve? n.atLeast with
    | none => simp
    | some required =>
      by_cases htop : u.top = root
      · simp [htop, not_or, and_assoc]
      · simp [htop]

theorem contains_of_recalled {dependent : Handle} {goal : Stage} {root : Handle}
    (htarget : (dependent, goal) ∈ c.recalled root below) : c.chain.contains goal = true := by
  obtain ⟨_, _, _, _, hpull⟩ := exists_need_of_recalled htarget
  obtain ⟨_, _, _, _, _, _, _, hprev⟩ := pullBack?_eq_some_iff.1 hpull
  exact Chain.contains_of_prev? hprev

end Controller

namespace Batch

open Controller

/-- The batch after a deployment has left its stage for the one below. -/
def left (crew : Crew β σ) (p : Progress) (below : Stage) (b : Batch β σ) : Batch β σ :=
  { b with
    controller := b.controller.lowered crew p below
    tally := { b.tally with
      retreated := b.tally.retreated + 1
      invocations :=
        b.tally.invocations + (b.controller.site.leaveStage crew p.root p.stage).1 } }

variable {crew : Crew β σ} {b : Batch β σ} {p : Progress} {below : Stage}

theorem leave_eq (hp : b.controller.board.get? p.root = some p)
    (hbelow : b.controller.chain.prev? p.stage = some below) :
    leave crew p below b = (b.left crew p below, none) := by
  have hdescend : b.controller.board.descend p.root below =
      .ok (b.controller.board.update p.root fun q ↦ { q with stage := below }) :=
    Board.descend_eq_ok_iff.2 ⟨p, hp, Chain.index_of_prev? hbelow, rfl⟩
  unfold leave
  simp only [hdescend]
  rfl

theorem get?_left (crew : Crew β σ) (below : Stage)
    (hp : b.controller.board.get? p.root = some p) :
    (b.left crew p below).controller.board.get? p.root = some { p with stage := below } :=
  (get?_lowered crew hp).trans (if_pos rfl)

/-- A deployment that leaves its stage for the one below is not where it was. -/
theorem stage?_left_ne (crew : Crew β σ) (hp : b.controller.board.get? p.root = some p)
    (hbelow : b.controller.chain.prev? p.stage = some below) :
    (b.left crew p below).stage? p.root ≠ some p.stage := by
  unfold stage? Board.stage?
  rw [get?_left crew below hp, Option.map_some]
  intro heq
  obtain rfl := Option.some_inj.1 heq
  exact absurd (Chain.index_of_prev? hbelow) (Nat.succ_ne_self _)

/-- What `Recalls` tells of controllers, told of batches. -/
inductive CallsDown (crew : Crew β σ) :
    List Handle → String → List (Handle × Stage) → Batch β σ → Batch β σ → Prop
  | nil {path : List Handle} {name : String} {b : Batch β σ} : CallsDown crew path name [] b b
  | pass {path : List Handle} {name : String} {dependent : Handle} {goal : Stage}
      {targets : List (Handle × Stage)} {b d : Batch β σ} :
    (dependent ∈ path ∨ ∀ q, b.controller.board.get? dependent = some q → q.stage ≤ goal) →
    CallsDown crew path name targets b d →
    CallsDown crew path name ((dependent, goal) :: targets) b d
  | down {path : List Handle} {name : String} {goal below : Stage}
      {targets : List (Handle × Stage)} {q : Progress} {b m d : Batch β σ} :
    q.root ∉ path → b.controller.board.get? q.root = some q → goal.index < q.stage.index →
    ¬ q.stage ≤ goal → b.controller.chain.prev? q.stage = some below →
    CallsDown crew (q.root :: path) q.name (b.controller.recalled q.root below)
      (b.note (.recalling name q.root goal)) m →
    CallsDown crew path name ((q.root, goal) :: targets) (m.left crew q below) d →
    CallsDown crew path name ((q.root, goal) :: targets) b d

theorem CallsDown.recalls {path : List Handle} {name : String} {targets : List (Handle × Stage)}
    {b d : Batch β σ} (calls : CallsDown crew path name targets b d) :
    Recalls crew path name targets b.controller d.controller := by
  induction calls with
  | nil => exact .nil
  | pass hpass _ ih => exact .pass hpass ih
  | down hpath hq habove _ hbelow _ _ ihInner ihRest =>
    exact .down hpath hq habove hbelow ihInner ihRest

/-- Going down does not tell whether a pass has got anywhere. -/
theorem CallsDown.progressed {path : List Handle} {name : String}
    {targets : List (Handle × Stage)} {b d : Batch β σ}
    (calls : CallsDown crew path name targets b d) : d.progressed = b.progressed := by
  induction calls with
  | nil => rfl
  | pass _ _ ih => exact ih
  | down _ _ _ _ _ _ _ ihInner ihRest => exact ihRest.trans ihInner

theorem CallsDown.sinks {path : List Handle} {name : String} {targets : List (Handle × Stage)}
    {b d : Batch β σ} (calls : CallsDown crew path name targets b d)
    (onChain : b.controller.OnChain) :
    d.controller.OnChain ∧ Sinks path b.controller d.controller := by
  induction calls with
  | nil => exact ⟨onChain, .refl _ _⟩
  | pass _ _ ih => exact ih onChain
  | @down path name goal below targets q b m d hpath hq _ _ hbelow _ _ ihInner ihRest =>
    obtain ⟨hm, hinner⟩ := ihInner onChain
    obtain ⟨hqm, hbelow'⟩ := hinner.head_kept hq hbelow
    have hnote : Sinks path b.controller m.controller :=
      (hinner.mono (List.subset_cons_self _ _)).of_note
    obtain ⟨hd, hrest⟩ := ihRest (hm.lowered crew hqm hbelow')
    exact ⟨hd, (hnote.trans (sinks_lowered crew hpath hqm hbelow')).trans hrest⟩

/-- A way to take deployments within reach down by one stage that comes to the end that `CallsDown`
tells of, for batches over a given order of deployments. -/
def TakesDown (crew : Crew β σ) (order reach path : List Handle)
    (down : Handle → Batch β σ → Batch β σ × Option BoardFault) : Prop :=
  ∀ {b : Batch β σ} {q : Progress} {below : Stage}, b.controller.OnChain →
    b.controller.board.order = order → q.root ∈ reach → q.root ∉ path →
    b.controller.board.get? q.root = some q → b.controller.chain.prev? q.stage = some below →
      ∃ m : Batch β σ, down q.root b = (m.left crew q below, none) ∧
        CallsDown crew (q.root :: path) q.name (b.controller.recalled q.root below) b m

variable {order reach path : List Handle}
  {down : Handle → Batch β σ → Batch β σ × Option BoardFault}

/-- A deployment that is low enough, or not tracked, is left where it is. -/
theorem callDownOne_low {dependent : Handle} {goal : Stage} {b : Batch β σ}
    (hlow : ∀ q, b.controller.board.get? dependent = some q → q.stage ≤ goal) (name : String)
    (steps : Nat) : callDownOne down name dependent goal steps b = (b, none) := by
  cases steps with
  | zero => rfl
  | succ steps =>
    unfold callDownOne stage? Board.stage?
    cases hq : b.controller.board.get? dependent with
    | none => rfl
    | some q =>
      simp only [Option.map_some]
      exact if_pos (hlow q hq)

/-- Taking one deployment down far enough comes to an end before its steps are used up, and adds to
what comes after it. -/
theorem callDownOne_callsDown (takesDown : TakesDown crew order reach path down) (name : String)
    {dependent : Handle} {goal : Stage} (hreach : dependent ∈ reach) (hpath : dependent ∉ path)
    (steps : Nat) {b : Batch β σ} (onChain : b.controller.OnChain)
    (horder : b.controller.board.order = order) (hgoal : b.controller.chain.contains goal = true)
    (hsteps : ∀ q, b.controller.board.get? dependent = some q → q.stage.index < steps) :
    ∃ m : Batch β σ, callDownOne down name dependent goal steps b = (m, none) ∧
      m.controller.OnChain ∧ Sinks path b.controller m.controller ∧
      ∀ {targets : List (Handle × Stage)} {d : Batch β σ},
        CallsDown crew path name targets m d →
          CallsDown crew path name ((dependent, goal) :: targets) b d := by
  induction steps generalizing b with
  | zero =>
    have hlow : ∀ q, b.controller.board.get? dependent = some q → q.stage ≤ goal := fun q hq ↦
      absurd (hsteps q hq) (Nat.not_lt_zero _)
    exact ⟨b, rfl, onChain, .refl _ _, .pass (Or.inr hlow)⟩
  | succ steps ih =>
    by_cases hlow : ∀ q, b.controller.board.get? dependent = some q → q.stage ≤ goal
    · exact ⟨b, callDownOne_low hlow name _, onChain, .refl _ _, .pass (Or.inr hlow)⟩
    push Not at hlow
    obtain ⟨q, hq, hle⟩ := hlow
    obtain rfl := Board.root_of_get? hq
    have habove : goal.index < q.stage.index := by
      have hindex := hle
      rw [Chain.le_iff_index (onChain hq) hgoal] at hindex
      exact Nat.lt_of_not_le hindex
    obtain ⟨below, hbelow⟩ := Chain.exists_prev? (onChain hq) (Nat.zero_lt_of_lt habove)
    obtain ⟨m, hdown, hinner⟩ := takesDown (b := b.note (.recalling name q.root goal)) onChain
      horder hreach hpath hq hbelow
    obtain ⟨hm, hsinks⟩ := hinner.sinks onChain
    have hnoted : Sinks path b.controller m.controller :=
      (hsinks.mono (List.subset_cons_self _ _)).of_note
    obtain ⟨hqm, hbelow'⟩ := hsinks.head_kept hq hbelow
    have hleft : Sinks path m.controller (m.left crew q below).controller :=
      sinks_lowered crew hpath hqm hbelow'
    have hindex := Chain.index_of_prev? hbelow
    obtain ⟨m', heq, hm', hsinks', hall⟩ := ih (b := m.left crew q below)
      (hm.lowered crew hqm hbelow') ((hleft.order.trans hsinks.order).trans horder)
      (by rw [hleft.chain, hsinks.chain]; exact hgoal) fun q' hq' ↦ by
        obtain rfl := Option.some_inj.1 ((get?_left crew below hqm).symm.trans hq')
        have hlt := hsteps q hq
        simp only
        omega
    refine ⟨m', ?_, hm', (hnoted.trans hleft).trans hsinks',
      fun hrest ↦ .down hpath hq habove hle hbelow hinner (hall hrest)⟩
    have hmoved := stage?_left_ne crew hqm hbelow'
    unfold stage? Board.stage? at hmoved
    unfold callDownOne stage? Board.stage?
    simp only [hq, Option.map_some]
    rw [if_neg hle, hdown, andThen_none, if_neg hmoved]
    exact heq

/-- Taking down several deployments in turn comes to the end that `CallsDown` tells of. -/
theorem forEach_callsDown (takesDown : TakesDown crew order reach path down) (name : String)
    (targets : List (Handle × Stage)) {b : Batch β σ} (onChain : b.controller.OnChain)
    (horder : b.controller.board.order = order)
    (htargets : ∀ target ∈ targets,
      target.1 ∈ reach ∧ b.controller.chain.contains target.2 = true) :
    ∃ m : Batch β σ, forEach (callDown down path name) targets b = (m, none) ∧
      CallsDown crew path name targets b m := by
  induction targets generalizing b with
  | nil => exact ⟨b, rfl, .nil⟩
  | cons target targets ih =>
    obtain ⟨dependent, goal⟩ := target
    obtain ⟨hreach, hgoal⟩ := htargets _ List.mem_cons_self
    have hothers := fun target htarget ↦ htargets target (List.mem_cons_of_mem _ htarget)
    unfold forEach callDown
    by_cases hpath : dependent ∈ path
    · obtain ⟨m, heq, hrest⟩ := ih onChain horder hothers
      refine ⟨m, ?_, .pass (Or.inl hpath) hrest⟩
      rw [if_pos hpath, andThen_none]
      exact heq
    · obtain ⟨m, heq, hm, hsinks, hall⟩ := callDownOne_callsDown takesDown name hreach
        hpath ((b.stage? dependent).elim 0 fun s ↦ s.index + 1) onChain horder hgoal fun q hq ↦ by
          unfold stage? Board.stage?
          rw [hq]
          exact Nat.lt_succ_self _
      obtain ⟨m', heq', hrest⟩ := ih hm (hsinks.order.trans horder)
        (by rw [hsinks.chain]; exact hothers)
      refine ⟨m', ?_, hall hrest⟩
      rw [if_neg hpath]
      simp only [heq, andThen_none]
      exact heq'

/-- The bounded recursion of a descent is deep enough: the path holds deployments within reach only,
each once, so it is never longer than there are of these. -/
theorem descendOn_takesDown (crew : Crew β σ) {order reach path : List Handle} (depth : Nat)
    (horder : order ⊆ reach) (hnodup : path.Nodup) (hsub : path ⊆ reach)
    (hdepth : reach.length ≤ depth + path.length) :
    TakesDown crew order reach path (descendOn crew depth path) := by
  induction depth generalizing path with
  | zero =>
    intro b q below _ _ hreach hpath _ _
    have hlen := (List.Nodup.subperm (List.nodup_cons.2 ⟨hpath, hnodup⟩)
      (List.cons_subset.2 ⟨hreach, hsub⟩)).length_le
    rw [List.length_cons] at hlen
    omega
  | succ depth ih =>
    intro b q below onChain hb hreach hpath hq hbelow
    have hdown : TakesDown crew order reach (q.root :: path) _ :=
      ih (List.nodup_cons.2 ⟨hpath, hnodup⟩) (List.cons_subset.2 ⟨hreach, hsub⟩)
        (by rw [List.length_cons]; omega)
    obtain ⟨m, heq, hcalls⟩ := forEach_callsDown hdown q.name
      (b.controller.recalled q.root below) onChain hb fun target htarget ↦
        ⟨horder (hb ▸ mem_order_of_recalled htarget), contains_of_recalled htarget⟩
    obtain ⟨hqm, hbelow'⟩ := (hcalls.sinks onChain).2.head_kept hq hbelow
    refine ⟨m, ?_, hcalls⟩
    unfold descendOn
    simp only [hq, hbelow]
    rw [heq, andThen_none]
    exact leave_eq hqm hbelow'

/-- A deployment above the floor always goes down by a stage, after those that have to, as long as
every deployment is at a stage of the chain. -/
theorem exists_callsDown (crew : Crew β σ) {b : Batch β σ} (onChain : b.controller.OnChain)
    (hp : b.controller.board.get? p.root = some p)
    (hbelow : b.controller.chain.prev? p.stage = some below) :
    ∃ m : Batch β σ, descend crew p.root b = (m.left crew p below, none) ∧
      CallsDown crew [p.root] p.name (b.controller.recalled p.root below) b m := by
  have htakes : TakesDown crew b.controller.board.order (p.root :: b.controller.board.order) []
      (descendOn crew (b.controller.board.order.length + 1) []) :=
    descendOn_takesDown crew _ (List.subset_cons_self _ _) List.nodup_nil (List.nil_subset _)
      (Nat.le_refl _)
  exact htakes onChain rfl List.mem_cons_self List.not_mem_nil hp hbelow

theorem exists_descend (crew : Crew β σ) {b : Batch β σ} (sound : b.controller.Sound)
    (hp : b.controller.board.get? p.root = some p)
    (hbelow : b.controller.chain.prev? p.stage = some below) :
    ∃ m : Batch β σ, descend crew p.root b = (m.left crew p below, none) ∧
      Recalls crew [p.root] p.name (b.controller.recalled p.root below)
        b.controller m.controller ∧ m.progressed = b.progressed := by
  obtain ⟨m, heq, hcalls⟩ := exists_callsDown crew sound.onChain hp hbelow
  exact ⟨m, heq, hcalls.recalls, hcalls.progressed⟩

end Batch

end Rollout
