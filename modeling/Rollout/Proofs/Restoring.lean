import Rollout.Proofs.HoldingBack

/-!
Climbing back. Seen from a controller at rest whose needs stand for good, deployments that are taken
down and moved again without a failure never get above where they were: whatever kept one of them
from its next step still does, since nothing it needs is further up. And when they come to rest
asked for what they were asked for before, none is below: the one that has the entry of lowest rank
still to make has all its needs for it met.
-/

set_option autoImplicit false
set_option relaxedAutoImplicit false

namespace Rollout

variable {β σ : Type}

namespace Entry

/-- Whether an entry tells that a deployer failed to deploy, or that the passes of a batch were used
up. -/
def isTrouble : Entry β → Bool
  | deployFailed .. => true
  | passLimit .. => true
  | _ => false

/-- An entry that tells of no trouble, and of no need that a deployer declared. -/
def Smooth (e : Entry β) : Prop := e.isTrouble = false ∧ ∀ n ∈ e.needs, n.declaredAt = none

end Entry

namespace Controller

variable {crew : Crew β σ} {c d e : Controller β σ} {h : Handle} {p q : Progress}
  {aim other : Progress → Stage}

/-- Progress of a deployment that is at most as far as it was, free of error, and asked for a given
stage. -/
structure Beneath (aim : Stage) (p q : Progress) : Prop where
  name : q.name = p.name
  removing : q.removing = p.removing
  error : q.error = none
  stage : q.stage.index ≤ p.stage.index
  requested : q.requested = aim

/-- A controller with the units and the needs of another, in which no deployment is further than it
is there, and each is asked for what is made of its progress there. -/
structure Under (aim : Progress → Stage) (c d : Controller β σ) : Prop where
  shape : c.forest.SameShape d.forest
  chain : d.chain = c.chain
  queue : d.queue = c.queue
  order : d.board.order = c.board.order
  needs : ∀ {k : Handle} {u : LiveUnit β}, c.forest.get? k = some u →
    ∃ v, d.forest.get? k = some v ∧ v.needs = u.needs
  below : ∀ {h : Handle} {p : Progress}, c.board.get? h = some p →
    ∃ q, d.board.get? h = some q ∧ Beneath (aim p) p q

/-- A controller at rest, with no deployment in error and no need that a deployer declared. -/
structure Calm (c : Controller β σ) : Prop where
  sound : c.Sound
  rests : ∀ h, c.Rests h
  error : ∀ h p, c.board.get? h = some p → p.error = none
  standing : ∀ {k : Handle} {u : LiveUnit β}, c.forest.get? k = some u →
    ∀ n ∈ u.needs, n.declaredAt = none

theorem Under.note (under : Under aim c d) (entry : Entry β) : Under aim c (d.note entry) :=
  ⟨under.shape, under.chain, under.queue, under.order, under.needs, under.below⟩

/-- Asking for something else leaves deployments where they are. -/
theorem Under.ask (under : Under aim c d) {board : Board} (horder : board.order = d.board.order)
    (hask : ∀ {h : Handle} {p q : Progress}, c.board.get? h = some p → d.board.get? h = some q →
      Beneath (aim p) p q → ∃ r, board.get? h = some r ∧ Beneath (other p) p r) :
    Under other c { d with board } := by
  refine ⟨under.shape, under.chain, under.queue, horder.trans under.order, under.needs,
    fun {h p} hp ↦ ?_⟩
  obtain ⟨q, hq, hbeneath⟩ := under.below hp
  exact hask hp hq hbeneath

theorem Under.above (under : Under aim c d) (hc : c.Sound) (hd : d.Sound)
    (hq : d.board.get? h = some q) : ∃ p, c.board.get? h = some p ∧ Beneath (aim p) p q := by
  have hmem : h ∈ d.board.order := hd.tracked.2 ⟨q, hq⟩
  rw [under.order] at hmem
  obtain ⟨p, hp⟩ := hc.tracked.1 hmem
  obtain ⟨r, hr, hbeneath⟩ := under.below hp
  obtain rfl := Option.some_inj.1 (hq.symm.trans hr)
  exact ⟨p, hp, hbeneath⟩

theorem Under.stays (under : Under aim c d) (hc : c.Sound) (hd : d.Sound) (stays : c.Stays) :
    d.Stays := by
  intro h q hq
  obtain ⟨p, hp, hbeneath⟩ := under.above hc hd hq
  rw [hbeneath.removing]
  exact stays h p hp

theorem Under.home?_eq (under : Under aim c d) (name : String) : d.home? name = c.home? name :=
  home?_congr under.shape name

theorem Under.steady (under : Under aim c d) : Steady c d :=
  ⟨under.shape, under.chain, under.queue, under.order, under.needs⟩

theorem Under.of_steady (steady : Steady c d)
    (hbelow : ∀ {h : Handle} {p : Progress}, c.board.get? h = some p →
      ∃ q, d.board.get? h = some q ∧ Beneath (aim p) p q) : Under aim c d :=
  ⟨steady.shape, steady.chain, steady.queue, steady.order, steady.needs, hbelow⟩

/-- Where none is in error, deployments that are asked for no more can get no further. -/
theorem Under.follows (under : Under aim c d) (calm : Calm c) (hd : d.Sound)
    (haim : ∀ h p, c.board.get? h = some p → (aim p).index ≤ p.requested.index) :
    Follows c.plain c d := by
  refine ⟨under.steady, fun {h q} hq ↦ ?_, fun {h p q} hp _ _ ↦ Or.inl (calm.error h p hp),
    fun {h p q s} hp hq hle hs ↦ ?_⟩
  · obtain ⟨p, hp, hbeneath⟩ := under.above calm.sound hd hq
    have hcontains := calm.sound.stage hp
    exact .starts ⟨p, hp, (Chain.le_iff_index hcontains hcontains).2 (Nat.le_refl _)⟩
      hbeneath.stage
  · obtain ⟨r, hr, hbeneath⟩ := under.below hp
    obtain rfl := Option.some_inj.1 (hr.symm.trans hq)
    rw [hbeneath.requested] at hle
    exact (Chain.le_iff_index hs (calm.sound.requested hp)).2 (Nat.le_trans hle (haim h p hp))

/-- No deployment gets above where it was at rest. -/
theorem Under.index_next_le (under : Under aim c d) (calm : Calm c) (hd : d.Sound)
    (haim : ∀ h p, c.board.get? h = some p → (aim p).index ≤ p.requested.index)
    (hp : c.board.get? h = some p) (hq : d.board.get? h = some q) {next : Stage}
    (hready : d.verdict h = .ready next) : next.index ≤ p.stage.index := by
  have hattains := (under.follows calm hd haim).attains_of_ready calm.sound hd hp hq hready
    fun hfailed ↦ absurd (calm.error h p hp) hfailed
  exact hattains.index_le_of_rests calm.rests calm.sound hp

/-! Turns. -/

/-- A deployment fails to enter a stage only when a deployer has failed. -/
theorem Sound.told_stalled (sound : c.Sound) {next : Stage} {failure : Failure}
    {site : Site β σ}
    (henter : c.site.enterStage crew p.root next = (.error failure, site)) :
    ∃ entry, Told c (c.stalled p next failure site) entry ∧ entry.isTrouble = true := by
  obtain ⟨done, m, pre, k, u, d, cause, _, _, hentered, hleft⟩ :=
    Site.exists_undone (sound.forest.nodup_tree _) henter
  obtain ⟨es, hes, _, hcalls⟩ := hentered.ambient.journal
  obtain ⟨fs, hfs, _⟩ := hleft.ambient.journal
  have hmem : Entry.deployFailed d u.id u.name next cause ∈ es := by
    refine List.mem_of_mem_filter (p := Entry.isCall) ?_
    rw [hcalls]
    exact List.mem_append_right _ (List.mem_cons_of_mem _ List.mem_cons_self)
  refine ⟨.deployFailed d u.id u.name next cause,
    ⟨es ++ fs ++ [.failed p.root p.name next failure], ?_, ?_⟩, rfl⟩
  · have hnoted : (c.stalled p next failure site).journal.toList =
        site.ambient.journal.toList ++ [.failed p.root p.name next failure] := Array.toList_push
    rw [hnoted, hfs, hes, List.append_assoc, List.append_assoc, List.append_assoc]
    rfl
  · exact List.mem_append_left _ (List.mem_append_left _ hmem)

theorem Turn.under (turn : Turn crew d e) (under : Under aim c d) (calm : Calm c) (hd : d.Sound)
    (haim : ∀ h p, c.board.get? h = some p → (aim p).index ≤ p.requested.index)
    (hsmooth : ∀ entry, Told d e entry → entry.Smooth) : Under aim c e := by
  have steady := turn.steady (under.steady.lasting calm.standing) hd
    fun entry htold ↦ (hsmooth entry htold).2
  refine .of_steady (under.steady.trans steady) fun {h x} hx ↦ ?_
  obtain ⟨q, hq, hbeneath⟩ := under.below hx
  obtain ⟨y, hy, _⟩ := (turn.moves hd).exists_get? hq
  refine ⟨y, hy, ?_⟩
  cases turn.turned hd hq hy with
  | kept => exact hbeneath
  | lowered hle =>
    exact ⟨hbeneath.name, hbeneath.removing, hbeneath.error, Nat.le_trans hle hbeneath.stage,
      hbeneath.requested⟩
  | raised hready _ _ =>
    obtain rfl := Board.root_of_get? hq
    exact ⟨hbeneath.name, hbeneath.removing, hbeneath.error,
      under.index_next_le calm hd haim hx hq hready, hbeneath.requested⟩
  | stalled _ henter heq =>
    subst heq
    obtain rfl := Board.root_of_get? hq
    obtain ⟨entry, htold, htrouble⟩ := hd.told_stalled henter
    rw [(hsmooth entry htold).1] at htrouble
    exact absurd htrouble (by simp)
  | parked _ _ =>
    exact ⟨hbeneath.name, hbeneath.removing, hbeneath.error, hbeneath.stage, hbeneath.requested⟩

theorem Turns.under (turns : Turns crew d e) (under : Under aim c d) (calm : Calm c)
    (hd : d.Sound) (haim : ∀ h p, c.board.get? h = some p → (aim p).index ≤ p.requested.index)
    (hsmooth : ∀ entry, Told d e entry → entry.Smooth) : Under aim c e := by
  induction turns with
  | refl => exact under
  | @tail m e first turn ih =>
    have hm := (Turns.sound_moves first hd).1
    have hcontinues := Steps.continues (Turns.steps first) hd
    refine turn.under (ih fun entry htold ↦ hsmooth entry ?_) calm hm haim
      fun entry htold ↦ hsmooth entry (htold.continues hcontinues)
    exact (turn.continues hm).told htold

/-! Coming to rest again. -/

/-- Every stage that a deployment had entered has been entered again, by induction on the rank of
the entries into them. -/
theorem Under.le_stage (under : Under Progress.requested c d) (hd : d.Sound)
    {rank : Handle → Nat → Nat} (ranked : Ranked c rank) (proper : c.Proper) (tidy : c.Tidy)
    (stays : c.Stays) (rests : ∀ h, d.Rests h) (bound : Nat) {i : Nat}
    (hp : c.board.get? h = some p) (hq : d.board.get? h = some q) (hi : i ≤ p.stage.index)
    (hrank : rank h i < bound) :
    i ≤ q.stage.index := by
  induction bound generalizing h p q i with
  | zero => exact absurd hrank (Nat.not_lt_zero _)
  | succ bound ih =>
    by_contra hlt
    obtain ⟨r, hr, hbeneath⟩ := under.below hp
    obtain rfl := Option.some_inj.1 (hq.symm.trans hr)
    have hrequested : p.stage.index ≤ p.requested.index := tidy hp (stays h p hp)
    have hbelow : q.stage.index < q.requested.index := by
      rw [hbeneath.requested]
      omega
    obtain ⟨next, hnext, hwaiting, hne⟩ := exists_missing hd hq (rests h) hbeneath.error hbelow
    have hindex := Chain.index_of_next? hnext
    refine hne (hwaiting ▸ missing_eq_nil_iff.2 fun n hn hle ↦ ?_)
    rw [needs_congr under.shape under.needs] at hn
    have hforce := Stage.index_le_of_le hle
    rw [under.chain] at hforce
    -- the need was met by an entry of lower rank, which has been made again
    obtain ⟨t, x, s, hhome, hx, hs, hsx, hranks⟩ :=
      ranked.met hp n hn (proper h p hp n hn).firm (by omega)
    have hgrows := ranked.grows_le hp (i := (Board.appliesFrom c.chain n).index) (j := i)
      (by omega) hi
    obtain ⟨y, hy, hbeneath'⟩ := under.below hx
    have hsy := ih hx hy hsx (by omega)
    refine shortfall?_eq_none_iff.2 ⟨t, y, s, (under.home?_eq _).trans hhome, hy,
      hbeneath'.error, by rw [under.chain]; exact hs, ?_⟩
    have hcontains := Chain.contains_of_resolve? hs
    rw [← under.chain] at hcontains
    exact (Chain.le_iff_index hcontains (hd.stage hy)).2 hsy

theorem Under.stage_eq (under : Under Progress.requested c d) (hc : c.Sound) (hd : d.Sound)
    {rank : Handle → Nat → Nat} (ranked : Ranked c rank) (proper : c.Proper) (tidy : c.Tidy)
    (stays : c.Stays) (rests : ∀ h, d.Rests h) (hp : c.board.get? h = some p)
    (hq : d.board.get? h = some q) :
    q.stage = p.stage := by
  obtain ⟨r, hr, hbeneath⟩ := under.below hp
  obtain rfl := Option.some_inj.1 (hq.symm.trans hr)
  have hle := under.le_stage hd ranked proper tidy stays rests _ hp hq (Nat.le_refl _)
    (Nat.lt_succ_self _)
  have hcontains := hd.stage hq
  rw [under.chain] at hcontains
  exact Chain.eq_of_index_eq hcontains (hc.stage hp) (Nat.le_antisymm hbeneath.stage hle)

/-- A deployment without a step to take that misses nothing is recorded as waiting for nothing. -/
theorem waiting_eq_nil (sound : c.Sound) (waits : c.Waits) (hp : c.board.get? h = some p)
    (hidle : c.verdict h = .idle) : p.waiting = [] := by
  by_contra hwaiting
  obtain ⟨herror, hlt⟩ := waits hp hwaiting
  obtain rfl := Board.root_of_get? hp
  exact absurd (of_verdict_idle sound hp hidle herror) (Nat.not_le.2 hlt)

/-- Two controllers at rest in which all that verdicts depend on is the same record the same. -/
theorem Resembles.get?_eq (same : Resembles c d) (hc : c.Sound) (hd : d.Sound) (waits : c.Waits)
    (waits' : d.Waits) (rests : ∀ h, c.Rests h) (rests' : ∀ h, d.Rests h) (h : Handle) :
    d.board.get? h = c.board.get? h := by
  rcases same.cases h with ⟨hp, hq⟩ | ⟨p, waiting, hp, hq⟩
  · rw [hp, hq]
  · have hverdict := same.verdict h
    have hwaiting : waiting = p.waiting := by
      rcases rests h p hp with hidle | hblocked
      · have hnone : waiting = [] := waiting_eq_nil hd waits' hq (hverdict.trans hidle)
        rw [hnone, waiting_eq_nil hc waits hp hidle]
      · rcases rests' h _ hq with hidle | hblocked'
        · rw [hverdict, hblocked] at hidle
          exact absurd hidle (by simp)
        · rw [hverdict, hblocked, Verdict.blocked.injEq] at hblocked'
          exact hblocked'.symm
    rw [hp, hq, hwaiting]

/-- Deployments that have come to rest again, asked for what they were asked for before, are tracked
as they were. -/
theorem Under.tracked_eq (under : Under Progress.requested c d) (calm : Calm c) (hd : d.Sound)
    {rank : Handle → Nat → Nat} (ranked : Ranked c rank) (proper : c.Proper) (tidy : c.Tidy)
    (stays : c.Stays) (waits : c.Waits) (waits' : d.Waits) (rests : ∀ h, d.Rests h) :
    d.board.tracked = c.board.tracked := by
  have hsame : Resembles c d := by
    refine ⟨under.chain, needs_congr under.shape under.needs, under.home?_eq, fun h ↦ ?_⟩
    cases hp : c.board.get? h with
    | none =>
      cases hq : d.board.get? h with
      | none => rfl
      | some q =>
        obtain ⟨p, hp', _⟩ := under.above calm.sound hd hq
        rw [hp] at hp'
        exact absurd hp' (by simp)
    | some p =>
      obtain ⟨q, hq, hbeneath⟩ := under.below hp
      have hstage := under.stage_eq calm.sound hd ranked proper tidy stays rests hp hq
      have hroot : q.root = p.root := (Board.root_of_get? hq).trans (Board.root_of_get? hp).symm
      have herror := hbeneath.error.trans (calm.error h p hp).symm
      rw [hq, Option.map_some, Option.map_some, Option.some_inj, Progress.mk.injEq]
      exact ⟨hroot, hbeneath.name, hstage, hbeneath.requested, herror, rfl, hbeneath.removing⟩
  have hget : d.board.get? = c.board.get? :=
    funext (hsame.get?_eq calm.sound hd waits waits' calm.rests rests)
  unfold Board.tracked
  rw [under.order, hget]

end Controller

end Rollout
