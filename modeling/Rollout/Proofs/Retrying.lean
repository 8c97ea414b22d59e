import Rollout.Proofs.HoldingBack
import Rollout.Proofs.KeptErrors

/-!
Bouncing what is in error. A bounce takes a deployment in error down and up again without its error,
as a fresh attempt, and while it is free of error whoever waited for it may go on. Nobody gets
further by a bounce than the fresh attempts allow, and nobody gets further at all when there are
none. In the first two batches, in which those that take part go down and come up again, only others
can get further. In the last one there are no fresh attempts left but for those that have not come
up to where they were, and such a deployment gets further itself only if the passes of the batch
that takes it up are used up before it is there, or if it is left waiting below for somebody who
gets further in the last batch.
-/

set_option autoImplicit false
set_option relaxedAutoImplicit false

namespace Rollout.Controller

variable {β σ : Type} {crew : Crew β σ} {c d e d' d₁ d₂ d₃ : Controller β σ} {h : Handle}
  {p q x : Progress} {ps : List Progress} {target next : Stage} {n : Need}

instance (c : Controller β σ) : Decidable c.Ended :=
  inferInstanceAs (Decidable (∀ entry ∈ lastBatch c.journal.toList, entry.isPassLimit = false))

/-! Who takes part in a bounce. -/

/-- Those that take part in a bounce, as they were, and the stage to which it takes them down. -/
structure Party where
  target : Stage
  members : List Progress

/-- A deployment takes part. -/
def Party.Has (party : Party) (h : Handle) : Prop := h ∈ party.members.map Progress.root

/-- A deployment takes part though it is in error. -/
def Party.Retries (party : Party) (h : Handle) : Prop :=
  ∃ p ∈ party.members, p.root = h ∧ p.error ≠ none

/-- Those that take part when a bounce is called for. Nobody does if the call is refused. -/
def party (c : Controller β σ) (stage : Stage) (names : List String) : Party :=
  match c.aims stage names with
  | .ok (target, roots) => ⟨target, c.bounced target roots⟩
  | .error _ => ⟨stage, []⟩

/-- The batch that takes them up again uses up its passes. -/
def Outruns (crew : Crew β σ) (c : Controller β σ) (party : Party) : Prop :=
  ¬ (c.rebounded crew party.target party.members).Ended

/-- A deployment takes part though it is in error, and the batch that takes it up again leaves it
below where it was, and free of error. -/
def LeftShort (crew : Crew β σ) (c : Controller β σ) (party : Party) (h : Handle) : Prop :=
  ∃ p ∈ party.members, p.root = h ∧ p.error ≠ none ∧
    ∃ q, (c.rebounded crew party.target party.members).board.get? h = some q ∧
      q.error = none ∧ q.stage < p.stage

/-- The terms of the first two batches, in which members go down and come up again. They come up
from the stage to which they have been taken, without the errors that they had, and are taken no
further than they were. -/
def Party.underway (party : Party) (c : Controller β σ) : Terms where
  start h s := ∃ p, c.board.get? h = some p ∧ s ≤ p.stage ∧ (party.Has h → s ≤ party.target)
  goal p s := s ≤ p.requested ∧ (party.Has p.root → s ≤ p.stage)
  freed := party.Retries
  loose := True

/-- The terms of the last batch, in which members are asked for what they were asked for, and are
given back the errors that they had unless they have been left short of where they were. -/
def Party.afterwards (party : Party) (crew : Crew β σ) (c : Controller β σ) : Terms where
  start := c.Attains (party.underway c)
  goal p s := s ≤ p.requested
  freed := c.LeftShort crew party
  loose := c.Outruns crew party

/-- Members are tracked as they are, each once, above the stage to which they are taken. -/
structure Party.Fits (party : Party) (c : Controller β σ) : Prop where
  target : c.chain.contains party.target = true
  nodup : (party.members.map Progress.root).Nodup
  get? : ∀ p ∈ party.members, c.board.get? p.root = some p
  above : ∀ p ∈ party.members, party.target.index < p.stage.index

instance (party : Party) (h : Handle) : Decidable (party.Has h) :=
  inferInstanceAs (Decidable (h ∈ party.members.map Progress.root))

instance (party : Party) (h : Handle) : Decidable (party.Retries h) :=
  inferInstanceAs (Decidable (∃ p ∈ party.members, p.root = h ∧ p.error ≠ none))

instance (crew : Crew β σ) (c : Controller β σ) (party : Party) :
    Decidable (c.Outruns crew party) :=
  inferInstanceAs (Decidable (¬ _))

variable {party : Party} {among : Handle → Prop}

theorem LeftShort.retries (short : c.LeftShort crew party h) : party.Retries h := by
  obtain ⟨p, hmem, hroot, hfailed, _⟩ := short
  exact ⟨p, hmem, hroot, hfailed⟩

theorem Party.Retries.has (retries : party.Retries h) : party.Has h := by
  obtain ⟨p, hmem, rfl, _⟩ := retries
  exact List.mem_map_of_mem hmem

theorem Party.Fits.eq (fits : party.Fits c) (hmem : q ∈ party.members)
    (hp : c.board.get? q.root = some p) : q = p :=
  Option.some_inj.1 ((fits.get? q hmem).symm.trans hp)

theorem Party.Fits.le_requested (fits : party.Fits c) (tidy : c.Tidy) (stays : c.Stays)
    (hmem : p ∈ party.members) : p.stage.index ≤ p.requested.index :=
  tidy (fits.get? p hmem) (stays _ p (fits.get? p hmem))

/-! Deployments that hold each other back. -/

/-- A deployment is below what a need asks for. -/
def StandsBelow (c : Controller β σ) (t : Handle) (n : Need) : Prop :=
  ∀ q ∈ c.board.get? t, ∀ r ∈ c.chain.resolve? n.atLeast, q.stage.index < r.index

instance (c : Controller β σ) (t : Handle) (n : Need) : Decidable (c.StandsBelow t n) :=
  inferInstanceAs (Decidable (∀ q ∈ c.board.get? t, ∀ r ∈ c.chain.resolve? n.atLeast,
    q.stage.index < r.index))

/-- A need that applies in a stage is not met, and could be met by one of these deployments only. If
that one takes part though it is in error, both of them take part, or its error is not all that
keeps the other from what it lacks. -/
def Lacks (c : Controller β σ) (party : Party) (among : Handle → Prop) (h : Handle) (next : Stage)
    (n : Need) : Prop :=
  Board.appliesFrom c.chain n ≤ next ∧ c.board.shortfall? c.chain c.forest n ≠ none ∧
    ∀ t ∈ c.home? n.target, among t ∧ (party.Retries t → ¬ party.Has h → c.StandsBelow t n)

instance (c : Controller β σ) (party : Party) (among : Handle → Prop) [DecidablePred among]
    (h : Handle) (next : Stage) (n : Need) : Decidable (c.Lacks party among h next n) :=
  inferInstanceAs (Decidable (_ ∧ _ ∧ ∀ t ∈ c.home? n.target, _))

/-- None of these deployments is left short in a bounce, and each that is free of error and asked
for more lacks something for its next stage that it could only have of one of them. -/
structure Holds (crew : Crew β σ) (c : Controller β σ) (party : Party) (among : Handle → Prop) :
    Prop where
  apart : ∀ h, among h → ¬ c.LeftShort crew party h
  lacking : ∀ {h : Handle} {p : Progress} {next : Stage}, among h → c.board.get? h = some p →
    p.error = none → p.stage.index < p.requested.index → c.chain.next? p.stage = some next →
    ∃ n ∈ c.needs h, c.Lacks party among h next n

/-- How deployments stand before the last batch of a bounce: whoever is below where it was and free
of error misses something for its next stage, and whoever was in error and is free of it now is
below where it was. -/
structure Halted (terms : Terms) (c e : Controller β σ) : Prop where
  missing : ∀ {h : Handle} {p x : Progress} {next : Stage}, c.board.get? h = some p →
    e.board.get? h = some x → x.error = none → x.stage.index < p.stage.index →
    ¬ x.requested ≤ x.stage → e.chain.next? x.stage = some next →
    e.board.missing e.chain e.forest h next ≠ []
  below : ∀ {h : Handle} {p x : Progress}, terms.freed h → c.board.get? h = some p →
    e.board.get? h = some x → x.stage.index < p.stage.index

/-- Deployments in the last batch of a bounce: unless nothing keeps them below where they were, none
that was below, and is not undercut, has got any further since. -/
structure Lingers (terms : Terms) (c e d : Controller β σ) : Prop extends Follows terms c d where
  error_since : ∀ {h : Handle} {x q : Progress}, e.board.get? h = some x →
    d.board.get? h = some q → q.error = none → x.error = none
  requested_since : ∀ {h : Handle} {x q : Progress}, e.board.get? h = some x →
    d.board.get? h = some q → q.requested = x.requested
  below : ¬ terms.loose → ∀ {h : Handle} {p x q : Progress}, ¬ c.Undercut terms h →
    c.board.get? h = some p → e.board.get? h = some x → d.board.get? h = some q →
    x.stage.index < p.stage.index → q.stage.index ≤ x.stage.index

variable {terms : Terms}

theorem Lingers.refl (follows : Follows terms c e) : Lingers terms c e e := by
  refine ⟨follows, fun hx hq herror ↦ ?_, fun hx hq ↦ ?_, fun _ {_ _ _ _} _ _ hx hq _ ↦ ?_⟩ <;>
    obtain rfl := Option.some_inj.1 (hx.symm.trans hq)
  · exact herror
  · rfl
  · exact Nat.le_refl _

/-- If somebody that was below where it had been is ready to go further, a need that was in force
where it had been has been met since. -/
theorem Lingers.exists_met (lingers : Lingers terms c e d) (halted : Halted terms c e)
    (steady : Steady c e) (hc : c.Sound) (he : e.Sound) (hd : d.Sound)
    (hp : c.board.get? h = some p) (hx : e.board.get? h = some x) (hq : d.board.get? h = some q)
    (hready : d.verdict h = .ready next) (hlt : x.stage.index < p.stage.index)
    (hle : q.stage.index ≤ x.stage.index) (hover : x.stage.index < next.index) :
    ∃ n ∈ c.needs h, Board.appliesFrom c.chain n ≤ p.stage ∧
      e.board.shortfall? e.chain e.forest n ≠ none ∧
      d.board.shortfall? d.chain d.forest n = none := by
  obtain rfl := Board.root_of_get? hq
  obtain ⟨herror, hbelow, hnext, hmissing⟩ := of_verdict_ready hq hready
  have hindex := Chain.index_of_next? hnext
  have hstage : q.stage = x.stage := by
    have hcontains := hd.stage hq
    rw [lingers.chain, ← steady.chain] at hcontains
    exact Chain.eq_of_index_eq hcontains (he.stage hx) (by omega)
  rw [lingers.requested_since hx hq, hstage] at hbelow
  rw [hstage, lingers.chain, ← steady.chain] at hnext
  obtain ⟨n, hn, happlies, hshort⟩ := exists_short
    (halted.missing hp hx (lingers.error_since hx hq herror) hlt hbelow hnext)
  rw [steady.needs_eq] at hn
  rw [steady.chain] at happlies
  refine ⟨n, hn, ?_, hshort, missing_eq_nil_iff.1 hmissing n ?_ ?_⟩
  · rw [Chain.le_iff_index (contains_appliesFrom c.chain n) (hc.stage hp)]
    have := Stage.index_le_of_le happlies
    omega
  · rwa [lingers.needs_eq]
  · rwa [lingers.chain]

/-- Nobody that was below where it had been, and is not undercut, is ready to go further: what it
misses would have to be met by somebody else who has got further first. -/
theorem Lingers.index_next_le (lingers : Lingers terms c e d) (halted : Halted terms c e)
    (steady : Steady c e) (hc : c.Sound) (he : e.Sound) (hd : d.Sound) (hbound : ¬ terms.loose)
    (hcut : ¬ c.Undercut terms h) (hp : c.board.get? h = some p)
    (hx : e.board.get? h = some x) (hq : d.board.get? h = some q)
    (hready : d.verdict h = .ready next) (hlt : x.stage.index < p.stage.index) :
    next.index ≤ x.stage.index := by
  have hle := lingers.below hbound hcut hp hx hq hlt
  by_contra hover
  obtain ⟨n, hn, hforce, hshort, hmet⟩ := lingers.exists_met halted steady hc he hd hp hx hq hready
    hlt hle (Nat.lt_of_not_le hover)
  obtain ⟨t, y, z, r, hasks, hstarts, hattains, hz, hfree, hrz⟩ :=
    lingers.toFollows.exists_asks hc hd hmet
  obtain ⟨w, hw⟩ := hd.exists_get? he (lingers.order.trans steady.order.symm) hz
  have hcontains := Chain.contains_of_resolve? hasks.stage
  have hwr : w.stage.index < r.index := by
    refine Asks.index_lt (c := e) ⟨?_, hw, ?_⟩ he hshort (lingers.error_since hw hz hfree)
    · rw [steady.home?_eq]
      exact hasks.home
    · rw [steady.chain]
      exact hasks.stage
  by_cases hry : r.index ≤ y.stage.index
  · -- the target had been there, so it was below where it had been too
    have hback := (Chain.le_iff_index hcontains (hc.stage hasks.progress)).2 hry
    have hfree' : ¬ c.Undercut terms t := fun hundercut ↦
      hcut (.through hp hn hforce hasks hback hstarts hundercut)
    have hzw := lingers.below hbound hfree' hasks.progress hw hz (by omega)
    omega
  · exact hcut (.lacking hp hn hforce hasks (Stage.lt_of_index_lt (by omega)) hattains)

theorem Turn.lingers (turn : Turn crew d d') (lingers : Lingers terms c e d)
    (halted : ¬ terms.loose → Halted terms c e) (steady : Steady c e) (lasting : c.Lasting)
    (hc : c.Sound) (he : e.Sound) (hd : d.Sound)
    (standing : ∀ entry, Told d d' entry → ∀ n ∈ entry.needs, n.declaredAt = none) :
    Lingers terms c e d' := by
  have hmoves := turn.moves hd
  refine ⟨turn.follows lingers.toFollows lasting hc hd ?_ standing, fun {h x y} hx hy herror ↦ ?_,
    fun {h x y} hx hy ↦ ?_, fun hbound {h p x y} hcut hp hx hy hlt ↦ ?_⟩
  · intro h p q next hp hq hready hfreed hbound hlt
    by_contra hcut
    obtain ⟨x, hx⟩ := hd.exists_get? he (lingers.order.trans steady.order.symm) hq
    have hbelow := (halted hbound).below hfreed hp hx
    have hle := lingers.index_next_le (halted hbound) steady hc he hd hbound hcut hp hx hq hready
      hbelow
    omega
  · obtain ⟨q, hq, _⟩ := hmoves.get? hy
    refine lingers.error_since hx hq ?_
    cases turn.turned hd hq hy with
    | kept | lowered _ | raised _ _ _ | parked _ _ => exact herror
    | stalled _ _ _ => exact absurd herror (by simp)
  · obtain ⟨q, hq, _⟩ := hmoves.get? hy
    rw [(hmoves.aims hq hy).1]
    exact lingers.requested_since hx hq
  · obtain ⟨q, hq, _⟩ := hmoves.get? hy
    have hle := lingers.below hbound hcut hp hx hq hlt
    cases turn.turned hd hq hy with
    | kept | stalled _ _ _ | parked _ _ => exact hle
    | lowered hlow => exact Nat.le_trans hlow hle
    | raised hready _ _ =>
      obtain rfl := Board.root_of_get? hq
      exact lingers.index_next_le (halted hbound) steady hc he hd hbound hcut hp hx hq hready hlt

theorem Turns.lingers (turns : Turns crew e d) (follows : Follows terms c e)
    (halted : ¬ terms.loose → Halted terms c e) (lasting : c.Lasting) (hc : c.Sound) (he : e.Sound)
    (standing : ∀ entry, Told e d entry → ∀ n ∈ entry.needs, n.declaredAt = none) :
    Lingers terms c e d := by
  induction turns with
  | refl => exact .refl follows
  | @tail m d first turn ih =>
    have hm := (Turns.sound_moves first he).1
    have hcontinues := Steps.continues (Turns.steps first) he
    refine turn.lingers (ih fun entry htold ↦ standing entry ?_) halted follows.toSteady lasting hc
      he hm fun entry htold ↦ standing entry (htold.continues hcontinues)
    exact (turn.continues hm).told htold

/-! The three of them. -/

theorem Stays.reask (stays : d.Stays) {f : Progress → Progress → Progress} {board : Board}
    (reasks : Reasks ps f d.board board) (hremoving : ∀ p q, (f p q).removing = q.removing) :
    Stays { d with board } := by
  intro h r hr
  rcases reasks.cases hr with ⟨_, hq⟩ | ⟨p, _, _, q, hq, rfl⟩
  · exact stays h r hq
  · exact (hremoving p q).trans (stays h q hq)

/-- What is met once errors have been given back was met before. -/
theorem shortfall?_of_returning (hnodup : (ps.map Progress.root).Nodup)
    (hmet : (d.returning ps).board.shortfall? d.chain d.forest n = none) :
    d.board.shortfall? d.chain d.forest n = none := by
  obtain ⟨t, x, r, hhome, hx, herror, hr, hle⟩ :=
    shortfall?_eq_none_iff (c := d.returning ps).1 hmet
  refine shortfall?_eq_none_iff.2 ?_
  rcases (reasks_returning hnodup d).cases hx with ⟨_, hq⟩ | ⟨p, _, rfl, q, hq, rfl⟩
  · exact ⟨t, x, r, hhome, hq, herror, hr, hle⟩
  · refine ⟨p.root, q, r, hhome, hq, ?_, hr, hle⟩
    by_contra hfailed
    rw [reinstated_of_kept (Or.inr fun hback ↦ hfailed hback.1)] at herror
    exact hfailed herror

section Batches

variable (bounces : Bounces crew party.target party.members c d₁ d₂ d₃) (fits : party.Fits c)
  (hc : c.Sound) (tidy : c.Tidy) (stays : c.Stays)

include fits hc tidy stays

omit hc tidy in
/-- Once all have come down, each member is at the stage to which it was to be taken, or below, and
all others are where they were, or below. -/
theorem Party.Fits.fallen_cases {m : Controller β σ}
    (hsunk : (c.sinking party.target party.members).Sound)
    (falls : Falls crew (c.sinking party.target party.members) m)
    {y : Progress} (hy : m.board.get? h = some y) :
    (¬ party.Has h ∧ ∃ p, c.board.get? h = some p ∧ y.stage.index ≤ p.stage.index ∧
        y.error = p.error ∧ y.requested = p.requested) ∨
      ∃ p ∈ party.members, p.root = h ∧ y.stage.index ≤ party.target.index ∧
        y.requested = party.target := by
  have lowers := Batch.lowers_of_falls falls hsunk
  obtain ⟨q, hq, _⟩ := lowers.alike.get? hy
  obtain ⟨s, hs, hle, _⟩ := lowers.stage hq
  obtain rfl := Option.some_inj.1 (hs.symm.trans hy)
  rcases (reasks_sinking fits.nodup party.target c).cases hq with
    ⟨hout, hp⟩ | ⟨p, hmem, rfl, r, hr, rfl⟩
  · exact Or.inl ⟨hout, q, hp, hle, rfl, rfl⟩
  · have hlow := (Batch.turns_of_falls falls hsunk).2 _ _ hy
    rw [asked_of_staying (stays _ r hr) party.target] at hlow ⊢
    exact Or.inr ⟨p, hmem, rfl, hlow, rfl⟩

/-- So far they have only gone where they can get. -/
theorem Party.Fits.follows_fallen (lasting : c.Lasting) {m : Controller β σ}
    (hsunk : (c.sinking party.target party.members).Sound)
    (falls : Falls crew (c.sinking party.target party.members) m) :
    Follows (party.underway c) c m := by
  have lowers := Batch.lowers_of_falls falls hsunk
  have steady : Steady c (c.sinking party.target party.members) :=
    ((Steady.refl c).note (.bouncing party.target (party.members.map Progress.root))).ask
      (reasks_sinking fits.nodup party.target c).order
  refine ⟨steady.trans (lowers.steady (steady.lasting lasting)), fun {h y} hy ↦ ?_,
    fun {h x y} hx hy herror ↦ ?_, fun {h x y s} hx hy hle hs ↦ ?_⟩
  · rcases fits.fallen_cases stays hsunk falls hy with ⟨hout, p, hp, hstage, _⟩ | ⟨p, hmem, rfl, hstage, _⟩
    · refine .starts ⟨p, hp, ?_, fun hmember ↦ absurd hmember hout⟩ hstage
      exact (Chain.le_iff_index (hc.stage hp) (hc.stage hp)).2 (Nat.le_refl _)
    · have hp := fits.get? p hmem
      refine .starts ⟨p, hp, ?_, fun _ ↦ ?_⟩ hstage
      · exact (Chain.le_iff_index fits.target (hc.stage hp)).2 (Nat.le_of_lt (fits.above p hmem))
      · exact (Chain.le_iff_index fits.target fits.target).2 (Nat.le_refl _)
  · rcases fits.fallen_cases stays hsunk falls hy with ⟨_, p, hp, _, hsame, _⟩ | ⟨p, hmem, rfl, _⟩
    · obtain rfl := Option.some_inj.1 (hp.symm.trans hx)
      exact Or.inl (hsame.symm.trans herror)
    · obtain rfl := fits.eq hmem hx
      by_cases hfree : p.error = none
      · exact Or.inl hfree
      · exact Or.inr ⟨p, hmem, rfl, hfree⟩
  · rcases fits.fallen_cases stays hsunk falls hy with ⟨hout, p, hp, _, _, hsame⟩ | ⟨p, hmem, rfl, _, hsame⟩
    · obtain rfl := Option.some_inj.1 (hp.symm.trans hx)
      rw [hsame] at hle
      exact ⟨(Chain.le_iff_index hs (hc.requested hp)).2 hle,
        fun hmember ↦ absurd (Board.root_of_get? hp ▸ hmember) hout⟩
    · obtain rfl := fits.eq hmem hx
      rw [hsame] at hle
      have habove := fits.above p hmem
      have hrequested := fits.le_requested tidy stays hmem
      exact ⟨(Chain.le_iff_index hs (hc.requested hx)).2 (by omega),
        fun _ ↦ (Chain.le_iff_index hs (hc.stage hx)).2 (by omega)⟩

include bounces

variable (hqueue : c.queue = []) (lasting : c.Lasting)

include hqueue lasting

/-- Down to the stage. -/
theorem Bounces.follows_first
    (standing : ∀ entry, Told c d₁ entry → ∀ n ∈ entry.needs, n.declaredAt = none) :
    Follows (party.underway c) c d₁ := by
  have hsunk := Steps.sound bounces.sinks hc
  obtain ⟨m, k, tally, rfl, hfalls, hturns, _⟩ := exists_process_calm hsunk hqueue
    (stays.reask (reasks_sinking fits.nodup party.target c) fun _ _ ↦ rfl) bounces.first
  have hfallen := (Batch.turns_of_falls hfalls hsunk).1
  have hm := (Turns.sound_moves hfallen hsunk).1
  have hsteps := bounces.sinks.trans hfallen.steps
  refine (Turns.follows hturns (fits.follows_fallen hc tidy stays lasting hsunk hfalls) trivial
    lasting hc hm fun entry htold ↦ standing entry ?_).note _
  exact (continues_note _ _).told (htold.continues (Steps.continues hsteps hc))

/-- Up to where it was. -/
theorem Bounces.follows_second
    (standing : ∀ entry, Told c d₂ entry → ∀ n ∈ entry.needs, n.declaredAt = none) :
    Follows (party.underway c) c d₂ := by
  have hsunk := Steps.sound bounces.sinks hc
  have hd₁ := Steps.sound (hsunk.steps_of_process bounces.first) hsunk
  have hrises := (bounces.steps hc).1
  have hrisen := Steps.sound hrises hc
  have hsecond := hrisen.steps_of_process bounces.second
  have hrest : Continues d₁ d₂ := Steps.continues (.head bounces.rises hsecond) hd₁
  have reasks := reasks_rising fits.nodup d₁
  have first := bounces.follows_first fits hc tidy stays hqueue lasting fun entry htold ↦
    standing entry (hrest.told htold)
  have follows : Follows (party.underway c) c (d₁.rising party.members) := by
    refine ⟨first.toSteady.ask reasks.order, fun {h y} hy ↦ ?_, fun {h x y} hx hy herror ↦ ?_,
      fun {h x y s} hx hy hle hs ↦ ?_⟩ <;>
      rcases reasks.cases hy with ⟨_, hq⟩ | ⟨p, hmem, rfl, q, hq, rfl⟩
    · exact first.attains hq
    · exact first.attains (q := q) hq
    · exact first.error hx hq herror
    · exact first.error (q := q) hx hq herror
    · exact first.goal hx hq hle hs
    · obtain rfl := fits.eq hmem hx
      have hrequested := fits.le_requested tidy stays hmem
      exact ⟨(Chain.le_iff_index hs (hc.requested hx)).2 (Nat.le_trans hle hrequested),
        fun _ ↦ (Chain.le_iff_index hs (hc.stage hx)).2 hle⟩
  have hstays : d₁.Stays := fun _ _ hq ↦ (hsunk.finished_of_process bounces.first).staying hq
  obtain ⟨m, k, tally, rfl, hfalls, hturns, _⟩ := exists_process_calm hrisen
    (follows.queue.trans hqueue) (hstays.reask reasks fun _ _ ↦ rfl) bounces.second
  refine (Turns.follows ((Batch.turns_of_falls hfalls hrisen).1.trans hturns) follows trivial
    lasting hc hrisen fun entry htold ↦ standing entry ?_).note _
  exact (continues_note _ _).told (htold.continues (Steps.continues hrises hc))

/-- With all that was asked for asked for again, and errors given back, the last batch begins where
the second has ended. -/
theorem Bounces.follows_returning
    (standing : ∀ entry, Told c d₂ entry → ∀ n ∈ entry.needs, n.declaredAt = none) :
    Follows (party.afterwards crew c) c (d₂.returning party.members) := by
  have second := bounces.follows_second fits hc tidy stays hqueue lasting standing
  have hd₂ := bounces.sound_second hc
  have reasks := reasks_returning fits.nodup d₂
  refine ⟨second.toSteady.ask reasks.order, fun {h y} hy ↦ ?_, fun {h x y} hx hy herror ↦ ?_,
    fun {h x y s} hx hy hle hs ↦ ?_⟩ <;>
    rcases reasks.cases hy with ⟨hout, hq⟩ | ⟨p, hmem, rfl, q, hq, rfl⟩
  · exact .starts (second.attains hq) (Nat.le_refl _)
  · exact .starts (second.attains (q := q) hq) (Nat.le_refl _)
  · exact Or.inl ((second.error hx hq herror).resolve_right fun hretried ↦ hout hretried.has)
  · obtain rfl := fits.eq hmem hx
    by_cases hfailed : p.error = none
    · exact Or.inl hfailed
    · obtain ⟨failure, hfailure⟩ := Option.ne_none_iff_exists'.1 hfailed
      have hgone : ¬ (q.error = none ∧ q.stage = p.stage) := fun hback ↦ by
        rw [reinstated_of_back hfailure hback.1 hback.2] at herror
        exact absurd herror (by simp)
      rw [reinstated_of_kept (Or.inr hgone)] at herror
      obtain ⟨q', hq', _, _, hle⟩ :=
        bounces.exists_risen hc fits.nodup hmem hx (stays _ _ hx)
      obtain rfl := Option.some_inj.1 (hq.symm.trans hq')
      have hcontains := hd₂.stage hq
      rw [bounces.chain_second hc] at hcontains
      refine Or.inr ⟨p, hmem, rfl, hfailed, q, ?_, herror, ?_⟩
      · rw [bounces.rebounded_eq]
        exact hq
      · exact Stage.lt_of_index_lt (Nat.lt_of_le_of_ne hle fun heq ↦
          hgone ⟨herror, Chain.eq_of_index_eq hcontains (hc.stage hx) heq⟩)
  · exact (second.goal hx hq hle hs).1
  · obtain rfl := fits.eq hmem hx
    exact (Chain.le_iff_index hs (hc.requested hx)).2 hle

omit tidy hqueue lasting in
/-- When the second batch has left all at rest, whoever is below where it was has been halted. -/
theorem Bounces.halted (rests : ∀ h, d₂.Rests h) :
    Halted (party.afterwards crew c) c (d₂.returning party.members) := by
  have reasks := reasks_returning fits.nodup d₂
  refine ⟨fun {h p x next} hp hx herror hlt hbelow hnext hmissing ↦ ?_,
    fun {h p x} hfreed hp hx ↦ ?_⟩
  · have hmet : d₂.board.missing d₂.chain d₂.forest h next = [] :=
      missing_eq_nil_iff.2 fun n hn happlies ↦
        shortfall?_of_returning fits.nodup (missing_eq_nil_iff.1 hmissing n hn happlies)
    rcases reasks.cases hx with ⟨_, hq⟩ | ⟨y, hmem, rfl, q, hq, rfl⟩
    · exact (rests h).still.missing_ne_nil hq herror hbelow hnext hmet
    · obtain rfl := fits.eq hmem hp
      obtain ⟨q', hq', hrequested, _⟩ :=
        bounces.exists_risen hc fits.nodup hmem hp (stays _ _ hp)
      obtain rfl := Option.some_inj.1 (hq.symm.trans hq')
      change q.stage.index < y.stage.index at hlt
      change d₂.chain.next? q.stage = some next at hnext
      have hshort : ¬ (q.error = none ∧ q.stage = y.stage) := fun hback ↦ by
        rw [hback.2] at hlt
        exact Nat.lt_irrefl _ hlt
      rw [reinstated_of_kept (Or.inr hshort)] at herror
      refine (rests _).still.missing_ne_nil hq herror (fun hreached ↦ ?_) hnext hmet
      rw [hrequested] at hreached
      exact Nat.not_le.2 hlt (Stage.index_le_of_le hreached)
  · obtain ⟨y, hmem, rfl, _, q, hq, _, hlt⟩ := hfreed
    obtain rfl := fits.eq hmem hp
    rw [bounces.rebounded_eq] at hq
    obtain rfl : reinstated y q = x := by
      have hget := reasks.each y hmem
      rw [hq, hx] at hget
      exact (Option.some_inj.1 hget).symm
    have hcontains := (bounces.sound_second hc).stage hq
    rw [bounces.chain_second hc] at hcontains
    exact (Chain.lt_iff_index hcontains (hc.stage hp)).1 hlt

/-- A bounce takes nobody further than it can get. -/
theorem Bounces.follows (rests : ¬ c.Outruns crew party → ∀ h, d₂.Rests h)
    (standing : ∀ entry, Told c d₃ entry → ∀ n ∈ entry.needs, n.declaredAt = none) :
    Follows (party.afterwards crew c) c d₃ := by
  obtain ⟨hrises, hreturns⟩ := bounces.steps hc
  have hrisen := Steps.sound hrises hc
  have hsteps := hrises.trans hreturns
  have hreturned := Steps.sound hsteps hc
  have follows := bounces.follows_returning fits hc tidy stays hqueue lasting fun entry htold ↦
    standing entry ((bounces.continues_third hc).told htold)
  have hstays : d₂.Stays := fun _ _ hq ↦ (hrisen.finished_of_process bounces.second).staying hq
  obtain ⟨m, k, tally, rfl, hfalls, hturns, _⟩ := exists_process_calm hreturned
    (follows.queue.trans hqueue) (hstays.reask (reasks_returning fits.nodup d₂) fun _ _ ↦ rfl)
    bounces.third
  refine (Turns.lingers ((Batch.turns_of_falls hfalls hreturned).1.trans hturns) follows
    (fun hbound ↦ bounces.halted fits hc stays (rests hbound)) lasting hc hreturned
    fun entry htold ↦ standing entry ?_).toFollows.note _
  exact (continues_note _ _).told (htold.continues (Steps.continues hsteps hc))

end Batches

/-! All bounces. -/

/-- The stages and the errors of what is tracked. -/
def standings (c : Controller β σ) : List (String × Nat × Bool) :=
  c.board.tracked.map fun p ↦ (p.name, p.stage.index, p.error.isSome)

end Rollout.Controller
