import Rollout.Proofs.Quiescence

/-!
The errors of deployments. A batch never frees a deployment of its error, and puts one in error only
when it tells that it failed to go up. So what becomes of an error in a bounce is up to what the
bounce asks for: whoever takes part starts afresh, and is given the old error back if it has come to
where it was without a new one. One that is stopped on its way up, because it misses something or
because the passes are used up, has lost it.
-/

set_option autoImplicit false
set_option relaxedAutoImplicit false

namespace Rollout.Controller

variable {β σ : Type} {crew : Crew β σ} {b c d e d₁ d₂ d₃ : Controller β σ} {h : Handle}
  {p q r : Progress} {ps : List Progress} {target : Stage}

/-! Batches. -/

/-- A deployment has the error it had, or it was free of error and has failed to go up since. -/
structure Fares (c d : Controller β σ) (p q : Progress) : Prop where
  root : q.root = p.root
  name : q.name = p.name
  error : q.error = p.error ∨ p.error = none ∧ ∃ next failure, q.error = some failure ∧
    Told c d (.failed p.root p.name next failure)

theorem Fares.of_eq (hroot : q.root = p.root) (hname : q.name = p.name)
    (herror : q.error = p.error) : Fares c d p q :=
  ⟨hroot, hname, Or.inl herror⟩

theorem Fares.widen (fares : Fares c d p q) (before : Continues b c) (after : Continues d e) :
    Fares b e p q := by
  refine ⟨fares.root, fares.name, ?_⟩
  rcases fares.error with hsame | ⟨hfree, next, failure, hfailed, htold⟩
  · exact Or.inl hsame
  · exact Or.inr ⟨hfree, next, failure, hfailed, after.told (htold.continues before)⟩

theorem Fares.trans (first : Fares c d p q) (second : Fares c d q r) : Fares c d p r := by
  refine ⟨second.root.trans first.root, second.name.trans first.name, ?_⟩
  rcases second.error with hsame | ⟨hfree, next, failure, hfailed, htold⟩
  · rw [hsame]
    exact first.error
  · rcases first.error with hsame' | ⟨_, _, _, hfailed', _⟩
    · rw [first.root, first.name] at htold
      exact Or.inr ⟨hsame'.symm.trans hfree, next, failure, hfailed, htold⟩
    · rw [hfree] at hfailed'
      exact absurd hfailed' (by simp)

/-- An error that a deployment has stays with it. -/
theorem Fares.error_eq (fares : Fares c d p q) {failure : Failure}
    (herror : p.error = some failure) : q.error = some failure := by
  rcases fares.error with hsame | ⟨hfree, _⟩
  · rw [hsame, herror]
  · rw [herror] at hfree
    exact absurd hfree (by simp)

/-- A deployment that had no error and has one has failed. -/
theorem Fares.exists_told (fares : Fares c d p q) {failure : Failure} (hfree : p.error = none)
    (herror : q.error = some failure) : ∃ next, Told c d (.failed p.root p.name next failure) := by
  rcases fares.error with hsame | ⟨_, next, failure', hfailed, htold⟩
  · rw [hsame, hfree] at herror
    exact absurd herror (by simp)
  · obtain rfl := Option.some_inj.1 (herror.symm.trans hfailed)
    exact ⟨next, htold⟩

theorem Turn.fares (turn : Turn crew c d) (sound : c.Sound) (hp : c.board.get? h = some p)
    (hq : d.board.get? h = some q) : Fares c d p q := by
  cases turn.turned sound hp hq with
  | kept | lowered _ | raised _ _ _ | parked _ _ => exact .of_eq rfl rfl rfl
  | @stalled next failure site hready henter heq =>
    obtain rfl := Board.root_of_get? hp
    refine ⟨rfl, rfl, Or.inr ⟨(of_verdict_ready hp hready).1, next, failure, rfl, ?_⟩⟩
    rw [heq]
    exact sound.told_failed henter

theorem Turns.fares (turns : Turns crew c d) (sound : c.Sound) (hp : c.board.get? h = some p)
    (hq : d.board.get? h = some q) : Fares c d p q := by
  induction turns generalizing q with
  | refl =>
    obtain rfl := Option.some_inj.1 (hp.symm.trans hq)
    exact .of_eq rfl rfl rfl
  | tail first turn ih =>
    obtain ⟨hm, hmoves⟩ := Turns.sound_moves first sound
    obtain ⟨r, hr⟩ := hmoves.tracked hp
    exact ((ih hr).widen (.refl c) (turn.continues hm)).trans ((turn.fares hm hr hq).widen
      (Steps.continues (Turns.steps first) sound) (.refl _))

/-- Whoever is not to be removed keeps its error in a batch, and gets one only by failing. -/
theorem Sound.fares_process (sound : c.Sound) (hprocess : c.process crew = (.ok (), d))
    (hp : c.board.get? h = some p) (hremoving : p.removing = false) :
    ∃ q, d.board.get? h = some q ∧ Fares c d p q := by
  obtain ⟨m, k, e, tally, heq, hparts⟩ := exists_parts crew sound
  obtain rfl : e.note (.completed tally) = d := congrArg Prod.snd (heq.symm.trans hprocess)
  obtain ⟨hm, hk, _⟩ := hparts.sound sound
  obtain ⟨q, hq, hqk, _⟩ := hparts.exists_get? sound hp hremoving
  obtain ⟨r, hr, _⟩ := (Turns.sound_moves hparts.second hk).2.exists_get? hqk
  have hfirst := Turns.fares hparts.first sound hp hq
  have hsecond := Turns.fares hparts.second hk hqk hr
  have hover := continues_note e (.completed tally)
  have hrest := Steps.continues ((hparts.replaced sound).trans hparts.second.steps) hm
  exact ⟨r, hr, (hfirst.widen (.refl c) (hrest.trans hover)).trans
    (hsecond.widen (Steps.continues (hparts.planned sound) sound) hover)⟩

/-! Bounces. -/

theorem exists_get?_rising (hnodup : (ps.map Progress.root).Nodup)
    (hp : d.board.get? h = some p) (hremoving : p.removing = false) :
    ∃ q, (d.rising ps).board.get? h = some q ∧ q.removing = false ∧ Fares c e p q := by
  have reasks := reasks_rising hnodup d
  by_cases hh : h ∈ ps.map Progress.root
  · obtain ⟨x, hx, rfl⟩ := List.mem_map.1 hh
    have hget := reasks.each x hx
    rw [hp, Option.map_some] at hget
    exact ⟨_, hget, hremoving, .of_eq rfl rfl rfl⟩
  · exact ⟨p, (reasks.other h hh).trans hp, hremoving, .of_eq rfl rfl rfl⟩

/-- What becomes of errors while deployments are taken down and up again. -/
theorem Bounces.fares_second (bounces : Bounces crew target ps c d₁ d₂ d₃) (sound : c.Sound)
    (hnodup : (ps.map Progress.root).Nodup)
    (hp : (c.sinking target ps).board.get? h = some p) (hremoving : p.removing = false) :
    ∃ r, d₂.board.get? h = some r ∧ r.removing = false ∧ Fares c d₂ p r := by
  have hsunk := Steps.sound bounces.sinks sound
  have hrises := (bounces.steps sound).1
  have hrisen := Steps.sound hrises sound
  have hsecond := Steps.continues (hrisen.steps_of_process bounces.second) hrisen
  have hrest : Continues d₁ d₂ := (bounces.rises.continues
    (Steps.sound (hsunk.steps_of_process bounces.first) hsunk)).trans hsecond
  obtain ⟨q, hq, hfares⟩ := hsunk.fares_process bounces.first hp hremoving
  have hgoing := (hsunk.finished_of_process bounces.first).staying hq
  obtain ⟨q', hq', hgoing', hfares'⟩ := exists_get?_rising (c := c) (e := d₂) hnodup hq hgoing
  obtain ⟨r, hr, hfares''⟩ := hrisen.fares_process bounces.second hq' hgoing'
  refine ⟨r, hr, (hrisen.finished_of_process bounces.second).staying hr, ?_⟩
  exact ((hfares.widen (Steps.continues bounces.sinks sound) hrest).trans hfares').trans
    (hfares''.widen (Steps.continues hrises sound) (.refl d₂))

theorem Bounces.fares_third (bounces : Bounces crew target ps c d₁ d₂ d₃) (sound : c.Sound)
    (hr : (d₂.returning ps).board.get? h = some r) (hremoving : r.removing = false) :
    ∃ q, d₃.board.get? h = some q ∧ Fares c d₃ r q := by
  obtain ⟨hrises, hreturns⟩ := bounces.steps sound
  have hsteps := hrises.trans hreturns
  obtain ⟨q, hq, hfares⟩ :=
    (Steps.sound hsteps sound).fares_process bounces.third hr hremoving
  exact ⟨q, hq, hfares.widen (Steps.continues hsteps sound) (.refl d₃)⟩

/-- The controller when a bounce has taken deployments down and up again, before it gives them back
what they were asked for and the errors that they had. -/
def rebounded (crew : Crew β σ) (target : Stage) (ps : List Progress) (c : Controller β σ) :
    Controller β σ :=
  ((((c.sinking target ps).process crew).2.rising ps).process crew).2

theorem Bounces.rebounded_eq (bounces : Bounces crew target ps c d₁ d₂ d₃) :
    c.rebounded crew target ps = d₂ := by
  unfold rebounded
  rw [bounces.first, bounces.second]

/-- What becomes of the error of a deployment that takes part in a bounce, by how it stands when it
has been taken down and up again. -/
structure Regains (c d : Controller β σ) (p r q : Progress) : Prop where
  back : ∀ failure, p.error = some failure → r.error = none → r.stage = p.stage →
    q.error = some failure
  anew : ∀ failure, r.error = some failure →
    q.error = some failure ∧ ∃ next, Told c d (.failed p.root p.name next failure)
  short : r.error = none → r.stage ≠ p.stage → r.stage < p.stage ∧
    ∀ failure, q.error = some failure → ∃ next, Told c d (.failed p.root p.name next failure)

/-- On its way up it fares as one without an error, and then as one that is given back what it
had. -/
theorem Fares.regains (second : Fares c d (asked target p) r)
    (third : Fares c d (reinstated p r) q) (hremoving : p.removing = false)
    (hlt : r.stage ≠ p.stage → r.stage < p.stage) : Regains c d p r q := by
  have hroot : r.root = p.root := second.root
  have hname : r.name = p.name := second.name
  have hasked : (asked target p).error = none := by
    rw [asked_of_staying hremoving]
  refine ⟨fun failure herror hfree hback ↦ ?_, fun failure hfailed ↦ ⟨?_, ?_⟩, fun hfree hne ↦
    ⟨hlt hne, fun failure hfailed ↦ ?_⟩⟩
  · refine third.error_eq ?_
    rw [reinstated_of_back herror hfree hback]
  · refine third.error_eq ?_
    rw [reinstated_of_kept (Or.inr fun hback ↦ ?_), hfailed]
    rw [hback.1] at hfailed
    exact absurd hfailed (by simp)
  · obtain ⟨next, htold⟩ := second.exists_told hasked hfailed
    exact ⟨next, htold⟩
  · have hstopped : (reinstated p r).error = none := by
      rw [reinstated_of_kept (Or.inr fun hback ↦ hne hback.2), hfree]
    obtain ⟨next, htold⟩ := third.exists_told hstopped hfailed
    change Told c d (.failed r.root r.name next failure) at htold
    rw [hroot, hname] at htold
    exact ⟨next, htold⟩

theorem Bounces.exists_regains (bounces : Bounces crew target ps c d₁ d₂ d₃) (sound : c.Sound)
    (hnodup : (ps.map Progress.root).Nodup) (hmem : p ∈ ps) (hp : c.board.get? p.root = some p)
    (hremoving : p.removing = false) :
    ∃ r q, d₂.board.get? p.root = some r ∧ d₃.board.get? p.root = some q ∧ q.name = p.name ∧
      Regains c d₃ p r q := by
  have hsunk := (reasks_sinking hnodup target c).each p hmem
  rw [hp, Option.map_some] at hsunk
  obtain ⟨r, hr, hgoing, hfares⟩ := bounces.fares_second sound hnodup hsunk
    hremoving
  have hreturned := (reasks_returning hnodup d₂).each p hmem
  rw [hr, Option.map_some] at hreturned
  obtain ⟨q, hq, hfares'⟩ := bounces.fares_third sound hreturned
    hgoing
  have hname : q.name = p.name := hfares'.name.trans hfares.name
  refine ⟨r, q, hr, hq, hname, (hfares.widen (.refl c) (bounces.continues_third sound)).regains
    hfares' hremoving fun hne ↦ ?_⟩
  obtain ⟨r', hr', _, _, hle⟩ := bounces.exists_risen sound hnodup hmem hp hremoving
  obtain rfl := Option.some_inj.1 (hr.symm.trans hr')
  have hcontains := (bounces.sound_second sound).stage hr
  rw [bounces.chain_second sound] at hcontains
  exact Stage.lt_of_index_lt (Nat.lt_of_le_of_ne hle fun heq ↦
    hne (Chain.eq_of_index_eq hcontains (sound.stage hp) heq))

/-- A deployment that takes no part in a bounce fares as in any batch. -/
theorem Bounces.fares_notMem (bounces : Bounces crew target ps c d₁ d₂ d₃) (sound : c.Sound)
    (hnodup : (ps.map Progress.root).Nodup) (hh : h ∉ ps.map Progress.root)
    (hp : c.board.get? h = some p) (hremoving : p.removing = false) :
    ∃ q, d₃.board.get? h = some q ∧ Fares c d₃ p q := by
  obtain ⟨r, hr, hgoing, hfares⟩ := bounces.fares_second sound hnodup
    (((reasks_sinking hnodup target c).other h hh).trans hp) hremoving
  obtain ⟨q, hq, hfares'⟩ := bounces.fares_third sound
    (((reasks_returning hnodup d₂).other h hh).trans hr) hgoing
  exact ⟨q, hq, (hfares.widen (.refl c) (bounces.continues_third sound)).trans hfares'⟩

/-- A deployment in error that takes no part in a bounce stays in error. One that takes part gets
its error back when it has come to where it was without a new one, and keeps a new one; when it has
been stopped below without failing it is free of error, until it fails again. -/
theorem bounce_keeps_errors (reachable : Reachable crew c) {stage : Stage} {names : List String}
    {roots : List Handle} (haims : c.aims stage names = .ok (target, roots)) (strict : Bool)
    (hp : p ∈ c.board.tracked) (hremoving : p.removing = false) {failure : Failure}
    (herror : p.error = some failure) :
    ∃ q ∈ (c.bounce crew stage strict names).2.board.tracked, q.root = p.root ∧ q.name = p.name ∧
      (p ∉ c.bounced target roots → q.error = some failure) ∧
      (p ∈ c.bounced target roots →
        ∃ r, (c.rebounded crew target (c.bounced target roots)).board.get? p.root = some r ∧
          Regains c (c.bounce crew stage strict names).2 p r q) := by
  obtain ⟨sound, waits, tidy, _⟩ := reachable.invariant
  obtain ⟨htarget, hroots⟩ := of_aims haims
  have hnodup : ((c.bounced target roots).map Progress.root).Nodup := nodup_bounced hroots
  obtain ⟨d₁, d₂, d₃, hbounces, heq⟩ := exists_bounce crew sound waits tidy strict haims
  rw [heq, hbounces.rebounded_eq]
  have hget := (mem_tracked_iff sound).1 hp
  obtain ⟨hrises, hreturns⟩ := hbounces.steps sound
  have hreturned := Steps.sound (hrises.trans hreturns) sound
  have hd₃ := Steps.sound (hreturned.steps_of_process hbounces.third) hreturned
  by_cases hmem : p ∈ c.bounced target roots
  · obtain ⟨r, q, hr, hq, hname, hregains⟩ :=
      hbounces.exists_regains sound hnodup hmem hget hremoving
    have hroot := Board.root_of_get? hq
    exact ⟨q, (mem_tracked_iff hd₃).2 (hroot.symm ▸ hq), hroot, hname,
      fun hapart ↦ absurd hmem hapart, fun _ ↦ ⟨r, hr, hregains⟩⟩
  · have hh : p.root ∉ (c.bounced target roots).map Progress.root := fun hroot ↦ by
      obtain ⟨x, hx, heq⟩ := List.mem_map.1 hroot
      obtain ⟨hgetx, _⟩ := sound.of_mem_bounced htarget hx
      rw [heq, hget, Option.some_inj] at hgetx
      exact hmem (hgetx ▸ hx)
    obtain ⟨q, hq, hfares⟩ := hbounces.fares_notMem sound hnodup hh hget hremoving
    have hroot := Board.root_of_get? hq
    exact ⟨q, (mem_tracked_iff hd₃).2 (hroot.symm ▸ hq), hroot, hfares.name,
      fun _ ↦ hfares.error_eq herror, fun hpart ↦ absurd hpart hmem⟩

/-- A controller on which two deployments are in error, of which the second needs the first. -/
def refused : Controller Unit Unit :=
  (driving ⟨"PreDescribe", 3⟩ 6).serveAll touchy
    [.enlist ⟨{ name := "db", stage := ⟨"PostParse", 2⟩ }, ()⟩,
      .enlist ⟨{ name := "net", stage := ⟨"PreDescribe", 3⟩ }, ()⟩,
      .deployAll [.mk "net" .none [] [] [],
        .mk "db" .none [⟨"net", ⟨"Parse", 1⟩, ⟨"Parse", 1⟩⟩] [] []]]

theorem reachable_refused : Reachable touchy refused := by
  unfold refused
  exact reachable_driving touchy rfl rfl _

theorem bounce_keeps_errors_refused :
    refused.board.tracked.map (fun p ↦ (p.name, p.error.isSome)) = [("net", true), ("db", true)] ∧
      ∀ p ∈ refused.board.tracked,
        ∃ q ∈ (refused.bounce touchy Stage.floor false ["net"]).2.board.tracked,
          q.name = p.name ∧ q.error = p.error := by
  have haims : refused.aims Stage.floor ["net"] = .ok (Stage.floor, [0]) := by
    decide +kernel
  have hremoving : ∀ p ∈ refused.board.tracked, p.removing = false := by decide +kernel
  have herror : ∀ p ∈ refused.board.tracked, p.error.isSome = true := by decide +kernel
  have hback : ∀ p ∈ refused.bounced Stage.floor [0], ∀ r ∈
      (refused.rebounded touchy Stage.floor (refused.bounced Stage.floor [0])).board.get?
        p.root, r.error.isNone = true ∧ r.stage = p.stage := by decide +kernel
  refine ⟨by decide +kernel, fun p hp ↦ ?_⟩
  obtain ⟨failure, hfailed⟩ := Option.isSome_iff_exists.1 (herror p hp)
  obtain ⟨q, hq, _, hname, hapart, hpart⟩ :=
    bounce_keeps_errors reachable_refused haims false hp (hremoving p hp) hfailed
  refine ⟨q, hq, hname, ?_⟩
  rw [hfailed]
  by_cases hmem : p ∈ refused.bounced Stage.floor [0]
  · obtain ⟨r, hr, hregains⟩ := hpart hmem
    obtain ⟨hfree, hstage⟩ := hback p hmem r hr
    exact hregains.back failure hfailed (Option.isNone_iff_eq_none.1 hfree) hstage
  · exact hapart hmem

/-- A deployment in error that takes part in a bounce and is stopped on its way up by what it misses
is free of error afterwards. -/
theorem bounce_loses_error :
    Reachable touchy refused ∧
      refused.board.tracked.map (fun p ↦ (p.name, p.stage.index, p.error.isSome)) =
        [("net", 2, true), ("db", 1, true)] ∧
      (refused.bounce touchy Stage.floor false ["db"]).2.board.tracked.map
          (fun p ↦ (p.name, p.stage.index, p.error.isSome)) =
        [("net", 2, true), ("db", 0, false)] :=
  ⟨reachable_refused, by decide +kernel, by decide +kernel⟩

end Rollout.Controller
