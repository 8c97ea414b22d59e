import Rollout.Proofs.BatchOutcome
import Rollout.Proofs.StandingNeeds

/-!
Whom reports are about. A strict change or bounce looks, once its batches are over, at whoever is on
the handles to which the given names led when it was called. A handle whose deployment was to be
removed is free by then, and may be that of a deployment which was queued; all others are about the
deployments that were meant.
-/

set_option autoImplicit false
set_option relaxedAutoImplicit false

namespace Rollout

/-- Entering something under a name brings up no other name. -/
theorem Sorting.mem_map_enter {α : Type} {name other : String} {x : α} {l : List (String × α)}
    (hmem : other ∈ (Sorting.enter name x l).map Prod.fst) :
    other = name ∨ other ∈ l.map Prod.fst := by
  induction l with
  | nil => exact Or.inl (List.mem_singleton.1 hmem)
  | cons y ys ih =>
    unfold Sorting.enter at hmem
    split at hmem
    · exact List.mem_cons.1 hmem
    · split at hmem
      · exact (List.mem_cons.1 hmem).imp_right (List.mem_cons_of_mem _)
      · rcases List.mem_cons.1 hmem with rfl | hmem
        · exact Or.inr List.mem_cons_self
        · exact (ih hmem).imp_right (List.mem_cons_of_mem _)

namespace Report

/-- The names of all deployments that a report lists. -/
def names (r : Report) : List String := r.failedNames ++ r.blockedNames

theorem mem_names_record {r : Report} {p : Progress} {name : String}
    (hmem : name ∈ (r.record p).names) : name = p.name ∨ name ∈ r.names := by
  unfold names failedNames blockedNames at hmem ⊢
  unfold record at hmem
  rw [List.mem_append] at hmem ⊢
  split at hmem
  · rcases hmem with hmem | hmem
    · exact (Sorting.mem_map_enter hmem).imp_right Or.inl
    · exact Or.inr (Or.inr hmem)
  · split at hmem
    · exact Or.inr hmem
    · rcases hmem with hmem | hmem
      · exact Or.inr (Or.inl hmem)
      · exact (Sorting.mem_map_enter hmem).imp_right Or.inr

theorem mem_names_foldl {ps : List Progress} {r : Report} {name : String}
    (hmem : name ∈ (ps.foldl record r).names) : (∃ p ∈ ps, p.name = name) ∨ name ∈ r.names := by
  induction ps generalizing r with
  | nil => exact Or.inr hmem
  | cons p ps ih =>
    rcases ih hmem with ⟨q, hq, hname⟩ | hmem
    · exact Or.inl ⟨q, List.mem_cons_of_mem _ hq, hname⟩
    · exact (mem_names_record hmem).imp_left fun heq ↦ ⟨p, List.mem_cons_self, heq.symm⟩

/-- Whatever a report on some deployments lists is the name of one of them. -/
theorem exists_of_mem_names {ps : List Progress} {name : String} (hmem : name ∈ (of ps).names) :
    ∃ p ∈ ps, p.name = name :=
  (mem_names_foldl hmem).resolve_right List.not_mem_nil

end Report

namespace Controller

variable {β σ : Type} {crew : Crew β σ} {c d e d₁ d₂ d₃ : Controller β σ} {h root : Handle}
  {p q : Progress} {stage target : Stage} {names : List String} {roots : List Handle}
  {report : Report}

/-! Where names lead. -/

theorem mem_rootsFrom_iff {found : List Handle} (hroots : c.rootsFrom found names = .ok roots) :
    root ∈ roots ↔ root ∈ found ∨ ∃ name ∈ names, c.home? name = some root := by
  induction names generalizing found with
  | nil =>
    obtain rfl := Except.ok.inj hroots
    simp
  | cons name names ih =>
    unfold rootsFrom at hroots
    split at hroots
    · exact absurd hroots (by simp)
    · next u hu =>
      have hhome : c.home? name = some u.top := by
        unfold home?
        rw [show c.forest.byName? name = some u from hu, Option.map_some]
      have hfound : root ∈ (if u.top ∈ found then found else found ++ [u.top]) ↔
          root ∈ found ∨ u.top = root := by
        split
        · next hmem => exact (or_iff_left_of_imp fun heq ↦ heq ▸ hmem).symm
        · rw [List.mem_append, List.mem_singleton, eq_comm]
      rw [ih hroots, hfound, or_assoc, List.exists_mem_cons_iff, hhome, Option.some_inj]

/-- A call that is refused for what it names is not refused for what is incomplete. -/
theorem ne_incomplete_of_aims {error : Error} (haims : c.aims stage names = .error error) :
    error ≠ .incomplete report := by
  unfold aims at haims
  split at haims
  · obtain rfl := Except.error.inj haims
    simp
  · cases hroots : c.roots names with
    | error error' =>
      rw [hroots] at haims
      obtain rfl := Except.error.inj haims
      obtain ⟨_, _, _, rfl⟩ := of_rootsFrom_error hroots
      simp
    | ok roots =>
      rw [hroots] at haims
      exact absurd haims (by simp [Except.map])

theorem mem_aims_iff (haims : c.aims stage names = .ok (target, roots)) :
    root ∈ roots ↔ ∃ name ∈ names, c.home? name = some root := by
  rw [mem_rootsFrom_iff (aims_eq_ok_iff.1 haims).2]
  simp

/-- A name leads to a tracked deployment. -/
theorem Sound.exists_of_home? (sound : c.Sound) {name : String}
    (hhome : c.home? name = some root) : ∃ p, c.board.get? root = some p := by
  obtain ⟨k, u, hu, _, rfl⟩ := sound.home?_eq_some_iff.1 hhome
  exact sound.exists_progress (Forest.node?_of_get? hu)

/-- A look at some handles that finds something incomplete lists names of those that are there. -/
theorem exists_of_checkRoots (hcheck : c.checkRoots roots = .error (.incomplete report))
    {name : String} (hname : name ∈ report.names) :
    ∃ root ∈ roots, ∃ q, c.board.get? root = some q ∧ q.name = name := by
  obtain rfl := Error.incomplete.inj (of_checkRoots_error hcheck)
  obtain ⟨q, hq, hqname⟩ := Report.exists_of_mem_names hname
  obtain ⟨root, hroot, hget⟩ := List.mem_filterMap.1 hq
  exact ⟨root, hroot, q, hget, hqname⟩

/-! Who is on a handle in the end. -/

/-- Batches one after another find nothing queued but what the first of them found. -/
theorem Origin.trans (first : Origin c d) (second : Origin d e) (hqueue : d.queue = []) :
    Origin c e := by
  intro h q hq
  rcases second h q hq with ⟨p, hp, _, hname⟩ | ⟨_, b, hb, _⟩
  · rw [← hname]
    exact first h p hp
  · rw [hqueue] at hb
    exact absurd hb List.not_mem_nil

/-- Asking for something else changes neither names nor who is to be removed. -/
theorem Origin.of_same (origin : Origin d e)
    (hsame : ∀ h, (d.board.get? h).map (fun p ↦ (p.name, p.removing)) =
      (c.board.get? h).map fun p ↦ (p.name, p.removing)) (hqueue : d.queue = c.queue) :
    Origin c e := by
  intro h q hq
  have hget := hsame h
  rcases origin h q hq with ⟨p, hp, hremoving, hname⟩ | ⟨hgoing, b, hb, hname⟩
  · rw [hp, Option.map_some, eq_comm, Option.map_eq_some_iff] at hget
    obtain ⟨r, hr, heq⟩ := hget
    obtain ⟨hrname, hrremoving⟩ := Prod.mk.inj heq
    exact Or.inl ⟨r, hr, hrremoving.trans hremoving, hrname.trans hname⟩
  · refine Or.inr ⟨fun r hr ↦ ?_, b, hqueue ▸ hb, hname⟩
    rw [hr, Option.map_some, Option.map_eq_some_iff] at hget
    obtain ⟨p, hp, heq⟩ := hget
    rw [← (Prod.mk.inj heq).2]
    exact hgoing p hp

theorem Reasks.same {ps : List Progress} {f : Progress → Progress → Progress} {b b' : Board}
    (reasks : Reasks ps f b b')
    (hf : ∀ p q, (f p q).name = q.name ∧ (f p q).removing = q.removing) (h : Handle) :
    (b'.get? h).map (fun p ↦ (p.name, p.removing)) =
      (b.get? h).map fun p ↦ (p.name, p.removing) := by
  by_cases hh : h ∈ ps.map Progress.root
  · obtain ⟨p, hp, rfl⟩ := List.mem_map.1 hh
    rw [reasks.each p hp, Option.map_map]
    refine congrArg (Option.map · _) (funext fun q ↦ ?_)
    exact Prod.ext (hf p q).1 (hf p q).2
  · rw [reasks.other h hh]

theorem Sound.origin_of_process (sound : c.Sound) (hprocess : c.process crew = (.ok (), d)) :
    Origin c d :=
  (sound.finished_of_process hprocess).origin sound
    (Steps.sound (sound.steps_of_process hprocess) sound)

theorem Sound.exists_change (sound : c.Sound) (crew : Crew β σ) (strict : Bool)
    (haims : c.aims stage names = .ok (target, roots)) :
    ∃ d, c.change crew stage strict names = (if strict then d.checkRoots roots else .ok (), d) ∧
      Origin c d := by
  have hsound := Steps.sound (sound.steps_changing crew haims) sound
  refine ⟨_, sound.change_eq crew haims strict,
    (hsound.origin_of_process (hsound.process_ok crew)).of_same (fun h ↦ ?_) rfl⟩
  have hget : (c.changing target roots).board.get? h =
      if h ∈ roots then (c.board.get? h).map (asked target) else c.board.get? h :=
    get?_requestEach (of_aims haims).2
  rw [hget]
  split
  · rw [Option.map_map]
    refine congrArg (Option.map · _) (funext fun p ↦ ?_)
    rfl
  · rfl

theorem Bounces.origin {ps : List Progress} (bounces : Bounces crew target ps c d₁ d₂ d₃)
    (sound : c.Sound) (hnodup : (ps.map Progress.root).Nodup) : Origin c d₃ := by
  obtain ⟨hrises, hreturns⟩ := bounces.steps sound
  have hsunk := Steps.sound bounces.sinks sound
  have hrisen := Steps.sound hrises sound
  have hreturned := Steps.sound (hrises.trans hreturns) sound
  have hfirst := (hsunk.origin_of_process bounces.first).of_same
    ((reasks_sinking hnodup target c).same fun _ _ ↦ ⟨rfl, rfl⟩)
    rfl
  have hsecond := (hrisen.origin_of_process bounces.second).of_same
    ((reasks_rising hnodup d₁).same fun _ _ ↦ ⟨rfl, rfl⟩) rfl
  have hthird := (hreturned.origin_of_process bounces.third).of_same
    ((reasks_returning hnodup d₂).same fun _ _ ↦ ⟨rfl, rfl⟩) rfl
  exact (hfirst.trans hsecond (hsunk.finished_of_process bounces.first).queue).trans hthird
    (hrisen.finished_of_process bounces.second).queue

/-! Strict calls. -/

/-- A report lists only deployments to which given names lead, or some that are queued, when a given
name leads to one that is to be removed. -/
def Scoped (c : Controller β σ) (names : List String) (report : Report) : Prop :=
  ∀ name ∈ report.names, ∃ p ∈ c.board.tracked,
    (∃ given ∈ names, c.home? given = some p.root) ∧
      (p.removing = false ∧ p.name = name ∨ p.removing = true ∧ ∃ b ∈ c.queue, b.name = name)

theorem Origin.scoped (origin : Origin c d) (sound : c.Sound)
    (haims : c.aims stage names = .ok (target, roots))
    (hcheck : d.checkRoots roots = .error (.incomplete report)) : c.Scoped names report := by
  intro name hname
  obtain ⟨root, hroot, q, hq, rfl⟩ := exists_of_checkRoots hcheck hname
  obtain ⟨given, hgiven, hhome⟩ := (mem_aims_iff haims).1 hroot
  obtain ⟨p, hp⟩ := sound.exists_of_home? hhome
  obtain rfl := Board.root_of_get? hp
  refine ⟨p, (mem_tracked_iff sound).2 hp, ⟨given, hgiven, hhome⟩, ?_⟩
  rcases origin _ q hq with ⟨p', hp', hremoving, hpname⟩ | ⟨hgoing, hqueued⟩
  · obtain rfl := Option.some_inj.1 (hp.symm.trans hp')
    exact Or.inl ⟨hremoving, hpname⟩
  · exact Or.inr ⟨hgoing p hp, hqueued⟩

/-- The report of a strict change or bounce is about the deployments to which the given names led
when it was called, but for those that were queued then and may have come to be where one of these
was taken out. -/
theorem reports_scoped (reachable : Reachable crew c) (stage : Stage) (names : List String)
    (report : Report) :
    ((c.change crew stage true names).1 = .error (.incomplete report) → c.Scoped names report) ∧
      ((c.bounce crew stage true names).1 = .error (.incomplete report) →
        c.Scoped names report) := by
  obtain ⟨sound, waits, tidy, _⟩ := reachable.invariant
  cases haims : c.aims stage names with
  | error error =>
    unfold change bounce
    rw [haims]
    exact ⟨fun herror ↦ absurd (Except.error.inj herror) (ne_incomplete_of_aims haims),
      fun herror ↦ absurd (Except.error.inj herror) (ne_incomplete_of_aims haims)⟩
  | ok aims =>
    obtain ⟨target, roots⟩ := aims
    refine ⟨fun hchange ↦ ?_, fun hbounce ↦ ?_⟩
    · obtain ⟨d, heq, horigin⟩ := sound.exists_change crew true haims
      rw [heq] at hchange
      exact horigin.scoped sound haims hchange
    · obtain ⟨d₁, d₂, d₃, hbounces, _⟩ := exists_bounce crew sound waits tidy true haims
      rw [hbounces.bounce_eq haims true] at hbounce
      exact (hbounces.origin sound (nodup_bounced (of_aims haims).2)).scoped sound haims hbounce

/-- A controller on which one deployment is to be removed and a second is queued, and a third waits
like the second for what is not live. -/
def stale : Controller Unit Unit :=
  parsing.serveAll idle
    [.deployAll [.mk "db" .none [] [] [],
      .mk "gui" .none [⟨"net", ⟨"Parse", 1⟩, ⟨"Parse", 1⟩⟩] [] []],
      .remove "db", .add (.mk "app" .none [⟨"net", ⟨"Parse", 1⟩, ⟨"Parse", 1⟩⟩] [] [])]

theorem reports_scoped_stale :
    ∃ report, (stale.change idle ⟨"Parse", 1⟩ true ["db", "gui"]).1 =
        .error (.incomplete report) ∧ report.names = ["app", "gui"] ∧
      stale.Scoped ["db", "gui"] report := by
  have hreport : (stale.change idle ⟨"Parse", 1⟩ true ["db", "gui"]).1 =
      .error (.incomplete
        (.of (stale.change idle ⟨"Parse", 1⟩ true ["db", "gui"]).2.board.tracked)) := by
    decide +kernel
  exact ⟨_, hreport, by decide +kernel, (reports_scoped (reachable_parsing idle _) ⟨"Parse", 1⟩
    ["db", "gui"] _).1 hreport⟩

/-- A strict call can be refused for a deployment that it has not named, and that was not even live
when it was made: "app" comes to be where "db" was. -/
theorem reports_name_others :
    Reachable idle stale ∧ stale.queuedNames = ["app"] ∧
      stale.board.tracked.map (fun p ↦ (p.root, p.name, p.removing)) =
        [(0, "db", true), (1, "gui", false)] ∧
      stale.home? "db" = some 0 ∧ stale.home? "app" = none ∧
      (∃ report, (stale.change idle ⟨"Parse", 1⟩ true ["db"]).1 = .error (.incomplete report) ∧
        report.names = ["app"]) ∧
      ∃ report, (stale.bounce idle Stage.floor true ["db"]).1 = .error (.incomplete report) ∧
        report.names = ["app"] := by
  refine ⟨reachable_parsing idle _, by decide +kernel, by decide +kernel, by decide +kernel,
    by decide +kernel, ⟨.of ((stale.change idle ⟨"Parse", 1⟩ true ["db"]).2.board.tracked.filter
      fun p ↦ p.name == "app"), by decide +kernel, by decide +kernel⟩,
    .of ((stale.bounce idle Stage.floor true ["db"]).2.board.tracked.filter
      fun p ↦ p.name == "app"), by decide +kernel, by decide +kernel⟩

end Controller

end Rollout
