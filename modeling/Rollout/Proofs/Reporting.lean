import Mathlib.Data.List.Induction
import Rollout.Proofs.Confluence
import Rollout.Proofs.LastWord

/-!
What reports tell. A report is kept by name while progress is kept by handle, but no two tracked
deployments share a name, so every one that is incomplete is listed, once, with what holds of it and
nothing else. A check finds nothing to report if and only if everything that it is about is
complete.
-/

set_option autoImplicit false
set_option relaxedAutoImplicit false

namespace Rollout

namespace Sorting

variable {α : Type} {name : String} {x : α} {l : List (String × α)}

/-- Entries in ascending order of their names, each name once. -/
def Ascending (l : List (String × α)) : Prop := (l.map Prod.fst).Pairwise (· < ·)

/-- An entry takes the place of what was entered under its name before. -/
theorem mem_enter_iff (hl : Ascending l) {e : String × α} :
    e ∈ enter name x l ↔ e = (name, x) ∨ e.1 ≠ name ∧ e ∈ l := by
  induction l with
  | nil => simp [enter]
  | cons head rest ih =>
    obtain ⟨other, y⟩ := head
    obtain ⟨hhead, hrest⟩ := List.pairwise_cons.1 hl
    have hlater : ∀ k ∈ rest, other < k.1 := fun k hk ↦ hhead k.1 (List.mem_map_of_mem hk)
    rcases lt_trichotomy name other with hlt | rfl | hlt
    · rw [enter_before hlt, List.mem_cons]
      refine or_congr_right (iff_and_self.2 fun he ↦ ?_)
      rcases List.mem_cons.1 he with rfl | he
      · exact hlt.ne'
      · exact (hlt.trans (hlater e he)).ne'
    · rw [enter_same, List.mem_cons, List.mem_cons]
      refine or_congr_right ⟨fun he ↦ ⟨(hlater e he).ne', Or.inr he⟩, ?_⟩
      rintro ⟨hne, he⟩
      exact he.resolve_left fun heq ↦ hne (congrArg Prod.fst heq)
    · rw [enter_after hlt, List.mem_cons, List.mem_cons, ih hrest]
      constructor
      · rintro (rfl | rfl | ⟨hne, he⟩)
        · exact Or.inr ⟨hlt.ne, Or.inl rfl⟩
        · exact Or.inl rfl
        · exact Or.inr ⟨hne, Or.inr he⟩
      · rintro (rfl | ⟨hne, rfl | he⟩)
        · exact Or.inr (Or.inl rfl)
        · exact Or.inl rfl
        · exact Or.inr (Or.inr ⟨hne, he⟩)

theorem Ascending.enter (hl : Ascending l) (name : String) (x : α) :
    Ascending (Sorting.enter name x l) := by
  induction l with
  | nil => exact List.pairwise_singleton _ _
  | cons head rest ih =>
    obtain ⟨other, y⟩ := head
    obtain ⟨hhead, hrest⟩ := List.pairwise_cons.1 hl
    rcases lt_trichotomy name other with hlt | rfl | hlt
    · rw [enter_before hlt]
      refine List.pairwise_cons.2 ⟨fun k hk ↦ ?_, hl⟩
      rcases List.mem_cons.1 hk with rfl | hk
      · exact hlt
      · exact hlt.trans (hhead k hk)
    · rw [enter_same]
      exact List.pairwise_cons.2 ⟨hhead, hrest⟩
    · rw [enter_after hlt]
      refine List.pairwise_cons.2 ⟨fun k hk ↦ ?_, ih hrest⟩
      rcases mem_map_enter hk with rfl | hk
      · exact hlt
      · exact hhead k hk

end Sorting

namespace Report

variable {r : Report} {ps : List Progress} {p : Progress} {name : String}

/-- A report that tells of some deployments exactly what is incomplete about them: each that is in
error is under its name among the failures, with the error itself and all that is read off it, each
other one that is not where it is asked to be is under its name among the blocked, and with what
holds of it; and the names are in order. -/
structure Tells (r : Report) (ps : List Progress) : Prop where
  failures : ∀ name f, (name, f) ∈ r.failures ↔ ∃ p ∈ ps, p.name = name ∧
    ∃ failure, p.error = some failure ∧ f =
      { deployment := p.name
        unit := failure.unit
        stage := p.stage
        requested := p.requested
        failedStage := failure.stage
        message := failure.message
        rootCause := failure.cause.root
        error := failure }
  blocked : ∀ name s, (name, s) ∈ r.blocked ↔ ∃ p ∈ ps, p.name = name ∧
    p.error = none ∧ p.stage ≠ p.requested ∧ s =
      { deployment := p.name
        stage := p.stage
        requested := p.requested
        missing := p.waiting }
  failedOrder : Sorting.Ascending r.failures
  blockedOrder : Sorting.Ascending r.blocked

theorem tells_empty : Tells empty [] := by
  refine ⟨?_, ?_, .nil, .nil⟩ <;> simp [empty]

theorem exists_mem_concat {P : Progress → Prop} :
    (∃ q ∈ ps ++ [p], P q) ↔ P p ∨ ∃ q ∈ ps, P q := by
  simp only [List.mem_append, List.mem_singleton, or_and_right, exists_or, exists_eq_left]
  exact or_comm

/-- One more deployment is looked at, of a name that was not seen before. -/
theorem Tells.record (tells : r.Tells ps) (hnew : ∀ q ∈ ps, q.name ≠ p.name) :
    (r.record p).Tells (ps ++ [p]) := by
  -- an entry that was there is of another name, so nothing is overwritten
  have hkept : ∀ {P : Progress → Prop} {name : String},
      (name ≠ p.name ∧ ∃ q ∈ ps, q.name = name ∧ P q) ↔ ∃ q ∈ ps, q.name = name ∧ P q := by
    intro P name
    exact and_iff_right_of_imp fun ⟨q, hq, hname, _⟩ ↦ hname ▸ hnew q hq
  have hentry : ∀ {α : Type} {name : String} {x y : α},
      (name, x) = (p.name, y) ↔ p.name = name ∧ x = y := by
    intro α name x y
    rw [Prod.mk.injEq, eq_comm (a := name)]
  unfold Report.record
  cases herror : p.error with
  | some failure =>
    refine ⟨fun name f ↦ ?_, fun name s ↦ ?_, tells.failedOrder.enter _ _, tells.blockedOrder⟩
    · rw [Sorting.mem_enter_iff tells.failedOrder, tells.failures, hkept, exists_mem_concat, hentry,
        herror]
      simp [failed]
    · rw [exists_mem_concat, tells.blocked, herror]
      simp
  | none =>
    by_cases hstage : p.stage = p.requested
    · refine ⟨fun name f ↦ ?_, fun name s ↦ ?_, ?_, ?_⟩ <;> simp only [if_pos hstage]
      · rw [exists_mem_concat, tells.failures, herror]
        simp
      · rw [exists_mem_concat, tells.blocked]
        simp [hstage]
      · exact tells.failedOrder
      · exact tells.blockedOrder
    · refine ⟨fun name f ↦ ?_, fun name s ↦ ?_, ?_, ?_⟩ <;> simp only [if_neg hstage]
      · rw [exists_mem_concat, tells.failures, herror]
        simp
      · rw [Sorting.mem_enter_iff tells.blockedOrder, tells.blocked, hkept, exists_mem_concat,
          hentry, herror]
        simp [stopped, hstage]
      · exact tells.failedOrder
      · exact tells.blockedOrder.enter _ _

/-- A report on deployments of different names loses nothing. -/
theorem tells_of (hnames : (ps.map Progress.name).Nodup) : (of ps).Tells ps := by
  induction ps using List.reverseRecOn with
  | nil => exact tells_empty
  | append_singleton ps p ih =>
    rw [List.map_append, List.nodup_append] at hnames
    unfold of
    rw [List.foldl_append]
    refine (ih hnames.1).record fun q hq ↦ ?_
    exact hnames.2.2 _ (List.mem_map_of_mem hq) _ (List.mem_singleton.2 rfl)

theorem Tells.mem_failedNames_iff (tells : r.Tells ps) :
    name ∈ r.failedNames ↔ ∃ p ∈ ps, p.name = name ∧ p.error.isSome = true := by
  unfold failedNames
  rw [List.mem_map]
  constructor
  · rintro ⟨⟨other, f⟩, hf, rfl⟩
    obtain ⟨p, hp, hname, failure, herror, _⟩ := (tells.failures other f).1 hf
    exact ⟨p, hp, hname, by rw [herror]; rfl⟩
  · rintro ⟨p, hp, hname, herror⟩
    obtain ⟨failure, herror⟩ := Option.isSome_iff_exists.1 herror
    exact ⟨(name, _), (tells.failures name _).2 ⟨p, hp, hname, failure, herror, rfl⟩, rfl⟩

theorem Tells.mem_blockedNames_iff (tells : r.Tells ps) :
    name ∈ r.blockedNames ↔
      ∃ p ∈ ps, p.name = name ∧ p.error = none ∧ p.stage ≠ p.requested := by
  unfold blockedNames
  rw [List.mem_map]
  constructor
  · rintro ⟨⟨other, s⟩, hs, rfl⟩
    obtain ⟨p, hp, hname, herror, hstage, _⟩ := (tells.blocked other s).1 hs
    exact ⟨p, hp, hname, herror, hstage⟩
  · rintro ⟨p, hp, hname, herror, hstage⟩
    exact ⟨(name, _), (tells.blocked name _).2 ⟨p, hp, hname, herror, hstage, rfl⟩, rfl⟩

end Report

theorem Progress.isComplete_eq_false_iff {p : Progress} :
    p.isComplete = false ↔
      p.error.isSome = true ∨ p.error = none ∧ p.stage ≠ p.requested := by
  unfold isComplete
  cases p.error <;> simp

namespace Report

variable {r : Report} {ps : List Progress} {name : String}

/-- A report lists the deployments that are not complete, and no others. -/
theorem Tells.mem_names_iff (tells : r.Tells ps) :
    name ∈ r.names ↔ ∃ p ∈ ps, p.name = name ∧ p.isComplete = false := by
  unfold names
  rw [List.mem_append, tells.mem_failedNames_iff, tells.mem_blockedNames_iff]
  simp only [Progress.isComplete_eq_false_iff, and_or_left, exists_or]

theorem Tells.isEmpty_iff (tells : r.Tells ps) :
    r.isEmpty = true ↔ ∀ p ∈ ps, p.isComplete = true := by
  have hnil : r.isEmpty = true ↔ ∀ name, name ∉ r.names := by
    rw [← List.eq_nil_iff_forall_not_mem]
    simp [isEmpty, names, failedNames, blockedNames]
  rw [hnil]
  simp only [tells.mem_names_iff, not_exists, not_and, Bool.not_eq_false]
  exact ⟨fun h p hp ↦ h p.name p hp rfl, fun h _ p hp _ ↦ h p hp⟩

/-- No deployment of different names is both a failure and blocked. -/
theorem Tells.disjoint (tells : r.Tells ps) (hnames : (ps.map Progress.name).Nodup) :
    ∀ name ∈ r.failedNames, name ∉ r.blockedNames := by
  intro name hfailed hblocked
  obtain ⟨p, hp, hpname, hfailure⟩ := tells.mem_failedNames_iff.1 hfailed
  obtain ⟨q, hq, hqname, hnone, _⟩ := tells.mem_blockedNames_iff.1 hblocked
  obtain rfl := List.inj_on_of_nodup_map hnames hp hq (hpname.trans hqname.symm)
  rw [hnone] at hfailure
  exact absurd hfailure (by simp)

end Report

namespace Controller

variable {β σ : Type} {crew : Crew β σ} {c : Controller β σ} {p : Progress} {names : List String}
  {roots : List Handle} {r : Report}

theorem demandEmpty_eq_ok_iff : demandEmpty r = .ok () ↔ r.isEmpty = true := by
  unfold demandEmpty
  split <;> simp [*]

/-- A look at some live units is a look at the deployments that they belong to. -/
theorem Sound.exists_checkNamed (sound : c.Sound)
    (hlive : ∀ name ∈ names, (c.unit? name).isSome = true) :
    ∃ ps, c.checkNamed names = demandEmpty (Report.of ps) ∧ (ps.map Progress.name).Nodup ∧
      ∀ p, p ∈ ps ↔ ∃ name ∈ names, c.progress? name = some p := by
  cases hroots : c.roots names with
  | error error =>
    obtain ⟨name, hname, hnone, _⟩ := of_rootsFrom_error hroots
    have hsome := hlive name hname
    rw [hnone] at hsome
    exact absurd hsome (by simp)
  | ok roots =>
    have hprogress : ∀ name p, c.progress? name = some p ↔
        ∃ root, c.home? name = some root ∧ c.board.get? root = some p := by
      intro name p
      unfold progress? Board.ofUnit? home?
      cases c.forest.byName? name <;> simp
    refine ⟨roots.filterMap c.board.get?, ?_, ?_, fun p ↦ ?_⟩
    · unfold checkNamed
      rw [hroots]
      rfl
    · have hnodup := nodup_rootsFrom List.nodup_nil hroots
      rw [List.map_filterMap]
      refine hnodup.filterMap fun h k name hh hk ↦ ?_
      obtain ⟨p, hp, hpname⟩ := Option.map_eq_some_iff.1 hh
      obtain ⟨q, hq, hqname⟩ := Option.map_eq_some_iff.1 hk
      have hsame := sound.eq_of_name ((mem_tracked_iff sound).2 (Board.root_of_get? hp ▸ hp))
        ((mem_tracked_iff sound).2 (Board.root_of_get? hq ▸ hq)) (hpname.trans hqname.symm)
      rw [← Board.root_of_get? hp, ← Board.root_of_get? hq, hsame]
    · simp only [List.mem_filterMap, mem_rootsFrom_iff hroots, List.not_mem_nil, false_or,
        hprogress]
      constructor
      · rintro ⟨root, ⟨name, hname, hhome⟩, hp⟩
        exact ⟨name, hname, root, hhome, hp⟩
      · rintro ⟨name, hname, root, hhome, hp⟩
        exact ⟨root, ⟨name, hname, hhome⟩, hp⟩

/-- The report of a controller lists its tracked deployments that are not complete, in error or not
but never both, each under its own name and with what holds of it. A check finds nothing to report
if and only if all tracked deployments are complete, and a check of some live units if and only if
all deployments that these belong to are; otherwise it gives the report on these. -/
theorem reports_exact (reachable : Reachable crew c) :
    (∀ name ∈ c.report.failedNames, name ∉ c.report.blockedNames) ∧
      (∀ name, name ∈ c.report.failedNames ∨ name ∈ c.report.blockedNames ↔
        ∃ p ∈ c.board.tracked, p.name = name ∧ p.isComplete = false) ∧
      (∀ p ∈ c.board.tracked, p.name ∈ c.report.failedNames ↔ p.error.isSome = true) ∧
      c.report.Tells c.board.tracked ∧
      (c.checkAll = .ok () ↔ ∀ p ∈ c.board.tracked, p.isComplete = true) ∧
      ∀ names, (∀ name ∈ names, (c.unit? name).isSome = true) →
        (c.checkNamed names = .ok () ↔
          ∀ name ∈ names, ∃ p, c.progress? name = some p ∧ p.isComplete = true) ∧
        ∀ r, c.checkNamed names = .error (.incomplete r) →
          ∃ ps, r.Tells ps ∧ ∀ p, p ∈ ps ↔ ∃ name ∈ names, c.progress? name = some p := by
  have sound := reachable.sound
  have hnodup := sound.nodup_names_tracked
  have htells : c.report.Tells c.board.tracked := Report.tells_of hnodup
  refine ⟨htells.disjoint hnodup, fun name ↦ ?_, fun p hp ↦ ?_, htells, ?_, fun names hlive ↦ ?_⟩
  · rw [← htells.mem_names_iff, Report.names, List.mem_append]
  · rw [htells.mem_failedNames_iff]
    constructor
    · rintro ⟨q, hq, hname, herror⟩
      rwa [← sound.eq_of_name hq hp hname]
    · exact fun herror ↦ ⟨p, hp, rfl, herror⟩
  · exact demandEmpty_eq_ok_iff.trans htells.isEmpty_iff
  · obtain ⟨ps, hcheck, hdistinct, hps⟩ := sound.exists_checkNamed hlive
    have htold := Report.tells_of hdistinct
    rw [hcheck, demandEmpty_eq_ok_iff, htold.isEmpty_iff]
    constructor
    · constructor
      · intro hall name hname
        obtain ⟨u, hu⟩ := Option.isSome_iff_exists.1 (hlive name hname)
        obtain ⟨k, hk, _⟩ := sound.forest.byName?_eq_some_iff.1 hu
        obtain ⟨p, hp⟩ := sound.exists_progress (Forest.node?_of_get? hk)
        have hprogress : c.progress? name = some p := by
          unfold progress? Board.ofUnit?
          rw [show c.forest.byName? name = some u from hu, Option.bind_some, hp]
        exact ⟨p, hprogress, hall p ((hps p).2 ⟨name, hname, hprogress⟩)⟩
      · intro hall p hp
        obtain ⟨name, hname, hprogress⟩ := (hps p).1 hp
        obtain ⟨q, hq, hcomplete⟩ := hall name hname
        obtain rfl := Option.some_inj.1 (hprogress.symm.trans hq)
        exact hcomplete
    · intro r hr
      unfold demandEmpty at hr
      split at hr
      · exact absurd hr (by simp)
      · obtain rfl := Error.incomplete.inj (Except.error.inj hr)
        exact ⟨ps, htold, hps⟩

/-- A run on which one deployment is complete, one has failed in a unit below its top, and one waits
for that unit. -/
def ailing : Controller Unit Unit := postParsing.serveAll touchy
  [.enlist ⟨{ name := "db", stage := ⟨"PostParse", 2⟩ }, ()⟩,
    .deployAll [.mk "net" .none [] [] [],
      .mk "gui" .none [] [] [.mk "db" .none [] [] []],
      .mk "app" .none [⟨"db", ⟨"PostParse", 2⟩, ⟨"PostParse", 2⟩⟩] [] []]]

theorem reports_exact_ailing :
    ailing.names = ["net", "gui", "app"] ∧ ailing.report.failedNames = ["gui"] ∧
      ailing.report.blockedNames = ["app"] ∧ ailing.report.Tells ailing.board.tracked ∧
      ailing.checkAll ≠ .ok () ∧ ailing.checkNamed ["net"] = .ok () ∧
      ailing.checkNamed ["net", "db"] ≠ .ok () := by
  have hreachable : Reachable touchy ailing := reachable_postParsing touchy _
  obtain ⟨_, _, _, htells, hall, hnamed⟩ := reports_exact hreachable
  have hlive : ∀ name ∈ ["net", "db"], (ailing.unit? name).isSome = true := by decide +kernel
  have hnet : ∀ name ∈ ["net"], (ailing.unit? name).isSome = true := by decide +kernel
  have hsome : ¬ ∀ p ∈ ailing.board.tracked, p.isComplete = true := by decide +kernel
  have hcomplete : (ailing.progress? "net").any Progress.isComplete = true := by decide +kernel
  have hfailed : (ailing.progress? "db").any Progress.isComplete = false := by decide +kernel
  refine ⟨by decide +kernel, by decide +kernel, by decide +kernel, htells, mt hall.1 hsome, ?_,
    mt (hnamed _ hlive).1.1 fun h ↦ ?_⟩
  · refine (hnamed _ hnet).1.2 fun name hname ↦ ?_
    rw [List.mem_singleton.1 hname]
    exact Option.any_eq_true _ _ |>.1 hcomplete
  · have hdb := Option.any_eq_true _ _ |>.2 (h "db" (List.mem_cons_of_mem _ List.mem_cons_self))
    rw [hfailed] at hdb
    exact absurd hdb (by simp)

end Controller

end Rollout
