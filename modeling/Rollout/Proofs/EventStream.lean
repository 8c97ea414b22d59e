import Rollout.Proofs.Tallies

/-!
The event stream. Whoever reads the events from the start knows after every request which
deployments are tracked and which stage each of them is on, and is never told of a step that does
not start where the deployment stood. When a batch is over it says what it came to, and its numbers
are those of the events that came since the batch before it was over: nothing that a batch counts is
ever told outside of one.
-/

set_option autoImplicit false
set_option relaxedAutoImplicit false

namespace Rollout

variable {β σ : Type} {time : String} {es fs : List (Entry β)}

/-- The number in a field of an event. -/
def Event.count? (e : Event) (key : String) : Option Nat :=
  match e.data.bind (Json.field? key) with
  | some (.int (.ofNat n)) => some n
  | _ => none

/-- What a journal tells since a batch was over last. -/
def sinceBatch (es : List (Entry β)) : List (Entry β) := es.rtakeWhile fun e ↦ !e.isCompleted

theorem sinceBatch_append (h : ∀ e ∈ fs, e.isCompleted = false) :
    sinceBatch (es ++ fs) = sinceBatch es ++ fs := by
  unfold sinceBatch List.rtakeWhile
  rw [List.reverse_append, List.takeWhile_append_of_pos, List.reverse_append, List.reverse_reverse]
  intro e he
  rw [h e (List.mem_reverse.1 he)]
  rfl

theorem sinceBatch_completed (es : List (Entry β)) (tally : Tally) :
    sinceBatch (es ++ [.completed tally]) = [] := by
  unfold sinceBatch
  rw [List.rtakeWhile_concat]
  rfl

/-- The numbers in the last event of a batch: how often a deployment entered a stage, left one and
failed, as the events told; how many deployers were called in steps that were taken; and how many
passes it took, which are at most so many. -/
structure Event.SumsUp (limit : Nat) (told : List Event) (es : List (Entry β)) (e : Event) :
    Prop where
  passes : ∃ n ≤ limit, e.count? "passes" = some n
  advanced : e.count? "advanced" = some (countOf "unit.stage_entered" told)
  retreated : e.count? "retreated" = some (countOf "unit.stage_left" told)
  failed : e.count? "failed" = some (countOf "unit.failed" told)
  invocations : e.count? "invocations" = some (takenCalls es)

namespace Controller

variable {crew : Crew β σ} {c d : Controller β σ}

/-- Every batch that is over has counted all that was told since the one before, and since the last
of them nothing was told that counts. -/
structure Summed (time : String) (c : Controller β σ) : Prop where
  batches : ∀ before tally after, c.journal.toList = before ++ .completed tally :: after →
    ∃ n ≤ c.config.maxPasses, tally = ({} : Tally).after time n (sinceBatch before)
  calm : ∀ e ∈ sinceBatch c.journal.toList, e.isUncounted = true

/-- What is done outside of batches does not count. -/
theorem Summed.plan (summed : Summed time c) (hconfig : d.config = c.config)
    (hes : d.journal.toList = c.journal.toList ++ es) (hbatch : ∀ e ∈ es, e.ofBatch = false) :
    Summed time d := by
  have hopen : ∀ e ∈ es, e.isCompleted = false := fun e he ↦
    Entry.isCompleted_of_ofBatch (hbatch e he)
  refine ⟨fun before tally after heq ↦ ?_, fun e he ↦ ?_⟩
  · rw [hes] at heq
    obtain ⟨rest, hrest⟩ := exists_eq_append_cons heq fun hmem ↦
      absurd (hopen _ hmem) (by simp [Entry.isCompleted])
    rw [hconfig]
    exact summed.batches before tally rest hrest
  · rw [hes, sinceBatch_append hopen] at he
    exact (List.mem_append.1 he).elim (summed.calm e)
      fun he ↦ Entry.isUncounted_of_ofBatch (hbatch e he)

/-- A batch counts what it tells, and it starts to count where the one before was over. -/
theorem Summed.process (summed : Summed time c) (sound : c.Sound) (accounted : Accounted c)
    (crew : Crew β σ) : Summed time (c.process crew).2 := by
  have hconfig := ((sound.steps_process crew).fixed sound).1
  obtain ⟨n, hn, b, ⟨es, hes, hopen, hclosed, htally⟩, heq⟩ :=
    sound.tells_process crew accounted time
  have hjournal : (c.process crew).2.journal.toList =
      c.journal.toList ++ es ++ [.completed b.tally] := by
    rw [heq, journal_note, hes]
    rfl
  have hcounted : b.tally = ({} : Tally).after time n (sinceBatch (c.journal.toList ++ es)) := by
    have hsplit : ({} : Tally).after time (0 + n) (sinceBatch c.journal.toList ++ es) =
        (({} : Tally).after time 0 (sinceBatch c.journal.toList)).after time n es :=
      Tally.after_append (closed_of_uncounted summed.calm).1 0 n {}
    rw [Tally.after_uncounted summed.calm, Nat.zero_add] at hsplit
    rw [sinceBatch_append hopen, hsplit]
    exact htally
  refine ⟨fun before tally after hsplit ↦ ?_, fun e he ↦ ?_⟩
  · rw [hconfig]
    rw [hjournal] at hsplit
    rcases List.eq_nil_or_concat after with rfl | ⟨fs, e, rfl⟩
    · -- it is this batch that is over
      obtain ⟨rfl, hlast⟩ := List.append_inj' hsplit rfl
      rw [List.cons.injEq, Entry.completed.injEq] at hlast
      exact ⟨n, hn, hlast.1 ▸ hcounted⟩
    · rw [List.concat_eq_append, ← List.cons_append, ← List.append_assoc] at hsplit
      obtain ⟨rest, hrest⟩ := exists_eq_append_cons (List.append_inj' hsplit rfl).1 fun hmem ↦
        absurd (hopen _ hmem) (by simp [Entry.isCompleted])
      exact summed.batches before tally rest hrest
  · rw [hjournal, sinceBatch_completed] at he
    exact absurd he List.not_mem_nil

theorem Leg.summed (leg : Leg crew c d) (summed : Summed time c) (sound : c.Sound)
    (accounted : Accounted c) : Summed time d := by
  cases leg with
  | plan hsteps hes hbatch => exact summed.plan (hsteps.fixed sound).1 hes hbatch
  | batch => exact summed.process sound accounted crew

theorem Course.summed (course : Course crew c d) (summed : Summed time c) (sound : c.Sound)
    (accounted : Accounted c) : Summed time d := by
  induction course with
  | refl => exact summed
  | tail course leg ih =>
    have hsteps := Course.steps course sound
    exact leg.summed ih (hsteps.sound sound) (hsteps.accounted sound accounted)

theorem Reachable.summed (reachable : Reachable crew c) (time : String) : Summed time c := by
  induction reachable with
  | build hbuild =>
    obtain ⟨_, _, _, hjournal⟩ := of_build hbuild
    refine ⟨fun before tally after heq ↦ ?_, fun e he ↦ ?_⟩
    · rw [hjournal] at heq
      exact absurd heq (by simp)
    · rw [hjournal] at he
      exact absurd he List.not_mem_nil
  | serve r hreachable ih =>
    obtain ⟨sound, waits, tidy, _⟩ := hreachable.invariant
    exact (sound.course_serve crew waits tidy r).summed ih sound hreachable.accounted

/-- The events, sent at some time, are a faithful account. A client that follows them never meets
one that does not go with what it knows, and in the end it knows the name and stage of all that is
tracked; and every event that tells that a batch is over sums up the events since the last one. -/
structure Faithful (time : String) (c : Controller β σ) : Prop where
  stages : ∃ known,
    Known.nothing.learnAll? c.chain (c.events time c.journal.toList) = some known ∧
      ∀ name stage, known name = some stage ↔
        ∃ p ∈ c.board.tracked, p.name = name ∧ p.stage = stage
  batches : ∀ before entry after e, c.journal.toList = before ++ entry :: after →
    entry.event? time = some e → e.type = "batch.completed" →
      e.SumsUp c.config.maxPasses (c.events time (sinceBatch before)) (sinceBatch before)

/-- Whatever deployers do and whatever clients ask for, a sink that keeps all events holds a
faithful account. -/
theorem events_faithful (reachable : Reachable crew c) (hemits : c.config.emitEvents = true)
    (hsink : c.sink = .collecting) (time : String) : c.Faithful time := by
  have hevents : ∀ es, c.events time es = es.filterMap (Entry.event? time) := fun es ↦ by
    unfold events emits
    rw [if_pos hemits, hsink]
    rfl
  refine ⟨?_, fun before entry after e heq hevent htype ↦ ?_⟩
  · obtain ⟨known, hheard, htracks⟩ := reachable.retold time
    rw [hevents]
    refine ⟨known, hheard, fun name stage ↦ (htracks name stage).trans ⟨?_, ?_⟩⟩
    · rintro ⟨h, p, hp, hrest⟩
      obtain rfl := Board.root_of_get? hp
      exact ⟨p, (mem_tracked_iff reachable.sound).2 hp, hrest⟩
    · rintro ⟨p, hp, hrest⟩
      exact ⟨p.root, p, (mem_tracked_iff reachable.sound).1 hp, hrest⟩
  · rw [hevents]
    cases entry
    case completed tally =>
      obtain ⟨n, hn, rfl⟩ := (reachable.summed time).batches before tally after heq
      obtain rfl := Option.some_inj.1 hevent
      exact ⟨⟨0 + n, by omega, rfl⟩, congrArg some (Nat.zero_add _), congrArg some (Nat.zero_add _),
        congrArg some (Nat.zero_add _), congrArg some (Nat.zero_add _)⟩
    case added | removed | parked | advanced | retreated | failed =>
      obtain rfl := Option.some_inj.1 hevent
      exact absurd htype (by simp [Event.ofFields])
    all_goals exact absurd hevent (by simp [Entry.event?])

/-- Batches in which one deployment fails where the other goes on. -/
def faltering : List (Request Unit Unit) :=
  [.enlist ⟨{ name := "app", stage := ⟨"PostParse", 2⟩ }, ()⟩,
    .deployAll [.mk "app" .none [] [] [], .mk "db" .none [] [] []],
    .change ⟨"PostParse", 2⟩ false ["app", "db"], .undeploy "db"]

/-- The same controller as `parsing`, but one that keeps its events. -/
def collecting : Controller Unit Unit := { parsing with sink := .collecting }

theorem events_faithful_faltering :
    (collecting.serveAll touchy faltering).Faithful "" ∧
      ((collecting.serveAll touchy faltering).events ""
        (collecting.serveAll touchy faltering).journal.toList).filterMap
          (fun e ↦ (e.count? "failed").map fun n ↦ (n, e.count? "invocations")) =
        [(0, some 0), (1, some 1), (0, some 1)] := by
  have hbuild : build parsing.config .collecting (Roster.vacant Chain.standard) () =
    .ok collecting := rfl
  exact ⟨events_faithful ((Reachable.build hbuild).serveAll faltering) (by decide +kernel)
    (by decide +kernel) "", by decide +kernel⟩

end Controller

end Rollout
