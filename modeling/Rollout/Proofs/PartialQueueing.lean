import Rollout.Proofs.BatchOutcome

/-!
Calls that are refused while they queue. A call that brings several deployments live queues them one
by one, and the first one that is refused ends it. What was queued before that stays queued, what it
replaces stays scheduled for removal, and the next batch carries it all out, whoever runs it. Only a
call whose first deployment is refused leaves everything as it was.
-/

set_option autoImplicit false
set_option relaxedAutoImplicit false

namespace Rollout

/-- Whether an error tells that a deployment could not be queued. -/
def Error.isRefusal : Error → Bool
  | invalidDeployment .. => true
  | duplicateDeployment .. => true
  | unknownStage .. => true
  | _ => false

/-- The progress of a deployment once it has been scheduled for removal. -/
def Progress.retired (p : Progress) : Progress :=
  { p with removing := true, requested := Stage.floor, waiting := [] }

namespace Board

variable {b : Board} {roots : List Handle} {h : Handle}

theorem order_retireEach (b : Board) (roots : List Handle) :
    (roots.foldl retire b).order = b.order := by
  induction roots generalizing b with
  | nil => rfl
  | cons root roots ih => exact ih (b.retire root)

/-- Scheduling a deployment for removal twice is scheduling it once. -/
theorem get?_retireEach (b : Board) (roots : List Handle) (h : Handle) :
    (roots.foldl retire b).get? h =
      if h ∈ roots then (b.get? h).map Progress.retired else b.get? h := by
  induction roots generalizing b with
  | nil => simp
  | cons root roots ih =>
    have hfirst : (b.retire root).get? h =
        if h = root then (b.get? h).map Progress.retired else b.get? h :=
      Controller.get?_retire b root h
    rw [List.foldl_cons, ih, hfirst]
    by_cases hroot : h = root
    · have htwice : ((b.get? h).map Progress.retired).map Progress.retired =
          (b.get? h).map Progress.retired := by
        rw [Option.map_map]
        rfl
      simp [hroot ▸ htwice, hroot]
    · simp [hroot]

theorem tracked_retireEach (b : Board) (roots : List Handle) :
    (roots.foldl retire b).tracked =
      b.tracked.map fun p ↦ if p.root ∈ roots then p.retired else p := by
  unfold tracked
  rw [order_retireEach, List.map_filterMap]
  refine List.filterMap_congr fun h _ ↦ ?_
  rw [get?_retireEach]
  cases hp : b.get? h with
  | none => simp
  | some p =>
    rw [← root_of_get? hp]
    split <;> simp [*]

end Board

namespace Controller

variable {β σ : Type} {crew : Crew β σ} {c d : Controller β σ} {b : Blueprint}
  {bs : List Blueprint}

/-! Queueing. -/

/-- The live deployments that some new ones replace. -/
def replaced (c : Controller β σ) (bs : List Blueprint) : List Handle :=
  bs.filterMap fun b ↦ c.forest.topLevel? b.name

/-- What is told of a deployment when it is queued. -/
def queueing (c : Controller β σ) (b : Blueprint) : List (Entry β) :=
  ((c.forest.topLevel? b.name).map (Entry.replacing · b.name)).toList ++ [.queued b]

/-- The controller once some deployments have been queued. -/
def enqueued (bs : List Blueprint) (c : Controller β σ) : Controller β σ :=
  { c with
    site := { c.site with
      ambient := { c.site.ambient with journal := c.journal ++ bs.flatMap c.queueing } }
    board := (c.replaced bs).foldl Board.retire c.board
    queue := c.queue ++ bs }

@[simp] theorem enqueued_nil (c : Controller β σ) : c.enqueued [] = c := by
  unfold enqueued
  rw [List.flatMap_nil, List.append_nil, Array.appendList_nil]
  rfl

theorem enqueued_append (bs cs : List Blueprint) (c : Controller β σ) :
    (c.enqueued bs).enqueued cs = c.enqueued (bs ++ cs) := by
  have hreplaced : (c.replaced cs).foldl Board.retire
      ((c.replaced bs).foldl Board.retire c.board) =
        (c.replaced (bs ++ cs)).foldl Board.retire c.board := by
    rw [← List.foldl_append]
    unfold replaced
    rw [List.filterMap_append]
  have hjournal : c.journal ++ bs.flatMap c.queueing ++ cs.flatMap c.queueing =
      c.journal ++ (bs ++ cs).flatMap c.queueing :=
    Array.ext' (by simp)
  have hqueue : c.queue ++ bs ++ cs = c.queue ++ (bs ++ cs) := List.append_assoc ..
  unfold enqueued
  rw [← hreplaced, ← hjournal, ← hqueue]
  rfl

/-- A deployment is queued if nothing speaks against it, and otherwise nothing happens. -/
theorem add_eq (c : Controller β σ) (b : Blueprint) :
    c.add b = match c.queueError? b with
      | some error => (.error error, c)
      | none => (.ok (), c.enqueued [b]) := by
  unfold add
  cases c.queueError? b with
  | some error => rfl
  | none =>
    have hreplaced : c.replaced [b] = (c.forest.topLevel? b.name).toList := by
      unfold replaced
      rw [List.filterMap_cons, List.filterMap_nil]
      cases c.forest.topLevel? b.name <;> rfl
    unfold enqueued
    rw [hreplaced, List.flatMap_singleton, queueing]
    cases c.forest.topLevel? b.name <;> rfl

/-- Deployments are queued up to the first that is refused. -/
theorem addAll_cases (bs : List Blueprint) (c : Controller β σ) :
    addAll bs c = (.ok (), c.enqueued bs) ∨
      ∃ queued refused rest error, bs = queued ++ refused :: rest ∧
        (c.enqueued queued).queueError? refused = some error ∧
        addAll bs c = (.error error, c.enqueued queued) := by
  induction bs generalizing c with
  | nil => exact Or.inl (by rw [enqueued_nil, addAll])
  | cons b bs ih =>
    unfold addAll
    rw [add_eq]
    cases herror : c.queueError? b with
    | some error =>
      refine Or.inr ⟨[], b, bs, error, rfl, ?_, ?_⟩
      · rwa [enqueued_nil]
      · rw [enqueued_nil]
        rfl
    | none =>
      rcases ih (c.enqueued [b]) with hall | ⟨queued, refused, rest, error, rfl, herror, hall⟩
      · refine Or.inl ?_
        rw [enqueued_append] at hall
        exact hall
      · rw [enqueued_append] at herror hall
        exact Or.inr ⟨b :: queued, refused, rest, error, rfl, herror, hall⟩

/-! Refusals. -/

theorem isRefusal_ofNameFault (fault : NameFault) : (Error.ofNameFault fault).isRefusal = true := by
  cases fault <;> rfl

/-- Whatever speaks against queueing a deployment is told as a refusal. -/
theorem isRefusal_of_queueError? {error : Error} (h : c.queueError? b = some error) :
    error.isRefusal = true := by
  unfold queueError? at h
  split at h
  · next fault _ =>
    obtain rfl := Option.some_inj.1 h
    exact isRefusal_ofNameFault fault
  · obtain ⟨s, _, rfl⟩ := Option.map_eq_some_iff.1 h
    rfl

/-- To find that something is incomplete, or unknown, is not to refuse to queue it. -/
theorem isRefusal_of_checkNamed {names : List String} {error : Error}
    (h : c.checkNamed names = .error error) : error.isRefusal = false := by
  unfold checkNamed at h
  split at h
  · next e hroots =>
    obtain rfl := Except.error.inj h
    obtain ⟨_, _, _, rfl⟩ := of_rootsFrom_error hroots
    rfl
  · rw [of_checkRoots_error h]
    rfl

/-- A call is refused if and only if one of its deployments cannot be queued after those before it;
these are left queued. -/
theorem Sound.isRefusal_iff (sound : c.Sound) {error : Error}
    (h : c.deployAll crew bs = (.error error, d)) :
    error.isRefusal = true ↔ ∃ queued refused rest, bs = queued ++ refused :: rest ∧
      (c.enqueued queued).queueError? refused = some error ∧ d = c.enqueued queued := by
  refine ⟨fun refusal ↦ ?_, fun ⟨_, _, _, _, herror, _⟩ ↦ isRefusal_of_queueError? herror⟩
  have hsound := (sound.prepares_addAll crew bs).steps.sound sound
  unfold deployAll at h
  rcases addAll_cases bs c with hall | ⟨queued, refused, rest, found, hbs, herror, hall⟩
  · -- all are queued and no batch fails, so the error tells how far the batch has come
    rw [hall] at h hsound
    rw [andThen_ok, hsound.process_ok crew, andThen_ok, Prod.mk.injEq] at h
    split at h
    · rw [isRefusal_of_checkNamed h.1] at refusal
      exact absurd refusal (by simp)
    · exact absurd h.1 (by simp)
  · rw [hall, andThen_error, Prod.mk.injEq] at h
    obtain rfl := Except.error.inj h.1
    exact ⟨queued, refused, rest, hbs, herror, h.2.symm⟩

/-- A batch takes out what was replaced and brings live what was queued. -/
theorem names_process_enqueued (sound : (c.enqueued bs).Sound) (crew : Crew β σ) :
    ((c.enqueued bs).process crew).2.names =
      (c.board.tracked.filter fun p ↦ !p.removing && p.root ∉ c.replaced bs).map Progress.name ++
        (c.queuedNames ++ bs.map Blueprint.name) := by
  obtain ⟨k, hprocess, hcompleted⟩ := sound.exists_completed crew
  have htracked : (c.enqueued bs).board.tracked =
      c.board.tracked.map fun p ↦ if p.root ∈ c.replaced bs then p.retired else p :=
    c.board.tracked_retireEach (c.replaced bs)
  have hqueued : (c.enqueued bs).queuedNames = c.queuedNames ++ bs.map Blueprint.name :=
    List.map_append
  have hstays : c.board.tracked.filter (fun p ↦
        !(if p.root ∈ c.replaced bs then p.retired else p).removing) =
      c.board.tracked.filter fun p ↦ !p.removing && p.root ∉ c.replaced bs := by
    refine List.filter_congr fun p _ ↦ ?_
    split <;> simp [Progress.retired, *]
  rw [hprocess, hcompleted.tracked, hqueued, htracked, List.filter_map, List.map_map, ← hstays]
  congr 1
  refine List.map_congr_left fun p _ ↦ ?_
  rw [Function.comp_apply]
  split <;> rfl

/-- A call that is refused while it queues has queued what comes before the one that is refused, has
scheduled the live deployments that this replaces for removal, and has done nothing else; the next
batch takes the ones out and brings the others live. The call leaves everything as it was if and
only if its first deployment is refused. -/
theorem deployAll_refused (reachable : Reachable crew c) {error : Error}
    (h : c.deployAll crew bs = (.error error, d)) (refusal : error.isRefusal = true) :
    ∃ queued refused rest, bs = queued ++ refused :: rest ∧
      d.queueError? refused = some error ∧ (d = c ↔ queued = []) ∧ d = c.enqueued queued ∧
      (∀ root, d.board.get? root = if root ∈ c.replaced queued
        then (c.board.get? root).map Progress.retired else c.board.get? root) ∧
      (d.process crew).1 = .ok () ∧ (d.process crew).2.names =
        (c.board.tracked.filter fun p ↦ !p.removing && p.root ∉ c.replaced queued).map
          Progress.name ++ (c.queuedNames ++ queued.map Blueprint.name) := by
  obtain ⟨queued, refused, rest, hbs, herror, rfl⟩ := (reachable.sound.isRefusal_iff h).1 refusal
  have hsound : (c.enqueued queued).Sound := by
    have hserved := (reachable.serve (.deployAll bs)).sound
    change (c.deployAll crew bs).2.Sound at hserved
    rwa [h] at hserved
  refine ⟨queued, refused, rest, hbs, herror, ⟨fun hsame ↦ ?_, fun hnil ↦ ?_⟩, rfl,
    c.board.get?_retireEach (c.replaced queued), ?_, names_process_enqueued hsound crew⟩
  · have hqueue : c.queue ++ queued = c.queue := congrArg Controller.queue hsame
    exact List.append_right_eq_self.1 hqueue
  · rw [hnil, enqueued_nil]
  · rw [hsound.process_ok crew]

/-- A run on which one deployment is live. -/
def settledDb : Controller Unit Unit := parsing.serveAll idle [.deploy (.mk "db" .none [] [] [])]

/-- Three deployments: one that replaces the live one, and two of the same name. -/
def clashing : List Blueprint :=
  [.mk "db" .none [] [] [], .mk "gui" .none [] [] [], .mk "gui" .none [] [] []]

theorem deployAll_refused_clashing :
    ∃ queued refused rest, clashing = queued ++ refused :: rest ∧
      (settledDb.deployAll idle clashing).2.queueError? refused =
        some (.duplicateDeployment "gui") ∧
      (settledDb.deployAll idle clashing).2 = settledDb.enqueued queued ∧
      ((settledDb.deployAll idle clashing).2.process idle).1 = .ok () := by
  have hrefused : (settledDb.deployAll idle clashing).1 =
      .error (.duplicateDeployment "gui") := by decide +kernel
  obtain ⟨queued, refused, rest, hbs, herror, _, heq, _, hok, _⟩ :=
    deployAll_refused (reachable_parsing idle [.deploy (.mk "db" .none [] [] [])])
      (Prod.ext hrefused rfl) rfl
  exact ⟨queued, refused, rest, hbs, herror, heq, hok⟩

/-- The call is refused, and yet the next batch takes the live deployment out, and brings live one
that was not there before. -/
theorem deployAll_queues_some :
    (settledDb.deployAll idle clashing).1 = .error (.duplicateDeployment "gui") ∧
      settledDb.queuedNames = [] ∧
      (settledDb.deployAll idle clashing).2.queuedNames = ["db", "gui"] ∧
      settledDb.board.tracked.map Progress.removing = [false] ∧
      (settledDb.deployAll idle clashing).2.board.tracked.map Progress.removing = [true] ∧
      (settledDb.process idle).2.names = ["db"] ∧
      ((settledDb.deployAll idle clashing).2.process idle).2.names = ["db", "gui"] := by
  decide +kernel

end Controller

end Rollout
