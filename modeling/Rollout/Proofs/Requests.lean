import Rollout.Proofs.Asking

/-!
What clients ask for, step by step. Every request either only prepares a batch, by what it queues
and whom it schedules for removal, or it ends with a batch. So whatever a client can come to have is
sound, comes about in steps, and has nothing above the stage it is asked for but what is to be
removed.
-/

set_option autoImplicit false
set_option relaxedAutoImplicit false

namespace Rollout.Controller

variable {β σ : Type} {crew : Crew β σ} {c d e : Controller β σ} {h root : Handle}
  {p q : Progress} {stage : Stage}

/-! Requests that end with a batch. -/

/-- Every deployment that is not to be removed is at most where it is asked for. -/
def Tidy (c : Controller β σ) : Prop :=
  ∀ {h : Handle} {p : Progress}, c.board.get? h = some p → p.removing = false →
    p.stage.index ≤ p.requested.index

theorem Finished.tidy (finished : Finished c d) : d.Tidy :=
  fun {h p} hp _ ↦ finished.low h p hp

theorem Prepares.tidy (prepares : Prepares crew c d) (tidy : c.Tidy) : d.Tidy := by
  intro h q hq hremoving
  rcases prepares.get? hq with hp | hgoing
  · exact tidy hp hremoving
  · rw [hremoving] at hgoing
    exact absurd hgoing (by simp)

theorem nodup_rootsFrom {names : List String} {found roots : List Handle} (hnodup : found.Nodup)
    (hroots : c.rootsFrom found names = .ok roots) : roots.Nodup := by
  induction names generalizing found with
  | nil =>
    obtain rfl := Except.ok.inj hroots
    exact hnodup
  | cons name names ih =>
    unfold rootsFrom at hroots
    split at hroots
    · exact absurd hroots (by simp)
    · next u _ =>
      refine ih ?_ hroots
      split
      · exact hnodup
      · next hnew =>
        rw [List.nodup_append]
        refine ⟨hnodup, List.nodup_singleton _, fun h hh k hk heq ↦ hnew ?_⟩
        rw [← List.mem_singleton.1 hk, ← heq]
        exact hh

/-- Names lead to deployments unless one of them is not live. -/
theorem of_rootsFrom_error {names : List String} {found : List Handle} {error : Error}
    (hroots : c.rootsFrom found names = .error error) :
    ∃ name ∈ names, c.unit? name = none ∧ error = .unknownDeployment name := by
  induction names generalizing found with
  | nil => exact absurd hroots (by simp [rootsFrom])
  | cons name names ih =>
    unfold rootsFrom at hroots
    split at hroots
    · next hnone => exact ⟨name, List.mem_cons_self, hnone, (Except.error.inj hroots).symm⟩
    · obtain ⟨other, hother, hdead⟩ := ih hroots
      exact ⟨other, List.mem_cons_of_mem _ hother, hdead⟩

/-- Deployments are turned down for nothing but what a report lists. -/
theorem of_checkRoots_error {roots : List Handle} {error : Error}
    (hcheck : c.checkRoots roots = .error error) :
    error = .incomplete (Report.of (roots.filterMap c.board.get?)) := by
  unfold checkRoots demandEmpty at hcheck
  split at hcheck
  · exact absurd hcheck (by simp)
  · exact (Except.error.inj hcheck).symm

theorem aims_eq_ok_iff {names : List String} {target : Stage} {roots : List Handle} :
    c.aims stage names = .ok (target, roots) ↔
      c.chain.resolve? stage = some target ∧ c.roots names = .ok roots := by
  unfold aims
  cases c.chain.resolve? stage with
  | none => simp
  | some t => cases c.roots names <;> simp [Except.map]

theorem of_aims {names : List String} {target : Stage} {roots : List Handle}
    (haims : c.aims stage names = .ok (target, roots)) :
    c.chain.contains target = true ∧ roots.Nodup := by
  obtain ⟨htarget, hroots⟩ := aims_eq_ok_iff.1 haims
  exact ⟨Chain.contains_of_resolve? htarget, nodup_rootsFrom List.nodup_nil hroots⟩

theorem get?_requestEach {roots : List Handle} (hnodup : roots.Nodup) :
    (c.requestEach roots stage).board.get? h =
      if h ∈ roots then (c.board.get? h).map (asked stage) else c.board.get? h := by
  rw [← List.map_id roots] at hnodup
  obtain ⟨hother, heach⟩ := get?_foldl id (fun _ ↦ Option.map (asked stage))
    (fun b root h ↦ get?_request b root h stage) hnodup c.board
  split
  · next hh => exact heach h hh
  · next hh => exact hother h (by rwa [List.map_id])

theorem Sound.step_requestEach (sound : c.Sound) (crew : Crew β σ) {roots : List Handle}
    (hnodup : roots.Nodup) (hstage : c.chain.contains stage = true)
    (hnamed : ∀ h ∈ roots, c.JustNamed h) : Step crew c (c.requestEach roots stage) := by
  have horder : (c.requestEach roots stage).board.order = c.board.order :=
    order_foldl (fun b root ↦ b.request root stage) (fun _ _ ↦ rfl) roots c.board
  have hget : ∀ h, (c.requestEach roots stage).board.get? h =
      if h ∈ roots then (c.board.get? h).map (asked stage) else c.board.get? h := fun h ↦
    get?_requestEach hnodup
  refine sound.step_ask horder (fun h ↦ ?_) fun h p failure hp hfailure ↦ ?_
  · show (c.requestEach roots stage).board.get? h = _ ∨ ∃ p q, _ ∧
      (c.requestEach roots stage).board.get? h = _ ∧ _
    rw [hget]
    split
    · cases hp : c.board.get? h with
      | none => exact Or.inl rfl
      | some p =>
        cases hremoving : p.removing with
        | true =>
          exact Or.inl (congrArg some (asked_of_removing hremoving stage))
        | false =>
          refine Or.inr ⟨p, asked stage p, rfl, rfl, ?_⟩
          rw [asked_of_staying hremoving]
          have hnever : p.removing ≠ true := by simp [hremoving]
          exact ⟨⟨rfl, sound.stage (p := p) hp, hstage, fun hgoing ↦ absurd hgoing hnever,
            fun hgoing ↦ absurd hgoing hnever⟩, rfl, fun hwaiting ↦ absurd rfl hwaiting⟩
    · exact Or.inl rfl
  · by_cases hh : h ∈ roots
    · exact Or.inr (hnamed h hh)
    · refine Or.inl ⟨p, ?_, hfailure⟩
      show (c.requestEach roots stage).board.get? h = some p
      rw [hget, if_neg hh, hp]

/-! Bouncing. -/

theorem mem_bounced_iff {target : Stage} {roots : List Handle} :
    p ∈ c.bounced target roots ↔
      p.root ∈ roots ∧ c.board.get? p.root = some p ∧ p.removing = false ∧ target < p.stage := by
  unfold bounced
  rw [List.mem_filter, List.mem_filterMap, Bool.and_eq_true, decide_eq_true_eq, Bool.not_eq_true']
  constructor
  · rintro ⟨⟨h, hh, hp⟩, hrest⟩
    obtain rfl := Board.root_of_get? hp
    exact ⟨hh, hp, hrest⟩
  · rintro ⟨hh, hp, hrest⟩
    exact ⟨⟨p.root, hh, hp⟩, hrest⟩

theorem Sound.of_mem_bounced (sound : c.Sound) {target : Stage} {roots : List Handle}
    (htarget : c.chain.contains target = true) (hp : p ∈ c.bounced target roots) :
    c.board.get? p.root = some p ∧ p.removing = false ∧ target.index < p.stage.index := by
  obtain ⟨_, hp, hremoving, hlt⟩ := mem_bounced_iff.1 hp
  exact ⟨hp, hremoving, (Chain.lt_iff_index htarget (sound.stage hp)).1 hlt⟩

theorem nodup_bounced {target : Stage} {roots : List Handle} (hnodup : roots.Nodup) :
    ((c.bounced target roots).map Progress.root).Nodup := by
  have hread : ∀ hs : List Handle, ((hs.filterMap c.board.get?).map Progress.root).Sublist hs := by
    intro hs
    induction hs with
    | nil => exact .slnil
    | cons h hs ih =>
      cases hp : c.board.get? h with
      | none =>
        rw [List.filterMap_cons_none hp]
        exact ih.cons h
      | some p =>
        rw [List.filterMap_cons_some hp, List.map_cons, Board.root_of_get? hp]
        exact ih.cons_cons h
  exact hnodup.sublist ((List.filter_sublist.map _).trans (hread roots))

theorem get?_aimEach {ps : List Progress} (aim : Progress → Stage)
    (hnodup : (ps.map Progress.root).Nodup) :
    (∀ h, h ∉ ps.map Progress.root →
        (c.aimEach ps aim).board.get? h = c.board.get? h) ∧
      ∀ q ∈ ps, (c.aimEach ps aim).board.get? q.root =
        (c.board.get? q.root).map fun p ↦ { p with requested := aim q } :=
  get?_foldl Progress.root (fun q ↦ Option.map fun p ↦ { p with requested := aim q })
    (fun b q h ↦ get?_aim b q.root h (aim q)) hnodup c.board

theorem get?_reinstateEach {ps : List Progress} (hnodup : (ps.map Progress.root).Nodup)
    (b : Board) :
    (∀ h, h ∉ ps.map Progress.root → (ps.foldl reinstate b).get? h = b.get? h) ∧
      ∀ q ∈ ps, (ps.foldl reinstate b).get? q.root = (b.get? q.root).map (reinstated q) :=
  get?_foldl Progress.root (fun q ↦ Option.map (reinstated q)) get?_reinstate hnodup b

/-- The controller that a bounce first runs a batch on: deployments are asked to go down. -/
def sinking (target : Stage) (ps : List Progress) (c : Controller β σ) : Controller β σ :=
  (c.note (.bouncing target (ps.map Progress.root))).requestEach (ps.map Progress.root) target

/-- The controller that a bounce then runs a batch on: they are asked to come up again. -/
def rising (ps : List Progress) (c : Controller β σ) : Controller β σ :=
  c.aimEach ps Progress.stage

/-- The controller that a bounce runs its last batch on: they are given back what they were asked
for before. -/
def returning (ps : List Progress) (c : Controller β σ) : Controller β σ :=
  { c with board := ps.foldl reinstate c.board }

/-- A board on which some deployments have been asked for something else, each in its own way. -/
structure Reasks (ps : List Progress) (f : Progress → Progress → Progress) (b b' : Board) :
    Prop where
  order : b'.order = b.order
  other : ∀ h, h ∉ ps.map Progress.root → b'.get? h = b.get? h
  each : ∀ p ∈ ps, b'.get? p.root = (b.get? p.root).map (f p)

theorem Reasks.cases {ps : List Progress} {f : Progress → Progress → Progress} {b b' : Board}
    (reasks : Reasks ps f b b') (hq : b'.get? h = some q) :
    h ∉ ps.map Progress.root ∧ b.get? h = some q ∨
      ∃ p ∈ ps, p.root = h ∧ ∃ r, b.get? h = some r ∧ f p r = q := by
  by_cases hh : h ∈ ps.map Progress.root
  · obtain ⟨p, hp, rfl⟩ := List.mem_map.1 hh
    rw [reasks.each p hp, Option.map_eq_some_iff] at hq
    exact Or.inr ⟨p, hp, rfl, hq⟩
  · rw [reasks.other h hh] at hq
    exact Or.inl ⟨hh, hq⟩

theorem reasks_sinking {ps : List Progress} (hnodup : (ps.map Progress.root).Nodup)
    (target : Stage) (c : Controller β σ) :
    Reasks ps (fun _ ↦ asked target) c.board (c.sinking target ps).board := by
  have hget : ∀ h, (c.sinking target ps).board.get? h =
      if h ∈ ps.map Progress.root then (c.board.get? h).map (asked target) else c.board.get? h :=
    fun h ↦ get?_requestEach hnodup
  refine ⟨order_foldl (fun b root ↦ b.request root target) (fun _ _ ↦ rfl) _ _, fun h hh ↦ ?_,
    fun p hp ↦ ?_⟩
  · rw [hget, if_neg hh]
  · rw [hget, if_pos (List.mem_map_of_mem hp)]

theorem reasks_rising {ps : List Progress} (hnodup : (ps.map Progress.root).Nodup)
    (c : Controller β σ) :
    Reasks ps (fun p q ↦ { q with requested := p.stage }) c.board (c.rising ps).board :=
  ⟨order_foldl (fun b (p : Progress) ↦ b.aim p.root p.stage) (fun _ _ ↦ rfl) ps c.board,
    (get?_aimEach Progress.stage hnodup).1, (get?_aimEach Progress.stage hnodup).2⟩

theorem reasks_returning {ps : List Progress} (hnodup : (ps.map Progress.root).Nodup)
    (c : Controller β σ) : Reasks ps reinstated c.board (c.returning ps).board :=
  ⟨order_foldl reinstate order_reinstate ps c.board, (get?_reinstateEach hnodup c.board).1,
    (get?_reinstateEach hnodup c.board).2⟩

/-- The three batches of a bounce. -/
structure Bounces (crew : Crew β σ) (target : Stage) (ps : List Progress)
    (c d₁ d₂ d₃ : Controller β σ) : Prop where
  first : (c.sinking target ps).process crew = (.ok (), d₁)
  second : (d₁.rising ps).process crew = (.ok (), d₂)
  third : (d₂.returning ps).process crew = (.ok (), d₃)
  sinks : Steps crew c (c.sinking target ps)
  rises : Step crew d₁ (d₁.rising ps)
  returns : Step crew d₂ (d₂.returning ps)

/-- How a deployment that is bounced stands before it is asked to come up again and after. -/
theorem exists_bounced {target : Stage} {ps : List Progress} {d₁ : Controller β σ}
    (hnodup : (ps.map Progress.root).Nodup) (hp : c.board.get? p.root = some p) (hmem : p ∈ ps)
    (hremoving : p.removing = false) (first : Finished (c.sinking target ps) d₁) :
    ∃ q, d₁.board.get? p.root = some q ∧ q.requested = target ∧ q.removing = false ∧
      q.stage.index ≤ target.index := by
  have hsunk := (reasks_sinking hnodup target c).each p hmem
  rw [hp, Option.map_some, asked_of_staying hremoving] at hsunk
  obtain ⟨q, hq, _, hrequested, _⟩ := first.kept hsunk hremoving
  have hlow := first.low p.root q hq
  rw [hrequested] at hlow
  exact ⟨q, hq, hrequested, first.staying hq, hlow⟩

theorem Sound.asked_aim (sound : c.Sound) (waits : c.Waits) (hq : c.board.get? h = some q)
    (hremoving : q.removing = false) (hstage : c.chain.contains stage = true)
    (hlt : q.waiting ≠ [] → q.stage.index < stage.index) :
    Asked c.chain q { q with requested := stage } := by
  refine ⟨⟨rfl, sound.stage (p := q) hq, hstage, fun hgoing ↦ ?_, id⟩, rfl,
    fun hwaiting ↦ ⟨(waits hq hwaiting).1, hlt hwaiting⟩⟩
  exact absurd (hremoving.symm.trans hgoing) (by simp)

theorem Sound.asked_reinstated (sound : c.Sound) (waits : c.Waits)
    (hq : c.board.get? h = some q) (hremoving : q.removing = false)
    (hstage : c.chain.contains p.requested = true)
    (hlt : q.waiting ≠ [] → q.stage.index < p.requested.index) :
    Asked c.chain q (reinstated p q) := by
  have haim := sound.asked_aim waits hq hremoving hstage hlt
  cases herror : p.error with
  | none =>
    rw [reinstated_of_kept (Or.inl herror)]
    exact haim
  | some failure =>
    by_cases hback : q.error = none ∧ q.stage = p.stage
    · rw [reinstated_of_back herror hback.1 hback.2]
      exact ⟨⟨haim.name, haim.stage, haim.requested, haim.removing, haim.still⟩, rfl,
        fun hwaiting ↦ absurd rfl hwaiting⟩
    · rw [reinstated_of_kept (Or.inr hback)]
      exact haim

theorem Sound.step_reask (sound : c.Sound) (crew : Crew β σ) {ps : List Progress}
    {f : Progress → Progress → Progress} {board : Board} (reasks : Reasks ps f c.board board)
    (hps : ∀ p ∈ ps, ∀ q, c.board.get? p.root = some q → Asked c.chain q (f p q))
    (hkept : ∀ p q failure, q.error = some failure → (f p q).error = some failure) :
    Step crew c { c with board } := by
  refine sound.step_ask reasks.order (fun h ↦ ?_) fun h q failure hq hfailure ↦ Or.inl ?_
  · by_cases hh : h ∈ ps.map Progress.root
    · obtain ⟨p, hp, rfl⟩ := List.mem_map.1 hh
      have hget := reasks.each p hp
      cases hq : c.board.get? p.root with
      | none =>
        rw [hq] at hget
        exact Or.inl hget
      | some q =>
        rw [hq] at hget
        exact Or.inr ⟨q, _, rfl, hget, hps p hp q hq⟩
    · exact Or.inl (reasks.other h hh)
  · by_cases hh : h ∈ ps.map Progress.root
    · obtain ⟨p, hp, rfl⟩ := List.mem_map.1 hh
      have hget := reasks.each p hp
      rw [hq] at hget
      exact ⟨f p q, hget, hkept p q failure hfailure⟩
    · exact ⟨q, (reasks.other h hh).trans hq, hfailure⟩

theorem Sound.step_rising (sound : c.Sound) (waits : c.Waits) (crew : Crew β σ)
    {ps : List Progress} (hnodup : (ps.map Progress.root).Nodup)
    (hps : ∀ p ∈ ps, c.chain.contains p.stage = true ∧ ∀ q, c.board.get? p.root = some q →
      q.removing = false ∧ (q.waiting ≠ [] → q.stage.index < p.stage.index)) :
    Step crew c (c.rising ps) := by
  refine sound.step_reask crew (reasks_rising hnodup c) (fun p hp q hq ↦ ?_) fun _ _ _ ↦ id
  obtain ⟨hcontains, hbelow⟩ := hps p hp
  obtain ⟨hremoving, hlt⟩ := hbelow q hq
  exact sound.asked_aim waits hq hremoving hcontains hlt

theorem Sound.step_returning (sound : c.Sound) (waits : c.Waits) (crew : Crew β σ)
    {ps : List Progress} (hnodup : (ps.map Progress.root).Nodup)
    (hps : ∀ p ∈ ps, c.chain.contains p.requested = true ∧ ∀ q, c.board.get? p.root = some q →
      q.removing = false ∧ (q.waiting ≠ [] → q.stage.index < p.requested.index)) :
    Step crew c (c.returning ps) := by
  refine sound.step_reask crew (reasks_returning hnodup c) (fun p hp q hq ↦ ?_)
    fun p q failure hfailure ↦ (if_neg (by simp [hfailure])).trans hfailure
  obtain ⟨hcontains, hbelow⟩ := hps p hp
  obtain ⟨hremoving, hlt⟩ := hbelow q hq
  exact sound.asked_reinstated waits hq hremoving hcontains hlt

/-- How a deployment that is bounced stands once it has been asked to come up again. -/
theorem exists_risen {ps : List Progress} {d₂ : Controller β σ}
    (hnodup : (ps.map Progress.root).Nodup) (hmem : p ∈ ps) (hq : c.board.get? p.root = some q)
    (hremoving : q.removing = false) (second : Finished (c.rising ps) d₂) :
    ∃ r, d₂.board.get? p.root = some r ∧ r.requested = p.stage ∧ r.removing = false := by
  have hrisen := (reasks_rising hnodup c).each p hmem
  rw [hq, Option.map_some] at hrisen
  obtain ⟨r, hr, _, hrequested, _⟩ := second.kept hrisen hremoving
  exact ⟨r, hr, hrequested, second.staying hr⟩

/-- The batches of a bounce all come to their end. -/
theorem exists_bounces (crew : Crew β σ) (sound : c.Sound) (waits : c.Waits) (tidy : c.Tidy)
    {target : Stage} (htarget : c.chain.contains target = true) {ps : List Progress}
    (hnodup : (ps.map Progress.root).Nodup) (hps : ∀ p ∈ ps, c.board.get? p.root = some p ∧
      p.removing = false ∧ target.index < p.stage.index) :
    ∃ d₁ d₂ d₃, Bounces crew target ps c d₁ d₂ d₃ := by
  have hsinks : Steps crew c (c.sinking target ps) :=
    .head (.remark rfl) (.single ((sound.note _).step_requestEach crew hnodup htarget
      fun _ hh ↦ justNamed_note c hh))
  have hsunk := Steps.sound hsinks sound
  have hfirst := hsunk.process_ok crew
  have hfinished := hsunk.finished_process crew
  have hsteps₁ := hsinks.trans (hsunk.steps_process crew)
  generalize ((c.sinking target ps).process crew).2 = d₁ at *
  have hd₁ := Steps.sound hsteps₁ sound
  have hrises : Step crew d₁ (d₁.rising ps) := by
    refine hd₁.step_rising (Steps.waits hsteps₁ sound waits) crew hnodup fun p hp ↦ ?_
    obtain ⟨hget, hremoving, hlt⟩ := hps p hp
    obtain ⟨q, hq, _, hgoing, hle⟩ := exists_bounced hnodup hget hp hremoving hfinished
    refine ⟨hfinished.chain ▸ sound.stage hget, fun q' hq' ↦ ?_⟩
    obtain rfl := Option.some_inj.1 (hq.symm.trans hq')
    exact ⟨hgoing, fun _ ↦ Nat.lt_of_le_of_lt hle hlt⟩
  have hrisen := hrises.sound hd₁
  have hsecond := hrisen.process_ok crew
  have hfinished' := hrisen.finished_process crew
  have hsteps₂ := (hsteps₁.tail hrises).trans (hrisen.steps_process crew)
  generalize ((d₁.rising ps).process crew).2 = d₂ at *
  have hd₂ := Steps.sound hsteps₂ sound
  have hwaits₂ : d₂.Waits := Steps.waits hsteps₂ sound waits
  have hreturns : Step crew d₂ (d₂.returning ps) := by
    refine hd₂.step_returning hwaits₂ crew hnodup fun p hp ↦ ?_
    obtain ⟨hget, hremoving, _⟩ := hps p hp
    obtain ⟨q, hq, _, hgoing, _⟩ := exists_bounced hnodup hget hp hremoving hfinished
    obtain ⟨r, hr, hrequested, hgoing'⟩ := exists_risen hnodup hp hq hgoing hfinished'
    refine ⟨?_, fun r' hr' ↦ ?_⟩
    · rw [hfinished'.chain]
      exact hfinished.chain ▸ sound.requested hget
    · obtain rfl := Option.some_inj.1 (hr.symm.trans hr')
      refine ⟨hgoing', fun hwaiting ↦ Nat.lt_of_lt_of_le (hwaits₂ hr hwaiting).2 ?_⟩
      rw [hrequested]
      exact tidy hget hremoving
  have hthird := (hreturns.sound hd₂).process_ok crew
  exact ⟨d₁, d₂, _, hfirst, hsecond, hthird, hsinks, hrises, hreturns⟩

/-- A bounce ends with its third batch, and with a look at whoever it was about. -/
theorem Bounces.bounce_eq {names : List String} {target : Stage} {roots : List Handle}
    {d₁ d₂ d₃ : Controller β σ} (bounces : Bounces crew target (c.bounced target roots) c d₁ d₂ d₃)
    (haims : c.aims stage names = .ok (target, roots)) (strict : Bool) :
    c.bounce crew stage strict names = (if strict then d₃.checkRoots roots else .ok (), d₃) := by
  unfold bounce
  rw [haims]
  show andThen ((c.sinking target (c.bounced target roots)).process crew) _ = _
  rw [bounces.first, andThen_ok]
  show andThen ((d₁.rising (c.bounced target roots)).process crew) _ = _
  rw [bounces.second, andThen_ok]
  show andThen ((d₂.returning (c.bounced target roots)).process crew) _ = _
  rw [bounces.third, andThen_ok]

theorem exists_bounce (crew : Crew β σ) (sound : c.Sound) (waits : c.Waits) (tidy : c.Tidy)
    {names : List String} {target : Stage} {roots : List Handle} (strict : Bool)
    (haims : c.aims stage names = .ok (target, roots)) :
    ∃ d₁ d₂ d₃, Bounces crew target (c.bounced target roots) c d₁ d₂ d₃ ∧
      (c.bounce crew stage strict names).2 = d₃ := by
  obtain ⟨htarget, hroots⟩ := of_aims haims
  obtain ⟨d₁, d₂, d₃, hbounces⟩ := exists_bounces crew sound waits tidy htarget
    (nodup_bounced hroots) fun p ↦ sound.of_mem_bounced htarget
  exact ⟨d₁, d₂, d₃, hbounces, by rw [hbounces.bounce_eq haims strict]⟩

theorem Sound.steps_of_process (sound : c.Sound) (hprocess : c.process crew = (.ok (), d)) :
    Steps crew c d := by
  have hsteps := sound.steps_process crew
  rw [hprocess] at hsteps
  exact hsteps

/-- The steps of a bounce up to its second batch, and up to its third. -/
theorem Bounces.steps {target : Stage} {ps : List Progress} {d₁ d₂ d₃ : Controller β σ}
    (bounces : Bounces crew target ps c d₁ d₂ d₃) (sound : c.Sound) :
    Steps crew c (d₁.rising ps) ∧ Steps crew (d₁.rising ps) (d₂.returning ps) := by
  have hsunk := Steps.sound bounces.sinks sound
  have hfirst := (bounces.sinks.trans (hsunk.steps_of_process bounces.first)).tail bounces.rises
  have hrisen := Steps.sound hfirst sound
  exact ⟨hfirst, (hrisen.steps_of_process bounces.second).tail bounces.returns⟩

theorem Sound.finished_of_process (sound : c.Sound) (hprocess : c.process crew = (.ok (), d)) :
    Finished c d := by
  have hfinished := sound.finished_process crew
  rw [hprocess] at hfinished
  exact hfinished

theorem Bounces.sound_second {target : Stage} {ps : List Progress} {d₁ d₂ d₃ : Controller β σ}
    (bounces : Bounces crew target ps c d₁ d₂ d₃) (sound : c.Sound) : d₂.Sound := by
  have hrisen := Steps.sound (bounces.steps sound).1 sound
  exact Steps.sound (hrisen.steps_of_process bounces.second) hrisen

theorem Bounces.chain_second {target : Stage} {ps : List Progress} {d₁ d₂ d₃ : Controller β σ}
    (bounces : Bounces crew target ps c d₁ d₂ d₃) (sound : c.Sound) : d₂.chain = c.chain := by
  have hrisen := Steps.sound (bounces.steps sound).1 sound
  have hsecond := (hrisen.finished_of_process bounces.second).chain
  exact hsecond.trans ((Steps.sound bounces.sinks sound).finished_of_process bounces.first).chain

theorem Bounces.continues_third {target : Stage} {ps : List Progress}
    {d₁ d₂ d₃ : Controller β σ} (bounces : Bounces crew target ps c d₁ d₂ d₃) (sound : c.Sound) :
    Continues d₂ d₃ := by
  obtain ⟨hrises, hreturns⟩ := bounces.steps sound
  have hreturned := Steps.sound (hrises.trans hreturns) sound
  exact Steps.continues (.head bounces.returns (hreturned.steps_of_process bounces.third))
    (bounces.sound_second sound)

/-- A deployment that takes part in a bounce is asked for the stage it had reached in its second
batch, and comes no further. -/
theorem Bounces.exists_risen {target : Stage} {ps : List Progress} {d₁ d₂ d₃ : Controller β σ}
    (bounces : Bounces crew target ps c d₁ d₂ d₃) (sound : c.Sound)
    (hnodup : (ps.map Progress.root).Nodup) (hmem : p ∈ ps) (hp : c.board.get? p.root = some p)
    (hremoving : p.removing = false) :
    ∃ q, d₂.board.get? p.root = some q ∧ q.requested = p.stage ∧ q.removing = false ∧
      q.stage.index ≤ p.stage.index := by
  have hfirst := (Steps.sound bounces.sinks sound).finished_of_process bounces.first
  have hsecond := (Steps.sound (bounces.steps sound).1 sound).finished_of_process bounces.second
  obtain ⟨q, hq, _, hgoing, _⟩ := exists_bounced hnodup hp hmem hremoving hfirst
  obtain ⟨r, hr, hrequested, hgoing'⟩ :=
    Controller.exists_risen hnodup hmem hq hgoing hsecond
  have hlow := hsecond.low p.root r hr
  rw [hrequested] at hlow
  exact ⟨r, hr, hrequested, hgoing', hlow⟩

/-! All requests. -/

theorem prepares_staff (crew : Crew β σ) {ambient : Ambient β σ}
    (passed : c.site.ambient.Passed ambient []) :
    Prepares crew c { c with site := { c.site with ambient } } := by
  obtain ⟨es, hes, hcrew, hcalls⟩ := passed.journal
  refine ⟨.single (.staff passed), rfl, rfl, Or.inl, es, hes, fun entry hentry ↦ ?_⟩
  have hof := hcrew entry hentry
  have hcall := List.filter_eq_nil_iff.1 hcalls entry hentry
  cases entry <;>
    first | rfl | exact absurd rfl hcall | exact absurd hof (by simp [Entry.ofCrew, Entry.isCall])

theorem prepares_enlist (crew : Crew β σ) (c : Controller β σ) (d : Deployer β) :
    Prepares crew c (c.enlist d).2 := by
  unfold enlist
  cases henlist : c.site.ambient.enlist d with
  | error error => exact .refl crew c
  | ok ambient => exact prepares_staff crew (c.site.ambient.passed_enlist d henlist)

/-- A leg of a request: something is written down that is not done in a batch, or a batch is run. -/
inductive Leg (crew : Crew β σ) : Controller β σ → Controller β σ → Prop
  | plan {c d : Controller β σ} {es : List (Entry β)} :
    Steps crew c d → d.journal.toList = c.journal.toList ++ es →
    (∀ entry ∈ es, entry.ofBatch = false) → Leg crew c d
  | batch (c : Controller β σ) : Leg crew c (c.process crew).2

/-- Legs one after another. -/
abbrev Course (crew : Crew β σ) : Controller β σ → Controller β σ → Prop :=
  Relation.ReflTransGen (Leg crew)

theorem Leg.steps (leg : Leg crew c d) (sound : c.Sound) : Steps crew c d := by
  cases leg with
  | plan hsteps _ _ => exact hsteps
  | batch => exact sound.steps_process crew

theorem Course.steps (course : Course crew c d) (sound : c.Sound) : Steps crew c d := by
  induction course with
  | refl => exact .refl
  | tail _ leg ih => exact ih.trans (leg.steps (Steps.sound ih sound))

theorem Prepares.leg (prepares : Prepares crew c d) : Leg crew c d := by
  obtain ⟨_, hes, hbatch⟩ := prepares.journal
  exact .plan prepares.steps hes hbatch

theorem leg_of_process (hprocess : c.process crew = (.ok (), d)) : Leg crew c d := by
  have hleg : Leg crew c (c.process crew).2 := .batch c
  rwa [hprocess] at hleg

/-- The legs of a bounce up to its third batch. -/
theorem Bounces.course {target : Stage} {ps : List Progress} {d₁ d₂ d₃ : Controller β σ}
    (bounces : Bounces crew target ps c d₁ d₂ d₃) : Course crew c (d₂.returning ps) := by
  have hsinks : Leg crew c (c.sinking target ps) :=
    .plan bounces.sinks (journal_note c (.bouncing target (ps.map Progress.root))) (by simp; rfl)
  have hrises : Leg crew d₁ (d₁.rising ps) :=
    .plan (.single bounces.rises) (List.append_nil _).symm (by simp)
  have hreturns : Leg crew d₂ (d₂.returning ps) :=
    .plan (.single bounces.returns) (List.append_nil _).symm (by simp)
  exact ((((Relation.ReflTransGen.single hsinks).tail (leg_of_process bounces.first)).tail
    hrises).tail (leg_of_process bounces.second)).tail hreturns

/-- A request only prepares a batch, or it ends with one. -/
def Served (crew : Crew β σ) (c d : Controller β σ) : Prop :=
  Prepares crew c d ∨ ∃ m, Course crew c m ∧ d = (m.process crew).2

/-- A request only prepares a batch, or it prepares one and runs it. -/
def Routine (crew : Crew β σ) (c d : Controller β σ) : Prop :=
  Prepares crew c d ∨ ∃ m, Prepares crew c m ∧ d = (m.process crew).2

theorem Routine.served (routine : Routine crew c d) : Served crew c d := by
  rcases routine with hprepares | ⟨m, hprepares, heq⟩
  · exact Or.inl hprepares
  · exact Or.inr ⟨m, .single hprepares.leg, heq⟩

theorem Sound.routine_deployAll (sound : c.Sound) (crew : Crew β σ) (bs : List Blueprint) :
    Routine crew c (c.deployAll crew bs).2 := by
  have hprepares := sound.prepares_addAll crew bs
  unfold deployAll
  cases hadd : addAll bs c with
  | mk result d =>
    rw [hadd] at hprepares
    cases result with
    | error error => exact Or.inl hprepares
    | ok _ =>
      refine Or.inr ⟨d, hprepares, ?_⟩
      rw [andThen_ok, (Steps.sound hprepares.steps sound).process_ok crew, andThen_ok]

theorem Sound.routine_undeploy (sound : c.Sound) (crew : Crew β σ) (name : String) :
    Routine crew c (c.undeploy crew name).2 := by
  have hprepares := sound.prepares_remove crew name
  unfold undeploy
  cases hremove : c.remove name with
  | mk result d =>
    rw [hremove] at hprepares
    cases result with
    | error error => exact Or.inl hprepares
    | ok found =>
      cases found with
      | false => exact Or.inl hprepares
      | true =>
        refine Or.inr ⟨d, hprepares, ?_⟩
        simp only
        rw [(Steps.sound hprepares.steps sound).process_ok crew, andThen_ok]

/-- A request that names no stage is a routine one. -/
theorem Sound.routine_serve (sound : c.Sound) (crew : Crew β σ) {r : Request β σ}
    (hchange : ∀ stage strict names, r ≠ .change stage strict names)
    (hbounce : ∀ stage strict names, r ≠ .bounce stage strict names) :
    Routine crew c (c.serve crew r).2 := by
  cases r with
  | add b => exact Or.inl (sound.prepares_add crew b)
  | remove name => exact Or.inl (sound.prepares_remove crew name)
  | process => exact Or.inr ⟨c, .refl crew c, rfl⟩
  | deploy b => exact sound.routine_deployAll crew [b]
  | deployAll bs => exact sound.routine_deployAll crew bs
  | undeploy name => exact sound.routine_undeploy crew name
  | change stage strict names => exact absurd rfl (hchange stage strict names)
  | bounce stage strict names => exact absurd rfl (hbounce stage strict names)
  | enlist d => exact Or.inl (prepares_enlist crew c d)
  | dismiss name => exact Or.inl (prepares_staff crew (c.site.ambient.passed_dismiss name))
  | replaceState state => exact Or.inl (prepares_staff crew (c.site.ambient.passed_state state))

/-- The controller that a change runs its batch on. -/
def changing (target : Stage) (roots : List Handle) (c : Controller β σ) : Controller β σ :=
  (c.note (.changing target roots)).requestEach roots target

theorem Sound.steps_changing (sound : c.Sound) (crew : Crew β σ) {names : List String}
    {target : Stage} {roots : List Handle} (haims : c.aims stage names = .ok (target, roots)) :
    Steps crew c (c.changing target roots) := by
  obtain ⟨htarget, hnodup⟩ := of_aims haims
  exact .head (.remark rfl) (.single ((sound.note _).step_requestEach crew hnodup htarget
    fun _ hh ↦ justNamed_note c hh))

/-- A change that is accepted ends with its batch, and with a look at whoever it was about. -/
theorem Sound.change_eq (sound : c.Sound) (crew : Crew β σ) {names : List String}
    {target : Stage} {roots : List Handle} (haims : c.aims stage names = .ok (target, roots))
    (strict : Bool) :
    c.change crew stage strict names =
      (if strict then ((c.changing target roots).process crew).2.checkRoots roots else .ok (),
        ((c.changing target roots).process crew).2) := by
  have hsound := Steps.sound (sound.steps_changing crew haims) sound
  unfold change
  rw [haims]
  show andThen ((c.changing target roots).process crew) _ = _
  rw [hsound.process_ok crew, andThen_ok]

theorem Sound.served_change (sound : c.Sound) (crew : Crew β σ) (stage : Stage) (strict : Bool)
    (names : List String) : Served crew c (c.change crew stage strict names).2 := by
  cases haims : c.aims stage names with
  | error error =>
    unfold change
    rw [haims]
    exact Or.inl (.refl crew c)
  | ok aim =>
    obtain ⟨target, roots⟩ := aim
    have hplan : Leg crew c (c.changing target roots) := .plan (sound.steps_changing crew haims)
      (journal_note c (.changing target roots)) (by simp; rfl)
    rw [sound.change_eq crew haims strict]
    exact Or.inr ⟨_, .single hplan, rfl⟩

theorem Sound.served_bounce (sound : c.Sound) (crew : Crew β σ) (waits : c.Waits) (tidy : c.Tidy)
    (stage : Stage) (strict : Bool) (names : List String) :
    Served crew c (c.bounce crew stage strict names).2 := by
  cases haims : c.aims stage names with
  | error error =>
    refine Or.inl ?_
    unfold bounce
    rw [haims]
    exact .refl crew c
  | ok aim =>
    obtain ⟨d₁, d₂, d₃, hbounces, heq⟩ := exists_bounce crew sound waits tidy strict haims
    refine Or.inr ⟨_, hbounces.course, heq.trans ?_⟩
    rw [hbounces.third]

theorem serve_cases (crew : Crew β σ) (sound : c.Sound) (waits : c.Waits) (tidy : c.Tidy)
    (r : Request β σ) : Served crew c (c.serve crew r).2 := by
  cases r with
  | change stage strict names => exact sound.served_change crew stage strict names
  | bounce stage strict names => exact sound.served_bounce crew waits tidy stage strict names
  | _ => exact (sound.routine_serve crew (by simp) (by simp)).served

/-- Every request is served in steps, and leaves everything at most where it is asked for. -/
theorem Sound.steps_serve (sound : c.Sound) (crew : Crew β σ) (waits : c.Waits) (tidy : c.Tidy)
    (r : Request β σ) : Steps crew c (c.serve crew r).2 ∧ (c.serve crew r).2.Tidy := by
  rcases serve_cases crew sound waits tidy r with hprepares | ⟨d, hcourse, heq⟩
  · exact ⟨hprepares.steps, hprepares.tidy tidy⟩
  · have hsteps := hcourse.steps sound
    have hd := Steps.sound hsteps sound
    rw [heq]
    exact ⟨hsteps.trans (hd.steps_process crew), (hd.finished_process crew).tidy⟩

/-- Every request comes about in legs. -/
theorem Sound.course_serve (sound : c.Sound) (crew : Crew β σ) (waits : c.Waits) (tidy : c.Tidy)
    (r : Request β σ) : Course crew c (c.serve crew r).2 := by
  rcases serve_cases crew sound waits tidy r with hprepares | ⟨d, hcourse, heq⟩
  · exact .single hprepares.leg
  · rw [heq]
    exact hcourse.tail (.batch d)

theorem Sound.steps_serveAll (sound : c.Sound) (crew : Crew β σ) (waits : c.Waits) (tidy : c.Tidy)
    (requests : List (Request β σ)) :
    Steps crew c (c.serveAll crew requests) ∧ (c.serveAll crew requests).Tidy := by
  induction requests generalizing c with
  | nil => exact ⟨.refl, tidy⟩
  | cons r requests ih =>
    obtain ⟨hsteps, htidy⟩ := sound.steps_serve crew waits tidy r
    obtain ⟨hrest, hall⟩ :=
      ih (Steps.sound hsteps sound) (Steps.waits hsteps sound waits) htidy
    exact ⟨hsteps.trans hrest, hall⟩

/-! Whatever a client can come to have. -/

theorem maxPasses_pos {config : Config} (hcheck : config.check = .ok ()) :
    0 < config.maxPasses := by
  unfold Config.check Config.fault? at hcheck
  refine Nat.pos_of_ne_zero fun hzero ↦ ?_
  rw [hzero] at hcheck
  split at hcheck
  · next hnone =>
    split at hnone
    · exact absurd hnone (by simp)
    · exact absurd hnone (by simp)
  · exact absurd hcheck (by simp)

/-- A controller that has just been set up tracks nothing and has done nothing. -/
theorem of_build {config : Config} {sink : Sink} {roster : Roster β} {state : σ}
    (hbuild : build config sink roster state = .ok c) :
    c.Sound ∧ c.board = .empty ∧ c.forest = .empty ∧ c.journal = #[] := by
  unfold build at hbuild
  split at hbuild
  · exact absurd hbuild (by simp)
  · next hcheck =>
    split at hbuild
    · exact absurd hbuild (by simp)
    · next target htarget =>
      obtain rfl := Except.ok.inj hbuild
      refine ⟨?_, rfl, rfl, rfl⟩
      constructor
      case forest => exact Forest.sound_empty
      case target => exact Chain.contains_of_find? htarget
      case passes => exact maxPasses_pos hcheck
      all_goals simp [Board.empty, Board.get?, Forest.node?, Forest.get?, Forest.empty, forest,
        Controller.roster]

/-- Whatever a client can come to have is sound and tidy, and comes about in steps. -/
theorem Reachable.invariant (reachable : Reachable crew c) :
    c.Sound ∧ c.Waits ∧ c.Tidy ∧ ∃ b : Controller β σ, Steps crew b c ∧ b.Sound ∧
      b.board = .empty ∧ b.forest = .empty ∧ b.journal = #[] := by
  induction reachable with
  | build hbuild =>
    obtain ⟨sound, hboard, hrest⟩ := of_build hbuild
    refine ⟨sound, fun {h p} hp ↦ ?_, fun {h p} hp ↦ ?_, _, .refl, sound, hboard, hrest⟩
    · rw [hboard] at hp
      exact absurd hp (by simp [Board.empty, Board.get?])
    · rw [hboard] at hp
      exact absurd hp (by simp [Board.empty, Board.get?])
  | serve r _ ih =>
    obtain ⟨sound, waits, tidy, b, hsteps, hb⟩ := ih
    obtain ⟨hserved, htidy⟩ := sound.steps_serve crew waits tidy r
    exact ⟨Steps.sound hserved sound, Steps.waits hserved sound waits, htidy, b,
      hsteps.trans hserved, hb⟩

theorem Reachable.sound (reachable : Reachable crew c) : c.Sound := reachable.invariant.1

/-! Some small runs start from this controller. -/

/-- Deployers that do nothing and never fail. -/
def idle : Crew Unit Unit := ⟨fun _ _ u _ _ ↦ ⟨u.attachments, [], [], (), none⟩⟩

/-- A controller that has just been set up to drive deployments to the first stage. -/
def parsing : Controller Unit Unit where
  config := { defaultTarget := "Parse", maxPasses := 6 }
  sink := .silent
  chain := Chain.standard
  target := ⟨"Parse", 1⟩
  site := ⟨.empty, ⟨Roster.vacant Chain.standard, (), #[]⟩⟩
  board := .empty
  queue := []

/-- Deployers that fail to deploy on the unit of their own name, and only there. -/
def touchy : Crew Unit Unit := ⟨fun action d u _ _ ↦ ⟨u.attachments, [], [], (),
  if action = .deploy ∧ u.name = d.name then some ⟨"refused", []⟩ else none⟩⟩

/-- A controller that has just been set up to drive deployments to a stage, with some passes to a
batch. -/
def driving (stage : Stage) (maxPasses : Nat) : Controller Unit Unit :=
  { parsing with
    config := { parsing.config with defaultTarget := stage.name, maxPasses }
    target := stage }

/-- A controller that has just been set up to drive deployments to the second stage. -/
def postParsing : Controller Unit Unit := driving ⟨"PostParse", 2⟩ 6

theorem reachable_parsing (crew : Crew Unit Unit) (requests : List (Request Unit Unit)) :
    Reachable crew (parsing.serveAll crew requests) := by
  have hbuild : build parsing.config .silent (Roster.vacant Chain.standard) () = .ok parsing := rfl
  exact (Reachable.build hbuild).serveAll requests

theorem reachable_driving (crew : Crew Unit Unit) {maxPasses : Nat}
    (hcheck : (driving stage maxPasses).config.check = .ok ())
    (hstage : Chain.standard.find? stage.name = some stage)
    (requests : List (Request Unit Unit)) :
    Reachable crew ((driving stage maxPasses).serveAll crew requests) := by
  have hfind : (Roster.vacant Chain.standard : Roster Unit).chain.find?
      (driving stage maxPasses).config.defaultTarget = some stage := hstage
  have hbuild : build (driving stage maxPasses).config .silent (Roster.vacant Chain.standard) () =
      .ok (driving stage maxPasses) := by
    unfold build
    simp only [hcheck, hfind]
    rfl
  exact (Reachable.build hbuild).serveAll requests

theorem reachable_postParsing (crew : Crew Unit Unit) (requests : List (Request Unit Unit)) :
    Reachable crew (postParsing.serveAll crew requests) :=
  reachable_driving crew rfl rfl requests

end Rollout.Controller
