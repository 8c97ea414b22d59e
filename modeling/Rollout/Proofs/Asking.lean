import Rollout.Proofs.Batches

/-!
Changes of what is asked for. Asking a deployment for a stage, or scheduling it for removal, changes
what is written on the board but moves nothing. A deployment that is queued has names that are new,
but for those of the live one that it replaces and that is scheduled for removal with this.
-/

set_option autoImplicit false
set_option relaxedAutoImplicit false

namespace Rollout

namespace Entry

variable {β : Type}

/-- Whether an entry tells of what is done in a batch: of a call, of what becomes of a deployment,
or of the batch itself. -/
def ofBatch : Entry β → Bool
  | passLimit .. => true
  | recalling .. => true
  | retreated .. => true
  | advanced .. => true
  | failed .. => true
  | parked .. => true
  | removed .. => true
  | added .. => true
  | rejected .. => true
  | completed .. => true
  | e => e.isCall

theorem isQuiet_of_ofBatch {e : Entry β} (hbatch : e.ofBatch = false) : e.isQuiet = true := by
  cases e <;> first | rfl | exact absurd hbatch (by simp [ofBatch])

end Entry

namespace Controller

variable {β σ : Type} {crew : Crew β σ} {c d e : Controller β σ} {h root : Handle}
  {p q : Progress} {stage : Stage}

/-! Changes of what is asked for. -/

/-- A deployment that is asked for something else stays where it is. -/
structure Asked (chain : Chain) (p q : Progress) : Prop extends Keeps chain p q where
  place : q.stage = p.stage
  waits : q.waiting ≠ [] → q.error = none ∧ q.stage.index < q.requested.index

theorem Sound.step_ask (sound : c.Sound) {board : Board} (horder : board.order = c.board.order)
    (hasked : ∀ h, board.get? h = c.board.get? h ∨ ∃ p q, c.board.get? h = some p ∧
      board.get? h = some q ∧ Asked c.chain p q) (remembers : c.Remembers board) :
    Step crew c { c with board } := by
  refine .plan (fun h ↦ ?_) ?_ (fun waits h q hq ↦ ?_) remembers
  · unfold Board.stage?
    rcases hasked h with heq | ⟨p, q, hp, hq, hasked⟩
    · rw [heq]
    · rw [hp, hq, Option.map_some, Option.map_some, hasked.place]
  · refine sound.of_alike ⟨.refl _, horder, fun {h q} hq ↦ ?_, fun {h p} hp ↦ ?_, rfl, rfl, rfl,
      rfl, rfl⟩
    · change board.get? h = some q at hq
      rcases hasked h with heq | ⟨p, q', hp, hq', hasked⟩
      · rw [heq] at hq
        exact ⟨q, hq, sound.keeps_self hq⟩
      · obtain rfl := Option.some_inj.1 (hq.symm.trans hq')
        exact ⟨p, hp, hasked.toKeeps⟩
    · rcases hasked h with heq | ⟨p, q, _, hq, _⟩
      · exact ⟨p, heq.trans hp⟩
      · exact ⟨q, hq⟩
  · change board.get? h = some q at hq
    rcases hasked h with heq | ⟨p, q', _, hq', hasked⟩
    · rw [heq] at hq
      exact waits hq
    · obtain rfl := Option.some_inj.1 (hq.symm.trans hq')
      exact hasked.waits

/-- Changes of single deployments, each of them at most once, made one after another. -/
theorem get?_foldl {α : Type} {f : Board → α → Board} (key : α → Handle)
    (g : α → Option Progress → Option Progress)
    (hf : ∀ b x h, (f b x).get? h = if h = key x then g x (b.get? h) else b.get? h) {xs : List α}
    (hnodup : (xs.map key).Nodup) (b : Board) :
    (∀ h, h ∉ xs.map key → (xs.foldl f b).get? h = b.get? h) ∧
      ∀ x ∈ xs, (xs.foldl f b).get? (key x) = g x (b.get? (key x)) := by
  induction xs generalizing b with
  | nil => exact ⟨fun _ _ ↦ rfl, fun _ hx ↦ absurd hx List.not_mem_nil⟩
  | cons x xs ih =>
    rw [List.map_cons, List.nodup_cons] at hnodup
    obtain ⟨hother, heach⟩ := ih hnodup.2 (f b x)
    refine ⟨fun h hh ↦ ?_, fun y hy ↦ ?_⟩
    · rw [List.map_cons, List.mem_cons, not_or] at hh
      rw [List.foldl_cons, hother h hh.2, hf, if_neg hh.1]
    · rw [List.foldl_cons]
      rcases List.mem_cons.1 hy with rfl | hy
      · rw [hother _ hnodup.1, hf, if_pos rfl]
      · have hne : key y ≠ key x := fun heq ↦ hnodup.1 (heq ▸ List.mem_map_of_mem hy)
        rw [heach y hy, hf, if_neg hne]

theorem order_foldl {α : Type} (f : Board → α → Board) (hf : ∀ b x, (f b x).order = b.order)
    (xs : List α) (b : Board) : (xs.foldl f b).order = b.order := by
  induction xs generalizing b with
  | nil => rfl
  | cons x xs ih => rw [List.foldl_cons, ih, hf]

/-- A deployment that is asked for a stage afresh, unless it is to be removed. -/
def asked (stage : Stage) (p : Progress) : Progress :=
  { p with
    requested := if p.removing then p.requested else stage
    error := if p.removing then p.error else none
    waiting := if p.removing then p.waiting else [] }

theorem asked_of_removing (hremoving : p.removing = true) (stage : Stage) : asked stage p = p := by
  simp only [asked, hremoving, if_true]
  rw [← hremoving]

theorem asked_of_staying (hstays : p.removing = false) (stage : Stage) :
    asked stage p = { p with requested := stage, error := none, waiting := [] } := by
  simp [asked, hstays]

theorem get?_changed (b : Board) (root h : Handle) {change : Progress → Progress}
    (keeps : ∀ p, (change p).root = p.root) :
    (b.update root change).get? h = if h = root then (b.get? h).map change else b.get? h := by
  rw [Board.get?_update _ _ _ keeps]
  split
  · next heq => rw [heq]
  · rfl

theorem get?_request (b : Board) (root h : Handle) (stage : Stage) :
    (b.request root stage).get? h =
      if h = root then (b.get? h).map (asked stage) else b.get? h := by
  have hasked : b.request root stage = b.update root (asked stage) := by
    refine congrArg (b.update root) (funext fun p ↦ ?_)
    split
    · next hremoving => exact (asked_of_removing hremoving stage).symm
    · next hstays => exact (asked_of_staying (by simpa using hstays) stage).symm
  rw [hasked]
  exact get?_changed b root h fun _ ↦ rfl

theorem get?_aim (b : Board) (root h : Handle) (stage : Stage) :
    (b.aim root stage).get? h =
      if h = root then (b.get? h).map (fun p ↦ { p with requested := stage }) else b.get? h :=
  get?_changed b root h fun _ ↦ rfl

theorem get?_retire (b : Board) (root h : Handle) :
    (b.retire root).get? h = if h = root then (b.get? h).map
      (fun p ↦ { p with removing := true, requested := Stage.floor, waiting := [] })
      else b.get? h :=
  get?_changed b root h fun _ ↦ rfl

theorem get?_fail (b : Board) (root h : Handle) (failure : Failure) :
    (b.fail root failure).get? h =
      if h = root then (b.get? h).map (fun p ↦ { p with error := some failure, waiting := [] })
      else b.get? h :=
  get?_changed b root h fun _ ↦ rfl

/-- A deployment that is given back what it was asked for, and the error that it had if it is free of
error where it was. -/
def reinstated (p q : Progress) : Progress :=
  { q with
    requested := p.requested
    error := if q.error = none ∧ q.stage = p.stage then p.error else q.error
    waiting := if p.error ≠ none ∧ q.error = none ∧ q.stage = p.stage then [] else q.waiting }

theorem reinstated_of_back {failure : Failure} (herror : p.error = some failure)
    (hfree : q.error = none) (hback : q.stage = p.stage) : reinstated p q =
      { q with requested := p.requested, error := some failure, waiting := [] } := by
  simp [reinstated, herror, hfree, hback]

theorem reinstated_of_kept (hkept : p.error = none ∨ ¬ (q.error = none ∧ q.stage = p.stage)) :
    reinstated p q = { q with requested := p.requested } := by
  unfold reinstated
  rcases hkept with herror | hgone
  · simp +contextual [herror]
  · simp only [hgone, and_false, if_false]

theorem order_reinstate (b : Board) (p : Progress) : (reinstate b p).order = b.order := by
  unfold reinstate
  cases p.error with
  | none => rfl
  | some failure =>
    simp only
    split <;> rfl

theorem get?_reinstate (b : Board) (p : Progress) (h : Handle) :
    (reinstate b p).get? h =
      if h = p.root then (b.get? h).map (reinstated p) else b.get? h := by
  have haim : ∀ k, (b.aim p.root p.requested).get? k = _ := fun k ↦ get?_aim b p.root k p.requested
  have hany : ∀ q, b.get? p.root = some q →
      (((b.aim p.root p.requested).get? p.root).any fun q ↦
          q.error.isNone && q.stage == p.stage) =
        decide (q.error = none ∧ q.stage = p.stage) := by
    intro q hq
    rw [haim, if_pos rfl, hq, Option.map_some, Option.any_some, Bool.eq_iff_iff]
    simp
  unfold reinstate
  split
  · next herror =>
    rw [haim]
    split
    · exact Option.map_congr fun q _ ↦ (reinstated_of_kept (Or.inl herror)).symm
    · rfl
  · next failure herror =>
    simp only
    split
    · next hdue =>
      rw [get?_fail, haim]
      split
      · next hh =>
        subst hh
        rw [Option.map_map]
        refine Option.map_congr fun q hq ↦ ?_
        rw [hany q hq, decide_eq_true_iff] at hdue
        exact (reinstated_of_back herror hdue.1 hdue.2).symm
      · rfl
    · next hdue =>
      rw [haim]
      split
      · next hh =>
        subst hh
        refine Option.map_congr fun q hq ↦ ?_
        rw [hany q hq, decide_eq_true_iff] at hdue
        exact (reinstated_of_kept (Or.inr hdue)).symm
      · rfl

/-! Requests that only prepare a batch. -/

/-- What is left when a batch has been prepared: nothing moves, and whoever is looked at otherwise
is to be removed. -/
structure Prepares (crew : Crew β σ) (c d : Controller β σ) : Prop where
  steps : Steps crew c d
  forest : d.forest = c.forest
  chain : d.chain = c.chain
  get? : ∀ {h : Handle} {q : Progress}, d.board.get? h = some q →
    c.board.get? h = some q ∨ q.removing = true
  journal : ∃ es, d.journal.toList = c.journal.toList ++ es ∧
    ∀ entry ∈ es, entry.ofBatch = false

theorem Prepares.quiet (prepares : Prepares crew c d) : Quiet c d := by
  obtain ⟨es, hes, hbatch⟩ := prepares.journal
  exact ⟨es, hes, fun entry hentry ↦ Entry.isQuiet_of_ofBatch (hbatch entry hentry)⟩

theorem Prepares.refl (crew : Crew β σ) (c : Controller β σ) : Prepares crew c c :=
  ⟨.refl, rfl, rfl, Or.inl, [], by simp⟩

theorem Prepares.trans (first : Prepares crew c d) (second : Prepares crew d e) :
    Prepares crew c e := by
  obtain ⟨es, hes, hbatch⟩ := first.journal
  obtain ⟨fs, hfs, hbatch'⟩ := second.journal
  refine ⟨first.steps.trans second.steps, second.forest.trans first.forest,
    second.chain.trans first.chain, fun {h q} hq ↦ ?_, es ++ fs, ?_, fun entry hentry ↦ ?_⟩
  · exact (second.get? hq).elim first.get? Or.inr
  · rw [hfs, hes, List.append_assoc]
  · exact (List.mem_append.1 hentry).elim (hbatch entry) (hbatch' entry)

theorem prepares_remark (crew : Crew β σ) (c : Controller β σ) {entry : Entry β}
    (hremark : entry.isRemark = true) (hbatch : entry.ofBatch = false) :
    Prepares crew c (c.note entry) := by
  refine ⟨.single (.remark hremark), rfl, rfl, Or.inl, [entry], journal_note c entry, ?_⟩
  intro other hother
  rw [List.mem_singleton.1 hother]
  exact hbatch

theorem Sound.prepares_retire (sound : c.Sound) (crew : Crew β σ) (root : Handle) :
    Prepares crew c { c with board := c.board.retire root } := by
  refine ⟨.single (sound.step_ask rfl (fun h ↦ ?_) fun h p failure hp hfailure ↦ Or.inl ?_), rfl,
    rfl, fun {h q} hq ↦ ?_, [], by simp; rfl⟩
  · rw [get?_retire]
    split
    · cases hp : c.board.get? h with
      | none => exact Or.inl rfl
      | some p =>
        refine Or.inr ⟨p, _, rfl, rfl, ⟨rfl, sound.stage (p := p) hp, c.chain.contains_floor,
          fun _ ↦ rfl, fun _ ↦ rfl⟩, rfl, fun hwaiting ↦ absurd rfl hwaiting⟩
    · exact Or.inl rfl
  · rw [get?_retire, hp]
    split
    · exact ⟨_, rfl, hfailure⟩
    · exact ⟨p, rfl, hfailure⟩
  · change (c.board.retire root).get? h = some q at hq
    rw [get?_retire] at hq
    split at hq
    · obtain ⟨p, _, rfl⟩ := Option.map_eq_some_iff.1 hq
      exact Or.inr rfl
    · exact Or.inl hq

theorem Sound.prepares_queue (crew : Crew β σ) {queue : List Blueprint}
    (sound : Sound { c with queue }) : Prepares crew c { c with queue } := by
  have hstep : Step crew c { c with board := c.board, queue } :=
    .plan (fun _ ↦ rfl) sound id (remembers_self c)
  exact ⟨.single hstep, rfl, rfl, Or.inl, [], by simp; rfl⟩

/-- A deployment can be queued if its names are new, but for those that it replaces. -/
theorem Sound.enqueue (sound : c.Sound) {b : Blueprint}
    (hblank : ∀ name ∈ b.names, Text.isBlank name = false) (hnodup : b.names.Nodup)
    (hqueue : ∀ name ∈ b.names, ∀ b' ∈ c.queue, name ∉ b'.names)
    (hclaimed : ∀ name ∈ b.names, ∀ {h : Handle} {n : Node}, c.forest.node? h = some n →
      n.name = name → ∃ p, c.board.get? n.top = some p ∧ p.removing = true ∧ p.name = b.name) :
    Sound { c with queue := c.queue ++ [b] } := by
  refine ⟨sound.forest, sound.order, sound.mem_order, sound.tracked, sound.name, sound.stage,
    sound.requested, sound.removing, sound.target, sound.chain, sound.passes, fun b' hb' ↦ ?_, ?_,
    fun b' hb' ↦ ?_⟩
  · rcases List.mem_append.1 hb' with hb' | hb'
    · exact sound.queueBlank b' hb'
    · rw [List.mem_singleton.1 hb']
      exact hblank
  · show ((c.queue ++ [b]).flatMap Blueprint.names).Nodup
    rw [List.flatMap_append, List.flatMap_singleton, List.nodup_append]
    refine ⟨sound.queueNodup, hnodup, fun name hname name' hname' heq ↦ ?_⟩
    obtain ⟨b', hb', hmem⟩ := List.mem_flatMap.1 hname
    exact hqueue name' hname' b' hb' (heq ▸ hmem)
  · rcases List.mem_append.1 hb' with hb' | hb'
    · exact sound.claimed b' hb'
    · rw [List.mem_singleton.1 hb']
      exact hclaimed

/-- What it takes for a name to be free, given what a new deployment replaces. -/
theorem nameTaken_eq_false_iff {replaced : Option Handle} {name : String} :
    c.nameTaken replaced name = false ↔ (∀ b ∈ c.queue, name ∉ b.names) ∧
      ((c.forest.find? name).isSome = true →
        ∃ root, replaced = some root ∧ name ∈ c.forest.treeNames root) := by
  unfold nameTaken Forest.treeNames
  rw [Bool.or_eq_false_iff]
  refine and_congr (by simp) ?_
  cases replaced with
  | none => cases c.forest.find? name <;> simp
  | some root => cases c.forest.find? name <;> simp

/-- The controller after the live deployment of a name, if there is one, has been scheduled for
removal. -/
def replacing (name : String) (c : Controller β σ) : Controller β σ :=
  match c.forest.topLevel? name with
  | none => c
  | some root => { c.note (.replacing root name) with board := c.board.retire root }

theorem Sound.prepares_replacing (sound : c.Sound) (crew : Crew β σ) (name : String) :
    Prepares crew c (c.replacing name) := by
  unfold replacing
  cases c.forest.topLevel? name with
  | none => exact .refl crew c
  | some root =>
    exact (prepares_remark crew c rfl rfl).trans ((sound.note _).prepares_retire crew root)

/-- A name that is queued though it is live belongs to the deployment that is replaced. -/
theorem Sound.claimed_replacing (sound : c.Sound) {b : Blueprint} {name : String}
    (hfree : c.nameTaken (c.forest.topLevel? b.name) name = false) {n : Node}
    (hn : c.forest.node? h = some n) (hname : n.name = name) :
    ∃ p, (c.replacing b.name).board.get? n.top = some p ∧ p.removing = true ∧ p.name = b.name := by
  have hlive : (c.forest.find? name).isSome = true := by
    rw [sound.forest.find?_eq_some_iff.2 ⟨n, hn, hname⟩]
    rfl
  obtain ⟨root, hroot, hmem⟩ := (nameTaken_eq_false_iff.1 hfree).2 hlive
  obtain ⟨t, ht, htname, hkind⟩ := sound.forest.topLevel?_eq_some_iff.1 hroot
  obtain ⟨p, hp⟩ := sound.tracked.1 (sound.mem_order.2 ⟨t, ht, hkind⟩)
  obtain ⟨u, hu, huname⟩ := List.mem_map.1 hmem
  obtain ⟨k, hk, hku⟩ := List.mem_filterMap.1 hu
  obtain ⟨m, hm, htop⟩ := (sound.mem_tree_iff hp).1 hk
  obtain rfl := Option.some_inj.1 ((Forest.node?_of_get? hku).symm.trans hm)
  obtain rfl := sound.forest.name_inj hm hn (huname.trans hname.symm)
  obtain rfl := Option.some_inj.1 (hm.symm.trans hn)
  have hretired := get?_retire c.board root root
  rw [if_pos rfl, hp] at hretired
  unfold replacing
  rw [hroot, htop]
  exact ⟨_, hretired, rfl, (sound.name hp ht).symm.trans htname⟩

theorem Sound.prepares_add (sound : c.Sound) (crew : Crew β σ) (b : Blueprint) :
    Prepares crew c (c.add b).2 := by
  unfold add
  cases herror : c.queueError? b with
  | some error => exact .refl crew c
  | none =>
    show Prepares crew c
      { (c.replacing b.name).note (.queued b) with queue := (c.replacing b.name).queue ++ [b] }
    have hprepares := sound.prepares_replacing crew b.name
    have hsound := Steps.sound hprepares.steps sound
    have hqueue : (c.replacing b.name).queue = c.queue := by
      unfold replacing
      cases c.forest.topLevel? b.name <;> rfl
    unfold queueError? at herror
    split at herror
    · exact absurd herror (by simp)
    · next hfault =>
      obtain ⟨hnames, hnodup⟩ := NameFault.first?_eq_none_iff.1 hfault
      refine (hprepares.trans (prepares_remark crew _ rfl rfl)).trans
        (Sound.prepares_queue crew ((hsound.note _).enqueue (fun name hname ↦ (hnames name hname).1)
          hnodup (fun name hname b' hb' ↦ ?_) fun name hname h n hn heq ↦ ?_))
      · change b' ∈ (c.replacing b.name).queue at hb'
        rw [hqueue] at hb'
        exact (nameTaken_eq_false_iff.1 (hnames name hname).2.1).1 b' hb'
      · change (c.replacing b.name).forest.node? h = some n at hn
        rw [hprepares.forest] at hn
        exact sound.claimed_replacing (hnames name hname).2.1 hn heq

theorem Sound.prepares_remove (sound : c.Sound) (crew : Crew β σ) (name : String) :
    Prepares crew c (c.remove name).2 := by
  unfold remove
  split
  · exact (prepares_remark crew c rfl rfl).trans
      (Sound.prepares_queue crew ((sound.note _).requeue List.eraseP_sublist))
  · split
    · exact .refl crew c
    · split
      · exact (prepares_remark crew c rfl rfl).trans ((sound.note _).prepares_retire crew _)
      · exact .refl crew c

theorem Sound.prepares_addAll (sound : c.Sound) (crew : Crew β σ) (bs : List Blueprint) :
    Prepares crew c (c.addAll bs).2 := by
  induction bs generalizing c with
  | nil => exact .refl crew c
  | cons b bs ih =>
    have hprepares := sound.prepares_add crew b
    unfold addAll
    cases hadd : c.add b with
    | mk result d =>
      rw [hadd] at hprepares
      cases result with
      | error error => exact hprepares
      | ok _ => exact hprepares.trans (ih (Steps.sound hprepares.steps sound))

end Controller

end Rollout
