import Mathlib.Data.List.DropRight
import Rollout.Proofs.Bracketing
import Rollout.Proofs.Quiescence
import Rollout.Proofs.Retelling

/-!
Tallies. What a batch counts is what it tells of: its steps up, its steps down and its failures are
as many as the events of these kinds, it takes no more passes than it may, and it has called as many
deployers as its steps have applied and taken back, those of the steps that failed left out. The
count of a step up is read off the records of the tree, and these hold what the step has applied and
nothing else, since nothing is on record for a stage that has not been entered.
-/

set_option autoImplicit false
set_option relaxedAutoImplicit false

namespace Rollout

variable {β σ : Type}

/-- How many of some events are of a type. -/
def Event.countOf (type : String) (es : List Event) : Nat := es.countP fun e ↦ e.type == type

namespace Entry

/-- Whether an entry tells that a deployer is called. -/
def startsCall : Entry β → Bool
  | deploying .. => true
  | undeploying .. => true
  | _ => false

/-- Whether a step has been taken or has failed, where an entry tells how one ended. -/
def outcome? : Entry β → Option Bool
  | advanced .. => some true
  | retreated .. => some true
  | failed .. => some false
  | _ => none

/-- Whether an entry tells of nothing that a batch counts. -/
def isUncounted (e : Entry β) : Bool :=
  !e.startsCall && e.outcome?.isNone && !e.isCompleted

theorem isUncounted_of_ofBatch {e : Entry β} (hbatch : e.ofBatch = false) :
    e.isUncounted = true := by
  cases e <;> first | rfl | exact absurd hbatch (by simp [ofBatch, isCall])

theorem outcome?_of_ofCrew {e : Entry β} (hcrew : e.ofCrew = true) : e.outcome? = none := by
  cases e <;> first | rfl | exact absurd hcrew (by simp [ofCrew, isCall])

theorem isCompleted_of_ofCrew {e : Entry β} (hcrew : e.ofCrew = true) :
    e.isCompleted = false := by
  cases e <;> first | rfl | exact absurd hcrew (by simp [ofCrew, isCall])

theorem event?_of_ofCrew {e : Entry β} (hcrew : e.ofCrew = true) (time : String) :
    e.event? time = none := by
  cases e <;> first | rfl | exact absurd hcrew (by simp [ofCrew, isCall])

theorem isCall_of_startsCall {e : Entry β} (hstarts : e.startsCall = true) : e.isCall = true := by
  cases e <;> first | rfl | exact absurd hstarts (by simp [startsCall])

end Entry

/-- How many calls of deployers were made in steps that were taken. A call belongs to the step whose
end is told of next; those of a step that failed do not count. -/
def takenCalls : List (Entry β) → Nat
  | [] => 0
  | e :: es =>
    (if e.startsCall ∧ es.findSome? Entry.outcome? = some true then 1 else 0) + takenCalls es

/-- How many events of a type come of some entries. -/
def tellings (time type : String) (es : List (Entry β)) : Nat :=
  Event.countOf type (es.filterMap (Entry.event? time))

theorem tellings_append (time type : String) (es fs : List (Entry β)) :
    tellings time type (es ++ fs) = tellings time type es + tellings time type fs := by
  unfold tellings Event.countOf
  rw [List.filterMap_append, List.countP_append]

/-- A tally after some passes in which some entries were made. -/
def Tally.after (time : String) (passes : Nat) (es : List (Entry β)) (t : Tally) : Tally where
  passes := t.passes + passes
  advanced := t.advanced + tellings time "unit.stage_entered" es
  retreated := t.retreated + tellings time "unit.stage_left" es
  failed := t.failed + tellings time "unit.failed" es
  invocations := t.invocations + takenCalls es

/-- The steps that some entries tell of are all told to their end. -/
def Closed (es : List (Entry β)) : Prop :=
  ∀ fs, takenCalls (es ++ fs) = takenCalls es + takenCalls fs

variable {time : String} {es fs : List (Entry β)}

theorem Closed.append (first : Closed es) (second : Closed fs) : Closed (es ++ fs) := by
  intro gs
  rw [List.append_assoc, first, second, first, Nat.add_assoc]

theorem Tally.after_append (closed : Closed es) (n k : Nat) (t : Tally) :
    t.after time (n + k) (es ++ fs) = (t.after time n es).after time k fs := by
  unfold after
  simp only [tellings_append, closed fs, Nat.add_assoc]

/-! Entries that are not counted. -/

theorem closed_of_uncounted (h : ∀ e ∈ es, e.isUncounted = true) :
    Closed es ∧ takenCalls es = 0 := by
  induction es with
  | nil => exact ⟨fun fs ↦ (Nat.zero_add _).symm, rfl⟩
  | cons e es ih =>
    obtain ⟨he, hes⟩ := List.forall_mem_cons.1 h
    obtain ⟨hclosed, hzero⟩ := ih hes
    have hcall : e.startsCall = false := by
      unfold Entry.isUncounted at he
      cases hcall : e.startsCall <;> simp_all
    have hone : ∀ gs, takenCalls (e :: gs) = takenCalls gs := fun gs ↦ by
      simp [takenCalls, hcall]
    refine ⟨fun fs ↦ ?_, (hone es).trans hzero⟩
    rw [List.cons_append, hone, hone]
    exact hclosed fs

theorem tellings_of_uncounted (time : String) (h : ∀ e ∈ es, e.isUncounted = true) :
    tellings time "unit.stage_entered" es = 0 ∧ tellings time "unit.stage_left" es = 0 ∧
      tellings time "unit.failed" es = 0 := by
  have htype : ∀ v ∈ es.filterMap (Entry.event? time), v.type ≠ "unit.stage_entered" ∧
      v.type ≠ "unit.stage_left" ∧ v.type ≠ "unit.failed" := by
    intro v hv
    obtain ⟨e, he, hv⟩ := List.mem_filterMap.1 hv
    have hcount := h e he
    cases e
    case advanced | retreated | failed =>
      exact absurd hcount (by simp [Entry.isUncounted, Entry.outcome?])
    case added | removed | parked | completed =>
      obtain rfl := Option.some_inj.1 hv
      simp [Event.ofFields]
    all_goals exact absurd hv (by simp [Entry.event?])
  unfold tellings Event.countOf
  simp only [List.countP_eq_zero, beq_iff_eq]
  exact ⟨fun v hv ↦ (htype v hv).1, fun v hv ↦ (htype v hv).2.1, fun v hv ↦ (htype v hv).2.2⟩

theorem Tally.after_uncounted (h : ∀ e ∈ es, e.isUncounted = true) (n : Nat) (t : Tally) :
    t.after time n es = { t with passes := t.passes + n } := by
  obtain ⟨hentered, hleft, hfailed⟩ := tellings_of_uncounted time h
  unfold after
  rw [hentered, hleft, hfailed, (closed_of_uncounted h).2]
  rfl

/-! One step of a deployment. -/

/-- The calls of a step count if it is taken. -/
theorem takenCalls_step {e : Entry β} {taken : Bool} (hcrew : ∀ e ∈ es, e.ofCrew = true)
    (houtcome : e.outcome? = some taken) (gs : List (Entry β)) :
    takenCalls (es ++ e :: gs) =
      (if taken then es.countP Entry.startsCall else 0) + takenCalls gs := by
  induction es with
  | nil =>
    have hcall : e.startsCall = false := by
      cases e <;> first | rfl | exact absurd houtcome (by simp [Entry.outcome?])
    simp [takenCalls, hcall]
  | cons x es ih =>
    obtain ⟨_, hes⟩ := List.forall_mem_cons.1 hcrew
    have hnext : (es ++ e :: gs).findSome? Entry.outcome? = some taken := by
      rw [List.findSome?_append, List.findSome?_eq_none_iff.2 fun y hy ↦
        Entry.outcome?_of_ofCrew (hes y hy), Option.none_or, List.findSome?_cons, houtcome]
    rw [List.cons_append, takenCalls, hnext, ih hes, List.countP_cons]
    cases taken with
    | true =>
      cases x.startsCall with
      | true => simp [Nat.add_comm, Nat.add_left_comm]
      | false => simp
    | false => simp

theorem tellings_step (hcrew : ∀ e ∈ es, e.ofCrew = true) (type : String) (e : Entry β) :
    tellings time type (es ++ [e]) = tellings time type [e] := by
  have hnone : es.filterMap (Entry.event? time) = [] :=
    List.filterMap_eq_nil_iff.2 fun x hx ↦ Entry.event?_of_ofCrew (hcrew x hx) time
  rw [tellings_append]
  unfold tellings
  rw [hnone]
  exact Nat.zero_add _

/-- What is counted of a step: that it was taken or has failed, and its calls if it was taken. -/
theorem Tally.after_step {e : Entry β} {taken : Bool} (hcrew : ∀ e ∈ es, e.ofCrew = true)
    (houtcome : e.outcome? = some taken) (t : Tally) :
    t.after time 0 (es ++ [e]) = { t.after time 0 [e] with
      invocations := t.invocations + if taken then es.countP Entry.startsCall else 0 } := by
  unfold after
  simp only [tellings_step hcrew, takenCalls_step hcrew houtcome, takenCalls, Nat.add_zero]

theorem closed_step {e : Entry β} {taken : Bool} (hcrew : ∀ e ∈ es, e.ofCrew = true)
    (houtcome : e.outcome? = some taken) : Closed (es ++ [e]) := by
  intro gs
  rw [List.append_assoc, List.singleton_append, takenCalls_step hcrew houtcome,
    takenCalls_step hcrew houtcome, takenCalls, Nat.add_zero]

theorem countP_startsCall (es : List (Entry β)) :
    (es.filter Entry.isCall).countP Entry.startsCall = es.countP Entry.startsCall := by
  rw [List.countP_filter]
  refine List.countP_congr fun e _ ↦ ?_
  rw [Bool.and_eq_true]
  exact ⟨And.left, fun hstarts ↦ ⟨hstarts, Entry.isCall_of_startsCall hstarts⟩⟩

/-! The calls on a tree. -/

theorem LiveUnit.countP_deployCalls (u : LiveUnit β) (stage : Stage) (ds : List (Deployer β)) :
    (u.deployCalls stage ds).countP Entry.startsCall = ds.length := by
  induction ds with
  | nil => rfl
  | cons d ds ih =>
    have hcons : u.deployCalls stage (d :: ds) =
        [.deploying d u.id u.name stage, .deployed d u.id u.name stage] ++
          u.deployCalls stage ds := rfl
    rw [hcons, List.countP_append, ih, List.length_cons, Nat.add_comm]
    rfl

theorem LiveUnit.countP_undeployCalls (u : LiveUnit β) (stage : Stage) (ds : List (Deployer β)) :
    (u.undeployCalls stage ds).countP Entry.startsCall = ds.length := by
  unfold undeployCalls
  rw [List.countP_map]
  exact List.countP_eq_length.2 fun _ _ ↦ rfl

namespace Site

variable {s t : Site β σ} {hs : List Handle} {stage : Stage}

/-- The count of a tree that leaves a stage is that of its calls. -/
theorem exists_leaveEach (crew : Crew β σ) (stage : Stage) (hs : List Handle) (s : Site β σ) :
    ∃ calls, s.ambient.Passed (leaveEach crew stage hs s).2.ambient calls ∧
      calls.countP Entry.startsCall = (leaveEach crew stage hs s).1 := by
  induction hs generalizing s with
  | nil => exact ⟨[], .refl _, rfl⟩
  | cons h hs ih =>
    unfold leaveEach
    cases hu : s.forest.get? h with
    | none => exact ih s
    | some u =>
      obtain ⟨_, hpassed⟩ := crew.leaveUnit_spec stage u s.ambient
      obtain ⟨calls, hrest, hcount⟩ := ih ⟨s.forest.put h (crew.leaveUnit stage u s.ambient).1,
        (crew.leaveUnit stage u s.ambient).2⟩
      refine ⟨_, hpassed.trans hrest, ?_⟩
      rw [List.countP_append, hcount, LiveUnit.countP_undeployCalls, List.length_reverse]

/-- The records of a tree for a stage that it has entered without any are those of its calls. -/
theorem Treated.countP_entered {done : Handle → List (Deployer β)} {calls : List (Entry β)}
    (treated : Treated (fun h ↦ LiveUnit.Entered stage (done h)) hs s t calls)
    (hclear : ∀ h ∈ hs, ∀ u, s.forest.get? h = some u → u.appliedAt stage = []) :
    (s.callsOn hs (enterCalls stage done)).countP Entry.startsCall = recorded stage t hs := by
  unfold callsOn recorded
  rw [List.countP_flatMap, List.length_flatMap]
  congr 1
  refine List.map_congr_left fun h hh ↦ ?_
  rw [Function.comp_apply]
  cases hu : s.forest.get? h with
  | none =>
    have hnone := Forest.get?_eq_none_iff.1 hu
    rw [treated.shape.node?, ← Forest.get?_eq_none_iff] at hnone
    rw [hnone]
    rfl
  | some u =>
    obtain ⟨v, hv, hentered⟩ := treated.each hh hu
    rw [hv, Option.elim_some, Option.elim_some, hentered.appliedAt, hclear h hh u hu,
      List.nil_append]
    exact LiveUnit.countP_deployCalls u stage (done h)

end Site

namespace Batch

open Controller

variable {crew : Crew β σ} {b b' m : Batch β σ} {root : Handle} {p : Progress} {next below : Stage}
  {n k : Nat}

/-- From one batch to the other some entries have been made, some passes taken, and both counted. -/
def Tells (time : String) (n : Nat) (b b' : Batch β σ) : Prop :=
  ∃ es, b'.controller.journal.toList = b.controller.journal.toList ++ es ∧
    (∀ e ∈ es, e.isCompleted = false) ∧ Closed es ∧ b'.tally = b.tally.after time n es

theorem Tells.trans (first : Tells time n b m) (second : Tells time k m b') :
    Tells time (n + k) b b' := by
  obtain ⟨es, hes, hopen, hclosed, htally⟩ := first
  obtain ⟨fs, hfs, hopen', hclosed', htally'⟩ := second
  refine ⟨es ++ fs, ?_, fun e he ↦ ?_, hclosed.append hclosed', ?_⟩
  · rw [hfs, hes, List.append_assoc]
  · exact (List.mem_append.1 he).elim (hopen e) (hopen' e)
  · rw [htally', htally, Tally.after_append hclosed]

theorem Tells.passes (tells : Tells time n b b') : b'.tally.passes = b.tally.passes + n := by
  obtain ⟨es, _, _, _, htally⟩ := tells
  rw [htally]
  rfl

theorem tells_uncounted (hes : b'.controller.journal.toList = b.controller.journal.toList ++ es)
    (huncounted : ∀ e ∈ es, e.isUncounted = true)
    (htally : b'.tally = { b.tally with passes := b.tally.passes + n }) : Tells time n b b' := by
  refine ⟨es, hes, fun e he ↦ ?_, (closed_of_uncounted huncounted).1, ?_⟩
  · have hcount := huncounted e he
    cases e <;> first | rfl | exact absurd hcount (by simp [Entry.isUncounted, Entry.isCompleted])
  · rw [htally, Tally.after_uncounted huncounted]

theorem tells_refl (time : String) (b : Batch β σ) : Tells time 0 b b :=
  tells_uncounted (List.append_nil _).symm (by simp) rfl

theorem tells_note (b : Batch β σ) {entry : Entry β} (huncounted : entry.isUncounted = true) :
    Tells time 0 b (b.note entry) :=
  tells_uncounted (journal_note b.controller entry) (by simpa using huncounted) rfl

/-- A step whose end is told of after its calls. -/
theorem tells_step {site : Site β σ} {calls : List (Entry β)}
    (passed : b.controller.site.ambient.Passed site.ambient calls) {entry : Entry β} (taken : Bool)
    (houtcome : entry.outcome? = some taken)
    (hjournal : b'.controller.journal = site.ambient.journal.push entry)
    (htally : b'.tally = { b.tally.after time 0 [entry] with
      invocations := b.tally.invocations + if taken then calls.countP Entry.startsCall else 0 }) :
    Tells time 0 b b' := by
  obtain ⟨es, hes, hcrew, rfl⟩ := passed.journal
  refine ⟨es ++ [entry], ?_, fun e he ↦ ?_, closed_step hcrew houtcome, ?_⟩
  · rw [hjournal, Array.toList_push, hes, List.append_assoc]
    rfl
  · rcases List.mem_append.1 he with he | he
    · exact Entry.isCompleted_of_ofCrew (hcrew e he)
    · rw [List.mem_singleton.1 he]
      cases entry <;> first | rfl | exact absurd houtcome (by simp [Entry.outcome?])
  · rw [htally, Tally.after_step hcrew houtcome, countP_startsCall]

/-! Going down. -/

theorem tells_stay (h : (b, (none : Option BoardFault)) = (b', none)) : Tells time 0 b b' := by
  obtain rfl : b = b' := congrArg Prod.fst h
  exact tells_refl time b

theorem exists_of_andThen {r : Batch β σ × Option BoardFault}
    {rest : Batch β σ → Batch β σ × Option BoardFault}
    (h : andThen r rest = (b', none)) : ∃ m, r = (m, none) ∧ rest m = (b', none) := by
  obtain ⟨m, fault⟩ := r
  cases fault with
  | none => exact ⟨m, rfl, h⟩
  | some fault => exact absurd (congrArg Prod.snd h) (by simp)

theorem tells_forEach {α : Type} {step : α → Batch β σ → Batch β σ × Option BoardFault}
    (hstep : ∀ x b b', step x b = (b', none) → Tells time 0 b b') {xs : List α}
    (h : forEach step xs b = (b', none)) : Tells time 0 b b' := by
  induction xs generalizing b with
  | nil =>
    exact tells_stay h
  | cons x xs ih =>
    obtain ⟨m, hfirst, hrest⟩ := exists_of_andThen h
    exact (hstep x b m hfirst).trans (ih hrest)

theorem tells_leave (h : leave crew p below b = (b', none)) : Tells time 0 b b' := by
  obtain ⟨calls, hpassed, hcount⟩ := Site.exists_leaveEach crew p.stage
    (b.controller.site.forest.tree p.root).reverse b.controller.site
  unfold leave at h
  simp only at h
  split at h
  · exact absurd (congrArg Prod.snd h) (by simp)
  · obtain rfl := congrArg Prod.fst h
    refine tells_step hpassed true rfl rfl ?_
    rw [hcount]
    simp [Tally.after, tellings, Event.countOf, Entry.event?, Event.ofFields, takenCalls]
    rfl

theorem tells_callDownOne {down : Handle → Batch β σ → Batch β σ × Option BoardFault}
    (hdown : ∀ root b b', down root b = (b', none) → Tells time 0 b b') {name : String}
    {dependent : Handle} {goal : Stage} {steps : Nat}
    (h : callDownOne down name dependent goal steps b = (b', none)) : Tells time 0 b b' := by
  induction steps generalizing b with
  | zero => exact tells_stay h
  | succ steps ih =>
    unfold callDownOne at h
    split at h
    · exact tells_stay h
    · split at h
      · exact tells_stay h
      · obtain ⟨m, hfirst, hrest⟩ := exists_of_andThen h
        have hnoted : Tells time 0 b m := (tells_note b rfl).trans (hdown dependent _ m hfirst)
        split at hrest
        · exact hnoted.trans (tells_stay hrest)
        · exact hnoted.trans (ih hrest)

theorem tells_descendOn {depth : Nat} {path : List Handle}
    (h : descendOn crew depth path root b = (b', none)) : Tells time 0 b b' := by
  induction depth generalizing path root b b' with
  | zero => exact tells_stay h
  | succ depth ih =>
    unfold descendOn at h
    split at h
    · exact tells_stay h
    · next p _ =>
      split at h
      · exact tells_stay h
      · obtain ⟨m, hcalled, hleave⟩ := exists_of_andThen h
        refine (tells_forEach (fun target b b' hcall ↦ ?_) hcalled).trans (tells_leave hleave)
        unfold callDown at hcall
        split at hcall
        · exact tells_stay hcall
        · exact tells_callDownOne (fun _ _ _ hdown ↦ ih hdown) hcall

theorem tells_lower {steps : Nat} (h : lower crew root steps b = (b', none)) :
    Tells time 0 b b' := by
  induction steps generalizing b with
  | zero => exact tells_stay h
  | succ steps ih =>
    unfold lower at h
    split at h
    · exact tells_stay h
    · obtain ⟨m, hfirst, hrest⟩ := exists_of_andThen h
      have hdown : Tells time 0 b (m.mark true) := show Tells time 0 b m from tells_descendOn hfirst
      split at hrest
      · exact hdown.trans (tells_stay hrest)
      · exact hdown.trans (ih hrest)

theorem tells_retreatPass (h : retreatPass crew b = (b', none)) : Tells time 0 b b' :=
  tells_forEach (b := b.mark false) (fun _ _ _ hsettle ↦ tells_lower hsettle) h

/-! Going up. -/

/-- What a step up counts is what it has applied, since nothing was on record for its stage. -/
theorem tells_climb (sound : b.controller.Sound) (accounted : Accounted b.controller)
    (hp : b.controller.board.get? p.root = some p)
    (hnext : b.controller.chain.next? p.stage = some next)
    (h : climb crew p.root p next b = (b', none)) : Tells time 0 b b' := by
  have hindex := Chain.index_of_next? hnext
  have hclear : ∀ k ∈ b.controller.forest.tree p.root, ∀ u, b.controller.forest.get? k = some u →
      u.appliedAt next = [] := fun k hk u hu ↦ LiveUnit.appliedAt_eq_nil
    ((accounted.held hp).ne_stage (mem_treeUnits_iff.2 ⟨k, hk, hu⟩) (by omega))
  unfold climb at h
  rcases Site.enterStage_cases crew next (sound.forest.nodup_tree _) with
    ⟨done, site, heq, htreated⟩ | ⟨_, _, site, _, _, _, _, _, _, _, _, heq, hentered, hleft⟩
  · have heq : b.controller.site.enterStage crew p.root next = _ := heq
    simp only [heq] at h
    split at h
    · exact absurd (congrArg Prod.snd h) (by simp)
    · obtain rfl := congrArg Prod.fst h
      refine tells_step htreated.ambient true rfl rfl ?_
      rw [htreated.countP_entered hclear]
      simp [Tally.after, tellings, Event.countOf, Entry.event?, Event.ofFields, takenCalls]
  · have heq : b.controller.site.enterStage crew p.root next = _ := heq
    simp only [heq] at h
    obtain rfl := congrArg Prod.fst h
    refine tells_step (hentered.ambient.trans hleft.ambient) false rfl rfl ?_
    simp [Tally.after, tellings, Event.countOf, Entry.event?, Event.ofFields, takenCalls]

theorem tells_advance (sound : b.controller.Sound) (accounted : Accounted b.controller)
    (h : advance crew root b = (b', none)) : Tells time 0 b b' := by
  rw [advance_eq] at h
  split at h
  · exact tells_stay h
  · next p hp =>
    obtain rfl := Board.root_of_get? hp
    split at h
    · exact tells_stay h
    · next missing _ =>
      obtain rfl := congrArg Prod.fst h
      unfold park
      simp only [hp]
      split
      · exact tells_refl time b
      · exact tells_uncounted (journal_note _ _) (by
          simp [Entry.isUncounted, Entry.startsCall, Entry.outcome?, Entry.isCompleted]) rfl
    · next next hready =>
      have hnext := (of_verdict_ready hp hready).2.2.1
      exact tells_climb (b := b.mark true) sound accounted hp hnext h

theorem tells_advanceEach {roots : List Handle} (sound : b.controller.Sound)
    (accounted : Accounted b.controller) (h : forEach (advance crew) roots b = (b', none)) :
    Tells time 0 b b' := by
  induction roots generalizing b with
  | nil => exact tells_stay h
  | cons root roots ih =>
    obtain ⟨m, hfirst, hrest⟩ := exists_of_andThen h
    obtain ⟨m', heq, hturns, _⟩ := exists_advance crew root b
    obtain rfl : m' = m := congrArg Prod.fst (heq.symm.trans hfirst)
    exact (tells_advance sound accounted hfirst).trans
      (ih (hturns.steps.sound sound) (hturns.steps.accounted sound accounted) hrest)

/-- The passes taken are counted, and they are not more than are left. -/
theorem tells_passes (time : String) {left : Nat} (sound : b.controller.Sound)
    (accounted : Accounted b.controller) (h : passes crew left b = (b', none)) :
    ∃ n ≤ left, Tells time n b b' := by
  induction left generalizing b with
  | zero =>
    obtain rfl := congrArg Prod.fst h
    exact ⟨0, Nat.le_refl 0, tells_note b rfl⟩
  | succ left ih =>
    obtain ⟨m, hretreat, hrest⟩ := exists_of_andThen h
    have hcounted : Tells time 1 b b.counted :=
      tells_uncounted (List.append_nil _).symm (by simp) rfl
    have hdown := hcounted.trans (tells_retreatPass hretreat)
    have hdrops := (drops_of_retreatPass (b := b.counted) sound hretreat).1
    have hm := hdrops.turns.steps.sound sound
    have haccounted := hdrops.turns.steps.accounted sound accounted
    split at hrest
    · obtain ⟨n, hn, htells⟩ := ih hm haccounted hrest
      exact ⟨_, by omega, hdown.trans htells⟩
    · obtain ⟨k, hadvance, hlast⟩ := exists_of_andThen hrest
      have hup : Tells time 0 m k :=
        tells_advanceEach (b := m.mark false) hm haccounted hadvance
      have hturns := turns_of_advancePass hm hadvance
      split at hlast
      · obtain ⟨n, hn, htells⟩ :=
          ih (hturns.steps.sound hm) (hturns.steps.accounted hm haccounted) hlast
        exact ⟨_, by omega, (hdown.trans hup).trans htells⟩
      · exact ⟨_, by omega, (hdown.trans hup).trans (tells_stay hlast)⟩

/-! Taking out and planting. -/

theorem tells_discard (root : Handle) (b : Batch β σ) :
    Tells time 0 b { b with controller := b.controller.discard root } := by
  cases hp : b.controller.board.get? root with
  | none =>
    have hsame : b.controller.discard root = b.controller := by
      unfold Controller.discard
      rw [hp]
    rw [hsame]
    exact tells_refl time b
  | some p =>
    obtain rfl := Board.root_of_get? hp
    exact tells_uncounted (journal_discard hp) (by simp; rfl) rfl

theorem tells_discardEach (roots : List Handle) (b : Batch β σ) :
    Tells time 0 b
      { b with controller := roots.foldl (fun c root ↦ c.discard root) b.controller } := by
  induction roots generalizing b with
  | nil => exact tells_refl time b
  | cons root roots ih => exact (tells_discard root b).trans (ih _)

theorem tells_plant (plan : Blueprint) (b : Batch β σ) :
    Tells time 0 b { b with controller := (b.controller.plant plan).1 } := by
  unfold plant
  split
  · exact tells_note b rfl
  · exact tells_uncounted (journal_note _ _) (by simp; rfl) rfl

theorem tells_plantAll (plans : List Blueprint) (b : Batch β σ) :
    Tells time 0 b { b with controller := (plantAll plans b.controller).1 } := by
  induction plans generalizing b with
  | nil => exact tells_refl time b
  | cons plan plans ih => exact (tells_plant plan b).trans (ih _)

theorem tells_materialize {c : Controller β σ}
    (h : b.controller.sweep.materialize = (c, none)) :
    Tells time 0 b { b with controller := c } := by
  obtain rfl := congrArg Prod.fst h
  exact (tells_discardEach _ b).trans
    (tells_plantAll b.controller.sweep.queue
      { b with controller := { b.controller.sweep with queue := [] } })

end Batch

namespace Controller

open Batch

variable {crew : Crew β σ} {c d : Controller β σ}

/-- A batch tells last what it has counted, all of it since it was started, and it has taken no more
passes than it may. -/
theorem Sound.tells_process (sound : c.Sound) (crew : Crew β σ) (accounted : Accounted c)
    (time : String) :
    ∃ n ≤ c.config.maxPasses, ∃ b, Tells time n (start c) b ∧
      (c.process crew).2 = b.controller.note (.completed b.tally) := by
  obtain ⟨b, k, b', hfirst, hmaterialize, hsecond, heq, hparts⟩ := exists_runs crew sound
  obtain ⟨n, hn, htells⟩ := tells_passes time sound accounted hfirst
  obtain ⟨_, hk, _⟩ := hparts.sound sound
  have hplanned := hparts.planned sound
  obtain ⟨m, hm, htells'⟩ := tells_passes time (b := { b with controller := k }) hk
    (hplanned.accounted sound accounted) hsecond
  have hpasses : b.tally.passes = n := htells.passes.trans (Nat.zero_add n)
  refine ⟨n + 0 + m, ?_, b', (htells.trans (tells_materialize hmaterialize)).trans htells', ?_⟩
  · have hle : m ≤ k.config.maxPasses - b.tally.passes := hm
    have hlt : n ≤ c.config.maxPasses - 0 := hn
    rw [(hplanned.fixed sound).1, hpasses] at hle
    omega
  · rw [heq]

end Controller

end Rollout
