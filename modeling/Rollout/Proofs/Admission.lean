import Rollout.Proofs.LastWord
import Rollout.Proofs.PartialQueueing

/-!
What is taken in and what is turned away. A deployment is queued if and only if its tree could go
live once the deployment that it replaces is gone, and queueing it changes nothing but the queue and
the progress of the one that is replaced. A call that is turned away, whether for a tree, a name or
a stage, leaves no trace at all, even if it would have run batches.
-/

set_option autoImplicit false
set_option relaxedAutoImplicit false

namespace Rollout

/-- Whether an error tells that a call was not taken on: that a deployment could not be queued, or
that something the call names is not known. -/
def Error.isRejection : Error → Bool
  | unknownDeployment .. => true
  | error => error.isRefusal

theorem Forest.isSome_byName? {β : Type} (f : Forest β) (name : String) :
    (f.byName? name).isSome = (f.find? name).isSome := by
  unfold byName?
  cases hfind : f.find? name with
  | none => rfl
  | some h =>
    obtain ⟨n, hn, _⟩ := exists_of_find? hfind
    obtain ⟨u, hu, _⟩ := node?_eq_some_iff.1 hn
    rw [Option.bind_some, hu]
    rfl

namespace Controller

variable {β σ : Type} {crew : Crew β σ} {c d : Controller β σ} {b : Blueprint} {root : Handle}
  {name : String} {names : List String} {roots : List Handle} {error : Error}

/-! What can be queued. -/

/-- A tree that could go live once the deployment of its name is gone: its names are no blanks, each
is used once and not queued, and where one is live the deployment that has it has the tree's own
name; and all stages that its needs name are known. -/
structure Admissible (c : Controller β σ) (b : Blueprint) : Prop where
  blank : ∀ name ∈ b.names, Text.isBlank name = false
  nodup : b.names.Nodup
  queued : ∀ name ∈ b.names, ∀ other ∈ c.queue, name ∉ other.names
  live : ∀ name ∈ b.names, ∀ u, c.unit? name = some u →
    ∃ t, c.forest.get? u.top = some t ∧ t.kind = .topLevel ∧ t.name = b.name
  known : ∀ n ∈ b.needs, n.before.name ∈ c.chain.names ∧ n.atLeast.name ∈ c.chain.names

theorem unknownStage?_eq_none_iff {chain : Chain} {needs : List Need} :
    unknownStage? chain needs = none ↔
      ∀ n ∈ needs, n.before.name ∈ chain.names ∧ n.atLeast.name ∈ chain.names := by
  induction needs with
  | nil => simp [unknownStage?]
  | cons n needs ih =>
    rw [List.forall_mem_cons, ← ih, ← Chain.isSome_resolve?_iff, ← Chain.isSome_resolve?_iff,
      unknownStage?]
    cases chain.resolve? n.before with
    | none => simp
    | some _ => cases chain.resolve? n.atLeast <;> simp

/-- A name is free if it is not queued, and if no unit has it but one of the tree that is
replaced. -/
theorem Sound.nameTaken_eq_false_iff (sound : c.Sound) :
    c.nameTaken (c.forest.topLevel? b.name) name = false ↔
      (∀ other ∈ c.queue, name ∉ other.names) ∧ ∀ u, c.unit? name = some u →
        ∃ t, c.forest.get? u.top = some t ∧ t.kind = .topLevel ∧ t.name = b.name := by
  rw [Controller.nameTaken_eq_false_iff]
  refine and_congr_right fun _ ↦ ?_
  constructor
  · intro hfree u hu
    have hlive : (c.forest.find? name).isSome = true := by
      rw [← Forest.isSome_byName?]
      exact Option.isSome_iff_exists.2 ⟨u, hu⟩
    obtain ⟨root, hroot, hmem⟩ := hfree hlive
    obtain ⟨n, hn, htname, hkind⟩ := sound.forest.topLevel?_eq_some_iff.1 hroot
    obtain ⟨p, hp⟩ := sound.tracked.1 (sound.mem_order.2 ⟨n, hn, hkind⟩)
    obtain ⟨t, ht, rfl⟩ := Forest.node?_eq_some_iff.1 hn
    have htop := (sound.mem_treeNames_iff hp).1 hmem
    rw [home?, show c.forest.byName? name = some u from hu, Option.map_some,
      Option.some_inj] at htop
    exact ⟨t, htop ▸ ht, hkind, htname⟩
  · intro hfree hlive
    rw [← Forest.isSome_byName?] at hlive
    obtain ⟨u, hu⟩ := Option.isSome_iff_exists.1 hlive
    obtain ⟨t, ht, hkind, htname⟩ := hfree u hu
    have hn := Forest.node?_of_get? ht
    obtain ⟨p, hp⟩ := sound.tracked.1 (sound.mem_order.2 ⟨_, hn, hkind⟩)
    refine ⟨u.top, sound.forest.topLevel?_eq_some_iff.2 ⟨_, hn, htname, hkind⟩, ?_⟩
    refine (sound.mem_treeNames_iff hp).2 ?_
    rw [home?, hu, Option.map_some]

theorem Sound.queueError?_eq_none_iff (sound : c.Sound) :
    c.queueError? b = none ↔ c.Admissible b := by
  have hnames : NameFault.first? (c.nameTaken (c.forest.topLevel? b.name)) [] b.names = none ↔
      (∀ name ∈ b.names, Text.isBlank name = false ∧ (∀ other ∈ c.queue, name ∉ other.names) ∧
        ∀ u, c.unit? name = some u →
          ∃ t, c.forest.get? u.top = some t ∧ t.kind = .topLevel ∧ t.name = b.name) ∧
        b.names.Nodup := by
    rw [NameFault.first?_eq_none_iff]
    refine and_congr_left fun _ ↦ forall₂_congr fun name _ ↦ and_congr_right fun _ ↦ ?_
    rw [sound.nameTaken_eq_false_iff, and_iff_left List.not_mem_nil]
  unfold queueError?
  constructor
  · intro hnone
    split at hnone
    · exact absurd hnone (by simp)
    · next hfault =>
      obtain ⟨heach, hnodup⟩ := hnames.1 hfault
      rw [Option.map_eq_none_iff, unknownStage?_eq_none_iff] at hnone
      exact ⟨fun name hname ↦ (heach name hname).1, hnodup,
        fun name hname ↦ (heach name hname).2.1, fun name hname ↦ (heach name hname).2.2, hnone⟩
  · intro hadmissible
    have hfault := hnames.2 ⟨fun name hname ↦ ⟨hadmissible.blank name hname,
      hadmissible.queued name hname, hadmissible.live name hname⟩, hadmissible.nodup⟩
    rw [hfault]
    exact Option.map_eq_none_iff.2 (unknownStage?_eq_none_iff.2 hadmissible.known)

/-- What has happened to a controller when a deployment has been queued: the live deployment of its
name, if there is one, has been scheduled for removal, and that is all. -/
structure Queued (c : Controller β σ) (b : Blueprint) (d : Controller β σ) : Prop where
  queue : d.queue = c.queue ++ [b]
  replaced : ∀ root, c.forest.topLevel? b.name = some root →
    ∃ p, c.board.get? root = some p ∧ d.board.get? root =
      some { p with removing := true, requested := Stage.floor, waiting := [] }
  others : ∀ h, c.forest.topLevel? b.name ≠ some h → d.board.get? h = c.board.get? h
  order : d.board.order = c.board.order
  forest : d.forest = c.forest
  roster : d.roster = c.roster
  state : d.state = c.state
  journal : d.journal.toList = c.journal.toList ++ c.queueing b

theorem Sound.queued_enqueued (sound : c.Sound) (b : Blueprint) :
    c.Queued b (c.enqueued [b]) := by
  have hget : ∀ h, (c.enqueued [b]).board.get? h = if h ∈ c.replaced [b]
      then (c.board.get? h).map Progress.retired else c.board.get? h :=
    c.board.get?_retireEach (c.replaced [b])
  have hmem : ∀ h, h ∈ c.replaced [b] ↔ c.forest.topLevel? b.name = some h := by
    simp [replaced]
  refine ⟨rfl, fun root hroot ↦ ?_, fun h hh ↦ ?_, c.board.order_retireEach _, rfl, rfl, rfl, ?_⟩
  · obtain ⟨n, hn, _, hkind⟩ := sound.forest.topLevel?_eq_some_iff.1 hroot
    obtain ⟨p, hp⟩ := sound.tracked.1 (sound.mem_order.2 ⟨n, hn, hkind⟩)
    refine ⟨p, hp, ?_⟩
    rw [hget, if_pos ((hmem root).2 hroot), hp]
    rfl
  · rw [hget, if_neg fun hin ↦ hh ((hmem h).1 hin)]
  · show (c.journal ++ [b].flatMap c.queueing).toList = _
    simp

/-! Calls that are turned away. -/

/-- A look at some deployments is turned away if and only if one of them is not live. -/
theorem isRejection_checkNamed_iff (h : c.checkNamed names = .error error) :
    error.isRejection = true ↔ ∃ name ∈ names, c.unit? name = none := by
  unfold checkNamed at h
  cases hroots : c.roots names with
  | error e =>
    rw [hroots] at h
    obtain rfl := Except.error.inj h
    obtain ⟨name, hname, hnone, rfl⟩ := of_rootsFrom_error hroots
    exact iff_of_true rfl ⟨name, hname, hnone⟩
  | ok roots =>
    rw [hroots] at h
    have hlive := live_of_rootsFrom hroots
    obtain rfl := of_checkRoots_error h
    refine iff_of_false (by simp [Error.isRejection, Error.isRefusal]) fun ⟨name, hname, hnone⟩ ↦ ?_
    have hsome := hlive name hname
    rw [hnone] at hsome
    exact absurd hsome (by simp)

theorem eq_of_add_error (h : c.add b = (.error error, d)) : d = c := by
  rw [add_eq] at h
  cases hnone : c.queueError? b with
  | some e =>
    rw [hnone] at h
    exact (Prod.mk.inj h).2.symm
  | none =>
    rw [hnone] at h
    exact absurd (Prod.mk.inj h).1 (by simp)

theorem eq_of_remove_error {result : Except Error Bool} (h : c.remove name = (result, d))
    (hresult : result ≠ .ok true) : d = c := by
  unfold remove at h
  split at h
  · exact absurd (Prod.mk.inj h).1.symm hresult
  · split at h
    · exact (Prod.mk.inj h).2.symm
    · split at h
      · exact absurd (Prod.mk.inj h).1.symm hresult
      · exact (Prod.mk.inj h).2.symm

/-- A look at what is live by now cannot be turned away, so a call that is turned away has not got
as far as that. -/
theorem Sound.eq_of_deploy_rejected (sound : c.Sound) (h : c.deploy crew b = (.error error, d))
    (rejection : error.isRejection = true) : d = c := by
  unfold deploy deployAll addAll at h
  cases hadd : c.add b with
  | mk result m =>
    rw [hadd] at h
    cases result with
    | error e =>
      rw [andThen_error, andThen_error] at h
      rw [← (Prod.mk.inj h).2]
      exact eq_of_add_error hadd
    | ok _ =>
      have hm : m.Sound := by
        have hprepares := sound.prepares_add crew b
        rw [hadd] at hprepares
        exact Steps.sound hprepares.steps sound
      have hqueue : b ∈ m.queue := by
        rw [add_eq] at hadd
        split at hadd
        · exact absurd (Prod.mk.inj hadd).1 (by simp)
        · rw [← (Prod.mk.inj hadd).2]
          exact List.mem_append_right _ List.mem_cons_self
      obtain ⟨k, hprocess, hcompleted⟩ := hm.exists_completed crew
      rw [andThen_ok, addAll, andThen_ok, hprocess, andThen_ok] at h
      have hcheck := (Prod.mk.inj h).1
      split at hcheck
      · obtain ⟨name, hname, hnone⟩ := (isRejection_checkNamed_iff hcheck).1 rejection
        obtain rfl := List.mem_singleton.1 hname
        have hlive := (hcompleted.live b.name).2 (Or.inr ⟨b, hqueue, b.name_mem_names⟩)
        rw [← Forest.isSome_byName?, show k.forest.byName? b.name = none from hnone] at hlive
        exact absurd hlive (by simp)
      · exact absurd hcheck (by simp)

theorem Sound.eq_of_undeploy_rejected (sound : c.Sound)
    (h : c.undeploy crew name = (.error error, d)) (rejection : error.isRejection = true) :
    d = c := by
  have hprepares := sound.prepares_remove crew name
  unfold undeploy at h
  cases hremove : c.remove name with
  | mk result m =>
    rw [hremove] at h hprepares
    match result, hremove with
    | .error e, hremove =>
      rw [← (Prod.mk.inj h).2]
      exact eq_of_remove_error hremove (by simp)
    | .ok false, hremove =>
      rw [← (Prod.mk.inj h).2]
      exact eq_of_remove_error hremove (by simp)
    | .ok true, _ =>
      have hm : m.Sound := Steps.sound hprepares.steps sound
      change andThen (m.process crew) _ = _ at h
      rw [hm.process_ok crew, andThen_ok] at h
      have hcheck := (Prod.mk.inj h).1
      split at hcheck
      · next hlive =>
        obtain ⟨other, hother, hnone⟩ := (isRejection_checkNamed_iff hcheck).1 rejection
        obtain rfl := List.mem_singleton.1 hother
        rw [Bool.and_eq_true, ← Forest.isSome_byName?] at hlive
        have hsome : ((m.process crew).2.unit? other).isSome = true := hlive.2
        rw [hnone] at hsome
        exact absurd hsome (by simp)
      · exact absurd hcheck (by simp)

/-- A request is turned away before it has done anything, unless it queues several deployments. -/
theorem Sound.eq_of_rejected (sound : c.Sound) (waits : c.Waits) (tidy : c.Tidy)
    {r : Request β σ} (hr : ∀ bs, r ≠ .deployAll bs) (h : c.serve crew r = (.error error, d))
    (rejection : error.isRejection = true) : d = c := by
  have hlook : ∀ {strict : Bool} {e : Controller β σ} {roots : List Handle},
      (if strict then e.checkRoots roots else .ok ()) = Except.error error → False := by
    intro strict e roots hcheck
    split at hcheck
    · obtain rfl := of_checkRoots_error hcheck
      exact absurd rejection (by simp [Error.isRejection, Error.isRefusal])
    · exact absurd hcheck (by simp)
  cases r with
  | add b => exact eq_of_add_error h
  | remove name =>
    cases hremove : c.remove name with
    | mk result m =>
      change ((c.remove name).1.map fun _ ↦ (), (c.remove name).2) = _ at h
      rw [hremove] at h
      rw [← (Prod.mk.inj h).2]
      refine eq_of_remove_error hremove fun hok ↦ ?_
      rw [hok] at h
      exact absurd (Prod.mk.inj h).1 (by simp [Except.map])
  | process =>
    change c.process crew = _ at h
    rw [sound.process_ok crew] at h
    exact absurd (Prod.mk.inj h).1 (by simp)
  | deploy b => exact sound.eq_of_deploy_rejected h rejection
  | deployAll bs => exact absurd rfl (hr bs)
  | undeploy name => exact sound.eq_of_undeploy_rejected h rejection
  | change stage strict names =>
    change c.change crew stage strict names = _ at h
    cases haims : c.aims stage names with
    | error e =>
      unfold change at h
      rw [haims] at h
      exact (Prod.mk.inj h).2.symm
    | ok aim =>
      rw [sound.change_eq crew haims strict] at h
      exact (hlook (Prod.mk.inj h).1).elim
  | bounce stage strict names =>
    change c.bounce crew stage strict names = _ at h
    cases haims : c.aims stage names with
    | error e =>
      unfold bounce at h
      rw [haims] at h
      exact (Prod.mk.inj h).2.symm
    | ok aim =>
      obtain ⟨d₁, d₂, d₃, hbounces, _⟩ := exists_bounce crew sound waits tidy strict haims
      rw [hbounces.bounce_eq haims strict] at h
      exact (hlook (Prod.mk.inj h).1).elim
  | enlist deployer =>
    change ((c.enlist deployer).1.mapError Error.roster, (c.enlist deployer).2) = _ at h
    have hresult := (Prod.mk.inj h).1
    cases henlist : (c.enlist deployer).1 with
    | error e =>
      rw [henlist] at hresult
      obtain rfl := Except.error.inj hresult
      exact absurd rejection Bool.false_ne_true
    | ok _ =>
      rw [henlist] at hresult
      exact absurd hresult (by simp [Except.mapError])
  | dismiss name => exact absurd (Prod.mk.inj h).1 (by simp)
  | replaceState state => exact absurd (Prod.mk.inj h).1 (by simp)

/-- A deployment is queued if and only if it is admissible, and then nothing else happens but that
the live one of its name is scheduled for removal. Every request but one that queues several
deployments is turned away before it has changed or told anything, and so is a look at some names,
which has nothing to change, if and only if one of them is not live. -/
theorem queueing_exact (reachable : Reachable crew c) :
    (∀ b, ((c.add b).1 = .ok () ↔ c.Admissible b) ∧
      (c.Admissible b → c.Queued b (c.add b).2) ∧
      (¬ c.Admissible b → ∃ error, error.isRefusal = true ∧ c.add b = (.error error, c))) ∧
    (∀ (r : Request β σ) error d, (∀ bs, r ≠ .deployAll bs) →
      c.serve crew r = (.error error, d) → error.isRejection = true → d = c) ∧
    ∀ names error, c.checkNamed names = .error error →
      (error.isRejection = true ↔ ∃ name ∈ names, c.unit? name = none) := by
  obtain ⟨sound, waits, tidy, _⟩ := reachable.invariant
  refine ⟨fun b ↦ ?_, fun r error d hr h ↦ sound.eq_of_rejected waits tidy hr h,
    fun names error ↦ isRejection_checkNamed_iff⟩
  rw [← sound.queueError?_eq_none_iff, add_eq]
  cases herror : c.queueError? b with
  | none => exact ⟨iff_of_true rfl rfl, fun _ ↦ sound.queued_enqueued b, fun h ↦ absurd rfl h⟩
  | some error =>
    refine ⟨iff_of_false (by simp) (by simp), fun h ↦ absurd h (by simp), fun _ ↦ ?_⟩
    exact ⟨error, isRefusal_of_queueError? herror, rfl⟩

/-- A run on which a tree of two units is live, and one deployment is queued. -/
def crowded : Controller Unit Unit :=
  parsing.serveAll idle
    [.deploy (.mk "app" .none [] [.mk "db" .none [] [] []] []), .add (.mk "gui" .none [] [] [])]

/-- A tree that takes both names of the live one, and needs what it never gets. -/
def remade : Blueprint :=
  .mk "app" .none [⟨"net", ⟨"Real", 8⟩, ⟨"Parse", 1⟩⟩] [] [.mk "db" .none [] [] []]

theorem queueing_exact_crowded :
    crowded.Admissible remade ∧ crowded.Queued remade (crowded.add remade).2 ∧
      ¬ crowded.Admissible (.mk "db" .none [] [] []) ∧
      (crowded.deploy idle (.mk "log" .none [] [.mk "gui" .none [] [] []] [])).1 =
        .error (.duplicateDeployment "gui") ∧
      (crowded.deploy idle (.mk "log" .none [] [.mk "gui" .none [] [] []] [])).2 = crowded ∧
      (crowded.bounce idle Stage.floor true ["app", "net"]).2 = crowded := by
  have hreachable : Reachable idle crowded := reachable_parsing idle _
  obtain ⟨hadd, hserve, _⟩ := queueing_exact hreachable
  have hadmissible := (hadd remade).1.1 (by decide +kernel)
  have hdeploy : (crowded.deploy idle (.mk "log" .none [] [.mk "gui" .none [] [] []] [])).1 =
      .error (.duplicateDeployment "gui") := by decide +kernel
  have hbounce : (crowded.bounce idle Stage.floor true ["app", "net"]).1 =
      .error (.unknownDeployment "net") := by decide +kernel
  refine ⟨hadmissible, (hadd remade).2.1 hadmissible, fun h ↦ ?_, hdeploy, ?_, ?_⟩
  · exact absurd ((hadd _).1.2 h) (by decide +kernel)
  · exact hserve (.deploy _) _ _ (by simp) (Prod.ext hdeploy rfl) rfl
  · exact hserve (.bounce Stage.floor true ["app", "net"]) _ _ (by simp) (Prod.ext hbounce rfl) rfl

end Controller

end Rollout
