import Rollout.Proofs.Records
import Rollout.Proofs.Requests
import Rollout.Proofs.StandingNeeds

/-!
Bracketing. Whatever is done on a tree since it was planted unwinds: a deployer that is called to
take back what it did is the one that was applied last and not taken back yet, on the same unit.
What is still applied is what the units of the tree have on record. So a tree is taken out only when
all that was applied to it has been taken back.
-/

set_option autoImplicit false
set_option relaxedAutoImplicit false

namespace Rollout

variable {β σ : Type}

namespace Controller

variable {crew : Crew β σ} {c d : Controller β σ} {h root : Handle} {p q : Progress}
  {stage : Stage} {es : List (Entry β)}
  {next : Stage} {applied : Nat} {site : Site β σ} {done : Handle → List (Deployer β)}

/-! All trees. -/

/-- What is done on the units of one tree is not done on those of another. -/
theorem Sound.deeds_other (sound : c.Sound) (hp : c.board.get? root = some p)
    (hq : c.board.get? h = some q) (hne : h ≠ root) {s : Site β σ}
    (shape : c.forest.SameShape s.forest) {hs : List Handle} (hsub : hs ⊆ c.forest.tree root)
    {calls : Handle → LiveUnit β → List (Entry β)}
    (hcalls : ∀ k u names, u.name ∉ names → ∀ e ∈ calls k u, e.deed? names = none) :
    deeds (c.forest.treeNames h) (s.callsOn hs calls) = [] := by
  refine Site.deed?_callsOn fun k hk v hv ↦ hcalls k v _ ?_
  obtain ⟨u, hu, heq⟩ := shape.exists_get? hv
  rw [← heq]
  exact sound.name_notMem_treeNames hp hq hne (hsub hk) hu

theorem Sound.deeds_enter_other (sound : c.Sound) (hp : c.board.get? root = some p)
    (hq : c.board.get? h = some q) (hne : h ≠ root) {hs : List Handle}
    (hsub : hs ⊆ c.forest.tree root) :
    deeds (c.forest.treeNames h) (c.site.callsOn hs (Site.enterCalls stage done)) = [] :=
  sound.deeds_other hp hq hne (.refl _) hsub fun _ u _ hname ↦ u.deed?_deployCalls hname

theorem Sound.deeds_leave_other (sound : c.Sound) (hp : c.board.get? root = some p)
    (hq : c.board.get? h = some q) (hne : h ≠ root) {s : Site β σ}
    (shape : c.forest.SameShape s.forest) {hs : List Handle} (hsub : hs ⊆ c.forest.tree root) :
    deeds (c.forest.treeNames h) (s.callsOn hs.reverse (Site.leaveCalls stage)) = [] :=
  sound.deeds_other hp hq hne shape (List.reverse_subset.2 hsub)
    fun _ u _ hname ↦ u.deed?_undeployCalls hname

/-- All deeds unwind: on every tree that is there to what is on record, and to nothing on every tree
that has been taken out. -/
structure Accounted (c : Controller β σ) : Prop where
  held : ∀ {h : Handle} {p : Progress}, c.board.get? h = some p → Held c h p
  cleared : ∀ pre root name units post,
    c.journal.toList = pre ++ .removed root name units :: post →
      Unwinds [] (deeds units (since root pre)) []

/-- As long as no tree is taken out, nothing is added to what was done on those that were. -/
theorem Accounted.extend (accounted : Accounted c)
    (hes : d.journal.toList = c.journal.toList ++ es)
    (hkept : ∀ e ∈ es, ∀ root name units, e ≠ .removed root name units)
    (hheld : ∀ {h : Handle} {q : Progress}, d.board.get? h = some q → Held d h q) :
    Accounted d := by
  refine ⟨hheld, fun pre root name units post heq ↦ ?_⟩
  rw [hes] at heq
  obtain ⟨fs, hfs⟩ := exists_eq_append_cons heq fun hmem ↦ hkept _ hmem root name units rfl
  exact accounted.cleared pre root name units fs hfs

theorem ne_removed_of_isQuiet {e : Entry β} (hquiet : e.isQuiet = true) (root : Handle)
    (name : String) (units : List String) : e ≠ .removed root name units := by
  intro heq
  rw [heq] at hquiet
  exact absurd hquiet (by simp [Entry.isQuiet])

/-- Only one tree is worked on at a time. -/
theorem Accounted.moved (accounted : Accounted c) (root : Handle)
    (hes : d.journal.toList = c.journal.toList ++ es) (hquiet : ∀ e ∈ es, e.isQuiet = true)
    (hchain : d.chain = c.chain)
    (hself : ∀ {q : Progress}, d.board.get? root = some q → Held d root q)
    (hother : ∀ {h : Handle} {q : Progress}, h ≠ root → d.board.get? h = some q →
      c.board.get? h = some q ∧ d.forest.treeUnits h = c.forest.treeUnits h ∧
        deeds (c.forest.treeNames h) es = []) : Accounted d := by
  refine accounted.extend hes (fun e he ↦ ne_removed_of_isQuiet (hquiet e he)) fun {h q} hq ↦ ?_
  by_cases hne : h = root
  · subst hne
    exact hself hq
  · obtain ⟨hq', hunits, hdeeds⟩ := hother hne hq
    refine (accounted.held hq').still hes (fun e he ↦ Entry.plants_of_isQuiet (hquiet e he) h)
      hchain (ledger_congr hunits) ?_ rfl
    rw [hdeeds]
    exact .nil

/-- Nothing is worked on and nothing moves. -/
theorem Accounted.still (accounted : Accounted c)
    (hes : d.journal.toList = c.journal.toList ++ es)
    (hquiet : ∀ e ∈ es, e.isQuiet = true ∧ e.isCall = false) (hchain : d.chain = c.chain)
    (hforest : d.forest = c.forest) (hstage : ∀ h, d.board.stage? h = c.board.stage? h) :
    Accounted d := by
  refine accounted.extend hes (fun e he ↦ ne_removed_of_isQuiet (hquiet e he).1)
    fun {h q} hq ↦ ?_
  have hsame := hstage h
  unfold Board.stage? at hsame
  rw [hq, Option.map_some, eq_comm, Option.map_eq_some_iff] at hsame
  obtain ⟨p, hp, heq⟩ := hsame
  have hdeeds : deeds (c.forest.treeNames h) es = [] := by
    rw [← deeds_filter, List.filter_eq_nil_iff.2 fun e he ↦ by simp [(hquiet e he).2]]
    rfl
  refine (accounted.held hp).still hes (fun e he ↦ Entry.plants_of_isQuiet (hquiet e he).1 h)
    hchain (ledger_congr (by rw [hforest])) ?_ heq.symm
  rw [hdeeds]
  exact .nil

theorem Accounted.note (accounted : Accounted c) {entry : Entry β}
    (hquiet : entry.isQuiet = true) (hcall : entry.isCall = false) :
    Accounted (c.note entry) := by
  refine accounted.still (journal_note c entry) (fun e he ↦ ?_) rfl rfl fun _ ↦ rfl
  rw [List.mem_singleton.1 he]
  exact ⟨hquiet, hcall⟩

theorem Accounted.lowered (accounted : Accounted c) (sound : c.Sound) (crew : Crew β σ)
    (hp : c.board.get? p.root = some p) {below : Stage}
    (hbelow : c.chain.prev? p.stage = some below) : Accounted (c.lowered crew p below) := by
  have htreated := sound.treated_lowered crew p
  obtain ⟨es, hes, hquiet, hdeeds⟩ := htreated.ambient.deeds_note
    (.retreated ⟨p.root, p.name, p.stage, below, c.position,
      (c.lowered crew p below).position⟩ (c.site.leaveStage crew p.root p.stage).1) rfl rfl
  refine accounted.moved p.root hes hquiet rfl (fun {q} hq ↦ ?_) fun {h q} hne hq ↦ ?_
  · rw [get?_lowered crew hp, if_pos rfl] at hq
    obtain rfl := Option.some_inj.1 hq
    exact (accounted.held hp).lowered sound crew hp hbelow
  · rw [get?_lowered crew hp, if_neg hne] at hq
    have hunits := treeUnits_other sound hp hq hne (List.Subset.refl _) htreated
    refine ⟨hq, hunits, ?_⟩
    rw [hdeeds]
    exact sound.deeds_leave_other hp hq hne (.refl _) (List.Subset.refl _)

theorem Accounted.raised (accounted : Accounted c) (sound : c.Sound)
    (hp : c.board.get? p.root = some p) (hnext : c.chain.next? p.stage = some next)
    (henter : c.site.enterStage crew p.root next = (.ok applied, site)) :
    Accounted (c.raised p next applied site) := by
  obtain ⟨done, htreated⟩ := Site.exists_entered (sound.forest.nodup_tree _) henter
  obtain ⟨es, hes, hquiet, hdeeds⟩ := htreated.ambient.deeds_note
    (.advanced ⟨p.root, p.name, p.stage, next, c.position,
      (c.raised p next applied site).position⟩ applied) rfl rfl
  refine accounted.moved p.root hes hquiet rfl (fun {q} hq ↦ ?_) fun {h q} hne hq ↦ ?_
  · rw [get?_raised hp, if_pos rfl] at hq
    obtain rfl := Option.some_inj.1 hq
    exact (accounted.held hp).raised hnext htreated
  · rw [get?_raised hp, if_neg hne] at hq
    have hunits := treeUnits_other sound hp hq hne (List.Subset.refl _) htreated
    refine ⟨hq, hunits, ?_⟩
    rw [hdeeds]
    exact sound.deeds_enter_other hp hq hne (List.Subset.refl _)

theorem Accounted.stalled (accounted : Accounted c) (sound : c.Sound)
    (hp : c.board.get? p.root = some p) (hnext : c.chain.next? p.stage = some next)
    {failure : Failure} (henter : c.site.enterStage crew p.root next = (.error failure, site)) :
    Accounted (c.stalled p next failure site) := by
  obtain ⟨done, m, pre, k, u, d, cause, hsub, hu, hentered, hleft⟩ :=
    Site.exists_undone (sound.forest.nodup_tree _) henter
  have hlast : ∀ names, deeds names [Entry.deploying d u.id u.name next,
      .deployFailed d u.id u.name next cause] = [] := fun _ ↦ rfl
  have htreated := hentered.left next hleft
  obtain ⟨es, hes, hquiet, hdeeds⟩ := htreated.ambient.deeds_note
    (.failed p.root p.name next failure) rfl rfl
  refine accounted.moved p.root hes hquiet rfl (fun {q} hq ↦ ?_) fun {h q} hne hq ↦ ?_
  · rw [get?_stalled hp, if_pos rfl] at hq
    obtain rfl := Option.some_inj.1 hq
    exact (accounted.held hp).stalled hnext hsub hlast hentered hleft rfl
  · rw [get?_stalled hp, if_neg hne] at hq
    have hunits := treeUnits_other sound hp hq hne hsub htreated
    refine ⟨hq, hunits, ?_⟩
    rw [hdeeds, deeds_append, deeds_append, hlast,
      sound.deeds_enter_other hp hq hne hsub,
      sound.deeds_leave_other hp hq hne hentered.shape hsub]
    rfl

/-! Steps and runs. -/

theorem Turn.accounted (turn : Turn crew c d) (accounted : Accounted c) (sound : c.Sound) :
    Accounted d := by
  cases turn with
  | descend hp _ hbelow hrecalls =>
    refine hrecalls.preserves_lowered sound hp hbelow Accounted ?_ ?_ accounted
    · exact fun _ _ _ hc ↦ hc.note rfl rfl
    · exact fun hc hq hbelow haccounted ↦ haccounted.lowered hc crew hq hbelow
  | raise hp hready henter =>
    exact accounted.raised sound hp (of_verdict_ready hp hready).2.2.1 henter
  | stall hp hready henter =>
    exact accounted.stalled sound hp (of_verdict_ready hp hready).2.2.1 henter
  | @park p missing hp _ =>
    have hwaits : Accounted { c with board := c.board.wait p.root missing } :=
      accounted.still (List.append_nil _).symm (by simp) rfl rfl (stage?_parked hp)
    exact hwaits.note rfl rfl
  | limit _ => exact accounted.note rfl rfl

/-- A tree that has just been planted has nothing on record. -/
theorem Sound.applied_planted (sound : c.Sound) {b : Blueprint} {g : Forest β}
    (planted : Forest.Planted c.forest b root g) {u : LiveUnit β} (hu : u ∈ g.treeUnits root) :
    u.applied = [] := by
  obtain ⟨k, hk, hku⟩ := List.mem_filterMap.1 hu
  exact (planted.fresh_of_mem_tree sound.forest hk hku).applied

theorem records_eq_nil (happlied : ∀ u ∈ c.forest.treeUnits root, u.applied = []) :
    c.records root = [] := by
  unfold records
  rw [List.flatMap_eq_nil_iff]
  refine fun s _ ↦ recordsAt_eq_nil fun u hu ↦ LiveUnit.appliedAt_eq_nil fun a ha ↦ ?_
  rw [happlied u hu] at ha
  exact absurd ha List.not_mem_nil

theorem Accounted.settled (accounted : Accounted c) (sound : c.Sound) {b : Blueprint}
    {g : Forest β} (planted : Forest.Planted c.forest b root g) :
    Accounted (c.settled b root g) := by
  refine accounted.extend journal_settled (fun e he _ _ _ ↦ ?_) fun {h q} hq ↦ ?_
  · rw [List.mem_singleton.1 he]
    simp
  · rcases of_get?_settled hq with ⟨rfl, rfl⟩ | ⟨hne, hq⟩
    · have hfresh : ∀ u ∈ (c.settled b h g).forest.treeUnits h, u.applied = [] :=
        fun u hu ↦ sound.applied_planted planted hu
      refine ⟨fun u hu a ha ↦ ?_, ?_⟩
      · rw [hfresh u hu] at ha
        exact absurd ha List.not_mem_nil
      · rw [records_eq_nil hfresh, journal_settled, since_planted _ (by simp [Entry.plants])]
        exact .nil
    · have hunits : (c.settled b root g).forest.treeUnits h = c.forest.treeUnits h :=
        sound.treeUnits_settled planted hq
      refine (accounted.held hq).still journal_settled (fun e he ↦ ?_) rfl (ledger_congr hunits)
        ?_ rfl
      · rw [List.mem_singleton.1 he]
        simpa [Entry.plants] using Ne.symm hne
      · exact .nil

/-- A tree that has come down to the floor has nothing left on record. -/
theorem Held.records_eq_nil (held : Held c root p) (hfloor : p.stage.index = 0) :
    c.records root = [] := by
  refine Controller.records_eq_nil fun u hu ↦ List.eq_nil_iff_forall_not_mem.2 fun a ha ↦ ?_
  obtain ⟨_, hpos, hle⟩ := held.marks u hu a ha
  omega

theorem Accounted.discard (accounted : Accounted c) (sound : c.Sound)
    (hp : c.board.get? root = some p) (hfloor : p.stage.index = 0) :
    Accounted (c.discard root) := by
  have hunits : (c.forest.uproot root).1 = c.forest.treeNames root := (sound.uprooted hp).names
  have hjournal : (c.discard root).journal.toList =
      c.journal.toList ++ [.removed root p.name (c.forest.treeNames root)] := by
    rw [journal_discard hp, hunits]
  refine ⟨fun {h q} hq ↦ ?_, fun pre top name units post heq ↦ ?_⟩
  · obtain ⟨hne, hq⟩ := of_get?_discard hp hq
    refine (accounted.held hq).still hjournal (fun e he ↦ ?_) (chain_discard hp)
      (ledger_congr (sound.treeUnits_discard hp hq hne)) ?_ rfl
    · rw [List.mem_singleton.1 he]
      rfl
    · exact .nil
  · rw [hjournal] at heq
    rcases List.eq_nil_or_concat post with rfl | ⟨fs, e, rfl⟩
    · -- it is this tree that is taken out
      obtain ⟨hpre, hentry⟩ := List.append_inj' heq rfl
      rw [List.cons.injEq, Entry.removed.injEq] at hentry
      obtain ⟨⟨rfl, _, rfl⟩, _⟩ := hentry
      have hunwinds := (accounted.held hp).unwinds
      rw [(accounted.held hp).records_eq_nil hfloor] at hunwinds
      rw [← hpre]
      exact hunwinds
    · rw [List.concat_eq_append, ← List.cons_append, ← List.append_assoc] at heq
      exact accounted.cleared pre top name units fs (List.append_inj' heq rfl).1

theorem Step.accounted (step : Step crew c d) (accounted : Accounted c) (sound : c.Sound) :
    Accounted d := by
  cases step with
  | turn turn => exact turn.accounted accounted sound
  | plant _ hplant => exact accounted.settled sound (sound.forest.planted hplant)
  | discard hp _ hfloor => exact accounted.discard sound hp hfloor
  | plan hstage _ _ _ => exact accounted.still (List.append_nil _).symm (by simp) rfl rfl hstage
  | staff hpassed =>
    obtain ⟨es, hes, hcrew, hcalls⟩ := hpassed.journal
    refine accounted.still hes (fun e he ↦ ⟨Entry.isQuiet_of_ofCrew (hcrew e he), ?_⟩) rfl rfl
      fun _ ↦ rfl
    simpa using List.filter_eq_nil_iff.1 hcalls e he
  | @remark entry hremark =>
    refine accounted.note ?_ ?_
    · cases entry <;> first | rfl | exact absurd hremark (by simp [Entry.isRemark])
    · cases entry <;> first | rfl | exact absurd hremark (by simp [Entry.isRemark])

/-- Calls of deployers are bracketed: on every tree that is live, the deeds since it was planted
unwind to what is on record, all of it for stages of the chain; and on every tree that has been
taken out they unwind to nothing. -/
structure Bracketed (c : Controller β σ) : Prop where
  live : ∀ root u, c.forest.get? root = some u → u.kind = .topLevel →
    Unwinds [] (deeds (c.forest.treeNames root) (since root c.journal.toList)) (c.records root)
  recorded : ∀ root u, c.forest.get? root = some u → u.kind = .topLevel →
    ∀ v ∈ c.forest.treeUnits root, ∀ a ∈ v.applied, a.stage ∈ c.chain.stages
  removed : ∀ pre root name units post,
    c.journal.toList = pre ++ .removed root name units :: post →
      Unwinds [] (deeds units (since root pre)) []

theorem Accounted.bracketed (accounted : Accounted c) (sound : c.Sound) : c.Bracketed := by
  have hheld : ∀ root u, c.forest.get? root = some u → u.kind = .topLevel →
      ∃ p, Held c root p := fun root u hu hkind ↦ by
    obtain ⟨p, hp⟩ :=
      sound.tracked.1 (sound.mem_order.2 ⟨_, Forest.node?_of_get? hu, hkind⟩)
    exact ⟨p, accounted.held hp⟩
  refine ⟨fun root u hu hkind ↦ ?_, fun root u hu hkind v hv a ha ↦ ?_, accounted.cleared⟩
  · obtain ⟨_, held⟩ := hheld root u hu hkind
    exact held.unwinds
  · obtain ⟨_, held⟩ := hheld root u hu hkind
    exact Chain.mem_stages_iff.2 (held.marks v hv a ha).1

theorem Steps.accounted (steps : Steps crew c d) (sound : c.Sound) (accounted : Accounted c) :
    Accounted d :=
  steps.preserves sound Accounted (fun sound step hc ↦ step.accounted hc sound) accounted

theorem Reachable.accounted (reachable : Reachable crew c) : Accounted c := by
  obtain ⟨_, _, _, b, hsteps, hsound, hboard, _, hjournal⟩ := reachable.invariant
  refine hsteps.accounted hsound ⟨fun {h p} hp ↦ ?_, fun pre root name units post heq ↦ ?_⟩
  · rw [hboard] at hp
    exact absurd hp (by simp [Board.empty, Board.get?])
  · rw [hjournal] at heq
    exact absurd heq (by simp)

/-- Whatever deployers do and whatever clients ask for, calls of deployers are bracketed. -/
theorem calls_bracketed (reachable : Reachable crew c) : c.Bracketed :=
  reachable.accounted.bracketed reachable.sound

/-- A run on which one deployer is applied to two units, and to another one that is taken out. -/
def loaded : List (Request Unit Unit) :=
  [.enlist ⟨{ name := "loader", stage := ⟨"Parse", 1⟩ }, ()⟩,
    .deployAll [.mk "app" .none [] [] [.mk "plugin" .none [] [] []], .mk "db" .none [] [] []],
    .undeploy "db"]

theorem calls_bracketed_loaded :
    (parsing.serveAll idle loaded).Bracketed ∧
      ((parsing.serveAll idle loaded).records 0).map (fun what ↦ (what.1.name, what.2)) =
        [("loader", 0), ("loader", 1)] :=
  ⟨calls_bracketed (reachable_parsing idle loaded), by decide +kernel⟩

end Controller

end Rollout
