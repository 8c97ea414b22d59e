import Rollout.Proofs.Deeds
import Rollout.Proofs.Turns

/-!
Records. What is recorded on the units of a tree is read off stage by stage and unit by unit, and it
is for stages that the deployment has entered. So what is recorded for the stage it is at comes
last, and when the tree leaves this stage just that is undone, in reverse order; and when it enters
the next stage, what it has applied comes last.
-/

set_option autoImplicit false
set_option relaxedAutoImplicit false

namespace Rollout

variable {β σ : Type}

namespace LiveUnit

variable {u v : LiveUnit β} {stage other : Stage} {ds : List (Deployer β)}

theorem appliedAt_eq_nil (h : ∀ a ∈ u.applied, a.stage ≠ stage) : u.appliedAt stage = [] := by
  unfold appliedAt
  rw [List.map_eq_nil_iff, List.filter_eq_nil_iff]
  intro a ha
  simpa using h a ha

theorem appliedAt_congr (h : v.applied = u.applied) (stage : Stage) :
    v.appliedAt stage = u.appliedAt stage := by
  unfold appliedAt
  rw [h]

theorem Entered.appliedAt_of_ne (entered : Entered stage ds u v) (hne : other ≠ stage) :
    v.appliedAt other = u.appliedAt other := by
  have hnone : (ds.map (⟨stage, ·⟩ : Deployer β → Application β)).filter
      (fun a ↦ a.stage == other) = [] := by
    rw [List.filter_eq_nil_iff]
    intro a ha
    obtain ⟨d, _, rfl⟩ := List.mem_map.1 ha
    simpa using Ne.symm hne
  unfold LiveUnit.appliedAt
  rw [entered.applied, List.filter_append, hnone, List.append_nil]

theorem Left.appliedAt (left : Left stage u v) (other : Stage) :
    v.appliedAt other = if other = stage then [] else u.appliedAt other := by
  rw [appliedAt_congr left.applied, appliedAt_clearApplied]

theorem Left.applied_eq (left : Left stage u v) (h : ∀ a ∈ u.applied, a.stage ≠ stage) :
    v.applied = u.applied := by
  rw [left.applied]
  exact List.filter_eq_self.2 fun a ha ↦ by simpa using h a ha

end LiveUnit

namespace Controller

variable {crew : Crew β σ} {c d : Controller β σ} {h root : Handle} {p q : Progress}
  {stage : Stage} {es : List (Entry β)}

/-- The deployers recorded on a tree for a stage, each with its unit, in tree order. -/
def recordsAt (c : Controller β σ) (root : Handle) (stage : Stage) : List (Deployer β × Handle) :=
  (c.forest.treeUnits root).flatMap fun u ↦ (u.appliedAt stage).map (·, u.id)

/-- The deployers recorded on a tree, each with its unit, stage by stage. -/
def records (c : Controller β σ) (root : Handle) : List (Deployer β × Handle) :=
  c.chain.stages.flatMap (c.recordsAt root)

theorem recordsAt_eq (c : Controller β σ) (root : Handle) (stage : Stage) :
    c.recordsAt root stage = c.forest.recordsOn (c.forest.tree root) stage := by
  unfold recordsAt Forest.treeUnits Forest.recordsOn
  induction c.forest.tree root with
  | nil => rfl
  | cons h hs ih =>
    rw [List.flatMap_cons, ← ih]
    cases hu : c.forest.get? h with
    | none => rw [List.filterMap_cons_none hu, Option.elim_none, List.nil_append]
    | some u => rw [List.filterMap_cons_some hu, Option.elim_some, List.flatMap_cons]

/-- Records are the same where the units have the same on record. -/
theorem recordsAt_congr (shape : c.forest.SameShape d.forest)
    (same : ∀ k ∈ c.forest.tree root, ∀ u, c.forest.get? k = some u →
      ∃ v, d.forest.get? k = some v ∧ v.id = u.id ∧ v.appliedAt stage = u.appliedAt stage) :
    d.recordsAt root stage = c.recordsAt root stage := by
  have hmap : (d.forest.treeUnits root).map (fun u ↦ (u.appliedAt stage).map (·, u.id)) =
      (c.forest.treeUnits root).map fun u ↦ (u.appliedAt stage).map (·, u.id) :=
    shape.map_treeUnits fun k hk u hu ↦ by
      obtain ⟨v, hv, hid, happlied⟩ := same k hk u hu
      exact ⟨v, hv, by rw [hid, happlied]⟩
  unfold recordsAt
  rw [List.flatMap_def, hmap, ← List.flatMap_def]

theorem recordsAt_eq_nil (hunits : ∀ u ∈ c.forest.treeUnits root, u.appliedAt stage = []) :
    c.recordsAt root stage = [] := by
  unfold recordsAt
  rw [List.flatMap_eq_nil_iff]
  intro u hu
  rw [hunits u hu]
  rfl

/-- When nothing is recorded above a stage, what is recorded for it comes last. -/
theorem records_eq (hstage : c.chain.contains stage = true)
    (hlate : ∀ t, stage.index < t.index → c.recordsAt root t = []) :
    c.records root =
      (c.chain.stages.take stage.index).flatMap (c.recordsAt root) ++ c.recordsAt root stage := by
  have hnone : (c.chain.stages.drop (stage.index + 1)).flatMap (c.recordsAt root) = [] := by
    rw [List.flatMap_eq_nil_iff]
    exact fun t ht ↦ hlate t (Chain.le_index_of_mem_drop ht)
  unfold records
  conv_lhs => rw [Chain.stages_eq hstage]
  rw [List.flatMap_append, List.flatMap_cons, hnone, List.append_nil]

/-! One tree. -/

/-- The places of the units of a tree, and what each has on record. -/
def ledger (c : Controller β σ) (root : Handle) : List (Node × List (Application β)) :=
  (c.forest.treeUnits root).map fun u ↦ (u.toNode, u.applied)

theorem treeNames_eq (c : Controller β σ) (root : Handle) :
    c.forest.treeNames root = (c.ledger root).map fun x ↦ x.1.name := by
  unfold Forest.treeNames ledger
  rw [List.map_map]
  rfl

theorem recordsAt_eq_ledger (c : Controller β σ) (root : Handle) (stage : Stage) :
    c.recordsAt root stage = (c.ledger root).flatMap fun x ↦
      ((x.2.filter fun a ↦ a.stage == stage).map Application.deployer).map (·, x.1.id) := by
  unfold recordsAt ledger
  rw [List.flatMap_map]
  rfl

theorem records_congr (hchain : d.chain = c.chain) (hledger : d.ledger root = c.ledger root) :
    d.records root = c.records root := by
  unfold records
  rw [hchain]
  refine List.flatMap_congr fun stage _ ↦ ?_
  rw [recordsAt_eq_ledger, recordsAt_eq_ledger, hledger]

/-- The deeds on a tree since it was planted unwind to what is on record, and that is for stages the
deployment has entered. -/
structure Held (c : Controller β σ) (root : Handle) (p : Progress) : Prop where
  marks : ∀ u ∈ c.forest.treeUnits root, ∀ a ∈ u.applied,
    c.chain.contains a.stage = true ∧ 0 < a.stage.index ∧ a.stage.index ≤ p.stage.index
  unwinds : Unwinds [] (deeds (c.forest.treeNames root) (since root c.journal.toList))
    (c.records root)

theorem Held.ne_stage (held : Held c root p) {u : LiveUnit β} (hu : u ∈ c.forest.treeUnits root)
    (hlt : p.stage.index < stage.index) : ∀ a ∈ u.applied, a.stage ≠ stage := by
  intro a ha heq
  obtain ⟨_, _, hle⟩ := held.marks u hu a ha
  rw [heq] at hle
  omega

/-- Nothing is on record for a stage that has not been entered. -/
theorem Held.recordsAt_eq_nil (held : Held c root p) (hlt : p.stage.index < stage.index) :
    c.recordsAt root stage = [] := by
  unfold recordsAt
  rw [List.flatMap_eq_nil_iff]
  intro u hu
  rw [LiveUnit.appliedAt_eq_nil (held.ne_stage hu hlt)]
  rfl

/-- What is added to the journal comes after what has been done on a tree. -/
theorem Held.unwinds_journal (held : Held c root p)
    (hes : d.journal.toList = c.journal.toList ++ es) (hplants : ∀ e ∈ es, e.plants root = false)
    (hnames : d.forest.treeNames root = c.forest.treeNames root)
    (hunwinds : Unwinds (c.records root) (deeds (c.forest.treeNames root) es) (d.records root)) :
    Unwinds [] (deeds (d.forest.treeNames root) (since root d.journal.toList))
      (d.records root) := by
  rw [hnames, hes, since_append hplants, deeds_append]
  exact held.unwinds.trans hunwinds

/-- Where the records of a tree stay as they are and what is done comes to nothing, so do they. -/
theorem Held.still (held : Held c root p) (hes : d.journal.toList = c.journal.toList ++ es)
    (hplants : ∀ e ∈ es, e.plants root = false) (hchain : d.chain = c.chain)
    (hledger : d.ledger root = c.ledger root)
    (hunwinds : Unwinds (c.records root) (deeds (c.forest.treeNames root) es) (c.records root))
    (hstage : q.stage = p.stage) : Held d root q := by
  refine ⟨fun v hv a ha ↦ ?_, ?_⟩
  · have hmem : (v.toNode, v.applied) ∈ d.ledger root := List.mem_map_of_mem hv
    rw [hledger] at hmem
    obtain ⟨u, hu, heq⟩ := List.mem_map.1 hmem
    have happlied : u.applied = v.applied := congrArg Prod.snd heq
    rw [hchain, hstage]
    exact held.marks u hu a (happlied ▸ ha)
  · refine held.unwinds_journal hes hplants ?_ ?_
    · rw [treeNames_eq, treeNames_eq, hledger]
    · rw [records_congr hchain hledger]
      exact hunwinds

theorem ledger_congr (hunits : d.forest.treeUnits root = c.forest.treeUnits root) :
    d.ledger root = c.ledger root := by
  unfold ledger
  rw [hunits]

/-! The names of trees. -/

theorem mem_treeUnits_iff {u : LiveUnit β} :
    u ∈ c.forest.treeUnits root ↔ ∃ k ∈ c.forest.tree root, c.forest.get? k = some u :=
  List.mem_filterMap

theorem name_mem_treeNames {k : Handle} {u : LiveUnit β} (hk : k ∈ c.forest.tree root)
    (hu : c.forest.get? k = some u) : u.name ∈ c.forest.treeNames root :=
  List.mem_map_of_mem (mem_treeUnits_iff.2 ⟨k, hk, hu⟩)

/-- No name belongs to two trees. -/
theorem Sound.name_notMem_treeNames (sound : c.Sound) (hp : c.board.get? root = some p)
    (hq : c.board.get? h = some q) (hne : h ≠ root) {k : Handle} {u : LiveUnit β}
    (hk : k ∈ c.forest.tree root) (hu : c.forest.get? k = some u) :
    u.name ∉ c.forest.treeNames h := by
  intro hname
  obtain ⟨v, hv, heq⟩ := List.mem_map.1 hname
  obtain ⟨l, hl, hvl⟩ := mem_treeUnits_iff.1 hv
  have hsame := sound.forest.name_inj (Forest.node?_of_get? hvl) (Forest.node?_of_get? hu) heq
  subst hsame
  obtain ⟨m, hm, htop⟩ := (sound.mem_tree_iff hq).1 hl
  obtain ⟨n, hn, htop'⟩ := (sound.mem_tree_iff hp).1 hk
  obtain rfl := Option.some_inj.1 (hm.symm.trans hn)
  exact hne (htop.symm.trans htop')

/-! The tree that is moved. -/

theorem exists_of_treated {effect : Handle → LiveUnit β → LiveUnit β → Prop} {site : Site β σ}
    {calls : List (Entry β)}
    (treated : Site.Treated effect (c.forest.tree root) c.site site calls) {v : LiveUnit β}
    (hv : v ∈ site.forest.treeUnits root) :
    ∃ k, ∃ u ∈ c.forest.treeUnits root, c.forest.get? k = some u ∧ effect k u v := by
  obtain ⟨k, hk, hkv⟩ := List.mem_filterMap.1 hv
  rw [← treated.shape.tree] at hk
  obtain ⟨u, hu, heffect⟩ := treated.exists_of_mem hk hkv
  exact ⟨k, u, mem_treeUnits_iff.2 ⟨k, hk, hu⟩, hu, heffect⟩

theorem Sound.recordsAt_lowered (sound : c.Sound) (crew : Crew β σ) (below : Stage)
    (hne : stage ≠ p.stage) :
    (c.lowered crew p below).recordsAt p.root stage = c.recordsAt p.root stage := by
  have htreated := sound.treated_lowered crew p
  refine recordsAt_congr htreated.shape fun k hk u hu ↦ ?_
  obtain ⟨v, hv, hleft⟩ := htreated.each hk hu
  refine ⟨v, hv, ?_, ?_⟩
  · rw [hleft.node]
  · rw [hleft.appliedAt, if_neg hne]

theorem Sound.recordsAt_lowered_self (sound : c.Sound) (crew : Crew β σ) (p : Progress)
    (below : Stage) :
    (c.lowered crew p below).recordsAt p.root p.stage = [] := by
  have htreated := sound.treated_lowered crew p
  unfold recordsAt
  rw [List.flatMap_eq_nil_iff]
  intro v hv
  obtain ⟨_, _, _, _, hleft⟩ := exists_of_treated htreated hv
  rw [hleft.appliedAt, if_pos rfl]
  rfl

/-- What is on record for the stage that is left is gone, and all that was recorded before stays. -/
theorem Held.records_lowered (held : Held c p.root p) (sound : c.Sound) (crew : Crew β σ)
    (hp : c.board.get? p.root = some p) (below : Stage) :
    c.records p.root =
      (c.lowered crew p below).records p.root ++ c.recordsAt p.root p.stage := by
  have hne : ∀ {t : Stage}, t.index ≠ p.stage.index → t ≠ p.stage := fun hindex heq ↦
    hindex (heq ▸ rfl)
  have hlate : ∀ t : Stage, p.stage.index < t.index →
      (c.lowered crew p below).recordsAt p.root t = [] := fun t hlt ↦ by
    rw [sound.recordsAt_lowered crew below (hne (Nat.ne_of_gt hlt))]
    exact held.recordsAt_eq_nil hlt
  have hearly : (c.chain.stages.take p.stage.index).flatMap
        ((c.lowered crew p below).recordsAt p.root) =
      (c.chain.stages.take p.stage.index).flatMap (c.recordsAt p.root) :=
    List.flatMap_congr fun t ht ↦
      sound.recordsAt_lowered crew below (hne (Nat.ne_of_lt (Chain.index_lt_of_mem_take ht)))
  have hchain : (c.lowered crew p below).chain = c.chain := rfl
  rw [records_eq (c := c.lowered crew p below) (sound.stage hp) hlate, hchain, hearly,
    sound.recordsAt_lowered_self crew, List.append_nil]
  exact records_eq (sound.stage hp) fun t hlt ↦ held.recordsAt_eq_nil hlt

/-- A tree that leaves a stage undoes what it has on record for it. -/
theorem Held.lowered (held : Held c p.root p) (sound : c.Sound) (crew : Crew β σ)
    (hp : c.board.get? p.root = some p) {below : Stage}
    (hbelow : c.chain.prev? p.stage = some below) :
    Held (c.lowered crew p below) p.root { p with stage := below } := by
  have htreated := sound.treated_lowered crew p
  have hindex := Chain.index_of_prev? hbelow
  obtain ⟨es, hes, hquiet, hdeeds⟩ := htreated.ambient.deeds_note
    (.retreated ⟨p.root, p.name, p.stage, below, c.position,
      (c.lowered crew p below).position⟩ (c.site.leaveStage crew p.root p.stage).1) rfl rfl
  have hplants := fun e he ↦ Entry.plants_of_isQuiet (hquiet e he) p.root
  refine ⟨fun v hv a ha ↦ ?_, held.unwinds_journal hes hplants (htreated.shape.treeNames p.root) ?_⟩
  · obtain ⟨_, u, hu, _, hleft⟩ := exists_of_treated htreated hv
    rw [hleft.applied] at ha
    obtain ⟨ha, hne⟩ := List.mem_filter.1 ha
    obtain ⟨hcontains, hpos, hle⟩ := held.marks u hu a ha
    have hindex' : a.stage.index ≠ p.stage.index := fun heq ↦ by
      rw [Chain.eq_of_index_eq hcontains (sound.stage hp) heq] at hne
      simp at hne
    refine ⟨hcontains, hpos, ?_⟩
    simp only
    omega
  · rw [hdeeds, held.records_lowered sound crew hp below, recordsAt_eq,
      Site.deeds_left fun k hk u hu ↦ name_mem_treeNames hk hu]
    exact unwinds_undone _ _

variable {next : Stage} {applied : Nat} {site : Site β σ} {done : Handle → List (Deployer β)}

/-- What is recorded for the stage that is entered comes after all that was recorded before. -/
theorem Held.records_raised (held : Held c p.root p) (hnext : c.chain.next? p.stage = some next)
    {calls : List (Entry β)} (treated : Site.Treated (fun h ↦ LiveUnit.Entered next (done h))
      (c.forest.tree p.root) c.site site calls) :
    (c.raised p next applied site).records p.root =
      c.records p.root ++ (c.raised p next applied site).recordsAt p.root next := by
  have hindex := Chain.index_of_next? hnext
  have hcontains := Chain.contains_of_next? hnext
  have hsame : ∀ {t : Stage}, t.index ≠ next.index →
      (c.raised p next applied site).recordsAt p.root t = c.recordsAt p.root t := fun {t} hne ↦ by
    refine recordsAt_congr treated.shape fun k hk u hu ↦ ?_
    obtain ⟨v, hv, hentered⟩ := treated.each hk hu
    exact ⟨v, hv, hentered.id, hentered.appliedAt_of_ne fun heq ↦ hne (heq ▸ rfl)⟩
  have hlate : ∀ t : Stage, next.index < t.index → c.recordsAt p.root t = [] :=
    fun t hlt ↦ held.recordsAt_eq_nil (by omega)
  have hearly : (c.chain.stages.take next.index).flatMap
        ((c.raised p next applied site).recordsAt p.root) =
      (c.chain.stages.take next.index).flatMap (c.recordsAt p.root) :=
    List.flatMap_congr fun t ht ↦ hsame (Nat.ne_of_lt (Chain.index_lt_of_mem_take ht))
  have hchain : (c.raised p next applied site).chain = c.chain := rfl
  have hclear : c.recordsAt p.root next = [] := held.recordsAt_eq_nil (by omega)
  rw [records_eq (c := c.raised p next applied site) hcontains fun t hlt ↦
      (hsame (Nat.ne_of_gt hlt)).trans (hlate t hlt), hchain, hearly, records_eq hcontains hlate,
    hclear, List.append_nil]

/-- A tree that enters a stage has on record for it what has been applied. -/
theorem Held.raised (held : Held c p.root p) (hnext : c.chain.next? p.stage = some next)
    (treated : Site.Treated (fun h ↦ LiveUnit.Entered next (done h)) (c.forest.tree p.root) c.site
      site (c.site.callsOn (c.forest.tree p.root) (Site.enterCalls next done))) :
    Held (c.raised p next applied site) p.root { p with stage := next, waiting := [] } := by
  have hindex := Chain.index_of_next? hnext
  obtain ⟨es, hes, hquiet, hdeeds⟩ := treated.ambient.deeds_note
    (.advanced ⟨p.root, p.name, p.stage, next, c.position,
      (c.raised p next applied site).position⟩ applied) rfl rfl
  have hplants := fun e he ↦ Entry.plants_of_isQuiet (hquiet e he) p.root
  refine ⟨fun v hv a ha ↦ ?_, held.unwinds_journal hes hplants (treated.shape.treeNames p.root) ?_⟩
  · obtain ⟨_, u, hu, _, hentered⟩ := exists_of_treated treated hv
    rw [hentered.applied] at ha
    rcases List.mem_append.1 ha with ha | ha
    · obtain ⟨hcontains, hpos, hle⟩ := held.marks u hu a ha
      exact ⟨hcontains, hpos, by simp only; omega⟩
    · obtain ⟨_, _, rfl⟩ := List.mem_map.1 ha
      exact ⟨Chain.contains_of_next? hnext, by simp only; omega, Nat.le_refl _⟩
  · rw [hdeeds, held.records_raised hnext treated, recordsAt_eq]
    have hclear : ∀ k ∈ c.forest.tree p.root, ∀ u, c.forest.get? k = some u →
        u.name ∈ c.forest.treeNames p.root ∧ u.appliedAt next = [] := fun k hk u hu ↦
      ⟨name_mem_treeNames hk hu, LiveUnit.appliedAt_eq_nil
        (held.ne_stage (mem_treeUnits_iff.2 ⟨k, hk, hu⟩) (by omega))⟩
    have htree : (c.raised p next applied site).forest.tree p.root = c.forest.tree p.root :=
      (treated.shape.tree p.root).symm
    rw [htree, treated.deeds_entered hclear]
    exact unwinds_applied _ _

/-- A tree that fails to enter a stage has taken back what had been applied for it. -/
theorem Held.stalled (held : Held c p.root p) (hnext : c.chain.next? p.stage = some next)
    {hs : List Handle} (hsub : hs ⊆ c.forest.tree p.root) {m : Site β σ} {last : List (Entry β)}
    (hlast : ∀ names, deeds names last = [])
    (entered : Site.Treated (fun h ↦ LiveUnit.Entered next (done h)) hs c.site m
      (c.site.callsOn hs (Site.enterCalls next done) ++ last))
    (left : Site.Treated (fun _ ↦ LiveUnit.Left next) hs m site
      (m.callsOn hs.reverse (Site.leaveCalls next)))
    {failure : Failure} (hq : q.stage = p.stage) :
    Held (c.stalled p next failure site) p.root q := by
  have hindex := Chain.index_of_next? hnext
  have htreated := entered.left next left
  obtain ⟨es, hes, hquiet, hdeeds⟩ := htreated.ambient.deeds_note
    (.failed p.root p.name next failure) rfl rfl
  have hnever : ∀ k ∈ c.forest.tree p.root, ∀ u, c.forest.get? k = some u →
      ∀ a ∈ u.applied, a.stage ≠ next := fun k hk u hu ↦
    held.ne_stage (mem_treeUnits_iff.2 ⟨k, hk, hu⟩) (by omega)
  refine held.still hes (fun e he ↦ Entry.plants_of_isQuiet (hquiet e he) _) rfl
    (htreated.shape.map_treeUnits fun k hk u hu ↦ ?_) ?_ hq
  · by_cases hmem : k ∈ hs
    · obtain ⟨v, hv, hgone⟩ := htreated.each hmem hu
      exact ⟨v, hv, by rw [hgone.node, hgone.applied_eq (hnever k hk u hu)]⟩
    · exact ⟨u, (htreated.other hmem).trans hu, rfl⟩
  · have hclear : ∀ k ∈ hs, ∀ u, c.forest.get? k = some u →
        u.name ∈ c.forest.treeNames p.root ∧ u.appliedAt next = [] := fun k hk u hu ↦
      ⟨name_mem_treeNames (hsub hk) hu,
        LiveUnit.appliedAt_eq_nil (hnever k (hsub hk) u hu)⟩
    have hnames : ∀ k ∈ hs, ∀ v, m.forest.get? k = some v →
        v.name ∈ c.forest.treeNames p.root := fun k hk v hv ↦ by
      obtain ⟨u, hu, heq⟩ := entered.shape.exists_get? hv
      rw [← heq]
      exact name_mem_treeNames (hsub hk) hu
    rw [hdeeds, deeds_append, deeds_append, hlast, List.append_nil,
      entered.deeds_entered hclear, Site.deeds_left hnames]
    exact (unwinds_applied _ _).trans (unwinds_undone _ _)

end Controller

end Rollout
