import Mathlib.Tactic.Common
import Rollout.Crew

/-!
Work on one unit. Whatever deployers do, a unit keeps its place, its record of applied deployers is
kept by the crew alone, and a need that is declared on the way bears the mark of the stage that is
being worked on. So a unit that enters a stage gains records and needs of that stage only, and one
that leaves it loses exactly these. The calls that were made can be read off the journal.
-/

set_option autoImplicit false
set_option relaxedAutoImplicit false

namespace Rollout

variable {β σ : Type}

namespace Entry

/-- Whether an entry tells of a call of a deployer and of how a deploying one ended. -/
def isCall : Entry β → Bool
  | deploying .. => true
  | deployed .. => true
  | deployFailed .. => true
  | undeploying .. => true
  | _ => false

/-- Whether an entry is made while deployers are at work. -/
def ofCrew : Entry β → Bool
  | enlisted .. => true
  | dismissed .. => true
  | undeployFailed .. => true
  | needsDropped .. => true
  | e => e.isCall

end Entry

namespace Ambient

variable {a b c : Ambient β σ}

/-- Deployers have been at work, and these calls were made. -/
structure Passed (a b : Ambient β σ) (calls : List (Entry β)) : Prop where
  chain : b.roster.chain = a.roster.chain
  journal : ∃ es, b.journal.toList = a.journal.toList ++ es ∧ (∀ e ∈ es, e.ofCrew = true) ∧
    es.filter Entry.isCall = calls

theorem Passed.refl (a : Ambient β σ) : Passed a a [] :=
  ⟨rfl, [], by simp⟩

theorem Passed.trans {first second : List (Entry β)} (hab : Passed a b first)
    (hbc : Passed b c second) : Passed a c (first ++ second) := by
  obtain ⟨es, hes, hcrew, rfl⟩ := hab.journal
  obtain ⟨fs, hfs, hcrew', rfl⟩ := hbc.journal
  refine ⟨hbc.chain.trans hab.chain, es ++ fs, ?_, fun e he ↦ ?_, ?_⟩
  · rw [hfs, hes, List.append_assoc]
  · rcases List.mem_append.1 he with he | he
    · exact hcrew e he
    · exact hcrew' e he
  · rw [List.filter_append]

theorem passed_call (a : Ambient β σ) {e : Entry β} (hcall : e.isCall = true)
    (hcrew : e.ofCrew = true) : Passed a (a.note e) [e] :=
  ⟨rfl, [e], by simp [note], by simpa using hcrew, by simp [hcall]⟩

theorem passed_remark (a : Ambient β σ) {e : Entry β} (hcall : e.isCall = false)
    (hcrew : e.ofCrew = true) : Passed a (a.note e) [] :=
  ⟨rfl, [e], by simp [note], by simpa using hcrew, by simp [hcall]⟩

theorem passed_enlist (a : Ambient β σ) (d : Deployer β) {b : Ambient β σ}
    (h : a.enlist d = .ok b) : Passed a b [] := by
  unfold enlist Roster.enlist at h
  cases hplace : a.roster.placing d with
  | error e => simp [hplace, Except.map] at h
  | ok stage =>
    simp only [hplace, Except.map, Except.ok.injEq] at h
    subst h
    exact ⟨rfl, [.enlisted d.name stage], by simp, by simp [Entry.ofCrew], by simp [Entry.isCall]⟩

theorem passed_dismiss (a : Ambient β σ) (name : String) : Passed a (a.dismiss name) [] := by
  unfold dismiss
  split
  · exact ⟨rfl, [.dismissed name], by simp, by simp [Entry.ofCrew], by simp [Entry.isCall]⟩
  · exact .refl a

theorem passed_change (a : Ambient β σ) (change : RosterChange β) :
    Passed a (a.change change) [] := by
  cases change with
  | enlist d =>
    unfold Ambient.change
    cases h : a.enlist d with
    | error e => simpa only [h] using Passed.refl a
    | ok b => simpa only [h] using passed_enlist a d h
  | dismiss name => exact passed_dismiss a name

theorem passed_changes (a : Ambient β σ) (changes : List (RosterChange β)) :
    Passed a (changes.foldl change a) [] := by
  induction changes generalizing a with
  | nil => exact .refl a
  | cons change changes ih => exact (passed_change a change).trans (ih _)

theorem passed_state (a : Ambient β σ) (state : σ) : Passed a { a with state } [] :=
  ⟨rfl, [], by simp⟩

end Ambient

namespace LiveUnit

/-- Needs that are declared together come after the old ones and bear the mark of the unit. -/
theorem declare_all (demands : List Demand) (u : LiveUnit β) :
    (demands.foldl declare u).toNode = u.toNode ∧
      (demands.foldl declare u).stepping = u.stepping ∧
      (demands.foldl declare u).applied = u.applied ∧
      ∃ more, (demands.foldl declare u).needs = u.needs ++ more ∧
        ∀ n ∈ more, n.declaredAt = u.stepping := by
  induction demands generalizing u with
  | nil => exact ⟨rfl, rfl, rfl, [], by simp⟩
  | cons demand demands ih =>
    obtain ⟨hnode, hstepping, happlied, more, hneeds, hmark⟩ := ih (u.declare demand)
    rw [List.foldl_cons]
    refine ⟨hnode, hstepping, happlied, ?_⟩
    rw [hneeds]
    have hmark' : ∀ n ∈ more, n.declaredAt = u.stepping := hmark
    by_cases hold : Need.of u.name demand u.stepping ∈ u.needs
    · exact ⟨more, by simp [declare, Need.addTo, hold], hmark'⟩
    · refine ⟨Need.of u.name demand u.stepping :: more, by simp [declare, Need.addTo, hold], ?_⟩
      intro n hn
      rcases List.mem_cons.1 hn with rfl | hn
      · rfl
      · exact hmark' n hn

/-- A unit that has been worked on: it keeps its place and its mark, and needs declared on the way
bear that mark. -/
structure Worked (u v : LiveUnit β) : Prop where
  node : v.toNode = u.toNode
  stepping : v.stepping = u.stepping
  needs : ∃ more, v.needs = u.needs ++ more ∧ ∀ n ∈ more, n.declaredAt = u.stepping

theorem Worked.refl (u : LiveUnit β) : Worked u u := ⟨rfl, rfl, [], by simp⟩

theorem Worked.trans {u v w : LiveUnit β} (huv : Worked u v) (hvw : Worked v w) :
    Worked u w := by
  obtain ⟨more, hmore, hmark⟩ := huv.needs
  obtain ⟨rest, hrest, hmark'⟩ := hvw.needs
  refine ⟨hvw.node.trans huv.node, hvw.stepping.trans huv.stepping, more ++ rest, ?_, ?_⟩
  · rw [hrest, hmore, List.append_assoc]
  · intro n hn
    rcases List.mem_append.1 hn with hn | hn
    · exact hmark n hn
    · rw [hmark' n hn, huv.stepping]

/-- Forgetting a stage undoes what has been declared with its mark. -/
theorem Worked.forget {u v : LiveUnit β} {stage : Stage} (worked : Worked u v)
    (hstepping : u.stepping = some stage) :
    Need.forget v.needs stage = Need.forget u.needs stage := by
  obtain ⟨more, hmore, hmark⟩ := worked.needs
  have hnone : more.filter (fun n ↦ n.declaredAt != some stage) = [] := by
    rw [List.filter_eq_nil_iff]
    intro n hn
    simp [hmark n hn, hstepping]
  rw [hmore]
  unfold Need.forget
  rw [List.filter_append, hnone, List.append_nil]

/-- A unit after it has entered a stage with some deployers applied for it. -/
structure Entered (stage : Stage) (ds : List (Deployer β)) (u v : LiveUnit β) : Prop where
  node : v.toNode = u.toNode
  stepping : v.stepping = none
  applied : v.applied = u.applied ++ ds.map (⟨stage, ·⟩)
  needs : ∃ more, v.needs = u.needs ++ more ∧ ∀ n ∈ more, n.declaredAt = some stage

/-- A unit after it has left a stage. -/
structure Left (stage : Stage) (u v : LiveUnit β) : Prop where
  node : v.toNode = u.toNode
  stepping : v.stepping = none
  applied : v.applied = (u.clearApplied stage).applied
  needs : v.needs = Need.forget u.needs stage

theorem Entered.id {stage : Stage} {ds : List (Deployer β)} {u v : LiveUnit β}
    (entered : Entered stage ds u v) : v.id = u.id := by
  rw [entered.node]

theorem Entered.name {stage : Stage} {ds : List (Deployer β)} {u v : LiveUnit β}
    (entered : Entered stage ds u v) : v.name = u.name := by
  rw [entered.node]

theorem Entered.appliedAt {stage : Stage} {ds : List (Deployer β)} {u v : LiveUnit β}
    (entered : Entered stage ds u v) : v.appliedAt stage = u.appliedAt stage ++ ds := by
  unfold LiveUnit.appliedAt
  rw [entered.applied, List.filter_append, List.map_append]
  congr 1
  rw [List.filter_eq_self.2]
  · rw [List.map_map]
    exact List.map_id ds
  · intro application happlication
    obtain ⟨d, _, rfl⟩ := List.mem_map.1 happlication
    simp

/-- Entering a stage and then leaving it takes a unit where leaving it takes it at once. -/
theorem Entered.left {stage : Stage} {ds : List (Deployer β)} {u v w : LiveUnit β}
    (entered : Entered stage ds u v) (left : Left stage v w) : Left stage u w := by
  refine ⟨left.node.trans entered.node, left.stepping, ?_, ?_⟩
  · rw [left.applied]
    unfold clearApplied
    simp only
    rw [entered.applied, List.filter_append]
    have hnone : (ds.map (⟨stage, ·⟩ : Deployer β → Application β)).filter
        (fun application ↦ application.stage != stage) = [] := by
      rw [List.filter_eq_nil_iff]
      intro application happlication
      obtain ⟨d, _, rfl⟩ := List.mem_map.1 happlication
      simp
    rw [hnone, List.append_nil]
  · obtain ⟨more, hmore, hmark⟩ := entered.needs
    have hnone : more.filter (fun n ↦ n.declaredAt != some stage) = [] := by
      rw [List.filter_eq_nil_iff]
      intro n hn
      simp [hmark n hn]
    rw [left.needs, hmore]
    unfold Need.forget
    rw [List.filter_append, hnone, List.append_nil]

/-- The calls that apply some deployers to a unit. -/
def deployCalls (u : LiveUnit β) (stage : Stage) (ds : List (Deployer β)) : List (Entry β) :=
  ds.flatMap fun d ↦ [.deploying d u.id u.name stage, .deployed d u.id u.name stage]

/-- The calls that take some deployers back from a unit. -/
def undeployCalls (u : LiveUnit β) (stage : Stage) (ds : List (Deployer β)) : List (Entry β) :=
  ds.map fun d ↦ .undeploying d u.id u.name stage

end LiveUnit

namespace Crew

open LiveUnit

variable (crew : Crew β σ) (stage : Stage)

theorem perform_spec (action : Action) (d : Deployer β) (u : LiveUnit β) (a : Ambient β σ) :
    Worked u (crew.perform action d u a).unit ∧
      (crew.perform action d u a).unit.applied = u.applied ∧
      a.Passed (crew.perform action d u a).ambient [] := by
  unfold perform
  obtain ⟨hnode, hstepping, happlied, hneeds⟩ :=
    declare_all (crew.call action d u a.roster a.state).declared
      { u with attachments := (crew.call action d u a.roster a.state).attachments }
  refine ⟨⟨hnode, hstepping, hneeds⟩, happlied, ?_⟩
  exact (a.passed_state _).trans (Ambient.passed_changes _ _)

/-- Deployers have their turn on a unit, one after another: one that the unit does not suit at that
moment is passed over, any other is called, does not fail and is recorded. -/
inductive Applies : List (Deployer β) → LiveUnit β → Ambient β σ → List (Deployer β) →
    LiveUnit β → Ambient β σ → Prop
  | nil {u : LiveUnit β} {a : Ambient β σ} : Applies [] u a [] u a
  | pass {d : Deployer β} {ds called : List (Deployer β)} {u v : LiveUnit β} {a b : Ambient β σ} :
    u.suits d.profile = false → Applies ds u a called v b → Applies (d :: ds) u a called v b
  | call {d : Deployer β} {ds called : List (Deployer β)} {u v w : LiveUnit β}
      {a b c : Ambient β σ} :
    u.suits d.profile = true →
      crew.perform .deploy d u (a.note (.deploying d u.id u.name stage)) = ⟨w, c, none⟩ →
      Applies ds (w.apply stage d) (c.note (.deployed d u.id u.name stage)) called v b →
      Applies (d :: ds) u a (d :: called) v b

/-- Some deployers have had their turn on a unit, and the next one that it suits is called and
fails. -/
def Balks (ds : List (Deployer β)) (u : LiveUnit β) (a : Ambient β σ)
    (called : List (Deployer β)) (d : Deployer β) (cause : Cause) (v : LiveUnit β)
    (b : Ambient β σ) : Prop :=
  ∃ early late w c c', ds = early ++ d :: late ∧ crew.Applies stage early u a called w c ∧
    w.suits d.profile = true ∧
    crew.perform .deploy d w (c.note (.deploying d w.id w.name stage)) = ⟨v, c', some cause⟩ ∧
    b = c'.note (.deployFailed d w.id w.name stage cause)

variable {crew stage}

/-- What a call leaves of a unit that gets its deployer recorded, and the calls up to then. -/
theorem applied_spec {d : Deployer β} {u w : LiveUnit β} {a c : Ambient β σ}
    (hcall : crew.perform .deploy d u (a.note (.deploying d u.id u.name stage)) = ⟨w, c, none⟩) :
    Worked u (w.apply stage d) ∧ (w.apply stage d).applied = u.applied ++ [⟨stage, d⟩] ∧
      a.Passed (c.note (.deployed d u.id u.name stage)) (u.deployCalls stage [d]) := by
  obtain ⟨hworked, happlied, hpassed⟩ :=
    crew.perform_spec .deploy d u (a.note (.deploying d u.id u.name stage))
  rw [hcall] at hworked happlied hpassed
  refine ⟨⟨hworked.node, hworked.stepping, hworked.needs⟩, ?_, ?_⟩
  · rw [← happlied]
    rfl
  · exact ((a.passed_call (e := .deploying d u.id u.name stage) rfl rfl).trans hpassed).trans
      (c.passed_call (e := .deployed d u.id u.name stage) rfl rfl)

theorem Applies.spec {ds called : List (Deployer β)} {u v : LiveUnit β} {a b : Ambient β σ}
    (applies : crew.Applies stage ds u a called v b) :
    Worked u v ∧ v.applied = u.applied ++ called.map (⟨stage, ·⟩) ∧
      a.Passed b (u.deployCalls stage called) := by
  induction applies with
  | nil => exact ⟨.refl _, by simp, .refl _⟩
  | pass _ _ ih => exact ih
  | call _ hcall _ ih =>
    obtain ⟨hworked, happlied, hpassed⟩ := applied_spec hcall
    obtain ⟨hrest, happlied', hpassed'⟩ := ih
    refine ⟨hworked.trans hrest, ?_, ?_⟩
    · rw [happlied', happlied, List.append_assoc]
      rfl
    · unfold deployCalls at hpassed' ⊢
      rw [hworked.node] at hpassed'
      exact hpassed.trans hpassed'

theorem Balks.spec {ds called : List (Deployer β)} {d : Deployer β} {cause : Cause}
    {u v : LiveUnit β} {a b : Ambient β σ} (balks : crew.Balks stage ds u a called d cause v b) :
    Worked u v ∧ v.applied = u.applied ++ called.map (⟨stage, ·⟩) ∧
      a.Passed b (u.deployCalls stage called ++
        [.deploying d u.id u.name stage, .deployFailed d u.id u.name stage cause]) := by
  obtain ⟨_, _, w, c, c', _, applies, _, hcall, rfl⟩ := balks
  obtain ⟨hworked, happlied, hpassed⟩ := applies.spec
  obtain ⟨hlast, hkept, hcalled⟩ :=
    crew.perform_spec .deploy d w (c.note (.deploying d w.id w.name stage))
  rw [hcall] at hlast hkept hcalled
  rw [hworked.node] at hcalled ⊢
  refine ⟨hworked.trans hlast, hkept.trans happlied, hpassed.trans ?_⟩
  exact ((c.passed_call (e := .deploying d u.id u.name stage) rfl rfl).trans hcalled).trans
    (c'.passed_call (e := .deployFailed d u.id u.name stage cause) rfl rfl)

variable (crew stage)

/-- Either all deployers get through their turn on a unit, or one of them fails and is the last. -/
theorem deployAll_cases (ds : List (Deployer β)) (u : LiveUnit β) (a : Ambient β σ) :
    (∃ called v b, crew.deployAll stage ds u a = ⟨v, b, none⟩ ∧
        crew.Applies stage ds u a called v b) ∨
      ∃ called d cause v b, crew.deployAll stage ds u a = ⟨v, b, some cause⟩ ∧
        crew.Balks stage ds u a called d cause v b := by
  induction ds generalizing u a with
  | nil => exact Or.inl ⟨[], u, a, rfl, .nil⟩
  | cons d ds ih =>
    unfold deployAll
    cases hsuits : u.suits d.profile with
    | false =>
      rw [if_neg (by simp)]
      rcases ih u a with ⟨called, v, b, heq, happlies⟩ |
        ⟨called, d', cause, v, b, heq, early, late, w, c, c', rfl, happlies, hlast⟩
      · exact Or.inl ⟨called, v, b, heq, .pass hsuits happlies⟩
      · exact Or.inr ⟨called, d', cause, v, b, heq, d :: early, late, w, c, c', rfl,
          .pass hsuits happlies, hlast⟩
    | true =>
      rw [if_pos rfl]
      cases hcall : crew.perform .deploy d u (a.note (.deploying d u.id u.name stage)) with
      | mk w c failure =>
      cases failure with
      | some cause =>
        exact Or.inr ⟨[], d, cause, w, _, rfl, [], ds, u, a, c, rfl, .nil, hsuits, hcall, rfl⟩
      | none =>
        rcases ih (w.apply stage d) (c.note (.deployed d u.id u.name stage)) with
          ⟨called, v, b, heq, happlies⟩ |
          ⟨called, d', cause, v, b, heq, early, late, m, e, e', rfl, happlies, hlast⟩
        · exact Or.inl ⟨d :: called, v, b, heq, .call hsuits hcall happlies⟩
        · exact Or.inr ⟨d :: called, d', cause, v, b, heq, d :: early, late, m, e, e', rfl,
            .call hsuits hcall happlies, hlast⟩

theorem undeployAll_spec (ds : List (Deployer β)) (u : LiveUnit β) (a : Ambient β σ) :
    Worked u (crew.undeployAll stage ds u a).1 ∧
      (crew.undeployAll stage ds u a).1.applied = u.applied ∧
      a.Passed (crew.undeployAll stage ds u a).2 (u.undeployCalls stage ds) := by
  induction ds generalizing u a with
  | nil => exact ⟨.refl u, rfl, .refl a⟩
  | cons d ds ih =>
    unfold undeployAll
    obtain ⟨hworked, happlied, hpassed⟩ :=
      crew.perform_spec .undeploy d u (a.note (.undeploying d u.id u.name stage))
    have hcalled := (a.passed_call (e := .undeploying d u.id u.name stage) rfl rfl).trans hpassed
    generalize crew.perform .undeploy d u (a.note (.undeploying d u.id u.name stage)) = w at *
    have hcalls : w.unit.undeployCalls stage ds = u.undeployCalls stage ds := by
      unfold undeployCalls
      rw [hworked.node]
    simp only
    split
    · next cause _ =>
      obtain ⟨hrest, happlied', hpass⟩ :=
        ih w.unit (w.ambient.note (.undeployFailed d u.id u.name stage cause))
      rw [hcalls] at hpass
      have hnoted := hcalled.trans
        (w.ambient.passed_remark (e := .undeployFailed d u.id u.name stage cause) rfl rfl)
      exact ⟨hworked.trans hrest, happlied'.trans happlied, hnoted.trans hpass⟩
    · obtain ⟨hrest, happlied', hpass⟩ := ih w.unit w.ambient
      rw [hcalls] at hpass
      exact ⟨hworked.trans hrest, happlied'.trans happlied, hcalled.trans hpass⟩

variable {crew stage}

/-- A unit that some deployers are applied to for a stage enters it with them on record. -/
theorem Applies.entered {ds called : List (Deployer β)} {u v : LiveUnit β} {a b : Ambient β σ}
    (applies : crew.Applies stage ds (u.working (some stage)) a called v b) :
    Entered stage called u (v.working none) := by
  obtain ⟨hworked, happlied, _⟩ := applies.spec
  exact ⟨hworked.node, rfl, happlied, hworked.needs⟩

/-- A unit that a deployer fails on has those before it on record. -/
theorem Balks.entered {ds called : List (Deployer β)} {d : Deployer β} {cause : Cause}
    {u v : LiveUnit β} {a b : Ambient β σ}
    (balks : crew.Balks stage ds (u.working (some stage)) a called d cause v b) :
    Entered stage called u (v.working none) := by
  obtain ⟨hworked, happlied, _⟩ := balks.spec
  exact ⟨hworked.node, rfl, happlied, hworked.needs⟩

variable (crew stage)

/-- A unit enters a stage with the deployers that were applied, all of them unless one failed. -/
theorem enterUnit_spec (ds : List (Deployer β)) (u : LiveUnit β) (a : Ambient β σ) :
    ∃ done, Entered stage done u (crew.enterUnit stage ds u a).unit ∧
      (((crew.enterUnit stage ds u a).failure = none ∧
          a.Passed (crew.enterUnit stage ds u a).ambient (u.deployCalls stage done)) ∨
        ∃ d cause, (crew.enterUnit stage ds u a).failure = some cause ∧
          a.Passed (crew.enterUnit stage ds u a).ambient (u.deployCalls stage done ++
            [.deploying d u.id u.name stage, .deployFailed d u.id u.name stage cause])) := by
  unfold enterUnit
  rcases crew.deployAll_cases stage ds (u.working (some stage)) a with
    ⟨done, v, b, heq, happlies⟩ | ⟨done, d, cause, v, b, heq, hbalks⟩
  · rw [heq]
    exact ⟨done, happlies.entered, Or.inl ⟨rfl, happlies.spec.2.2⟩⟩
  · rw [heq]
    exact ⟨done, hbalks.entered, Or.inr ⟨d, cause, rfl, hbalks.spec.2.2⟩⟩

/-- A unit that leaves a stage is left by the deployers applied for it, the last one first. -/
theorem leaveUnit_spec (u : LiveUnit β) (a : Ambient β σ) :
    Left stage u (crew.leaveUnit stage u a).1 ∧
      a.Passed (crew.leaveUnit stage u a).2
        (u.undeployCalls stage (u.appliedAt stage).reverse) := by
  obtain ⟨hworked, happlied, hpassed⟩ := crew.undeployAll_spec stage (u.appliedAt stage).reverse
    ((u.clearApplied stage).working (some stage)) a
  unfold leaveUnit
  refine ⟨⟨hworked.node, rfl, happlied, hworked.forget rfl⟩, ?_⟩
  simp only
  split
  · exact hpassed
  · rw [← List.append_nil (undeployCalls u stage _)]
    refine hpassed.trans (Ambient.passed_remark _ ?_ ?_)
    · rfl
    · rfl

end Crew

end Rollout
