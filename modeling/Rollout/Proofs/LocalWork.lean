import Rollout.Proofs.TreeWork

/-!
Local work. Two crews treat two units alike when every call makes the same of both, whoever is on
the roster and whatever deployers keep between calls. What comes of working on a unit is then the
same as well, and so is what the journal tells of it. So whole trees of which two crews treat all
units alike are taken through the same steps by both.
-/

set_option autoImplicit false
set_option relaxedAutoImplicit false

namespace Rollout

variable {β σ : Type}

/-- A place without the slots that it tells of. -/
def Node.unplaced (n : Node) : Node :=
  { n with
    id := 0
    parent := n.parent.map fun _ ↦ 0
    top := 0
    children := n.children.map fun _ ↦ 0
    components := n.components.map fun _ ↦ 0 }

namespace LiveUnit

/-- A unit without the slots that it tells of. -/
def unplaced (u : LiveUnit β) : LiveUnit β := { u with toNode := u.toNode.unplaced }

variable {u v : LiveUnit β}

/-- Units that differ at most by their slots are the same if their slots are. -/
theorem eq_of_unplaced (hnode : v.toNode = u.toNode) (hsame : v.unplaced = u.unplaced) : v = u := by
  cases u
  cases v
  simp only [unplaced, LiveUnit.mk.injEq] at hnode hsame ⊢
  exact ⟨hnode, hsame.2⟩

theorem name_eq_of_unplaced (hsame : v.unplaced = u.unplaced) : v.name = u.name :=
  congrArg (fun w ↦ w.name) hsame

theorem needs_eq_of_unplaced (hsame : v.unplaced = u.unplaced) : v.needs = u.needs := by
  have hneeds := congrArg LiveUnit.needs hsame
  exact hneeds

theorem suits_eq_of_unplaced (hsame : v.unplaced = u.unplaced) (p : Profile) :
    v.suits p = u.suits p :=
  congrArg (fun w ↦ w.suits p) hsame

theorem appliedAt_eq_of_unplaced (hsame : v.unplaced = u.unplaced) (stage : Stage) :
    v.appliedAt stage = u.appliedAt stage :=
  congrArg (fun w ↦ w.appliedAt stage) hsame

theorem unplaced_working (hsame : v.unplaced = u.unplaced) (stage : Option Stage) :
    (v.working stage).unplaced = (u.working stage).unplaced :=
  congrArg (fun w ↦ w.working stage) hsame

theorem unplaced_apply (hsame : v.unplaced = u.unplaced) (stage : Stage) (d : Deployer β) :
    (v.apply stage d).unplaced = (u.apply stage d).unplaced :=
  congrArg (fun w ↦ w.apply stage d) hsame

theorem unplaced_clearApplied (hsame : v.unplaced = u.unplaced) (stage : Stage) :
    (v.clearApplied stage).unplaced = (u.clearApplied stage).unplaced :=
  congrArg (fun w ↦ w.clearApplied stage) hsame

theorem unplaced_forgetNeeds (hsame : v.unplaced = u.unplaced) (stage : Stage) :
    (v.forgetNeeds stage).unplaced = (u.forgetNeeds stage).unplaced :=
  congrArg (fun w ↦ w.forgetNeeds stage) hsame

theorem unplaced_attachments (hsame : v.unplaced = u.unplaced) (attachments : Attachments) :
    ({ v with attachments } : LiveUnit β).unplaced = ({ u with attachments }).unplaced :=
  congrArg (fun w : LiveUnit β ↦ { w with attachments }) hsame

theorem unplaced_declare_all (hsame : v.unplaced = u.unplaced) (demands : List Demand) :
    (demands.foldl declare v).unplaced = (demands.foldl declare u).unplaced := by
  induction demands generalizing u v with
  | nil => exact hsame
  | cons demand demands ih => exact ih (congrArg (fun w ↦ w.declare demand) hsame)

end LiveUnit

namespace Crew

/-- One crew makes of one unit what another crew makes of another one, whoever is on the roster and
whatever deployers keep between calls. -/
def Likewise (crew crew' : Crew β σ) (u v : LiveUnit β) : Prop :=
  ∀ action d r s r' s',
    (crew'.call action d v r' s').attachments = (crew.call action d u r s).attachments ∧
      (crew'.call action d v r' s').declared = (crew.call action d u r s).declared ∧
      (crew'.call action d v r' s').failure = (crew.call action d u r s).failure

/-- No deployer changes the roster. -/
def KeepsRoster (crew : Crew β σ) : Prop :=
  ∀ action d u r s, (crew.call action d u r s).changes = []

/-- What deployers make of a unit depends on that unit alone, but not on its slots. -/
def Local (crew : Crew β σ) : Prop :=
  ∀ u v : LiveUnit β, v.unplaced = u.unplaced → crew.Likewise crew u v

/-- Two crews treat two units alike whatever is done to both of them. -/
def Agree (crew crew' : Crew β σ) (u v : LiveUnit β) : Prop :=
  ∀ w x : LiveUnit β, w.toNode = u.toNode → x.toNode = v.toNode → x.unplaced = w.unplaced →
    crew.Likewise crew' w x

variable {crew crew' : Crew β σ} {u v w x : LiveUnit β} {a b e a' b' e' : Ambient β σ}

theorem Local.agree (blind : crew.Local) (u v : LiveUnit β) : crew.Agree crew u v :=
  fun _ _ _ _ hsame ↦ blind _ _ hsame

theorem Agree.congr (agree : crew.Agree crew' u v) (hw : w.toNode = u.toNode)
    (hx : x.toNode = v.toNode) : crew.Agree crew' w x :=
  fun _ _ hy hz ↦ agree _ _ (hy.trans hw) (hz.trans hx)

end Crew

namespace Ambient

variable {a b e a' b' e' : Ambient β σ}

/-- Two journals go on with the same entries. -/
def InStep (a b a' b' : Ambient β σ) : Prop :=
  ∃ es, b.journal.toList = a.journal.toList ++ es ∧ b'.journal.toList = a'.journal.toList ++ es

theorem InStep.refl (a a' : Ambient β σ) : InStep a a a' a' := ⟨[], by simp⟩

theorem InStep.trans (first : InStep a b a' b') (second : InStep b e b' e') :
    InStep a e a' e' := by
  obtain ⟨es, hes, hes'⟩ := first
  obtain ⟨fs, hfs, hfs'⟩ := second
  exact ⟨es ++ fs, by rw [hfs, hes, List.append_assoc], by rw [hfs', hes', List.append_assoc]⟩

theorem InStep.note (inStep : InStep a b a' b') (entry : Entry β) :
    InStep a (b.note entry) a' (b'.note entry) :=
  inStep.trans ⟨[entry], Array.toList_push, Array.toList_push⟩

end Ambient

namespace Crew

open Ambient

variable {crew crew' : Crew β σ} {u v w x : LiveUnit β} {stage : Stage}

/-! Crews that leave the roster as it is. -/

theorem KeepsRoster.perform (keeps : crew.KeepsRoster) (action : Action) (d : Deployer β)
    (u : LiveUnit β) (a : Ambient β σ) :
    (crew.perform action d u a).ambient.roster = a.roster ∧
      (crew.perform action d u a).ambient.journal = a.journal := by
  unfold Crew.perform
  simp only
  rw [keeps]
  exact ⟨rfl, rfl⟩

theorem KeepsRoster.deployAll (keeps : crew.KeepsRoster) (ds : List (Deployer β))
    (u : LiveUnit β) (a : Ambient β σ) :
    (crew.deployAll stage ds u a).ambient.roster = a.roster := by
  induction ds generalizing u a with
  | nil => rfl
  | cons d ds ih =>
    unfold Crew.deployAll
    have hroster := (keeps.perform .deploy d u (a.note (.deploying d u.id u.name stage))).1
    split
    · simp only
      split
      · exact hroster
      · exact (ih _ _).trans hroster
    · exact ih u a

theorem KeepsRoster.undeployAll (keeps : crew.KeepsRoster) (ds : List (Deployer β))
    (u : LiveUnit β) (a : Ambient β σ) :
    (crew.undeployAll stage ds u a).2.roster = a.roster := by
  induction ds generalizing u a with
  | nil => rfl
  | cons d ds ih =>
    unfold Crew.undeployAll
    have hroster := (keeps.perform .undeploy d u (a.note (.undeploying d u.id u.name stage))).1
    simp only
    split
    · exact (ih _ _).trans hroster
    · exact (ih _ _).trans hroster

theorem KeepsRoster.leaveUnit (keeps : crew.KeepsRoster) (u : LiveUnit β) (a : Ambient β σ) :
    (crew.leaveUnit stage u a).2.roster = a.roster := by
  unfold Crew.leaveUnit
  simp only
  split
  · exact keeps.undeployAll _ _ _
  · exact keeps.undeployAll _ _ _

/-! Crews that treat units alike. -/

theorem Agree.perform (agree : crew.Agree crew' u v) (hsame : v.unplaced = u.unplaced)
    (action : Action) (d : Deployer β) (a a' : Ambient β σ) :
    (crew'.perform action d v a').unit.unplaced = (crew.perform action d u a).unit.unplaced ∧
      (crew'.perform action d v a').failure = (crew.perform action d u a).failure := by
  obtain ⟨hattachments, hdeclared, hfailure⟩ :=
    agree u v rfl rfl hsame action d a.roster a.state a'.roster a'.state
  unfold Crew.perform
  simp only
  rw [hattachments, hdeclared]
  exact ⟨LiveUnit.unplaced_declare_all (LiveUnit.unplaced_attachments hsame _) _, hfailure⟩

/-- Units that are treated alike come out of the calls of some deployers alike, and so do the
journals if the units are in the same slot. -/
theorem Agree.deployAll (stage : Stage) (keeps : crew.KeepsRoster) (keeps' : crew'.KeepsRoster)
    (agree : crew.Agree crew' u v) (hsame : v.unplaced = u.unplaced) (ds : List (Deployer β))
    (a a' : Ambient β σ) :
    (crew'.deployAll stage ds v a').unit.unplaced =
        (crew.deployAll stage ds u a).unit.unplaced ∧
      (crew'.deployAll stage ds v a').failure = (crew.deployAll stage ds u a).failure ∧
      (v.id = u.id → InStep a (crew.deployAll stage ds u a).ambient
        a' (crew'.deployAll stage ds v a').ambient) := by
  induction ds generalizing u v a a' with
  | nil => exact ⟨hsame, rfl, fun _ ↦ .refl a a'⟩
  | cons d ds ih =>
    unfold Crew.deployAll
    rw [LiveUnit.suits_eq_of_unplaced hsame, LiveUnit.name_eq_of_unplaced hsame]
    split
    · have hnode := (crew.perform_spec .deploy d u (a.note (.deploying d u.id u.name stage))).1.node
      have hnode' :=
        (crew'.perform_spec .deploy d v (a'.note (.deploying d v.id u.name stage))).1.node
      have hjournal := (keeps.perform .deploy d u (a.note (.deploying d u.id u.name stage))).2
      have hjournal' := (keeps'.perform .deploy d v (a'.note (.deploying d v.id u.name stage))).2
      obtain ⟨hunit, hfailure⟩ := agree.perform hsame .deploy d
        (a.note (.deploying d u.id u.name stage)) (a'.note (.deploying d v.id u.name stage))
      generalize crew.perform .deploy d u (a.note (.deploying d u.id u.name stage)) = r at *
      generalize crew'.perform .deploy d v (a'.note (.deploying d v.id u.name stage)) = r' at *
      have hcalled : v.id = u.id → InStep a r.ambient a' r'.ambient := fun hid ↦ by
        have hnoted := (InStep.refl a a').note (.deploying d u.id u.name stage)
        unfold InStep at hnoted ⊢
        rw [hjournal, hjournal', hid]
        exact hnoted
      simp only [hfailure]
      cases r.failure with
      | some cause =>
        refine ⟨hunit, rfl, fun hid ↦ ?_⟩
        simp only
        rw [hid]
        exact (hcalled hid).note _
      | none =>
        obtain ⟨hunit', hfailure', hinStep⟩ := ih
          (agree.congr (w := r.unit.apply stage d) (x := r'.unit.apply stage d) hnode hnode')
          (LiveUnit.unplaced_apply hunit stage d) (r.ambient.note (.deployed d u.id u.name stage))
          (r'.ambient.note (.deployed d v.id u.name stage))
        refine ⟨hunit', hfailure', fun hid ↦ ?_⟩
        have hsameId : (r'.unit.apply stage d).id = (r.unit.apply stage d).id := by
          show r'.unit.id = r.unit.id
          rw [hnode, hnode', hid]
        have hrest := hinStep hsameId
        rw [hid] at hrest ⊢
        exact ((hcalled hid).note _).trans hrest
    · exact ih agree hsame a a'

theorem Agree.undeployAll (stage : Stage) (keeps : crew.KeepsRoster) (keeps' : crew'.KeepsRoster)
    (agree : crew.Agree crew' u v) (hsame : v.unplaced = u.unplaced) (ds : List (Deployer β))
    (a a' : Ambient β σ) :
    (crew'.undeployAll stage ds v a').1.unplaced = (crew.undeployAll stage ds u a).1.unplaced ∧
      (v.id = u.id → InStep a (crew.undeployAll stage ds u a).2
        a' (crew'.undeployAll stage ds v a').2) := by
  induction ds generalizing u v a a' with
  | nil => exact ⟨hsame, fun _ ↦ .refl a a'⟩
  | cons d ds ih =>
    unfold Crew.undeployAll
    rw [LiveUnit.name_eq_of_unplaced hsame]
    have hnode :=
      (crew.perform_spec .undeploy d u (a.note (.undeploying d u.id u.name stage))).1.node
    have hnode' :=
      (crew'.perform_spec .undeploy d v (a'.note (.undeploying d v.id u.name stage))).1.node
    have hjournal := (keeps.perform .undeploy d u (a.note (.undeploying d u.id u.name stage))).2
    have hjournal' := (keeps'.perform .undeploy d v (a'.note (.undeploying d v.id u.name stage))).2
    obtain ⟨hunit, hfailure⟩ := agree.perform hsame .undeploy d
      (a.note (.undeploying d u.id u.name stage)) (a'.note (.undeploying d v.id u.name stage))
    generalize crew.perform .undeploy d u (a.note (.undeploying d u.id u.name stage)) = r at *
    generalize crew'.perform .undeploy d v (a'.note (.undeploying d v.id u.name stage)) = r' at *
    have hcalled : v.id = u.id → InStep a r.ambient a' r'.ambient := fun hid ↦ by
      have hnoted := (InStep.refl a a').note (.undeploying d u.id u.name stage)
      unfold InStep at hnoted ⊢
      rw [hjournal, hjournal', hid]
      exact hnoted
    have hrest := fun b b' ↦ ih (agree.congr (w := r.unit) (x := r'.unit) hnode hnode') hunit b b'
    have hids : v.id = u.id → r'.unit.id = r.unit.id := fun hid ↦ by rw [hnode, hnode', hid]
    simp only [hfailure]
    cases r.failure with
    | some cause =>
      refine ⟨(hrest _ _).1, fun hid ↦ ?_⟩
      simp only
      rw [hid]
      exact ((hcalled hid).note _).trans ((hrest _ _).2 (hids hid))
    | none => exact ⟨(hrest _ _).1, fun hid ↦ (hcalled hid).trans ((hrest _ _).2 (hids hid))⟩

theorem Agree.enterUnit (stage : Stage) (keeps : crew.KeepsRoster) (keeps' : crew'.KeepsRoster)
    (agree : crew.Agree crew' u v) (hsame : v.unplaced = u.unplaced) (ds : List (Deployer β))
    (a a' : Ambient β σ) :
    (crew'.enterUnit stage ds v a').unit.unplaced =
        (crew.enterUnit stage ds u a).unit.unplaced ∧
      (crew'.enterUnit stage ds v a').failure = (crew.enterUnit stage ds u a).failure ∧
      (v.id = u.id → InStep a (crew.enterUnit stage ds u a).ambient
        a' (crew'.enterUnit stage ds v a').ambient) := by
  obtain ⟨hunit, hrest⟩ := Agree.deployAll stage keeps keeps'
    (agree.congr (w := u.working (some stage)) (x := v.working (some stage)) rfl rfl)
    (LiveUnit.unplaced_working hsame _) ds a a'
  exact ⟨LiveUnit.unplaced_working hunit none, hrest⟩

theorem Agree.leaveUnit (stage : Stage) (keeps : crew.KeepsRoster) (keeps' : crew'.KeepsRoster)
    (agree : crew.Agree crew' u v) (hsame : v.unplaced = u.unplaced) (a a' : Ambient β σ) :
    (crew'.leaveUnit stage v a').1.unplaced = (crew.leaveUnit stage u a).1.unplaced ∧
      (v.id = u.id → InStep a (crew.leaveUnit stage u a).2 a' (crew'.leaveUnit stage v a').2) := by
  obtain ⟨hunit, hinStep⟩ := Agree.undeployAll stage keeps keeps'
    (agree.congr (w := (u.clearApplied stage).working (some stage))
      (x := (v.clearApplied stage).working (some stage)) rfl rfl)
    (LiveUnit.unplaced_working (LiveUnit.unplaced_clearApplied hsame stage) _)
    (u.appliedAt stage).reverse a a'
  unfold Crew.leaveUnit
  rw [LiveUnit.appliedAt_eq_of_unplaced hsame, LiveUnit.name_eq_of_unplaced hsame]
  have hidle := LiveUnit.unplaced_working hunit none
  have hkept := LiveUnit.unplaced_forgetNeeds hidle stage
  simp only [LiveUnit.needs_eq_of_unplaced hidle, LiveUnit.needs_eq_of_unplaced hkept]
  refine ⟨hkept, fun hid ↦ ?_⟩
  split
  · exact hinStep hid
  · exact (hinStep hid).note _

end Crew

namespace Site

open Ambient

variable {crew crew' : Crew β σ} {stage : Stage} {s s' t : Site β σ} {hs ks done : List Handle}

/-! Whole trees. -/

theorem roster_leaveEach (keeps : crew.KeepsRoster) (stage : Stage) (hs : List Handle)
    (s : Site β σ) : (leaveEach crew stage hs s).2.ambient.roster = s.ambient.roster := by
  induction hs generalizing s with
  | nil => rfl
  | cons h hs ih =>
    unfold leaveEach
    split
    · exact ih s
    · exact (ih _).trans (keeps.leaveUnit _ _)

theorem roster_enterEach (keeps : crew.KeepsRoster) (stage : Stage) (ds : List (Deployer β))
    (hs done : List Handle) (count : Nat) (s : Site β σ) :
    (enterEach crew stage ds hs done count s).2.ambient.roster = s.ambient.roster := by
  induction hs generalizing done count s with
  | nil => rfl
  | cons h hs ih =>
    unfold enterEach
    split
    · exact ih _ _ s
    · next u _ =>
      have hroster : (crew.enterUnit stage ds u s.ambient).ambient.roster = s.ambient.roster :=
        keeps.deployAll _ _ _
      simp only
      split
      · exact (ih _ _ _).trans hroster
      · exact (roster_leaveEach keeps _ _ _).trans hroster

theorem roster_enterStage (keeps : crew.KeepsRoster) (root : Handle) (stage : Stage)
    (s : Site β σ) : (enterStage crew root stage s).2.ambient.roster = s.ambient.roster :=
  roster_enterEach keeps _ _ _ _ _ _

theorem roster_leaveStage (keeps : crew.KeepsRoster) (root : Handle) (stage : Stage)
    (s : Site β σ) : (leaveStage crew root stage s).2.ambient.roster = s.ambient.roster :=
  roster_leaveEach keeps _ _ _

/-- When several units enter a stage and none fails, each is what has come of working on it. -/
theorem enterEach_units {ds : List (Deployer β)} (hnodup : hs.Nodup) {count n : Nat}
    (henter : enterEach crew stage ds hs done count s = (.ok n, t)) {h : Handle} (hh : h ∈ hs)
    {u : LiveUnit β} (hu : s.forest.get? h = some u) :
    ∃ a, t.forest.get? h = some (crew.enterUnit stage ds u a).unit := by
  induction hs generalizing done count s with
  | nil => exact absurd hh List.not_mem_nil
  | cons k hs ih =>
    obtain ⟨hk, hrest⟩ := List.nodup_cons.1 hnodup
    unfold enterEach at henter
    cases hw : s.forest.get? k with
    | none =>
      rw [hw] at henter
      refine ih hrest henter ((List.mem_cons.1 hh).resolve_left fun heq ↦ ?_) hu
      rw [heq, hw] at hu
      exact absurd hu (by simp)
    | some w =>
      rw [hw] at henter
      simp only at henter
      split at henter
      · by_cases heq : h = k
        · subst heq
          obtain rfl := Option.some_inj.1 (hw.symm.trans hu)
          have hlt := Forest.lt_length_of_node? (Forest.node?_of_get? hu)
          refine ⟨s.ambient, ?_⟩
          rcases enterEach_cases crew stage ds hrest _ _ _ with
            ⟨_, t', hok, happlies⟩ | ⟨_, _, _, _, _, _, _, _, _, herror, _⟩
          · obtain rfl : t' = t := congrArg Prod.snd (hok.symm.trans henter)
            rw [(happlies.treated hrest).other hk, Forest.get?_put, if_pos rfl, if_pos hlt]
          · rw [herror] at henter
            exact absurd (congrArg Prod.fst henter) (by simp)
        · refine ih hrest henter ((List.mem_cons.1 hh).resolve_left heq) ?_
          rw [Forest.get?_put, if_neg heq, hu]
      · exact absurd (congrArg Prod.fst henter) (by simp)

/-- Two sites have the same units on some handles, and two crews treat these alike. -/
structure Shared (crew crew' : Crew β σ) (hs : List Handle) (s s' : Site β σ) : Prop where
  units : ∀ h ∈ hs, s'.forest.get? h = s.forest.get? h
  agree : ∀ h ∈ hs, ∀ u, s.forest.get? h = some u → crew.Agree crew' u u

/-- Putting the same unit back into its slot keeps sites that have the same units. -/
theorem Shared.put (shared : Shared crew crew' hs s s') {h : Handle} (hh : h ∈ hs)
    {u v : LiveUnit β} (hu : s.forest.get? h = some u) (hnode : v.toNode = u.toNode)
    (a a' : Ambient β σ) :
    Shared crew crew' hs ⟨s.forest.put h v, a⟩ ⟨s'.forest.put h v, a'⟩ := by
  have hlt := Forest.lt_length_of_node? (Forest.node?_of_get? hu)
  have hlt' := Forest.lt_length_of_node? (Forest.node?_of_get? ((shared.units h hh).trans hu))
  refine ⟨fun k hk ↦ ?_, fun k hk w hw ↦ ?_⟩
  · show (s'.forest.put h v).get? k = (s.forest.put h v).get? k
    rw [Forest.get?_put, Forest.get?_put, if_pos hlt, if_pos hlt', shared.units k hk]
  · change (s.forest.put h v).get? k = some w at hw
    rw [Forest.get?_put, if_pos hlt] at hw
    split at hw
    · obtain rfl := Option.some_inj.1 hw
      exact (shared.agree h hh u hu).congr hnode hnode
    · exact shared.agree k hk w hw

/-- Units that are treated alike leave a stage in step. -/
theorem Shared.leaveEach (keeps : crew.KeepsRoster) (keeps' : crew'.KeepsRoster)
    (shared : Shared crew crew' hs s s') (hsub : ks ⊆ hs) :
    (Site.leaveEach crew' stage ks s').1 = (Site.leaveEach crew stage ks s).1 ∧
      Shared crew crew' hs (Site.leaveEach crew stage ks s).2 (Site.leaveEach crew' stage ks s').2 ∧
      InStep s.ambient (Site.leaveEach crew stage ks s).2.ambient
        s'.ambient (Site.leaveEach crew' stage ks s').2.ambient := by
  induction ks generalizing s s' with
  | nil => exact ⟨rfl, shared, .refl _ _⟩
  | cons h ks ih =>
    obtain ⟨hh, hrest⟩ := List.cons_subset.1 hsub
    unfold Site.leaveEach
    rw [shared.units h hh]
    cases hu : s.forest.get? h with
    | none => exact ih shared hrest
    | some u =>
      obtain ⟨hunit, hinStep⟩ := Crew.Agree.leaveUnit stage keeps keeps'
        (shared.agree h hh u hu) rfl s.ambient s'.ambient
      have hnode := (crew.leaveUnit_spec stage u s.ambient).1.node
      have hnode' := (crew'.leaveUnit_spec stage u s'.ambient).1.node
      have hsame := LiveUnit.eq_of_unplaced (hnode'.trans hnode.symm) hunit
      obtain ⟨hcount, hshared, hstep⟩ := ih (shared.put hh hu hnode
        (crew.leaveUnit stage u s.ambient).2 (crew'.leaveUnit stage u s'.ambient).2) hrest
      simp only [hsame, hcount]
      exact ⟨trivial, hshared, (hinStep rfl).trans hstep⟩

/-- Units that are treated alike enter a stage in step. -/
theorem Shared.enterEach (keeps : crew.KeepsRoster) (keeps' : crew'.KeepsRoster)
    (shared : Shared crew crew' hs s s') (hsub : ks ⊆ hs) (hdone : done ⊆ hs)
    (ds : List (Deployer β)) (count : Nat) :
    (Site.enterEach crew' stage ds ks done count s').1 =
        (Site.enterEach crew stage ds ks done count s).1 ∧
      Shared crew crew' hs (Site.enterEach crew stage ds ks done count s).2
        (Site.enterEach crew' stage ds ks done count s').2 ∧
      InStep s.ambient (Site.enterEach crew stage ds ks done count s).2.ambient
        s'.ambient (Site.enterEach crew' stage ds ks done count s').2.ambient := by
  induction ks generalizing s s' done count with
  | nil => exact ⟨rfl, shared, .refl _ _⟩
  | cons h ks ih =>
    obtain ⟨hh, hrest⟩ := List.cons_subset.1 hsub
    have hdone' : h :: done ⊆ hs := List.cons_subset.2 ⟨hh, hdone⟩
    unfold Site.enterEach
    rw [shared.units h hh]
    cases hu : s.forest.get? h with
    | none => exact ih shared hrest hdone' count
    | some u =>
      obtain ⟨hunit, hfailure, hinStep⟩ := Crew.Agree.enterUnit stage keeps keeps'
        (shared.agree h hh u hu) rfl ds s.ambient s'.ambient
      obtain ⟨_, hentered, _⟩ := crew.enterUnit_spec stage ds u s.ambient
      obtain ⟨_, hentered', _⟩ := crew'.enterUnit_spec stage ds u s'.ambient
      have hsame := LiveUnit.eq_of_unplaced (hentered'.node.trans hentered.node.symm) hunit
      have hput := shared.put hh hu hentered.node (crew.enterUnit stage ds u s.ambient).ambient
        (crew'.enterUnit stage ds u s'.ambient).ambient
      simp only [hsame, hfailure]
      cases (crew.enterUnit stage ds u s.ambient).failure with
      | none =>
        obtain ⟨hresult, hshared, hstep⟩ := ih hput hrest hdone'
          (count + ((crew.enterUnit stage ds u s.ambient).unit.appliedAt stage).length)
        exact ⟨hresult, hshared, (hinStep rfl).trans hstep⟩
      | some cause =>
        obtain ⟨_, hshared, hstep⟩ := hput.leaveEach keeps keeps' hdone'
        exact ⟨rfl, hshared, (hinStep rfl).trans hstep⟩

end Site

end Rollout
