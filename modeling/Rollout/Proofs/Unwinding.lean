import Rollout.Proofs.Records

/-!
Unwinding. On a tree that bears no mark of a stage yet, a step into this stage can be read back off
what is recorded: the deployers recorded on a unit are those that were on the roster when the step
began and that the unit suited when their turn came, in this order. So a later step out of the stage
calls just these, in reverse, whoever is on the roster by then; and a step that fails halfway takes
back just what it has done. Either way the units are as they were before, but for what deployers
have attached to them.
-/

set_option autoImplicit false
set_option relaxedAutoImplicit false

namespace Rollout

variable {β σ : Type}

namespace LiveUnit

variable {u v : LiveUnit β} {stage : Stage} {ds : List (Deployer β)}

/-- Nothing is recorded on a unit for a stage, and none of its needs was declared for it. -/
structure Unmarked (stage : Stage) (u : LiveUnit β) : Prop where
  applied : ∀ a ∈ u.applied, a.stage ≠ stage
  needs : ∀ n ∈ u.needs, n.declaredAt ≠ some stage

/-- All that is recorded for a stage on a unit that has just entered it was recorded then. -/
theorem Entered.appliedAt_eq (entered : Entered stage ds u v) (unmarked : u.Unmarked stage) :
    v.appliedAt stage = ds := by
  rw [entered.appliedAt, appliedAt_eq_nil unmarked.applied, List.nil_append]

/-- A unit that leaves a stage it bore no mark of is as it was, but for its attachments. -/
theorem Left.eq (left : Left stage u v) (unmarked : u.Unmarked stage) :
    v = { u with attachments := v.attachments, stepping := none } := by
  have hneeds : Need.forget u.needs stage = u.needs :=
    List.filter_eq_self.2 fun n hn ↦ by simpa using unmarked.needs n hn
  obtain ⟨node, attachments, needs, stepping, applied⟩ := v
  obtain rfl : node = u.toNode := left.node
  obtain rfl : stepping = none := left.stepping
  obtain rfl : needs = u.needs := left.needs.trans hneeds
  obtain rfl : applied = u.applied := left.applied_eq unmarked.applied
  rfl

end LiveUnit

namespace Site

open LiveUnit

variable {crew : Crew β σ} {stage : Stage} {root : Handle} {s t m : Site β σ}
  {hs : List Handle} {calls other : Handle → LiveUnit β → List (Entry β)}
  {called : Handle → List (Deployer β)}

/-- No unit on some handles bears a mark of a stage. -/
def Unmarked (stage : Stage) (hs : List Handle) (s : Site β σ) : Prop :=
  ∀ h ∈ hs, ∀ u, s.forest.get? h = some u → u.Unmarked stage

/-- The calls by which the deployers that were called on each unit are called to take it back. -/
def backCalls (stage : Stage) (called : Handle → List (Deployer β)) (h : Handle)
    (u : LiveUnit β) : List (Entry β) :=
  u.undeployCalls stage (called h)

theorem callsOn_reverse (s : Site β σ) (hs : List Handle)
    (calls : Handle → LiveUnit β → List (Entry β)) :
    (s.callsOn hs calls).reverse = s.callsOn hs.reverse fun h u ↦ (calls h u).reverse := by
  unfold callsOn
  rw [List.reverse_flatMap]
  refine List.flatMap_congr fun h _ ↦ ?_
  rw [Function.comp_apply]
  cases s.forest.get? h with
  | none => rfl
  | some u => rfl

/-- Calls on units that have been worked on come to calls on the units as they were before. -/
theorem Treated.callsOn_eq {effect : Handle → LiveUnit β → LiveUnit β → Prop}
    {ks : List Handle} {es : List (Entry β)} (treated : Treated effect hs s t es) (hsub : ks ⊆ hs)
    (heach : ∀ h ∈ hs, ∀ u v, s.forest.get? h = some u → effect h u v →
      calls h v = other h u) :
    t.callsOn ks calls = s.callsOn ks other := by
  unfold callsOn
  refine List.flatMap_congr fun h hh ↦ ?_
  cases hu : s.forest.get? h with
  | none =>
    have hnone := Forest.get?_eq_none_iff.1 hu
    rw [treated.shape.node?, ← Forest.get?_eq_none_iff] at hnone
    rw [hnone]
    rfl
  | some u =>
    obtain ⟨v, hv, heffect⟩ := treated.each (hsub hh) hu
    rw [hv, Option.elim_some, Option.elim_some, heach h (hsub hh) u v hu heffect]

/-- Units that have entered a stage leave it by taking back, last call first, what was done. -/
theorem Treated.callsOn_leave {es : List (Entry β)}
    (entered : Treated (fun h ↦ Entered stage (called h)) hs s t es)
    (unmarked : s.Unmarked stage hs) :
    t.callsOn hs.reverse (leaveCalls stage) = (s.callsOn hs (backCalls stage called)).reverse := by
  rw [callsOn_reverse]
  refine entered.callsOn_eq (fun h hh ↦ List.mem_reverse.1 hh) fun h hh u v hu hentered ↦ ?_
  unfold leaveCalls backCalls undeployCalls
  rw [hentered.appliedAt_eq (unmarked h hh u hu), hentered.node, List.map_reverse]

/-- As many deployers are recorded for the stage on units that have entered it as were called. -/
theorem Treated.recorded_eq {es : List (Entry β)}
    (entered : Treated (fun h ↦ Entered stage (called h)) hs s t es)
    (unmarked : s.Unmarked stage hs) (live : ∀ h ∈ hs, ∃ u, s.forest.get? h = some u) :
    recorded stage t hs = (hs.flatMap called).length := by
  unfold recorded
  congr 1
  refine List.flatMap_congr fun h hh ↦ ?_
  obtain ⟨u, hu⟩ := live h hh
  obtain ⟨v, hv, hentered⟩ := entered.each hh hu
  rw [hv, Option.elim_some, hentered.appliedAt_eq (unmarked h hh u hu)]

/-- What has been done to units does not depend on what is noted around them. -/
theorem Treated.amid {effect : Handle → LiveUnit β → LiveUnit β → Prop} {es : List (Entry β)}
    (treated : Treated effect hs s t es) (a : Ambient β σ) :
    Treated effect hs ⟨s.forest, a⟩ ⟨t.forest, a⟩ [] :=
  ⟨treated.shape, treated.other, treated.each, .refl a⟩

/-- Units that have left a stage they bore no mark of are as they were, but for their
attachments. -/
theorem Treated.unwound {es : List (Entry β)} (left : Treated (fun _ ↦ Left stage) hs s t es)
    (unmarked : s.Unmarked stage hs) :
    Treated (fun _ u v ↦ v = { u with attachments := v.attachments, stepping := none }) hs
      s t es := by
  refine ⟨left.shape, left.other, fun {h u} hh hu ↦ ?_, left.ambient⟩
  obtain ⟨v, hv, hleft⟩ := left.each hh hu
  exact ⟨v, hv, hleft.eq (unmarked h hh u hu)⟩

/-- A step of a tree into a stage that succeeds applies just what was on the roster at its start:
in tree order, the deployers that were on it for the stage have their turn on each unit, in order,
and those that the unit suits by then are called and recorded; as many are counted. A step out of
the stage after that, whatever has become of the roster and of what the deployers keep, calls just
these to take it back, in reverse order, counts as many, and leaves the units as they were, but for
their attachments. Assumes: a tree that lists no unit twice, as every tree of a sound forest does
(`Forest.Sound.nodup_tree`), and units that bear no mark of the stage. -/
theorem enterStage_exact {n : Nat} (hnodup : (s.forest.tree root).Nodup)
    (unmarked : s.Unmarked stage (s.forest.tree root))
    (henter : enterStage crew root stage s = (.ok n, t)) :
    ∃ called,
      AppliesEach crew stage (s.ambient.roster.atStage stage) called (s.forest.tree root) s t ∧
      Treated (fun h ↦ Entered stage (called h)) (s.forest.tree root) s t
        (s.callsOn (s.forest.tree root) (enterCalls stage called)) ∧
      n = ((s.forest.tree root).flatMap called).length ∧
      ∀ later : Ambient β σ, (leaveStage crew root stage ⟨t.forest, later⟩).1 = n ∧
        Treated (fun _ u v ↦ v = { u with attachments := v.attachments, stepping := none })
          (s.forest.tree root) ⟨s.forest, later⟩ (leaveStage crew root stage ⟨t.forest, later⟩).2
          (s.callsOn (s.forest.tree root) (backCalls stage called)).reverse := by
  rcases enterStage_turns crew stage hnodup with ⟨called, t', heq, happlies⟩ |
    ⟨_, _, _, _, _, _, _, _, _, _, heq, _⟩
  · obtain ⟨hn, rfl⟩ := Prod.mk.inj (heq.symm.trans henter)
    have hentered := happlies.treated hnodup
    have hcount := hentered.recorded_eq unmarked fun h hh ↦ Forest.exists_get?_of_mem_walk hh
    obtain rfl := Except.ok.inj hn
    refine ⟨called, happlies, hentered, hcount, fun later ↦ ?_⟩
    have htree : t'.forest.tree root = s.forest.tree root := (hentered.shape.tree root).symm
    have hfinite : ((⟨t'.forest, later⟩ : Site β σ).forest.tree root).Nodup := htree ▸ hnodup
    obtain ⟨hleft, hcounted⟩ := leaveStage_spec crew stage hfinite
    rw [htree] at hleft hcounted
    refine ⟨hcounted, ?_⟩
    rw [← hentered.callsOn_leave unmarked]
    exact ((hentered.amid later).left stage hleft).unwound unmarked
  · rw [heq] at henter
    exact absurd (congrArg Prod.fst henter) (by simp)

/-- A tree of three units, just planted, and a roster of deployers. -/
def bench (ds : List (Deployer Unit)) : Site Unit Unit where
  forest := Forest.empty.settle (Forest.empty.layout
    (.mk "app" .none [] [.mk "part" .none [] [] []] [.mk "plugin" .none [] [] []]))
  ambient := (ds.map .enlist).foldl Ambient.change ⟨Roster.vacant Chain.standard, (), #[]⟩

theorem bench_fresh (ds : List (Deployer Unit)) :
    ((bench ds).forest.tree 0).Nodup ∧ ∀ h ∈ (bench ds).forest.tree 0, ∀ u,
      (bench ds).forest.get? h = some u → u.applied = [] ∧ u.needs = [] ∧ u.stepping = none := by
  refine ⟨show ((bench []).forest.tree 0).Nodup by decide +kernel, fun h hh u hu ↦ ?_⟩
  have hfresh : ∀ h ∈ (bench []).forest.tree 0, ((bench []).forest.get? h).all (fun u ↦
      u.applied.isEmpty && u.needs.isEmpty && u.stepping.isNone) = true := by decide +kernel
  have hall := hfresh h hh
  rw [show (bench []).forest.get? h = some u from hu] at hall
  simpa [and_assoc] using hall

theorem unmarked_bench (ds : List (Deployer Unit)) (stage : Stage) :
    (bench ds).Unmarked stage ((bench ds).forest.tree 0) := fun h hh u hu ↦ by
  obtain ⟨happlied, hneeds, _⟩ := (bench_fresh ds).2 h hh u hu
  exact ⟨by simp [happlied], by simp [hneeds]⟩

/-- Deployers that sign what they work on, declare a need, take themselves off the roster, and fail
on the unit of their own name and whenever they are to take something back. -/
def keen : Crew Unit Unit := ⟨fun action d u _ _ ↦
  { attachments := u.attachments.put d.name (.flag true)
    declared := [⟨u.name, d.profile.stage, d.profile.stage⟩]
    changes := [.dismiss d.name]
    state := ()
    failure := if u.name = d.name ∨ action = .undeploy then some ⟨"refused", []⟩ else none }⟩

/-- A deployer that waits for the signature of the other. -/
def signers : List (Deployer Unit) :=
  [⟨{ name := "stamp", stage := ⟨"Parse", 1⟩ }, ()⟩,
    ⟨({ name := "seal", stage := ⟨"Parse", 1⟩ } : Profile).requiring "stamp", ()⟩]

theorem enterStage_exact_bench :
    (enterStage keen 0 ⟨"Parse", 1⟩ (bench signers)).1 = .ok 4 ∧
      ∀ later, (leaveStage keen 0 ⟨"Parse", 1⟩
        ⟨(enterStage keen 0 ⟨"Parse", 1⟩ (bench signers)).2.forest, later⟩).1 = 4 := by
  have hok : (enterStage keen 0 ⟨"Parse", 1⟩ (bench signers)).1 = .ok 4 := rfl
  obtain ⟨_, _, _, _, hlater⟩ := enterStage_exact (bench_fresh signers).1
    (unmarked_bench signers _) (Prod.ext hok rfl)
  exact ⟨hok, fun later ↦ (hlater later).1⟩

/-- A step of a tree into a stage that fails has no effect but on attachments. It fails with the
first deployer that does: this one's unit, the stage and the cause are given. Those before it have
been called, and are then called to take it back, in reverse order; it itself and those after it are
not. The units up to the one that it fails on are as they were, but for their attachments, and all
others just as they were. Assumes: a tree that lists no unit twice, as every tree of a sound forest
does (`Forest.Sound.nodup_tree`), and units on which nobody is at work and that bear no mark of the
stage. -/
theorem enterStage_unwinds {failure : Failure} (hnodup : (s.forest.tree root).Nodup)
    (unmarked : s.Unmarked stage (s.forest.tree root))
    (unworked : ∀ h ∈ s.forest.tree root, ∀ u, s.forest.get? h = some u → u.stepping = none)
    (henter : enterStage crew root stage s = (.error failure, t)) :
    ∃ called m pre h post u d cause, s.forest.tree root = pre ++ h :: post ∧
      s.forest.get? h = some u ∧ failure = ⟨u.name, stage, cause⟩ ∧
      BalksEach crew stage (s.ambient.roster.atStage stage) called pre h u d cause s m ∧
      Treated (fun _ u v ↦ v = { u with attachments := v.attachments }) (pre ++ [h]) s t
        (s.callsOn (pre ++ [h]) (enterCalls stage called) ++
          [.deploying d u.id u.name stage, .deployFailed d u.id u.name stage cause] ++
          (s.callsOn (pre ++ [h]) (backCalls stage called)).reverse) := by
  rcases enterStage_turns crew stage hnodup with ⟨_, _, heq, _⟩ |
    ⟨called, m, t', pre, h, post, u, d, cause, hsplit, heq, hbalks, hpre, hleft⟩
  · rw [heq] at henter
    exact absurd (congrArg Prod.fst henter) (by simp)
  · obtain ⟨hfailure, rfl⟩ := Prod.mk.inj (heq.symm.trans henter)
    have hsub : ∀ k ∈ pre ++ [h], k ∈ s.forest.tree root := fun k hk ↦ by
      rw [hsplit, List.append_cons]
      exact List.mem_append_left _ hk
    have unmarked' : s.Unmarked stage (pre ++ [h]) := fun k hk ↦ unmarked k (hsub k hk)
    obtain ⟨hu, hentered⟩ := hbalks.treated hpre
    rw [hentered.callsOn_leave unmarked'] at hleft
    have hunwound := (hentered.left stage hleft).unwound unmarked'
    refine ⟨called, m, pre, h, post, u, d, cause, hsplit, hu, (Except.error.inj hfailure).symm,
      hbalks, hunwound.shape, hunwound.other, fun {k w} hk hw ↦ ?_, hunwound.ambient⟩
    obtain ⟨v, hv, heq⟩ := hunwound.each hk hw
    rw [← unworked k (hsub k hk) w hw] at heq
    exact ⟨v, hv, heq⟩

/-- A deployer that fails on the last unit of the tree, after another. -/
def clumsy : List (Deployer Unit) :=
  [⟨{ name := "stamp", stage := ⟨"Parse", 1⟩ }, ()⟩,
    ⟨{ name := "plugin", stage := ⟨"Parse", 1⟩ }, ()⟩]

theorem enterStage_unwinds_bench :
    (enterStage keen 0 ⟨"Parse", 1⟩ (bench clumsy)).1 =
        .error ⟨"plugin", ⟨"Parse", 1⟩, ⟨"refused", []⟩⟩ ∧
      ∀ h v, (enterStage keen 0 ⟨"Parse", 1⟩ (bench clumsy)).2.forest.get? h = some v →
        ∃ u, (bench clumsy).forest.get? h = some u ∧
          v = { u with attachments := v.attachments } := by
  have herror : (enterStage keen 0 ⟨"Parse", 1⟩ (bench clumsy)).1 =
      .error ⟨"plugin", ⟨"Parse", 1⟩, ⟨"refused", []⟩⟩ := rfl
  obtain ⟨_, _, _, _, _, _, _, _, _, _, _, _, htreated⟩ := enterStage_unwinds
    (bench_fresh clumsy).1 (unmarked_bench clumsy _)
    (fun h hh u hu ↦ ((bench_fresh clumsy).2 h hh u hu).2.2) (Prod.ext herror rfl)
  refine ⟨herror, fun h v hv ↦ ?_⟩
  obtain ⟨u, hu, ⟨_, heq⟩ | ⟨_, rfl⟩⟩ := htreated.exists_get? hv
  · exact ⟨u, hu, heq⟩
  · exact ⟨v, hu, rfl⟩

end Site

end Rollout
