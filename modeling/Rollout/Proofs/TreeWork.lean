import Rollout.Proofs.ForestShape
import Rollout.Proofs.UnitWork
import Rollout.Site

/-!
Work on whole trees. A tree that enters a stage either has every unit enter it, in tree order, or
some unit fails, and then this one and those before it have left the stage again, the last one
first. A tree that leaves a stage has every unit leave it, in reverse tree order. The shape of the
forest and all units that are not worked on stay as they are.
-/

set_option autoImplicit false
set_option relaxedAutoImplicit false

namespace Rollout.Site

open LiveUnit

variable {β σ : Type} {s t : Site β σ}

/-- The units on some handles have been worked on, each to the same effect, with these calls. -/
structure Treated (effect : Handle → LiveUnit β → LiveUnit β → Prop) (hs : List Handle)
    (s t : Site β σ) (calls : List (Entry β)) : Prop where
  shape : s.forest.SameShape t.forest
  other : ∀ {h : Handle}, h ∉ hs → t.forest.get? h = s.forest.get? h
  each : ∀ {h : Handle} {u : LiveUnit β}, h ∈ hs → s.forest.get? h = some u →
    ∃ v, t.forest.get? h = some v ∧ effect h u v
  ambient : s.ambient.Passed t.ambient calls

/-- What some calls on every unit of some handles come to. -/
def callsOn (s : Site β σ) (hs : List Handle) (calls : Handle → LiveUnit β → List (Entry β)) :
    List (Entry β) :=
  hs.flatMap fun h ↦ (s.forest.get? h).elim [] (calls h)

theorem callsOn_cons (s : Site β σ) (h : Handle) (hs : List Handle)
    (calls : Handle → LiveUnit β → List (Entry β)) :
    s.callsOn (h :: hs) calls = (s.forest.get? h).elim [] (calls h) ++ s.callsOn hs calls := rfl

theorem callsOn_congr {hs : List Handle} {calls : Handle → LiveUnit β → List (Entry β)}
    (same : ∀ h ∈ hs, t.forest.get? h = s.forest.get? h) :
    t.callsOn hs calls = s.callsOn hs calls := by
  unfold callsOn
  refine List.flatMap_congr fun h hh ↦ ?_
  rw [same h hh]

/-- The calls on some handles are calls on the units that live there. -/
theorem mem_callsOn {hs : List Handle} {calls : Handle → LiveUnit β → List (Entry β)}
    {e : Entry β} :
    e ∈ s.callsOn hs calls ↔ ∃ h ∈ hs, ∃ u, s.forest.get? h = some u ∧ e ∈ calls h u := by
  unfold callsOn
  rw [List.mem_flatMap]
  refine exists_congr fun h ↦ and_congr_right fun _ ↦ ?_
  cases s.forest.get? h with
  | none => simp
  | some u => simp

theorem Treated.nil {effect : Handle → LiveUnit β → LiveUnit β → Prop} (s : Site β σ) :
    Treated effect [] s s [] :=
  ⟨.refl _, fun _ ↦ rfl, fun hh ↦ absurd hh List.not_mem_nil, .refl _⟩

/-- A slot without a unit is passed over. -/
theorem Treated.skip {effect : Handle → LiveUnit β → LiveUnit β → Prop} {h : Handle}
    {hs : List Handle} {calls : List (Entry β)} (hnone : s.forest.get? h = none)
    (rest : Treated effect hs s t calls) : Treated effect (h :: hs) s t calls := by
  refine ⟨rest.shape, fun hk ↦ rest.other fun hmem ↦ hk (List.mem_cons_of_mem _ hmem),
    fun {k u} hk hu ↦ ?_, rest.ambient⟩
  rcases List.mem_cons.1 hk with rfl | hk
  · rw [hnone] at hu
    exact absurd hu (by simp)
  · exact rest.each hk hu

theorem Treated.exists_of_mem {effect : Handle → LiveUnit β → LiveUnit β → Prop} {h : Handle}
    {hs : List Handle} {calls : List (Entry β)} (treated : Treated effect hs s t calls)
    (hh : h ∈ hs) {v : LiveUnit β} (hv : t.forest.get? h = some v) :
    ∃ u, s.forest.get? h = some u ∧ effect h u v := by
  obtain ⟨u, hu, _⟩ := treated.shape.exists_get? hv
  obtain ⟨v', hv', heffect⟩ := treated.each hh hu
  obtain rfl := Option.some_inj.1 (hv.symm.trans hv')
  exact ⟨u, hu, heffect⟩

/-- Every unit that is there afterwards was there before, and has either been worked on or been left
alone. -/
theorem Treated.exists_get? {effect : Handle → LiveUnit β → LiveUnit β → Prop} {h : Handle}
    {hs : List Handle} {calls : List (Entry β)} (treated : Treated effect hs s t calls)
    {v : LiveUnit β} (hv : t.forest.get? h = some v) :
    ∃ u, s.forest.get? h = some u ∧ (h ∈ hs ∧ effect h u v ∨ h ∉ hs ∧ v = u) := by
  by_cases hh : h ∈ hs
  · obtain ⟨u, hu, heffect⟩ := treated.exists_of_mem hh hv
    exact ⟨u, hu, Or.inl ⟨hh, heffect⟩⟩
  · exact ⟨v, (treated.other hh).symm.trans hv, Or.inr ⟨hh, rfl⟩⟩

/-- Work on one unit, put back into its slot, and then on others. -/
theorem Treated.cons {effect : Handle → LiveUnit β → LiveUnit β → Prop} {h : Handle}
    {hs : List Handle} {first rest : List (Entry β)} {u v : LiveUnit β} {a : Ambient β σ}
    (hu : s.forest.get? h = some u) (hh : h ∉ hs) (hnode : v.toNode = u.toNode)
    (heffect : effect h u v) (hpassed : s.ambient.Passed a first)
    (treated : Treated effect hs ⟨s.forest.put h v, a⟩ t rest) :
    Treated effect (h :: hs) s t (first ++ rest) := by
  have hlt : h < s.forest.slots.length := Forest.lt_length_of_node? (Forest.node?_of_get? hu)
  refine ⟨(Forest.sameShape_put hu hnode).trans treated.shape, fun {k} hk ↦ ?_,
    fun {k w} hk hw ↦ ?_, hpassed.trans treated.ambient⟩
  · rw [List.mem_cons, not_or] at hk
    rw [treated.other hk.2, Forest.get?_put, if_neg hk.1]
  · by_cases heq : k = h
    · subst heq
      rw [hu, Option.some_inj] at hw
      subst hw
      refine ⟨v, ?_, heffect⟩
      rw [treated.other hh, Forest.get?_put, if_pos rfl, if_pos hlt]
    · refine treated.each ((List.mem_cons.1 hk).resolve_left heq) ?_
      rw [Forest.get?_put, if_neg heq, hw]

/-- Work on some units and then on others. -/
theorem Treated.append {effect : Handle → LiveUnit β → LiveUnit β → Prop} {hs ks : List Handle}
    {first second : List (Entry β)} {m : Site β σ} (before : Treated effect hs s m first)
    (after : Treated effect ks m t second) (apart : ∀ h ∈ hs, h ∉ ks) :
    Treated effect (hs ++ ks) s t (first ++ second) := by
  refine ⟨before.shape.trans after.shape, fun {h} hh ↦ ?_, fun {h u} hh hu ↦ ?_,
    before.ambient.trans after.ambient⟩
  · rw [List.mem_append, not_or] at hh
    exact (after.other hh.2).trans (before.other hh.1)
  · by_cases hk : h ∈ ks
    · exact after.each hk ((before.other fun hmem ↦ apart h hmem hk).trans hu)
    · obtain ⟨v, hv, heffect⟩ := before.each ((List.mem_append.1 hh).resolve_right hk) hu
      exact ⟨v, (after.other hk).trans hv, heffect⟩

theorem get?_put_of_notMem {h : Handle} {hs : List Handle} (hh : h ∉ hs) (f : Forest β)
    (v : LiveUnit β) : ∀ k ∈ hs, (f.put h v).get? k = f.get? k := by
  intro k hk
  have hne : k ≠ h := fun heq ↦ hh (heq ▸ hk)
  rw [Forest.get?_put, if_neg hne]

variable (crew : Crew β σ) (stage : Stage)

/-- The calls by which units leave a stage. -/
def leaveCalls (_ : Handle) (u : LiveUnit β) : List (Entry β) :=
  u.undeployCalls stage (u.appliedAt stage).reverse

/-- The calls by which units enter a stage with the deployers that are applied to each. -/
def enterCalls (done : Handle → List (Deployer β)) (h : Handle) (u : LiveUnit β) :
    List (Entry β) :=
  u.deployCalls stage (done h)

/-- How many deployers are recorded for a stage on the units of some handles. -/
def recorded (s : Site β σ) (hs : List Handle) : Nat :=
  (hs.flatMap fun h ↦ (s.forest.get? h).elim [] fun u ↦ u.appliedAt stage).length

theorem leaveEach_spec {hs : List Handle} (hnodup : hs.Nodup) (s : Site β σ) :
    Treated (fun _ ↦ Left stage) hs s (leaveEach crew stage hs s).2
        (s.callsOn hs (leaveCalls stage)) ∧
      (leaveEach crew stage hs s).1 = recorded stage s hs := by
  induction hs generalizing s with
  | nil => exact ⟨.nil s, rfl⟩
  | cons h hs ih =>
    rw [List.nodup_cons] at hnodup
    unfold leaveEach
    rw [callsOn_cons]
    cases hu : s.forest.get? h with
    | none =>
      obtain ⟨htreated, hcount⟩ := ih hnodup.2 s
      refine ⟨htreated.skip hu, ?_⟩
      simp [recorded, hcount, hu]
    | some u =>
      obtain ⟨hleft, hpassed⟩ := crew.leaveUnit_spec stage u s.ambient
      obtain ⟨htreated, hcount⟩ := ih hnodup.2 ⟨s.forest.put h (crew.leaveUnit stage u s.ambient).1,
        (crew.leaveUnit stage u s.ambient).2⟩
      have hsame := get?_put_of_notMem hnodup.1 s.forest (crew.leaveUnit stage u s.ambient).1
      rw [callsOn_congr hsame] at htreated
      refine ⟨.cons hu hnodup.1 hleft.node hleft hpassed htreated, ?_⟩
      simp only
      rw [hcount]
      unfold recorded
      rw [List.flatMap_cons, List.length_append, hu]
      congr 2
      refine List.flatMap_congr fun k hk ↦ ?_
      rw [hsame k hk]

/-- Units on some handles enter a stage, one after another: on each of them, some deployers have
their turn. -/
inductive AppliesEach (ds : List (Deployer β)) (called : Handle → List (Deployer β)) :
    List Handle → Site β σ → Site β σ → Prop
  | nil {s : Site β σ} : AppliesEach ds called [] s s
  | skip {h : Handle} {hs : List Handle} {s t : Site β σ} : s.forest.get? h = none →
    AppliesEach ds called hs s t → AppliesEach ds called (h :: hs) s t
  | enter {h : Handle} {hs : List Handle} {s t : Site β σ} {u v : LiveUnit β} {a : Ambient β σ} :
    s.forest.get? h = some u →
      crew.Applies stage ds (u.working (some stage)) s.ambient (called h) v a →
      AppliesEach ds called hs ⟨s.forest.put h (v.working none), a⟩ t →
      AppliesEach ds called (h :: hs) s t

variable {crew stage} {ds : List (Deployer β)} {called : Handle → List (Deployer β)}
  {hs : List Handle}

theorem AppliesEach.congr {other : Handle → List (Deployer β)}
    (applies : AppliesEach crew stage ds called hs s t) (same : ∀ h ∈ hs, other h = called h) :
    AppliesEach crew stage ds other hs s t := by
  induction applies with
  | nil => exact .nil
  | skip hu _ ih => exact .skip hu (ih fun h hh ↦ same h (List.mem_cons_of_mem _ hh))
  | enter hu hunit _ ih =>
    refine .enter hu ?_ (ih fun h hh ↦ same h (List.mem_cons_of_mem _ hh))
    rwa [same _ List.mem_cons_self]

/-- The deployers called on one unit can be told apart from those called on others. -/
theorem AppliesEach.update {h : Handle} (hh : h ∉ hs) (done : List (Deployer β))
    (applies : AppliesEach crew stage ds called hs s t) :
    AppliesEach crew stage ds (Function.update called h done) hs s t :=
  applies.congr fun k hk ↦ Function.update_of_ne (fun heq : k = h ↦ hh (heq ▸ hk)) _ _

/-- Every unit has then entered the stage, with the deployers that were called. -/
theorem AppliesEach.treated (hnodup : hs.Nodup)
    (applies : AppliesEach crew stage ds called hs s t) :
    Treated (fun h ↦ Entered stage (called h)) hs s t (s.callsOn hs (enterCalls stage called)) := by
  induction applies with
  | nil => exact .nil _
  | skip hu _ ih =>
    rw [callsOn_cons, hu]
    exact (ih (List.nodup_cons.1 hnodup).2).skip hu
  | @enter h hs s t u v a hu hunit _ ih =>
    obtain ⟨hh, hrest⟩ := List.nodup_cons.1 hnodup
    have htreated := ih hrest
    rw [callsOn_congr (get?_put_of_notMem hh s.forest (v.working none))] at htreated
    rw [callsOn_cons, hu]
    exact .cons hu hh hunit.entered.node hunit.entered hunit.spec.2.2 htreated

/-- Of some units that are to enter a stage those before one have entered it, and on this one a
deployer fails. -/
def BalksEach (crew : Crew β σ) (stage : Stage) (ds : List (Deployer β))
    (called : Handle → List (Deployer β)) (pre : List Handle) (h : Handle) (u : LiveUnit β)
    (d : Deployer β) (cause : Cause) (s t : Site β σ) : Prop :=
  ∃ m v a, AppliesEach crew stage ds called pre s m ∧ m.forest.get? h = some u ∧
    crew.Balks stage ds (u.working (some stage)) m.ambient (called h) d cause v a ∧
    t = ⟨m.forest.put h (v.working none), a⟩

/-- Up to this one, every unit has then entered the stage, with the deployers that were called. -/
theorem BalksEach.treated {pre : List Handle} {h : Handle} {u : LiveUnit β} {d : Deployer β}
    {cause : Cause} (hnodup : (pre ++ [h]).Nodup)
    (balks : BalksEach crew stage ds called pre h u d cause s t) :
    s.forest.get? h = some u ∧
      Treated (fun h ↦ Entered stage (called h)) (pre ++ [h]) s t
        (s.callsOn (pre ++ [h]) (enterCalls stage called) ++
          [.deploying d u.id u.name stage, .deployFailed d u.id u.name stage cause]) := by
  obtain ⟨m, v, a, happlies, hu, hbalks, rfl⟩ := balks
  obtain ⟨hpre, _, hne⟩ := List.nodup_append.1 hnodup
  have hapart : ∀ k ∈ pre, k ∉ [h] := fun k hk hmem ↦ hne k hk k hmem rfl
  have hh : h ∉ pre := fun hmem ↦ hapart h hmem List.mem_cons_self
  have hfirst := happlies.treated hpre
  have hus : s.forest.get? h = some u := (hfirst.other hh).symm.trans hu
  have hlast : Treated (fun h ↦ Entered stage (called h)) [h] m
      ⟨m.forest.put h (v.working none), a⟩ (u.deployCalls stage (called h) ++
        [.deploying d u.id u.name stage, .deployFailed d u.id u.name stage cause] ++ []) :=
    .cons hu List.not_mem_nil hbalks.entered.node hbalks.entered hbalks.spec.2.2 (.nil _)
  have hcalls : s.callsOn (pre ++ [h]) (enterCalls stage called) =
      s.callsOn pre (enterCalls stage called) ++ u.deployCalls stage (called h) := by
    unfold callsOn
    rw [List.flatMap_append, List.flatMap_singleton, hus]
    rfl
  rw [hcalls, List.append_assoc]
  rw [List.append_nil] at hlast
  exact ⟨hus, hfirst.append hlast hapart⟩

variable (crew stage)

/-- How it ends when several units are to enter a stage: either all of them do, or a deployer fails
on one of them, and this one and those before it leave the stage, the last one first. -/
theorem enterEach_cases (ds : List (Deployer β)) {hs : List Handle} (hnodup : hs.Nodup)
    (before : List Handle) (count : Nat) (s : Site β σ) :
    (∃ called t, enterEach crew stage ds hs before count s =
        (.ok (count + recorded stage t hs), t) ∧ AppliesEach crew stage ds called hs s t) ∨
      ∃ called t pre h post u d cause, hs = pre ++ h :: post ∧
        enterEach crew stage ds hs before count s = (.error ⟨u.name, stage, cause⟩,
          (leaveEach crew stage (h :: (pre.reverse ++ before)) t).2) ∧
        BalksEach crew stage ds called pre h u d cause s t := by
  induction hs generalizing before count s with
  | nil => exact Or.inl ⟨fun _ ↦ [], s, rfl, .nil⟩
  | cons h hs ih =>
    obtain ⟨hh, hrest⟩ := List.nodup_cons.1 hnodup
    unfold enterEach
    cases hu : s.forest.get? h with
    | none =>
      rcases ih hrest (h :: before) count s with ⟨called, t, heq, happlies⟩ |
        ⟨called, t, pre, k, post, u, d, cause, rfl, heq, m, v, a, happlies, hlast⟩
      · have ht : t.forest.get? h = none := by rw [(happlies.treated hrest).other hh, hu]
        refine Or.inl ⟨called, t, ?_, .skip hu happlies⟩
        simp only
        rw [heq]
        simp [recorded, ht]
      · refine Or.inr ⟨called, t, h :: pre, k, post, u, d, cause, rfl, ?_, m, v, a,
          .skip hu happlies, hlast⟩
        simp only
        rw [heq]
        simp
    | some u =>
      unfold Crew.enterUnit
      rcases crew.deployAll_cases stage ds (u.working (some stage)) s.ambient with
        ⟨done, v, a, hdone, hunit⟩ | ⟨done, d, cause, v, a, hdone, hunit⟩
      · simp only [hdone]
        have hlt := Forest.lt_length_of_node? (Forest.node?_of_get? hu)
        rcases ih hrest (h :: before) (count + ((v.working none).appliedAt stage).length)
          ⟨s.forest.put h (v.working none), a⟩ with ⟨called, t, heq, happlies⟩ |
          ⟨called, t, pre, k, post, w, d, cause, rfl, heq, m, w', a', happlies, hk, hlast, rfl⟩
        · have ht : t.forest.get? h = some (v.working none) := by
            rw [(happlies.treated hrest).other hh, Forest.get?_put, if_pos rfl, if_pos hlt]
          refine Or.inl ⟨Function.update called h done, t, ?_, .enter hu ?_ (happlies.update hh _)⟩
          · rw [heq]
            simp [recorded, ht, Nat.add_assoc]
          · rwa [Function.update_self]
        · rw [List.mem_append, List.mem_cons, not_or, not_or] at hh
          refine Or.inr ⟨Function.update called h done, _, h :: pre, k, post, w, d, cause, rfl, ?_,
            m, w', a', .enter hu ?_ (happlies.update hh.1 _), hk, ?_, rfl⟩
          · rw [heq]
            simp
          · rwa [Function.update_self]
          · rwa [Function.update_of_ne (Ne.symm hh.2.1)]
      · simp only [hdone]
        exact Or.inr ⟨fun _ ↦ done, _, [], h, hs, u, d, cause, rfl, rfl, s, v, a, .nil, hu, hunit,
          rfl⟩

/-! Whole trees. -/

theorem Treated.of_mem {effect : Handle → LiveUnit β → LiveUnit β → Prop} {hs ks : List Handle}
    {calls : List (Entry β)} (treated : Treated effect hs s t calls) (same : ∀ h, h ∈ ks ↔ h ∈ hs) :
    Treated effect ks s t calls :=
  ⟨treated.shape, fun hh ↦ treated.other fun hmem ↦ hh ((same _).2 hmem),
    fun hh hu ↦ treated.each ((same _).1 hh) hu, treated.ambient⟩

/-- Units that enter a stage and leave it again have left it. -/
theorem Treated.left {done : Handle → List (Deployer β)} {hs : List Handle} {m : Site β σ}
    {first second : List (Entry β)}
    (entered : Treated (fun h ↦ Entered stage (done h)) hs s m first)
    (left : Treated (fun _ ↦ Left stage) hs m t second) :
    Treated (fun _ ↦ Left stage) hs s t (first ++ second) := by
  refine ⟨entered.shape.trans left.shape, fun hh ↦ (left.other hh).trans (entered.other hh),
    fun hh hu ↦ ?_, entered.ambient.trans left.ambient⟩
  obtain ⟨v, hv, hentered⟩ := entered.each hh hu
  obtain ⟨w, hw, hleft⟩ := left.each hh hv
  exact ⟨w, hw, hentered.left hleft⟩

theorem leaveEach_reverse {hs : List Handle} (hnodup : hs.Nodup) (s : Site β σ) :
    Treated (fun _ ↦ Left stage) hs s (leaveEach crew stage hs.reverse s).2
        (s.callsOn hs.reverse (leaveCalls stage)) ∧
      (leaveEach crew stage hs.reverse s).1 = recorded stage s hs := by
  have hreverse := (List.reverse_perm hs).nodup_iff.2 hnodup
  obtain ⟨htreated, hcount⟩ := leaveEach_spec crew stage hreverse s
  refine ⟨htreated.of_mem fun h ↦ List.mem_reverse.symm, hcount.trans ?_⟩
  exact ((List.reverse_perm hs).flatMap_right _).length_eq

variable {root : Handle}

/-- A tree leaves a stage: every unit does, and as many deployers are taken back as are recorded. -/
theorem leaveStage_spec (hnodup : (s.forest.tree root).Nodup) :
    Treated (fun _ ↦ Left stage) (s.forest.tree root) s (leaveStage crew root stage s).2
        (s.callsOn (s.forest.tree root).reverse (leaveCalls stage)) ∧
      (leaveStage crew root stage s).1 = recorded stage s (s.forest.tree root) :=
  leaveEach_reverse crew stage hnodup s

/-- A tree enters a stage with the deployers on the roster at the start, and as many are counted as
are recorded then; or one of them fails, and the units up to the one it fails on leave the stage. -/
theorem enterStage_turns (hnodup : (s.forest.tree root).Nodup) :
    (∃ called t, enterStage crew root stage s = (.ok (recorded stage t (s.forest.tree root)), t) ∧
        AppliesEach crew stage (s.ambient.roster.atStage stage) called (s.forest.tree root) s t) ∨
      ∃ called m t pre h post u d cause, s.forest.tree root = pre ++ h :: post ∧
        enterStage crew root stage s = (.error ⟨u.name, stage, cause⟩, t) ∧
        BalksEach crew stage (s.ambient.roster.atStage stage) called pre h u d cause s m ∧
        (pre ++ [h]).Nodup ∧
        Treated (fun _ ↦ Left stage) (pre ++ [h]) m t
          (m.callsOn (pre ++ [h]).reverse (leaveCalls stage)) := by
  rcases enterEach_cases crew stage (s.ambient.roster.atStage stage) hnodup [] 0 s with
    ⟨called, t, heq, happlies⟩ | ⟨called, m, pre, h, post, u, d, cause, hsplit, heq, hbalks⟩
  · rw [Nat.zero_add] at heq
    exact Or.inl ⟨called, t, heq, happlies⟩
  · have hpre : (pre ++ [h]).Nodup := by
      rw [hsplit, List.append_cons] at hnodup
      exact (List.nodup_append.1 hnodup).1
    rw [List.append_nil, ← List.reverse_concat] at heq
    exact Or.inr ⟨called, m, _, pre, h, post, u, d, cause, hsplit, heq, hbalks, hpre,
      (leaveEach_reverse crew stage hpre m).1⟩

/-- A tree enters a stage, and as many deployers are applied as are recorded then; or one of its
units fails, and the units up to this one have entered the stage and left it again. -/
theorem enterStage_cases (hnodup : (s.forest.tree root).Nodup) :
    (∃ done t, enterStage crew root stage s =
        (.ok (recorded stage t (s.forest.tree root)), t) ∧
        Treated (fun h ↦ Entered stage (done h)) (s.forest.tree root) s t
          (s.callsOn (s.forest.tree root) (enterCalls stage done))) ∨
      ∃ done m t pre h post u d cause, s.forest.tree root = pre ++ h :: post ∧
        s.forest.get? h = some u ∧
        enterStage crew root stage s = (.error ⟨u.name, stage, cause⟩, t) ∧
        Treated (fun h ↦ Entered stage (done h)) (pre ++ [h]) s m
          (s.callsOn (pre ++ [h]) (enterCalls stage done) ++
            [.deploying d u.id u.name stage, .deployFailed d u.id u.name stage cause]) ∧
        Treated (fun _ ↦ Left stage) (pre ++ [h]) m t
          (m.callsOn (pre ++ [h]).reverse (leaveCalls stage)) := by
  rcases enterStage_turns crew stage hnodup with ⟨called, t, heq, happlies⟩ |
    ⟨called, m, t, pre, h, post, u, d, cause, hsplit, heq, hbalks, hpre, hleft⟩
  · exact Or.inl ⟨called, t, heq, happlies.treated hnodup⟩
  · obtain ⟨hu, htreated⟩ := hbalks.treated hpre
    exact Or.inr ⟨called, m, t, pre, h, post, u, d, cause, hsplit, hu, heq, htreated, hleft⟩

variable {crew stage}

/-- All units of a tree that has entered a stage have entered it. -/
theorem exists_entered {applied : Nat} (hnodup : (s.forest.tree root).Nodup)
    (henter : enterStage crew root stage s = (.ok applied, t)) :
    ∃ done, Treated (fun h ↦ Entered stage (done h)) (s.forest.tree root) s t
      (s.callsOn (s.forest.tree root) (enterCalls stage done)) := by
  rcases enterStage_cases crew stage hnodup with
    ⟨done, m, heq, htreated⟩ | ⟨_, _, _, _, _, _, _, _, _, _, _, heq, _⟩
  · obtain rfl : m = t := congrArg Prod.snd (heq.symm.trans henter)
    exact ⟨done, htreated⟩
  · rw [heq] at henter
    exact absurd (congrArg Prod.fst henter) (by simp)

/-- Of a tree that has failed to enter a stage the units up to the one that failed have entered the
stage and left it again. -/
theorem exists_undone {failure : Failure} (hnodup : (s.forest.tree root).Nodup)
    (henter : enterStage crew root stage s = (.error failure, t)) :
    ∃ done m pre h u d cause, pre ++ [h] ⊆ s.forest.tree root ∧ s.forest.get? h = some u ∧
      Treated (fun h ↦ Entered stage (done h)) (pre ++ [h]) s m
        (s.callsOn (pre ++ [h]) (enterCalls stage done) ++
          [.deploying d u.id u.name stage, .deployFailed d u.id u.name stage cause]) ∧
      Treated (fun _ ↦ Left stage) (pre ++ [h]) m t
        (m.callsOn (pre ++ [h]).reverse (leaveCalls stage)) := by
  rcases enterStage_cases crew stage hnodup with
    ⟨_, _, heq, _⟩ | ⟨done, m, k, pre, h, post, u, d, cause, hsplit, hu, heq, hentered, hleft⟩
  · rw [heq] at henter
    exact absurd (congrArg Prod.fst henter) (by simp)
  · obtain rfl : k = t := congrArg Prod.snd (heq.symm.trans henter)
    refine ⟨done, m, pre, h, u, d, cause, fun l hl ↦ ?_, hu, hentered, hleft⟩
    rw [hsplit, List.append_cons]
    exact List.mem_append_left _ hl

end Rollout.Site
