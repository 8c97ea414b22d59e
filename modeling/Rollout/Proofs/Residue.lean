import Mathlib.Data.List.Forall2
import Rollout.Proofs.Deeds
import Rollout.Proofs.Requests
import Rollout.Proofs.StandingNeeds

/-!
Nothing is left behind. A unit of a deployment bears what it was described with and what the stages
that its tree has entered have left on it, and nothing else: whether a unit of the tree fails, or
one that had done its work before it, or the tree is taken down by as many stages as it may be, no
record and no need of a stage that the tree is not in stays on any unit, and no unit stays marked as
being worked on.
-/

set_option autoImplicit false
set_option relaxedAutoImplicit false

namespace Rollout

variable {β σ : Type}

namespace Blueprint

mutual

/-- The descriptions of all units in tree order. -/
def parts : Blueprint → List Blueprint
  | mk name attachments demands components children =>
    mk name attachments demands components children ::
      (partsOfAll components ++ partsOfAll children)

/-- The descriptions of all units of several trees. -/
def partsOfAll : List Blueprint → List Blueprint
  | [] => []
  | b :: bs => b.parts ++ partsOfAll bs

end

/-- The needs that the unit on top is described with, exact repetitions dropped. -/
def standing (b : Blueprint) : List Need :=
  (b.demands.map (Need.of b.name · none)).eraseDups

end Blueprint

namespace Chain

/-- A stage of the chain above the floor that has been entered on the way to a stage. -/
def Reached (chain : Chain) (stage entered : Stage) : Prop :=
  entered ∈ chain.stages ∧ Stage.floor < entered ∧ entered ≤ stage

variable {chain : Chain} {stage next below entered : Stage}

theorem reached_iff (hstage : chain.contains stage = true) :
    chain.Reached stage entered ↔
      chain.contains entered = true ∧ 0 < entered.index ∧ entered.index ≤ stage.index := by
  unfold Reached
  rw [mem_stages_iff]
  refine and_congr_right fun hentered ↦ ?_
  rw [lt_iff_index chain.contains_floor hentered, le_iff_index hentered hstage]
  exact Iff.rfl

theorem Reached.of_next (hreached : chain.Reached stage entered)
    (hstage : chain.contains stage = true) (hnext : chain.next? stage = some next) :
    chain.Reached next entered := by
  obtain ⟨hcontains, hpos, hle⟩ := (reached_iff hstage).1 hreached
  have hindex := index_of_next? hnext
  exact (reached_iff (contains_of_next? hnext)).2 ⟨hcontains, hpos, by omega⟩

theorem reached_self (hnext : chain.next? stage = some next) : chain.Reached next next := by
  have hindex := index_of_next? hnext
  have hcontains := contains_of_next? hnext
  exact (reached_iff hcontains).2 ⟨hcontains, by omega, Nat.le_refl _⟩

theorem Reached.of_prev (hreached : chain.Reached stage entered)
    (hstage : chain.contains stage = true) (hbelow : chain.prev? stage = some below)
    (hne : entered ≠ stage) : chain.Reached below entered := by
  obtain ⟨hcontains, hpos, hle⟩ := (reached_iff hstage).1 hreached
  have hindex := index_of_prev? hbelow
  have hne' : entered.index ≠ stage.index := fun heq ↦ hne (eq_of_index_eq hcontains hstage heq)
  exact (reached_iff (contains_of_prev? hbelow)).2 ⟨hcontains, hpos, by omega⟩

end Chain

namespace LiveUnit

/-- A unit of a tree at a stage bears nothing but what it was described with and what the stages up
to this one have left on it. -/
structure Clean (chain : Chain) (stage : Stage) (part : Blueprint) (u : LiveUnit β) : Prop where
  name : u.name = part.name
  stepping : u.stepping = none
  applied : ∀ a ∈ u.applied, chain.Reached stage a.stage
  declared : ∀ n ∈ u.needs, ∀ entered, n.declaredAt = some entered → chain.Reached stage entered
  standing : u.needs.filter (fun n ↦ n.declaredAt.isNone) = part.standing

variable {chain : Chain} {stage next below : Stage} {part : Blueprint} {u v : LiveUnit β}
  {ds : List (Deployer β)}

/-- Forgetting a stage takes nothing away that no stage declared. -/
theorem filter_forget (needs : List Need) (stage : Stage) :
    (Need.forget needs stage).filter (fun n ↦ n.declaredAt.isNone) =
      needs.filter fun n ↦ n.declaredAt.isNone := by
  unfold Need.forget
  rw [List.filter_filter]
  refine List.filter_congr fun n _ ↦ ?_
  cases n.declaredAt <;> simp

/-- A unit that enters the next stage bears what this stage has left on it besides. -/
theorem Clean.entered (clean : Clean chain stage part u) (entered : Entered next ds u v)
    (hstage : chain.contains stage = true) (hnext : chain.next? stage = some next) :
    Clean chain next part v := by
  obtain ⟨more, hmore, hmark⟩ := entered.needs
  refine ⟨entered.name.trans clean.name, entered.stepping, fun a ha ↦ ?_, fun n hn k hk ↦ ?_, ?_⟩
  · rw [entered.applied] at ha
    rcases List.mem_append.1 ha with ha | ha
    · exact (clean.applied a ha).of_next hstage hnext
    · obtain ⟨_, _, rfl⟩ := List.mem_map.1 ha
      exact Chain.reached_self hnext
  · rw [hmore] at hn
    rcases List.mem_append.1 hn with hn | hn
    · exact (clean.declared n hn k hk).of_next hstage hnext
    · rw [hmark n hn] at hk
      obtain rfl := Option.some_inj.1 hk
      exact Chain.reached_self hnext
  · have hnone : more.filter (fun n ↦ n.declaredAt.isNone) = [] := by
      rw [List.filter_eq_nil_iff]
      intro n hn
      simp [hmark n hn]
    rw [hmore, List.filter_append, hnone, List.append_nil]
    exact clean.standing

/-- A unit that leaves a stage bears what was there, but nothing of that stage. -/
theorem Left.clean {left : Stage} (hleft : Left left u v) (clean : Clean chain stage part u)
    {goal : Stage} (hgoal : ∀ k, chain.Reached stage k → k ≠ left → chain.Reached goal k) :
    Clean chain goal part v := by
  have hname : v.name = u.name := by rw [hleft.node]
  refine ⟨hname.trans clean.name, hleft.stepping, fun a ha ↦ ?_, fun n hn k hk ↦ ?_, ?_⟩
  · rw [hleft.applied] at ha
    obtain ⟨ha, hne⟩ := List.mem_filter.1 ha
    exact hgoal _ (clean.applied a ha) (by simpa using hne)
  · rw [hleft.needs] at hn
    obtain ⟨hn, hne⟩ := Need.mem_forget.1 hn
    exact hgoal k (clean.declared n hn k hk) fun heq ↦ hne (heq ▸ hk)
  · rw [hleft.needs, filter_forget]
    exact clean.standing

end LiveUnit

namespace Layout

/-- The units of a tree that is laid out are clean, each as its part of the blueprint has it. -/
theorem clean_cons {chain : Chain} {part : Blueprint} {parts : List Blueprint} {u : LiveUnit β}
    {us : List (LiveUnit β)} (hname : u.name = part.name) (hstepping : u.stepping = none)
    (happlied : u.applied = [])
    (hneeds : u.needs = Need.distinct (part.demands.map (Need.of part.name · none)))
    (rest : List.Forall₂ (LiveUnit.Clean chain Stage.floor) parts us) :
    List.Forall₂ (LiveUnit.Clean chain Stage.floor) (part :: parts) (u :: us) := by
  have hnone : ∀ n ∈ u.needs, n.declaredAt = none := fun n hn ↦ by
    rw [hneeds, mem_distinct] at hn
    obtain ⟨_, _, rfl⟩ := List.mem_map.1 hn
    rfl
  refine .cons ⟨hname, hstepping, ?_, fun n hn k hk ↦ ?_, ?_⟩ rest
  · simp [happlied]
  · rw [hnone n hn] at hk
    exact absurd hk (by simp)
  · rw [List.filter_eq_self.2 fun n hn ↦ by simp [hnone n hn], hneeds, Need.distinct_eq_eraseDups]
    rfl

mutual

theorem clean_tree (chain : Chain) (kind : Kind) (parent top : Option Handle) (s : Stock)
    (b : Blueprint) : List.Forall₂ (LiveUnit.Clean chain Stage.floor) b.parts
      (tree kind parent top s b : Layout β).units := by
  match b with
  | .mk name attachments demands components children =>
    simp only [tree, Blueprint.parts]
    refine clean_cons rfl rfl rfl rfl (List.rel_append ?_ ?_)
    · exact clean_trees chain .component _ _ _ components
    · exact clean_trees chain .child _ _ _ children

theorem clean_trees (chain : Chain) (kind : Kind) (parent top : Handle) (s : Stock)
    (bs : List Blueprint) :
    List.Forall₂ (LiveUnit.Clean chain Stage.floor) (Blueprint.partsOfAll bs)
      (trees kind parent top s bs : Layout β).units := by
  match bs with
  | [] => exact .nil
  | b :: rest =>
    simp only [trees, Blueprint.partsOfAll]
    refine List.rel_append ?_ ?_
    · exact clean_tree chain kind _ _ s b
    · exact clean_trees chain kind parent top _ rest

end

end Layout

/-- What is said of the units of a tree, each by its part of a list, carries over where each unit
carries it over. -/
theorem Forest.SameShape.forall₂_treeUnits {γ : Type} {f g : Forest β} (same : f.SameShape g)
    {holds holds' : γ → LiveUnit β → Prop} {parts : List γ} {root : Handle}
    (heach : ∀ h ∈ f.tree root, ∀ u, f.get? h = some u →
      ∃ v, g.get? h = some v ∧ ∀ part, holds part u → holds' part v)
    (hall : List.Forall₂ holds parts (f.treeUnits root)) :
    List.Forall₂ holds' parts (g.treeUnits root) := by
  unfold treeUnits at hall ⊢
  rw [← same.tree]
  generalize f.tree root = hs at heach hall
  induction hs generalizing parts with
  | nil => simpa using hall
  | cons h hs ih =>
    have hrest := fun k hk ↦ heach k (List.mem_cons_of_mem _ hk)
    cases hu : f.get? h with
    | none =>
      have hnone := Forest.get?_eq_none_iff.1 hu
      rw [same.node?, ← Forest.get?_eq_none_iff] at hnone
      rw [List.filterMap_cons_none hu] at hall
      rw [List.filterMap_cons_none hnone]
      exact ih hrest hall
    | some u =>
      obtain ⟨v, hv, himp⟩ := heach h List.mem_cons_self u hu
      rw [List.filterMap_cons_some hu, List.forall₂_cons_right_iff] at hall
      obtain ⟨part, parts, hholds, hall, rfl⟩ := hall
      rw [List.filterMap_cons_some hv]
      exact .cons (himp part hholds) (ih hrest hall)

namespace Entry

/-- The blueprint of the tree that was planted on a handle. -/
def plan? (root : Handle) : Entry β → Option Blueprint
  | added top plan _ _ => if top = root then some plan else none
  | _ => none

theorem plan?_eq_none {e : Entry β} {root : Handle} (h : e.plants root = false) :
    e.plan? root = none := by
  cases e <;> first | rfl | skip
  simpa [plants, plan?] using h

end Entry

/-- The blueprint of the tree that was last planted on a handle. -/
def planned? (root : Handle) (es : List (Entry β)) : Option Blueprint :=
  es.reverse.findSome? (Entry.plan? root)

theorem planned?_append {root : Handle} {es fs : List (Entry β)}
    (h : ∀ e ∈ fs, e.plants root = false) : planned? root (es ++ fs) = planned? root es := by
  have hnone : fs.reverse.findSome? (Entry.plan? root) = none := by
    rw [List.findSome?_eq_none_iff]
    exact fun e he ↦ Entry.plan?_eq_none (h e (List.mem_reverse.1 he))
  unfold planned?
  rw [List.reverse_append, List.findSome?_append, hnone, Option.none_or]

theorem planned?_added (root : Handle) (es : List (Entry β)) (plan : Blueprint) (units : Nat)
    (target : Stage) : planned? root (es ++ [.added root plan units target]) = some plan := by
  unfold planned?
  simp [Entry.plan?]

namespace Controller

variable {crew : Crew β σ} {c d : Controller β σ} {h root : Handle} {p q : Progress}
  {stage : Stage} {es : List (Entry β)} {next : Stage} {applied : Nat} {site : Site β σ}

/-- All units of a tree at a stage are clean, each as its part of the blueprint that was planted
has it. -/
def Clean (c : Controller β σ) (root : Handle) (stage : Stage) : Prop :=
  ∃ plan, planned? root c.journal.toList = some plan ∧
    List.Forall₂ (LiveUnit.Clean c.chain stage) plan.parts (c.forest.treeUnits root)

/-- A tree whose units all carry over what they bear is as clean as it was. -/
theorem Clean.moved (clean : c.Clean root stage) {goal : Stage}
    (hes : d.journal.toList = c.journal.toList ++ es) (hquiet : ∀ e ∈ es, e.isQuiet = true)
    (hchain : d.chain = c.chain) (shape : c.forest.SameShape d.forest)
    (heach : ∀ k ∈ c.forest.tree root, ∀ u, c.forest.get? k = some u →
      ∃ v, d.forest.get? k = some v ∧
        ∀ part, u.Clean c.chain stage part → v.Clean c.chain goal part) :
    d.Clean root goal := by
  obtain ⟨plan, hplan, hall⟩ := clean
  refine ⟨plan, ?_, ?_⟩
  · rw [hes, planned?_append fun e he ↦ Entry.plants_of_isQuiet (hquiet e he) root, hplan]
  · rw [hchain]
    exact shape.forall₂_treeUnits heach hall

theorem Clean.still (clean : c.Clean root stage)
    (hes : d.journal.toList = c.journal.toList ++ es) (hplants : ∀ e ∈ es, e.plants root = false)
    (hchain : d.chain = c.chain) (hunits : d.forest.treeUnits root = c.forest.treeUnits root) :
    d.Clean root stage := by
  obtain ⟨plan, hplan, hall⟩ := clean
  refine ⟨plan, ?_, ?_⟩
  · rw [hes, planned?_append hplants, hplan]
  · rw [hchain, hunits]
    exact hall

theorem Clean.exists_part (clean : c.Clean root stage) {u : LiveUnit β}
    (hu : u ∈ c.forest.treeUnits root) : ∃ part, u.Clean c.chain stage part := by
  obtain ⟨plan, _, hall⟩ := clean
  generalize plan.parts = parts at hall
  generalize c.forest.treeUnits root = us at hu hall
  induction hall with
  | nil => exact absurd hu List.not_mem_nil
  | cons hclean _ ih =>
    rcases List.mem_cons.1 hu with rfl | hu
    · exact ⟨_, hclean⟩
    · exact ih hu

/-! One tree. -/

theorem Clean.lowered (clean : c.Clean p.root p.stage) (sound : c.Sound) (crew : Crew β σ)
    (hp : c.board.get? p.root = some p) {below : Stage}
    (hbelow : c.chain.prev? p.stage = some below) :
    (c.lowered crew p below).Clean p.root below := by
  have htreated := sound.treated_lowered crew p
  obtain ⟨es, hes, hquiet, _⟩ := htreated.ambient.deeds_note
    (.retreated ⟨p.root, p.name, p.stage, below, c.position,
      (c.lowered crew p below).position⟩ (c.site.leaveStage crew p.root p.stage).1) rfl rfl
  refine clean.moved hes hquiet rfl htreated.shape fun k hk u hu ↦ ?_
  obtain ⟨v, hv, hleft⟩ := htreated.each hk hu
  refine ⟨v, hv, fun part hclean ↦ hleft.clean hclean fun t ht hne ↦ ?_⟩
  exact ht.of_prev (sound.stage hp) hbelow hne

/-- The tree that enters a stage is clean there. -/
theorem Clean.raised (clean : c.Clean p.root p.stage) (sound : c.Sound)
    (hp : c.board.get? p.root = some p) (hnext : c.chain.next? p.stage = some next)
    {done : Handle → List (Deployer β)} {calls : List (Entry β)}
    (treated : Site.Treated (fun h ↦ LiveUnit.Entered next (done h)) (c.forest.tree p.root) c.site
      site calls) : (c.raised p next applied site).Clean p.root next := by
  obtain ⟨es, hes, hquiet, _⟩ := treated.ambient.deeds_note
    (.advanced ⟨p.root, p.name, p.stage, next, c.position,
      (c.raised p next applied site).position⟩ applied) rfl rfl
  refine clean.moved hes hquiet rfl treated.shape fun k hk u hu ↦ ?_
  obtain ⟨v, hv, hentered⟩ := treated.each hk hu
  exact ⟨v, hv, fun part hclean ↦ hclean.entered hentered (sound.stage hp) hnext⟩

/-- The tree that fails to enter a stage is clean at the one below. The units that come after the
one that failed have not been touched. -/
theorem Clean.stalled (clean : c.Clean p.root p.stage) {failure : Failure} {hs : List Handle}
    {calls : List (Entry β)}
    (treated : Site.Treated (fun _ ↦ LiveUnit.Left next) hs c.site site calls) :
    (c.stalled p next failure site).Clean p.root p.stage := by
  obtain ⟨es, hes, hquiet, _⟩ := treated.ambient.deeds_note
    (.failed p.root p.name next failure) rfl rfl
  refine clean.moved hes hquiet rfl treated.shape fun k _ u hu ↦ ?_
  by_cases hk : k ∈ hs
  · obtain ⟨v, hv, hleft⟩ := treated.each hk hu
    exact ⟨v, hv, fun part hclean ↦ hleft.clean hclean fun t ht _ ↦ ht⟩
  · exact ⟨u, (treated.other hk).trans hu, fun part hclean ↦ hclean⟩

/-! All trees. -/

/-- The trees of all deployments are clean at the stages that these are at. -/
def AllClean (c : Controller β σ) : Prop :=
  ∀ h p, c.board.get? h = some p → c.Clean h p.stage

/-- Only one tree is worked on at a time. -/
theorem AllClean.moved (clean : c.AllClean) (root : Handle)
    (hes : d.journal.toList = c.journal.toList ++ es) (hquiet : ∀ e ∈ es, e.isQuiet = true)
    (hchain : d.chain = c.chain)
    (hself : ∀ {q : Progress}, d.board.get? root = some q → d.Clean root q.stage)
    (hother : ∀ {h : Handle} {q : Progress}, h ≠ root → d.board.get? h = some q →
      c.board.get? h = some q ∧ d.forest.treeUnits h = c.forest.treeUnits h) : d.AllClean := by
  intro h q hq
  by_cases hne : h = root
  · subst hne
    exact hself hq
  · obtain ⟨hq', hunits⟩ := hother hne hq
    exact (clean h q hq').still hes (fun e he ↦ Entry.plants_of_isQuiet (hquiet e he) h) hchain
      hunits

/-- Nothing is worked on and nothing moves. -/
theorem AllClean.still (clean : c.AllClean) (hes : d.journal.toList = c.journal.toList ++ es)
    (hquiet : ∀ e ∈ es, e.isQuiet = true) (hchain : d.chain = c.chain)
    (hforest : d.forest = c.forest) (hstage : ∀ h, d.board.stage? h = c.board.stage? h) :
    d.AllClean := by
  intro h q hq
  have hsame := hstage h
  unfold Board.stage? at hsame
  rw [hq, Option.map_some, eq_comm, Option.map_eq_some_iff] at hsame
  obtain ⟨p, hp, heq⟩ := hsame
  rw [← heq]
  exact (clean h p hp).still hes (fun e he ↦ Entry.plants_of_isQuiet (hquiet e he) h) hchain
    (by rw [hforest])

theorem AllClean.note (clean : c.AllClean) {entry : Entry β} (hquiet : entry.isQuiet = true) :
    (c.note entry).AllClean := by
  refine clean.still (journal_note c entry) (fun e he ↦ ?_) rfl rfl fun _ ↦ rfl
  rw [List.mem_singleton.1 he]
  exact hquiet

theorem AllClean.lowered (clean : c.AllClean) (sound : c.Sound) (crew : Crew β σ)
    (hp : c.board.get? p.root = some p) {below : Stage}
    (hbelow : c.chain.prev? p.stage = some below) : (c.lowered crew p below).AllClean := by
  have htreated := sound.treated_lowered crew p
  obtain ⟨es, hes, hquiet, _⟩ := htreated.ambient.deeds_note
    (.retreated ⟨p.root, p.name, p.stage, below, c.position,
      (c.lowered crew p below).position⟩ (c.site.leaveStage crew p.root p.stage).1) rfl rfl
  refine clean.moved p.root hes hquiet rfl (fun {q} hq ↦ ?_) fun {h q} hne hq ↦ ?_
  · rw [get?_lowered crew hp, if_pos rfl] at hq
    obtain rfl := Option.some_inj.1 hq
    exact (clean p.root p hp).lowered sound crew hp hbelow
  · rw [get?_lowered crew hp, if_neg hne] at hq
    have hunits := treeUnits_other sound hp hq hne (List.Subset.refl _) htreated
    exact ⟨hq, hunits⟩

theorem AllClean.raised (clean : c.AllClean) (sound : c.Sound)
    (hp : c.board.get? p.root = some p) (hnext : c.chain.next? p.stage = some next)
    (henter : c.site.enterStage crew p.root next = (.ok applied, site)) :
    (c.raised p next applied site).AllClean := by
  obtain ⟨done, htreated⟩ := Site.exists_entered (sound.forest.nodup_tree _) henter
  obtain ⟨es, hes, hquiet, _⟩ := htreated.ambient.deeds_note
    (.advanced ⟨p.root, p.name, p.stage, next, c.position,
      (c.raised p next applied site).position⟩ applied) rfl rfl
  refine clean.moved p.root hes hquiet rfl (fun {q} hq ↦ ?_) fun {h q} hne hq ↦ ?_
  · rw [get?_raised hp, if_pos rfl] at hq
    obtain rfl := Option.some_inj.1 hq
    exact (clean p.root p hp).raised sound hp hnext htreated
  · rw [get?_raised hp, if_neg hne] at hq
    have hunits := treeUnits_other sound hp hq hne (List.Subset.refl _) htreated
    exact ⟨hq, hunits⟩

theorem AllClean.stalled (clean : c.AllClean) (sound : c.Sound)
    (hp : c.board.get? p.root = some p) {failure : Failure}
    (henter : c.site.enterStage crew p.root next = (.error failure, site)) :
    (c.stalled p next failure site).AllClean := by
  obtain ⟨done, m, pre, k, u, d, cause, hsub, hu, hentered, hleft⟩ :=
    Site.exists_undone (sound.forest.nodup_tree _) henter
  have htreated := hentered.left next hleft
  obtain ⟨es, hes, hquiet, _⟩ := htreated.ambient.deeds_note
    (.failed p.root p.name next failure) rfl rfl
  refine clean.moved p.root hes hquiet rfl (fun {q} hq ↦ ?_) fun {h q} hne hq ↦ ?_
  · rw [get?_stalled hp, if_pos rfl] at hq
    obtain rfl := Option.some_inj.1 hq
    exact (clean p.root p hp).stalled htreated
  · rw [get?_stalled hp, if_neg hne] at hq
    have hunits := treeUnits_other sound hp hq hne hsub htreated
    exact ⟨hq, hunits⟩

theorem Turn.allClean (turn : Turn crew c d) (clean : c.AllClean) (sound : c.Sound) :
    d.AllClean := by
  cases turn with
  | descend hp _ hbelow hrecalls =>
    refine hrecalls.preserves_lowered sound hp hbelow AllClean ?_ ?_ clean
    · exact fun _ _ _ hc ↦ hc.note rfl
    · exact fun hc hq hbelow hclean ↦ hclean.lowered hc crew hq hbelow
  | raise hp hready henter =>
    exact clean.raised sound hp (of_verdict_ready hp hready).2.2.1 henter
  | stall hp _ henter => exact clean.stalled sound hp henter
  | @park p missing hp _ =>
    have hwaits : AllClean { c with board := c.board.wait p.root missing } :=
      clean.still (List.append_nil _).symm (by simp) rfl rfl (stage?_parked hp)
    exact hwaits.note rfl
  | limit _ => exact clean.note rfl

theorem AllClean.settled (clean : c.AllClean) (sound : c.Sound) {b : Blueprint} {g : Forest β}
    (hplant : c.forest.plant b = .ok (root, g)) : (c.settled b root g).AllClean := by
  have planted := sound.forest.planted hplant
  intro h q hq
  rcases of_get?_settled hq with ⟨rfl, rfl⟩ | ⟨hne, hq⟩
  · refine ⟨b, ?_, ?_⟩
    · rw [journal_settled, planned?_added]
    · obtain ⟨rfl, rfl, _⟩ := Forest.plant_eq_ok hplant
      have hunits := (sound.forest.laid b).treeUnits planted.sound
      have hclean : List.Forall₂ (LiveUnit.Clean c.chain Stage.floor) b.parts
          (c.forest.layout b).units := Layout.clean_tree _ _ _ _ _ _
      rw [← hunits] at hclean
      exact hclean
  · refine (clean h q hq).still journal_settled (fun e he ↦ ?_) rfl
      (sound.treeUnits_settled planted hq)
    rw [List.mem_singleton.1 he]
    simpa [Entry.plants] using Ne.symm hne

theorem AllClean.discard (clean : c.AllClean) (sound : c.Sound)
    (hp : c.board.get? root = some p) : (c.discard root).AllClean := by
  intro h q hq
  obtain ⟨hne, hq⟩ := of_get?_discard hp hq
  refine (clean h q hq).still (journal_discard hp) (fun e he ↦ ?_) (chain_discard hp)
    (sound.treeUnits_discard hp hq hne)
  rw [List.mem_singleton.1 he]
  rfl

theorem Step.allClean (step : Step crew c d) (clean : c.AllClean) (sound : c.Sound) :
    d.AllClean := by
  cases step with
  | turn turn => exact turn.allClean clean sound
  | plant _ hplant => exact clean.settled sound hplant
  | discard hp _ _ => exact clean.discard sound hp
  | plan hstage _ _ _ => exact clean.still (List.append_nil _).symm (by simp) rfl rfl hstage
  | staff hpassed =>
    obtain ⟨es, hes, hcrew, _⟩ := hpassed.journal
    exact clean.still hes (fun e he ↦ Entry.isQuiet_of_ofCrew (hcrew e he)) rfl rfl fun _ ↦ rfl
  | @remark entry hremark =>
    refine clean.note ?_
    cases entry <;> first | rfl | exact absurd hremark (by simp [Entry.isRemark])

/-- All trees are clean whatever has been asked for. -/
theorem Reachable.allClean (reachable : Reachable crew c) : c.AllClean := by
  obtain ⟨_, _, _, b, hsteps, hsound, hboard, _⟩ := reachable.invariant
  have hstart : b.AllClean := by
    intro h q hq
    rw [hboard] at hq
    exact absurd hq (by simp [Board.empty, Board.get?])
  exact hsteps.preserves hsound AllClean (fun sound step hc ↦ step.allClean hc sound) hstart

/-- Whatever deployers do and wherever they fail, all units of a deployment are clean at the stage
that it is at, each as its part of the blueprint that was planted has it. -/
theorem trees_clean (reachable : Reachable crew c) (hp : c.board.get? root = some p) :
    c.Clean root p.stage :=
  reachable.allClean root p hp

/-- Deployers that declare a need whatever they do, and fail to deploy on the unit of their own
name. -/
def demanding : Crew Unit Unit := ⟨fun action d u _ _ ↦
  ⟨u.attachments, [⟨d.name, ⟨"Real", 8⟩, ⟨"Parse", 1⟩⟩], [], (),
    if action = .deploy ∧ u.name = d.name then some ⟨"refused", []⟩ else none⟩⟩

/-- A run on which a tree enters the first stage, and its lower unit fails to enter the second. -/
def halfway : Controller Unit Unit := postParsing.serveAll demanding
  [.enlist ⟨{ name := "loader", stage := ⟨"Parse", 1⟩ }, ()⟩,
    .enlist ⟨{ name := "plugin", stage := ⟨"PostParse", 2⟩ }, ()⟩,
    .deploy (.mk "app" .none [⟨"db", ⟨"Real", 8⟩, ⟨"Parse", 1⟩⟩, ⟨"db", ⟨"Real", 8⟩, ⟨"Parse", 1⟩⟩]
      [] [.mk "plugin" .none [] [] []])]

theorem trees_clean_halfway :
    (halfway.board.get? 0).map (fun p ↦ (p.stage.index, p.error.isSome)) = some (1, true) ∧
      (halfway.forest.treeUnits 0).map (fun u ↦ (u.name, u.needs.length, u.applied.length)) =
        [("app", 2, 1), ("plugin", 1, 1)] ∧
      ∃ p, halfway.board.get? 0 = some p ∧ halfway.Clean 0 p.stage := by
  have hreachable : Reachable demanding halfway := reachable_postParsing demanding _
  have hstage : (halfway.board.get? 0).map (fun p ↦ (p.stage.index, p.error.isSome)) =
      some (1, true) := by decide +kernel
  obtain ⟨p, hp, _⟩ := Option.map_eq_some_iff.1 hstage
  exact ⟨hstage, by decide +kernel, p, hp, trees_clean hreachable hp⟩

end Controller

end Rollout
