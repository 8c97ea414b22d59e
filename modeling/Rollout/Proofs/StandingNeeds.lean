import Rollout.Proofs.Passes
import Rollout.Proofs.Steps

/-!
The needs of deployments as they are moved. A need is in force once its deployment has entered the
stage it applies from. Taking a deployment down only forgets needs; taking it up adds such needs
only as bear the mark of the stage that is entered; and nothing else that is done to it changes
them. The home of a name stays where it is as long as the unit of that name is live.
-/

set_option autoImplicit false
set_option relaxedAutoImplicit false

namespace Rollout

variable {β σ : Type}

namespace Entry

/-- The needs that an entry brings up: those a deployment is planted with, and those that its units
have when it has entered a stage. -/
def needs : Entry β → List Need
  | added _ plan _ _ => plan.needs
  | advanced move _ => move.after.forest.treeNeeds move.root
  | _ => []

end Entry

/-- The stage that a need applies from belongs to the chain. -/
theorem contains_appliesFrom (chain : Chain) (n : Need) :
    chain.contains (Board.appliesFrom chain n) = true := by
  unfold Board.appliesFrom
  cases hbefore : chain.resolve? n.before with
  | some s => exact Chain.contains_of_resolve? hbefore
  | none =>
    rw [Option.none_or]
    cases hnext : chain.next? Stage.floor with
    | some s => exact Chain.contains_of_next? hnext
    | none => exact chain.contains_floor

namespace Controller

variable {crew : Crew β σ} {c d : Controller β σ} {h root : Handle} {p q : Progress} {n : Need}
  {name : String}

theorem mem_needs_iff : n ∈ c.needs h ↔
    ∃ k ∈ c.forest.tree h, ∃ u, c.forest.get? k = some u ∧ n ∈ u.needs := by
  unfold needs Forest.treeNeeds Forest.treeUnits
  rw [List.mem_flatMap]
  constructor
  · rintro ⟨u, hu, hn⟩
    obtain ⟨k, hk, hku⟩ := List.mem_filterMap.1 hu
    exact ⟨k, hk, u, hku, hn⟩
  · rintro ⟨k, hk, u, hku, hn⟩
    exact ⟨u, List.mem_filterMap.2 ⟨k, hk, hku⟩, hn⟩

/-- Where units only forget needs, so do deployments. -/
theorem needs_subset (shape : c.forest.SameShape d.forest)
    (hunit : ∀ {k : Handle} {u : LiveUnit β}, c.forest.get? k = some u →
      ∃ v, d.forest.get? k = some v ∧ v.needs ⊆ u.needs) : d.needs h ⊆ c.needs h := by
  intro n hn
  obtain ⟨k, hk, v, hv, hn⟩ := mem_needs_iff.1 hn
  rw [← shape.tree] at hk
  obtain ⟨u, hu, _⟩ := shape.exists_get? hv
  obtain ⟨v', hv', hsub⟩ := hunit hu
  obtain rfl := Option.some_inj.1 (hv.symm.trans hv')
  exact mem_needs_iff.2 ⟨k, hk, u, hu, hsub hn⟩

theorem home?_eq (c : Controller β σ) (name : String) :
    c.home? name = (c.forest.find? name).bind fun h ↦ (c.forest.node? h).map Node.top := by
  unfold home? Forest.byName? Forest.node?
  rw [Option.map_bind]
  refine congrArg _ (funext fun h ↦ ?_)
  rw [Function.comp_apply, Option.map_map]
  rfl

/-- Names have their homes where the shape of the forest has them. -/
theorem home?_congr (shape : c.forest.SameShape d.forest) (name : String) :
    d.home? name = c.home? name := by
  rw [home?_eq, home?_eq, shape.find?]
  refine congrArg _ (funext fun h ↦ ?_)
  rw [shape.node?]

theorem Sound.home?_eq_some_iff (sound : c.Sound) :
    c.home? name = some root ↔
      ∃ h u, c.forest.get? h = some u ∧ u.name = name ∧ u.top = root := by
  unfold home?
  rw [Option.map_eq_some_iff]
  constructor
  · rintro ⟨u, hu, htop⟩
    obtain ⟨h, hget, hname⟩ := sound.forest.byName?_eq_some_iff.1 hu
    exact ⟨h, u, hget, hname, htop⟩
  · rintro ⟨h, u, hget, hname, htop⟩
    exact ⟨u, sound.forest.byName?_eq_some_iff.2 ⟨h, hget, hname⟩, htop⟩

/-! Going down. -/

theorem needs_foldl_forget (stages : List Stage) (needs : List Need) :
    stages.foldl Need.forget needs ⊆ needs := by
  induction stages generalizing needs with
  | nil => exact List.Subset.refl _
  | cons s stages ih =>
    intro n hn
    exact (Need.mem_forget.1 (ih _ hn)).1

theorem Lowers.needs_subset {path : List Handle} (lowers : Lowers path c d) :
    d.needs h ⊆ c.needs h := by
  refine Controller.needs_subset lowers.alike.shape fun {k u} hu ↦ ?_
  obtain ⟨v, stages, hv, _, hneeds⟩ := lowers.needs hu
  exact ⟨v, hv, hneeds ▸ needs_foldl_forget stages u.needs⟩

/-! Going up. -/

theorem treeUnits_other {effect : Handle → LiveUnit β → LiveUnit β → Prop} {site : Site β σ}
    {calls : List (Entry β)} (sound : c.Sound) (hp : c.board.get? root = some p)
    (hq : c.board.get? h = some q) (hne : h ≠ root) {hs : List Handle}
    (hsub : hs ⊆ c.forest.tree root) (treated : Site.Treated effect hs c.site site calls) :
    site.forest.treeUnits h = c.forest.treeUnits h := by
  refine Forest.treeUnits_congr (treated.shape.tree h).symm fun k hk ↦ treated.other fun hmem ↦ ?_
  obtain ⟨m, hm, htop⟩ := (sound.mem_tree_iff hq).1 hk
  obtain ⟨m', hm', htop'⟩ := (sound.mem_tree_iff hp).1 (hsub hmem)
  obtain rfl := Option.some_inj.1 (hm.symm.trans hm')
  exact hne (htop.symm.trans htop')

/-- A tree that enters a stage keeps its needs, and what is declared on the way bears the mark of
that stage; the needs of all other trees stay as they are. -/
theorem Sound.mem_needs_raised (sound : c.Sound) (hp : c.board.get? p.root = some p) {next : Stage}
    {applied : Nat} {site : Site β σ}
    (henter : c.site.enterStage crew p.root next = (.ok applied, site))
    (hq : c.board.get? h = some q) (hn : n ∈ (c.raised p next applied site).needs h) :
    n ∈ c.needs h ∨ h = p.root ∧ n.declaredAt = some next := by
  obtain ⟨done, htreated⟩ := Site.exists_entered (sound.forest.nodup_tree _) henter
  by_cases hh : h = p.root
  · subst hh
    obtain ⟨k, hk, v, hv, hn⟩ := mem_needs_iff.1 hn
    change k ∈ site.forest.tree p.root at hk
    rw [← htreated.shape.tree] at hk
    obtain ⟨u, hu, hentered⟩ := htreated.exists_of_mem hk hv
    obtain ⟨more, hmore, hmark⟩ := hentered.needs
    rw [hmore] at hn
    rcases List.mem_append.1 hn with hn | hn
    · exact Or.inl (mem_needs_iff.2 ⟨k, hk, u, hu, hn⟩)
    · exact Or.inr ⟨rfl, hmark n hn⟩
  · refine Or.inl ?_
    have hunits := treeUnits_other sound hp hq hh (List.Subset.refl _) htreated
    unfold needs Forest.treeNeeds at hn ⊢
    rw [← hunits]
    exact hn

/-- A tree that fails to enter a stage gains no needs, and neither does any other. -/
theorem Sound.needs_stalled (sound : c.Sound) {next : Stage} {failure : Failure}
    {site : Site β σ}
    (henter : c.site.enterStage crew p.root next = (.error failure, site)) :
    (c.stalled p next failure site).needs h ⊆ c.needs h := by
  obtain ⟨done, m, pre, last, _, _, _, _, _, hentered, hleft⟩ :=
    Site.exists_undone (sound.forest.nodup_tree _) henter
  have htreated := hentered.left next hleft
  refine needs_subset htreated.shape fun {k u} hu ↦ ?_
  by_cases hk : k ∈ pre ++ [last]
  · obtain ⟨v, hv, hgone⟩ := htreated.each hk hu
    refine ⟨v, hv, fun n hn ↦ ?_⟩
    rw [hgone.needs] at hn
    exact (Need.mem_forget.1 hn).1
  · exact ⟨u, (htreated.other hk).trans hu, List.Subset.refl _⟩

/-! Planting and taking out. -/

theorem Sound.needs_settled (sound : c.Sound) {b : Blueprint} {g : Forest β}
    (planted : Forest.Planted c.forest b root g) (hp : c.board.get? h = some p) :
    (c.settled b root g).needs h = c.needs h := by
  have hunits : (c.settled b root g).forest.treeUnits h = c.forest.treeUnits h :=
    sound.treeUnits_settled planted hp
  unfold needs Forest.treeNeeds
  rw [hunits]

/-- A deployment that has just been planted has no needs but those it was described with. -/
theorem Sound.needs_planted (sound : c.Sound) {b : Blueprint} {g : Forest β}
    (planted : Forest.Planted c.forest b root g) : (c.settled b root g).needs root ⊆ b.needs := by
  intro n hn
  obtain ⟨k, hk, u, hu, hn⟩ := mem_needs_iff.1 hn
  exact (planted.fresh_of_mem_tree sound.forest hk hu).needs n hn

theorem Sound.home?_settled (sound : c.Sound) {b : Blueprint} {g : Forest β} {t : Handle}
    (planted : Forest.Planted c.forest b root g) (hhome : c.home? name = some t) :
    (c.settled b root g).home? name = some t := by
  obtain ⟨k, u, hu, hname, htop⟩ := sound.home?_eq_some_iff.1 hhome
  unfold home?
  rw [Option.map_eq_some_iff]
  exact ⟨u, planted.sound.byName?_eq_some_iff.2 ⟨k, planted.kept hu, hname⟩, htop⟩

theorem Sound.needs_discard (sound : c.Sound) (hp : c.board.get? root = some p)
    (hq : c.board.get? h = some q) (hne : h ≠ root) : (c.discard root).needs h = c.needs h := by
  unfold needs Forest.treeNeeds
  rw [sound.treeUnits_discard hp hq hne]

theorem Sound.home?_discard (sound : c.Sound) (hp : c.board.get? root = some p) {t : Handle}
    (hhome : c.home? name = some t) (hne : t ≠ root) :
    (c.discard root).home? name = some t := by
  obtain ⟨k, u, hu, hname, rfl⟩ := sound.home?_eq_some_iff.1 hhome
  refine (sound.discard hp).home?_eq_some_iff.2 ⟨k, u, ?_, hname, rfl⟩
  exact (sound.get?_forest_discard hp).2 ⟨hu, hne⟩

/-! Where needs come from. -/

/-- Every need of a tracked deployment has been brought up by an entry in the journal. -/
def Brought (c : Controller β σ) : Prop :=
  ∀ h p, c.board.get? h = some p → ∀ n ∈ c.needs h, ∃ entry ∈ c.journal, n ∈ entry.needs

/-- Where needs only go, they were brought up before. -/
theorem Brought.mono (brought : Brought c) (continues : Continues c d)
    (hneeds : ∀ {h : Handle} {q : Progress}, d.board.get? h = some q →
      ∃ p, c.board.get? h = some p ∧ d.needs h ⊆ c.needs h) : Brought d := by
  intro h q hq n hn
  obtain ⟨p, hp, hsub⟩ := hneeds hq
  obtain ⟨entry, hentry, hn⟩ := brought h p hp n (hsub hn)
  exact ⟨entry, continues.mem hentry, hn⟩

theorem Turn.brought (turn : Turn crew c d) (brought : Brought c) (sound : c.Sound) :
    Brought d := by
  have hcontinues := turn.continues sound
  have hback : ∀ {h q}, d.board.get? h = some q → ∃ p, c.board.get? h = some p :=
    fun {h q} hq ↦ by
      obtain ⟨p, hp, _⟩ := (turn.moves sound).get? hq
      exact ⟨p, hp⟩
  cases turn with
  | descend hp _ hbelow hrecalls =>
    refine brought.mono hcontinues fun {h q} hq ↦ ?_
    obtain ⟨p, hp'⟩ := hback hq
    exact ⟨p, hp', (hrecalls.lowers_lowered sound hp hbelow).needs_subset⟩
  | @raise p next applied site hp _ henter =>
    intro h q hq n hn
    obtain ⟨x, hx⟩ := hback hq
    by_cases hh : h = p.root
    · subst hh
      exact ⟨_, Array.mem_push_self, hn⟩
    · rcases sound.mem_needs_raised hp henter hx hn with hn | ⟨heq, _⟩
      · obtain ⟨entry, hentry, hn⟩ := brought h x hx n hn
        exact ⟨entry, hcontinues.mem hentry, hn⟩
      · exact absurd heq hh
  | stall hp _ henter =>
    refine brought.mono hcontinues fun {h q} hq ↦ ?_
    obtain ⟨p, hp'⟩ := hback hq
    exact ⟨p, hp', sound.needs_stalled henter⟩
  | park _ _ =>
    refine brought.mono hcontinues fun {h q} hq ↦ ?_
    obtain ⟨p, hp'⟩ := hback hq
    exact ⟨p, hp', List.Subset.refl _⟩
  | limit _ => exact brought.mono hcontinues fun hq ↦ ⟨_, hq, List.Subset.refl _⟩

theorem Step.brought (step : Step crew c d) (brought : Brought c) (sound : c.Sound) :
    Brought d := by
  have hcontinues := step.continues sound
  cases step with
  | turn turn => exact turn.brought brought sound
  | @plant b root g _ hplant =>
    have planted := sound.forest.planted hplant
    intro h q hq n hn
    by_cases hh : h = root
    · subst hh
      exact ⟨_, Array.mem_push_self, sound.needs_planted planted hn⟩
    · rw [get?_board_settled, if_neg hh] at hq
      rw [sound.needs_settled planted hq] at hn
      obtain ⟨entry, hentry, hn⟩ := brought h q hq n hn
      exact ⟨entry, hcontinues.mem hentry, hn⟩
  | discard hp _ _ =>
    refine brought.mono hcontinues fun {h q} hq ↦ ?_
    obtain ⟨hne, hq⟩ := of_get?_discard hp hq
    refine ⟨q, hq, ?_⟩
    rw [sound.needs_discard hp hq hne]
    exact List.Subset.refl _
  | @plan board queue hstage _ _ _ =>
    refine brought.mono hcontinues fun {h q} hq ↦ ?_
    have hsame := hstage h
    unfold Board.stage? at hsame
    rw [hq, Option.map_some, eq_comm, Option.map_eq_some_iff] at hsame
    obtain ⟨p, hp, _⟩ := hsame
    exact ⟨p, hp, List.Subset.refl _⟩
  | staff _ => exact brought.mono hcontinues fun hq ↦ ⟨_, hq, List.Subset.refl _⟩
  | remark _ => exact brought.mono hcontinues fun hq ↦ ⟨_, hq, List.Subset.refl _⟩

end Controller

end Rollout
