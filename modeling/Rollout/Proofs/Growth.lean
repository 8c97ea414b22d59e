import Mathlib.Data.List.Pairwise
import Rollout.Proofs.LocalWork
import Rollout.Proofs.Records
import Rollout.Proofs.Situations

/-!
Growth. Where what deployers make of a unit depends on that unit alone and the roster stays as it
is, the blueprint of a deployment settles what its units are at each stage: when it was planted, on
which slots, and what went on around it make no difference. So a controller that is asked for
nothing but to deploy, and on which nothing fails, holds deployments that have all grown this way.
-/

set_option autoImplicit false
set_option relaxedAutoImplicit false

namespace Rollout

variable {β σ : Type}

namespace Request

/-- The deployments that a request is to bring live. -/
def plans : Request β σ → List Blueprint
  | deploy b => [b]
  | deployAll bs => bs
  | _ => []

/-- Whether a request is to bring deployments live, and nothing else. -/
def isDeploying : Request β σ → Bool
  | deploy _ => true
  | deployAll _ => true
  | _ => false

end Request

namespace LiveUnit

theorem unplaced_unplaced (u : LiveUnit β) : u.unplaced.unplaced = u.unplaced := by
  unfold unplaced Node.unplaced
  simp [Function.comp_def]

end LiveUnit

namespace Layout

/-- As many trees are laid out as there are. -/
theorem length_tops_trees (kind : Kind) (parent top : Handle) (s : Stock) (bs : List Blueprint) :
    (trees kind parent top s bs : Layout β).tops.length = bs.length := by
  induction bs generalizing s with
  | nil => rfl
  | cons b bs ih =>
    rw [trees, List.length_append, tops_tree, ih, List.length_singleton, List.length_cons,
      Nat.add_comm]

mutual

/-- What a tree is laid out as depends on the slots that it is given in nothing but these slots. -/
theorem unplaced_tree (kind : Kind) (parent parent' top top' : Option Handle) (s s' : Stock)
    (hparent : parent'.isSome = parent.isSome) (b : Blueprint) :
    (tree kind parent' top' s' b : Layout β).units.map LiveUnit.unplaced =
      (tree kind parent top s b : Layout β).units.map LiveUnit.unplaced := by
  match b with
  | .mk name attachments demands components children =>
    have hparts := unplaced_trees .component s.take.1 s'.take.1 (top.getD s.take.1)
      (top'.getD s'.take.1) s.take.2 s'.take.2 components
    have hkids := unplaced_trees .child s.take.1 s'.take.1 (top.getD s.take.1)
      (top'.getD s'.take.1)
      (trees .component s.take.1 (top.getD s.take.1) s.take.2 components : Layout β).stock
      (trees .component s'.take.1 (top'.getD s'.take.1) s'.take.2 components : Layout β).stock
      children
    have hplace : parent'.map (fun _ ↦ (0 : Handle)) = parent.map fun _ ↦ 0 := by
      cases parent <;> cases parent' <;> simp_all
    simp only [tree, List.map_cons, List.map_append, hparts, hkids]
    simp only [LiveUnit.unplaced, Node.unplaced, List.map_const', length_tops_trees, hplace]

theorem unplaced_trees (kind : Kind) (parent parent' top top' : Handle) (s s' : Stock)
    (bs : List Blueprint) :
    (trees kind parent' top' s' bs : Layout β).units.map LiveUnit.unplaced =
      (trees kind parent top s bs : Layout β).units.map LiveUnit.unplaced := by
  match bs with
  | [] => rfl
  | b :: rest =>
    have hfirst := unplaced_tree kind (some parent) (some parent') (some top) (some top') s s' rfl b
    have hrest := unplaced_trees kind parent parent' top top'
      (tree kind (some parent) (some top) s b : Layout β).stock
      (tree kind (some parent') (some top') s' b : Layout β).stock rest
    simp only [trees, List.map_append, hfirst, hrest]

end

end Layout

/-- What runs that are compared have in common: the deployers, the roster, what deployers keep at
the beginning, and the stage that deployments are asked for. -/
structure Setting (β σ : Type) where
  crew : Crew β σ
  roster : Roster β
  state : σ
  target : Stage

namespace Setting

/-- A unit when it has entered one more stage, but for its slots. -/
def matured (g : Setting β σ) (stage : Stage) (u : LiveUnit β) : LiveUnit β :=
  (g.crew.enterUnit stage (g.roster.atStage stage) u ⟨g.roster, g.state, #[]⟩).unit.unplaced

/-- The units of a blueprint when they have entered all stages up to a place, but for their
slots. -/
def grown (g : Setting β σ) (b : Blueprint) : Nat → List (LiveUnit β)
  | 0 => (Forest.empty.layout b).units.map LiveUnit.unplaced
  | i + 1 => match g.roster.chain.at? (i + 1) with
    | none => g.grown b i
    | some stage => (g.grown b i).map (g.matured stage)

variable {g : Setting β σ}

theorem name_matured (stage : Stage) (u : LiveUnit β) : (g.matured stage u).name = u.name := by
  obtain ⟨_, hentered, _⟩ := g.crew.enterUnit_spec stage (g.roster.atStage stage) u
    ⟨g.roster, g.state, #[]⟩
  exact hentered.name

theorem names_grown (g : Setting β σ) (b : Blueprint) (i : Nat) :
    (g.grown b i).map (fun u ↦ u.name) = b.names := by
  induction i with
  | zero =>
    have hfits : Layout.Fits _ b.names ((Forest.empty : Forest β).layout b) :=
      Layout.fits_tree .topLevel none none _ b
    unfold grown
    rw [List.map_map]
    exact hfits.names
  | succ i ih =>
    unfold grown
    split
    · exact ih
    · rw [List.map_map]
      exact (List.map_congr_left fun u _ ↦ name_matured _ u).trans ih

/-- What comes of a unit that enters a stage does not depend on the time and on its slots. -/
theorem unplaced_enterUnit (blind : g.crew.Local) (keeps : g.crew.KeepsRoster) (stage : Stage)
    (u : LiveUnit β) (a : Ambient β σ) :
    (g.crew.enterUnit stage (g.roster.atStage stage) u a).unit.unplaced =
      g.matured stage u.unplaced :=
  (Crew.Agree.enterUnit stage keeps keeps (blind.agree u.unplaced u) u.unplaced_unplaced.symm
    _ _ a).1

end Setting

namespace Controller

variable {c d : Controller β σ} {g : Setting β σ} {p q : Progress} {b : Blueprint} {h : Handle}

/-- A deployment that has grown out of a blueprint, and no further than it may. -/
structure Grows (g : Setting β σ) (ceil : Nat) (c : Controller β σ) (b : Blueprint)
    (p : Progress) : Prop where
  name : p.name = b.name
  error : p.error = none
  removing : p.removing = false
  requested : p.requested = g.target
  stage : p.stage.index ≤ ceil
  units : (c.forest.treeUnits p.root).map LiveUnit.unplaced = g.grown b p.stage.index

theorem Grows.treeNames {ceil : Nat} (grows : Grows g ceil c b p) :
    c.forest.treeNames p.root = b.names := by
  have hnames := congrArg (List.map fun u : LiveUnit β ↦ u.name) grows.units
  rw [g.names_grown, List.map_map] at hnames
  exact hnames

theorem Grows.needs {ceil : Nat} (grows : Grows g ceil c b p) :
    c.needs p.root = (g.grown b p.stage.index).flatMap fun u ↦ u.needs := by
  rw [← grows.units, List.flatMap_map]
  rfl

/-- A deployment whose units are left as they are has still grown as it had, whatever it waits
for. -/
theorem Grows.still {ceil : Nat} (grows : Grows g ceil c b p)
    (hunits : d.forest.treeUnits p.root = c.forest.treeUnits p.root) (waiting : List Shortfall) :
    Grows g ceil d b { p with waiting } := by
  refine ⟨grows.name, grows.error, grows.removing, grows.requested, grows.stage, ?_⟩
  show (d.forest.treeUnits p.root).map LiveUnit.unplaced = _
  rw [hunits]
  exact grows.units

/-- A controller that tracks what has grown out of some blueprints, and nothing else. -/
structure Growing (g : Setting β σ) (ceil : Blueprint → Nat) (bs : List Blueprint)
    (c : Controller β σ) : Prop where
  sound : c.Sound
  waits : c.Waits
  low : ∀ h, c.Low h
  roster : c.roster = g.roster
  target : c.target = g.target
  names : (bs.flatMap Blueprint.names).Nodup
  origin : ∀ p, c.board.get? p.root = some p → ∃ b ∈ bs, Grows g (ceil b) c b p
  planted : ∀ b ∈ bs, ∃ p, c.board.get? p.root = some p ∧ p.name = b.name

variable {ceil : Blueprint → Nat} {bs more : List Blueprint}

theorem Growing.chain (growing : Growing g ceil bs c) : c.chain = g.roster.chain := by
  rw [← growing.sound.chain, growing.roster]

/-- No name belongs to two blueprints. -/
theorem eq_of_mem_names (hnodup : (bs.flatMap Blueprint.names).Nodup) {b b' : Blueprint}
    (hb : b ∈ bs) (hb' : b' ∈ bs) {name : String} (hname : name ∈ b.names)
    (hname' : name ∈ b'.names) : b = b' := by
  by_contra hne
  have : Std.Symm (Function.onFun List.Disjoint Blueprint.names) :=
    ⟨fun _ _ hdisjoint _ hx hy ↦ hdisjoint hy hx⟩
  exact (List.nodup_flatMap.1 hnodup).2.forall hb hb' hne hname hname'

/-- Every blueprint has a deployment that has grown out of it. -/
theorem Growing.exists_grows (growing : Growing g ceil bs c) (hb : b ∈ bs) :
    ∃ p, c.board.get? p.root = some p ∧ Grows g (ceil b) c b p := by
  obtain ⟨p, hp, hname⟩ := growing.planted b hb
  obtain ⟨b', hb', grows⟩ := growing.origin p hp
  have hmem : b.name ∈ b'.names := by
    rw [← hname, grows.name]
    exact b'.name_mem_names
  obtain rfl := eq_of_mem_names growing.names hb hb' b.name_mem_names hmem
  exact ⟨p, hp, grows⟩

theorem Growing.mem_names (growing : Growing g ceil bs c) {name : String}
    (hhome : c.home? name = some p.root) (grows : Grows g (ceil b) c b p)
    (hp : c.board.get? p.root = some p) : name ∈ b.names := by
  obtain ⟨k, u, hu, rfl, htop⟩ := growing.sound.home?_eq_some_iff.1 hhome
  have hk := (growing.sound.mem_tree_iff hp).2 ⟨_, Forest.node?_of_get? hu, htop⟩
  rw [← grows.treeNames]
  exact name_mem_treeNames hk hu

/-- Where a name leads to. -/
theorem Growing.of_progress? (growing : Growing g ceil bs c) {name : String}
    (hp : c.progress? name = some p) :
    ∃ b ∈ bs, name ∈ b.names ∧ c.board.get? p.root = some p ∧ Grows g (ceil b) c b p := by
  unfold progress? at hp
  rw [ofUnit?_eq, Option.bind_eq_some_iff] at hp
  obtain ⟨root, hhome, hp⟩ := hp
  obtain rfl := Board.root_of_get? hp
  obtain ⟨b, hb, grows⟩ := growing.origin p hp
  exact ⟨b, hb, growing.mem_names hhome grows hp, hp, grows⟩

theorem Sound.progress?_of_mem (sound : c.Sound) (hp : c.board.get? p.root = some p)
    {name : String} (hname : name ∈ c.forest.treeNames p.root) : c.progress? name = some p := by
  obtain ⟨u, hu, rfl⟩ := List.mem_map.1 hname
  obtain ⟨k, hk, hku⟩ := mem_treeUnits_iff.1 hu
  obtain ⟨n, hn, htop⟩ := (sound.mem_tree_iff hp).1 hk
  obtain rfl := Option.some_inj.1 ((Forest.node?_of_get? hku).symm.trans hn)
  unfold progress?
  rw [ofUnit?_eq, sound.home?_eq_some_iff.2 ⟨k, u, hku, rfl, htop⟩, Option.bind_some, hp]

/-- The names of a blueprint lead to what has grown out of it. -/
theorem Grows.progress?_eq {n : Nat} (grows : Grows g n c b p) (sound : c.Sound)
    (hp : c.board.get? p.root = some p) {name : String} (hname : name ∈ b.names) :
    c.progress? name = some p :=
  sound.progress?_of_mem hp (grows.treeNames.symm ▸ hname)

/-! Turns. -/

/-- A ceiling that nothing breaks through: whatever is ready for a stage may have it. -/
def Capped (g : Setting β σ) (ceil : Blueprint → Nat) (all : List Blueprint) : Prop :=
  ∀ (bs : List Blueprint) (c : Controller β σ) (b : Blueprint) (p : Progress) (next : Stage),
    bs ⊆ all → Growing g ceil bs c → b ∈ bs → c.board.get? p.root = some p →
      Grows g (ceil b) c b p → c.verdict p.root = .ready next → next.index ≤ ceil b

theorem Growing.of_moves (growing : Growing g ceil bs c) (moves : Moves c d) (sound : d.Sound)
    (waits : d.Waits) (low : ∀ h, d.Low h) (hroster : d.roster = c.roster)
    (heach : ∀ (b : Blueprint) (p q : Progress), b ∈ bs → c.board.get? p.root = some p →
      d.board.get? p.root = some q → Grows g (ceil b) c b p → Grows g (ceil b) d b q) :
    Growing g ceil bs d := by
  refine ⟨sound, waits, low, hroster.trans growing.roster, moves.target.trans growing.target,
    growing.names, fun q hq ↦ ?_, fun b hb ↦ ?_⟩
  · obtain ⟨p, hp, _⟩ := moves.get? hq
    have hroot := Board.root_of_get? hp
    rw [← hroot] at hp hq
    obtain ⟨b, hb, grows⟩ := growing.origin p hp
    exact ⟨b, hb, heach b p q hb hp hq grows⟩
  · obtain ⟨p, hp, hname⟩ := growing.planted b hb
    obtain ⟨q, hq, hqname, _⟩ := moves.exists_get? hp
    rw [← Board.root_of_get? hq] at hq
    exact ⟨q, hq, hqname.trans hname⟩

/-- Units that enter the next stage have grown by it. -/
theorem Sound.grown_raised (sound : c.Sound) (blind : g.crew.Local) (keeps : g.crew.KeepsRoster)
    (hroster : c.roster = g.roster) {next : Stage} {applied : Nat} {site : Site β σ}
    (henter : c.site.enterStage g.crew p.root next = (.ok applied, site)) :
    (site.forest.treeUnits p.root).map LiveUnit.unplaced =
      ((c.forest.treeUnits p.root).map LiveUnit.unplaced).map (g.matured next) := by
  rw [List.map_map]
  refine (sound.shape_enterStage g.crew henter).1.map_treeUnits fun k hk u hu ↦ ?_
  change c.site.ambient.roster = g.roster at hroster
  unfold Site.enterStage at henter
  rw [hroster] at henter
  obtain ⟨a, ha⟩ := Site.enterEach_units (sound.forest.nodup_tree _) henter hk hu
  exact ⟨_, ha, Setting.unplaced_enterUnit blind keeps next u a⟩

theorem Sound.treeUnits_raised (sound : c.Sound) {crew : Crew β σ}
    (hp : c.board.get? p.root = some p) (hq : c.board.get? h = some q) (hne : h ≠ p.root)
    {next : Stage} {applied : Nat} {site : Site β σ}
    (henter : c.site.enterStage crew p.root next = (.ok applied, site)) :
    site.forest.treeUnits h = c.forest.treeUnits h := by
  obtain ⟨done, htreated⟩ := Site.exists_entered (sound.forest.nodup_tree _) henter
  exact treeUnits_other sound hp hq hne (List.Subset.refl _) htreated

/-- A deployment that goes up has grown by the stage that it enters. -/
theorem Growing.raised (growing : Growing g ceil bs c) (blind : g.crew.Local)
    (keeps : g.crew.KeepsRoster) {all : List Blueprint} (capped : Capped g ceil all)
    (hsub : bs ⊆ all) (hb : b ∈ bs) (hp : c.board.get? p.root = some p) {next : Stage}
    {applied : Nat} {site : Site β σ} (hready : c.verdict p.root = .ready next)
    (henter : c.site.enterStage g.crew p.root next = (.ok applied, site))
    (grows : Grows g (ceil b) c b p) :
    Grows g (ceil b) (c.raised p next applied site) b
      { p with stage := next, waiting := [] } := by
  obtain ⟨_, _, hnext, _⟩ := of_verdict_ready hp hready
  have hindex := Chain.index_of_next? hnext
  refine ⟨grows.name, grows.error, grows.removing, grows.requested,
    capped bs c b p next hsub growing hb hp grows hready, ?_⟩
  have hat : g.roster.chain.at? (p.stage.index + 1) = some next := by
    rw [← growing.chain]
    exact hnext
  show (site.forest.treeUnits p.root).map LiveUnit.unplaced = g.grown b next.index
  rw [growing.sound.grown_raised blind keeps growing.roster henter, grows.units, hindex,
    Setting.grown, hat]

theorem Turn.growing (turn : Turn g.crew c d) (growing : Growing g ceil bs c)
    (blind : g.crew.Local) (keeps : g.crew.KeepsRoster) {all : List Blueprint}
    (capped : Capped g ceil all) (hsub : bs ⊆ all)
    (smooth : ∀ entry, Told c d entry → entry.isTrouble = false) : Growing g ceil bs d := by
  have hmoves := turn.moves growing.sound
  have hsound := growing.sound.of_alike hmoves.toAlike
  have hwaits : d.Waits := turn.waits growing.sound growing.waits
  have hlow : ∀ h, d.Low h := fun h ↦ turn.low growing.sound (growing.low h)
  cases turn with
  | @descend m p below hp hlt _ _ =>
    have hle := growing.low p.root p hp
    rw [Chain.lt_iff_index (growing.sound.requested hp) (growing.sound.stage hp)] at hlt
    exact absurd hlt (Nat.not_lt.2 hle)
  | @raise p next applied site hp hready henter =>
    have hroster : site.ambient.roster = c.roster := by
      have hkept := Site.roster_enterStage keeps p.root next c.site
      rw [henter] at hkept
      exact hkept
    refine growing.of_moves hmoves hsound hwaits hlow hroster fun b q r hb hq hr grows ↦ ?_
    rw [get?_raised hp] at hr
    split at hr
    · next heq =>
      rw [heq, hp] at hq
      obtain rfl := Option.some_inj.1 hq
      obtain rfl := Option.some_inj.1 hr
      exact growing.raised blind keeps capped hsub hb hp hready henter grows
    · next hne =>
      obtain rfl := Option.some_inj.1 (hq.symm.trans hr)
      have hunits := growing.sound.treeUnits_raised hp hq hne henter
      exact grows.still (d := c.raised p next applied site) hunits q.waiting
  | stall hp _ henter =>
    obtain ⟨entry, htold, htrouble⟩ := growing.sound.told_stalled henter
    rw [smooth entry htold] at htrouble
    exact absurd htrouble (by simp)
  | @park p missing hp _ =>
    refine growing.of_moves hmoves hsound hwaits hlow rfl fun b q r hb hq hr grows ↦ ?_
    rw [get?_parked hp] at hr
    split at hr
    · next heq =>
      rw [heq, hp] at hq
      obtain rfl := Option.some_inj.1 hq
      obtain rfl := Option.some_inj.1 hr
      exact grows.still (d := c.parked p missing) rfl missing
    · obtain rfl := Option.some_inj.1 (hq.symm.trans hr)
      exact grows.still (d := c.parked p missing) rfl q.waiting
  | limit passes =>
    have htrouble := smooth _ ((Continues.refl c).told_note (.passLimit passes))
    exact absurd htrouble (by simp [Entry.isTrouble])

theorem Turns.growing (turns : Turns g.crew c d) (growing : Growing g ceil bs c)
    (blind : g.crew.Local) (keeps : g.crew.KeepsRoster) {all : List Blueprint}
    (capped : Capped g ceil all) (hsub : bs ⊆ all)
    (smooth : ∀ entry, Told c d entry → entry.isTrouble = false) : Growing g ceil bs d := by
  induction turns with
  | refl => exact growing
  | tail hfirst turn ih =>
    have hm := (Turns.sound_moves hfirst growing.sound).1
    have hcontinues := Steps.continues (Turns.steps hfirst) growing.sound
    refine turn.growing (ih fun entry htold ↦ ?_) blind keeps capped hsub fun entry htold ↦ ?_
    · exact smooth entry ((turn.continues hm).told htold)
    · exact smooth entry (htold.continues hcontinues)

/-! Planting. -/

/-- What has just been planted has not grown yet. -/
theorem Growing.settled (growing : Growing g ceil bs c) (hqueue : c.queue = []) {root : Handle}
    {f : Forest β} (hplant : c.forest.plant b = .ok (root, f))
    (hnodup : ((bs ++ [b]).flatMap Blueprint.names).Nodup) :
    Growing g ceil (bs ++ [b]) (c.settled b root f) := by
  have hplanted := growing.sound.forest.planted hplant
  have hstep : Step g.crew c (c.settled b root f) := .plant hqueue hplant
  have hsound := growing.sound.settled hplanted hqueue
  have hunits : f.treeUnits root = (c.forest.layout b).units := by
    obtain ⟨rfl, rfl, _⟩ := Forest.plant_eq_ok hplant
    exact (growing.sound.forest.laid b).treeUnits hplanted.sound
  refine ⟨hsound, hstep.waits growing.sound growing.waits, fun h q hq ↦ ?_, growing.roster,
    growing.target, hnodup, fun q hq ↦ ?_, fun b' hb' ↦ ?_⟩
  · rcases of_get?_settled hq with ⟨_, rfl⟩ | ⟨_, hq⟩
    · exact Nat.zero_le _
    · exact growing.low h q hq
  · rcases of_get?_settled hq with ⟨hroot, heq⟩ | ⟨_, hq⟩
    · refine ⟨b, List.mem_append_right _ List.mem_cons_self, ?_⟩
      rw [heq]
      refine ⟨rfl, rfl, rfl, growing.target, Nat.zero_le _, ?_⟩
      show (f.treeUnits root).map LiveUnit.unplaced = g.grown b 0
      rw [hunits]
      exact Layout.unplaced_tree .topLevel none none none none _ _ rfl b
    · obtain ⟨b', hb', grows⟩ := growing.origin q hq
      exact ⟨b', List.mem_append_left _ hb',
        grows.still (growing.sound.treeUnits_settled hplanted hq) q.waiting⟩
  · rcases List.mem_append.1 hb' with hb' | hb'
    · obtain ⟨p, hp, hname⟩ := growing.planted b' hb'
      exact ⟨p, growing.sound.get?_settled hplanted hp, hname⟩
    · obtain rfl := List.mem_singleton.1 hb'
      exact ⟨Progress.start root b'.name c.target, get?_board_settled.trans (if_pos rfl), rfl⟩

theorem Growing.plantAll (growing : Growing g ceil bs c) (hqueue : c.queue = [])
    (hplant : Controller.plantAll more c = (d, none))
    (hnodup : ((bs ++ more).flatMap Blueprint.names).Nodup) :
    Growing g ceil (bs ++ more) d := by
  induction more generalizing bs c with
  | nil =>
    obtain rfl : c = d := congrArg Prod.fst hplant
    rw [List.append_nil]
    exact growing
  | cons b more ih =>
    rw [List.append_cons] at hnodup ⊢
    have hfirst : ((bs ++ [b]).flatMap Blueprint.names).Nodup := by
      rw [List.flatMap_append] at hnodup
      exact (List.nodup_append.1 hnodup).1
    obtain ⟨root, f, hroot, hrest⟩ := plantAll_cons hplant
    exact ih (growing.settled hqueue hroot hfirst) hqueue hrest hnodup

/-! Requests to deploy. -/

theorem unknownStage?_eq_none {chain : Chain} {needs : List Need}
    (hknown : ∀ n ∈ needs, (chain.resolve? n.before).isSome ∧ (chain.resolve? n.atLeast).isSome) :
    unknownStage? chain needs = none := by
  induction needs with
  | nil => rfl
  | cons n needs ih =>
    obtain ⟨hbefore, hleast⟩ := hknown n List.mem_cons_self
    unfold unknownStage?
    rw [if_neg (by simpa using Option.isSome_iff_ne_none.1 hbefore),
      if_neg (by simpa using Option.isSome_iff_ne_none.1 hleast)]
    exact ih fun m hm ↦ hknown m (List.mem_cons_of_mem _ hm)

/-- A blueprint that can be queued where none of its names is taken. -/
structure Wellformed (chain : Chain) (b : Blueprint) : Prop where
  blank : ∀ name ∈ b.names, Text.isBlank name = false
  known : ∀ n ∈ b.needs, (chain.resolve? n.before).isSome ∧ (chain.resolve? n.atLeast).isSome

/-- Some deployments have been queued, and nothing else has changed. -/
structure Lined (more : List Blueprint) (c d : Controller β σ) : Prop where
  forest : d.forest = c.forest
  board : d.board = c.board
  roster : d.roster = c.roster
  chain : d.chain = c.chain
  target : d.target = c.target
  queue : d.queue = c.queue ++ more

/-- Deployments whose names are all free are queued, and replace none. -/
theorem exists_lined (hwell : ∀ b ∈ more, Wellformed c.chain b)
    (hnodup : ((c.queue ++ more).flatMap Blueprint.names).Nodup)
    (hnew : ∀ b ∈ more, ∀ name ∈ b.names, c.forest.find? name = none) :
    ∃ d, addAll more c = (.ok (), d) ∧ Lined more c d := by
  induction more generalizing c with
  | nil => exact ⟨c, rfl, rfl, rfl, rfl, rfl, rfl, (List.append_nil _).symm⟩
  | cons b more ih =>
    have hb := hwell b List.mem_cons_self
    have hnew' := hnew b List.mem_cons_self
    have htop : c.forest.topLevel? b.name = none := by
      unfold Forest.topLevel?
      rw [hnew' b.name b.name_mem_names]
      rfl
    rw [List.append_cons] at hnodup
    have hnames : b.names.Nodup ∧ ∀ b' ∈ c.queue, ∀ name ∈ b.names, name ∉ b'.names := by
      rw [List.flatMap_append, List.flatMap_append, List.flatMap_singleton, List.nodup_append,
        List.nodup_append] at hnodup
      refine ⟨hnodup.1.2.1, fun b' hb' name hname hmem ↦ ?_⟩
      exact hnodup.1.2.2 name (List.mem_flatMap.2 ⟨b', hb', hmem⟩) name hname rfl
    have herror : c.queueError? b = none := by
      have hfault : NameFault.first? (c.nameTaken none) [] b.names = none := by
        refine NameFault.first?_eq_none_iff.2 ⟨fun name hname ↦ ?_, hnames.1⟩
        refine ⟨hb.blank name hname, nameTaken_eq_false_iff.2 ⟨fun b' hb' ↦ ?_, ?_⟩, by simp⟩
        · exact hnames.2 b' hb' name hname
        · rw [hnew' name hname]
          simp
      unfold queueError?
      rw [htop, hfault, unknownStage?_eq_none hb.known]
      rfl
    obtain ⟨d, heq, hlined⟩ := ih (c := { c.note (.queued b) with queue := c.queue ++ [b] })
      (fun b' hb' ↦ hwell b' (List.mem_cons_of_mem _ hb')) hnodup
      fun b' hb' ↦ hnew b' (List.mem_cons_of_mem _ hb')
    refine ⟨d, ?_, hlined.forest, hlined.board, hlined.roster, hlined.chain, hlined.target, ?_⟩
    · unfold addAll add
      rw [herror, htop]
      exact heq
    · rw [hlined.queue, List.append_assoc]
      rfl

theorem Growing.find?_eq_none (growing : Growing g ceil bs c)
    (hnodup : ((bs ++ more).flatMap Blueprint.names).Nodup) (hb : b ∈ more) {name : String}
    (hname : name ∈ b.names) : c.forest.find? name = none := by
  rw [Forest.find?_eq_none_iff]
  rintro k n hn rfl
  obtain ⟨u, hu, rfl⟩ := Forest.node?_eq_some_iff.1 hn
  obtain ⟨p, hp⟩ := growing.sound.exists_progress hn
  have hroot := Board.root_of_get? hp
  obtain ⟨b', hb', grows⟩ := growing.origin p (hroot.symm ▸ hp)
  have hhome : c.home? u.name = some p.root :=
    growing.sound.home?_eq_some_iff.2 ⟨k, u, hu, rfl, hroot.symm⟩
  have hmem := growing.mem_names hhome grows (hroot.symm ▸ hp)
  rw [List.flatMap_append, List.nodup_append] at hnodup
  exact hnodup.2.2 u.name (List.mem_flatMap.2 ⟨b', hb', hmem⟩) u.name
    (List.mem_flatMap.2 ⟨b, hb, hname⟩) rfl

theorem Growing.lined (growing : Growing g ceil bs c) (hlined : Lined more c d) (sound : d.Sound) :
    Growing g ceil bs d := by
  refine ⟨sound, fun {h p} hp ↦ ?_, fun h p hp ↦ ?_, hlined.roster.trans growing.roster,
    hlined.target.trans growing.target, growing.names, fun p hp ↦ ?_, fun b hb ↦ ?_⟩
  · rw [hlined.board] at hp
    exact growing.waits hp
  · rw [hlined.board] at hp
    exact growing.low h p hp
  · rw [hlined.board] at hp
    obtain ⟨b, hb, grows⟩ := growing.origin p hp
    exact ⟨b, hb, grows.still (congrArg (·.treeUnits p.root) hlined.forest) p.waiting⟩
  · rw [hlined.board]
    exact growing.planted b hb

/-- A batch plants what is queued and lets everything grow. -/
theorem Growing.process (growing : Growing g ceil bs c) (hqueue : c.queue = more)
    (hnodup : ((bs ++ more).flatMap Blueprint.names).Nodup) (blind : g.crew.Local)
    (keeps : g.crew.KeepsRoster) {all : List Blueprint} (capped : Capped g ceil all)
    (hsub : bs ++ more ⊆ all)
    (smooth : ∀ entry, Told c (c.process g.crew).2 entry → entry.isTrouble = false) :
    Growing g ceil (bs ++ more) (c.process g.crew).2 := by
  obtain ⟨m, k, e, tally, heq, hparts⟩ := exists_parts g.crew growing.sound
  rw [heq] at smooth ⊢
  obtain ⟨hm, hk, he⟩ := hparts.sound growing.sound
  have hnote := continues_note e (.completed tally)
  have hsecond := Steps.continues (Turns.steps hparts.second) hk
  have hfirst := Steps.continues (hparts.planned growing.sound) growing.sound
  have hmiddle := Steps.continues (hparts.replaced growing.sound) hm
  have hgrown : Growing g ceil bs m := hparts.first.growing growing blind keeps capped
    (fun _ hb ↦ hsub (List.mem_append_left _ hb)) fun entry htold ↦
      smooth entry (hnote.told (hsecond.told (hmiddle.told htold)))
  have hsweep : m.sweep = m := hm.sweep_eq_self fun h q hq ↦ by
    obtain ⟨b, _, grows⟩ := hgrown.origin q ((Board.root_of_get? hq).symm ▸ hq)
    exact grows.removing
  have hplanted := hparts.planted
  rw [hsweep, hqueue] at hplanted
  have hempty : Growing g ceil bs { m with queue := [] } :=
    ⟨hsweep ▸ hparts.emptied growing.sound, hgrown.waits, hgrown.low, hgrown.roster,
      hgrown.target, hgrown.names, fun p hp ↦ by
        obtain ⟨b, hb, grows⟩ := hgrown.origin p hp
        exact ⟨b, hb, grows.still (d := { m with queue := [] }) rfl p.waiting⟩, hgrown.planted⟩
  have hall := hparts.second.growing (hempty.plantAll rfl hplanted hnodup) blind keeps capped hsub
    fun entry htold ↦ smooth entry (hnote.told (htold.continues hfirst))
  refine ⟨hall.sound.note _, hall.waits, hall.low, hall.roster, hall.target, hall.names,
    fun p hp ↦ ?_, hall.planted⟩
  obtain ⟨b, hb, grows⟩ := hall.origin p hp
  exact ⟨b, hb, grows.still (d := e.note (.completed tally)) rfl p.waiting⟩

/-- A request to deploy plants what it is about and lets everything grow until it is at rest. -/
theorem Growing.serve (growing : Growing g ceil bs c) (hqueue : c.queue = []) {r : Request β σ}
    (hdeploys : r.isDeploying = true) (hwell : ∀ b ∈ r.plans, Wellformed c.chain b)
    (hnodup : ((bs ++ r.plans).flatMap Blueprint.names).Nodup) (blind : g.crew.Local)
    (keeps : g.crew.KeepsRoster) {all : List Blueprint} (capped : Capped g ceil all)
    (hsub : bs ++ r.plans ⊆ all)
    (smooth : ∀ entry, Told c (c.serve g.crew r).2 entry → entry.isTrouble = false) :
    Growing g ceil (bs ++ r.plans) (c.serve g.crew r).2 ∧ (c.serve g.crew r).2.queue = [] ∧
      ∀ h, (c.serve g.crew r).2.Rests h := by
  have hserve : c.serve g.crew r = c.deployAll g.crew r.plans := by
    cases r <;> first | rfl | exact absurd hdeploys (by simp [Request.isDeploying])
  have hplans : (r.plans.flatMap Blueprint.names).Nodup := by
    rw [List.flatMap_append] at hnodup
    exact (List.nodup_append.1 hnodup).2.1
  obtain ⟨m, hadd, hlined⟩ := exists_lined hwell (by rw [hqueue]; exact hplans)
    fun b hb name hname ↦ growing.find?_eq_none hnodup hb hname
  have hsteps := (growing.sound.prepares_addAll g.crew r.plans).steps
  rw [hadd] at hsteps
  have hm := Steps.sound hsteps growing.sound
  have hprocess : (c.serve g.crew r).2 = (m.process g.crew).2 := by
    rw [hserve]
    unfold deployAll
    rw [hadd, andThen_ok, hm.process_ok g.crew, andThen_ok]
  have hcontinues := Steps.continues hsteps growing.sound
  rw [hprocess] at smooth ⊢
  have hsmooth : ∀ entry, Told m (m.process g.crew).2 entry → entry.isTrouble = false :=
    fun entry htold ↦ smooth entry (htold.continues hcontinues)
  have hlines : m.queue = r.plans := by rw [hlined.queue, hqueue, List.nil_append]
  refine ⟨(growing.lined hlined hm).process hlines hnodup blind keeps capped hsub hsmooth,
    (hm.finished_process g.crew).queue, hm.rests_of_told g.crew fun entry htold ↦ ?_⟩
  have htrouble := hsmooth entry htold
  cases entry <;> first | rfl | exact htrouble

theorem Growing.serveAll (growing : Growing g ceil bs c) (hqueue : c.queue = [])
    (rests : ∀ h, c.Rests h) {requests : List (Request β σ)}
    (hdeploys : ∀ r ∈ requests, r.isDeploying = true)
    (hwell : ∀ b ∈ requests.flatMap Request.plans, Wellformed g.roster.chain b)
    (hnodup : ((bs ++ requests.flatMap Request.plans).flatMap Blueprint.names).Nodup)
    (blind : g.crew.Local) (keeps : g.crew.KeepsRoster) {all : List Blueprint}
    (capped : Capped g ceil all) (hsub : bs ++ requests.flatMap Request.plans ⊆ all)
    (smooth : ∀ entry, Told c (c.serveAll g.crew requests) entry → entry.isTrouble = false) :
    Growing g ceil (bs ++ requests.flatMap Request.plans) (c.serveAll g.crew requests) ∧
      ∀ h, (c.serveAll g.crew requests).Rests h := by
  induction requests generalizing bs c with
  | nil =>
    rw [List.flatMap_nil, List.append_nil]
    exact ⟨growing, rests⟩
  | cons r requests ih =>
    rw [List.flatMap_cons, ← List.append_assoc] at hnodup hsub ⊢
    rw [List.flatMap_cons] at hwell
    have htidy : c.Tidy := fun {h p} hp _ ↦ growing.low h p hp
    obtain ⟨hfirst, htidy'⟩ := growing.sound.steps_serve g.crew growing.waits htidy r
    have hsound := Steps.sound hfirst growing.sound
    have hrest := (hsound.steps_serveAll g.crew (Steps.waits hfirst growing.sound growing.waits)
      htidy' requests).1
    have hnodup' : ((bs ++ r.plans).flatMap Blueprint.names).Nodup := by
      rw [List.flatMap_append] at hnodup
      exact (List.nodup_append.1 hnodup).1
    obtain ⟨hgrowing, hempty, hrests⟩ := growing.serve hqueue (hdeploys r List.mem_cons_self)
      (fun b hb ↦ growing.chain ▸ hwell b (List.mem_append_left _ hb)) hnodup' blind keeps capped
      (fun _ hb ↦ hsub (List.mem_append_left _ hb)) fun entry htold ↦
        smooth entry ((Steps.continues hrest hsound).told htold)
    exact ih hgrowing hempty hrests (fun r hr ↦ hdeploys r (List.mem_cons_of_mem _ hr))
      (fun b hb ↦ hwell b (List.mem_append_right _ hb)) hnodup hsub fun entry htold ↦
        smooth entry (htold.continues (Steps.continues hfirst growing.sound))

end Controller

end Rollout
