import Mathlib.Data.String.Basic
import Rollout.Proofs.Growth

/-!
Confluence. Deployments that all grow in one way can only wait for each other, and what one of them
waits for is never further in a run than it is when another run has come to rest: the first to
break through would have had all it needs in the other run as well. So two runs that are asked for
the same deployments, in whatever order and in however many batches, come to rest at one place.
-/

set_option autoImplicit false
set_option relaxedAutoImplicit false

namespace Rollout

variable {β σ : Type}

namespace Sorting

variable {α : Type} {a b name : String}

theorem enter_before (hlt : a < name) (x z : α) (rest : List (String × α)) :
    enter a x ((name, z) :: rest) = (a, x) :: (name, z) :: rest :=
  if_pos hlt

theorem enter_same (x z : α) (rest : List (String × α)) :
    enter a x ((a, z) :: rest) = (a, x) :: rest := by
  unfold enter
  rw [if_neg (lt_irrefl a), if_pos rfl]

theorem enter_after (hlt : name < a) (x z : α) (rest : List (String × α)) :
    enter a x ((name, z) :: rest) = (name, z) :: enter a x rest := by
  rw [enter, if_neg hlt.asymm, if_neg hlt.ne']

theorem enter_comm_of_lt (hlt : a < b) (x y : α) (l : List (String × α)) :
    enter a x (enter b y l) = enter b y (enter a x l) := by
  induction l with
  | nil =>
    show enter a x [(b, y)] = enter b y [(a, x)]
    rw [enter_before hlt, enter_after hlt]
    rfl
  | cons head rest ih =>
    obtain ⟨name, z⟩ := head
    rcases lt_trichotomy b name with hb | rfl | hb
    · rw [enter_before hb, enter_before hlt, enter_before (hlt.trans hb), enter_after hlt,
        enter_before hb]
    · rw [enter_same, enter_before hlt, enter_before hlt, enter_after hlt, enter_same]
    · rw [enter_after hb]
      rcases lt_trichotomy a name with ha | rfl | ha
      · rw [enter_before ha, enter_before ha, enter_after hlt, enter_after hb]
      · rw [enter_same, enter_same, enter_after hlt]
      · rw [enter_after ha, enter_after ha, enter_after hb, ih]

/-- It does not matter which of two different names is entered first. -/
theorem enter_comm (hne : a ≠ b) (x y : α) (l : List (String × α)) :
    enter a x (enter b y l) = enter b y (enter a x l) := by
  rcases lt_or_gt_of_ne hne with hlt | hlt
  · exact enter_comm_of_lt hlt x y l
  · exact (enter_comm_of_lt hlt y x l).symm

end Sorting

namespace Report

variable {p q : Progress}

/-- It does not matter which of two deployments of different names is looked at first. -/
theorem record_comm (hne : p.name ≠ q.name) (r : Report) :
    (r.record p).record q = (r.record q).record p := by
  cases hp : p.error <;> cases hq : q.error <;> simp only [record, hp, hq]
  case none.none => by_cases p.stage = p.requested <;> by_cases q.stage = q.requested <;>
    simp [*, Sorting.enter_comm hne]
  case none.some | some.none => split <;> rfl
  case some.some => simp [Sorting.enter_comm hne]

/-- A report does not depend on the order in which deployments of different names are looked at. -/
theorem of_perm {ps qs : List Progress} (hperm : ps.Perm qs)
    (hnames : ∀ p ∈ ps, ∀ q ∈ ps, p.name = q.name → p = q) : Report.of ps = Report.of qs := by
  refine hperm.foldl_eq' (fun p hp q hq r ↦ ?_) empty
  by_cases heq : p.name = q.name
  · rw [hnames p hp q hq heq]
  · exact record_comm heq r

end Report

namespace Progress

/-- Progress without the slot on which it is tracked. -/
def unplaced (p : Progress) : Progress := { p with root := 0 }

end Progress

theorem Report.of_unplaced (ps : List Progress) :
    Report.of (ps.map Progress.unplaced) = Report.of ps := by
  unfold Report.of
  rw [List.foldl_map]
  rfl

namespace Controller

variable {g : Setting β σ} {c d : Controller β σ} {ceil ceil' : Blueprint → Nat}
  {bs all : List Blueprint} {b : Blueprint} {p q : Progress}

/-! What a run at rest holds back. -/

/-- The place at which the deployment of a blueprint is tracked. -/
def reached (c : Controller β σ) (b : Blueprint) : Nat :=
  ((c.stage? b.name).map Stage.index).getD 0

theorem Growing.reached_eq (growing : Growing g ceil bs c) (hp : c.board.get? p.root = some p)
    (grows : Grows g (ceil b) c b p) : c.reached b = p.stage.index := by
  unfold reached stage?
  rw [grows.progress?_eq growing.sound hp b.name_mem_names]
  rfl

/-- Nothing gets above the stage that everything is asked for. -/
theorem capped_target (g : Setting β σ) (all : List Blueprint) :
    Capped g (fun _ ↦ g.target.index) all := by
  intro bs c b p next _ growing _ hp grows hready
  obtain ⟨_, hbelow, hnext, _⟩ := of_verdict_ready hp hready
  rw [Chain.le_iff_index (growing.sound.requested hp) (growing.sound.stage hp), grows.requested]
    at hbelow
  have hindex := Chain.index_of_next? hnext
  show next.index ≤ g.target.index
  omega

/-- What is met where deployments are not further is met where they are. -/
theorem Growing.meets (growing : Growing g d.reached bs c) (growing' : Growing g ceil all d)
    (hsub : bs ⊆ all) {n : Need} (hmeets : c.meets n = true) : d.meets n = true := by
  unfold Controller.meets at hmeets ⊢
  rw [Option.any_eq_true] at hmeets
  obtain ⟨t, ht, hmeets⟩ := hmeets
  rw [Bool.and_eq_true, Option.any_eq_true] at hmeets
  obtain ⟨_, s, hs, hle⟩ := hmeets
  obtain ⟨b, hb, hname, hget, grows⟩ := growing.of_progress? ht
  obtain ⟨t', hget', grows'⟩ := growing'.exists_grows (hsub hb)
  have hstage := grows.stage
  rw [growing'.reached_eq hget' grows'] at hstage
  have hs' := Chain.contains_of_resolve? hs
  rw [growing.chain, ← growing'.chain] at hs hs'
  have hle' : s ≤ t'.stage := by
    have hindex := Stage.index_le_of_le (of_decide_eq_true hle)
    rw [Chain.le_iff_index hs' (growing'.sound.stage hget')]
    exact Nat.le_trans hindex hstage
  rw [grows'.progress?_eq growing'.sound hget' hname, Option.any_some, grows'.error, hs,
    Option.any_some, decide_eq_true hle']
  rfl

/-- Nothing that two runs are asked for alike gets further in one than it is where the other has
come to rest. -/
theorem Growing.capped (growing : Growing g ceil all d) (rests : ∀ h, d.Rests h) :
    Capped g d.reached all := by
  intro bs c b p next hsub growing' hb hp grows hready
  obtain ⟨q, hq, grows'⟩ := growing.exists_grows (hsub hb)
  obtain ⟨_, hbelow, hnext, hmissing⟩ := of_verdict_ready hp hready
  have hreached := growing.reached_eq hq grows'
  have hindex := Chain.index_of_next? hnext
  by_contra hlt
  have hle := grows.stage
  have hchain : d.chain = c.chain := growing.chain.trans growing'.chain.symm
  have hstage : q.stage = p.stage := by
    refine Chain.eq_of_index_eq (growing.sound.stage hq) ?_ (by omega)
    rw [hchain]
    exact growing'.sound.stage hp
  have hneeds : d.needs q.root = c.needs p.root := by
    rw [grows.needs, grows'.needs, hstage]
  have hstill := (rests q.root).still.missing_ne_nil hq grows'.error
    (by rw [grows'.requested, hstage, ← grows.requested]; exact hbelow)
    (by rw [hchain, hstage]; exact hnext)
  rw [missing_eq, List.map_eq_nil_iff] at hmissing
  rw [missing_eq, ne_eq, List.map_eq_nil_iff] at hstill
  refine hstill ?_
  unfold unmet at hmissing ⊢
  rw [List.filter_eq_nil_iff] at hmissing ⊢
  intro n hn hunmet
  rw [hneeds] at hn
  rw [Bool.and_eq_true, Bool.not_eq_true', hchain] at hunmet
  refine hmissing n hn ?_
  rw [Bool.and_eq_true, Bool.not_eq_true']
  refine ⟨hunmet.1, ?_⟩
  cases hmeets : c.meets n with
  | false => rfl
  | true =>
    rw [growing'.meets growing hsub hmeets] at hunmet
    exact absurd hunmet.2 (by simp)

/-! Two runs at rest. -/

theorem Growing.perm (growing : Growing g ceil bs c) (hperm : bs.Perm all) :
    Growing g ceil all c := by
  refine ⟨growing.sound, growing.waits, growing.low, growing.roster, growing.target, ?_,
    fun p hp ↦ ?_, fun b hb ↦ growing.planted b (hperm.mem_iff.2 hb)⟩
  · exact (hperm.flatMap_right _).nodup_iff.1 growing.names
  · obtain ⟨b, hb, grows⟩ := growing.origin p hp
    exact ⟨b, hperm.mem_iff.1 hb, grows⟩

/-- Two controllers at rest that hold the same deployments, neither further than the other. -/
structure Level (g : Setting β σ) (all : List Blueprint) (c d : Controller β σ) : Prop where
  left : Growing g d.reached all c
  right : Growing g c.reached all d
  rests : ∀ h, c.Rests h
  rests' : ∀ h, d.Rests h

variable (level : Level g all c d)

include level

theorem Level.chain : d.chain = c.chain :=
  level.right.chain.trans level.left.chain.symm

theorem Level.symm : Level g all d c :=
  ⟨level.right, level.left, level.rests', level.rests⟩

/-- What has grown out of one blueprint is at one stage in both. -/
theorem Level.stage (hp : c.board.get? p.root = some p) (hq : d.board.get? q.root = some q)
    (grows : Grows g (d.reached b) c b p) (grows' : Grows g (c.reached b) d b q) :
    q.stage = p.stage := by
  have hle := grows.stage
  have hge := grows'.stage
  rw [level.right.reached_eq hq grows'] at hle
  rw [level.left.reached_eq hp grows] at hge
  refine Chain.eq_of_index_eq (level.right.sound.stage hq) ?_ (Nat.le_antisymm hge hle)
  rw [level.chain]
  exact level.left.sound.stage hp

theorem Level.meets {n : Need} : d.meets n = c.meets n := by
  rw [Bool.eq_iff_iff]
  exact ⟨level.right.meets level.left (List.Subset.refl _),
    level.left.meets level.right (List.Subset.refl _)⟩

/-- A name leads to deployments that have grown out of one blueprint, or nowhere in both. -/
theorem Level.progress?_cases (name : String) :
    c.progress? name = none ∧ d.progress? name = none ∨
      ∃ b p q, c.progress? name = some p ∧ d.progress? name = some q ∧
        c.board.get? p.root = some p ∧ d.board.get? q.root = some q ∧
        Grows g (d.reached b) c b p ∧ Grows g (c.reached b) d b q := by
  cases hc : c.progress? name with
  | some p =>
    obtain ⟨b, hb, hname, hp, grows⟩ := level.left.of_progress? hc
    obtain ⟨q, hq, grows'⟩ := level.right.exists_grows hb
    exact Or.inr ⟨b, p, q, rfl, grows'.progress?_eq level.right.sound hq hname, hp, hq, grows,
      grows'⟩
  | none =>
    cases hd : d.progress? name with
    | none => exact Or.inl ⟨rfl, rfl⟩
    | some q =>
      obtain ⟨b, hb, hname, _⟩ := level.right.of_progress? hd
      obtain ⟨p, hp, grows⟩ := level.left.exists_grows hb
      rw [grows.progress?_eq level.left.sound hp hname] at hc
      exact absurd hc (by simp)

theorem Level.account (n : Need) : d.account n = c.account n := by
  unfold Controller.account
  rcases level.progress?_cases n.target with ⟨hc, hd⟩ | ⟨b, p, q, hc, hd, hp, hq, grows, grows'⟩
  · rw [hc, hd]
  · rw [hc, hd, Option.map_some, Option.map_some, Option.any_some, Option.any_some, grows.error,
      grows'.error, level.stage hp hq grows grows']

/-- What has grown out of one blueprint waits for the same in both. -/
theorem Level.waiting (hp : c.board.get? p.root = some p) (hq : d.board.get? q.root = some q)
    (grows : Grows g (d.reached b) c b p) (grows' : Grows g (c.reached b) d b q) :
    q.waiting = p.waiting := by
  have hstage := level.stage hp hq grows grows'
  have hrequested : q.requested = p.requested := grows'.requested.trans grows.requested.symm
  by_cases hlt : p.stage.index < p.requested.index
  · have hlt' : q.stage.index < q.requested.index := by rwa [hstage, hrequested]
    obtain ⟨next, hnext, hmissing, _⟩ :=
      exists_missing level.left.sound hp (level.rests p.root) grows.error hlt
    obtain ⟨next', hnext', hmissing', _⟩ :=
      exists_missing level.right.sound hq (level.rests' q.root) grows'.error hlt'
    rw [hstage, level.chain, hnext, Option.some_inj] at hnext'
    have hneeds : d.needs q.root = c.needs p.root := by
      rw [grows.needs, grows'.needs, hstage]
    rw [← hmissing, ← hmissing', missing_eq, missing_eq, ← hnext']
    unfold unmet
    rw [hneeds, level.chain, funext level.account]
    congr 2
    funext n
    rw [level.meets]
  · have hwaiting : p.waiting = [] := by
      by_contra hne
      exact hlt (level.left.waits hp hne).2
    have hwaiting' : q.waiting = [] := by
      by_contra hne
      have hlt' := (level.right.waits hq hne).2
      rw [hstage, hrequested] at hlt'
      exact hlt hlt'
    rw [hwaiting, hwaiting']

/-- A name leads to the same progress in both, but for the slots. -/
theorem Level.progress? (name : String) :
    (d.progress? name).map Progress.unplaced = (c.progress? name).map Progress.unplaced := by
  rcases level.progress?_cases name with ⟨hc, hd⟩ | ⟨b, p, q, hc, hd, hp, hq, grows, grows'⟩
  · rw [hc, hd]
  · rw [hc, hd, Option.map_some, Option.map_some, Option.some_inj]
    have hstage := level.stage hp hq grows grows'
    have hwaiting := level.waiting hp hq grows grows'
    unfold Progress.unplaced
    rw [hstage, hwaiting, grows.name, grows'.name, grows.error, grows'.error, grows.removing,
      grows'.removing, grows.requested, grows'.requested]

theorem Level.mem_tracked {x : Progress} (hx : x ∈ c.board.tracked.map Progress.unplaced) :
    x ∈ d.board.tracked.map Progress.unplaced := by
  obtain ⟨p, hp, rfl⟩ := List.mem_map.1 hx
  have hget := (mem_tracked_iff level.left.sound).1 hp
  obtain ⟨b, _, grows⟩ := level.left.origin p hget
  have hsame := level.progress? b.name
  rw [grows.progress?_eq level.left.sound hget b.name_mem_names, Option.map_some,
    Option.map_eq_some_iff] at hsame
  obtain ⟨q, hq, heq⟩ := hsame
  obtain ⟨_, _, _, hq', _⟩ := level.right.of_progress? hq
  exact List.mem_map.2 ⟨q, (mem_tracked_iff level.right.sound).2 hq', heq⟩

omit level

theorem Sound.eq_of_name (sound : c.Sound) (hp : p ∈ c.board.tracked) (hq : q ∈ c.board.tracked)
    (hname : p.name = q.name) : p = q := by
  rw [mem_tracked_iff sound] at hp hq
  rw [sound.root_eq hp hq hname, hq] at hp
  exact (Option.some_inj.1 hp).symm

theorem Sound.nodup_names_tracked (sound : c.Sound) :
    (c.board.tracked.map Progress.name).Nodup := by
  have hnodup : c.board.tracked.Nodup := by
    refine List.Nodup.of_map Progress.root ?_
    rw [map_root_tracked sound]
    exact sound.order
  exact hnodup.map_on fun p hp q hq hname ↦ sound.eq_of_name hp hq hname

theorem Sound.nodup_unplaced (sound : c.Sound) :
    (c.board.tracked.map Progress.unplaced).Nodup := by
  refine List.Nodup.of_map Progress.name ?_
  rw [List.map_map]
  exact sound.nodup_names_tracked

/-- Controllers that hold the same deployments at the same stages give the same report. -/
theorem Level.report (level : Level g all c d) : d.report = c.report := by
  have hperm : (d.board.tracked.map Progress.unplaced).Perm
      (c.board.tracked.map Progress.unplaced) :=
    (List.perm_ext_iff_of_nodup level.right.sound.nodup_unplaced
      level.left.sound.nodup_unplaced).2 fun _ ↦ ⟨level.symm.mem_tracked, level.mem_tracked⟩
  unfold Controller.report
  rw [← Report.of_unplaced, ← Report.of_unplaced c.board.tracked]
  refine Report.of_perm hperm fun x hx y hy hname ↦ ?_
  obtain ⟨p, hp, rfl⟩ := List.mem_map.1 hx
  obtain ⟨q, hq, rfl⟩ := List.mem_map.1 hy
  rw [level.right.sound.eq_of_name hp hq hname]

/-! Runs that are asked for nothing but to deploy. -/

theorem fields_of_build {config : Config} {sink : Sink} {roster : Roster β} {state : σ}
    (hbuild : build config sink roster state = .ok c) :
    c.roster = roster ∧ c.queue = [] ∧
      roster.chain.find? config.defaultTarget = some c.target := by
  unfold build at hbuild
  split at hbuild
  · exact absurd hbuild (by simp)
  · split at hbuild
    · exact absurd hbuild (by simp)
    · next target hfind =>
      obtain rfl := Except.ok.inj hbuild
      exact ⟨rfl, rfl, hfind⟩

/-- A run that starts with nothing lets what it is asked for grow, below whatever ceiling nothing
breaks through. -/
theorem growing_of_build {config : Config} {sink : Sink} {state : σ}
    (hbuild : build config sink g.roster state = .ok c) (htarget : c.target = g.target)
    {requests : List (Request β σ)} (hdeploys : ∀ r ∈ requests, r.isDeploying = true)
    (hwell : ∀ b ∈ requests.flatMap Request.plans, Wellformed g.roster.chain b)
    (hnodup : ((requests.flatMap Request.plans).flatMap Blueprint.names).Nodup)
    (blind : g.crew.Local) (keeps : g.crew.KeepsRoster)
    (capped : Capped g ceil (requests.flatMap Request.plans))
    (smooth : ∀ entry ∈ (c.serveAll g.crew requests).journal, entry.isTrouble = false) :
    Growing g ceil (requests.flatMap Request.plans) (c.serveAll g.crew requests) ∧
      ∀ h, (c.serveAll g.crew requests).Rests h := by
  obtain ⟨sound, hboard, _, _⟩ := of_build hbuild
  have hnone : ∀ h p, c.board.get? h ≠ some p := fun h p ↦ by
    rw [hboard]
    simp [Board.empty, Board.get?]
  obtain ⟨hroster, hqueue, _⟩ := fields_of_build hbuild
  have growing : Growing g ceil [] c :=
    ⟨sound, fun hp ↦ absurd hp (hnone _ _), fun _ _ hp ↦ absurd hp (hnone _ _), hroster, htarget,
      List.nodup_nil, fun _ hp ↦ absurd hp (hnone _ _), fun _ hb ↦ absurd hb List.not_mem_nil⟩
  exact growing.serveAll hqueue (fun _ _ hp ↦ absurd hp (hnone _ _)) hdeploys hwell hnodup blind
    keeps capped (List.Subset.refl _) fun entry htold ↦ smooth entry htold.mem

/-- The result of deploying does not depend on the order of the deployments and on how they are cut
into calls: two controllers that are set up over one roster and asked for the same deployments end
with the same stage for every name and the same report, where what deployers make of a unit depends
on that unit alone, but not on its slots, none of them changes the roster or fails, and no batch uses
up its passes. A unit is planted in other slots when others are planted before it, so the slots that
it tells of do not count as part of it. -/
theorem deployments_confluent {crew : Crew β σ} {config config' : Config} {sink sink' : Sink}
    {roster : Roster β} {state state' : σ} {c c' : Controller β σ}
    (hbuild : build config sink roster state = .ok c)
    (hbuild' : build config' sink' roster state' = .ok c')
    (htarget : config'.defaultTarget = config.defaultTarget)
    (blind : crew.Local) (keeps : crew.KeepsRoster) {requests requests' : List (Request β σ)}
    (hdeploys : ∀ r ∈ requests, r.isDeploying = true)
    (hdeploys' : ∀ r ∈ requests', r.isDeploying = true)
    (hperm : (requests'.flatMap Request.plans).Perm (requests.flatMap Request.plans))
    (hwell : ∀ b ∈ requests.flatMap Request.plans, Wellformed roster.chain b)
    (hnodup : ((requests.flatMap Request.plans).flatMap Blueprint.names).Nodup)
    (smooth : ∀ entry ∈ (c.serveAll crew requests).journal, entry.isTrouble = false)
    (smooth' : ∀ entry ∈ (c'.serveAll crew requests').journal, entry.isTrouble = false) :
    (∀ name, (c'.serveAll crew requests').stage? name = (c.serveAll crew requests).stage? name) ∧
      (c'.serveAll crew requests').report = (c.serveAll crew requests).report := by
  let g : Setting β σ := ⟨crew, roster, state, c.target⟩
  have hwell' : ∀ b ∈ requests'.flatMap Request.plans, Wellformed roster.chain b :=
    fun b hb ↦ hwell b (hperm.mem_iff.1 hb)
  have hnodup' := (hperm.flatMap_right Blueprint.names).nodup_iff.2 hnodup
  have htarget' : c'.target = c.target := by
    have hfind := (fields_of_build hbuild').2.2
    rw [htarget, (fields_of_build hbuild).2.2] at hfind
    exact (Option.some_inj.1 hfind).symm
  have hfirst : ∀ ceil, Capped g ceil (requests.flatMap Request.plans) →
      Growing g ceil (requests.flatMap Request.plans) (c.serveAll crew requests) ∧
        ∀ h, (c.serveAll crew requests).Rests h := fun _ capped ↦
    growing_of_build hbuild rfl hdeploys hwell hnodup blind keeps capped smooth
  have hsecond : ∀ ceil, Capped g ceil (requests'.flatMap Request.plans) →
      Growing g ceil (requests'.flatMap Request.plans) (c'.serveAll crew requests') ∧
        ∀ h, (c'.serveAll crew requests').Rests h := fun _ capped ↦
    growing_of_build hbuild' htarget' hdeploys' hwell' hnodup' blind keeps capped smooth'
  -- Each run is first bounded by the target alone, and then by where the other has come to rest.
  obtain ⟨growing, rests⟩ := hfirst _ (capped_target g _)
  obtain ⟨growing', rests'⟩ := hsecond _ (capped_target g _)
  have hleft := (hfirst _ ((growing'.perm hperm).capped rests')).1
  have hright := (hsecond _ ((growing.perm hperm.symm).capped rests)).1
  have level : Level g _ (c.serveAll crew requests) (c'.serveAll crew requests') :=
    ⟨hleft, hright.perm hperm, rests, rests'⟩
  refine ⟨fun name ↦ ?_, level.report⟩
  have hsame := congrArg (Option.map Progress.stage) (level.progress? name)
  rw [Option.map_map, Option.map_map] at hsame
  exact hsame

/-- Deployers that find out, while they work on "app", that it needs "db". -/
def inquiring : Crew Unit Unit := ⟨fun _ _ u _ _ ↦
  ⟨u.attachments, if u.name = "app" then [⟨"db", ⟨"PostParse", 2⟩, ⟨"PostParse", 2⟩⟩] else [], [],
    (), none⟩⟩

/-- A roster with one deployer, at the first stage. -/
def wired : Roster Unit :=
  ⟨Chain.standard, [⟨⟨{ name := "wire", stage := ⟨"Parse", 1⟩ }, ()⟩, ⟨"Parse", 1⟩, 0⟩], 1⟩

/-- A controller over that roster that drives deployments to the second stage. -/
def wiring : Controller Unit Unit := { postParsing with site := ⟨.empty, ⟨wired, (), #[]⟩⟩ }

/-- Three deployments one by one; the second needs what nobody deploys. -/
def onebyone : List (Request Unit Unit) :=
  [.deploy (.mk "app" .none [] [] []),
    .deploy (.mk "gui" .none [⟨"net", ⟨"PostParse", 2⟩, ⟨"Parse", 1⟩⟩] [] []),
    .deploy (.mk "db" .none [] [] [])]

/-- The same deployments, in another order and the first two at once. -/
def together : List (Request Unit Unit) :=
  [.deployAll [.mk "db" .none [] [] [], .mk "app" .none [] [] []],
    .deploy (.mk "gui" .none [⟨"net", ⟨"PostParse", 2⟩, ⟨"Parse", 1⟩⟩] [] [])]

theorem deployments_confluent_wired :
    (wiring.serveAll inquiring onebyone).board.tracked.map (fun p ↦ (p.name, p.stage.index)) =
        [("app", 2), ("gui", 1), ("db", 2)] ∧
      (wiring.serveAll inquiring together).report = (wiring.serveAll inquiring onebyone).report ∧
      (wiring.serveAll inquiring onebyone).report.blockedNames = ["gui"] := by
  have hbuild : build postParsing.config .silent wired () = .ok wiring := rfl
  have blind : inquiring.Local := fun u v hsame _ _ _ _ _ _ ↦ by
    have hattachments := congrArg LiveUnit.attachments hsame
    have hname := LiveUnit.name_eq_of_unplaced hsame
    refine ⟨hattachments, ?_, rfl⟩
    show (if v.name = "app" then _ else _) = if u.name = "app" then _ else _
    rw [hname]
  have hperm : (together.flatMap Request.plans).Perm (onebyone.flatMap Request.plans) :=
    (List.perm_append_singleton _ _).symm
  have hsmooth : ∀ entry ∈ (wiring.serveAll inquiring onebyone).journal,
      entry.isTrouble = false := by decide +kernel
  have hsmooth' : ∀ entry ∈ (wiring.serveAll inquiring together).journal,
      entry.isTrouble = false := by decide +kernel
  have hwell : ∀ b ∈ onebyone.flatMap Request.plans,
      (∀ name ∈ b.names, Text.isBlank name = false) ∧ ∀ n ∈ b.needs,
        (Chain.standard.resolve? n.before).isSome ∧ (Chain.standard.resolve? n.atLeast).isSome := by
    decide +kernel
  refine ⟨by decide +kernel, ?_, by decide +kernel⟩
  exact (deployments_confluent hbuild hbuild rfl blind (fun _ _ _ _ _ ↦ rfl) (by decide)
    (by decide) hperm (fun b hb ↦ ⟨(hwell b hb).1, (hwell b hb).2⟩) (by decide +kernel) hsmooth
    hsmooth').2

end Controller

end Rollout
