import Rollout.Proofs.Ranks
import Rollout.Proofs.Requests

/-!
Dependency safety. After every single move each need that is in force is met: its target is live,
tracked and at least at the stage the need asks for. And a deployment enters a stage only when all
its needs for that stage are met by deployments that are not in error.
-/

set_option autoImplicit false
set_option relaxedAutoImplicit false

namespace Rollout

variable {β σ : Type}

namespace Position

/-- The target of a need is live, and its deployment is tracked and far enough. -/
def Meets (chain : Chain) (x : Position β) (n : Need) : Prop :=
  ∃ u q r, x.forest.byName? n.target = some u ∧ u.top ∈ x.board.order ∧
    x.board.get? u.top = some q ∧ chain.resolve? n.atLeast = some r ∧ r ≤ q.stage

/-- Every need in force of every tracked deployment is met. -/
def Safe (chain : Chain) (x : Position β) : Prop :=
  ∀ p ∈ x.board.tracked, ∀ n ∈ x.forest.treeNeeds p.root,
    Board.appliesFrom chain n ≤ p.stage → x.Meets chain n

/-- Every need that a deployment has for a stage is met by a deployment that is not in error. -/
def Admits (chain : Chain) (x : Position β) (root : Handle) (next : Stage) : Prop :=
  ∀ n ∈ x.forest.treeNeeds root, Board.appliesFrom chain n ≤ next →
    x.Meets chain n ∧ ∀ q, x.board.ofUnit? x.forest n.target = some q → q.error = none

end Position

namespace Entry

/-- A move leaves every need in force met, and a move up is made only when all needs for it are. -/
def Safe (chain : Chain) : Entry β → Prop
  | advanced move _ =>
    move.before.Admits chain move.root move.goal ∧ move.after.Safe chain
  | retreated move _ => move.after.Safe chain
  | _ => True

end Entry

namespace Controller

variable {crew : Crew β σ} {c d : Controller β σ} {h root : Handle} {p q : Progress} {n : Need}
  {rank : Handle → Nat → Nat} {name : String}

variable {below : Stage}

/-- A firm need in force is met where there is a rank. -/
theorem Ranked.meets (ranked : Ranked c rank) (sound : c.Sound) (hp : p ∈ c.board.tracked)
    (hn : n ∈ c.forest.treeNeeds p.root) (hfirm : n.Firm c.chain)
    (hforce : Board.appliesFrom c.chain n ≤ p.stage) : c.position.Meets c.chain n := by
  have hget := (mem_tracked_iff sound).1 hp
  have hindex := (Chain.le_iff_index (contains_appliesFrom c.chain n) (sound.stage hget)).1 hforce
  obtain ⟨t, q, r, hhome, hq, hr, hle, _⟩ := ranked.met hget n hn hfirm hindex
  obtain ⟨u, hu, rfl⟩ := Option.map_eq_some_iff.1 hhome
  refine ⟨u, q, r, hu, sound.tracked.2 ⟨q, hq⟩, hq, hr, ?_⟩
  exact (Chain.le_iff_index (Chain.contains_of_resolve? hr) (sound.stage hq)).2 hle

/-- Where needs in force are met in the order of ranks, they are met. -/
theorem Ranked.safe (ranked : Ranked c rank) (sound : c.Sound) (proper : c.Proper) :
    c.position.Safe c.chain := by
  intro p hp n hn hforce
  have hproper := proper p.root p ((mem_tracked_iff sound).1 hp) n hn
  exact ranked.meets sound hp hn hproper.firm hforce

/-! What the journal tells. -/

/-- Every move that the journal tells of was safe. -/
def Told.Safe (c : Controller β σ) : Prop := ∀ entry ∈ c.journal, entry.Safe c.chain

theorem Told.Safe.extend (safe : Told.Safe c) (hchain : d.chain = c.chain)
    {es : List (Entry β)} (hes : d.journal.toList = c.journal.toList ++ es)
    (hsafe : ∀ entry ∈ es, entry.Safe c.chain) : Told.Safe d := by
  intro entry hentry
  rw [← Array.mem_toList_iff, hes] at hentry
  rw [hchain]
  rcases List.mem_append.1 hentry with hentry | hentry
  · exact safe entry (Array.mem_toList_iff.1 hentry)
  · exact hsafe entry hentry

theorem safe_of_ofCrew {chain : Chain} {entry : Entry β} (hcrew : entry.ofCrew = true) :
    entry.Safe chain := by
  cases entry <;> first | exact trivial | exact absurd hcrew (by simp [Entry.ofCrew, Entry.isCall])

theorem Told.Safe.note (safe : Told.Safe c) {entry : Entry β} (hsafe : entry.Safe c.chain) :
    Told.Safe (c.note entry) := by
  refine safe.extend rfl (journal_note c entry) fun other hother ↦ ?_
  rw [List.mem_singleton.1 hother]
  exact hsafe

theorem Told.Safe.passed (safe : Told.Safe c) (hchain : d.chain = c.chain)
    {calls : List (Entry β)} (passed : c.site.ambient.Passed d.site.ambient calls) :
    Told.Safe d := by
  obtain ⟨es, hes, hcrew, _⟩ := passed.journal
  exact safe.extend hchain hes fun entry hentry ↦ safe_of_ofCrew (hcrew entry hentry)

theorem Told.Safe.lowered (safe : Told.Safe c) (ranked : Ranked (c.lowered crew p below) rank)
    (sound : c.Sound) (proper : c.Proper) (hp : c.board.get? p.root = some p)
    (hbelow : c.chain.prev? p.stage = some below) : Told.Safe (c.lowered crew p below) := by
  have hlowers : Lowers [] c (c.lowered crew p below) :=
    sound.lowers_lowered crew List.not_mem_nil hp hbelow
  have hleft : Told.Safe { c with
      site := (c.site.leaveStage crew p.root p.stage).2
      board := c.board.update p.root fun q ↦ { q with stage := below } } :=
    safe.passed rfl (sound.treated_lowered crew _).ambient
  refine hleft.note ?_
  exact ranked.safe (sound.of_alike hlowers.alike) (hlowers.proper proper)

/-- A recall keeps the rank, since whoever is on the path has entered its stage before the
deployment that is recalled last, and everyone that is to go down after it; and each of its moves is
safe if all needs are declared as they ought to be. -/
theorem Recalls.ranked {path : List Handle} {targets : List (Handle × Stage)}
    (recalls : Recalls crew path name targets c d) (ranked : Ranked c rank) (sound : c.Sound)
    (latest : Nat)
    (hpath : ∀ h ∈ path, ∀ q, c.board.get? h = some q → rank h q.stage.index ≤ latest)
    (htargets : ∀ target ∈ targets, latest < rank target.1 (target.2.index + 1)) :
    Ranked d rank ∧ (c.Proper → Told.Safe c → Told.Safe d) := by
  induction recalls generalizing latest with
  | nil => exact ⟨ranked, fun _ ↦ id⟩
  | pass _ _ ih =>
    exact ih ranked sound latest hpath fun target htarget ↦
      htargets target (List.mem_cons_of_mem _ htarget)
  | @down path name goal below targets q c m d hnew hq habove hbelow inner _ ihInner ihRest =>
    have hlatest : latest < rank q.root q.stage.index :=
      Nat.lt_of_lt_of_le (htargets _ List.mem_cons_self) (ranked.grows_le hq habove (Nat.le_refl _))
    have hnoted : Ranked (c.note (.recalling name q.root goal)) rank :=
      ranked.still rfl (fun _ ↦ rfl) (fun _ ↦ List.Subset.refl _) fun _ ↦ rfl
    have hmembers : ∀ h ∈ path, ∀ x, c.board.get? h = some x →
        rank h x.stage.index < rank q.root q.stage.index :=
      fun h hh x hx ↦ Nat.lt_of_le_of_lt (hpath h hh x hx) hlatest
    obtain ⟨hm, hlowers⟩ := inner.sound_lowers (sound.note _)
    obtain ⟨hinner, hinnerSafe⟩ := ihInner hnoted (sound.note _)
      (rank q.root q.stage.index) (fun h hh x hx ↦ by
        rcases List.mem_cons.1 hh with rfl | hh
        · obtain rfl := Option.some_inj.1 (hq.symm.trans hx)
          exact Nat.le_refl _
        · exact Nat.le_of_lt (hmembers h hh x hx))
      fun target htarget ↦ ranked.recalled hq hbelow htarget
    obtain ⟨hqm, hbelow'⟩ := hlowers.head_kept hq hbelow
    have hleft : Ranked (m.lowered crew q below) rank :=
      hinner.lowered hm crew hqm hbelow' fun hne hx hn hfirm hforce hhome hr ↦
        inner.free hnoted (sound.note _) hq hbelow hmembers hne hx hn hfirm hforce hhome hr
    have hlowered := hm.lowers_lowered crew hnew hqm hbelow'
    -- whoever is on the path has not moved
    have hstill : ∀ h ∈ path, ∀ x, (m.lowered crew q below).board.get? h = some x →
        rank h x.stage.index ≤ latest := fun h hh x hx ↦ by
      obtain ⟨y, hy, _⟩ := hlowered.alike.get? hx
      obtain ⟨z, hz, _⟩ := hlowers.alike.get? hy
      have hzm := hlowered.get?_of_mem hh (hlowers.get?_of_mem (List.mem_cons_of_mem _ hh) hz)
      obtain rfl := Option.some_inj.1 (hx.symm.trans hzm)
      exact hpath h hh _ hz
    obtain ⟨hrest, hrestSafe⟩ := ihRest hleft (hm.of_alike hlowered.alike) latest hstill htargets
    refine ⟨hrest, fun proper safe ↦ ?_⟩
    have hproper : m.Proper := hlowers.proper (c := c.note (.recalling name q.root goal)) proper
    exact hrestSafe (hlowered.proper hproper)
      ((hinnerSafe proper (safe.note trivial)).lowered hleft hm hproper hqm hbelow')

theorem Recalls.ranked_descend {m : Controller β σ}
    (recalls : Recalls crew [p.root] p.name (c.recalled p.root below) c m) (ranked : Ranked c rank)
    (sound : c.Sound) (hp : c.board.get? p.root = some p)
    (hbelow : c.chain.prev? p.stage = some below) :
    Ranked (m.lowered crew p below) rank ∧
      (c.Proper → Told.Safe c → Told.Safe (m.lowered crew p below)) := by
  obtain ⟨hm, hlowers⟩ := recalls.sound_lowers sound
  obtain ⟨hcalled, hsafe⟩ := recalls.ranked ranked sound
    (rank p.root p.stage.index) (fun h hh x hx ↦ by
      obtain rfl := List.mem_singleton.1 hh
      obtain rfl := Option.some_inj.1 (hp.symm.trans hx)
      exact Nat.le_refl _)
    fun target htarget ↦ ranked.recalled hp hbelow htarget
  obtain ⟨hpm, hbelow'⟩ := hlowers.head_kept hp hbelow
  have hleft : Ranked (m.lowered crew p below) rank :=
    hcalled.lowered hm crew hpm hbelow' fun hne hx hn hfirm hforce hhome hr ↦
      recalls.free ranked sound hp hbelow (by simp) hne hx hn hfirm hforce hhome hr
  refine ⟨hleft, fun proper safe ↦ ?_⟩
  exact (hsafe proper safe).lowered hleft hm (hlowers.proper proper) hpm hbelow'

/-! Single steps. -/

theorem Step.chain (step : Step crew c d) (sound : c.Sound) : d.chain = c.chain := by
  cases step with
  | turn turn => exact (turn.moves sound).chain
  | discard hp _ _ => exact chain_discard hp
  | plant _ _ => rfl
  | plan _ _ _ _ => rfl
  | staff _ => rfl
  | remark _ => rfl

/-- All needs that the journal brings up are declared as they ought to be. -/
def Told.Proper (c : Controller β σ) : Prop :=
  ∀ entry ∈ c.journal, ∀ n ∈ entry.needs, n.Proper c.chain

theorem Told.Proper.of_step (proper : Told.Proper d) (step : Step crew c d) (sound : c.Sound) :
    Told.Proper c := by
  intro entry hentry
  rw [← step.chain sound]
  exact proper entry ((step.continues sound).mem hentry)

theorem Brought.proper (brought : Brought c) (proper : Told.Proper c) : c.Proper := by
  intro h p hp n hn
  obtain ⟨entry, hentry, hn⟩ := brought h p hp n hn
  exact proper entry hentry n hn

/-- A deployment is ready for a stage only when all its needs for it are met. -/
theorem admits_of_ready {next : Stage} (sound : c.Sound) (hp : c.board.get? p.root = some p)
    (hready : c.verdict p.root = .ready next) : c.position.Admits c.chain p.root next := by
  obtain ⟨_, _, _, hmissing⟩ := of_verdict_ready hp hready
  intro n hn hle
  obtain ⟨t, q, r, hhome, hq, herror, hr, hrq⟩ :=
    shortfall?_eq_none_iff.1 (missing_eq_nil_iff.1 hmissing n hn hle)
  have hof : c.board.ofUnit? c.forest n.target = some q := by
    rw [ofUnit?_eq, hhome]
    exact hq
  obtain ⟨u, hu, rfl⟩ := Option.map_eq_some_iff.1 hhome
  refine ⟨⟨u, q, r, hu, sound.tracked.2 ⟨q, hq⟩, hq, hr, hrq⟩, fun x hx ↦ ?_⟩
  obtain rfl := Option.some_inj.1 (hof.symm.trans hx)
  exact herror

theorem Turn.ranked (turn : Turn crew c d) (ranked : Ranked c rank) (sound : c.Sound)
    (timely : d.Timely) :
    ∃ rank, Ranked d rank ∧ (c.Proper → d.Proper → Told.Safe c → Told.Safe d) := by
  have hsound := sound.of_alike (turn.moves sound).toAlike
  cases turn with
  | descend hp _ hbelow hrecalls =>
    obtain ⟨hranked, hsafe⟩ := hrecalls.ranked_descend ranked sound hp hbelow
    exact ⟨rank, hranked, fun proper _ ↦ hsafe proper⟩
  | @raise p next applied site hp hready henter =>
    obtain ⟨rank, hranked⟩ := ranked.raised sound hp hready henter timely
    obtain ⟨calls, hpassed⟩ := sound.passed_enterStage crew henter
    refine ⟨rank, hranked, fun _ proper safe ↦ ?_⟩
    have hsite : Told.Safe { c with
        site
        board := c.board.update p.root fun q ↦ { q with stage := next, waiting := [] } } :=
      safe.passed rfl hpassed
    refine hsite.note ⟨admits_of_ready sound hp hready, ?_⟩
    exact hranked.safe hsound proper
  | @stall p next failure site hp _ henter =>
    obtain ⟨calls, hpassed⟩ := sound.passed_enterStage crew henter
    refine ⟨rank, ranked.still rfl (stage?_stalled hp) (fun _ ↦ sound.needs_stalled henter)
      (home?_congr (sound.shape_enterStage crew henter).1), fun _ _ safe ↦ ?_⟩
    have hsite : Told.Safe { c with site } := safe.passed rfl hpassed
    have hfailed : Told.Safe (({ c with site } : Controller β σ).note
        (.failed p.root p.name next failure)) := hsite.note trivial
    exact hfailed
  | @park p missing hp _ =>
    exact ⟨rank, ranked.still rfl (stage?_parked hp) (fun _ ↦ List.Subset.refl _) fun _ ↦ rfl,
      fun _ _ safe ↦ Told.Safe.note (c := { c with board := c.board.wait p.root missing }) safe
        trivial⟩
  | limit passes =>
    exact ⟨rank, ranked.still rfl (fun _ ↦ rfl) (fun _ ↦ List.Subset.refl _) fun _ ↦ rfl,
      fun _ _ safe ↦ safe.note trivial⟩

/-- Every step keeps that there is a rank, and the moves that it makes are safe if all needs are
declared as they ought to be. -/
theorem Step.ranked (step : Step crew c d) (ranked : Ranked c rank) (sound : c.Sound)
    (timely : d.Timely) :
    ∃ rank, Ranked d rank ∧ (c.Proper → d.Proper → Told.Safe c → Told.Safe d) := by
  cases step with
  | turn turn => exact turn.ranked ranked sound timely
  | plant _ hplant =>
    exact ⟨rank, ranked.settled sound (sound.forest.planted hplant),
      fun _ _ safe ↦ safe.note trivial⟩
  | @discard p hp _ hfloor =>
    refine ⟨rank, ranked.discard sound hp hfloor, fun _ _ safe ↦ ?_⟩
    rw [discard_eq hp]
    exact safe.note trivial
  | plan hstage _ _ _ =>
    exact ⟨rank, ranked.still rfl hstage (fun _ ↦ List.Subset.refl _) fun _ ↦ rfl,
      fun _ _ ↦ id⟩
  | staff hpassed =>
    exact ⟨rank, ranked.still rfl (fun _ ↦ rfl) (fun _ ↦ List.Subset.refl _) fun _ ↦ rfl,
      fun _ _ safe ↦ safe.passed rfl hpassed⟩
  | @remark entry hremark =>
    refine ⟨rank, ranked.still rfl (fun _ ↦ rfl) (fun _ ↦ List.Subset.refl _) fun _ ↦ rfl,
      fun _ _ safe ↦ safe.note ?_⟩
    cases entry <;> first | exact trivial | exact absurd hremark (by simp [Entry.isRemark])

/-! Whole runs. -/

theorem ranked_empty (hboard : c.board = .empty) : Ranked c fun _ _ ↦ 0 := by
  have hnone : ∀ {h p}, c.board.get? h ≠ some p := fun {h p} hp ↦ by
    rw [hboard] at hp
    exact absurd hp (by simp [Board.empty, Board.get?])
  exact ⟨⟨0, fun _ _ ↦ Nat.le_refl _⟩, fun hp ↦ absurd hp hnone, fun hp ↦ absurd hp hnone⟩

/-- All needs that the journal brings up are declared in time. -/
def Told.Timely (c : Controller β σ) : Prop :=
  ∀ entry ∈ c.journal, ∀ n ∈ entry.needs, n.Timely c.chain

theorem Told.Timely.of_step (timely : Told.Timely d) (step : Step crew c d) (sound : c.Sound) :
    Told.Timely c := by
  intro entry hentry
  rw [← step.chain sound]
  exact timely entry ((step.continues sound).mem hentry)

theorem Brought.timely (brought : Brought c) (timely : Told.Timely c) : c.Timely := by
  intro h p hp n hn
  obtain ⟨entry, hentry, hn⟩ := brought h p hp n hn
  exact timely entry hentry n hn

/-- As long as needs are declared in time, there is a rank at the end of every run; and all moves on
the way were safe if they are declared as they ought to be. -/
theorem Steps.ranked (steps : Steps crew c d) (sound : c.Sound) (hboard : c.board = .empty)
    (safe : Told.Safe c) (timely : Told.Timely d) :
    Brought d ∧ ∃ rank, Ranked d rank ∧ (Told.Proper d → Told.Safe d) := by
  induction steps with
  | refl =>
    refine ⟨fun h p hp ↦ ?_, _, ranked_empty hboard, fun _ ↦ safe⟩
    rw [hboard] at hp
    exact absurd hp (by simp [Board.empty, Board.get?])
  | tail first step ih =>
    have hsound := Steps.sound first sound
    obtain ⟨hbrought, rank, hranked, hsafe⟩ := ih (timely.of_step step hsound)
    have hbrought' := step.brought hbrought hsound
    obtain ⟨rank', hranked', hsafe'⟩ := step.ranked hranked hsound (hbrought'.timely timely)
    refine ⟨hbrought', rank', hranked', fun proper ↦ ?_⟩
    have hproper := proper.of_step step hsound
    exact hsafe' (hbrought.proper hproper) (hbrought'.proper proper) (hsafe hproper)

/-- Whatever a client can come to have ranks its entries, also between the legs of a request, as
long as needs are declared in time. -/
theorem Reachable.ranked_timely (reachable : Reachable crew c) (course : Course crew c d)
    (timely : Told.Timely d) :
    Brought d ∧ ∃ rank, Ranked d rank ∧ (Told.Proper d → Told.Safe d) := by
  obtain ⟨sound, _, _, b, hsteps, hsound, hboard, _, hjournal⟩ := reachable.invariant
  have hcourse : Steps crew b d := hsteps.trans (course.steps sound)
  refine hcourse.ranked hsound hboard (fun entry hentry ↦ ?_) timely
  rw [hjournal] at hentry
  exact absurd hentry (by simp)

/-- Whatever a client can come to have ranks its entries, and its moves were safe. -/
theorem Reachable.ranked (reachable : Reachable crew c) (proper : Told.Proper c) :
    Brought c ∧ ∃ rank, Ranked c rank ∧ Told.Safe c := by
  obtain ⟨hbrought, rank, hranked, hsafe⟩ := reachable.ranked_timely .refl
    fun entry hentry n hn ↦ (proper entry hentry n hn).later
  exact ⟨hbrought, rank, hranked, hsafe proper⟩

/-- Whatever deployers do and whatever clients ask for: as long as needs are declared as they ought
to be, every move leaves all needs in force met, and every move up is made with all needs met. -/
theorem moves_safe (reachable : Reachable crew c)
    (proper : ∀ entry ∈ c.journal, ∀ n ∈ entry.needs, n.Proper c.chain) :
    ∀ entry ∈ c.journal, entry.Safe c.chain := by
  obtain ⟨_, _, _, hsafe⟩ := reachable.ranked proper
  exact hsafe

/-- A run on which a deployment is taken out that another one needs. -/
def needed : List (Request Unit Unit) :=
  [.deployAll [.mk "db" .none [] [] [],
    .mk "app" .none [⟨"db", ⟨"Parse", 1⟩, ⟨"Parse", 1⟩⟩] [] []], .undeploy "db"]

theorem moves_safe_needed :
    (∀ entry ∈ (parsing.serveAll idle needed).journal, ∀ n ∈ entry.needs,
        n.Proper (parsing.serveAll idle needed).chain) ∧
      ∀ entry ∈ (parsing.serveAll idle needed).journal,
        entry.Safe (parsing.serveAll idle needed).chain :=
  have hproper : ∀ entry ∈ (parsing.serveAll idle needed).journal, ∀ n ∈ entry.needs,
      n.Proper (parsing.serveAll idle needed).chain := by decide +kernel
  ⟨hproper, moves_safe (reachable_parsing idle needed) hproper⟩

end Controller

end Rollout
