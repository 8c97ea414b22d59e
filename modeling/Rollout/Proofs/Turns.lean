import Mathlib.Logic.Relation
import Rollout.Proofs.Descent

/-!
The turns of a batch. All that a batch does while it moves deployments is a chain of turns: one
deployment goes down by a stage after those that have to, or enters the next stage, or fails to, or
is parked; or the batch runs out of passes. No turn changes what is asked of a deployment, and none
takes one above the stage it is asked for.
-/

set_option autoImplicit false
set_option relaxedAutoImplicit false

namespace Rollout.Controller

variable {β σ : Type} {crew : Crew β σ} {c d e : Controller β σ} {h : Handle} {p q : Progress}

/-- The controller after a deployment has entered the next stage. -/
def raised (p : Progress) (next : Stage) (applied : Nat) (site : Site β σ) (c : Controller β σ) :
    Controller β σ :=
  let after := { c with
    site
    board := c.board.update p.root fun q ↦ { q with stage := next, waiting := [] } }
  after.note (.advanced ⟨p.root, p.name, p.stage, next, c.position, after.position⟩ applied)

/-- The controller after a deployment has failed to enter the next stage. -/
def stalled (p : Progress) (next : Stage) (failure : Failure) (site : Site β σ)
    (c : Controller β σ) : Controller β σ :=
  { ({ c with site } : Controller β σ).note (.failed p.root p.name next failure) with
    board := c.board.fail p.root failure }

/-- The controller after it has been written down what a deployment is missing. -/
def parked (p : Progress) (missing : List Shortfall) (c : Controller β σ) : Controller β σ :=
  ({ c with board := c.board.wait p.root missing } : Controller β σ).note
    (.parked p.root p.name p.stage missing)

theorem get?_raised {next : Stage} {applied : Nat} {site : Site β σ}
    (hp : c.board.get? p.root = some p) :
    (c.raised p next applied site).board.get? h =
      if h = p.root then some { p with stage := next, waiting := [] } else c.board.get? h := by
  have hget : (c.raised p next applied site).board.get? h = if h = p.root then
      (c.board.get? p.root).map (fun q ↦ { q with stage := next, waiting := [] })
      else c.board.get? h := Board.get?_update _ _ _ fun _ ↦ rfl
  rw [hget, hp, Option.map_some]

theorem get?_stalled {next : Stage} {failure : Failure} {site : Site β σ}
    (hp : c.board.get? p.root = some p) :
    (c.stalled p next failure site).board.get? h =
      if h = p.root then some { p with error := some failure, waiting := [] }
      else c.board.get? h := by
  have hget : (c.stalled p next failure site).board.get? h = if h = p.root then
      (c.board.get? p.root).map (fun q ↦ { q with error := some failure, waiting := [] })
      else c.board.get? h := Board.get?_update _ _ _ fun _ ↦ rfl
  rw [hget, hp, Option.map_some]

theorem get?_parked {missing : List Shortfall} (hp : c.board.get? p.root = some p) :
    (c.parked p missing).board.get? h =
      if h = p.root then some { p with waiting := missing } else c.board.get? h := by
  have hget : (c.parked p missing).board.get? h = if h = p.root then
      (c.board.get? p.root).map (fun q ↦ { q with waiting := missing })
      else c.board.get? h := Board.get?_update _ _ _ fun _ ↦ rfl
  rw [hget, hp, Option.map_some]

theorem stage?_stalled {next : Stage} {failure : Failure} {site : Site β σ}
    (hp : c.board.get? p.root = some p) (h : Handle) :
    (c.stalled p next failure site).board.stage? h = c.board.stage? h := by
  unfold Board.stage?
  rw [get?_stalled hp]
  split
  · next heq =>
    rw [heq, hp]
    rfl
  · rfl

theorem stage?_parked {missing : List Shortfall} (hp : c.board.get? p.root = some p)
    (h : Handle) : (c.parked p missing).board.stage? h = c.board.stage? h := by
  unfold Board.stage?
  rw [get?_parked hp]
  split
  · next heq =>
    rw [heq, hp]
    rfl
  · rfl

/-- Whether a deployment can take its next step. -/
def verdict (c : Controller β σ) (root : Handle) : Verdict :=
  c.board.verdict c.chain c.forest root

/-- A single turn of a batch. -/
inductive Turn (crew : Crew β σ) : Controller β σ → Controller β σ → Prop
  | descend {c m : Controller β σ} {p : Progress} {below : Stage} :
    c.board.get? p.root = some p → p.requested < p.stage → c.chain.prev? p.stage = some below →
    Recalls crew [p.root] p.name (c.recalled p.root below) c m →
    Turn crew c (m.lowered crew p below)
  | raise {c : Controller β σ} {p : Progress} {next : Stage} {applied : Nat} {site : Site β σ} :
    c.board.get? p.root = some p → c.verdict p.root = .ready next →
    c.site.enterStage crew p.root next = (.ok applied, site) →
    Turn crew c (c.raised p next applied site)
  | stall {c : Controller β σ} {p : Progress} {next : Stage} {failure : Failure}
      {site : Site β σ} :
    c.board.get? p.root = some p → c.verdict p.root = .ready next →
    c.site.enterStage crew p.root next = (.error failure, site) →
    Turn crew c (c.stalled p next failure site)
  | park {c : Controller β σ} {p : Progress} {missing : List Shortfall} :
    c.board.get? p.root = some p → c.verdict p.root = .blocked missing →
    Turn crew c (c.parked p missing)
  | limit {c : Controller β σ} (passes : Nat) : Turn crew c (c.note (.passLimit passes))

/-- Turns one after another. -/
abbrev Turns (crew : Crew β σ) : Controller β σ → Controller β σ → Prop :=
  Relation.ReflTransGen (Turn crew)

/-- A turn in which a deployment above the stage it is asked for goes down by one. -/
inductive Drop (crew : Crew β σ) : Controller β σ → Controller β σ → Prop
  | intro {c m : Controller β σ} {p : Progress} {below : Stage} :
    c.board.get? p.root = some p → p.requested < p.stage → c.chain.prev? p.stage = some below →
    Recalls crew [p.root] p.name (c.recalled p.root below) c m →
    Drop crew c (m.lowered crew p below)

/-- Such turns one after another. -/
abbrev Drops (crew : Crew β σ) : Controller β σ → Controller β σ → Prop :=
  Relation.ReflTransGen (Drop crew)

theorem Drop.turn (drop : Drop crew c d) : Turn crew c d := by
  cases drop with
  | intro hp hlt hbelow hrecalls => exact .descend hp hlt hbelow hrecalls

theorem Drops.turns (drops : Drops crew c d) : Turns crew c d :=
  drops.lift id fun _ _ ↦ Drop.turn

/-- What a verdict says: a deployment is at rest, because it is in error or asked for no more or at
the end of the chain; or it can take its next step; or it is missing something for it. -/
theorem verdict_cases (hp : c.board.get? p.root = some p) :
    c.verdict p.root = .idle ∧
        (p.error ≠ none ∨ p.requested ≤ p.stage ∨ c.chain.next? p.stage = none) ∨
      p.error = none ∧ ¬ p.requested ≤ p.stage ∧ ∃ next, c.chain.next? p.stage = some next ∧
        (c.verdict p.root = .ready next ∧
            c.board.missing c.chain c.forest p.root next = [] ∨
          c.verdict p.root = .blocked (c.board.missing c.chain c.forest p.root next) ∧
            c.board.missing c.chain c.forest p.root next ≠ []) := by
  unfold verdict Board.verdict
  rw [hp]
  simp only
  cases herror : p.error with
  | some failure => exact Or.inl ⟨by simp, Or.inl (by simp)⟩
  | none =>
    by_cases hle : p.requested ≤ p.stage
    · exact Or.inl ⟨by simp [hle], Or.inr (Or.inl hle)⟩
    · cases hnext : c.chain.next? p.stage with
      | none => exact Or.inl ⟨by simp, Or.inr (Or.inr rfl)⟩
      | some next =>
        refine Or.inr ⟨rfl, hle, next, rfl, ?_⟩
        cases hmissing : c.board.missing c.chain c.forest p.root next with
        | nil => exact Or.inl ⟨by simp [hle, hmissing], rfl⟩
        | cons m ms => exact Or.inr ⟨by simp [hle, hmissing], by simp⟩

theorem of_verdict_ready {next : Stage} (hp : c.board.get? p.root = some p)
    (hready : c.verdict p.root = .ready next) :
    p.error = none ∧ ¬ p.requested ≤ p.stage ∧ c.chain.next? p.stage = some next ∧
      c.board.missing c.chain c.forest p.root next = [] := by
  rcases verdict_cases hp with ⟨hidle, _⟩ | ⟨herror, hle, t, ht, hverdict | hverdict⟩
  · rw [hready] at hidle
    exact absurd hidle (by simp)
  · rw [hready, Verdict.ready.injEq] at hverdict
    rw [hverdict.1]
    exact ⟨herror, hle, ht, hverdict.2⟩
  · rw [hready] at hverdict
    exact absurd hverdict.1 (by simp)

theorem of_verdict_blocked {missing : List Shortfall} (hp : c.board.get? p.root = some p)
    (hblocked : c.verdict p.root = .blocked missing) :
    p.error = none ∧ ¬ p.requested ≤ p.stage ∧ ∃ next, c.chain.next? p.stage = some next ∧
      c.board.missing c.chain c.forest p.root next = missing ∧ missing ≠ [] := by
  rcases verdict_cases hp with ⟨hidle, _⟩ | ⟨herror, hle, t, ht, hverdict | hverdict⟩
  · rw [hblocked] at hidle
    exact absurd hidle (by simp)
  · rw [hblocked] at hverdict
    exact absurd hverdict.1 (by simp)
  · rw [hblocked, Verdict.blocked.injEq] at hverdict
    exact ⟨herror, hle, t, ht, hverdict.1.symm, hverdict.1.symm ▸ hverdict.2⟩

/-! What turns keep. -/

/-- What is left when deployments are moved: what is asked of each stays as it was. -/
structure Moves (c d : Controller β σ) : Prop extends Alike c d where
  aims : ∀ {h : Handle} {p q : Progress}, c.board.get? h = some p → d.board.get? h = some q →
    q.requested = p.requested ∧ q.removing = p.removing

theorem Moves.refl (sound : c.Sound) : Moves c c := by
  refine ⟨.refl sound, fun {h p q} hp hq ↦ ?_⟩
  rw [hp, Option.some_inj] at hq
  rw [hq]
  exact ⟨rfl, rfl⟩

theorem Moves.trans (first : Moves c d) (second : Moves d e) : Moves c e := by
  refine ⟨first.toAlike.trans second.toAlike, fun {h p r} hp hr ↦ ?_⟩
  obtain ⟨q, hq⟩ := first.tracked hp
  obtain ⟨hrequested, hremoving⟩ := first.aims hp hq
  obtain ⟨hrequested', hremoving'⟩ := second.aims hq hr
  exact ⟨hrequested'.trans hrequested, hremoving'.trans hremoving⟩

/-- A deployment that is moved keeps its name and what is asked of it. -/
theorem Moves.exists_get? (moves : Moves c d) (hp : c.board.get? h = some p) :
    ∃ q, d.board.get? h = some q ∧ q.name = p.name ∧ q.requested = p.requested ∧
      q.removing = p.removing := by
  obtain ⟨q, hq⟩ := moves.tracked hp
  obtain ⟨p', hp', hkeeps⟩ := moves.get? hq
  obtain rfl := Option.some_inj.1 (hp.symm.trans hp')
  exact ⟨q, hq, hkeeps.name, moves.aims hp hq⟩

theorem Lowers.moves {path : List Handle} (lowers : Lowers path c d) : Moves c d := by
  refine ⟨lowers.alike, fun {h p q} hp hq ↦ ?_⟩
  obtain ⟨s, hs, _⟩ := lowers.stage hp
  rw [hq, Option.some_inj] at hs
  rw [hs]
  exact ⟨rfl, rfl⟩

theorem Moves.note (moves : Moves c d) (entry : Entry β) : Moves c (d.note entry) :=
  ⟨moves.toAlike.note entry, moves.aims⟩

/-- Writing down the progress of one deployment, with its request as it was, moves a controller. -/
theorem Sound.moves_update (sound : c.Sound) {root : Handle} (change : Progress → Progress)
    (hroot : ∀ p, (change p).root = p.root) (hname : ∀ p, (change p).name = p.name)
    (haims : ∀ p, (change p).requested = p.requested ∧ (change p).removing = p.removing)
    (hstage : ∀ p, c.board.get? root = some p → c.chain.contains (change p).stage = true)
    {site : Site β σ} (hshape : c.forest.SameShape site.forest)
    (hroster : site.ambient.roster.chain = c.roster.chain) :
    Moves c { c with site, board := c.board.update root change } := by
  refine ⟨sound.alike_update change hroot (fun p hp ↦ ?_) hshape hroster,
    fun {k p q} hp hq ↦ ?_⟩
  · obtain ⟨hrequested, hremoving⟩ := haims p
    refine ⟨hname p, hstage p hp, ?_, ?_, ?_⟩
    · rw [hrequested]
      exact sound.requested hp
    · rw [hrequested, hremoving]
      exact sound.removing hp
    · rw [hremoving]
      exact id
  · change (c.board.update root change).get? k = some q at hq
    rw [Board.get?_update _ _ _ hroot] at hq
    by_cases hk : k = root
    · subst hk
      rw [if_pos rfl, hp, Option.map_some, Option.some_inj] at hq
      rw [← hq]
      exact haims p
    · rw [if_neg hk, hp, Option.some_inj] at hq
      rw [hq]
      exact ⟨rfl, rfl⟩

/-- Whether it works or not, entering a stage keeps the shape of the forest and the chain. -/
theorem Sound.shape_enterStage (sound : c.Sound) (crew : Crew β σ) {root : Handle}
    {stage : Stage} {result : Except Failure Nat} {site : Site β σ}
    (henter : c.site.enterStage crew root stage = (result, site)) :
    c.forest.SameShape site.forest ∧ site.ambient.roster.chain = c.roster.chain := by
  rcases Site.enterStage_cases crew stage (sound.forest.nodup_tree _) with
    ⟨done, t, heq, htreated⟩ | ⟨done, m, t, _, _, _, _, _, _, _, _, heq, hentered, hleft⟩
  · obtain rfl : t = site := congrArg Prod.snd (heq.symm.trans henter)
    exact ⟨htreated.shape, htreated.ambient.chain⟩
  · obtain rfl : t = site := congrArg Prod.snd (heq.symm.trans henter)
    exact ⟨hentered.shape.trans hleft.shape, hleft.ambient.chain.trans hentered.ambient.chain⟩

/-- A whole descent takes deployments down, and nothing else. -/
theorem Recalls.lowers_lowered {below : Stage} {m : Controller β σ}
    (recalls : Recalls crew [p.root] p.name (c.recalled p.root below) c m) (sound : c.Sound)
    (hp : c.board.get? p.root = some p) (hbelow : c.chain.prev? p.stage = some below) :
    Lowers [] c (m.lowered crew p below) := by
  obtain ⟨hm, hlowers⟩ := recalls.sound_lowers sound
  obtain ⟨hpm, hbelow'⟩ := hlowers.head_kept hp hbelow
  exact (hlowers.mono (List.nil_subset _)).trans
    (hm.lowers_lowered crew List.not_mem_nil hpm hbelow')

theorem Turn.moves (turn : Turn crew c d) (sound : c.Sound) : Moves c d := by
  cases turn with
  | descend hp _ hbelow hrecalls => exact (hrecalls.lowers_lowered sound hp hbelow).moves
  | @raise p next applied site hp hready henter =>
    obtain ⟨_, _, hnext, _⟩ := of_verdict_ready hp hready
    obtain ⟨hshape, hroster⟩ := sound.shape_enterStage crew henter
    refine Moves.note (sound.moves_update (fun q ↦ { q with stage := next, waiting := [] })
      (fun _ ↦ rfl) (fun _ ↦ rfl) (fun _ ↦ ⟨rfl, rfl⟩) (fun _ _ ↦ ?_) hshape hroster) _
    exact Chain.contains_of_next? hnext
  | @stall p next failure site hp _ henter =>
    obtain ⟨hshape, hroster⟩ := sound.shape_enterStage crew henter
    have hshape' : c.forest.SameShape (c.stalled p next failure site).site.forest := hshape
    refine sound.moves_update (fun q ↦ { q with error := some failure, waiting := [] })
      (fun _ ↦ rfl) (fun _ ↦ rfl) (fun _ ↦ ⟨rfl, rfl⟩) (fun q hq ↦ ?_) hshape' hroster
    exact sound.stage (p := q) hq
  | @park p missing hp _ =>
    refine Moves.note (sound.moves_update (fun q ↦ { q with waiting := missing }) (fun _ ↦ rfl)
      (fun _ ↦ rfl) (fun _ ↦ ⟨rfl, rfl⟩) (fun q hq ↦ ?_) (.refl _) rfl) _
    exact sound.stage (p := q) hq
  | limit passes => exact (Moves.refl sound).note _

theorem Turns.sound_moves (turns : Turns crew c d) (sound : c.Sound) : d.Sound ∧ Moves c d := by
  induction turns with
  | refl => exact ⟨sound, .refl sound⟩
  | tail _ turn ih =>
    have hmoves := turn.moves ih.1
    exact ⟨ih.1.of_alike hmoves.toAlike, ih.2.trans hmoves⟩

/-- Moves down take deployments down, and nothing else. -/
theorem Drops.lowers (drops : Drops crew c d) (sound : c.Sound) : Lowers [] c d := by
  induction drops with
  | refl => exact .refl sound
  | tail first drop ih =>
    have hsound := (Turns.sound_moves (Drops.turns first) sound).1
    cases drop with
    | intro hp _ hbelow hrecalls => exact ih.trans (hrecalls.lowers_lowered hsound hp hbelow)

/-- A property that every single move down keeps is kept by all of them together. -/
theorem Drops.preserves (drops : Drops crew c d) (sound : c.Sound) (holds : Controller β σ → Prop)
    (hnote : ∀ {c : Controller β σ} (name : String) (h : Handle) (goal : Stage), holds c →
      holds (c.note (.recalling name h goal)))
    (hlowered : ∀ {c : Controller β σ} {q : Progress} {below : Stage}, c.Sound →
      c.board.get? q.root = some q → c.chain.prev? q.stage = some below → holds c →
        holds (c.lowered crew q below))
    (start : holds c) : holds d := by
  induction drops with
  | refl => exact start
  | tail first drop ih =>
    have hsound := (Turns.sound_moves (Drops.turns first) sound).1
    cases drop with
    | intro hp _ hbelow recalls =>
      exact recalls.preserves_lowered hsound hp hbelow holds hnote hlowered ih

/-- What a turn makes of the progress of a deployment. -/
inductive Turned (crew : Crew β σ) (c d : Controller β σ) (p : Progress) : Progress → Prop
  | kept : Turned crew c d p p
  | lowered {s : Stage} : s.index ≤ p.stage.index → Turned crew c d p { p with stage := s }
  | raised {next : Stage} {applied : Nat} {site : Site β σ} :
    c.verdict p.root = .ready next →
    c.site.enterStage crew p.root next = (.ok applied, site) → d = c.raised p next applied site →
    Turned crew c d p { p with stage := next, waiting := [] }
  | stalled {next : Stage} {failure : Failure} {site : Site β σ} :
    c.verdict p.root = .ready next →
    c.site.enterStage crew p.root next = (.error failure, site) →
    d = c.stalled p next failure site →
    Turned crew c d p { p with error := some failure, waiting := [] }
  | parked {missing : List Shortfall} :
    c.verdict p.root = .blocked missing → d = c.parked p missing →
    Turned crew c d p { p with waiting := missing }

/-- No turn makes anything else of the progress of a deployment. -/
theorem Turn.turned (turn : Turn crew c d) (sound : c.Sound) (hp : c.board.get? h = some p)
    (hq : d.board.get? h = some q) : Turned crew c d p q := by
  cases turn with
  | descend hx _ hbelow hrecalls =>
    obtain ⟨s, hs, hle, _⟩ := (hrecalls.lowers_lowered sound hx hbelow).stage hp
    obtain rfl := Option.some_inj.1 (hs.symm.trans hq)
    exact .lowered hle
  | raise hx hready henter =>
    rw [get?_raised hx] at hq
    split at hq
    · next heq =>
      subst heq
      obtain rfl := Option.some_inj.1 hq
      obtain rfl := Option.some_inj.1 (hx.symm.trans hp)
      exact .raised hready henter rfl
    · obtain rfl := Option.some_inj.1 (hp.symm.trans hq)
      exact .kept
  | stall hx hready henter =>
    rw [get?_stalled hx] at hq
    split at hq
    · next heq =>
      subst heq
      obtain rfl := Option.some_inj.1 hq
      obtain rfl := Option.some_inj.1 (hx.symm.trans hp)
      exact .stalled hready henter rfl
    · obtain rfl := Option.some_inj.1 (hp.symm.trans hq)
      exact .kept
  | park hx hblocked =>
    rw [get?_parked hx] at hq
    split at hq
    · next heq =>
      subst heq
      obtain rfl := Option.some_inj.1 hq
      obtain rfl := Option.some_inj.1 (hx.symm.trans hp)
      exact .parked hblocked rfl
    · obtain rfl := Option.some_inj.1 (hp.symm.trans hq)
      exact .kept
  | limit _ =>
    obtain rfl := Option.some_inj.1 (hp.symm.trans hq)
    exact .kept

/-- A deployment is not above the stage it is asked for. -/
def Low (c : Controller β σ) (h : Handle) : Prop :=
  ∀ p, c.board.get? h = some p → p.stage.index ≤ p.requested.index

/-- No turn takes a deployment above the stage it is asked for. -/
theorem Turn.low (turn : Turn crew c d) (sound : c.Sound) (low : c.Low h) : d.Low h := by
  intro q hq
  obtain ⟨p, hp, _⟩ := (turn.moves sound).get? hq
  cases turn.turned sound hp hq with
  | kept => exact low q hp
  | stalled _ _ _ | parked _ _ => exact low p hp
  | lowered hle => exact Nat.le_trans hle (low p hp)
  | raised hready _ _ =>
    obtain rfl := Board.root_of_get? hp
    obtain ⟨_, hbelow, hnext, _⟩ := of_verdict_ready hp hready
    rw [Chain.le_iff_index (sound.requested hp) (sound.stage hp)] at hbelow
    have hindex := Chain.index_of_next? hnext
    simp only
    omega

theorem Turns.low (turns : Turns crew c d) (sound : c.Sound) (low : c.Low h) : d.Low h := by
  induction turns with
  | refl => exact low
  | tail hfirst turn ih => exact turn.low (Turns.sound_moves hfirst sound).1 ih

/-- Only a deployment that is free of error and below the stage it is asked for waits. -/
def Waits (c : Controller β σ) : Prop :=
  ∀ {h : Handle} {p : Progress}, c.board.get? h = some p → p.waiting ≠ [] →
    p.error = none ∧ p.stage.index < p.requested.index

theorem Turn.waits (turn : Turn crew c d) (sound : c.Sound) (waits : c.Waits) : d.Waits := by
  intro h q hq hwaiting
  obtain ⟨p, hp, _⟩ := (turn.moves sound).get? hq
  cases turn.turned sound hp hq with
  | kept => exact waits hp hwaiting
  | lowered hle =>
    obtain ⟨herror, hlt⟩ := waits hp hwaiting
    exact ⟨herror, Nat.lt_of_le_of_lt hle hlt⟩
  | raised _ _ _ | stalled _ _ _ => exact absurd rfl hwaiting
  | parked hblocked _ =>
    obtain rfl := Board.root_of_get? hp
    obtain ⟨herror, hbelow, _⟩ := of_verdict_blocked hp hblocked
    rw [Chain.le_iff_index (sound.requested hp) (sound.stage hp)] at hbelow
    exact ⟨herror, Nat.lt_of_not_le hbelow⟩

end Rollout.Controller
