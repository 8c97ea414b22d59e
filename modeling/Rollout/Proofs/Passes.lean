import Rollout.Proofs.Turns

/-!
Passes. A retreat pass takes every deployment down to the stage it is asked for, however many passes
are left. An advance pass either gets somewhere or finds every deployment at rest, with what it is
missing written down. So the passes of a batch end without a fault, with nothing above the stage it
is asked for, and at rest unless they were used up.
-/

set_option autoImplicit false
set_option relaxedAutoImplicit false

namespace Rollout

variable {β σ : Type} {crew : Crew β σ}

namespace Controller

variable {c d : Controller β σ} {h : Handle} {p q : Progress}

/-- The top of the tree that the live unit of a name belongs to. -/
def home? (c : Controller β σ) (name : String) : Option Handle :=
  (c.forest.byName? name).map fun u ↦ u.top

/-- The needs of a whole deployment. -/
def needs (c : Controller β σ) (root : Handle) : List Need := c.forest.treeNeeds root

/-- All that needs are about is the same: chain, needs, names, and what each deployment shows of
itself. -/
structure SameStandings (c d : Controller β σ) : Prop where
  chain : d.chain = c.chain
  needs : ∀ h, d.needs h = c.needs h
  home : ∀ name, d.home? name = c.home? name
  standing : ∀ h, (d.board.get? h).map Progress.standing = (c.board.get? h).map Progress.standing

/-- All that verdicts depend on is the same: chain, needs, names, and all of the progress but what
deployments are waiting for. -/
structure Resembles (c d : Controller β σ) : Prop where
  chain : d.chain = c.chain
  needs : ∀ h, d.needs h = c.needs h
  home : ∀ name, d.home? name = c.home? name
  progress : ∀ h, (d.board.get? h).map (fun p ↦ { p with waiting := [] }) =
    (c.board.get? h).map fun p ↦ { p with waiting := [] }

theorem ofUnit?_eq (c : Controller β σ) (name : String) :
    c.board.ofUnit? c.forest name = (c.home? name).bind c.board.get? := by
  unfold Board.ofUnit? home?
  rw [Option.bind_map]
  rfl

theorem eq_of_standing (h : q.standing = p.standing) :
    q.stage = p.stage ∧ q.error.isSome = p.error.isSome := by
  unfold Progress.standing at h
  cases hp : p.error.isSome <;> cases hq : q.error.isSome <;> simp_all

/-- Needs are met or not by what deployments show of themselves. -/
theorem SameStandings.missing (same : SameStandings c d) (h : Handle) (next : Stage) :
    d.board.missing d.chain d.forest h next = c.board.missing c.chain c.forest h next := by
  have hshort : ∀ n, d.board.shortfall? d.chain d.forest n =
      c.board.shortfall? c.chain c.forest n := fun n ↦ by
    unfold Board.shortfall?
    rw [ofUnit?_eq, ofUnit?_eq, same.home, same.chain]
    cases c.home? n.target with
    | none => rfl
    | some k =>
      rw [Option.bind_some, Option.bind_some]
      have hstanding := same.standing k
      cases hc : c.board.get? k with
      | none =>
        rw [hc, Option.map_none, Option.map_eq_none_iff] at hstanding
        rw [hstanding]
      | some p =>
        rw [hc, Option.map_some, Option.map_eq_some_iff] at hstanding
        obtain ⟨q, hq, heq⟩ := hstanding
        obtain ⟨hstage, herror⟩ := eq_of_standing heq
        rw [hq]
        simp only [hstage, herror]
  have hneeds : d.forest.treeNeeds h = c.forest.treeNeeds h := same.needs h
  unfold Board.missing
  rw [hneeds, funext hshort, same.chain]

theorem Resembles.cases (same : Resembles c d) (h : Handle) :
    c.board.get? h = none ∧ d.board.get? h = none ∨
      ∃ p waiting, c.board.get? h = some p ∧ d.board.get? h = some { p with waiting } := by
  have hprogress := same.progress h
  cases hc : c.board.get? h with
  | none =>
    rw [hc, Option.map_none, Option.map_eq_none_iff] at hprogress
    exact Or.inl ⟨rfl, hprogress⟩
  | some p =>
    rw [hc, Option.map_some, Option.map_eq_some_iff] at hprogress
    obtain ⟨q, hq, heq⟩ := hprogress
    refine Or.inr ⟨p, q.waiting, rfl, ?_⟩
    rw [hq, Option.some_inj]
    cases p
    cases q
    simp_all

theorem Resembles.standings (same : Resembles c d) : SameStandings c d := by
  refine ⟨same.chain, same.needs, same.home, fun h ↦ ?_⟩
  obtain ⟨hc, hd⟩ | ⟨p, waiting, hc, hd⟩ := same.cases h
  · rw [hc, hd]
  · rw [hc, hd]
    rfl

/-- Where all that verdicts depend on is the same, they are the same. -/
theorem Resembles.verdict (same : Resembles c d) (h : Handle) : d.verdict h = c.verdict h := by
  unfold Controller.verdict Board.verdict
  rw [funext (same.standings.missing h), same.chain]
  obtain ⟨hc, hd⟩ | ⟨p, waiting, hc, hd⟩ := same.cases h
  · rw [hc, hd]
  · rw [hc, hd]

theorem resembles_parked (missing : List Shortfall) (hp : c.board.get? p.root = some p) :
    Resembles c (c.parked p missing) := by
  refine ⟨rfl, fun _ ↦ rfl, fun _ ↦ rfl, fun h ↦ ?_⟩
  rw [get?_parked hp]
  split
  · next heq =>
    rw [heq, hp]
    rfl
  · rfl

/-- A deployment has no step up to take, and what it is missing is written down. -/
def Rests (c : Controller β σ) (h : Handle) : Prop :=
  ∀ p, c.board.get? h = some p → c.verdict h = .idle ∨ c.verdict h = .blocked p.waiting

/-- The passes of a batch have been used up by turns. -/
def Spent (crew : Crew β σ) (c d : Controller β σ) : Prop :=
  ∃ m passes, Turns crew c m ∧ d = m.note (.passLimit passes)

theorem Spent.after {e : Controller β σ} (turns : Turns crew c d) (spent : Spent crew d e) :
    Spent crew c e := by
  obtain ⟨m, passes, hturns, heq⟩ := spent
  exact ⟨m, passes, turns.trans hturns, heq⟩

/-- The controller after a deployment has taken its next step up, if it can. -/
def advanced (crew : Crew β σ) (root : Handle) (c : Controller β σ) : Controller β σ :=
  (Batch.advance crew root (Batch.start c)).1.controller

/-- The controller after an advance pass. -/
def climbed (crew : Crew β σ) (c : Controller β σ) : Controller β σ :=
  c.board.order.foldl (fun c root ↦ c.advanced crew root) c

/-- A retreat pass takes one controller to another. -/
def Falls (crew : Crew β σ) (c d : Controller β σ) : Prop :=
  ∃ b b' : Batch β σ, b.controller = c ∧ Batch.retreatPass crew b = (b', none) ∧ b'.controller = d

/-- What the passes of a batch come to if they are not used up: the first takes everything down that
has to go down, and from then on everything only goes up, until it is at rest. -/
def Phase (crew : Crew β σ) (c d : Controller β σ) : Prop :=
  ∃ m k, Falls crew c m ∧ d = (climbed crew)^[k] m ∧ ∀ h, d.Rests h

end Controller

namespace Batch

open Controller

/-! Going down. -/

/-- A deployment is taken down to the stage it is asked for before its steps are used up. If it was
not above, nothing happens. -/
theorem exists_lower (crew : Crew β σ) (root : Handle) (steps : Nat) {b : Batch β σ}
    (sound : b.controller.Sound)
    (hsteps : ∀ p, b.controller.board.get? root = some p → p.stage.index < steps) :
    ∃ b' : Batch β σ, lower crew root steps b = (b', none) ∧
      Drops crew b.controller b'.controller ∧ b'.controller.Low root ∧
      (b' = b ∨ b'.progressed = true) := by
  induction steps generalizing b with
  | zero =>
    refine ⟨b, rfl, .refl, fun p hp ↦ ?_, Or.inl rfl⟩
    exact absurd (hsteps p hp) (Nat.not_lt_zero _)
  | succ steps ih =>
    unfold lower excess?
    cases hp : b.controller.board.get? root with
    | none =>
      refine ⟨b, rfl, .refl, fun p hp' ↦ ?_, Or.inl rfl⟩
      rw [hp] at hp'
      exact absurd hp' (by simp)
    | some p =>
      obtain rfl := Board.root_of_get? hp
      rw [Option.bind_some]
      have hbelow := Chain.lt_iff_index (sound.requested hp) (sound.stage hp)
      by_cases hlt : p.requested < p.stage
      · rw [if_pos hlt]
        have habove := Nat.zero_lt_of_lt (hbelow.1 hlt)
        obtain ⟨below, hprev⟩ := Chain.exists_prev? (sound.stage hp) habove
        obtain ⟨m, hdescend, hrecalls, _⟩ := exists_descend crew sound hp hprev
        have hdrop : Drop crew b.controller (m.left crew p below).controller :=
          .intro hp hlt hprev hrecalls
        have hlowers := hrecalls.sound_lowers sound
        obtain ⟨hpm, hprev'⟩ := hlowers.2.head_kept hp hprev
        have hindex := Chain.index_of_prev? hprev
        obtain ⟨b', heq, hdrops, hlow, hprogressed⟩ := ih (b := (m.left crew p below).mark true)
          (sound.of_alike (hdrop.turn.moves sound).toAlike) fun q hq ↦ by
            obtain rfl := Option.some_inj.1 ((get?_left crew below hpm).symm.trans hq)
            have hlt := hsteps p hp
            simp only
            omega
        refine ⟨b', ?_, .head hdrop hdrops, hlow, Or.inr ?_⟩
        · simp only
          rw [hdescend, andThen_none, if_neg (stage?_left_ne crew hpm hprev')]
          exact heq
        · rcases hprogressed with rfl | hprogressed
          · rfl
          · exact hprogressed
      · rw [if_neg hlt]
        refine ⟨b, rfl, .refl, fun q hq ↦ ?_, Or.inl rfl⟩
        rw [hp, Option.some_inj] at hq
        subst hq
        exact Nat.le_of_not_lt fun h ↦ hlt (hbelow.2 h)

theorem exists_settleDown (crew : Crew β σ) (root : Handle) {b : Batch β σ}
    (sound : b.controller.Sound) :
    ∃ b' : Batch β σ, settleDown crew root b = (b', none) ∧
      Drops crew b.controller b'.controller ∧ b'.controller.Low root ∧
      (b' = b ∨ b'.progressed = true) := by
  refine exists_lower crew root _ sound fun p hp ↦ ?_
  unfold stage? Board.stage?
  rw [hp]
  exact Nat.lt_succ_self _

theorem exists_settleEach (crew : Crew β σ) (roots : List Handle) {b : Batch β σ}
    (sound : b.controller.Sound) :
    ∃ b' : Batch β σ, forEach (settleDown crew) roots b = (b', none) ∧
      Drops crew b.controller b'.controller ∧ (∀ root ∈ roots, b'.controller.Low root) ∧
      (b' = b ∨ b'.progressed = true) := by
  induction roots generalizing b with
  | nil => exact ⟨b, rfl, .refl, by simp, Or.inl rfl⟩
  | cons root roots ih =>
    obtain ⟨m, heq, hdrops, hlow, hprogressed⟩ := exists_settleDown crew root sound
    have hm := (Turns.sound_moves hdrops.turns sound).1
    obtain ⟨b', heq', hdrops', hlow', hprogressed'⟩ := ih hm
    refine ⟨b', ?_, hdrops.trans hdrops', fun r hr ↦ ?_, ?_⟩
    · unfold forEach
      rw [heq, andThen_none, heq']
    · rcases List.mem_cons.1 hr with rfl | hr
      · exact hdrops'.turns.low hm hlow
      · exact hlow' r hr
    · rcases hprogressed' with rfl | hprogressed'
      · exact hprogressed
      · exact Or.inr hprogressed'

/-- A retreat pass is complete. -/
theorem exists_retreatPass (crew : Crew β σ) {b : Batch β σ} (sound : b.controller.Sound) :
    ∃ b' : Batch β σ, retreatPass crew b = (b', none) ∧
      Drops crew b.controller b'.controller ∧ (∀ h, b'.controller.Low h) ∧
      (b'.progressed = false → b'.controller = b.controller) := by
  obtain ⟨b', heq, hdrops, hlow, hprogressed⟩ :=
    exists_settleEach crew b.controller.board.order.reverse (b := b.mark false) sound
  have hmoves := (Turns.sound_moves hdrops.turns sound).2
  refine ⟨b', heq, hdrops, fun h p hp ↦ ?_, fun hstill ↦ ?_⟩
  · obtain ⟨q, hq, _⟩ := hmoves.get? hp
    have hmem : h ∈ b.controller.board.order := sound.tracked.2 ⟨q, hq⟩
    exact hlow h (List.mem_reverse.2 hmem) p hp
  · rcases hprogressed with rfl | hprogressed
    · rfl
    · rw [hstill] at hprogressed
      exact absurd hprogressed (by simp)

theorem drops_of_retreatPass {b b' : Batch β σ} (sound : b.controller.Sound)
    (h : retreatPass crew b = (b', none)) :
    Drops crew b.controller b'.controller ∧ ∀ h, b'.controller.Low h := by
  obtain ⟨m, heq, hdrops, hlow, _⟩ := exists_retreatPass crew sound
  obtain rfl : m = b' := congrArg Prod.fst (heq.symm.trans h)
  exact ⟨hdrops, hlow⟩

theorem turns_of_falls {c d : Controller β σ} (falls : Falls crew c d) (sound : c.Sound) :
    Turns crew c d ∧ ∀ h, d.Low h := by
  obtain ⟨b, b', rfl, hretreat, rfl⟩ := falls
  exact (drops_of_retreatPass sound hretreat).imp_left Drops.turns

theorem lowers_of_falls {c d : Controller β σ} (falls : Falls crew c d) (sound : c.Sound) :
    Lowers [] c d := by
  obtain ⟨b, b', rfl, hretreat, rfl⟩ := falls
  exact (drops_of_retreatPass sound hretreat).1.lowers sound

/-- A deployment that is not above the stage it is asked for is not taken down. -/
theorem settleDown_eq (crew : Crew β σ) {root : Handle} {b : Batch β σ}
    (sound : b.controller.Sound) (low : b.controller.Low root) :
    settleDown crew root b = (b, none) := by
  have hexcess : b.excess? root = none := by
    unfold excess?
    cases hp : b.controller.board.get? root with
    | none => rfl
    | some p =>
      rw [Option.bind_some, if_neg]
      rw [Chain.lt_iff_index (sound.requested hp) (sound.stage hp)]
      exact Nat.not_lt.2 (low p hp)
  unfold settleDown
  cases (b.stage? root).elim 0 fun s ↦ s.index + 1 with
  | zero => rfl
  | succ steps =>
    unfold lower
    rw [hexcess]

/-- Steps that have no effect have none one after another. -/
theorem forEach_eq_self {α : Type} {step : α → Batch β σ → Batch β σ × Option BoardFault}
    {xs : List α} {b : Batch β σ} (still : ∀ x ∈ xs, step x b = (b, none)) :
    forEach step xs b = (b, none) := by
  induction xs with
  | nil => rfl
  | cons x xs ih =>
    unfold forEach
    rw [still x List.mem_cons_self, andThen_none, ih fun y hy ↦ still y (List.mem_cons_of_mem _ hy)]

/-- Nothing goes down any more where nothing is above the stage it is asked for. -/
theorem retreatPass_eq (crew : Crew β σ) {b : Batch β σ} (sound : b.controller.Sound)
    (low : ∀ h, b.controller.Low h) : retreatPass crew b = (b.mark false, none) :=
  forEach_eq_self (b := b.mark false) fun root _ ↦ settleDown_eq crew sound (low root)

theorem eq_of_falls {c d : Controller β σ} (falls : Falls crew c d) (sound : c.Sound)
    (low : ∀ h, c.Low h) : d = c := by
  obtain ⟨b, b', rfl, hretreat, rfl⟩ := falls
  rw [retreatPass_eq crew sound low] at hretreat
  obtain rfl : b.mark false = b' := congrArg Prod.fst hretreat
  rfl

/-! Going up. -/

theorem exists_climb (crew : Crew β σ) {p : Progress} {next : Stage} {b : Batch β σ}
    (hp : b.controller.board.get? p.root = some p)
    (hready : b.controller.verdict p.root = .ready next) :
    ∃ b' : Batch β σ, climb crew p.root p next b = (b', none) ∧
      Turn crew b.controller b'.controller ∧ b'.progressed = b.progressed := by
  obtain ⟨_, _, hnext, _⟩ := of_verdict_ready hp hready
  have hascend : b.controller.board.ascend p.root next = .ok (b.controller.board.update p.root
      fun q ↦ { q with stage := next, waiting := [] }) :=
    Board.ascend_eq_ok_iff.2 ⟨p, hp, Chain.index_of_next? hnext, rfl⟩
  unfold climb
  cases henter : b.controller.site.enterStage crew p.root next with
  | mk result site =>
    cases result with
    | ok applied =>
      simp only [henter, hascend]
      refine ⟨_, rfl, ?_, rfl⟩
      exact .raise hp hready henter
    | error failure =>
      simp only [henter]
      refine ⟨_, rfl, ?_, rfl⟩
      exact .stall hp hready henter

theorem advance_eq (root : Handle) (b : Batch β σ) : advance crew root b =
    match b.controller.board.get? root with
    | none => (b, none)
    | some p => match b.controller.verdict root with
      | .idle => (b, none)
      | .blocked missing => (b.park root missing, none)
      | .ready next => climb crew root p next (b.mark true) := rfl

/-- A deployment takes its step if it can. If it gets nowhere it is at rest, and so are all others
that were. -/
theorem exists_advance (crew : Crew β σ) (root : Handle) (b : Batch β σ) :
    ∃ b' : Batch β σ, advance crew root b = (b', none) ∧
      Turns crew b.controller b'.controller ∧ (b.progressed = true → b'.progressed = true) ∧
      (b'.progressed = false → ∀ h, h = root ∨ b.controller.Rests h → b'.controller.Rests h) := by
  rw [advance_eq]
  cases hp : b.controller.board.get? root with
  | none =>
    refine ⟨b, rfl, .refl, id, fun _ h hh ↦ hh.elim (fun heq p hp' ↦ ?_) id⟩
    rw [heq, hp] at hp'
    exact absurd hp' (by simp)
  | some p =>
    obtain rfl := Board.root_of_get? hp
    simp only
    cases hverdict : b.controller.verdict p.root with
    | idle =>
      refine ⟨b, rfl, .refl, id, fun _ h hh ↦ hh.elim (fun heq q _ ↦ ?_) id⟩
      exact Or.inl (heq ▸ hverdict)
    | ready next =>
      obtain ⟨b', heq, hturn, hprogressed⟩ :=
        exists_climb crew (b := b.mark true) hp hverdict
      refine ⟨b', heq, .single hturn, fun _ ↦ hprogressed, fun hstill ↦ ?_⟩
      rw [hprogressed] at hstill
      exact absurd hstill (by simp [mark])
    | blocked missing =>
      unfold park
      simp only [hp]
      by_cases hwaiting : p.waiting = missing
      · rw [if_pos hwaiting]
        refine ⟨b, rfl, .refl, id, fun _ h hh ↦ hh.elim (fun heq q hq ↦ Or.inr ?_) id⟩
        subst heq
        rw [hp, Option.some_inj] at hq
        rw [hverdict, ← hq, hwaiting]
      · rw [if_neg hwaiting]
        have hsame := resembles_parked missing hp
        refine ⟨_, rfl, .single (.park hp hverdict), id, fun _ h hh q hq ↦ ?_⟩
        show (b.controller.parked p missing).verdict h = _ ∨
          (b.controller.parked p missing).verdict h = _
        rw [hsame.verdict]
        change (b.controller.parked p missing).board.get? h = some q at hq
        rw [get?_parked hp] at hq
        split at hq
        · next heq =>
          obtain rfl := Option.some_inj.1 hq
          exact Or.inr (heq ▸ hverdict)
        · next hne => exact hh.resolve_left hne q hq

theorem exists_advanceEach (crew : Crew β σ) (roots : List Handle) (b : Batch β σ) :
    ∃ b' : Batch β σ, forEach (advance crew) roots b = (b', none) ∧
      Turns crew b.controller b'.controller ∧ (b.progressed = true → b'.progressed = true) ∧
      (b'.progressed = false →
        ∀ h, h ∈ roots ∨ b.controller.Rests h → b'.controller.Rests h) := by
  induction roots generalizing b with
  | nil => exact ⟨b, rfl, .refl, id, fun _ h hh ↦ hh.resolve_left List.not_mem_nil⟩
  | cons root roots ih =>
    obtain ⟨m, heq, hturns, hkept, hrests⟩ := exists_advance crew root b
    obtain ⟨b', heq', hturns', hkept', hrests'⟩ := ih m
    refine ⟨b', ?_, hturns.trans hturns', hkept' ∘ hkept, fun hstill h hh ↦ ?_⟩
    · unfold forEach
      rw [heq, andThen_none, heq']
    · have hm : m.progressed = false := by
        cases hprogressed : m.progressed with
        | false => rfl
        | true => rw [hkept' hprogressed] at hstill; exact hstill
      refine hrests' hstill h ?_
      rw [List.mem_cons, or_assoc, or_left_comm] at hh
      exact hh.imp_right (hrests hm h)

/-- An advance pass that gets nowhere leaves everything at rest. -/
theorem exists_advancePass (crew : Crew β σ) {b : Batch β σ} (sound : b.controller.Sound) :
    ∃ b' : Batch β σ, advancePass crew b = (b', none) ∧
      Turns crew b.controller b'.controller ∧
      (b'.progressed = false → ∀ h, b'.controller.Rests h) := by
  obtain ⟨b', heq, hturns, _, hrests⟩ :=
    exists_advanceEach crew b.controller.board.order (b.mark false)
  have hmoves := (Turns.sound_moves hturns sound).2
  refine ⟨b', heq, hturns, fun hstill h p hp ↦ ?_⟩
  obtain ⟨q, hq, _⟩ := hmoves.get? hp
  exact hrests hstill h (Or.inl (sound.tracked.2 ⟨q, hq⟩)) p hp

theorem turns_of_advancePass {b b' : Batch β σ} (sound : b.controller.Sound)
    (h : advancePass crew b = (b', none)) : Turns crew b.controller b'.controller := by
  obtain ⟨k, heq, hturns, _⟩ := exists_advancePass crew sound
  obtain rfl : k = b' := congrArg Prod.fst (heq.symm.trans h)
  exact hturns

/-- A step up does not depend on what a batch has done so far. -/
theorem controller_advance (crew : Crew β σ) (root : Handle) (b : Batch β σ) :
    (advance crew root b).1.controller = b.controller.advanced crew root := by
  unfold advanced
  rw [advance_eq, advance_eq]
  simp only [start]
  cases b.controller.board.get? root with
  | none => rfl
  | some p =>
    simp only
    cases b.controller.verdict root with
    | idle => rfl
    | blocked missing =>
      simp only [park]
      cases b.controller.board.get? root with
      | none => rfl
      | some q =>
        simp only
        split <;> rfl
    | ready next =>
      simp only [climb, mark]
      cases b.controller.site.enterStage crew root next with
      | mk result site =>
        cases result with
        | ok applied =>
          simp only
          cases b.controller.board.ascend root next <;> rfl
        | error failure => rfl

theorem controller_advancePass (crew : Crew β σ) (b : Batch β σ) :
    (advancePass crew b).1.controller = b.controller.climbed crew := by
  have heach : ∀ (roots : List Handle) (m : Batch β σ),
      (forEach (advance crew) roots m).1.controller =
        roots.foldl (fun c root ↦ c.advanced crew root) m.controller := by
    intro roots
    induction roots with
    | nil => exact fun _ ↦ rfl
    | cons root roots ih =>
      intro m
      obtain ⟨m', heq, _⟩ := exists_advance crew root m
      unfold forEach
      rw [heq, andThen_none, ih, List.foldl_cons, ← controller_advance, heq]
  exact heach _ (b.mark false)

/-! Passes. -/

/-- The batch with one more pass counted. -/
def counted (b : Batch β σ) : Batch β σ :=
  { b with tally := { b.tally with passes := b.tally.passes + 1 } }

/-- The passes of a batch end without a fault: nothing is above the stage it is asked for if there
was any pass, and unless they were used up they take everything down and then up until it is at
rest. -/
theorem exists_passes (crew : Crew β σ) (left : Nat) {b : Batch β σ}
    (sound : b.controller.Sound) :
    ∃ b' : Batch β σ, passes crew left b = (b', none) ∧
      Turns crew b.controller b'.controller ∧ (0 < left → ∀ h, b'.controller.Low h) ∧
      (Spent crew b.controller b'.controller ∨ Phase crew b.controller b'.controller) := by
  induction left generalizing b with
  | zero =>
    refine ⟨_, rfl, .single (.limit _), fun hlt ↦ absurd hlt (Nat.lt_irrefl _), Or.inl ?_⟩
    exact ⟨_, _, .refl, rfl⟩
  | succ left ih =>
    unfold passes
    obtain ⟨m, hretreat, hdrops, hlow, _⟩ :=
      exists_retreatPass crew (b := b.counted) sound
    have hturns := hdrops.turns
    have hm := (Turns.sound_moves hturns sound).1
    have hfalls : Falls crew b.controller m.controller :=
      ⟨b.counted, m, rfl, hretreat, rfl⟩
    unfold counted at hretreat
    simp only [hretreat, andThen_none]
    by_cases hprogressed : m.progressed = true
    · rw [if_pos hprogressed]
      obtain ⟨b', heq, hturns', _, hend⟩ := ih hm
      refine ⟨b', heq, hturns.trans hturns', fun _ h ↦ hturns'.low hm (hlow h),
        hend.imp (Spent.after hturns) ?_⟩
      rintro ⟨n, i, hfalls', hclimbs⟩
      rw [eq_of_falls hfalls' hm hlow] at hclimbs
      exact ⟨_, i, hfalls, hclimbs⟩
    · rw [if_neg hprogressed]
      obtain ⟨k, hadvance, hturns', hrests⟩ := exists_advancePass crew hm
      have hk := (Turns.sound_moves hturns' hm).1
      have hlow' : ∀ h, k.controller.Low h := fun h ↦ hturns'.low hm (hlow h)
      have hclimbed : k.controller = m.controller.climbed crew := by
        rw [← controller_advancePass, hadvance]
      rw [hadvance, andThen_none]
      by_cases hprogressed' : k.progressed = true
      · rw [if_pos hprogressed']
        obtain ⟨b', heq, hturns'', _, hend⟩ := ih hk
        refine ⟨b', heq, (hturns.trans hturns').trans hturns'', fun _ h ↦ hturns''.low hk (hlow' h),
          hend.imp (Spent.after (hturns.trans hturns')) ?_⟩
        rintro ⟨n, i, hfalls', hclimbs⟩
        rw [eq_of_falls hfalls' hk hlow', hclimbed, ← Function.iterate_succ_apply] at hclimbs
        exact ⟨_, i + 1, hfalls, hclimbs⟩
      · rw [if_neg hprogressed']
        refine ⟨k, rfl, hturns.trans hturns', fun _ ↦ hlow', Or.inr ⟨_, 1, hfalls, hclimbed, ?_⟩⟩
        exact hrests (by simpa using hprogressed')

theorem turns_of_passes {b b' : Batch β σ} {left : Nat} (sound : b.controller.Sound)
    (h : passes crew left b = (b', none)) :
    Turns crew b.controller b'.controller ∧ (0 < left → ∀ h, b'.controller.Low h) := by
  obtain ⟨k, heq, hturns, hlow, _⟩ := exists_passes crew left sound
  obtain rfl : k = b' := congrArg Prod.fst (heq.symm.trans h)
  exact ⟨hturns, hlow⟩

/-- The first pass takes everything down, also where the passes are used up. -/
theorem falls_of_passes {b b' : Batch β σ} {left : Nat} (sound : b.controller.Sound)
    (hleft : 0 < left) (h : passes crew left b = (b', none)) :
    ∃ m, Falls crew b.controller m ∧ Turns crew m b'.controller := by
  obtain ⟨left, rfl⟩ := Nat.exists_eq_add_one.2 hleft
  obtain ⟨m, hretreat, hdrops, _⟩ := exists_retreatPass crew (b := b.counted) sound
  have hm := (Turns.sound_moves hdrops.turns sound).1
  refine ⟨m.controller, ⟨b.counted, m, rfl, hretreat, rfl⟩, ?_⟩
  unfold counted at hretreat
  unfold passes at h
  simp only [hretreat, andThen_none] at h
  split at h
  · exact (turns_of_passes hm h).1
  · obtain ⟨k, hadvance, hturns, _⟩ := exists_advancePass crew hm
    rw [hadvance, andThen_none] at h
    split at h
    · exact hturns.trans (turns_of_passes (Turns.sound_moves hturns hm).1 h).1
    · obtain rfl : k = b' := congrArg Prod.fst h
      exact hturns

end Batch

namespace Controller

open Batch

variable {c d : Controller β σ} {p : Progress}

/-- What the next step up of a deployment comes to. -/
theorem advanced_eq (crew : Crew β σ) (hp : c.board.get? p.root = some p) :
    c.advanced crew p.root = match c.verdict p.root with
      | .idle => c
      | .blocked missing => if p.waiting = missing then c else c.parked p missing
      | .ready next => match c.site.enterStage crew p.root next with
        | (.ok applied, site) => c.raised p next applied site
        | (.error failure, site) => c.stalled p next failure site := by
  unfold advanced
  rw [advance_eq]
  simp only [start, hp]
  cases hverdict : c.verdict p.root with
  | idle => rfl
  | blocked missing =>
    simp only [park, hp]
    split <;> rfl
  | ready next =>
    obtain ⟨_, _, hnext, _⟩ := of_verdict_ready hp hverdict
    have hascend : c.board.ascend p.root next = .ok (c.board.update p.root
        fun q ↦ { q with stage := next, waiting := [] }) :=
      Board.ascend_eq_ok_iff.2 ⟨p, hp, Chain.index_of_next? hnext, rfl⟩
    simp only [climb, mark]
    cases henter : c.site.enterStage crew p.root next with
    | mk result site =>
      cases result with
      | ok applied =>
        simp only [hascend]
        rfl
      | error failure => rfl

theorem turns_advanced (crew : Crew β σ) (root : Handle) (c : Controller β σ) :
    Turns crew c (c.advanced crew root) := by
  obtain ⟨b, heq, hturns, _⟩ := exists_advance crew root (start c)
  unfold advanced
  rw [heq]
  exact hturns

theorem advanced_of_untracked (crew : Crew β σ) {root : Handle}
    (hnone : c.board.get? root = none) : c.advanced crew root = c := by
  unfold advanced
  rw [advance_eq]
  simp only [start, hnone]

/-- Where everything is at rest another pass changes nothing. -/
theorem climbed_eq (crew : Crew β σ) (rests : ∀ h, c.Rests h) : c.climbed crew = c := by
  refine List.foldl_fixed' (fun root ↦ ?_) _
  cases hp : c.board.get? root with
  | none => exact advanced_of_untracked crew hp
  | some p =>
    obtain rfl := Board.root_of_get? hp
    rw [advanced_eq crew hp]
    rcases rests p.root p hp with hidle | hblocked
    · rw [hidle]
    · rw [hblocked]
      exact if_pos rfl

theorem Phase.rests (phase : Phase crew c d) (h : Handle) : d.Rests h := by
  obtain ⟨_, _, _, _, hrests⟩ := phase
  exact hrests h

end Controller

end Rollout
