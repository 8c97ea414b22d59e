import Rollout.Proofs.Leeway
import Rollout.Proofs.Tallies

/-!
How long a batch takes. A loop takes passes until one gets nowhere, with no limit to them. It comes
to an end: the first pass takes down all that has to go down, after it nothing goes down any more,
and every further pass that gets anywhere makes an attempt, of which there are no more than there is
leeway for. A batch whose limit is at least that never meets it, and does what two loops do, one
before and one after it takes out and plants.
-/

set_option autoImplicit false
set_option relaxedAutoImplicit false

namespace Rollout

variable {β σ : Type} {crew : Crew β σ}

namespace Batch

open Controller

variable {b b' m k : Batch β σ} {root : Handle} {n left : Nat}

/-! Going up. -/

/-- A deployment that gets anywhere can take its next step. -/
theorem progressed_advance (h : (advance crew root b).1.progressed = true) :
    b.progressed = true ∨ ∃ next, b.controller.verdict root = .ready next := by
  rw [advance_eq] at h
  cases hp : b.controller.board.get? root with
  | none =>
    rw [hp] at h
    exact Or.inl h
  | some p =>
    rw [hp] at h
    cases hverdict : b.controller.verdict root with
    | idle =>
      rw [hverdict] at h
      exact Or.inl h
    | blocked missing =>
      rw [hverdict] at h
      simp only [park, hp] at h
      split at h <;> exact Or.inl h
    | ready next => exact Or.inr ⟨next, rfl⟩

/-- Going up is paid for, and who gets anywhere has made an attempt. -/
theorem exists_spends_advanceEach (crew : Crew β σ) (roots : List Handle)
    (sound : b.controller.Sound) :
    ∃ b' es, forEach (advance crew) roots b = (b', none) ∧
      Spends es b.controller b'.controller ∧ (∀ e ∈ es, e.isPassLimit = false) ∧
      (b'.progressed = true → b.progressed = true ∨ ∃ e ∈ es, ∃ h, e.attempt? = some h) := by
  induction roots generalizing b with
  | nil => exact ⟨b, [], rfl, .refl _, by simp, Or.inl⟩
  | cons root roots ih =>
    obtain ⟨m, heq, hturns, _⟩ := exists_advance crew root b
    obtain ⟨es, hspends, hlimit, hattempt⟩ := sound.spends_advanced crew root
    rw [← controller_advance, heq] at hspends
    obtain ⟨b', fs, heq', hspends', hlimit', hprogressed⟩ :=
      ih (Turns.sound_moves hturns sound).1
    refine ⟨b', es ++ fs, ?_, hspends.trans hspends', fun e he ↦ ?_, fun hb' ↦ ?_⟩
    · unfold forEach
      rw [heq, andThen_none, heq']
    · exact (List.mem_append.1 he).elim (hlimit e) (hlimit' e)
    · rcases hprogressed hb' with hm | ⟨e, he, hroot⟩
      · have hm : (advance crew root b).1.progressed = true := by
          rw [heq]
          exact hm
        refine (progressed_advance hm).imp_right fun hready ↦ ?_
        obtain ⟨e, he, hroot⟩ := hattempt hready
        exact ⟨e, List.mem_append_left _ he, root, hroot⟩
      · exact Or.inr ⟨e, List.mem_append_right _ he, hroot⟩

theorem exists_spends_advancePass (crew : Crew β σ) (sound : b.controller.Sound) :
    ∃ k es, advancePass crew b = (k, none) ∧ Spends es b.controller k.controller ∧
      (∀ e ∈ es, e.isPassLimit = false) ∧
      (k.progressed = true → ∃ e ∈ es, ∃ h, e.attempt? = some h) := by
  obtain ⟨k, es, heq, hspends, hlimit, hprogressed⟩ :=
    exists_spends_advanceEach crew b.controller.board.order (b := b.mark false) sound
  exact ⟨k, es, heq, hspends, hlimit,
    fun hk ↦ (hprogressed hk).resolve_left (by simp [mark])⟩

/-! Loops. -/

/-- Passes are taken until one gets nowhere, however many that are. -/
inductive Loop (crew : Crew β σ) : Nat → Batch β σ → Batch β σ → Prop
  | rest {b m k : Batch β σ} :
    retreatPass crew b.counted = (m, none) → m.progressed = false →
    advancePass crew m = (k, none) → k.progressed = false → Loop crew 1 b k
  | down {n : Nat} {b m b' : Batch β σ} :
    retreatPass crew b.counted = (m, none) → m.progressed = true →
    Loop crew n m b' → Loop crew (n + 1) b b'
  | up {n : Nat} {b m k b' : Batch β σ} :
    retreatPass crew b.counted = (m, none) → m.progressed = false →
    advancePass crew m = (k, none) → k.progressed = true →
    Loop crew n k b' → Loop crew (n + 1) b b'

/-- A loop that is not cut short is all that the passes of a batch come to. -/
theorem Loop.passes_eq (loop : Loop crew n b b') (hle : n ≤ left) :
    passes crew left b = (b', none) := by
  induction loop generalizing left with
  | rest hretreat hm hadvance hk =>
    obtain ⟨left, rfl⟩ := Nat.exists_eq_succ_of_ne_zero (Nat.ne_of_gt hle)
    unfold counted at hretreat
    simp [passes, hretreat, hm, hadvance, hk]
  | down hretreat hm _ ih =>
    obtain ⟨left, rfl⟩ := Nat.exists_eq_succ_of_ne_zero (Nat.ne_of_gt (Nat.zero_lt_of_lt hle))
    unfold counted at hretreat
    simp only [passes, hretreat, andThen_none, hm, if_true]
    exact ih (Nat.le_of_succ_le_succ hle)
  | up hretreat hm hadvance hk _ ih =>
    obtain ⟨left, rfl⟩ := Nat.exists_eq_succ_of_ne_zero (Nat.ne_of_gt (Nat.zero_lt_of_lt hle))
    unfold counted at hretreat
    simp only [passes, hretreat, andThen_none, hm, hadvance, hk, Bool.false_eq_true, if_false,
      if_true]
    exact ih (Nat.le_of_succ_le_succ hle)

/-- No loop uses up the passes of its batch. -/
theorem Loop.adds (loop : Loop crew n b b') (sound : b.controller.Sound) :
    Adds (fun e ↦ e.isPassLimit = false) b.controller b'.controller := by
  have hdown : ∀ {b m : Batch β σ}, b.controller.Sound → retreatPass crew b.counted = (m, none) →
      m.controller.Sound ∧ Adds (fun e ↦ e.isPassLimit = false) b.controller m.controller :=
    fun {b m} sound hretreat ↦ by
      have hdrops := (drops_of_retreatPass (b := b.counted) sound hretreat).1
      exact ⟨(Turns.sound_moves hdrops.turns sound).1, (hdrops.adds sound).imp fun _ ↦ And.right⟩
  have hup : ∀ {m k : Batch β σ}, m.controller.Sound → advancePass crew m = (k, none) →
      k.controller.Sound ∧ Adds (fun e ↦ e.isPassLimit = false) m.controller k.controller :=
    fun {m k} sound hadvance ↦ by
      have hturns := turns_of_advancePass sound hadvance
      obtain ⟨k', es, heq, hspends, hlimit, _⟩ := exists_spends_advancePass crew sound
      obtain rfl : k' = k := congrArg Prod.fst (heq.symm.trans hadvance)
      exact ⟨(Turns.sound_moves hturns sound).1, es, hspends.journal, hlimit⟩
  induction loop with
  | rest hretreat _ hadvance _ =>
    obtain ⟨hm, hfirst⟩ := hdown sound hretreat
    exact hfirst.trans (hup hm hadvance).2
  | down hretreat _ _ ih =>
    obtain ⟨hm, hfirst⟩ := hdown sound hretreat
    exact hfirst.trans (ih hm)
  | up hretreat _ hadvance _ _ ih =>
    obtain ⟨hm, hfirst⟩ := hdown sound hretreat
    obtain ⟨hk, hsecond⟩ := hup hm hadvance
    exact (hfirst.trans hsecond).trans (ih hk)

/-- Where nothing is above the stage it is asked for, every pass of a loop but the last uses up some
of what there is to do. -/
theorem exists_loop_of_low (crew : Crew β σ) (sound : b.controller.Sound)
    (low : ∀ h, b.controller.Low h) :
    ∃ n b', Loop crew n b b' ∧ n + b'.controller.potential ≤ b.controller.potential + 1 := by
  -- every pass that gets anywhere makes an attempt, and attempts are paid for with leeway
  induction hpotential : b.controller.potential using Nat.strongRecOn generalizing b with
  | _ potential ih =>
    have hretreat := retreatPass_eq crew (b := b.counted) sound low
    obtain ⟨k, es, hadvance, hspends, _, hattempt⟩ :=
      exists_spends_advancePass crew (b := b.counted.mark false) sound
    have hturns := turns_of_advancePass (b := b.counted.mark false) sound hadvance
    obtain ⟨hk, hmoves⟩ := Turns.sound_moves hturns sound
    have horder : k.controller.board.order = b.controller.board.order := hmoves.order
    cases hprogressed : k.progressed with
    | false =>
      have hle : k.controller.potential ≤ b.controller.potential := hspends.potential_le horder
      exact ⟨1, k, .rest hretreat rfl hadvance hprogressed, by omega⟩
    | true =>
      obtain ⟨e, he, root, hroot⟩ := hattempt hprogressed
      have hlt : k.controller.potential < b.controller.potential :=
        hspends.potential_lt sound horder ⟨e, he, hroot⟩
      obtain ⟨n, b', hloop, hle⟩ := ih _ (hpotential ▸ hlt) hk
        (fun h ↦ Turns.low hturns sound (low h)) rfl
      exact ⟨n + 1, b', .up hretreat rfl hadvance hprogressed hloop, by omega⟩

/-- Every loop comes to its end. -/
theorem exists_loop (crew : Crew β σ) (sound : b.controller.Sound) :
    ∃ n b', Loop crew n b b' ∧ n + b'.controller.potential ≤
      b.controller.board.order.length * (b.controller.chain.size - 1) + 2 := by
  obtain ⟨m, hretreat, hdrops, hlow, hstill⟩ :=
    exists_retreatPass crew (b := b.counted) sound
  obtain ⟨hm, hmoves⟩ := Turns.sound_moves hdrops.turns sound
  have hbound := hm.potential_le
  rw [hmoves.order, hmoves.chain] at hbound
  change m.controller.potential ≤
    b.controller.board.order.length * (b.controller.chain.size - 1) at hbound
  -- only the first pass can take anything down; if it does, it is one more than the rest need
  cases hprogressed : m.progressed with
  | true =>
    obtain ⟨n, b', hloop, hle⟩ := exists_loop_of_low crew hm hlow
    exact ⟨n + 1, b', .down hretreat hprogressed hloop, by omega⟩
  | false =>
    have hsame : m.controller = b.controller := hstill hprogressed
    rw [hsame] at hlow hbound
    obtain ⟨n, b', hloop, hle⟩ := exists_loop_of_low crew sound hlow
    exact ⟨n, b', hloop, by omega⟩

/-- However many passes a batch may take, its first takes down all that has to go down. -/
theorem exists_drops (sound : b.controller.Sound) (hleft : 0 < left)
    (h : passes crew left b = (b', none)) :
    ∃ m, Drops crew b.controller m ∧ (∀ h, m.Low h) ∧ Turns crew m b'.controller := by
  obtain ⟨left, rfl⟩ := Nat.exists_eq_succ_of_ne_zero (Nat.ne_of_gt hleft)
  obtain ⟨m, hretreat, hrest⟩ := exists_of_andThen h
  obtain ⟨hdrops, hlow⟩ := drops_of_retreatPass (b := b.counted) sound hretreat
  have hm := (Turns.sound_moves hdrops.turns sound).1
  refine ⟨m.controller, hdrops, hlow, ?_⟩
  split at hrest
  · exact (turns_of_passes hm hrest).1
  · obtain ⟨k, hadvance, hlast⟩ := exists_of_andThen hrest
    have hturns := turns_of_advancePass hm hadvance
    split at hlast
    · exact hturns.trans (turns_of_passes (Turns.sound_moves hturns hm).1 hlast).1
    · obtain rfl : k = b' := congrArg Prod.fst hlast
      exact hturns

end Batch

namespace Controller

open Batch

variable {c d e m k : Controller β σ} {h : Handle} {p : Progress}

/-- How many passes a batch can take at most: one for going down, one for each stage that each of
the deployments it tracks at some time can try to enter, and the last one of each of its loops. -/
def passBound (c : Controller β σ) : Nat :=
  3 + (c.board.order.length + c.queue.length) * (c.chain.size - 1)

/-- A batch goes down first, and up from then on; and no deployment tries to step up more often
than there are stages above the floor. -/
theorem Sound.process_down_up (sound : c.Sound) (crew : Crew β σ) :
    ∃ (down up : List (Entry β)) (e : Controller β σ) (tally : Tally),
      c.process crew = (.ok (), e.note (.completed tally)) ∧
      e.journal.toList = c.journal.toList ++ (down ++ up) ∧
      (∀ entry ∈ down, entry.attempt? = none) ∧ (∀ entry ∈ up, entry.isRetreat = false) ∧
      ∀ h, attempts h (down ++ up) ≤ c.chain.size - 1 := by
  obtain ⟨b, k, b', hfirst, _, _, hprocess, hparts⟩ := exists_runs crew sound
  obtain ⟨m, hdrops, hlow, hturns⟩ := exists_drops (b := start c) sound sound.passes hfirst
  obtain ⟨hm, hmoves⟩ := Turns.sound_moves hdrops.turns sound
  obtain ⟨hb, hmoves'⟩ := Turns.sound_moves hturns hm
  obtain ⟨_, hk, _⟩ := hparts.sound sound
  have hklow := hparts.toRenewed.low hb hparts.low
  obtain ⟨down, hdown, hnone⟩ := hdrops.adds sound
  obtain ⟨rises, hrises⟩ := hturns.spends hm hlow
  obtain ⟨renewals, hrenewals, hloud⟩ := hparts.renewals.journal
  obtain ⟨again, hagain⟩ := hparts.second.spends hk hklow
  refine ⟨down, rises ++ renewals ++ again, b'.controller, b'.tally, hprocess, ?_,
    fun e he ↦ (hnone e he).1, fun e he ↦ ?_, fun h ↦ ?_⟩
  · rw [hagain.journal, hrenewals, hrises.journal, hdown]
    simp only [List.append_assoc]
    rfl
  · rcases List.mem_append.1 he with he | he
    · exact (List.mem_append.1 he).elim (hrises.up e) fun he ↦ (Entry.still_of_loud (hloud e he)).1
    · exact hagain.up e he
  · rw [attempts_append, attempts_append, attempts_append,
      attempts_eq_zero fun e he ↦ (hnone e he).1,
      attempts_eq_zero fun e he ↦ (Entry.still_of_loud (hloud e he)).2.1]
    have hpaid := hrises.paid h
    have hpaid' := hagain.paid h
    have hchain : m.chain = c.chain := hmoves.chain
    have hchain' : k.chain = c.chain :=
      (hparts.grown.chain.trans hparts.swept.chain).trans (hmoves'.chain.trans hchain)
    have hbound := hm.leeway_le h
    have hbound' := hk.leeway_le h
    rw [hchain] at hbound
    rw [hchain'] at hbound'
    rcases hparts.toRenewed.leeway hb h with hsame | hgoing
    · omega
    · -- what was on the handle, if anything, had nothing left to do
      have hzero : m.leeway h = 0 := by
        cases hq : m.board.get? h with
        | none => rw [leeway, hq, Option.elim_none]
        | some q =>
          obtain ⟨r, hr, _, _, hremoving⟩ := hmoves'.exists_get? hq
          exact hm.leeway_removing hq (hremoving ▸ hgoing r hr)
      omega

/-- The two loops of a batch come to their ends, and unless its passes are used up before that, they
are all that a batch does but for what it takes out and plants between them. -/
theorem Sound.process_loops (sound : c.Sound) (crew : Crew β σ) (accounted : Accounted c) :
    ∃ n₁ n₂ m k e, Loop crew n₁ (start c) m ∧ m.controller.sweep.materialize = (k, none) ∧
      Loop crew n₂ { m with controller := k } e ∧ n₁ + n₂ ≤ c.passBound ∧
      m.controller.board.order = c.board.order ∧
      (∃ roots, k.board.order = c.board.order.filter (· ∉ m.controller.discardable) ++ roots ∧
        roots.length = c.queue.length) ∧
      e.tally.passes ≤ n₁ + n₂ ∧ Adds (fun entry ↦ entry.isPassLimit = false) c e.controller ∧
      (n₁ + n₂ ≤ c.config.maxPasses →
        c.process crew = (.ok (), e.controller.note (.completed e.tally))) := by
  obtain ⟨n₁, m, hloop, hle⟩ := exists_loop crew (b := start c) sound
  have hpasses := hloop.passes_eq (Nat.le_refl n₁)
  obtain ⟨hturns, hlow⟩ := turns_of_passes (b := start c) sound hpasses
  have hlow := hlow (by cases hloop <;> exact Nat.succ_pos _)
  obtain ⟨hm, hmoves⟩ := Turns.sound_moves hturns sound
  obtain ⟨k, hmaterialize, hrenewed⟩ := sound.exists_renewed hturns hlow
  have hk := hrenewed.renewals.sound hm
  obtain ⟨n₂, e, hloop', hle'⟩ := exists_loop_of_low crew (b := { m with controller := k }) hk
    (hrenewed.low hm hlow)
  have hbound : n₁ + n₂ ≤ c.passBound := by
    have hchain : m.controller.chain = c.chain := hmoves.chain
    have hpotential := hrenewed.potential_le hm
    rw [hchain] at hpotential
    change n₁ + m.controller.potential ≤
      c.board.order.length * (c.chain.size - 1) + 2 at hle
    change n₂ + e.controller.potential ≤ k.potential + 1 at hle'
    unfold passBound
    rw [Nat.add_mul]
    omega
  have hsteps : Steps crew c k := hturns.steps.trans ((hrenewed.renewals.works crew).steps hm)
  have hpasses' := hloop'.passes_eq (Nat.le_refl n₂)
  obtain ⟨i, hi, htells⟩ := tells_passes "" sound accounted hpasses
  obtain ⟨j, hj, htells'⟩ := tells_passes "" (b := { m with controller := k }) hk
    (hsteps.accounted sound accounted) hpasses'
  have hfirst : m.tally.passes = i := htells.passes.trans (Nat.zero_add i)
  have htotal : e.tally.passes = m.tally.passes + j := htells'.passes
  have hrenewals : Adds (fun entry ↦ entry.isPassLimit = false) m.controller k :=
    Adds.imp hrenewed.renewals.journal fun _ hloud ↦ (Entry.still_of_loud hloud).2.2
  obtain ⟨roots, horder, hall⟩ := hrenewed.grown.order
  have hkept : m.controller.board.order = c.board.order := hmoves.order
  have horder : k.board.order =
      c.board.order.filter (· ∉ m.controller.discardable) ++ roots := by
    rw [horder, ← hkept, ← hrenewed.swept.order]
  refine ⟨n₁, n₂, m, k, e, hloop, hmaterialize, hloop', hbound, hkept,
    ⟨roots, horder, hall.length_eq⟩, by omega,
    ((hloop.adds sound).trans hrenewals).trans (hloop'.adds hk), fun hlimit ↦ ?_⟩
  have hfits : n₁ ≤ c.config.maxPasses - 0 := by omega
  have hrun : run crew (start c) = (m, none) := hloop.passes_eq hfits
  have hconfig : k.config = c.config := (hsteps.fixed sound).1
  have hfits' : n₂ ≤ k.config.maxPasses - m.tally.passes := by
    rw [hconfig]
    omega
  have hrun' : run crew { m with controller := k } = (e, none) := hloop'.passes_eq hfits'
  unfold process
  rw [hrun]
  simp only [hmaterialize, hrun']

/-- What a batch ends with tells its journal before that, and what it has counted. -/
theorem eq_of_note_completed {s t : Tally} (h : d.note (.completed s) = e.note (.completed t)) :
    d.journal = e.journal ∧ s = t := by
  have hpush : d.journal.push (.completed s) = e.journal.push (.completed t) :=
    congrArg Controller.journal h
  obtain ⟨hentry, hjournal⟩ := Array.push_eq_push.1 hpush
  exact ⟨hjournal, Entry.completed.inj hentry⟩

/-- However a run has gone so far, and whatever deployers do: a batch goes down first and up from
then on, no deployment tries to step up more often than there are stages above the floor, and so the
batch takes no more passes than `passBound`. If it may take that many, it never meets its limit: it
does what its two loops do, which come to their ends on their own. -/
theorem batch_bounded {c₀ : Controller β σ} (reachable : Reachable crew c₀)
    (steps : Steps crew c₀ c) :
    ∃ (down up : List (Entry β)) (tally : Tally),
      (c.process crew).1 = .ok () ∧
      (c.process crew).2.journal.toList =
        c.journal.toList ++ (down ++ up) ++ [.completed tally] ∧
      (∀ entry ∈ down, entry.attempt? = none) ∧ (∀ entry ∈ up, entry.isRetreat = false) ∧
      (∀ h, attempts h (down ++ up) ≤ c.chain.size - 1) ∧
      tally.passes ≤ c.passBound ∧
      (c.passBound ≤ c.config.maxPasses → ∀ entry ∈ down ++ up, entry.isPassLimit = false) ∧
      ∃ n₁ n₂ m k e, Loop crew n₁ (start c) m ∧ m.controller.sweep.materialize = (k, none) ∧
        Loop crew n₂ { m with controller := k } e ∧ n₁ + n₂ ≤ c.passBound ∧
        m.controller.board.order = c.board.order ∧
        (∃ roots, k.board.order = c.board.order.filter (· ∉ m.controller.discardable) ++ roots ∧
          roots.length = c.queue.length) ∧
        (c.passBound ≤ c.config.maxPasses →
          c.process crew = (.ok (), e.controller.note (.completed e.tally))) := by
  have sound := steps.sound reachable.sound
  have accounted := steps.accounted reachable.sound reachable.accounted
  obtain ⟨down, up, d, tally, hprocess, hjournal, hdown, hup, hattempts⟩ :=
    sound.process_down_up crew
  obtain ⟨n₁, n₂, m, k, e, hloop, hmaterialize, hloop', hbound, hkept, hplanted,
    hpasses, hfree, hwhole⟩ :=
    sound.process_loops crew accounted
  obtain ⟨n, hn, b, htells, hlast⟩ := sound.tells_process crew accounted ""
  have htally : tally = b.tally := by
    rw [hprocess] at hlast
    exact (eq_of_note_completed hlast).2
  have htaken : tally.passes = n := by
    rw [htally, htells.passes]
    exact Nat.zero_add n
  refine ⟨down, up, tally, by rw [hprocess], ?_, hdown, hup, hattempts, ?_, fun hmay ↦ ?_,
    n₁, n₂, m, k, e, hloop, hmaterialize, hloop', hbound, hkept, hplanted,
    fun hmay ↦ hwhole (hbound.trans hmay)⟩
  · rw [hprocess, journal_note, hjournal]
  · -- a batch that is cut short has taken all passes it may, which are fewer than its loops need
    rcases Nat.lt_or_ge c.config.maxPasses (n₁ + n₂) with hcut | hfits
    · omega
    · have hsame := hprocess.symm.trans (hwhole hfits)
      rw [(eq_of_note_completed (congrArg Prod.snd hsame)).2]
      omega
  · have hsame := hprocess.symm.trans (hwhole (hbound.trans hmay))
    obtain ⟨es, hes, hnone⟩ := hfree
    rw [← (eq_of_note_completed (congrArg Prod.snd hsame)).1, hjournal] at hes
    rw [List.append_cancel_left hes]
    exact hnone

/-- A run on which a batch has much to do, with just as many passes as it can take: it brings back a
deployment that the other live one needs, in a shape that is going to fail at the second stage. -/
def flux : Controller Unit Unit := (driving ⟨"PostParse", 2⟩ 30).serveAll touchy
  [.enlist ⟨{ name := "db", stage := ⟨"PostParse", 2⟩ }, ()⟩,
    .deploy (.mk "gui" .none [] [] []),
    .deploy (.mk "app" .none [⟨"gui", ⟨"PostParse", 2⟩, ⟨"Parse", 1⟩⟩] [] []),
    .add (.mk "gui" .none [] [] [.mk "db" .none [] [] []])]

theorem batch_bounded_flux :
    flux.passBound = 30 ∧ ∃ (down up : List (Entry Unit)) (tally : Tally),
      (flux.process touchy).2.journal.toList =
        flux.journal.toList ++ (down ++ up) ++ [.completed tally] ∧
      (∀ entry ∈ down, entry.attempt? = none) ∧ (∀ entry ∈ up, entry.isRetreat = false) ∧
      (∀ h, attempts h (down ++ up) ≤ 9) ∧ tally.passes ≤ 30 ∧
      ∀ entry ∈ down ++ up, entry.isPassLimit = false := by
  have reachable : Reachable touchy flux := reachable_driving touchy rfl rfl _
  have hbound : flux.passBound = 30 := by decide +kernel
  have hmay : flux.passBound ≤ flux.config.maxPasses := by decide +kernel
  have hsize : flux.chain.size - 1 = 9 := by decide +kernel
  obtain ⟨down, up, tally, _, hjournal, hdown, hup, hattempts, hpasses, hfree, _⟩ :=
    batch_bounded reachable .refl
  exact ⟨hbound, down, up, tally, hjournal, hdown, hup, hsize ▸ hattempts, hbound ▸ hpasses,
    hfree hmay⟩

end Controller

end Rollout
