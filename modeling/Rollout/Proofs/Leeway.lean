import Mathlib.Algebra.GroupWithZero.Nat
import Mathlib.Algebra.Order.BigOperators.Group.List
import Mathlib.Algebra.Order.Group.Nat
import Rollout.Proofs.Quiescence

/-!
Leeway. A deployment that is free of error can still enter as many stages as lie between the one it
is at and the one it is asked for. Every step up uses up one of them, and a step that fails uses up
all that are left, since a deployment in error takes no more. Where nothing is above the stage it is
asked for, nothing goes down either, so from then on a batch makes no more attempts than there was
leeway for.
-/

set_option autoImplicit false
set_option relaxedAutoImplicit false

namespace Rollout

variable {β σ : Type} {h : Handle}

namespace Entry

/-- Whether an entry tells of a step down. -/
def isRetreat : Entry β → Bool
  | retreated .. => true
  | _ => false

/-- The deployment that has tried to step up, where an entry tells of one that did or failed to. -/
def attempt? : Entry β → Option Handle
  | advanced move _ => some move.root
  | failed root .. => some root
  | _ => none

theorem still_of_ofCrew {e : Entry β} (hcrew : e.ofCrew = true) :
    e.isRetreat = false ∧ e.attempt? = none ∧ e.isPassLimit = false := by
  cases e <;> first | exact ⟨rfl, rfl, rfl⟩ | exact absurd hcrew (by simp [ofCrew, isCall])

theorem still_of_loud {e : Entry β} (hloud : e.isQuiet = false) :
    e.isRetreat = false ∧ e.attempt? = none ∧ e.isPassLimit = false := by
  cases e <;> first | exact ⟨rfl, rfl, rfl⟩ | exact absurd hloud (by simp [isQuiet])

theorem still_of_attempt {e : Entry β} (hattempt : e.attempt? = some h) :
    e.isRetreat = false ∧ e.isPassLimit = false := by
  cases e <;> first | exact ⟨rfl, rfl⟩ | exact absurd hattempt (by simp [attempt?])

end Entry

/-- How often a deployment has tried to step up. -/
def attempts (h : Handle) (es : List (Entry β)) : Nat := es.countP fun e ↦ e.attempt? = some h

theorem attempts_append (h : Handle) (es fs : List (Entry β)) :
    attempts h (es ++ fs) = attempts h es + attempts h fs := List.countP_append

theorem attempts_eq_zero {es : List (Entry β)} (hnone : ∀ e ∈ es, e.attempt? = none) (h : Handle) :
    attempts h es = 0 :=
  List.countP_eq_zero.2 fun e he ↦ by simp [hnone e he]

namespace Controller

variable {crew : Crew β σ} {c d e m k : Controller β σ} {p q : Progress}
  {es fs : List (Entry β)}

/-! Kinds of entries. -/

/-- The journal goes on with entries of one kind. -/
def Adds (kind : Entry β → Prop) (c d : Controller β σ) : Prop :=
  ∃ es, d.journal.toList = c.journal.toList ++ es ∧ ∀ e ∈ es, kind e

variable {kind : Entry β → Prop}

theorem Adds.refl (c : Controller β σ) : Adds kind c c := ⟨[], by simp⟩

theorem Adds.trans (first : Adds kind c d) (second : Adds kind d e) : Adds kind c e := by
  obtain ⟨es, hes, hkind⟩ := first
  obtain ⟨fs, hfs, hkind'⟩ := second
  refine ⟨es ++ fs, by rw [hfs, hes, List.append_assoc], fun x hx ↦ ?_⟩
  exact (List.mem_append.1 hx).elim (hkind x) (hkind' x)

theorem Adds.imp {other : Entry β → Prop} (adds : Adds kind c d) (h : ∀ e, kind e → other e) :
    Adds other c d := by
  obtain ⟨es, hes, hkind⟩ := adds
  exact ⟨es, hes, fun e he ↦ h e (hkind e he)⟩

theorem adds_note (c : Controller β σ) {entry : Entry β} (hkind : kind entry) :
    Adds kind c (c.note entry) :=
  ⟨[entry], journal_note c entry, by simpa using hkind⟩

theorem Sound.adds_lowered (sound : c.Sound) (crew : Crew β σ) (p : Progress) (below : Stage)
    (hcrew : ∀ e : Entry β, e.ofCrew = true → kind e)
    (hretreat : ∀ move undone, kind (.retreated move undone)) :
    Adds kind c (c.lowered crew p below) := by
  obtain ⟨es, hes, hall, _⟩ := (sound.treated_lowered crew p).ambient.journal
  have hleft : Adds kind c { c with
      site := (c.site.leaveStage crew p.root p.stage).2
      board := c.board.update p.root fun q ↦ { q with stage := below } } :=
    ⟨es, hes, fun e he ↦ hcrew e (hall e he)⟩
  exact hleft.trans (adds_note _ (hretreat _ _))

/-- Nothing that deployments do on their way down is an attempt to step up. -/
theorem Drops.adds (drops : Drops crew c d) (sound : c.Sound) :
    Adds (fun e ↦ e.attempt? = none ∧ e.isPassLimit = false) c d :=
  drops.preserves sound (Adds _ c) (fun _ _ _ hadds ↦ hadds.trans (adds_note _ ⟨rfl, rfl⟩))
    (fun sound _ _ hadds ↦ hadds.trans (sound.adds_lowered crew _ _
      (fun _ hcrew ↦ (Entry.still_of_ofCrew hcrew).2) fun _ _ ↦ ⟨rfl, rfl⟩)) (.refl c)

/-! What a deployment may still do. -/

/-- How many more stages a deployment may still enter. -/
def leeway (c : Controller β σ) (h : Handle) : Nat :=
  (c.board.get? h).elim 0 fun p ↦
    if p.error.isSome then 0 else p.requested.index - p.stage.index

/-- How many more stages all deployments together may still enter. -/
def potential (c : Controller β σ) : Nat := (c.board.order.map c.leeway).sum

theorem leeway_of_get? (hp : c.board.get? h = some p) :
    c.leeway h = if p.error.isSome then 0 else p.requested.index - p.stage.index := by
  rw [leeway, hp, Option.elim_some]

theorem leeway_congr (hget : d.board.get? h = c.board.get? h) : d.leeway h = c.leeway h := by
  rw [leeway, hget, leeway]

theorem Sound.leeway_le (sound : c.Sound) (h : Handle) : c.leeway h ≤ c.chain.size - 1 := by
  unfold leeway
  cases hp : c.board.get? h with
  | none => exact Nat.zero_le _
  | some p =>
    have hlt := Chain.index_lt_size (sound.requested hp)
    rw [Option.elim_some]
    split <;> omega

/-- Nothing is asked of a deployment that is to be removed. -/
theorem Sound.leeway_removing (sound : c.Sound) (hp : c.board.get? h = some p)
    (hremoving : p.removing = true) : c.leeway h = 0 := by
  rw [leeway_of_get? hp, sound.removing hp hremoving]
  split
  · rfl
  · exact Nat.zero_sub _

/-- In the entries from one controller to another no deployment goes down, and every attempt to step
up is paid for with leeway. -/
structure Spends (es : List (Entry β)) (c d : Controller β σ) : Prop where
  journal : d.journal.toList = c.journal.toList ++ es
  up : ∀ e ∈ es, e.isRetreat = false
  paid : ∀ h, attempts h es + d.leeway h ≤ c.leeway h

theorem Spends.refl (c : Controller β σ) : Spends [] c c :=
  ⟨(List.append_nil _).symm, by simp, fun _ ↦ Nat.le_of_eq (Nat.zero_add _)⟩

theorem Spends.trans (first : Spends es c d) (second : Spends fs d e) : Spends (es ++ fs) c e := by
  refine ⟨?_, fun x hx ↦ ?_, fun h ↦ ?_⟩
  · rw [second.journal, first.journal, List.append_assoc]
  · exact (List.mem_append.1 hx).elim (first.up x) (second.up x)
  · have hfirst := first.paid h
    have hsecond := second.paid h
    rw [attempts_append]
    omega

/-- An entry that is no attempt costs nothing. -/
theorem spends_note {entry : Entry β} (hup : entry.isRetreat = false)
    (hnone : entry.attempt? = none) (hjournal : d.journal.toList = c.journal.toList ++ [entry])
    (hleeway : ∀ h, d.leeway h ≤ c.leeway h) : Spends [entry] c d := by
  refine ⟨hjournal, by simpa using hup, fun h ↦ ?_⟩
  rw [attempts_eq_zero (by simpa using hnone), Nat.zero_add]
  exact hleeway h

/-- An attempt of one deployment costs it leeway. -/
theorem spends_attempt {calls : List (Entry β)} {site : Site β σ} {root : Handle}
    (passed : c.site.ambient.Passed site.ambient calls) {entry : Entry β}
    (hattempt : entry.attempt? = some root)
    (hjournal : d.journal = site.ambient.journal.push entry) (hpaid : d.leeway root < c.leeway root)
    (hothers : ∀ h, h ≠ root → d.leeway h = c.leeway h) :
    ∃ es, Spends es c d ∧ (∀ e ∈ es, e.isPassLimit = false) ∧ ∃ e ∈ es, e.attempt? = some root := by
  obtain ⟨es, hes, hcrew, _⟩ := passed.journal
  obtain ⟨hup, hlimit⟩ := Entry.still_of_attempt hattempt
  refine ⟨es ++ [entry], ⟨?_, fun e he ↦ ?_, fun h ↦ ?_⟩, fun e he ↦ ?_, entry,
    List.mem_append_right _ List.mem_cons_self, hattempt⟩
  · rw [hjournal, Array.toList_push, hes, List.append_assoc]
    rfl
  · rcases List.mem_append.1 he with he | he
    · exact (Entry.still_of_ofCrew (hcrew e he)).1
    · rwa [List.mem_singleton.1 he]
  · rw [attempts_append, attempts_eq_zero fun e he ↦ (Entry.still_of_ofCrew (hcrew e he)).2.1,
      Nat.zero_add]
    by_cases hh : h = root
    · subst hh
      simp only [attempts, List.countP_cons, List.countP_nil, hattempt, decide_true, if_true]
      omega
    · have hne : ¬ root = h := fun heq ↦ hh heq.symm
      simp only [attempts, List.countP_cons, List.countP_nil, hattempt, Option.some_inj, hne,
        decide_false, Bool.false_eq_true, if_false, Nat.zero_add]
      exact Nat.le_of_eq (hothers h hh)
  · rcases List.mem_append.1 he with he | he
    · exact (Entry.still_of_ofCrew (hcrew e he)).2.2
    · rwa [List.mem_singleton.1 he]

/-- A deployment that can take its next step has leeway for it. -/
theorem Sound.leeway_ready (sound : c.Sound) {next : Stage} (hp : c.board.get? p.root = some p)
    (hready : c.verdict p.root = .ready next) :
    p.error = none ∧ p.requested.index - next.index < c.leeway p.root := by
  obtain ⟨herror, hle, hnext, _⟩ := of_verdict_ready hp hready
  rw [Chain.le_iff_index (sound.requested hp) (sound.stage hp)] at hle
  have hindex := Chain.index_of_next? hnext
  refine ⟨herror, ?_⟩
  rw [leeway_of_get? hp, herror]
  simp only [Option.isSome_none, Bool.false_eq_true, if_false]
  omega

theorem Sound.spends_raised (sound : c.Sound) (hp : c.board.get? p.root = some p) {next : Stage}
    {applied : Nat} {site : Site β σ} (hready : c.verdict p.root = .ready next)
    (henter : c.site.enterStage crew p.root next = (.ok applied, site)) :
    ∃ es, Spends es c (c.raised p next applied site) ∧ (∀ e ∈ es, e.isPassLimit = false) ∧
      ∃ e ∈ es, e.attempt? = some p.root := by
  obtain ⟨_, hpassed⟩ := sound.passed_enterStage crew henter
  obtain ⟨herror, hlt⟩ := sound.leeway_ready hp hready
  refine spends_attempt hpassed rfl rfl ?_ fun h hh ↦
    leeway_congr ((get?_raised hp).trans (if_neg hh))
  rw [leeway_of_get? ((get?_raised hp).trans (if_pos rfl)), herror]
  exact hlt

theorem Sound.spends_stalled (sound : c.Sound) (hp : c.board.get? p.root = some p) {next : Stage}
    {failure : Failure} {site : Site β σ} (hready : c.verdict p.root = .ready next)
    (henter : c.site.enterStage crew p.root next = (.error failure, site)) :
    ∃ es, Spends es c (c.stalled p next failure site) ∧ (∀ e ∈ es, e.isPassLimit = false) ∧
      ∃ e ∈ es, e.attempt? = some p.root := by
  obtain ⟨_, hpassed⟩ := sound.passed_enterStage crew henter
  obtain ⟨_, hlt⟩ := sound.leeway_ready hp hready
  refine spends_attempt hpassed rfl rfl ?_ fun h hh ↦
    leeway_congr ((get?_stalled hp).trans (if_neg hh))
  rw [leeway_of_get? ((get?_stalled hp).trans (if_pos rfl))]
  exact Nat.zero_lt_of_lt hlt

theorem spends_parked {missing : List Shortfall} (hp : c.board.get? p.root = some p) :
    Spends [.parked p.root p.name p.stage missing] c (c.parked p missing) := by
  refine spends_note rfl rfl (journal_note _ _) fun h ↦ ?_
  by_cases hh : h = p.root
  · subst hh
    rw [leeway_of_get? ((get?_parked hp).trans (if_pos rfl)), leeway_of_get? hp]
  · exact Nat.le_of_eq (leeway_congr ((get?_parked hp).trans (if_neg hh)))

/-- Where nothing is above the stage it is asked for, every turn is paid for. -/
theorem Turn.spends (turn : Turn crew c d) (sound : c.Sound) (low : ∀ h, c.Low h) :
    ∃ es, Spends es c d := by
  cases turn with
  | descend hp hlt _ _ =>
    rw [Chain.lt_iff_index (sound.requested hp) (sound.stage hp)] at hlt
    exact absurd hlt (Nat.not_lt.2 (low _ _ hp))
  | raise hp hready henter =>
    obtain ⟨es, hspends, _⟩ := sound.spends_raised hp hready henter
    exact ⟨es, hspends⟩
  | stall hp hready henter =>
    obtain ⟨es, hspends, _⟩ := sound.spends_stalled hp hready henter
    exact ⟨es, hspends⟩
  | park hp _ => exact ⟨_, spends_parked hp⟩
  | limit passes =>
    exact ⟨[.passLimit passes], spends_note rfl rfl (journal_note _ _) fun _ ↦ Nat.le_refl _⟩

theorem Turns.spends (turns : Turns crew c d) (sound : c.Sound) (low : ∀ h, c.Low h) :
    ∃ es, Spends es c d := by
  induction turns with
  | refl => exact ⟨[], .refl c⟩
  | tail first turn ih =>
    obtain ⟨es, hspends⟩ := ih
    obtain ⟨fs, hspends'⟩ := turn.spends (Turns.sound_moves first sound).1
      fun h ↦ Turns.low first sound (low h)
    exact ⟨es ++ fs, hspends.trans hspends'⟩

/-- What the next step up of a deployment costs, if it can take one. -/
theorem Sound.spends_advanced (sound : c.Sound) (crew : Crew β σ) (root : Handle) :
    ∃ es, Spends es c (c.advanced crew root) ∧ (∀ e ∈ es, e.isPassLimit = false) ∧
      ((∃ next, c.verdict root = .ready next) → ∃ e ∈ es, e.attempt? = some root) := by
  cases hp : c.board.get? root with
  | none =>
    refine ⟨[], ?_, by simp, fun ⟨next, hready⟩ ↦ ?_⟩
    · rw [advanced_of_untracked crew hp]
      exact .refl c
    · simp [verdict, Board.verdict, hp] at hready
  | some p =>
    obtain rfl := Board.root_of_get? hp
    rw [advanced_eq crew hp]
    cases hverdict : c.verdict p.root with
    | idle => exact ⟨[], .refl c, by simp, by simp⟩
    | blocked missing =>
      simp only
      split
      · exact ⟨[], .refl c, by simp, by simp⟩
      · exact ⟨_, spends_parked hp, by simp [Entry.isPassLimit], by simp⟩
    | ready next =>
      simp only
      cases henter : c.site.enterStage crew p.root next with
      | mk result site =>
        cases result with
        | ok applied =>
          obtain ⟨es, hspends, hlimit, hattempt⟩ := sound.spends_raised hp hverdict henter
          exact ⟨es, hspends, hlimit, fun _ ↦ hattempt⟩
        | error failure =>
          obtain ⟨es, hspends, hlimit, hattempt⟩ := sound.spends_stalled hp hverdict henter
          exact ⟨es, hspends, hlimit, fun _ ↦ hattempt⟩

/-! All deployments together. -/

theorem Spends.potential_le (spends : Spends es c d) (horder : d.board.order = c.board.order) :
    d.potential ≤ c.potential := by
  unfold potential
  rw [horder]
  exact List.sum_le_sum fun h _ ↦ Nat.le_trans (Nat.le_add_left _ _) (spends.paid h)

/-- Every attempt uses up some of what the deployments together may still do. -/
theorem Spends.potential_lt (spends : Spends es c d) (sound : c.Sound)
    (horder : d.board.order = c.board.order) (hattempt : ∃ e ∈ es, e.attempt? = some h) :
    d.potential < c.potential := by
  obtain ⟨e, he, hroot⟩ := hattempt
  have hpos : 0 < attempts h es := List.countP_pos_iff.2 ⟨e, he, decide_eq_true hroot⟩
  have hpaid := spends.paid h
  have hmem : h ∈ c.board.order := by
    refine sound.tracked.2 (Option.ne_none_iff_exists'.1 fun hnone ↦ ?_)
    have hzero : c.leeway h = 0 := by rw [leeway, hnone, Option.elim_none]
    omega
  unfold potential
  rw [horder]
  exact List.sum_lt_sum _ _ (fun h _ ↦ Nat.le_trans (Nat.le_add_left _ _) (spends.paid h))
    ⟨h, hmem, by omega⟩

theorem Sound.potential_le (sound : c.Sound) :
    c.potential ≤ c.board.order.length * (c.chain.size - 1) := by
  have hsum := List.sum_le_card_nsmul (c.board.order.map c.leeway) (c.chain.size - 1)
    fun x hx ↦ by
      obtain ⟨h, _, rfl⟩ := List.mem_map.1 hx
      exact sound.leeway_le h
  rwa [List.length_map, Nat.nsmul_eq_mul] at hsum

/-! Taking out and planting. -/

variable {queue : List Blueprint}

/-- When some deployments have been taken out and others planted, a deployment has the leeway that
it had, unless all that was on its handle was to be removed. -/
theorem Renewed.leeway (renewed : Renewed queue m k) (sound : m.Sound) (h : Handle) :
    k.leeway h = m.leeway h ∨ ∀ p, m.board.get? h = some p → p.removing = true := by
  cases hp : m.board.get? h with
  | none => exact Or.inr (by simp)
  | some p =>
    cases hremoving : p.removing with
    | true => exact Or.inr (by simp [hremoving])
    | false =>
      have hkept := (renewed.get? sound hp hremoving).1
      exact Or.inl (leeway_congr (hkept.trans hp.symm))

/-- Each deployment that is planted adds no more to what there is to do than the chain is long. -/
theorem Renewed.potential_le (renewed : Renewed queue m k) (sound : m.Sound) :
    k.potential ≤ m.potential + queue.length * (m.chain.size - 1) := by
  have hk := renewed.renewals.sound sound
  have hchain : k.chain = m.chain := renewed.grown.chain.trans renewed.swept.chain
  obtain ⟨roots, horder, hall⟩ := renewed.grown.order
  have horder : k.board.order = m.board.order.filter (· ∉ m.discardable) ++ roots := by
    rw [horder, ← renewed.swept.order]
  have hkept : ∀ h ∈ m.board.order.filter (· ∉ m.discardable), k.leeway h = m.leeway h := by
    intro h hh
    obtain ⟨hmem, hnot⟩ := List.mem_filter.1 hh
    obtain ⟨p, hp⟩ := sound.tracked.1 hmem
    have hswept : m.sweep.board.get? h = some p := by
      rw [renewed.swept.get?, if_neg (of_decide_eq_true hnot), hp]
    exact leeway_congr ((renewed.grown.get? hswept).trans hp.symm)
  have hstay : ((m.board.order.filter (· ∉ m.discardable)).map k.leeway).sum ≤ m.potential := by
    rw [List.map_congr_left hkept]
    exact (List.filter_sublist.map _).sum_le_sum fun _ _ ↦ Nat.zero_le _
  have hnew := List.sum_le_card_nsmul (roots.map k.leeway) (m.chain.size - 1) fun x hx ↦ by
    obtain ⟨h, _, rfl⟩ := List.mem_map.1 hx
    exact hchain ▸ hk.leeway_le h
  rw [List.length_map, Nat.nsmul_eq_mul, hall.length_eq] at hnew
  unfold potential at hstay ⊢
  rw [horder, List.map_append, List.sum_append]
  exact Nat.add_le_add hstay hnew

end Controller

end Rollout
