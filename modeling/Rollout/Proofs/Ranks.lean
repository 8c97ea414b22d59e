import Rollout.Proofs.StandingNeeds

/-!
Ranks. A rank of past entries into stages grows with each of them: a need that is in force was met
when its stage was entered, so by an entry of lower rank. Along a recall ranks grow, so although a
recall skips whoever is on its path already, and needs may run in circles, no deployment on the path
can hold a need in force on the one that goes down. Every step of a controller keeps that there is a
rank. This is about needs that apply from a stage above the floor and ask for one: no other need has
anybody recalled.
-/

set_option autoImplicit false
set_option relaxedAutoImplicit false

namespace Rollout

variable {β σ : Type}

/-- A need as it ought to be declared: it applies from a stage above the floor and asks for one, and
a deployer declares it only for a later stage than the one it works for. -/
structure Need.Proper (chain : Chain) (n : Need) : Prop where
  applies : 0 < (Board.appliesFrom chain n).index
  asks : ∀ r, chain.resolve? n.atLeast = some r → 0 < r.index
  later : ∀ s, n.declaredAt = some s → s.index < (Board.appliesFrom chain n).index

/-- A need that has its deployment recalled: it applies from a stage above the floor and asks for
one. -/
structure Need.Firm (chain : Chain) (n : Need) : Prop where
  applies : 0 < (Board.appliesFrom chain n).index
  asks : ∀ r, chain.resolve? n.atLeast = some r → 0 < r.index

theorem Need.Proper.firm {chain : Chain} {n : Need} (proper : n.Proper chain) : n.Firm chain :=
  ⟨proper.applies, proper.asks⟩

/-- A need that a deployer declares, if one does, only for a later stage than it works for. -/
def Need.Timely (chain : Chain) (n : Need) : Prop :=
  ∀ s, n.declaredAt = some s → s.index < (Board.appliesFrom chain n).index

instance (chain : Chain) (n : Need) : Decidable (n.Proper chain) :=
  decidable_of_iff (0 < (Board.appliesFrom chain n).index ∧
      (∀ r ∈ chain.resolve? n.atLeast, 0 < r.index) ∧
      ∀ s ∈ n.declaredAt, s.index < (Board.appliesFrom chain n).index)
    ⟨fun ⟨happlies, hasks, hlater⟩ ↦ ⟨happlies, hasks, hlater⟩,
      fun ⟨happlies, hasks, hlater⟩ ↦ ⟨happlies, hasks, hlater⟩⟩

namespace Controller

variable {crew : Crew β σ} {c d : Controller β σ} {h root : Handle} {p q : Progress} {n : Need}
  {rank : Handle → Nat → Nat} {name : String}

/-- A rank of the entries of deployments into stages: it grows from stage to stage, and a firm need
in force is met by an entry of lower rank than that into the stage it applies from. -/
structure Ranked (c : Controller β σ) (rank : Handle → Nat → Nat) : Prop where
  bound : ∃ top, ∀ h i, rank h i ≤ top
  grows : ∀ {h : Handle} {p : Progress}, c.board.get? h = some p → ∀ {i j : Nat}, i < j →
    j ≤ p.stage.index → rank h i < rank h j
  met : ∀ {h : Handle} {p : Progress}, c.board.get? h = some p → ∀ n ∈ c.needs h,
    n.Firm c.chain → (Board.appliesFrom c.chain n).index ≤ p.stage.index →
      ∃ t q r, c.home? n.target = some t ∧ c.board.get? t = some q ∧
        c.chain.resolve? n.atLeast = some r ∧ r.index ≤ q.stage.index ∧
        rank t r.index < rank h (Board.appliesFrom c.chain n).index

/-- All needs of tracked deployments are declared as they ought to be. -/
def Proper (c : Controller β σ) : Prop :=
  ∀ h p, c.board.get? h = some p → ∀ n ∈ c.needs h, n.Proper c.chain

/-- All needs of tracked deployments are declared in time. -/
def Timely (c : Controller β σ) : Prop :=
  ∀ h p, c.board.get? h = some p → ∀ n ∈ c.needs h, n.Timely c.chain

theorem Lowers.proper {path : List Handle} (lowers : Lowers path c d) (proper : c.Proper) :
    d.Proper := by
  intro h q hq n hn
  obtain ⟨p, hp, _⟩ := lowers.alike.get? hq
  rw [lowers.alike.chain]
  exact proper h p hp n (lowers.needs_subset hn)

theorem Ranked.grows_le (ranked : Ranked c rank) (hp : c.board.get? h = some p) {i j : Nat}
    (hij : i ≤ j) (hj : j ≤ p.stage.index) : rank h i ≤ rank h j := by
  rcases Nat.lt_or_eq_of_le hij with hlt | rfl
  · exact Nat.le_of_lt (ranked.grows hp hlt hj)
  · exact Nat.le_refl _

/-- A rank is kept as long as deployments only come down, needs only go, and whatever met a need
that is still in force still does so. -/
theorem Ranked.mono (ranked : Ranked c rank) (hchain : d.chain = c.chain)
    (hstage : ∀ {h : Handle} {q : Progress}, d.board.get? h = some q →
      ∃ p, c.board.get? h = some p ∧ q.stage.index ≤ p.stage.index)
    (hneeds : ∀ {h : Handle} {q : Progress}, d.board.get? h = some q → d.needs h ⊆ c.needs h)
    (hheld : ∀ {h t : Handle} {p q : Progress} {n : Need} {r : Stage}, d.board.get? h = some q →
      n ∈ c.needs h → n.Firm c.chain → (Board.appliesFrom c.chain n).index ≤ q.stage.index →
      c.home? n.target = some t → c.board.get? t = some p → c.chain.resolve? n.atLeast = some r →
      r.index ≤ p.stage.index → rank t r.index < rank h (Board.appliesFrom c.chain n).index →
        d.home? n.target = some t ∧ ∃ q, d.board.get? t = some q ∧ r.index ≤ q.stage.index) :
    Ranked d rank := by
  refine ⟨ranked.bound, fun {h q} hq {i j} hij hj ↦ ?_, fun {h q} hq n hn hfirm hforce ↦ ?_⟩
  · obtain ⟨p, hp, hle⟩ := hstage hq
    exact ranked.grows hp hij (Nat.le_trans hj hle)
  · obtain ⟨p, hp, hle⟩ := hstage hq
    rw [hchain] at hfirm hforce ⊢
    obtain ⟨t, x, r, hhome, hx, hr, hrx, hrank⟩ :=
      ranked.met hp n (hneeds hq hn) hfirm (Nat.le_trans hforce hle)
    obtain ⟨hhome', y, hy, hry⟩ := hheld hq (hneeds hq hn) hfirm hforce hhome hx hr hrx hrank
    exact ⟨t, y, r, hhome', hy, hr, hry, hrank⟩

/-- A rank is kept as long as nothing moves. -/
theorem Ranked.still (ranked : Ranked c rank) (hchain : d.chain = c.chain)
    (hstage : ∀ h, d.board.stage? h = c.board.stage? h) (hneeds : ∀ h, d.needs h ⊆ c.needs h)
    (hhome : ∀ name, d.home? name = c.home? name) : Ranked d rank := by
  have hback : ∀ {h : Handle} {q : Progress}, d.board.get? h = some q →
      ∃ p, c.board.get? h = some p ∧ p.stage = q.stage := fun {h q} hq ↦ by
    have hsame := hstage h
    unfold Board.stage? at hsame
    rw [hq, Option.map_some, eq_comm, Option.map_eq_some_iff] at hsame
    exact hsame
  refine ranked.mono hchain (fun {h q} hq ↦ ?_) (fun {h _} _ ↦ hneeds h) ?_
  · obtain ⟨p, hp, heq⟩ := hback hq
    exact ⟨p, hp, Nat.le_of_eq (by rw [heq])⟩
  · intro h t p q n r _ _ _ _ ht hp _ hle _
    have hsame := hstage t
    unfold Board.stage? at hsame
    rw [hp, Option.map_some, Option.map_eq_some_iff] at hsame
    obtain ⟨y, hy, heq⟩ := hsame
    exact ⟨(hhome _).trans ht, y, hy, heq ▸ hle⟩

/-! Going down. -/

variable {below : Stage}

/-- When no other deployment holds a firm need in force on the stage it leaves, a deployment can go
down by a stage without breaking the rank. -/
theorem Ranked.lowered (ranked : Ranked c rank) (sound : c.Sound) (crew : Crew β σ)
    (hp : c.board.get? p.root = some p) (hbelow : c.chain.prev? p.stage = some below)
    (hfree : ∀ {h : Handle} {q : Progress} {n : Need} {r : Stage}, h ≠ p.root →
      c.board.get? h = some q → n ∈ c.needs h → n.Firm c.chain →
      (Board.appliesFrom c.chain n).index ≤ q.stage.index → c.home? n.target = some p.root →
      c.chain.resolve? n.atLeast = some r → r.index ≤ below.index) :
    Ranked (c.lowered crew p below) rank := by
  have hlowers : Lowers [] c (c.lowered crew p below) :=
    sound.lowers_lowered crew List.not_mem_nil hp hbelow
  have hindex := Chain.index_of_prev? hbelow
  refine ranked.mono rfl (fun {h q} hq ↦ ?_) (fun {h _} _ ↦ hlowers.needs_subset) ?_
  · obtain ⟨x, hx, _⟩ := hlowers.alike.get? hq
    obtain ⟨s, hs, hle, _⟩ := hlowers.stage hx
    obtain rfl := Option.some_inj.1 (hq.symm.trans hs)
    exact ⟨x, hx, hle⟩
  · intro h t x y n r hy hn hfirm hforce hhome hx hr hle hrank
    refine ⟨(home?_congr hlowers.alike.shape _).trans hhome, ?_⟩
    rw [get?_lowered crew hp]
    by_cases ht : t = p.root
    · subst ht
      obtain rfl := Option.some_inj.1 (hp.symm.trans hx)
      refine ⟨_, if_pos rfl, ?_⟩
      rw [get?_lowered crew hp] at hy
      by_cases hh : h = p.root
      · -- a need of the deployment on itself was met by an earlier entry than it applies from
        subst hh
        rw [if_pos rfl] at hy
        obtain rfl := Option.some_inj.1 hy
        simp only at hforce ⊢
        by_contra hlt
        have hgrows := ranked.grows_le hp (i := (Board.appliesFrom c.chain n).index) (j := r.index)
          (by omega) hle
        omega
      · rw [if_neg hh] at hy
        exact hfree hh hy hn hfirm hforce hhome hr
    · exact ⟨x, by rw [if_neg ht, hx], hle⟩

/-- Only a firm need has anybody recalled. -/
theorem firm_of_pullBack? {forest : Forest β} {chain : Chain} {stage goal : Stage}
    (hbelow : chain.contains below = true)
    (hpull : Board.pullBack? chain forest root below stage n = some goal) : n.Firm chain := by
  obtain ⟨_, r, _, _, hr, hnot, _, hprev⟩ := pullBack?_eq_some_iff.1 hpull
  have hindex := Chain.index_of_prev? hprev
  refine ⟨by omega, fun s hs ↦ ?_⟩
  obtain rfl := Option.some_inj.1 (hr.symm.trans hs)
  rw [Chain.le_iff_index (Chain.contains_of_resolve? hr) hbelow] at hnot
  omega

/-- Whoever is recalled holds a need that was met when the stage that is left was entered. -/
theorem Ranked.recalled (ranked : Ranked c rank) (hp : c.board.get? p.root = some p)
    (hbelow : c.chain.prev? p.stage = some below) {dependent : Handle} {goal : Stage}
    (htarget : (dependent, goal) ∈ c.recalled p.root below) :
    rank p.root p.stage.index < rank dependent (goal.index + 1) := by
  obtain ⟨q, n, hq, hn, hpull⟩ := exists_need_of_recalled htarget
  obtain ⟨u, r, hu, htop, hr, hnot, hforce, hprev⟩ := pullBack?_eq_some_iff.1 hpull
  have hindex := Chain.index_of_prev? hprev
  have hle : (Board.appliesFrom c.chain n).index ≤ q.stage.index :=
    Nat.le_of_not_lt fun hlt ↦ hforce (Stage.lt_of_index_lt hlt)
  obtain ⟨t, x, r', hhome, hx, hr', hrx, hrank⟩ :=
    ranked.met hq n hn (firm_of_pullBack? (Chain.contains_of_prev? hbelow) hpull) hle
  obtain rfl := Option.some_inj.1 (hr.symm.trans hr')
  have ht : t = p.root := by
    unfold home? at hhome
    rw [hu, Option.map_some, htop, Option.some_inj] at hhome
    exact hhome.symm
  subst ht
  obtain rfl := Option.some_inj.1 (hp.symm.trans hx)
  rw [Chain.le_iff_index (Chain.contains_of_resolve? hr) (Chain.contains_of_prev? hbelow)] at hnot
  have hstep := Chain.index_of_prev? hbelow
  have heq : r.index = p.stage.index := by omega
  rw [hindex, ← heq]
  exact hrank

/-- No stage of a list is below the lowest. -/
theorem lowest?_le {stages : List Stage} {least s : Stage}
    (hleast : Board.lowest? stages = some least) (hs : s ∈ stages) : least.index ≤ s.index := by
  have hfold : ∀ (rest : List Stage) (first : Stage),
      (rest.foldl (fun least s ↦ if s < least then s else least) first).index ≤ first.index ∧
        ∀ t ∈ rest, (rest.foldl (fun least s ↦ if s < least then s else least) first).index ≤
          t.index := by
    intro rest
    induction rest with
    | nil => exact fun first ↦ ⟨Nat.le_refl _, by simp⟩
    | cons t rest ih =>
      intro first
      rw [List.foldl_cons]
      by_cases hlt : t < first
      · rw [if_pos hlt]
        have hle : t.index ≤ first.index := by
          rcases hlt with hlt | ⟨heq, _⟩
          · exact Nat.le_of_lt hlt
          · exact Nat.le_of_eq heq
        refine ⟨Nat.le_trans (ih t).1 hle, fun x hx ↦ ?_⟩
        rcases List.mem_cons.1 hx with rfl | hx
        · exact (ih x).1
        · exact (ih t).2 x hx
      · rw [if_neg hlt]
        refine ⟨(ih first).1, fun x hx ↦ ?_⟩
        rcases List.mem_cons.1 hx with rfl | hx
        · exact Nat.le_trans (ih first).1 (Stage.index_le_of_le hlt)
        · exact (ih first).2 x hx
  cases stages with
  | nil => exact absurd hs List.not_mem_nil
  | cons first rest =>
    rw [Board.lowest?, Option.some_inj] at hleast
    rw [← hleast]
    rcases List.mem_cons.1 hs with rfl | hs
    · exact (hfold rest s).1
    · exact (hfold rest first).2 s hs

/-- A need that sends a deployment down has it recalled, at least as far. -/
theorem exists_recalled (sound : c.Sound) {goal : Stage} (hne : h ≠ root)
    (hq : c.board.get? h = some q) (hn : n ∈ c.needs h)
    (hpull : Board.pullBack? c.chain c.forest root below q.stage n = some goal) :
    ∃ least, (h, least) ∈ c.recalled root below ∧ least.index ≤ goal.index := by
  have hmem : goal ∈ (c.forest.treeNeeds h).filterMap
      (Board.pullBack? c.chain c.forest root below q.stage) :=
    List.mem_filterMap.2 ⟨n, hn, hpull⟩
  obtain ⟨least, hleast⟩ : ∃ least, Board.lowest? ((c.forest.treeNeeds h).filterMap
      (Board.pullBack? c.chain c.forest root below q.stage)) = some least := by
    cases hstages : (c.forest.treeNeeds h).filterMap
        (Board.pullBack? c.chain c.forest root below q.stage) with
    | nil =>
      rw [hstages] at hmem
      exact absurd hmem List.not_mem_nil
    | cons s rest => exact ⟨_, rfl⟩
  refine ⟨least, ?_, lowest?_le hleast hmem⟩
  unfold Controller.recalled Board.recalled
  refine List.mem_filterMap.2 ⟨h, List.mem_eraseDups.2 (sound.tracked.2 ⟨q, hq⟩), ?_⟩
  rw [if_neg hne, hq, Option.bind_some, hleast]
  rfl

/-- After a recall nobody else holds a firm need in force on the stage that is left: whoever did has
gone down, and whoever is on the path has entered its stage too early to hold one. -/
theorem Recalls.free {path : List Handle} {m : Controller β σ}
    (recalls : Recalls crew (p.root :: path) p.name (c.recalled p.root below) c m)
    (ranked : Ranked c rank) (sound : c.Sound)
    (hp : c.board.get? p.root = some p) (hbelow : c.chain.prev? p.stage = some below)
    (hpath : ∀ h ∈ path, ∀ q, c.board.get? h = some q →
      rank h q.stage.index < rank p.root p.stage.index)
    {r : Stage} (hne : h ≠ p.root) (hq : m.board.get? h = some q) (hn : n ∈ m.needs h)
    (hfirm : n.Firm m.chain) (hforce : (Board.appliesFrom m.chain n).index ≤ q.stage.index)
    (hhome : m.home? n.target = some p.root) (hr : m.chain.resolve? n.atLeast = some r) :
    r.index ≤ below.index := by
  obtain ⟨hm, hlowers⟩ := recalls.sound_lowers sound
  obtain ⟨x, hx, _⟩ := hlowers.alike.get? hq
  obtain ⟨s, hs, hle, _⟩ := hlowers.stage hx
  obtain rfl := Option.some_inj.1 (hq.symm.trans hs)
  rw [hlowers.alike.chain] at hfirm hforce hr
  rw [home?_congr hlowers.alike.shape] at hhome
  have hn := hlowers.needs_subset hn
  have hforce' := Nat.le_trans hforce hle
  by_contra hlt
  have hrbelow : ¬ r ≤ below := fun hle ↦ hlt (Stage.index_le_of_le hle)
  obtain ⟨goal, hgoal⟩ := Chain.exists_prev? (contains_appliesFrom c.chain n) hfirm.applies
  have hindex := Chain.index_of_prev? hgoal
  obtain ⟨u, hu, htop⟩ := Option.map_eq_some_iff.1 hhome
  have hpull : Board.pullBack? c.chain c.forest p.root below x.stage n = some goal := by
    refine pullBack?_eq_some_iff.2 ⟨u, r, hu, htop, hr, hrbelow, fun hforced ↦ ?_, hgoal⟩
    rw [Chain.lt_iff_index (sound.stage hx) (contains_appliesFrom c.chain n)] at hforced
    exact Nat.not_lt.2 hforce' hforced
  obtain ⟨least, hmem, hleast⟩ := exists_recalled sound hne hx hn hpull
  by_cases hh : h ∈ path
  · -- on the path: its rank is too low
    obtain ⟨t, y, r', hhome', hy, hr', hry, hrank⟩ := ranked.met hx n hn hfirm hforce'
    obtain rfl := Option.some_inj.1 (hr.symm.trans hr')
    have ht : p.root = t := by
      unfold home? at hhome'
      rw [hu, Option.map_some, Option.some_inj] at hhome'
      exact htop.symm.trans hhome'
    subst ht
    obtain rfl := Option.some_inj.1 (hp.symm.trans hy)
    have hstep := Chain.index_of_prev? hbelow
    have heq : r.index = p.stage.index := by omega
    rw [heq] at hrank
    have hgrows := ranked.grows_le hx hforce' (Nat.le_refl _)
    have hlow := hpath h hh x hx
    omega
  · have hreached := recalls.reached sound hmem (by simp [hne, hh]) hq
    simp only at hreached hforce
    omega

/-! Going up. -/

/-- A need is met by a deployment that is free of error. -/
theorem shortfall?_eq_none_iff :
    c.board.shortfall? c.chain c.forest n = none ↔
      ∃ t q r, c.home? n.target = some t ∧ c.board.get? t = some q ∧ q.error = none ∧
        c.chain.resolve? n.atLeast = some r ∧ r ≤ q.stage := by
  unfold Board.shortfall?
  rw [ofUnit?_eq]
  constructor
  · intro hnone
    cases hhome : c.home? n.target with
    | none => simp [hhome] at hnone
    | some t =>
      cases hq : c.board.get? t with
      | none => simp [hhome, hq] at hnone
      | some q =>
        simp only [hhome, hq, Option.bind_some] at hnone
        cases herror : q.error with
        | some failure => simp [herror] at hnone
        | none =>
          cases hr : c.chain.resolve? n.atLeast with
          | none => simp [herror, hr] at hnone
          | some r =>
            refine ⟨t, q, r, rfl, hq, herror, rfl, ?_⟩
            simpa [herror, hr] using hnone
  · rintro ⟨t, q, r, hhome, hq, herror, hr, hle⟩
    simp [hhome, hq, herror, hr, hle]

/-- Nothing is missing for a stage when every need for it is met. -/
theorem missing_eq_nil_iff {next : Stage} :
    c.board.missing c.chain c.forest h next = [] ↔
      ∀ n ∈ c.needs h, Board.appliesFrom c.chain n ≤ next →
        c.board.shortfall? c.chain c.forest n = none := by
  unfold Board.missing needs
  rw [List.filterMap_eq_nil_iff]
  refine forall_congr' fun n ↦ ?_
  rw [List.mem_filter, decide_eq_true_eq, and_imp]

/-- The rank after one more entry, which comes after all that were. -/
def ranking (rank : Handle → Nat → Nat) (top : Nat) (root : Handle) (index : Nat) (h : Handle)
    (i : Nat) : Nat :=
  if h = root ∧ i = index then top + 1 else rank h i

theorem ranking_self (rank : Handle → Nat → Nat) (top : Nat) (root : Handle) (index : Nat) :
    ranking rank top root index root index = top + 1 :=
  if_pos ⟨rfl, rfl⟩

theorem ranking_of_ne {top index i : Nat} (hne : h = root → i ≠ index) :
    ranking rank top root index h i = rank h i :=
  if_neg fun heq ↦ hne heq.1 heq.2

theorem ranking_le {top : Nat} (htop : ∀ h i, rank h i ≤ top) (root : Handle) (index : Nat)
    (h : Handle) (i : Nat) : ranking rank top root index h i ≤ top + 1 := by
  unfold ranking
  split
  · exact Nat.le_refl _
  · exact Nat.le_succ_of_le (htop h i)

/-- The deployment that is raised is at the next stage, and no other has moved. -/
theorem of_get?_raised {next : Stage} {applied : Nat} {site : Site β σ}
    (hp : c.board.get? p.root = some p)
    (hq : (c.raised p next applied site).board.get? h = some q) :
    h = p.root ∧ q.stage = next ∨ h ≠ p.root ∧ c.board.get? h = some q := by
  rw [get?_raised hp] at hq
  split at hq
  · next heq => exact Or.inl ⟨heq, Option.some_inj.1 hq ▸ rfl⟩
  · next hne => exact Or.inr ⟨hne, hq⟩

/-- Whatever met a need still does when a deployment is raised, and its entry keeps its rank. -/
theorem Sound.met_raised (sound : c.Sound) (hp : c.board.get? p.root = some p) {next : Stage}
    {applied : Nat} {site : Site β σ} (hnext : c.chain.next? p.stage = some next)
    (henter : c.site.enterStage crew p.root next = (.ok applied, site)) (top : Nat)
    {t : Handle} {x : Progress} {i : Nat} (hhome : c.home? name = some t)
    (hx : c.board.get? t = some x) (hi : i ≤ x.stage.index) :
    (c.raised p next applied site).home? name = some t ∧
      ranking rank top p.root next.index t i = rank t i ∧
      ∃ y, (c.raised p next applied site).board.get? t = some y ∧ i ≤ y.stage.index := by
  have hindex := Chain.index_of_next? hnext
  have hshape := (sound.shape_enterStage crew henter).1
  have hhome' : (c.raised p next applied site).home? name = c.home? name :=
    home?_congr hshape name
  refine ⟨hhome'.trans hhome, ranking_of_ne fun heq ↦ ?_, ?_⟩
  · subst heq
    obtain rfl := Option.some_inj.1 (hp.symm.trans hx)
    omega
  · rw [get?_raised hp]
    split
    · next heq =>
      subst heq
      obtain rfl := Option.some_inj.1 (hp.symm.trans hx)
      exact ⟨_, rfl, by simp only; omega⟩
    · exact ⟨x, hx, hi⟩

/-- A deployment that enters a stage ranks it above all that were entered before. -/
theorem Ranked.raised (ranked : Ranked c rank) (sound : c.Sound)
    (hp : c.board.get? p.root = some p) {next : Stage} {applied : Nat} {site : Site β σ}
    (hready : c.verdict p.root = .ready next)
    (henter : c.site.enterStage crew p.root next = (.ok applied, site))
    (timely : (c.raised p next applied site).Timely) :
    ∃ rank, Ranked (c.raised p next applied site) rank := by
  obtain ⟨_, _, hnext, hmissing⟩ := of_verdict_ready hp hready
  have hindex := Chain.index_of_next? hnext
  obtain ⟨top, htop⟩ := ranked.bound
  refine ⟨ranking rank top p.root next.index, ⟨top + 1, ranking_le htop _ _⟩, ?_, ?_⟩
  · intro h q hq i j hij hj
    rcases of_get?_raised hp hq with ⟨rfl, hstage⟩ | ⟨hne, hq⟩
    · rw [hstage] at hj
      rw [ranking_of_ne fun _ ↦ by omega]
      rcases Nat.lt_or_eq_of_le hj with hlt | rfl
      · rw [ranking_of_ne fun _ ↦ by omega]
        exact ranked.grows hp hij (by omega)
      · rw [ranking_self]
        exact Nat.lt_succ_of_le (htop _ _)
    · rw [ranking_of_ne fun heq ↦ absurd heq hne, ranking_of_ne fun heq ↦ absurd heq hne]
      exact ranked.grows hq hij hj
  · intro h q hq n hn hfirm hforce
    -- it is enough that the need was met before, by an entry of lower rank
    suffices hmet : ∃ t x r, c.home? n.target = some t ∧ c.board.get? t = some x ∧
        c.chain.resolve? n.atLeast = some r ∧ r.index ≤ x.stage.index ∧
        rank t r.index <
          ranking rank top p.root next.index h (Board.appliesFrom c.chain n).index by
      obtain ⟨t, x, r, hhome, hx, hr, hle, hlt⟩ := hmet
      obtain ⟨hhome', hrank, y, hy, hle'⟩ := sound.met_raised hp hnext henter top hhome hx hle
      exact ⟨t, y, r, hhome', hy, hr, hle', by rw [hrank]; exact hlt⟩
    change (Board.appliesFrom c.chain n).index ≤ q.stage.index at hforce
    rcases of_get?_raised hp hq with ⟨rfl, hstage⟩ | ⟨hne, hq'⟩
    · rw [hstage] at hforce
      -- what is declared on the way applies only later
      rcases sound.mem_needs_raised hp henter hp hn with hn | ⟨_, hdeclared⟩
      · by_cases heq : (Board.appliesFrom c.chain n).index = next.index
        · have hle := (Chain.le_iff_index (contains_appliesFrom c.chain n)
            (Chain.contains_of_next? hnext)).2 hforce
          obtain ⟨t, x, r, hhome, hx, _, hr, hle⟩ :=
            shortfall?_eq_none_iff.1 (missing_eq_nil_iff.1 hmissing n hn hle)
          rw [heq, ranking_self]
          exact ⟨t, x, r, hhome, hx, hr, Stage.index_le_of_le hle, Nat.lt_succ_of_le (htop _ _)⟩
        · rw [ranking_of_ne fun _ ↦ heq]
          exact ranked.met hp n hn hfirm (by omega)
      · have hlater := timely p.root q hq n hn next hdeclared
        exact absurd hforce (Nat.not_le.2 hlater)
    · rcases sound.mem_needs_raised hp henter hq' hn with hn | ⟨heq, _⟩
      · rw [ranking_of_ne fun heq ↦ absurd heq hne]
        exact ranked.met hq' n hn hfirm hforce
      · exact absurd heq hne

/-! Planting and taking out. -/

/-- A deployment that is planted has nothing in force yet. -/
theorem Ranked.settled (ranked : Ranked c rank) (sound : c.Sound) {b : Blueprint}
    {g : Forest β} (planted : Forest.Planted c.forest b root g) :
    Ranked (c.settled b root g) rank := by
  refine ⟨ranked.bound, fun {h q} hq {i j} hij hj ↦ ?_, fun {h q} hq n hn hfirm hforce ↦ ?_⟩
  · rcases of_get?_settled hq with ⟨_, rfl⟩ | ⟨_, hq⟩
    · exact absurd (Nat.lt_of_lt_of_le hij hj) (Nat.not_lt_zero _)
    · exact ranked.grows hq hij hj
  · rcases of_get?_settled hq with ⟨_, rfl⟩ | ⟨_, hq'⟩
    · exact absurd (Nat.lt_of_lt_of_le hfirm.applies hforce) (Nat.not_lt_zero _)
    · rw [sound.needs_settled planted hq'] at hn
      obtain ⟨t, x, r, hhome, hx, hr, hle, hlt⟩ := ranked.met hq' n hn hfirm hforce
      exact ⟨t, x, r, sound.home?_settled planted hhome, sound.get?_settled planted hx, hr, hle,
        hlt⟩

/-- A deployment that has come down to the floor holds nothing up. -/
theorem Ranked.discard (ranked : Ranked c rank) (sound : c.Sound)
    (hp : c.board.get? root = some p) (hfloor : p.stage.index = 0) :
    Ranked (c.discard root) rank := by
  refine ranked.mono (chain_discard hp) (fun {h q} hq ↦ ?_) (fun {h q} hq ↦ ?_) ?_
  · exact ⟨q, (of_get?_discard hp hq).2, Nat.le_refl _⟩
  · obtain ⟨hne, hq⟩ := of_get?_discard hp hq
    rw [sound.needs_discard hp hq hne]
    exact List.Subset.refl _
  · intro h t x q n r hq _ hfirm _ hhome hx hr hle _
    have hne : t ≠ root := fun heq ↦ by
      subst heq
      obtain rfl := Option.some_inj.1 (hp.symm.trans hx)
      have hasks := hfirm.asks r hr
      omega
    refine ⟨sound.home?_discard hp hhome hne, x, ?_, hle⟩
    rw [get?_board_discard hp, if_neg hne]
    exact hx

end Controller

end Rollout
