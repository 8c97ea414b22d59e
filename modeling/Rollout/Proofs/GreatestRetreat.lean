import Mathlib.Order.Bounds.Basic
import Rollout.Proofs.DependencySafety

/-!
What a retreat pass comes to. The deployments can stay at some places if none is above the stage it
has reached or the one it is asked for, and all needs that are in force at these places are met at
them. Nothing that goes down passes such places, whoever calls it down, and where a pass ends all
deployments can stay. So a pass takes everything down to the highest places at which it can stay,
and no other order of going down would take anything less far.
-/

set_option autoImplicit false
set_option relaxedAutoImplicit false

namespace Rollout

/-- How far up the chain a deployment is. One that is not tracked counts as being on the floor. -/
def Board.place (b : Board) (h : Handle) : Nat := (b.get? h).elim 0 fun p ↦ p.stage.index

namespace Controller

variable {β σ : Type} {crew : Crew β σ} {c d e : Controller β σ} {h : Handle} {p q : Progress}
  {n : Need} {below : Stage} {place : Handle → Nat} {rank : Handle → Nat → Nat}

theorem place_of_get? (hp : c.board.get? h = some p) : c.board.place h = p.stage.index := by
  rw [Board.place, hp]
  rfl

/-- The deployments could all be at the given places: none has to go up or stay above the stage it
is asked for, and every need that applies at its place is met at the place of its target. -/
structure Tenable (c : Controller β σ) (place : Handle → Nat) : Prop where
  stage : ∀ {h : Handle} {p : Progress}, c.board.get? h = some p → place h ≤ p.stage.index
  requested : ∀ {h : Handle} {p : Progress}, c.board.get? h = some p →
    place h ≤ p.requested.index
  untracked : ∀ {h : Handle}, c.board.get? h = none → place h = 0
  met : ∀ {h : Handle} {p : Progress}, c.board.get? h = some p → ∀ n ∈ c.needs h,
    (Board.appliesFrom c.chain n).index ≤ place h →
      ∃ t r, c.home? n.target = some t ∧ c.chain.resolve? n.atLeast = some r ∧ r.index ≤ place t

/-! Nothing goes down further than it has to. -/

/-- Places stay tenable when a deployment goes down by a stage, but not past its own. -/
theorem Tenable.lowered (tenable : c.Tenable place) (sound : c.Sound) (crew : Crew β σ)
    (hp : c.board.get? p.root = some p) (hbelow : c.chain.prev? p.stage = some below)
    (hplace : place p.root ≤ below.index) : (c.lowered crew p below).Tenable place := by
  have hlowers : Lowers [] c (c.lowered crew p below) :=
    sound.lowers_lowered crew List.not_mem_nil hp hbelow
  have hback : ∀ {h q}, (c.lowered crew p below).board.get? h = some q →
      ∃ x, c.board.get? h = some x ∧ q.requested = x.requested := fun {h q} hq ↦ by
    obtain ⟨x, hx, _⟩ := hlowers.alike.get? hq
    exact ⟨x, hx, (hlowers.moves.aims hx hq).1⟩
  refine ⟨fun {h q} hq ↦ ?_, fun {h q} hq ↦ ?_, fun {h} hnone ↦ ?_, fun {h q} hq n hn hforce ↦ ?_⟩
  · rw [get?_lowered crew hp] at hq
    split at hq
    · next heq =>
      rw [heq, ← Option.some_inj.1 hq]
      exact hplace
    · exact tenable.stage hq
  · obtain ⟨x, hx, heq⟩ := hback hq
    rw [heq]
    exact tenable.requested hx
  · refine tenable.untracked (Option.eq_none_iff_forall_ne_some.2 fun x hx ↦ ?_)
    obtain ⟨y, hy⟩ := hlowers.alike.tracked hx
    exact absurd hy (by simp [hnone])
  · obtain ⟨x, hx, _⟩ := hback hq
    obtain ⟨t, r, hhome, hr, hle⟩ := tenable.met hx n (hlowers.needs_subset hn) hforce
    exact ⟨t, r, (home?_congr hlowers.alike.shape _).trans hhome, hr, hle⟩

/-- Whoever is called down when a deployment leaves a stage need not stay above its goal: the need
that has it called down could not be met there. -/
theorem Tenable.recalled (tenable : c.Tenable place) {root : Handle}
    (hbelow : c.chain.contains below = true) (hplace : place root ≤ below.index)
    {target : Handle × Stage} (htarget : target ∈ c.recalled root below) :
    place target.1 ≤ target.2.index := by
  obtain ⟨q, n, hq, hn, hpull⟩ := exists_need_of_recalled htarget
  obtain ⟨u, r, hu, htop, hr, hnot, _, hprev⟩ := pullBack?_eq_some_iff.1 hpull
  have hindex := Chain.index_of_prev? hprev
  by_contra hlt
  obtain ⟨t, r', hhome, hr', hle⟩ := tenable.met hq n hn (by omega)
  obtain rfl := Option.some_inj.1 (hr.symm.trans hr')
  have ht : t = root := by
    rw [home?, hu, Option.map_some, htop, Option.some_inj] at hhome
    exact hhome.symm
  rw [Chain.le_iff_index (Chain.contains_of_resolve? hr) hbelow] at hnot
  rw [ht] at hle
  exact hnot (Nat.le_trans hle hplace)

theorem Recalls.tenable {path : List Handle} {name : String} {targets : List (Handle × Stage)}
    (recalls : Recalls crew path name targets c d) (tenable : c.Tenable place) (sound : c.Sound)
    (htargets : ∀ target ∈ targets, place target.1 ≤ target.2.index) : d.Tenable place := by
  induction recalls with
  | nil => exact tenable
  | pass _ _ ih =>
    exact ih tenable sound fun target htarget ↦ htargets target (List.mem_cons_of_mem _ htarget)
  | @down path name goal below targets q c m d hnew hq habove hbelow inner _ ihInner ihRest =>
    obtain ⟨hm, hlowers⟩ := inner.sound_lowers (sound.note _)
    obtain ⟨hqm, hbelow'⟩ := hlowers.head_kept hq hbelow
    have hindex := Chain.index_of_prev? hbelow
    have hgoal : place q.root ≤ goal.index := htargets _ List.mem_cons_self
    have hplace : place q.root ≤ below.index := by omega
    have hinner : m.Tenable place :=
      ihInner ⟨tenable.stage, tenable.requested, tenable.untracked, tenable.met⟩ (sound.note _)
        fun _ ↦ tenable.recalled (Chain.contains_of_prev? hbelow) hplace
    have hlowered := hm.lowers_lowered crew hnew hqm hbelow'
    exact ihRest (hinner.lowered hm crew hqm hbelow' hplace) (hm.of_alike hlowered.alike) htargets

theorem Drop.tenable (drop : Drop crew c d) (tenable : c.Tenable place) (sound : c.Sound) :
    d.Tenable place := by
  cases drop with
  | @intro m p below hp hlt hbelow recalls =>
    obtain ⟨hm, hlowers⟩ := recalls.sound_lowers sound
    obtain ⟨hpm, hbelow'⟩ := hlowers.head_kept hp hbelow
    have hindex := Chain.index_of_prev? hbelow
    rw [Chain.lt_iff_index (sound.requested hp) (sound.stage hp)] at hlt
    have hrequested := tenable.requested hp
    have hplace : place p.root ≤ below.index := by omega
    have hcalled := recalls.tenable tenable sound fun _ ↦
      tenable.recalled (Chain.contains_of_prev? hbelow) hplace
    exact hcalled.lowered hm crew hpm hbelow' hplace

theorem Drops.tenable (drops : Drops crew c d) (tenable : c.Tenable place) (sound : c.Sound) :
    d.Tenable place := by
  induction drops with
  | refl => exact tenable
  | tail first drop ih => exact drop.tenable ih (Turns.sound_moves (Drops.turns first) sound).1

/-! Everything goes down as far as it has to. -/

theorem Drops.ranked (drops : Drops crew c d) (ranked : Ranked c rank) (sound : c.Sound) :
    Ranked d rank := by
  induction drops with
  | refl => exact ranked
  | tail first drop ih =>
    have hsound := (Turns.sound_moves (Drops.turns first) sound).1
    cases drop with
    | intro hp _ hbelow recalls => exact (recalls.ranked_descend ih hsound hp hbelow).1

/-- Leaving a stage, a deployment keeps all needs but those that were declared for that stage. -/
theorem Sound.mem_needs_lowered (sound : c.Sound) (crew : Crew β σ)
    (hp : c.board.get? p.root = some p) (hq : c.board.get? h = some q) (hn : n ∈ c.needs h)
    (hkept : h = p.root → n.declaredAt ≠ some p.stage) :
    n ∈ (c.lowered crew p below).needs h := by
  have htreated := sound.treated_lowered crew p
  by_cases hh : h = p.root
  · subst hh
    obtain ⟨k, hk, u, hu, hn⟩ := mem_needs_iff.1 hn
    obtain ⟨v, hv, hleft⟩ := htreated.each hk hu
    refine mem_needs_iff.2 ⟨k, ?_, v, hv, ?_⟩
    · exact (htreated.shape.tree p.root) ▸ hk
    · rw [hleft.needs]
      exact Need.mem_forget.2 ⟨hn, hkept rfl⟩
  · have hunits := treeUnits_other sound hp hq hh (List.Subset.refl _) htreated
    unfold needs Forest.treeNeeds at hn ⊢
    rw [← hunits] at hn
    exact hn

/-- A deployment that goes down keeps every need, but for those that were declared for a stage above
the one where it ends. -/
theorem Drops.mem_needs (drops : Drops crew c d) (sound : c.Sound) (hn : n ∈ c.needs h)
    (hq : d.board.get? h = some q)
    (hdeclared : ∀ s, n.declaredAt = some s → s.index ≤ q.stage.index) : n ∈ d.needs h := by
  refine drops.preserves sound
    (fun e ↦ ∀ q, e.board.get? h = some q →
      (∀ s, n.declaredAt = some s → s.index ≤ q.stage.index) → n ∈ e.needs h)
    (fun _ _ _ ih ↦ ih) (fun {e p below} sound hp hbelow ih x hx hdeclared ↦ ?_)
    (fun _ _ _ ↦ hn) q hq hdeclared
  have hindex := Chain.index_of_prev? hbelow
  rw [get?_lowered crew hp] at hx
  split at hx
  · next hh =>
    subst hh
    have hle : ∀ s, n.declaredAt = some s → s.index ≤ below.index := by
      rw [← Option.some_inj.1 hx] at hdeclared
      exact hdeclared
    refine sound.mem_needs_lowered crew hp hp (ih p hp fun s hs ↦ ?_) fun _ hs ↦ ?_
    · exact Nat.le_trans (hle s hs) (by omega)
    · have hleft := hle _ hs
      omega
  · next hh => exact sound.mem_needs_lowered crew hp hx (ih x hx hdeclared) fun heq ↦ absurd heq hh

/-- Deployments that go down until none is above the stage it is asked for end at the highest places
that they can stay at. -/
theorem Drops.isGreatest (drops : Drops crew c d) (sound : c.Sound) (ranked : Ranked c rank)
    (proper : c.Proper) (low : ∀ h, d.Low h) :
    IsGreatest {place | c.Tenable place} d.board.place := by
  have hmoves := (Turns.sound_moves drops.turns sound).2
  constructor
  · refine ⟨fun {h p} hp ↦ ?_, fun {h p} hp ↦ ?_, fun {h} hnone ↦ ?_, fun {h p} hp n hn hforce ↦ ?_⟩
    · refine drops.preserves sound (fun e ↦ e.board.place h ≤ p.stage.index) (fun _ _ _ ih ↦ ih)
        (fun {e q below} _ hq hbelow ih ↦ ?_) (Nat.le_of_eq (place_of_get? hp))
      have hindex := Chain.index_of_prev? hbelow
      unfold Board.place at ih ⊢
      rw [get?_lowered crew hq]
      split
      · next hh =>
        rw [hh, hq] at ih
        simp only [Option.elim_some] at ih ⊢
        omega
      · exact ih
    · obtain ⟨q, hq, _, hrequested, _⟩ := hmoves.exists_get? hp
      rw [place_of_get? hq, ← hrequested]
      exact low h q hq
    · have hgone : d.board.get? h = none := Option.eq_none_iff_forall_ne_some.2 fun q hq ↦ by
        obtain ⟨p, hp, _⟩ := hmoves.get? hq
        exact absurd hp (by simp [hnone])
      rw [Board.place, hgone, Option.elim_none]
    · -- a need in force at the end was kept on the way down, and was met as long as it was kept
      obtain ⟨q, hq⟩ := hmoves.tracked hp
      have hproper := proper h p hp n hn
      rw [place_of_get? hq] at hforce
      have hkept : n ∈ d.needs h := drops.mem_needs sound hn hq fun s hs ↦
        Nat.le_trans (Nat.le_of_lt (hproper.later s hs)) hforce
      obtain ⟨t, x, r, hhome, hx, hr, hle, _⟩ := (drops.ranked ranked sound).met hq n hkept
        (hmoves.chain ▸ hproper.firm) (hmoves.chain ▸ hforce)
      rw [home?_congr hmoves.shape] at hhome
      rw [hmoves.chain] at hr
      exact ⟨t, r, hhome, hr, (place_of_get? hx).symm ▸ hle⟩
  · intro place tenable h
    have htenable := drops.tenable tenable sound
    cases hq : d.board.get? h with
    | none =>
      rw [htenable.untracked hq]
      exact Nat.zero_le _
    | some q =>
      rw [place_of_get? hq]
      exact htenable.stage hq

/-! The order of registration. -/

/-- The controller with its deployments in another order. -/
def reordered (order : List Handle) (c : Controller β σ) : Controller β σ :=
  { c with board := { c.board with order } }

theorem Sound.reordered (sound : c.Sound) {order : List Handle} (perm : order.Perm c.board.order) :
    (c.reordered order).Sound :=
  { sound with
    order := perm.nodup_iff.2 sound.order
    mem_order := perm.mem_iff.trans sound.mem_order
    tracked := perm.mem_iff.trans sound.tracked }

/-- Of what the deployments can stay at, their order is no part. -/
theorem tenable_reordered (c : Controller β σ) (order : List Handle) :
    {place | (c.reordered order).Tenable place} = {place | c.Tenable place} :=
  Set.ext fun _ ↦ ⟨fun ⟨hstage, hrequested, huntracked, hmet⟩ ↦
      ⟨hstage, hrequested, huntracked, hmet⟩,
    fun ⟨hstage, hrequested, huntracked, hmet⟩ ↦ ⟨hstage, hrequested, huntracked, hmet⟩⟩

/-- Deployments that are as far up on one board as on another are at the same stages. -/
theorem stage?_eq_of_place (hd : d.Sound) (he : e.Sound) (hchain : e.chain = d.chain)
    (htracked : (∃ p, d.board.get? h = some p) ↔ ∃ q, e.board.get? h = some q)
    (hplace : e.board.place h = d.board.place h) : e.board.stage? h = d.board.stage? h := by
  unfold Board.stage?
  cases hp : d.board.get? h with
  | none =>
    have hnone : e.board.get? h = none := Option.eq_none_iff_forall_ne_some.2 fun q hq ↦ by
      obtain ⟨p, hp'⟩ := htracked.2 ⟨q, hq⟩
      exact absurd hp' (by simp [hp])
    rw [hnone]
  | some p =>
    obtain ⟨q, hq⟩ := htracked.1 ⟨p, hp⟩
    rw [place_of_get? hp, place_of_get? hq] at hplace
    rw [hq, Option.map_some, Option.map_some, Option.some_inj]
    exact Chain.eq_of_index_eq (hchain ▸ he.stage hq) (hd.stage hp) hplace

/-- In whatever state a controller is, whoever has been asked for which stage: as long as needs are
declared as they ought to be, a retreat pass comes to the highest places at which the deployments
can stay, and to the same stages if they are in any other order. -/
theorem retreat_greatest (reachable : Reachable crew c) {x : Batch β σ}
    (steps : Steps crew c x.controller)
    (proper : ∀ entry ∈ x.controller.journal, ∀ n ∈ entry.needs, n.Proper x.controller.chain) :
    ∃ y : Batch β σ, Batch.retreatPass crew x = (y, none) ∧
      IsGreatest {place | x.controller.Tenable place} y.controller.board.place ∧
      ∀ (order : List Handle) (x' : Batch β σ), order.Perm x.controller.board.order →
        x'.controller = x.controller.reordered order →
          ∃ y' : Batch β σ, Batch.retreatPass crew x' = (y', none) ∧
            ∀ h, y'.controller.board.stage? h = y.controller.board.stage? h := by
  obtain ⟨_, _, _, b, hsteps, hsound, hboard, _, hjournal⟩ := reachable.invariant
  have hrun : Steps crew b x.controller := hsteps.trans steps
  have sound : x.controller.Sound := hrun.sound hsound
  obtain ⟨hbrought, rank, hranked, _⟩ := hrun.ranked hsound hboard
    (fun entry hentry ↦ by
      rw [hjournal] at hentry
      exact absurd hentry (by simp))
    fun entry hentry n hn ↦ (proper entry hentry n hn).later
  have hproper : x.controller.Proper := hbrought.proper proper
  obtain ⟨y, heq, hdrops, hlow, _⟩ := Batch.exists_retreatPass crew sound
  have hgreatest := hdrops.isGreatest sound hranked hproper hlow
  refine ⟨y, heq, hgreatest, fun order x' hperm hx' ↦ ?_⟩
  have sound' : x'.controller.Sound := hx' ▸ sound.reordered hperm
  have hranked' : Ranked x'.controller rank := hx' ▸ hranked.still rfl (fun _ ↦ rfl)
    (fun _ ↦ List.Subset.refl _) fun _ ↦ rfl
  have hproper' : x'.controller.Proper := hx' ▸ hproper
  obtain ⟨y', heq', hdrops', hlow', _⟩ := Batch.exists_retreatPass crew sound'
  have hgreatest' := hdrops'.isGreatest sound' hranked' hproper' hlow'
  rw [hx', tenable_reordered] at hgreatest'
  obtain ⟨hy, hmoves⟩ := Turns.sound_moves hdrops.turns sound
  obtain ⟨hy', hmoves'⟩ := Turns.sound_moves hdrops'.turns sound'
  refine ⟨y', heq', fun h ↦ stage?_eq_of_place hy hy' ?_ ?_ ?_⟩
  · rw [hmoves'.chain, hmoves.chain, hx']
    rfl
  · rw [← hy.tracked, ← hy'.tracked, hmoves.order, hmoves'.order, hx']
    exact hperm.mem_iff.symm
  · exact congrFun (hgreatest'.unique hgreatest) h

/-- A deployment that another one needs is asked for the floor, and the batch is about to start. -/
def toppled : Controller Unit Unit :=
  (parsing.serveAll idle (needed.take 1)).changing Stage.floor [0]

theorem retreat_greatest_toppled :
    (∀ entry ∈ toppled.journal, ∀ n ∈ entry.needs, n.Proper toppled.chain) ∧
      toppled.board.tracked.map (fun p ↦ (p.name, p.stage.index, p.requested.index)) =
        [("db", 1, 0), ("app", 1, 1)] ∧
      ∃ y : Batch Unit Unit, Batch.retreatPass idle (.start toppled) = (y, none) ∧
        IsGreatest {place | toppled.Tenable place} y.controller.board.place ∧
        ∀ (order : List Handle) (x' : Batch Unit Unit), order.Perm toppled.board.order →
          x'.controller = toppled.reordered order →
            ∃ y' : Batch Unit Unit, Batch.retreatPass idle x' = (y', none) ∧
              ∀ h, y'.controller.board.stage? h = y.controller.board.stage? h :=
  have hproper : ∀ entry ∈ toppled.journal, ∀ n ∈ entry.needs, n.Proper toppled.chain := by
    decide +kernel
  have hreachable := reachable_parsing idle (needed.take 1)
  have haims : (parsing.serveAll idle (needed.take 1)).aims Stage.floor ["db"] =
      .ok (Stage.floor, [0]) := by decide +kernel
  ⟨hproper, by decide +kernel, retreat_greatest (x := .start toppled) hreachable
    (hreachable.sound.steps_changing idle haims) hproper⟩

end Controller

end Rollout
