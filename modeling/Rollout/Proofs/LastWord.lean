import Rollout.Proofs.Scoping

/-!
The client's last word. What is asked of a deployment is what the last change that named one of its
units since it was planted has asked for, and before any such change it is the stage that everything
is driven to. What batches do with it in between leaves no trace: they take down, pull back, fail
and run out of passes, and a bounce asks for other stages for a while, but only a change or a
removal has a lasting say.
-/

set_option autoImplicit false
set_option relaxedAutoImplicit false

namespace Rollout.Controller

variable {β σ : Type} {crew : Crew β σ} {c d e : Controller β σ} {h root : Handle}
  {p q : Progress} {stage target : Stage} {names : List String} {roots : List Handle}
  {es : List (Entry β)}

/-! What is said of a deployment. -/

/-- Whether a deployment was planted on a handle from one controller to another. -/
def plantedSince (c d : Controller β σ) (h : Handle) : Bool :=
  (d.journal.toList.drop c.journal.size).any (Entry.plants h)

/-- The stage that a request asks of the deployment on a handle: that of a change, if it is accepted
and names a unit of the tree. -/
def asks? (c : Controller β σ) (h : Handle) : Request β σ → Option Stage
  | .change stage _ names =>
    if (∀ name ∈ names, (c.unit? name).isSome = true) ∧
        ∃ name ∈ names, name ∈ c.forest.treeNames h then
      c.chain.resolve? stage
    else none
  | _ => none

/-- What is said of the deployment that is on a handle after a request. One that was planted
meanwhile is driven to the stage that all are driven to. -/
def said? (crew : Crew β σ) (c : Controller β σ) (h : Handle) (r : Request β σ) : Option Stage :=
  if plantedSince c (c.serve crew r).2 h then some c.target else c.asks? h r

/-- What was last said of the deployment that is on a handle after some requests. -/
def lastWord? (crew : Crew β σ) (h : Handle) :
    List (Request β σ) → Controller β σ → Option Stage
  | [], _ => none
  | r :: rs, c => (lastWord? crew h rs (c.serve crew r).2).or (c.said? crew h r)

theorem plantedSince_eq (hes : d.journal.toList = c.journal.toList ++ es) (h : Handle) :
    plantedSince c d h = es.any (Entry.plants h) := by
  unfold plantedSince
  rw [hes, ← Array.length_toList, List.drop_left]

theorem plantedSince_trans (first : Continues c d) (second : Continues d e) (h : Handle) :
    plantedSince c e h = (plantedSince c d h || plantedSince d e h) := by
  obtain ⟨es, hes⟩ := first
  obtain ⟨fs, hfs⟩ := second
  have hboth : e.journal.toList = c.journal.toList ++ (es ++ fs) := by
    rw [hfs, hes, List.append_assoc]
  rw [plantedSince_eq hes, plantedSince_eq hfs, plantedSince_eq hboth, List.any_append]

theorem Quiet.plantedSince (quiet : Quiet c d) (h : Handle) : plantedSince c d h = false := by
  obtain ⟨es, hes, hquiet⟩ := quiet
  rw [plantedSince_eq hes, List.any_eq_false]
  exact fun e he ↦ by simp [Entry.plants_of_isQuiet (hquiet e he) h]

/-! What becomes of what was asked. -/

/-- Whoever is on a handle and is not to be removed was planted meanwhile and is driven to where all
are driven to, or it was there before and what is asked of it is what was asked then. -/
def Carries (c d : Controller β σ) (h : Handle) : Prop :=
  ∀ q, d.board.get? h = some q → q.removing = false →
    plantedSince c d h = true ∧ q.requested = c.target ∨
      plantedSince c d h = false ∧
        ∃ p, c.board.get? h = some p ∧ p.removing = false ∧ q.requested = p.requested

/-- Whoever was on a handle and was not to be removed is there still. -/
def Stands (c d : Controller β σ) (h : Handle) : Prop :=
  ∀ p, c.board.get? h = some p → p.removing = false →
    plantedSince c d h = false ∧ ∃ q, d.board.get? h = some q ∧ q.removing = false

theorem Carries.trans (first : Carries c d h) (second : Carries d e h) (steps : Steps crew c d)
    (steps' : Steps crew d e) (sound : c.Sound) : Carries c e h := by
  have hd := steps.sound sound
  intro r hr hremoving
  rw [plantedSince_trans (steps.continues sound) (steps'.continues hd)]
  rcases second r hr hremoving with ⟨hplanted, hrequested⟩ | ⟨hkept, q, hq, hstays, hrequested⟩
  · exact Or.inl ⟨by rw [hplanted, Bool.or_true], hrequested.trans (steps.fixed sound).2⟩
  · rw [hkept, Bool.or_false, hrequested]
    exact first q hq hstays

theorem Stands.trans (first : Stands c d h) (second : Stands d e h) (steps : Steps crew c d)
    (steps' : Steps crew d e) (sound : c.Sound) : Stands c e h := by
  have hd := steps.sound sound
  intro p hp hremoving
  obtain ⟨hkept, q, hq, hstays⟩ := first p hp hremoving
  obtain ⟨hkept', hrest⟩ := second q hq hstays
  rw [plantedSince_trans (steps.continues sound) (steps'.continues hd), hkept, hkept']
  exact ⟨rfl, hrest⟩

/-- Where nothing is planted or taken out, it is enough to look at the board. -/
theorem Quiet.carries (quiet : Quiet c d) (hget : ∀ q, d.board.get? h = some q →
    q.removing = false →
      ∃ p, c.board.get? h = some p ∧ p.removing = false ∧ q.requested = p.requested) :
    Carries c d h :=
  fun q hq hremoving ↦ Or.inr ⟨quiet.plantedSince h, hget q hq hremoving⟩

theorem Quiet.carries_same (quiet : Quiet c d) (hget : d.board.get? h = c.board.get? h) :
    Carries c d h ∧ Stands c d h := by
  refine ⟨quiet.carries fun q hq hremoving ↦ ⟨q, hget ▸ hq, hremoving, rfl⟩,
    fun p hp hremoving ↦ ⟨quiet.plantedSince h, p, hget.trans hp, hremoving⟩⟩

theorem Turn.carries (turn : Turn crew c d) (sound : c.Sound) :
    Carries c d h ∧ Stands c d h := by
  have hquiet := turn.quiet sound
  have hmoves := turn.moves sound
  refine ⟨hquiet.carries fun q hq hremoving ↦ ?_, fun p hp hremoving ↦ ?_⟩
  · obtain ⟨p, hp, _⟩ := hmoves.get? hq
    obtain ⟨hrequested, hsame⟩ := hmoves.aims hp hq
    exact ⟨p, hp, hsame.symm.trans hremoving, hrequested⟩
  · obtain ⟨q, hq, _, _, hsame⟩ := hmoves.exists_get? hp
    exact ⟨hquiet.plantedSince h, q, hq, hsame.trans hremoving⟩

/-- A piece of the work of a batch takes out only what is to be removed, and plants only on handles
that are free. -/
theorem Work.carries (work : Work crew c d) (sound : c.Sound) :
    Carries c d h ∧ Stands c d h := by
  cases work with
  | turn turn => exact turn.carries sound
  | clear => exact Quiet.carries_same ⟨[], (List.append_nil _).symm, by simp⟩ rfl
  | @discard p hp hremoving _ =>
    have hkept : plantedSince c (c.discard p.root) h = false :=
      plantedSince_eq (journal_discard hp) h
    refine ⟨fun q hq hstays ↦ Or.inr ⟨hkept, q, (of_get?_discard hp hq).2, hstays, rfl⟩,
      fun q hq hstays ↦ ⟨hkept, q, ?_, hstays⟩⟩
    have hne : h ≠ p.root := fun heq ↦ by
      rw [heq, hp, Option.some_inj] at hq
      rw [hq, hstays] at hremoving
      exact absurd hremoving (by simp)
    rw [get?_board_discard hp, if_neg hne, hq]
  | @plant b root g hqueue hplant =>
    have hplanted := sound.forest.planted hplant
    have hsince : plantedSince c (c.settled b root g) h = (root == h) := by
      rw [plantedSince_eq journal_settled, List.any_cons, List.any_nil, Bool.or_false]
      rfl
    refine ⟨fun q hq _ ↦ ?_, fun p hp hstays ↦ ?_⟩
    · rw [hsince]
      rcases of_get?_settled hq with ⟨rfl, rfl⟩ | ⟨hne, hq⟩
      · exact Or.inl ⟨beq_self_eq_true h, rfl⟩
      · exact Or.inr ⟨beq_false_of_ne (Ne.symm hne), q, hq, by assumption, rfl⟩
    · have hne : root ≠ h := fun heq ↦ by
        rw [← heq, sound.vacant_of_planted hplanted] at hp
        exact absurd hp (by simp)
      rw [hsince]
      exact ⟨beq_false_of_ne hne, p, sound.get?_settled hplanted hp, hstays⟩

theorem Works.carries (works : Works crew c d) (sound : c.Sound) :
    Carries c d h ∧ Stands c d h := by
  induction works with
  | refl => exact (Quiet.refl c).carries_same rfl
  | @tail m d works work ih =>
    have hsteps := Works.steps works sound
    have hm := hsteps.sound sound
    obtain ⟨hcarries, hstands⟩ := work.carries (h := h) hm
    have hstep : Steps crew m d := .single (work.step hm)
    exact ⟨ih.1.trans hcarries hsteps hstep sound, ih.2.trans hstands hsteps hstep sound⟩

/-- No batch changes what is asked of a deployment. -/
theorem Sound.carries_process (sound : c.Sound) (crew : Crew β σ) (h : Handle) :
    Carries c (c.process crew).2 h ∧ Stands c (c.process crew).2 h := by
  obtain ⟨_, _, e, tally, heq, hparts⟩ := exists_parts crew sound
  obtain ⟨hcarries, hstands⟩ := hparts.works.carries (h := h) sound
  have hquiet : Quiet e (e.note (.completed tally)) := quiet_note e rfl
  obtain ⟨hcarries', hstands'⟩ := hquiet.carries_same (h := h) rfl
  have hsteps := hparts.steps sound
  have hremark : Steps crew e (e.note (.completed tally)) := .single (.remark rfl)
  rw [heq]
  exact ⟨hcarries.trans hcarries' hsteps hremark sound,
    hstands.trans hstands' hsteps hremark sound⟩

theorem Sound.carries_of_process (sound : c.Sound) (hprocess : c.process crew = (.ok (), d))
    (h : Handle) : Carries c d h ∧ Stands c d h := by
  have hboth := sound.carries_process crew h
  rwa [hprocess] at hboth

/-! Requests. -/

theorem Prepares.carries (prepares : Prepares crew c d) (h : Handle) : Carries c d h := by
  refine prepares.quiet.carries fun q hq hremoving ↦ ?_
  rcases prepares.get? hq with hp | hgoing
  · exact ⟨q, hp, hremoving, rfl⟩
  · rw [hremoving] at hgoing
    exact absurd hgoing (by simp)

theorem Routine.carries (routine : Routine crew c d) (sound : c.Sound) (h : Handle) :
    Carries c d h := by
  rcases routine with hprepares | ⟨m, hprepares, rfl⟩
  · exact hprepares.carries h
  · have hm := hprepares.steps.sound sound
    exact (hprepares.carries h).trans (hm.carries_process crew h).1 hprepares.steps
      (hm.steps_process crew) sound

/-- Nobody is gone because it is asked for something else. -/
theorem Reasks.stands {ps : List Progress} {f : Progress → Progress → Progress}
    (reasks : Reasks ps f c.board d.board) (quiet : Quiet c d)
    (hf : ∀ p q, (f p q).removing = q.removing) (h : Handle) : Stands c d h := by
  intro q hq hremoving
  refine ⟨quiet.plantedSince h, ?_⟩
  by_cases hh : h ∈ ps.map Progress.root
  · obtain ⟨p, hp, rfl⟩ := List.mem_map.1 hh
    exact ⟨f p q, by rw [reasks.each p hp, hq, Option.map_some], (hf p q).trans hremoving⟩
  · exact ⟨q, (reasks.other h hh).trans hq, hremoving⟩

/-- A bounce asks for other stages, but in the end for those that it found. -/
theorem Bounces.carries {ps : List Progress} {d₁ d₂ d₃ : Controller β σ}
    (bounces : Bounces crew target ps c d₁ d₂ d₃) (sound : c.Sound)
    (hnodup : (ps.map Progress.root).Nodup)
    (hps : ∀ p ∈ ps, c.board.get? p.root = some p ∧ p.removing = false) (h : Handle) :
    Carries c d₃ h := by
  have hsunk := bounces.sinks.sound sound
  have hfirst := hsunk.steps_of_process bounces.first
  have hrisen := (bounces.steps sound).1.sound sound
  have hsecond := hrisen.steps_of_process bounces.second
  have hreturned := (bounces.steps sound).2.sound hrisen
  have hthird := hreturned.steps_of_process bounces.third
  have hquiet : Quiet c (c.sinking target ps) := quiet_note c rfl
  have hquiet₁ : Quiet d₁ (d₁.rising ps) := ⟨[], (List.append_nil _).symm, by simp⟩
  have hquiet₂ : Quiet d₂ (d₂.returning ps) := ⟨[], (List.append_nil _).symm, by simp⟩
  have hreasks := reasks_sinking hnodup target c
  have hreasks₁ := reasks_rising hnodup d₁
  have hreasks₂ := reasks_returning hnodup d₂
  obtain ⟨hcarries, hstands⟩ := hsunk.carries_of_process bounces.first h
  obtain ⟨hcarries₁, hstands₁⟩ := hrisen.carries_of_process bounces.second h
  obtain ⟨hcarries₂, hstands₂⟩ := hreturned.carries_of_process bounces.third h
  have hrises : Steps crew d₁ (d₁.rising ps) := .single bounces.rises
  have hreturns : Steps crew d₂ (d₂.returning ps) := .single bounces.returns
  have hto₁ := bounces.sinks.trans hfirst
  have hto₂ := (hto₁.trans hrises).trans hsecond
  by_cases hh : h ∈ ps.map Progress.root
  · obtain ⟨p, hp, rfl⟩ := List.mem_map.1 hh
    obtain ⟨hget, hremoving⟩ := hps p hp
    have hsinks := hreasks.stands hquiet (fun _ _ ↦ rfl) p.root
    have hrise := hreasks₁.stands hquiet₁ (fun _ _ ↦ rfl) p.root
    have hreturn := hreasks₂.stands hquiet₂ (fun _ _ ↦ rfl) p.root
    have hdown := hsinks.trans hstands bounces.sinks hfirst sound
    have hup := (hdown.trans hrise hto₁ hrises sound).trans hstands₁ (hto₁.trans hrises) hsecond
      sound
    have hback := hup.trans hreturn hto₂ hreturns sound
    obtain ⟨_, r, hr, hstays⟩ := hback p hget hremoving
    obtain ⟨hkept, _⟩ := (hback.trans hstands₂ (hto₂.trans hreturns) hthird sound) p hget hremoving
    refine fun q hq hgoing ↦ Or.inr ⟨hkept, p, hget, hremoving, ?_⟩
    rcases hcarries₂ q hq hgoing with ⟨hplanted, _⟩ | ⟨_, r', hr', _, hrequested⟩
    · rw [(hstands₂ r hr hstays).1] at hplanted
      exact absurd hplanted (by simp)
    · rw [hreasks₂.each p hp, Option.map_eq_some_iff] at hr'
      obtain ⟨_, _, rfl⟩ := hr'
      exact hrequested
  · have hsinks := (hquiet.carries_same (hreasks.other h hh)).1
    have hrise := (hquiet₁.carries_same (hreasks₁.other h hh)).1
    have hreturn := (hquiet₂.carries_same (hreasks₂.other h hh)).1
    have hdown := hsinks.trans hcarries bounces.sinks hfirst sound
    have hup := (hdown.trans hrise hto₁ hrises sound).trans hcarries₁ (hto₁.trans hrises) hsecond
      sound
    exact (hup.trans hreturn hto₂ hreturns sound).trans hcarries₂ (hto₂.trans hreturns) hthird sound

/-! What a request says. -/

/-- A unit of a tracked tree leads to its top. -/
theorem Sound.mem_treeNames_iff (sound : c.Sound) (hp : c.board.get? h = some p) {name : String} :
    name ∈ c.forest.treeNames h ↔ c.home? name = some h := by
  rw [sound.home?_eq_some_iff]
  constructor
  · intro hname
    obtain ⟨u, hu, rfl⟩ := List.mem_map.1 hname
    obtain ⟨k, hk, hku⟩ := List.mem_filterMap.1 hu
    obtain ⟨n, hn, htop⟩ := (sound.mem_tree_iff hp).1 hk
    obtain rfl := Option.some_inj.1 ((Forest.node?_of_get? hku).symm.trans hn)
    exact ⟨k, u, hku, rfl, htop⟩
  · rintro ⟨k, u, hu, rfl, htop⟩
    have hk := (sound.mem_tree_iff hp).2 ⟨_, Forest.node?_of_get? hu, htop⟩
    exact List.mem_map_of_mem (List.mem_filterMap.2 ⟨k, hk, hu⟩)

theorem live_of_rootsFrom {found : List Handle} (hroots : c.rootsFrom found names = .ok roots) :
    ∀ name ∈ names, (c.unit? name).isSome = true := by
  induction names generalizing found with
  | nil => simp
  | cons name names ih =>
    unfold rootsFrom at hroots
    split at hroots
    · exact absurd hroots (by simp)
    · next u hu =>
      intro other hother
      rcases List.mem_cons.1 hother with rfl | hother
      · rw [hu]
        rfl
      · exact ih hroots other hother

/-- A change that is accepted asks for its stage of the deployments that it names. -/
theorem Sound.asks?_of_aims (sound : c.Sound) (haims : c.aims stage names = .ok (target, roots))
    (strict : Bool) (hp : c.board.get? h = some p) :
    c.asks? h (.change stage strict names) = if h ∈ roots then some target else none := by
  have hnamed : h ∈ roots ↔ ∃ name ∈ names, name ∈ c.forest.treeNames h := by
    rw [mem_aims_iff haims]
    simp only [sound.mem_treeNames_iff hp]
  obtain ⟨htarget, hroots⟩ := aims_eq_ok_iff.1 haims
  unfold asks?
  simp only [htarget]
  exact if_congr ((and_iff_right (live_of_rootsFrom hroots)).trans hnamed.symm) rfl rfl

/-- A change that is refused asks for nothing. -/
theorem asks?_of_refused {error : Error} (haims : c.aims stage names = .error error)
    (strict : Bool) (h : Handle) : c.asks? h (.change stage strict names) = none := by
  unfold asks?
  simp only
  split
  · next hnamed =>
    unfold aims at haims
    split at haims
    · assumption
    · cases hroots : c.roots names with
      | ok found =>
        rw [hroots] at haims
        exact absurd haims (by simp [Except.map])
      | error error' =>
        obtain ⟨name, hname, hnone, _⟩ := of_rootsFrom_error hroots
        have hlive := hnamed.1 name hname
        rw [hnone] at hlive
        exact absurd hlive (by simp)
  · rfl

/-- What is asked of a deployment after a request is what the request says of it, or, if it says
nothing, what was asked before. -/
def Heeds (crew : Crew β σ) (c : Controller β σ) (h : Handle) (r : Request β σ) : Prop :=
  ∀ q, (c.serve crew r).2.board.get? h = some q → q.removing = false →
    c.said? crew h r = some q.requested ∨
      c.said? crew h r = none ∧
        ∃ p, c.board.get? h = some p ∧ p.removing = false ∧ q.requested = p.requested

theorem Carries.heeds {r : Request β σ} (carries : Carries c (c.serve crew r).2 h)
    (hnone : c.asks? h r = none) : Heeds crew c h r := by
  intro q hq hremoving
  unfold said?
  rcases carries q hq hremoving with ⟨hplanted, hrequested⟩ | ⟨hkept, hrest⟩
  · rw [if_pos hplanted, hrequested]
    exact Or.inl rfl
  · rw [if_neg (by simp [hkept]), hnone]
    exact Or.inr ⟨rfl, hrest⟩

theorem Sound.heeds_change (sound : c.Sound) (crew : Crew β σ) (stage : Stage) (strict : Bool)
    (names : List String) (h : Handle) : Heeds crew c h (.change stage strict names) := by
  cases haims : c.aims stage names with
  | error error =>
    have hsame : (c.serve crew (.change stage strict names)).2 = c := by
      show (c.change crew stage strict names).2 = c
      unfold change
      rw [haims]
    refine Carries.heeds ?_ (asks?_of_refused haims strict h)
    rw [hsame]
    exact ((Quiet.refl c).carries_same rfl).1
  | ok aim =>
    obtain ⟨target, roots⟩ := aim
    have hsteps := sound.steps_changing crew haims
    have hm := Steps.sound hsteps sound
    have hquiet : Quiet c (c.changing target roots) := quiet_note c rfl
    have hget : (c.changing target roots).board.get? h =
        if h ∈ roots then (c.board.get? h).map (asked target) else c.board.get? h :=
      get?_requestEach (of_aims haims).2
    have hserve : (c.serve crew (.change stage strict names)).2 =
        ((c.changing target roots).process crew).2 := by
      show (c.change crew stage strict names).2 = _
      rw [sound.change_eq crew haims strict]
    have hsince : plantedSince c (c.serve crew (.change stage strict names)).2 h =
        plantedSince (c.changing target roots) ((c.changing target roots).process crew).2 h := by
      rw [hserve, plantedSince_trans hquiet.continues
        (Steps.continues (hm.steps_process crew) hm), hquiet.plantedSince, Bool.false_or]
    intro q hq hremoving
    rw [hserve] at hq
    unfold said?
    rw [hsince]
    rcases (hm.carries_process crew h).1 q hq hremoving with
      ⟨hplanted, hrequested⟩ | ⟨hkept, r, hr, hstays, hrequested⟩
    · rw [if_pos hplanted, hrequested, (hsteps.fixed sound).2]
      exact Or.inl rfl
    · rw [hget] at hr
      rw [if_neg (by simp [hkept])]
      split at hr
      · next hh =>
        -- this change has named it
        obtain ⟨p, hp, rfl⟩ := Option.map_eq_some_iff.1 hr
        change p.removing = false at hstays
        rw [sound.asks?_of_aims haims strict hp, if_pos hh, hrequested]
        rw [asked_of_staying hstays]
        exact Or.inl rfl
      · next hh =>
        rw [sound.asks?_of_aims haims strict hr, if_neg hh]
        exact Or.inr ⟨rfl, r, hr, hstays, hrequested⟩

theorem Sound.carries_bounce (sound : c.Sound) (crew : Crew β σ) (waits : c.Waits) (tidy : c.Tidy)
    (stage : Stage) (strict : Bool) (names : List String) (h : Handle) :
    Carries c (c.bounce crew stage strict names).2 h := by
  cases haims : c.aims stage names with
  | error error =>
    unfold bounce
    rw [haims]
    exact ((Quiet.refl c).carries_same rfl).1
  | ok aim =>
    obtain ⟨target, roots⟩ := aim
    obtain ⟨htarget, hnodup⟩ := of_aims haims
    obtain ⟨d₁, d₂, d₃, hbounces, rfl⟩ := exists_bounce crew sound waits tidy strict haims
    refine hbounces.carries sound (nodup_bounced hnodup) (fun p hp ↦ ?_) h
    obtain ⟨hget, hremoving, _⟩ := sound.of_mem_bounced htarget hp
    exact ⟨hget, hremoving⟩

/-- Only a change that is accepted and names the deployment has a say. -/
theorem Sound.heeds_serve (sound : c.Sound) (crew : Crew β σ) (waits : c.Waits) (tidy : c.Tidy)
    (r : Request β σ) (h : Handle) : Heeds crew c h r := by
  cases r with
  | change stage strict names => exact sound.heeds_change crew stage strict names h
  | bounce stage strict names =>
    have hcarries : Carries c (c.serve crew (.bounce stage strict names)).2 h :=
      sound.carries_bounce crew waits tidy stage strict names h
    exact hcarries.heeds rfl
  | _ => exact ((sound.routine_serve crew (by simp) (by simp)).carries sound h).heeds rfl

/-- After some requests each deployment is asked for what was last said of it, or, if nothing was,
for what it was asked for before them. -/
theorem Sound.heeds_serveAll (sound : c.Sound) (crew : Crew β σ) (waits : c.Waits) (tidy : c.Tidy)
    (requests : List (Request β σ)) (hq : (c.serveAll crew requests).board.get? h = some q)
    (hremoving : q.removing = false) :
    lastWord? crew h requests c = some q.requested ∨
      lastWord? crew h requests c = none ∧
        ∃ p, c.board.get? h = some p ∧ p.removing = false ∧ q.requested = p.requested := by
  induction requests generalizing c with
  | nil => exact Or.inr ⟨rfl, q, hq, hremoving, rfl⟩
  | cons r requests ih =>
    obtain ⟨hsteps, htidy⟩ := sound.steps_serve crew waits tidy r
    unfold lastWord?
    rcases ih (Steps.sound hsteps sound) (Steps.waits hsteps sound waits) htidy hq with
      hlast | ⟨hnone, p, hp, hstays, hrequested⟩
    · rw [hlast, Option.some_or]
      exact Or.inl rfl
    · rw [hnone, Option.none_or, hrequested]
      exact sound.heeds_serve crew waits tidy r h p hp hstays

/-- Whatever deployers do and whatever clients ask for, the stage that is asked of a tracked
deployment is the floor if it is to be removed, and else what was last said of it. -/
theorem requested_lastWord {config : Config} {sink : Sink} {chain : Chain} {state : σ}
    (hbuild : build config sink (Roster.vacant chain) state = .ok c)
    (requests : List (Request β σ)) :
    ∀ p ∈ (c.serveAll crew requests).board.tracked,
      some p.requested = if p.removing then some Stage.floor
        else lastWord? crew p.root requests c := by
  intro p hp
  have hstart : Reachable crew c := .build hbuild
  have hreachable := hstart.serveAll requests
  obtain ⟨sound, waits, tidy, _⟩ := hstart.invariant
  obtain ⟨_, hboard, _⟩ := of_build hbuild
  have hget := (mem_tracked_iff hreachable.sound).1 hp
  cases hremoving : p.removing with
  | true => rw [if_pos rfl, hreachable.sound.removing hget hremoving]
  | false =>
    rw [if_neg (by simp)]
    rcases sound.heeds_serveAll crew waits tidy requests hget hremoving with
      hlast | ⟨_, q, hq, _⟩
    · exact hlast.symm
    · rw [hboard] at hq
      exact absurd hq (by simp [Board.empty, Board.get?])

/-- Deployments of which one is changed, bounced and deployed again, one is changed through a unit
below it and one is to be removed. -/
def disputed : List (Request Unit Unit) :=
  [.deployAll [.mk "app" .none [] [] [.mk "plugin" .none [] [] []], .mk "db" .none [] [] [],
      .mk "net" .none [] [] []],
    .change ⟨"Describe", 4⟩ false ["plugin", "db"], .bounce Stage.floor false ["app", "db"],
    .deploy (.mk "db" .none [] [] []), .remove "net"]

theorem requested_lastWord_disputed :
    build parsing.config .silent (Roster.vacant Chain.standard) () = .ok parsing ∧
      (∀ p ∈ (parsing.serveAll idle disputed).board.tracked,
        some p.requested = if p.removing then some Stage.floor
          else lastWord? idle p.root disputed parsing) ∧
      (parsing.serveAll idle disputed).board.tracked.map (fun p ↦ (p.name, p.requested)) =
        [("app", ⟨"Describe", 4⟩), ("net", Stage.floor), ("db", ⟨"Parse", 1⟩)] := by
  have hbuild : build parsing.config .silent (Roster.vacant Chain.standard) () = .ok parsing := rfl
  exact ⟨hbuild, requested_lastWord hbuild disputed, by decide +kernel⟩

end Rollout.Controller
