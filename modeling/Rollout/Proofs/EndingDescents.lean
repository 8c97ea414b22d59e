import Mathlib.Logic.Function.Iterate
import Rollout.Controller.Descent
import Rollout.Proofs.Requests

/-!
Descents end. Whatever the needs are, in circles or about nothing that is live, the stack of a
descent runs empty after finitely many steps and without a fault, though nothing bounds its depth: a
deployment sets out only while it is not among those that are going down, and each time it has set
out it ends up one stage lower.
-/

set_option autoImplicit false
set_option relaxedAutoImplicit false

namespace Rollout

open Controller

namespace Descent

variable {β σ : Type} {crew : Crew β σ} {r r' r'' : Descent β σ} {frames rest : List Frame}
  {active : Finset Handle} {b m d : Batch β σ} {fault : Option BoardFault} {p q : Progress}
  {below goal stage : Stage} {name : String} {root dependent : Handle}
  {targets : List (Handle × Stage)} {path : List Handle}

/-! Single steps. -/

theorem next_descend (hp : b.controller.board.get? p.root = some p)
    (hbelow : b.controller.chain.prev? p.stage = some below) :
    next crew ⟨.descend p.root :: rest, active, b, fault⟩ =
      ⟨.each p.name (b.controller.recalled p.root below) :: .leave p below :: rest,
        insert p.root active, b, fault⟩ := by
  simp only [next, hp, hbelow]

theorem next_descend_grounded (h : ∀ p, b.controller.board.get? root = some p →
    b.controller.chain.prev? p.stage = none) :
    next crew ⟨.descend root :: rest, active, b, fault⟩ = ⟨rest, active, b, fault⟩ := by
  cases hp : b.controller.board.get? root with
  | none => simp only [next, hp]
  | some p => simp only [next, hp, h p hp]

theorem next_again_low (h : ∀ q, b.controller.board.get? dependent = some q → q.stage ≤ goal) :
    next crew ⟨.again name dependent goal :: rest, active, b, fault⟩ =
      ⟨rest, active, b, fault⟩ := by
  cases hq : b.controller.board.get? dependent with
  | none => simp only [next, Batch.stage?, Board.stage?, hq, Option.map_none]
  | some q =>
    simp only [next, Batch.stage?, Board.stage?, hq, Option.map_some]
    rw [if_pos (h q hq)]

theorem next_again_high (hq : b.controller.board.get? q.root = some q) (h : ¬ q.stage ≤ goal) :
    next crew ⟨.again name q.root goal :: rest, active, b, fault⟩ =
      ⟨.descend q.root :: .look name q.root goal q.stage :: rest, active,
        b.note (.recalling name q.root goal), fault⟩ := by
  simp only [next, Batch.stage?, Board.stage?, hq, Option.map_some]
  rw [if_neg h]

theorem next_leave (hp : b.controller.board.get? p.root = some p)
    (hbelow : b.controller.chain.prev? p.stage = some below) :
    next crew ⟨.leave p below :: rest, active, b, fault⟩ =
      ⟨rest, active.erase p.root, b.left crew p below, fault⟩ := by
  simp only [next, Batch.leave_eq hp hbelow]

/-! Runs. -/

/-- One state of a descent comes of another in finitely many steps. -/
def Reaches (crew : Crew β σ) (r r' : Descent β σ) : Prop := ∃ n, (next crew)^[n] r = r'

theorem Reaches.refl (r : Descent β σ) : Reaches crew r r := ⟨0, rfl⟩

theorem Reaches.trans (first : Reaches crew r r') (second : Reaches crew r' r'') :
    Reaches crew r r'' := by
  obtain ⟨n, rfl⟩ := first
  obtain ⟨k, rfl⟩ := second
  exact ⟨k + n, Function.iterate_add_apply _ _ _ _⟩

theorem Reaches.head (hnext : next crew r = r') (later : Reaches crew r' r'') :
    Reaches crew r r'' := by
  obtain ⟨n, rfl⟩ := later
  exact ⟨n + 1, by rw [Function.iterate_succ_apply, hnext]⟩

/-- Steps are determined, so what is reached later is reached from the next state on. -/
theorem Reaches.tail (reaches : Reaches crew r r'') (hnext : next crew r = r') (hne : r ≠ r'') :
    Reaches crew r' r'' := by
  obtain ⟨n, hn⟩ := reaches
  cases n with
  | zero => exact absurd hn hne
  | succ n => exact ⟨n, by rw [← hn, Function.iterate_succ_apply, hnext]⟩

/-- The recursion does what `CallsDown` tells, whatever else there is to do, as long as the path
holds those that are going down. -/
theorem reaches_of_callsDown (calls : Batch.CallsDown crew path name targets b d)
    (onChain : b.controller.OnChain) (hactive : ∀ h, h ∈ active ↔ h ∈ path) :
    Reaches crew ⟨.each name targets :: rest, active, b, fault⟩ ⟨rest, active, d, fault⟩ := by
  induction calls generalizing active rest with
  | nil => exact .head rfl (.refl _)
  | @pass path name dependent goal targets b d hpass _ ih =>
    have hrest : Reaches crew ⟨.each name targets :: rest, active, b, fault⟩
        ⟨rest, active, d, fault⟩ := ih onChain hactive
    by_cases hmem : dependent ∈ active
    · exact .head (if_pos hmem) hrest
    · have hlow := hpass.resolve_left fun hpath ↦ hmem ((hactive _).2 hpath)
      exact .head (if_neg hmem) (.head (next_again_low hlow) hrest)
  | @down path name goal below targets q b m d hpath hq _ habove hbelow inner _ ihInner ihRest =>
    have hout : q.root ∉ active := fun hmem ↦ hpath ((hactive _).1 hmem)
    obtain ⟨hm, hsinks⟩ := inner.sinks onChain
    obtain ⟨hqm, hbelow'⟩ := hsinks.head_kept hq hbelow
    have hinner : ∀ after, Reaches crew
        ⟨.each q.name (b.controller.recalled q.root below) :: after, insert q.root active,
          b.note (.recalling name q.root goal), fault⟩
        ⟨after, insert q.root active, m, fault⟩ := fun after ↦
      ihInner onChain fun h ↦ by rw [Finset.mem_insert, List.mem_cons, hactive]
    have hleave : ∀ after, next crew ⟨.leave q below :: after, insert q.root active, m, fault⟩ =
        ⟨after, active, m.left crew q below, fault⟩ := fun after ↦ by
      rw [next_leave hqm hbelow', Finset.erase_insert hout]
    -- the loop goes on with this deployment, and it is there that the rest of the tale begins
    have hrest : Reaches crew
        ⟨.each name ((q.root, goal) :: targets) :: rest, active, m.left crew q below, fault⟩
        ⟨rest, active, d, fault⟩ := ihRest (hm.lowered crew hqm hbelow') hactive
    have hloop := hrest.tail (if_neg hout) fun heq ↦ by
      simpa using congrArg (fun r ↦ r.frames.length) heq
    have hlook := Batch.stage?_left_ne crew hqm hbelow'
    exact .head (if_neg hout) (.head (next_again_high hq habove) (.head (next_descend hq hbelow)
      ((hinner _).trans (.head (hleave _) (.head (if_neg hlook) hloop)))))

/-- So a deployment that goes down by a stage ends the descent that set out with it. -/
theorem reaches_done (onChain : b.controller.OnChain)
    (hp : b.controller.board.get? p.root = some p)
    (hbelow : b.controller.chain.prev? p.stage = some below)
    (calls : Batch.CallsDown crew [p.root] p.name (b.controller.recalled p.root below) b m) :
    Reaches crew (start p.root b) (done (m.left crew p below)) := by
  obtain ⟨hpm, hbelow'⟩ := (calls.sinks onChain).2.head_kept hp hbelow
  have hleave : next crew ⟨[.leave p below], insert p.root ∅, m, none⟩ =
      done (m.left crew p below) := by
    rw [next_leave hpm hbelow', Finset.erase_insert (Finset.notMem_empty _)]
    rfl
  exact .head (next_descend hp hbelow)
    ((reaches_of_callsDown calls onChain fun h ↦ by simp).trans (.head hleave (.refl _)))

/-- A deployment that is not tracked or on the floor has nowhere to go. -/
theorem prev?_eq_none (onChain : b.controller.OnChain)
    (hp : b.controller.board.get? root = some p) :
    b.controller.chain.prev? p.stage = none ↔ p.stage.isFloor = true := by
  unfold Stage.isFloor
  rw [beq_iff_eq]
  constructor
  · intro hnone
    by_contra hne
    obtain ⟨below, hbelow⟩ := Chain.exists_prev? (onChain hp) (Nat.pos_of_ne_zero hne)
    rw [hnone] at hbelow
    exact absurd hbelow (by simp)
  · intro hzero
    unfold Chain.prev?
    rw [hzero]

/-- The bounded recursion does nothing about a deployment that has nowhere to go. -/
theorem descend_grounded (h : ∀ p, b.controller.board.get? root = some p →
    b.controller.chain.prev? p.stage = none) : Batch.descend crew root b = (b, none) := by
  unfold Batch.descend Batch.descendOn
  cases hp : b.controller.board.get? root with
  | none => rfl
  | some p => simp only [h p hp]

/-- Every descent ends, whatever hangs on whatever, as long as every deployment is at a stage of the
chain: the recursion comes to its end without a fault and with nobody going down any more, and the
bounded one comes to the same. The deployment itself ends up one stage lower, or, if it is not
tracked or is on the floor, nothing happens at all. No deployment ends up higher than it was, or
beyond the chain, and all keep everything but their stage. -/
theorem descents_end (onChain : b.controller.OnChain) (crew : Crew β σ) (root : Handle) :
    ∃ b' : Batch β σ, Reaches crew (start root b) (done b') ∧
      Batch.descend crew root b = (b', none) ∧
      (∀ p, b.controller.board.get? root = some p → p.stage.isFloor = false →
        ∃ s, b'.controller.board.get? root = some { p with stage := s } ∧
          s.index + 1 = p.stage.index) ∧
      ((∀ p, b.controller.board.get? root = some p → p.stage.isFloor = true) → b' = b) ∧
      b'.controller.board.order = b.controller.board.order ∧
      ∀ h, (b.controller.board.get? h = none → b'.controller.board.get? h = none) ∧
        ∀ p, b.controller.board.get? h = some p →
          ∃ s, b'.controller.board.get? h = some { p with stage := s } ∧
            b.controller.chain.contains s = true ∧ s.index ≤ p.stage.index := by
  by_cases hground : ∀ p, b.controller.board.get? root = some p → p.stage.isFloor = true
  · have hnone : ∀ p, b.controller.board.get? root = some p →
        b.controller.chain.prev? p.stage = none := fun p hp ↦
      (prev?_eq_none onChain hp).2 (hground p hp)
    refine ⟨b, .head (next_descend_grounded hnone) (.refl _), descend_grounded hnone,
      fun p hp habove ↦ ?_, fun _ ↦ rfl, rfl,
      fun h ↦ ⟨id, fun p hp ↦ ⟨p.stage, hp, onChain hp, Nat.le_refl _⟩⟩⟩
    rw [hground p hp] at habove
    exact absurd habove (by simp)
  · push Not at hground
    obtain ⟨p, hp, habove⟩ := hground
    obtain rfl := Board.root_of_get? hp
    obtain ⟨below, hbelow⟩ : ∃ below, b.controller.chain.prev? p.stage = some below :=
      Option.ne_none_iff_exists'.1 fun hnone ↦ habove ((prev?_eq_none onChain hp).1 hnone)
    obtain ⟨m, hdescend, hcalls⟩ := Batch.exists_callsDown crew onChain hp hbelow
    obtain ⟨hm, hsinks⟩ := hcalls.sinks onChain
    obtain ⟨hpm, hbelow'⟩ := hsinks.head_kept hp hbelow
    have hall : Sinks [] b.controller (m.left crew p below).controller :=
      (hsinks.mono (List.nil_subset _)).trans
        (sinks_lowered crew List.not_mem_nil hpm hbelow')
    have hlast : (m.left crew p below).controller.OnChain := hm.lowered crew hpm hbelow'
    refine ⟨m.left crew p below, reaches_done onChain hp hbelow hcalls, hdescend,
      fun q hq _ ↦ ?_, fun hfloor ↦ absurd (hfloor p hp) habove, hall.order,
      fun h ↦ ⟨hall.untracked, fun q hq ↦ ?_⟩⟩
    · obtain rfl := Option.some_inj.1 (hp.symm.trans hq)
      exact ⟨below, Batch.get?_left crew below hpm, Chain.index_of_prev? hbelow⟩
    · obtain ⟨s, hs, hle, _⟩ := hall.stage hq
      have hcontains := hlast hs
      rw [hall.chain] at hcontains
      exact ⟨s, hs, hcontains, hle⟩

/-- Two deployments at the same stage that need each other for it. The first also needs itself, and
what is not live, and names stages that are not in the chain. -/
def circle : Batch Unit Unit :=
  let parse : Stage := ⟨"Parse", 1⟩
  let nowhere : Stage := ⟨"Nowhere", 40⟩
  let first : Forest Unit := Forest.empty.settle (Forest.empty.layout (.mk "egg" .none
    [⟨"hen", parse, parse⟩, ⟨"egg", parse, parse⟩, ⟨"fox", parse, parse⟩, ⟨"hen", nowhere, nowhere⟩]
    [] []))
  let both := first.settle (first.layout (.mk "hen" .none [⟨"egg", nowhere, parse⟩] [] []))
  Batch.start { parsing with
    site := ⟨both, parsing.site.ambient⟩
    board := ⟨[0, 1], [⟨0, "egg", parse, parse, none, [], false⟩,
      ⟨1, "hen", parse, Stage.floor, none, [], true⟩]⟩ }

theorem descents_end_circle :
    ∃ b' : Batch Unit Unit, Reaches idle (start 0 circle) (done b') ∧
      b'.controller.board.tracked.map (fun p ↦ (p.name, p.stage.index, p.requested.index)) =
        [("egg", 0, 1), ("hen", 0, 0)] := by
  have onChain : circle.controller.OnChain := fun {h p} hp ↦ by
    have hmem : p ∈ circle.controller.board.entries := List.mem_of_find?_eq_some hp
    have hall : ∀ q ∈ circle.controller.board.entries,
        circle.controller.chain.contains q.stage = true := by decide +kernel
    exact hall p hmem
  obtain ⟨b', hreaches, hdescend, _⟩ := descents_end onChain idle 0
  refine ⟨b', hreaches, ?_⟩
  obtain rfl := congrArg Prod.fst hdescend
  decide +kernel

end Descent

end Rollout
