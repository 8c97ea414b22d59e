import Rollout.Proofs.Requests

/-!
Rest. A batch that has not used up its passes ends with every deployment at rest: none has a step up
to take, and what each is missing for its next one is written down. This stays so until something is
scheduled for removal, or the next batch is run.
-/

set_option autoImplicit false
set_option relaxedAutoImplicit false

namespace Rollout

variable {β σ : Type}

namespace Entry

/-- Whether an entry tells that the passes of a batch were used up. -/
def isPassLimit : Entry β → Bool
  | passLimit .. => true
  | _ => false

/-- Whether an entry tells that a batch is over. -/
def isCompleted : Entry β → Bool
  | completed .. => true
  | _ => false

theorem isCompleted_of_ofBatch {e : Entry β} (hbatch : e.ofBatch = false) :
    e.isCompleted = false := by
  cases e <;> first | rfl | exact absurd hbatch (by simp [ofBatch])

end Entry

/-- What a journal tells of the last batch that is over, latest first: all from the end of that
batch back to the end of the one before. -/
def lastBatch (es : List (Entry β)) : List (Entry β) :=
  (es.reverse.dropWhile fun e ↦ !e.isCompleted).tail.takeWhile fun e ↦ !e.isCompleted

theorem lastBatch_append {es fs : List (Entry β)} (h : ∀ e ∈ fs, e.isCompleted = false) :
    lastBatch (es ++ fs) = lastBatch es := by
  unfold lastBatch
  rw [List.reverse_append, List.dropWhile_append_of_pos]
  intro e he
  rw [h e (List.mem_reverse.1 he)]
  rfl

/-- What is entered last before a batch is over belongs to it. -/
theorem mem_lastBatch (es : List (Entry β)) {e f : Entry β} (he : e.isCompleted = false)
    (hf : f.isCompleted = true) : e ∈ lastBatch (es ++ [e] ++ [f]) := by
  unfold lastBatch
  rw [List.reverse_concat, List.reverse_concat, List.dropWhile_cons_of_neg (by simp [hf]),
    List.tail_cons, List.takeWhile_cons_of_pos (by simp [he])]
  exact List.mem_cons_self

namespace Controller

variable {crew : Crew β σ} {c d : Controller β σ} {h : Handle} {p q : Progress}

/-- Nothing that is tracked is to be removed. -/
def Stays (c : Controller β σ) : Prop :=
  ∀ h p, c.board.get? h = some p → p.removing = false

/-- The last batch that is over has not used up its passes. -/
def Ended (c : Controller β σ) : Prop :=
  ∀ entry ∈ lastBatch c.journal.toList, entry.isPassLimit = false

/-- A batch that has been prepared leaves everything as it was, but for what is to be removed. -/
theorem Prepares.get?_eq (prepares : Prepares crew c d) (sound : c.Sound) (stays : d.Stays)
    (h : Handle) : d.board.get? h = c.board.get? h := by
  cases hq : d.board.get? h with
  | some q =>
    rcases prepares.get? hq with hp | hgoing
    · exact hp.symm
    · rw [stays h q hq] at hgoing
      exact absurd hgoing (by simp)
  | none =>
    cases hp : c.board.get? h with
    | none => rfl
    | some p =>
      have hd := Steps.sound prepares.steps sound
      obtain ⟨t, ht, hkind⟩ := sound.exists_top hp
      rw [← prepares.forest] at ht
      obtain ⟨q, hq'⟩ := hd.tracked.1 (hd.mem_order.2 ⟨t, ht, hkind⟩)
      rw [hq] at hq'
      exact absurd hq' (by simp)

theorem Prepares.resembles (prepares : Prepares crew c d) (sound : c.Sound) (stays : d.Stays) :
    Resembles c d := by
  refine ⟨prepares.chain, fun h ↦ ?_, fun name ↦ ?_, fun h ↦ ?_⟩
  · unfold needs
    rw [prepares.forest]
  · unfold home?
    rw [prepares.forest]
  · rw [prepares.get?_eq sound stays]

theorem Prepares.rests (prepares : Prepares crew c d) (sound : c.Sound) (stays : d.Stays)
    (rests : ∀ h, c.Rests h) (h : Handle) : d.Rests h := by
  intro q hq
  rw [prepares.get?_eq sound stays] at hq
  rw [(prepares.resembles sound stays).verdict]
  exact rests h q hq

theorem Prepares.ended_iff (prepares : Prepares crew c d) : d.Ended ↔ c.Ended := by
  obtain ⟨es, hes, hbatch⟩ := prepares.journal
  unfold Ended
  rw [hes, lastBatch_append fun e he ↦ Entry.isCompleted_of_ofBatch (hbatch e he)]

/-- A batch tells last that its passes have been used up, or it leaves everything at rest. -/
theorem Sound.process_ends (sound : c.Sound) (crew : Crew β σ) :
    (∃ d passes tally, Continues c d ∧
        (c.process crew).2 = (d.note (.passLimit passes)).note (.completed tally)) ∨
      ∀ h, (c.process crew).2.Rests h := by
  obtain ⟨_, k, e, tally, heq, hparts⟩ := exists_parts crew sound
  rw [heq]
  rcases hparts.ends with ⟨d, passes, hturns, rfl⟩ | hphase
  · have hsteps := hparts.planned sound
    refine Or.inl ⟨d, passes, tally, Steps.continues (hsteps.trans hturns.steps) sound, rfl⟩
  · exact Or.inr hphase.rests

/-- A batch that has not used up its passes leaves everything at rest. -/
theorem Sound.rests_process (sound : c.Sound) (crew : Crew β σ)
    (ended : (c.process crew).2.Ended) (h : Handle) : (c.process crew).2.Rests h := by
  rcases sound.process_ends crew with ⟨d, passes, tally, _, heq⟩ | hrests
  · rw [heq] at ended
    have hlimit := ended (.passLimit passes) (by
      rw [journal_note, journal_note]
      exact mem_lastBatch _ rfl rfl)
    exact absurd hlimit (by simp [Entry.isPassLimit])
  · exact hrests h

/-- So does a batch that does not tell that they have been used up. -/
theorem Sound.rests_of_told (sound : c.Sound) (crew : Crew β σ)
    (unspent : ∀ entry, Told c (c.process crew).2 entry → entry.isPassLimit = false)
    (h : Handle) : (c.process crew).2.Rests h := by
  rcases sound.process_ends crew with ⟨d, passes, tally, hcontinues, heq⟩ | hrests
  · have htold : Told c (c.process crew).2 (.passLimit passes) := by
      rw [heq]
      exact (continues_note _ _).told (hcontinues.told_note _)
    exact absurd (unspent _ htold) (by simp [Entry.isPassLimit])
  · exact hrests h

/-- Whatever a client can come to have is at rest when its last batch has not used up its passes and
nothing is scheduled for removal. -/
theorem Reachable.rests (reachable : Reachable crew c) (ended : c.Ended) (stays : c.Stays)
    (h : Handle) : c.Rests h := by
  induction reachable generalizing h with
  | build hbuild =>
    obtain ⟨_, hboard, _⟩ := of_build hbuild
    intro p hp
    rw [hboard] at hp
    exact absurd hp (by simp [Board.empty, Board.get?])
  | @serve c r hreachable ih =>
    obtain ⟨sound, waits, tidy, _⟩ := hreachable.invariant
    rcases serve_cases crew sound waits tidy r with hprepares | ⟨d, hcourse, heq⟩
    · refine hprepares.rests sound stays (ih (hprepares.ended_iff.1 ended) fun k p hp ↦ ?_) h
      rw [← hprepares.get?_eq sound stays] at hp
      exact stays k p hp
    · rw [heq] at ended ⊢
      exact (Steps.sound (hcourse.steps sound) sound).rests_process crew ended h

end Controller

end Rollout
