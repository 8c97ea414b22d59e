import Rollout.Text.Blank

/-!
Names of units. A list of names is taken in only if each of them is not blank, is not taken already
and occurs once; the first name in the list that breaks this is the one reported.
-/

set_option autoImplicit false
set_option relaxedAutoImplicit false

namespace Rollout

/-- What is wrong with a unit's name. -/
inductive NameFault
  | blank
  | taken (name : String)
deriving DecidableEq, Repr

namespace NameFault

/-- The first fault in a list of names that come after those already seen. -/
def first? (taken : String → Bool) (seen : List String) : List String → Option NameFault
  | [] => none
  | n :: ns =>
    if Text.isBlank n then some blank
    else if taken n || n ∈ seen then some (.taken n)
    else first? taken (n :: seen) ns

theorem first?_eq_none_iff {taken : String → Bool} {seen names : List String} :
    first? taken seen names = none ↔
      (∀ n ∈ names, Text.isBlank n = false ∧ taken n = false ∧ n ∉ seen) ∧ names.Nodup := by
  induction names generalizing seen with
  | nil => simp [first?]
  | cons n ns ih =>
    unfold first?
    split
    · next h => simp [h]
    · next h =>
      split
      · next ht =>
        simp only [Bool.or_eq_true, decide_eq_true_eq] at ht
        simp only [reduceCtorEq, false_iff, not_and]
        intro hall
        have := hall n (by simp)
        rcases ht with ht | ht <;> simp_all
      · next ht =>
        simp only [Bool.or_eq_true, decide_eq_true_eq, not_or, Bool.not_eq_true] at ht
        rw [ih]
        constructor
        · rintro ⟨hall, hd⟩
          refine ⟨fun m hm ↦ ?_, List.nodup_cons.2 ⟨fun hn ↦ ?_, hd⟩⟩
          · rcases List.mem_cons.1 hm with rfl | hm
            · exact ⟨by simpa using h, ht.1, ht.2⟩
            · have := hall m hm
              exact ⟨this.1, this.2.1, fun hs ↦ this.2.2 (List.mem_cons_of_mem _ hs)⟩
          · exact (hall n hn).2.2 List.mem_cons_self
        · rintro ⟨hall, hd⟩
          have hd := List.nodup_cons.1 hd
          refine ⟨fun m hm ↦ ?_, hd.2⟩
          have := hall m (List.mem_cons_of_mem _ hm)
          refine ⟨this.1, this.2.1, fun hs ↦ ?_⟩
          rcases List.mem_cons.1 hs with rfl | hs
          · exact hd.1 hm
          · exact this.2.2 hs

end NameFault

end Rollout
