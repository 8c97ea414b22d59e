import Mathlib.Data.List.Nodup
import Mathlib.Data.List.Sort
import Rollout.Crew
import Rollout.Proofs.StageOrder

/-!
Rosters in order. Enrolments are numbered in the order in which they come, whatever has been
dismissed in the meantime, so the numbers tell those that ask for the same turn apart for good. Each
deployer works at the one stage of the chain that has the name of the stage it declares. The lists
of the stages part the roster among them, each in the order of turns, and who is dismissed is
missing from one list without a trace in any.
-/

set_option autoImplicit false
set_option relaxedAutoImplicit false

namespace Rollout

/-! Sorting lists in which the order tells all elements apart. -/

namespace Sorting

variable {α : Type} {le : α → α → Bool} {l : List α}

theorem insertBy_eq_orderedInsert (le : α → α → Bool) (x : α) (l : List α) :
    insertBy le x l = l.orderedInsert (fun a b ↦ le a b = true) x := by
  induction l with
  | nil => rfl
  | cons y ys ih => rw [insertBy, List.orderedInsert_cons, ih]

theorem sortBy_eq_insertionSort (le : α → α → Bool) (l : List α) :
    sortBy le l = l.insertionSort fun a b ↦ le a b = true := by
  induction l with
  | nil => rfl
  | cons x xs ih => rw [sortBy, ih, insertBy_eq_orderedInsert, List.insertionSort_cons]

/-- There is only one way to sort such a list, so it can as well be sorted before something is left
out of it. -/
theorem filter_sortBy [Std.Total fun a b ↦ le a b = true] [IsTrans α fun a b ↦ le a b = true]
    (antisymm : ∀ a ∈ l, ∀ b ∈ l, le a b = true → le b a = true → a = b) (keep : α → Bool) :
    (sortBy le l).filter keep = sortBy le (l.filter keep) := by
  rw [sortBy_eq_insertionSort, sortBy_eq_insertionSort]
  refine List.Perm.eq_of_pairwise (fun a b ha hb ↦ antisymm a ?_ b ?_)
    ((List.pairwise_insertionSort _ l).filter keep) (List.pairwise_insertionSort _ _)
    (((List.perm_insertionSort _ l).filter keep).trans (List.perm_insertionSort _ _).symm)
  · exact (List.mem_insertionSort _).1 (List.mem_filter.1 ha).1
  · exact (List.mem_filter.1 ((List.mem_insertionSort _).1 hb)).1

end Sorting

namespace Roster

variable {β : Type} {r : Roster β} {d : Deployer β} {s t : Stage} {name : String}

/-- The enlisted deployers in the order in which they were enlisted. -/
def deployers (r : Roster β) : List (Deployer β) := r.enrolments.map Enrolment.deployer

/-- A deployer that can be enlisted: it has a name that is neither blank nor taken, works at a known
stage above the floor, and names no blank key. -/
structure Admits (r : Roster β) (d : Deployer β) : Prop where
  blank : Text.isBlank d.name = false
  fresh : d.name ∉ r.deployers.map Deployer.name
  known : d.profile.stage.name ∈ r.chain.names
  above : d.profile.stage.name ≠ Stage.floor.name
  keys : ∀ key ∈ d.profile.keys, Text.isBlank key = false

/-- Deployers in the order in which they work: those that ask for an earlier turn go first, and of
those that ask for the same, those that were enlisted first. -/
def InTurn (r : Roster β) (ds : List (Deployer β)) : Prop :=
  ds.Pairwise fun a b ↦ a.profile.order < b.profile.order ∨
    a.profile.order = b.profile.order ∧ [a, b].Sublist r.deployers

/-- A roster as it comes about: the names are no blanks and all different, everyone is placed at the
stage of the chain that has the name of the one declared, and the numbers ascend. -/
structure Orderly (r : Roster β) : Prop where
  blank : ∀ e ∈ r.enrolments, Text.isBlank e.deployer.name = false
  nodup : r.names.Nodup
  contains : ∀ e ∈ r.enrolments, r.chain.contains e.stage = true
  stage : ∀ e ∈ r.enrolments, e.stage.name = e.deployer.profile.stage.name
  above : ∀ e ∈ r.enrolments, e.stage ≠ Stage.floor
  ascending : r.enrolments.Pairwise fun a b ↦ a.number < b.number
  next : ∀ e ∈ r.enrolments, e.number < r.next

/-! The order of turns. -/

theorem precedes_iff {a b : Enrolment β} : precedes a b = true ↔
    a.deployer.profile.order < b.deployer.profile.order ∨
      a.deployer.profile.order = b.deployer.profile.order ∧ a.number ≤ b.number := by
  simp [precedes]

instance : Std.Total fun a b : Enrolment β ↦ precedes a b = true := by
  refine ⟨fun a b ↦ ?_⟩
  rw [precedes_iff, precedes_iff]
  omega

instance : IsTrans (Enrolment β) fun a b ↦ precedes a b = true := by
  refine ⟨fun a b c hab hbc ↦ ?_⟩
  rw [precedes_iff] at hab hbc ⊢
  omega

/-- Whoever has the lower number was enlisted first. -/
theorem pair_sublist {l : List (Enrolment β)} (h : l.Pairwise fun a b ↦ a.number < b.number)
    {a b : Enrolment β} (ha : a ∈ l) (hb : b ∈ l) (hlt : a.number < b.number) :
    [a, b].Sublist l := by
  induction l with
  | nil => exact absurd ha List.not_mem_nil
  | cons e l ih =>
    obtain ⟨hfirst, hrest⟩ := List.pairwise_cons.1 h
    rcases List.mem_cons.1 ha with rfl | ha'
    · rcases List.mem_cons.1 hb with rfl | hb'
      · exact absurd hlt (Nat.lt_irrefl _)
      · exact (List.singleton_sublist.2 hb').cons_cons a
    · rcases List.mem_cons.1 hb with rfl | hb'
      · exact absurd (hfirst a ha') (Nat.lt_asymm hlt)
      · exact (ih hrest ha' hb').cons e

theorem Orderly.eq_of_number (orderly : r.Orderly) {a b : Enrolment β} (ha : a ∈ r.enrolments)
    (hb : b ∈ r.enrolments) (h : a.number = b.number) : a = b :=
  List.inj_on_of_nodup_map (List.pairwise_map.2 (orderly.ascending.imp Nat.ne_of_lt)) ha hb h

theorem Orderly.filter_sorted (orderly : r.Orderly) (there keep : Enrolment β → Bool) :
    (Sorting.sortBy precedes (r.enrolments.filter there)).filter keep =
      Sorting.sortBy precedes ((r.enrolments.filter there).filter keep) := by
  refine Sorting.filter_sortBy (fun a ha b hb hab hba ↦ ?_) keep
  rw [precedes_iff] at hab hba
  exact orderly.eq_of_number (List.mem_filter.1 ha).1 (List.mem_filter.1 hb).1 (by omega)

/-! Who can be enlisted. -/

theorem names_eq (r : Roster β) : r.names = r.deployers.map Deployer.name := by
  rw [deployers, List.map_map]
  rfl

/-- Whoever is placed could be enlisted, and is at the stage of the chain that has the name of the
stage declared. -/
theorem admits_of_placing (h : r.placing d = .ok t) :
    r.Admits d ∧ r.chain.contains t = true ∧ t.name = d.profile.stage.name := by
  unfold placing at h
  split at h
  · exact absurd h (by simp)
  next hblank =>
  split at h
  · exact absurd h (by simp)
  next stage hstage =>
  obtain ⟨hcontains, hname⟩ := Chain.resolve?_eq_some_iff.1 hstage
  split at h
  · exact absurd h (by simp)
  next hfloor =>
  split at h
  · exact absurd h (by simp)
  next hkeys =>
  split at h
  · exact absurd h (by simp)
  next hfresh =>
  obtain rfl := Except.ok.inj h
  rw [Chain.isFloor_iff hcontains, hname] at hfloor
  exact ⟨⟨by simpa using hblank, r.names_eq ▸ hfresh, Chain.isSome_resolve?_iff.1 (hstage ▸ rfl),
    hfloor, by simpa using hkeys⟩, hcontains, hname⟩

theorem exists_placing (admits : r.Admits d) : ∃ t, r.placing d = .ok t := by
  obtain ⟨t, ht⟩ := Option.isSome_iff_exists.1 (Chain.isSome_resolve?_iff.2 admits.known)
  obtain ⟨hcontains, hname⟩ := Chain.resolve?_eq_some_iff.1 ht
  have hfloor : ¬ t.isFloor = true := by
    rw [Chain.isFloor_iff hcontains, hname]
    exact admits.above
  have hkeys : ¬ d.profile.keys.any Text.isBlank = true := by
    simpa using admits.keys
  have hfresh : d.name ∉ r.names := r.names_eq ▸ admits.fresh
  refine ⟨t, ?_⟩
  unfold placing
  rw [if_neg (by simp [admits.blank]), ht]
  simp only [if_neg hfloor, if_neg hkeys, if_neg hfresh]

/-- The roster with one deployer more. -/
def joined (r : Roster β) (d : Deployer β) (t : Stage) : Roster β :=
  { r with enrolments := r.enrolments ++ [⟨d, t, r.next⟩], next := r.next + 1 }

theorem enlist_eq (r : Roster β) (d : Deployer β) :
    r.enlist d = (r.placing d).map fun t ↦ (t, r.joined d t) := rfl

/-! What comes of it. -/

theorem orderly_vacant (chain : Chain) : (vacant chain : Roster β).Orderly := by
  refine ⟨?_, List.nodup_nil, ?_, ?_, ?_, List.Pairwise.nil, ?_⟩ <;>
    exact fun e he ↦ absurd he List.not_mem_nil

theorem deployers_joined (r : Roster β) (d : Deployer β) (t : Stage) :
    (r.joined d t).deployers = r.deployers ++ [d] := List.map_append

theorem Orderly.joined (orderly : r.Orderly) (h : r.placing d = .ok t) :
    (r.joined d t).Orderly := by
  obtain ⟨admits, hcontains, hname⟩ := admits_of_placing h
  have hmem : ∀ e ∈ (r.joined d t).enrolments, e ∈ r.enrolments ∨ e = ⟨d, t, r.next⟩ := by
    intro e he
    simpa [Roster.joined] using he
  refine ⟨fun e he ↦ ?_, ?_, fun e he ↦ ?_, fun e he ↦ ?_, fun e he ↦ ?_, ?_, fun e he ↦ ?_⟩
  · rcases hmem e he with he | rfl
    · exact orderly.blank e he
    · exact admits.blank
  · rw [names_eq, deployers_joined, List.map_append]
    refine List.nodup_append.2 ⟨r.names_eq ▸ orderly.nodup, List.nodup_singleton _, ?_⟩
    rintro name hname _ hnew rfl
    rw [List.mem_singleton.1 hnew] at hname
    exact admits.fresh hname
  · rcases hmem e he with he | rfl
    · exact orderly.contains e he
    · exact hcontains
  · rcases hmem e he with he | rfl
    · exact orderly.stage e he
    · exact hname
  · rcases hmem e he with he | rfl
    · exact orderly.above e he
    · intro hfloor
      exact admits.above (hname.symm.trans (congrArg Stage.name hfloor))
  · refine List.pairwise_append.2 ⟨orderly.ascending, List.pairwise_singleton _ _, ?_⟩
    intro e he new hnew
    rw [List.mem_singleton.1 hnew]
    exact orderly.next e he
  · rcases hmem e he with he | rfl
    · exact Nat.lt_succ_of_lt (orderly.next e he)
    · exact Nat.lt_succ_self _

/-- As no two have the same name, taking off the first of a name takes off all of that name. -/
theorem eraseP_eq_filter {l : List (Enrolment β)}
    (nodup : (l.map fun e ↦ e.deployer.name).Nodup) (name : String) :
    l.eraseP (fun e ↦ e.deployer.name == name) = l.filter fun e ↦ e.deployer.name != name := by
  induction l with
  | nil => rfl
  | cons e l ih =>
    obtain ⟨hfirst, hrest⟩ := List.nodup_cons.1 nodup
    by_cases hname : e.deployer.name = name
    · subst hname
      rw [List.eraseP_cons_of_pos (by simp), List.filter_cons_of_neg (by simp)]
      refine (List.filter_eq_self.2 fun other hother ↦ ?_).symm
      rw [bne_iff_ne]
      intro hsame
      exact hfirst (List.mem_map.2 ⟨other, hother, hsame⟩)
    · rw [List.eraseP_cons_of_neg (by simpa using hname),
        List.filter_cons_of_pos (by simpa using hname), ih hrest]

theorem Orderly.enrolments_dismiss (orderly : r.Orderly) (name : String) :
    (r.dismiss name).enrolments = r.enrolments.filter fun e ↦ e.deployer.name != name :=
  eraseP_eq_filter orderly.nodup name

theorem Orderly.deployers_dismiss (orderly : r.Orderly) (name : String) :
    (r.dismiss name).deployers = r.deployers.filter fun d ↦ d.name != name := by
  rw [deployers, orderly.enrolments_dismiss, deployers, List.filter_map]
  rfl

theorem Orderly.dismiss (orderly : r.Orderly) (name : String) : (r.dismiss name).Orderly := by
  have hmem : ∀ e ∈ (r.dismiss name).enrolments, e ∈ r.enrolments :=
    fun e he ↦ List.mem_of_mem_eraseP he
  have hsub : (r.dismiss name).enrolments.Sublist r.enrolments := List.eraseP_sublist
  exact
    { blank := fun e he ↦ orderly.blank e (hmem e he)
      nodup := orderly.nodup.sublist (hsub.map _)
      contains := fun e he ↦ orderly.contains e (hmem e he)
      stage := fun e he ↦ orderly.stage e (hmem e he)
      above := fun e he ↦ orderly.above e (hmem e he)
      ascending := orderly.ascending.sublist hsub
      next := fun e he ↦ orderly.next e (hmem e he) }

/-! The list of a stage. -/

/-- Those at a stage are those that declare a stage of its name. -/
theorem Orderly.atStage_eq (orderly : r.Orderly) (s : Stage) :
    r.atStage s = (Sorting.sortBy precedes
      (r.enrolments.filter fun e ↦ e.stage.name == s.name)).map Enrolment.deployer := by
  unfold atStage
  cases hs : r.chain.resolve? s with
  | none =>
    have hnone : (r.enrolments.filter fun e ↦ e.stage.name == s.name) = [] := by
      refine List.filter_eq_nil_iff.2 fun e he hname ↦ ?_
      rw [Chain.resolve?_eq_some_iff.2 ⟨orderly.contains e he, by simpa using hname⟩] at hs
      exact absurd hs (by simp)
    rw [hnone]
    rfl
  | some t =>
    obtain ⟨ht, hname⟩ := Chain.resolve?_eq_some_iff.1 hs
    have hsame : (r.enrolments.filter fun e ↦ e.stage == t) =
        r.enrolments.filter fun e ↦ e.stage.name == s.name := by
      refine List.filter_congr fun e he ↦ ?_
      rw [Bool.eq_iff_iff, beq_iff_eq, beq_iff_eq, ← hname]
      exact ⟨congrArg Stage.name, Chain.eq_of_name_eq (orderly.contains e he) ht⟩
    simp only [hsame]

theorem Orderly.perm_atStage (orderly : r.Orderly) (s : Stage) :
    (r.atStage s).Perm (r.deployers.filter fun d ↦ d.profile.stage.name == s.name) := by
  have hdeclared : (r.enrolments.filter fun e ↦ e.stage.name == s.name) =
      r.enrolments.filter fun e ↦ e.deployer.profile.stage.name == s.name :=
    List.filter_congr fun e he ↦ by rw [orderly.stage e he]
  rw [orderly.atStage_eq, Sorting.sortBy_eq_insertionSort, deployers, List.filter_map, hdeclared]
  exact (List.perm_insertionSort _ _).map _

theorem Orderly.inTurn_atStage (orderly : r.Orderly) (s : Stage) : r.InTurn (r.atStage s) := by
  rw [orderly.atStage_eq, Sorting.sortBy_eq_insertionSort, InTurn, List.pairwise_map]
  set here := r.enrolments.filter fun e ↦ e.stage.name == s.name
  have hnodup : (here.insertionSort fun a b ↦ precedes a b = true).Nodup := by
    refine (List.perm_insertionSort _ here).nodup_iff.2 (List.Nodup.filter _ ?_)
    exact List.Nodup.of_map _ orderly.nodup
  have hmem : ∀ e ∈ here.insertionSort fun a b ↦ precedes a b = true, e ∈ r.enrolments :=
    fun e he ↦ (List.mem_filter.1 ((List.mem_insertionSort _).1 he)).1
  have hsorted := List.pairwise_insertionSort (fun a b ↦ precedes a b = true) here
  refine (hsorted.and hnodup).imp_of_mem fun {a b} ha hb ⟨hle, hne⟩ ↦ ?_
  rcases precedes_iff.1 hle with hlt | ⟨hsame, hnumber⟩
  · exact Or.inl hlt
  · refine Or.inr ⟨hsame, ?_⟩
    have hlt := Nat.lt_of_le_of_ne hnumber fun h ↦
      hne (orderly.eq_of_number (hmem a ha) (hmem b hb) h)
    exact (pair_sublist orderly.ascending (hmem a ha) (hmem b hb) hlt).map Enrolment.deployer

theorem Orderly.mem_atStage_iff (orderly : r.Orderly) :
    d ∈ r.atStage s ↔ d ∈ r.deployers ∧ d.profile.stage.name = s.name := by
  rw [(orderly.perm_atStage s).mem_iff, List.mem_filter, beq_iff_eq]

/-- Who is dismissed is missing from the lists, and the others stay as they are. -/
theorem Orderly.atStage_dismiss (orderly : r.Orderly) (name : String) (s : Stage) :
    (r.dismiss name).atStage s = (r.atStage s).filter fun d ↦ d.name != name := by
  rw [(orderly.dismiss name).atStage_eq, orderly.atStage_eq, orderly.enrolments_dismiss,
    List.filter_map, List.filter_comm]
  exact congrArg _ (orderly.filter_sorted _ _).symm

/-- Everyone is in the list of the stage they are placed at, and in no other. -/
theorem Orderly.exists_stage (orderly : r.Orderly) (hd : d ∈ r.deployers) :
    ∃ t, r.chain.contains t = true ∧ t ≠ Stage.floor ∧
      ∀ u, r.chain.contains u = true → (d ∈ r.atStage u ↔ u = t) := by
  obtain ⟨e, he, rfl⟩ := List.mem_map.1 hd
  refine ⟨e.stage, orderly.contains e he, orderly.above e he, fun u hu ↦ ?_⟩
  rw [orderly.mem_atStage_iff, and_iff_right hd, ← orderly.stage e he]
  exact ⟨fun h ↦ Chain.eq_of_name_eq hu (orderly.contains e he) h.symm,
    fun h ↦ congrArg Stage.name h.symm⟩

end Roster

namespace Ambient

variable {β σ : Type} {a : Ambient β σ} {d : Deployer β} {t : Stage}

/-! Changes made one after another. -/

theorem enlist_of_placing (h : a.roster.placing d = .ok t) :
    a.enlist d = .ok { a with
      roster := a.roster.joined d t, journal := a.journal.push (.enlisted d.name t) } := by
  rw [enlist, Roster.enlist_eq, h]
  rfl

theorem enlist_of_refused {error : RosterError} (h : a.roster.placing d = .error error) :
    a.enlist d = .error error := by
  rw [enlist, Roster.enlist_eq, h]
  rfl

theorem change_of_ok {next : Ambient β σ} (h : a.enlist d = .ok next) :
    a.change (.enlist d) = next := by
  rw [change, h]

theorem change_of_error {error : RosterError} (h : a.enlist d = .error error) :
    a.change (.enlist d) = a := by
  rw [change, h]

theorem roster_dismiss (a : Ambient β σ) (name : String) :
    (a.change (.dismiss name)).roster = a.roster.dismiss name := by
  change (a.dismiss name).roster = _
  unfold dismiss
  split
  · rfl
  · next hnone =>
    have hsame : a.roster.enrolments.eraseP (fun e ↦ e.deployer.name == name) =
        a.roster.enrolments := by
      refine List.eraseP_of_forall_not fun e he hname ↦ hnone ?_
      exact List.mem_map.2 ⟨e, he, by simpa using hname⟩
    rw [Roster.dismiss, hsame]

/-- Whatever is asked for, a roster keeps its order and its chain. -/
theorem orderly_change (orderly : a.roster.Orderly) (x : RosterChange β) :
    (a.change x).roster.Orderly ∧ (a.change x).roster.chain = a.roster.chain := by
  cases x with
  | enlist d =>
    cases h : a.roster.placing d with
    | ok t =>
      rw [change_of_ok (enlist_of_placing h)]
      exact ⟨orderly.joined h, rfl⟩
    | error error =>
      rw [change_of_error (enlist_of_refused h)]
      exact ⟨orderly, rfl⟩
  | dismiss name =>
    rw [roster_dismiss]
    exact ⟨orderly.dismiss name, rfl⟩

theorem orderly_changes (orderly : a.roster.Orderly) (changes : List (RosterChange β)) :
    (changes.foldl change a).roster.Orderly ∧
      (changes.foldl change a).roster.chain = a.roster.chain := by
  induction changes generalizing a with
  | nil => exact ⟨orderly, rfl⟩
  | cons x changes ih =>
    obtain ⟨hnext, hchain⟩ := orderly_change orderly x
    obtain ⟨hall, hsame⟩ := ih hnext
    exact ⟨hall, hsame.trans hchain⟩

/-- Whoever has been enlisted on a roster and dismissed from it, or refused, its names are no blanks
and all different. The list of any stage has those who declare a stage of that name, in the order of
turns, and nobody if the chain has no such stage. Everyone is in the list of just one stage of the
chain, and that is not the floor. A deployer is enlisted, behind all others, if and only if the
roster admits it, and else nothing is changed at all. Who is dismissed is missing from the roster
and from the lists, and the others stay in them as they are. -/
theorem rosters_partition (chain : Chain) (state : σ) (journal : Journal β)
    (changes : List (RosterChange β)) :
    let a : Ambient β σ := changes.foldl change ⟨Roster.vacant chain, state, journal⟩
    (∀ d ∈ a.roster.deployers, Text.isBlank d.name = false) ∧
    (a.roster.deployers.map Deployer.name).Nodup ∧
    (∀ s, (a.roster.atStage s).Perm
        (a.roster.deployers.filter fun d ↦ d.profile.stage.name == s.name) ∧
      a.roster.InTurn (a.roster.atStage s) ∧
      (s.name ∉ chain.names → a.roster.atStage s = [])) ∧
    (∀ d ∈ a.roster.deployers, ∃ t, chain.contains t = true ∧ t ≠ Stage.floor ∧
      ∀ u, chain.contains u = true → (d ∈ a.roster.atStage u ↔ u = t)) ∧
    (∀ d, (a.roster.Admits d → ∃ next, a.enlist d = .ok next ∧ a.change (.enlist d) = next ∧
        next.roster.deployers = a.roster.deployers ++ [d]) ∧
      (¬ a.roster.Admits d → ∃ error, a.enlist d = .error error ∧ a.change (.enlist d) = a)) ∧
    ∀ name, (a.change (.dismiss name)).roster.deployers =
        (a.roster.deployers.filter fun d ↦ d.name != name) ∧
      ∀ s, (a.change (.dismiss name)).roster.atStage s =
        (a.roster.atStage s).filter fun d ↦ d.name != name := by
  intro a
  obtain ⟨orderly, hchain⟩ := orderly_changes (a := ⟨Roster.vacant chain, state, journal⟩)
    (Roster.orderly_vacant chain) changes
  change a.roster.Orderly at orderly
  change a.roster.chain = chain at hchain
  clear_value a
  subst hchain
  refine ⟨fun d hd ↦ ?_, a.roster.names_eq ▸ orderly.nodup, fun s ↦ ⟨orderly.perm_atStage s,
    orderly.inTurn_atStage s, fun hunknown ↦ ?_⟩, fun d hd ↦ orderly.exists_stage hd,
    fun d ↦ ⟨fun admits ↦ ?_, fun hrefused ↦ ?_⟩, fun name ↦ ?_⟩
  · obtain ⟨e, he, rfl⟩ := List.mem_map.1 hd
    exact orderly.blank e he
  · unfold Roster.atStage
    rw [Option.not_isSome_iff_eq_none.1 fun h ↦ hunknown (Chain.isSome_resolve?_iff.1 h)]
  · obtain ⟨t, ht⟩ := Roster.exists_placing admits
    have henlist := enlist_of_placing (a := a) ht
    exact ⟨_, henlist, change_of_ok henlist, a.roster.deployers_joined d t⟩
  · cases h : a.roster.placing d with
    | ok t => exact absurd (Roster.admits_of_placing h).1 hrefused
    | error error =>
      have hsame := enlist_of_refused (a := a) h
      exact ⟨error, hsame, change_of_error hsame⟩
  · rw [roster_dismiss]
    exact ⟨orderly.deployers_dismiss name, fun s ↦ orderly.atStage_dismiss name s⟩

/-- The standard chain with one stage more, by which those above it stand higher. -/
def widened : Chain := Chain.standard.insertAll [("PostDescribe", .after "Describe")]

/-- Where most of the deployers want to work. The chain has this stage at another place. -/
def loader : Stage := ⟨"ClassLoader", 5⟩

/-- Deployers that come and go. One is refused for its name while it is on the roster and one for
its stage, and one is dismissed and comes back. -/
def turnover : List (RosterChange Unit) :=
  [.enlist ⟨{ name := "late", stage := loader, order := 10 }, ()⟩,
    .enlist ⟨{ name := "first", stage := loader }, ()⟩,
    .enlist ⟨{ name := "second", stage := ⟨"ClassLoader", 6⟩ }, ()⟩,
    .enlist ⟨{ name := "early", stage := loader, order := -1 }, ()⟩,
    .enlist ⟨{ name := "first", stage := ⟨"Parse", 1⟩ }, ()⟩,
    .enlist ⟨{ name := "ground", stage := Stage.floor }, ()⟩,
    .dismiss "first",
    .enlist ⟨{ name := "first", stage := loader }, ()⟩]

theorem rosters_partition_turnover :
    let a : Ambient Unit Unit := turnover.foldl change ⟨Roster.vacant widened, (), #[]⟩
    (a.roster.atStage loader).map Deployer.name = ["early", "second", "first", "late"] ∧
      a.roster.InTurn (a.roster.atStage loader) ∧
      (a.roster.atStage Stage.floor).map Deployer.name = [] ∧
      ((a.change (.dismiss "second")).roster.atStage loader).map Deployer.name =
        ["early", "first", "late"] := by
  intro a
  obtain ⟨-, -, hlists, -, -, hdismiss⟩ := rosters_partition widened () #[] turnover
  refine ⟨by decide +kernel, (hlists loader).2.1, by decide +kernel, ?_⟩
  rw [(hdismiss "second").2 loader]
  decide +kernel

end Ambient

end Rollout
