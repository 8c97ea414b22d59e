import Rollout.Proofs.TreeWork

/-!
Deeds. Of the calls that the journal tells of, those count that applied a deployer to a unit and
those that were made to take it back. Deeds unwind when each that takes back takes back what was
applied last and has not been taken back yet. What a tree does to enter a stage, and what it does to
leave it, unwind.
-/

set_option autoImplicit false
set_option relaxedAutoImplicit false

namespace Rollout

variable {β σ : Type}

/-- Of what is made up of two parts, what stands at a place and not in the second part stands in the
first. -/
theorem exists_eq_append_cons {α : Type} {xs es pre post : List α} {x : α}
    (h : xs ++ es = pre ++ x :: post) (hx : x ∉ es) : ∃ rest, xs = pre ++ x :: rest := by
  rcases List.append_eq_append_iff.1 h with ⟨fs, rfl, hfs⟩ | ⟨fs, hfs, hrest⟩
  · exact absurd (hfs ▸ List.mem_append_right fs List.mem_cons_self) hx
  · cases fs with
    | nil =>
      rw [List.nil_append] at hrest
      exact absurd (hrest ▸ List.mem_cons_self) hx
    | cons y fs =>
      obtain ⟨rfl, _⟩ := List.cons.inj hrest
      exact ⟨fs, hfs⟩

/-- What was done on a unit with a deployer: it was applied, or it was called to take that back. -/
inductive Deed (β : Type)
  | applied (what : Deployer β × Handle)
  | undone (what : Deployer β × Handle)

/-- Deeds, done when some deployers are held, leave others held: what is applied is held last, and
only what is held last can be undone. -/
inductive Unwinds :
    List (Deployer β × Handle) → List (Deed β) → List (Deployer β × Handle) → Prop
  | nil {held : List (Deployer β × Handle)} : Unwinds held [] held
  | applied {held left : List (Deployer β × Handle)} {what : Deployer β × Handle}
      {deeds : List (Deed β)} :
    Unwinds (held ++ [what]) deeds left → Unwinds held (.applied what :: deeds) left
  | undone {held left : List (Deployer β × Handle)} {what : Deployer β × Handle}
      {deeds : List (Deed β)} :
    Unwinds held deeds left → Unwinds (held ++ [what]) (.undone what :: deeds) left

theorem Unwinds.trans {held mid left : List (Deployer β × Handle)} {first second : List (Deed β)}
    (hfirst : Unwinds held first mid) (hsecond : Unwinds mid second left) :
    Unwinds held (first ++ second) left := by
  induction hfirst with
  | nil => exact hsecond
  | applied _ ih => exact .applied (ih hsecond)
  | undone _ ih => exact .undone (ih hsecond)

theorem unwinds_applied (held new : List (Deployer β × Handle)) :
    Unwinds held (new.map .applied) (held ++ new) := by
  induction new generalizing held with
  | nil =>
    rw [List.append_nil]
    exact .nil
  | cons what new ih =>
    rw [List.append_cons]
    exact .applied (ih _)

theorem unwinds_undone (held last : List (Deployer β × Handle)) :
    Unwinds (held ++ last) (last.reverse.map .undone) held := by
  induction last generalizing held with
  | nil =>
    rw [List.append_nil]
    exact .nil
  | cons what last ih =>
    rw [List.append_cons, List.reverse_cons, List.map_append]
    exact (ih _).trans (.undone .nil)

namespace Entry

/-- What an entry tells of the deeds on units of some names. -/
def deed? (names : List String) : Entry β → Option (Deed β)
  | deployed d unit name _ => if name ∈ names then some (.applied (d, unit)) else none
  | undeploying d unit name _ => if name ∈ names then some (.undone (d, unit)) else none
  | _ => none

/-- Whether an entry tells that a tree was planted on a handle. -/
def plants (root : Handle) : Entry β → Bool
  | added top _ _ _ => top == root
  | _ => false

/-- Whether no tree was planted or taken out. -/
def isQuiet : Entry β → Bool
  | added .. => false
  | removed .. => false
  | _ => true

theorem plants_of_isQuiet {e : Entry β} (hquiet : e.isQuiet = true) (root : Handle) :
    e.plants root = false := by
  cases e <;> first | rfl | exact absurd hquiet (by simp [isQuiet])

theorem isQuiet_of_ofCrew {e : Entry β} (hcrew : e.ofCrew = true) : e.isQuiet = true := by
  cases e <;> first | rfl | exact absurd hcrew (by simp [ofCrew, isCall])

theorem isCall_of_deed? {names : List String} {e : Entry β} (hdeed : e.deed? names ≠ none) :
    e.isCall = true := by
  cases e <;> first | rfl | exact absurd rfl hdeed

end Entry

/-- The deeds on units of some names that a journal tells of. -/
def deeds (names : List String) (es : List (Entry β)) : List (Deed β) :=
  es.filterMap (Entry.deed? names)

/-- What a journal tells since a tree was last planted on a handle. -/
def since (root : Handle) (es : List (Entry β)) : List (Entry β) :=
  (es.reverse.takeWhile fun e ↦ !e.plants root).reverse

variable {names : List String} {root : Handle}

theorem deeds_append (es fs : List (Entry β)) :
    deeds names (es ++ fs) = deeds names es ++ deeds names fs :=
  List.filterMap_append

theorem deeds_eq_nil {es : List (Entry β)} (h : ∀ e ∈ es, e.deed? names = none) :
    deeds names es = [] :=
  List.filterMap_eq_nil_iff.2 h

/-- Only calls are deeds. -/
theorem deeds_filter (es : List (Entry β)) :
    deeds names (es.filter Entry.isCall) = deeds names es := by
  unfold deeds
  rw [List.filterMap_filter]
  refine List.filterMap_congr fun e _ ↦ ?_
  split
  · rfl
  · next hcall =>
    by_contra hdeed
    exact hcall (Entry.isCall_of_deed? (Ne.symm hdeed))

theorem since_append {es fs : List (Entry β)} (h : ∀ e ∈ fs, e.plants root = false) :
    since root (es ++ fs) = since root es ++ fs := by
  unfold since
  rw [List.reverse_append, List.takeWhile_append_of_pos, List.reverse_append, List.reverse_reverse]
  intro e he
  rw [h e (List.mem_reverse.1 he)]
  rfl

theorem since_planted (es : List (Entry β)) {e : Entry β} (he : e.plants root = true) :
    since root (es ++ [e]) = [] := by
  unfold since
  rw [List.reverse_concat, List.takeWhile_cons_of_neg, List.reverse_nil]
  simp [he]

/-- What deployers at work add to the journal: no tree is planted or taken out, and all deeds are
calls. -/
theorem Ambient.Passed.deeds {a b : Ambient β σ} {calls : List (Entry β)}
    (passed : a.Passed b calls) : ∃ es, b.journal.toList = a.journal.toList ++ es ∧
      (∀ e ∈ es, e.isQuiet = true) ∧
      ∀ names, Rollout.deeds names es = Rollout.deeds names calls := by
  obtain ⟨es, hes, hcrew, rfl⟩ := passed.journal
  exact ⟨es, hes, fun e he ↦ Entry.isQuiet_of_ofCrew (hcrew e he),
    fun names ↦ (deeds_filter es).symm⟩

/-- An entry that is neither a call nor about a whole tree changes nothing about this. -/
theorem Ambient.Passed.deeds_note {a b : Ambient β σ} {calls : List (Entry β)}
    (passed : a.Passed b calls) (entry : Entry β) (hquiet : entry.isQuiet = true)
    (hcall : entry.isCall = false) :
    ∃ es, (b.note entry).journal.toList = a.journal.toList ++ es ∧
      (∀ e ∈ es, e.isQuiet = true) ∧
      ∀ names, Rollout.deeds names es = Rollout.deeds names calls := by
  obtain ⟨es, hes, hcrew, hdeeds⟩ := passed.deeds
  refine ⟨es ++ [entry], ?_, fun e he ↦ ?_, fun names ↦ ?_⟩
  · unfold note
    rw [Array.toList_push, hes, List.append_assoc]
  · rcases List.mem_append.1 he with he | he
    · exact hcrew e he
    · rw [List.mem_singleton.1 he]
      exact hquiet
  · have hnone : Rollout.deeds names [entry] = [] := by
      rw [← deeds_filter, List.filter_cons_of_neg (by simp [hcall])]
      rfl
    rw [deeds_append, hdeeds, hnone, List.append_nil]

/-! Units and trees. -/

namespace LiveUnit

variable {u : LiveUnit β}

theorem deeds_deployCalls (hname : u.name ∈ names) (stage : Stage) (ds : List (Deployer β)) :
    deeds names (u.deployCalls stage ds) = (ds.map (·, u.id)).map .applied := by
  induction ds with
  | nil => rfl
  | cons d ds ih =>
    have hcons : u.deployCalls stage (d :: ds) =
        [.deploying d u.id u.name stage, .deployed d u.id u.name stage] ++
          u.deployCalls stage ds := rfl
    have hone : deeds names [Entry.deploying d u.id u.name stage, .deployed d u.id u.name stage] =
        [.applied (d, u.id)] := by
      simp [deeds, Entry.deed?, List.filterMap_cons, hname]
    rw [hcons, deeds_append, ih, hone]
    rfl

theorem deeds_undeployCalls (hname : u.name ∈ names) (stage : Stage) (ds : List (Deployer β)) :
    deeds names (u.undeployCalls stage ds) = (ds.map (·, u.id)).map .undone := by
  induction ds with
  | nil => rfl
  | cons d ds ih =>
    have hcons : u.undeployCalls stage (d :: ds) =
        [.undeploying d u.id u.name stage] ++ u.undeployCalls stage ds := rfl
    have hone : deeds names [Entry.undeploying d u.id u.name stage] = [.undone (d, u.id)] := by
      simp [deeds, Entry.deed?, hname]
    rw [hcons, deeds_append, ih, hone]
    rfl

theorem deed?_deployCalls (hname : u.name ∉ names) {stage : Stage} {ds : List (Deployer β)} :
    ∀ e ∈ u.deployCalls stage ds, e.deed? names = none := by
  intro e he
  unfold deployCalls at he
  obtain ⟨d, _, he⟩ := List.mem_flatMap.1 he
  rcases List.mem_pair.1 he with rfl | rfl
  · rfl
  · exact if_neg hname

theorem deed?_undeployCalls (hname : u.name ∉ names) {stage : Stage} {ds : List (Deployer β)} :
    ∀ e ∈ u.undeployCalls stage ds, e.deed? names = none := by
  intro e he
  obtain ⟨d, _, rfl⟩ := List.mem_map.1 he
  exact if_neg hname

end LiveUnit

/-- The deployers recorded for a stage on the units of some handles, each with its unit. -/
def Forest.recordsOn (f : Forest β) (hs : List Handle) (stage : Stage) :
    List (Deployer β × Handle) :=
  hs.flatMap fun h ↦ (f.get? h).elim [] fun u ↦ (u.appliedAt stage).map (·, u.id)

namespace Site

variable {s t : Site β σ} {hs : List Handle} {stage : Stage}

theorem deeds_callsOn (s : Site β σ) (hs : List Handle)
    (calls : Handle → LiveUnit β → List (Entry β)) :
    deeds names (s.callsOn hs calls) =
      hs.flatMap fun h ↦ (s.forest.get? h).elim [] fun u ↦ deeds names (calls h u) := by
  unfold deeds callsOn
  rw [List.filterMap_flatMap]
  refine List.flatMap_congr fun h _ ↦ ?_
  cases s.forest.get? h with
  | none => rfl
  | some u => rfl

/-- When a tree enters a stage that has no records yet, what is recorded then has been applied in
that order. -/
theorem Treated.deeds_entered {done : Handle → List (Deployer β)} {calls : List (Entry β)}
    (treated : Treated (fun h ↦ LiveUnit.Entered stage (done h)) hs s t calls)
    (hnames : ∀ h ∈ hs, ∀ u, s.forest.get? h = some u → u.name ∈ names ∧ u.appliedAt stage = []) :
    deeds names (s.callsOn hs (enterCalls stage done)) =
      (t.forest.recordsOn hs stage).map .applied := by
  rw [deeds_callsOn]
  unfold Forest.recordsOn
  rw [List.map_flatMap]
  refine List.flatMap_congr fun h hh ↦ ?_
  cases hu : s.forest.get? h with
  | none =>
    have hnone := Forest.get?_eq_none_iff.1 hu
    rw [treated.shape.node?, ← Forest.get?_eq_none_iff] at hnone
    rw [hnone]
    rfl
  | some u =>
    obtain ⟨hname, hclear⟩ := hnames h hh u hu
    obtain ⟨v, hv, hentered⟩ := treated.each hh hu
    rw [hv]
    simp only [Option.elim_some]
    rw [hentered.appliedAt, hentered.id, hclear, List.nil_append]
    exact LiveUnit.deeds_deployCalls hname stage (done h)

/-- When a tree leaves a stage, what is recorded for it is undone in reverse order. -/
theorem deeds_left (hnames : ∀ h ∈ hs, ∀ u, s.forest.get? h = some u → u.name ∈ names) :
    deeds names (s.callsOn hs.reverse (leaveCalls stage)) =
      (s.forest.recordsOn hs stage).reverse.map .undone := by
  rw [deeds_callsOn, List.flatMap_reverse, List.map_reverse]
  unfold Forest.recordsOn
  rw [List.map_flatMap]
  refine congrArg List.reverse (List.flatMap_congr fun h hh ↦ ?_)
  rw [Function.comp_apply]
  cases hu : s.forest.get? h with
  | none => rfl
  | some u =>
    simp only [Option.elim_some]
    unfold leaveCalls
    rw [LiveUnit.deeds_undeployCalls (hnames h hh u hu), List.map_reverse, List.map_reverse,
      List.reverse_reverse]

theorem deed?_callsOn {calls : Handle → LiveUnit β → List (Entry β)}
    (hcalls : ∀ h ∈ hs, ∀ u, s.forest.get? h = some u → ∀ e ∈ calls h u, e.deed? names = none) :
    deeds names (s.callsOn hs calls) = [] := by
  rw [deeds_callsOn, List.flatMap_eq_nil_iff]
  intro h hh
  cases hu : s.forest.get? h with
  | none => rfl
  | some u => exact deeds_eq_nil (hcalls h hh u hu)

end Site

end Rollout
