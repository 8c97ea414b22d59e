import Rollout.Proofs.StageOrder
import Rollout.Stage.Table

/-!
Proper tables. Nothing in the type of a draft says so, but one that begins with the floor or with the
standard chain has the names of a chain after any calls, and its table has the stages of that chain.
So every table is a proper one, and the stage at the place that a stage names is looked at first
without harm.
-/

set_option autoImplicit false
set_option relaxedAutoImplicit false

namespace Rollout

namespace Table

/-- A table that begins with the floor, has every stage at its own place and every name once, and in
which the neighbours of a stage have it as a neighbour in turn. -/
structure Proper (t : Table) : Prop where
  floor_first : t.stages.head? = some Stage.floor
  blank : ∀ s ∈ t.stages, Text.isBlank s.name = false
  nodup : (t.stages.map Stage.name).Nodup
  index_eq : ∀ (i : Nat) (s : Stage), t.stages[i]? = some s → s.index = i
  next?_iff : ∀ s ∈ t.stages, ∀ u, t.next? s = some u ↔ u ∈ t.stages ∧ t.prev? u = some s
  last : ∀ s ∈ t.stages, t.next? s = none ↔ t.stages.getLast? = some s
  first : ∀ s ∈ t.stages, t.prev? s = none ↔ s = Stage.floor

end Table

namespace Draft

/-- What a name and its placement have to be for the name to be put in. -/
structure Admits (d : Draft) (name : String) (placement : Chain.Placement) : Prop where
  blank : Text.isBlank name = false
  fresh : name ∉ d.names
  anchored : ∀ anchor, placement = .after anchor ∨ placement = .before anchor → anchor ∈ d.names
  above : placement ≠ .before Stage.floor.name

/-- How names stand once a new one has been put in: at the end, or directly next to its anchor, with
all others as they were. -/
def Placed (names : List String) (name : String) : Chain.Placement → List String → Prop
  | .atEnd, all => all = names ++ [name]
  | .after anchor, all => ∃ below above, names = below ++ anchor :: above ∧
    all = below ++ anchor :: name :: above
  | .before anchor, all => ∃ below above, names = below ++ anchor :: above ∧
    all = below ++ name :: anchor :: above

end Draft

namespace Chain

variable {c d : Chain} {s t : Stage} {name : String} {placement : Placement}

/-- The stages of a chain in a row. -/
def table (c : Chain) : Table := ⟨c.stages⟩

/-- The names of a chain in a row. -/
def draft (c : Chain) : Draft := ⟨c.names⟩

/-! The stages of a chain, looked at as a table. -/

theorem names_stages (c : Chain) : c.stages.map Stage.name = c.names := by
  refine List.ext_getElem? fun i ↦ ?_
  rw [List.getElem?_map, getElem?_stages, at?, Option.map_map]
  exact Option.map_id'

theorem length_stages (c : Chain) : c.stages.length = c.size := by
  rw [← List.length_map, names_stages, size]

theorem lookup_table (c : Chain) (name : String) :
    c.table.lookup name = match c.find? name with
      | some s => .ok s
      | none => .error (.unknownStage name) := by
  have hfind : (c.stages.find? fun s ↦ s.name == name) = c.find? name := by
    refine Option.ext fun s ↦ ?_
    rw [find?_eq_some_iff, ← mem_stages_iff]
    constructor
    · intro h
      exact ⟨List.mem_of_find?_eq_some h, by simpa using List.find?_some h⟩
    · rintro ⟨hs, hname⟩
      obtain ⟨u, hu⟩ : ∃ u, (c.stages.find? fun s ↦ s.name == name) = some u :=
        Option.isSome_iff_exists.1 (List.find?_isSome.2 ⟨s, hs, by simpa using hname⟩)
      have huname : u.name = name := by simpa using List.find?_some hu
      have hsame : c.find? name = some u :=
        find?_eq_some_iff.2 ⟨mem_stages_iff.1 (List.mem_of_find?_eq_some hu), huname⟩
      rw [find?_eq_some_iff.2 ⟨mem_stages_iff.1 hs, hname⟩] at hsame
      rw [hu, hsame]
  calc c.table.lookup name
      = match c.stages.find? fun s ↦ s.name == name with
        | some s => .ok s
        | none => .error (.unknownStage name) := rfl
    _ = _ := by rw [hfind]

theorem resolve_table (c : Chain) (s : Stage) :
    c.table.resolve s = match c.resolve? s with
      | some t => .ok t
      | none => .error (.unknownStage s.name) := by
  unfold Table.resolve
  rw [lookup_table, ← resolve?_eq_find?, show c.table.stages[s.index]? = c.at? s.index from
    c.getElem?_stages s.index]
  split
  · next found hfound =>
    split
    · next hself =>
      subst hself
      rw [resolve?, if_pos hfound]
    · rfl
  · rfl

theorem contains_table (c : Chain) (s : Stage) : c.table.contains s = c.contains s := by
  unfold Table.contains contains
  rw [show c.table.stages[s.index]? = c.at? s.index from c.getElem?_stages s.index]

theorem next?_table (c : Chain) (s : Stage) : c.table.next? s = c.next? s :=
  c.getElem?_stages (s.index + 1)

theorem prev?_table (c : Chain) (s : Stage) : c.table.prev? s = c.prev? s := by
  unfold Table.prev? prev?
  cases s.index with
  | zero => rfl
  | succ i => exact c.getElem?_stages i

/-- A stage is below its next one, and nothing else is. -/
theorem next?_eq_some_iff (hs : c.contains s = true) :
    c.next? s = some t ↔ c.contains t = true ∧ c.prev? t = some s := by
  constructor
  · intro h
    exact ⟨contains_of_next? h, (prev?_iff_index hs).2 (index_of_next? h).symm⟩
  · rintro ⟨ht, h⟩
    exact (next?_iff_index ht).2 (index_of_prev? h).symm

theorem next?_eq_none_iff : c.next? s = none ↔ c.size ≤ s.index + 1 := by
  unfold next? at? size
  rw [Option.map_eq_none_iff, List.getElem?_eq_none_iff]

theorem prev?_eq_none_iff (hs : c.contains s = true) : c.prev? s = none ↔ s = Stage.floor := by
  constructor
  · intro hnone
    refine eq_of_index_eq hs c.contains_floor (Nat.eq_zero_of_not_pos fun hpos ↦ ?_)
    obtain ⟨below, hbelow⟩ := exists_prev? hs hpos
    rw [hnone] at hbelow
    exact absurd hbelow (by simp)
  · rintro rfl
    rfl

theorem getLast?_stages (hs : c.contains s = true) :
    c.stages.getLast? = some s ↔ c.size ≤ s.index + 1 := by
  have hlt := index_lt_size hs
  rw [List.getLast?_eq_getElem?, length_stages, getElem?_stages, at?_eq_some_iff]
  constructor
  · rintro ⟨hindex, -⟩
    omega
  · intro hle
    have hindex : s.index = c.size - 1 := by omega
    exact ⟨hindex, hindex ▸ contains_iff.1 hs⟩

theorem proper_table (blank : ∀ name ∈ c.names, Text.isBlank name = false) :
    c.table.Proper where
  floor_first := by
    rw [List.head?_eq_getElem?]
    exact (c.getElem?_stages 0).trans (at?_eq_some_iff.2 ⟨rfl, contains_iff.1 c.contains_floor⟩)
  blank s hs := blank s.name (c.names_stages ▸ List.mem_map_of_mem hs)
  nodup := by
    rw [show c.table.stages.map Stage.name = c.names from c.names_stages]
    exact c.nodup
  index_eq i s h := (at?_eq_some_iff.1 ((c.getElem?_stages i).symm.trans h)).1
  next?_iff s hs u := by
    rw [next?_table, prev?_table, next?_eq_some_iff (mem_stages_iff.1 hs)]
    exact and_congr_left fun _ ↦ mem_stages_iff.symm
  last s hs := by
    rw [next?_table, next?_eq_none_iff]
    exact (getLast?_stages (mem_stages_iff.1 hs)).symm
  first s hs := by
    rw [prev?_table]
    exact prev?_eq_none_iff (mem_stages_iff.1 hs)

/-! Names put into a chain. -/

/-- The name that another one is to stand next to has some names below it and some above it. -/
theorem eq_of_idxOf? {names : List String} {anchor : String} {i : Nat}
    (h : names.idxOf? anchor = some i) :
    names = names.take i ++ anchor :: names.drop (i + 1) := by
  obtain ⟨hlt, heq, -⟩ := List.idxOf?_eq_some_iff.1 h
  conv_lhs => rw [← List.take_append_drop i names, ← List.getElem_cons_drop hlt, heq]

theorem mem_of_idxOf? {names : List String} {anchor : String} {i : Nat}
    (h : names.idxOf? anchor = some i) : anchor ∈ names := by
  rw [eq_of_idxOf? h]
  exact List.mem_append_right _ List.mem_cons_self

theorem exists_idxOf? {names : List String} {anchor : String} (h : anchor ∈ names) :
    ∃ i, names.idxOf? anchor = some i :=
  Option.isSome_iff_exists.1 (List.isSome_idxOf?.2 h)

/-- Only the floor has its name. -/
theorem ne_floor_of_idxOf? {anchor : String} {i : Nat}
    (h : c.names.idxOf? anchor = some (i + 1)) : anchor ≠ Stage.floor.name := by
  rintro rfl
  obtain ⟨hlt, -, hfirst⟩ := List.idxOf?_eq_some_iff.1 h
  refine hfirst 0 i.succ_pos ?_
  exact (List.getElem?_eq_some_iff.1 (contains_iff.1 c.contains_floor)).2

/-- What has been put in could be put in, and stands where it was to stand. -/
theorem placed_of_insert (h : c.insert name placement = .ok d) :
    c.draft.Admits name placement ∧ Draft.Placed c.names name placement d.names := by
  unfold insert at h
  split at h
  · exact absurd h (by simp)
  next hblank =>
  rw [Bool.not_eq_true] at hblank
  split at h
  · exact absurd h (by simp)
  next hfresh =>
  cases placement with
  | atEnd =>
    obtain rfl := Except.ok.inj h
    refine ⟨⟨hblank, hfresh, by simp, by simp⟩, ?_⟩
    simp [Draft.Placed, place, size]
  | after anchor =>
    simp only at h
    split at h
    · exact absurd h (by simp)
    next i hi =>
    obtain rfl := Except.ok.inj h
    refine ⟨⟨hblank, hfresh, ?_, by simp⟩, c.names.take i, c.names.drop (i + 1),
      eq_of_idxOf? hi, ?_⟩
    · rintro _ (heq | heq) <;> cases heq
      exact mem_of_idxOf? hi
    · obtain ⟨hlt, heq, -⟩ := List.idxOf?_eq_some_iff.1 hi
      simp [place, List.take_succ_eq_append_getElem hlt, heq]
  | before anchor =>
    simp only at h
    split at h
    · exact absurd h (by simp)
    · exact absurd h (by simp)
    next i hi =>
    obtain rfl := Except.ok.inj h
    refine ⟨⟨hblank, hfresh, ?_, ?_⟩, c.names.take (i + 1), c.names.drop (i + 1 + 1),
      eq_of_idxOf? hi, ?_⟩
    · rintro _ (heq | heq) <;> cases heq
      exact mem_of_idxOf? hi
    · rw [ne_eq, Placement.before.injEq]
      exact ne_floor_of_idxOf? hi
    · obtain ⟨hlt, heq, -⟩ := List.idxOf?_eq_some_iff.1 hi
      simp only [place]
      rw [← heq, List.getElem_cons_drop hlt]

theorem exists_insert (admits : c.draft.Admits name placement) :
    ∃ d, c.insert name placement = .ok d := by
  unfold insert
  rw [if_neg (by simp [admits.blank]), dif_neg (show name ∉ c.names from admits.fresh)]
  cases placement with
  | atEnd => exact ⟨_, rfl⟩
  | after anchor =>
    obtain ⟨i, hi⟩ := exists_idxOf? (admits.anchored anchor (.inl rfl))
    simp only [show c.names.idxOf? anchor = some i from hi]
    exact ⟨_, rfl⟩
  | before anchor =>
    obtain ⟨i, hi⟩ := exists_idxOf? (admits.anchored anchor (.inr rfl))
    cases i with
    | zero =>
      -- The anchor would be the floor.
      obtain ⟨hlt, heq, -⟩ := List.idxOf?_eq_some_iff.1 hi
      have hfloor := (List.getElem?_eq_some_iff.1 (contains_iff.1 c.contains_floor)).2
      exact absurd (congrArg Placement.before (heq.symm.trans hfloor)) admits.above
    | succ i =>
      simp only [show c.names.idxOf? anchor = some (i + 1) from hi]
      exact ⟨_, rfl⟩

end Chain

namespace Draft

variable {names all : List String} {name : String} {placement : Chain.Placement}

theorem Placed.mem (h : Placed names name placement all) {other : String} (hother : other ∈ all) :
    other = name ∨ other ∈ names := by
  cases placement with
  | atEnd =>
    obtain rfl := h
    simpa [or_comm] using hother
  | after anchor =>
    obtain ⟨below, above, rfl, rfl⟩ := h
    simp only [List.mem_append, List.mem_cons] at hother ⊢
    tauto
  | before anchor =>
    obtain ⟨below, above, rfl, rfl⟩ := h
    simp only [List.mem_append, List.mem_cons] at hother ⊢
    tauto

/-- Without the new name the others stand as they did. -/
theorem Placed.erase (h : Placed names name placement all) (fresh : name ∉ names) :
    all.erase name = names := by
  cases placement with
  | atEnd =>
    obtain rfl := h
    rw [List.erase_append_right _ fresh]
    simp
  | after anchor =>
    obtain ⟨below, above, rfl, rfl⟩ := h
    simp only [List.mem_append, List.mem_cons, not_or] at fresh
    rw [List.erase_append_right _ fresh.1, List.erase_cons_tail (by simpa using Ne.symm fresh.2.1),
      List.erase_cons_head]
  | before anchor =>
    obtain ⟨below, above, rfl, rfl⟩ := h
    simp only [List.mem_append, not_or] at fresh
    rw [List.erase_append_right _ fresh.1, List.erase_cons_head]

theorem insertIdx_eq {i : Nat} (h : i ≤ names.length) (name : String) :
    names.insertIdx i name = names.take i ++ name :: names.drop i := by
  obtain ⟨below, above, rfl, rfl, hinsert⟩ := List.exists_of_modifyTailIdx (name :: ·) h
  rw [List.take_left, List.drop_left]
  exact hinsert

end Draft

namespace Chain

/-! Chains and drafts that grow side by side. -/

theorem add_draft (c : Chain) (name : String) (placement : Placement) :
    c.draft.add name placement = (c.insert name placement).map draft := by
  unfold Draft.add Draft.check insert
  by_cases hblank : Text.isBlank name = true
  · rw [if_pos hblank, if_pos hblank]
    rfl
  rw [if_neg hblank, if_neg hblank]
  by_cases hfresh : name ∈ c.names
  · rw [dif_pos hfresh, if_pos (show name ∈ c.draft.names from hfresh)]
    rfl
  rw [dif_neg hfresh, if_neg (show name ∉ c.draft.names from hfresh)]
  have hplace : ∀ {i : Nat} (above : 0 < i), i ≤ c.names.length →
      (⟨c.names.insertIdx i name⟩ : Draft) = (c.place name i hfresh above).draft :=
    fun _ hle ↦ congrArg Draft.mk (Draft.insertIdx_eq hle name)
  cases placement with
  | atEnd =>
    refine congrArg Except.ok (congrArg Draft.mk ?_)
    simp [draft, place, size]
  | after anchor =>
    simp only [Except.bind, Draft.position, draft]
    cases hi : c.names.idxOf? anchor with
    | none => rfl
    | some i =>
      obtain ⟨hlt, -⟩ := List.idxOf?_eq_some_iff.1 hi
      exact congrArg Except.ok (hplace i.succ_pos hlt)
  | before anchor =>
    simp only [Except.bind, Draft.position, draft]
    cases hi : c.names.idxOf? anchor with
    | none => rfl
    | some i =>
      obtain ⟨hlt, -⟩ := List.idxOf?_eq_some_iff.1 hi
      cases i with
      | zero => rfl
      | succ i => exact congrArg Except.ok (hplace i.succ_pos (Nat.le_of_lt hlt))

theorem addAll_draft (c : Chain) (calls : List (String × Placement)) :
    c.draft.addAll calls = (c.insertAll calls).draft := by
  induction calls generalizing c with
  | nil => rfl
  | cons call calls ih =>
    have hstep : (c.draft.add call.1 call.2).toOption.getD c.draft =
        ((c.insert call.1 call.2).toOption.getD c).draft := by
      rw [add_draft]
      cases c.insert call.1 call.2 <;> rfl
    unfold Draft.addAll insertAll
    rw [List.foldl_cons, List.foldl_cons, hstep]
    exact ih _

/-- A standard stage at its standard place is no other than the one that would be made there. -/
theorem build_draft (c : Chain) : c.draft.build = c.table := by
  have hbuiltin : Table.builtin = standard.stages := by decide
  refine congrArg Table.mk (congrArg (c.names.mapIdx ·) ?_)
  funext i name
  split
  · next s hs =>
    rw [hbuiltin, getElem?_stages, at?_eq_some_iff] at hs
    split
    · next hname =>
      obtain ⟨rfl, -⟩ := hs
      rw [← hname]
    · rfl
  · rfl

/-- No call puts in a blank. -/
theorem blank_insertAll {c : Chain} (blank : ∀ name ∈ c.names, Text.isBlank name = false)
    (calls : List (String × Placement)) :
    ∀ name ∈ (c.insertAll calls).names, Text.isBlank name = false := by
  induction calls generalizing c with
  | nil => exact blank
  | cons call calls ih =>
    refine ih fun name hname ↦ ?_
    change name ∈ ((c.insert call.1 call.2).toOption.getD c).names at hname
    cases hinsert : c.insert call.1 call.2 with
    | error e =>
      rw [hinsert] at hname
      exact blank name hname
    | ok d =>
      rw [hinsert] at hname
      obtain ⟨admits, hplaced⟩ := placed_of_insert hinsert
      rcases hplaced.mem hname with rfl | hold
      · exact admits.blank
      · exact blank name hold

end Chain

namespace Seed

theorem draft_chain (seed : Seed) : seed.chain.draft = seed.draft := by
  cases seed <;> rfl

theorem addAll_draft (seed : Seed) (calls : List (String × Chain.Placement)) :
    seed.draft.addAll calls = (seed.chain.insertAll calls).draft := by
  rw [← seed.draft_chain, Chain.addAll_draft]

theorem blank_chain (seed : Seed) : ∀ name ∈ seed.chain.names, Text.isBlank name = false := by
  cases seed <;> decide

end Seed

namespace Draft

theorem addAll_concat (d : Draft) (calls : List (String × Chain.Placement)) (name : String)
    (placement : Chain.Placement) :
    d.addAll (calls ++ [(name, placement)]) =
      ((d.addAll calls).add name placement).toOption.getD (d.addAll calls) := by
  unfold addAll
  rw [List.foldl_append]
  rfl

/-- Whatever calls a draft has grown by, its table is a proper one: it has the names of the draft
and the stages of the chain that has grown by the same calls. One more name is put in if and only if
the draft admits it, and then it stands where it was to stand, and the others stand as they did; a
call that is refused leaves the draft as it is. The chain takes in and refuses the same. -/
theorem drafts_proper (seed : Seed) (calls : List (String × Chain.Placement)) :
    let d := seed.draft.addAll calls
    let c := seed.chain.insertAll calls
    d.build.Proper ∧ d.build.stages.map Stage.name = d.names ∧ d.build.stages = c.stages ∧
    ∀ name placement,
      d.add name placement = (c.insert name placement).map Chain.draft ∧
      (d.Admits name placement → ∃ grown, d.add name placement = .ok grown ∧
        seed.draft.addAll (calls ++ [(name, placement)]) = grown ∧
        Placed d.names name placement grown.names ∧ grown.names.erase name = d.names) ∧
      (¬ d.Admits name placement → ∃ error, d.add name placement = .error error ∧
        seed.draft.addAll (calls ++ [(name, placement)]) = d) := by
  intro d c
  have hd : d = c.draft := seed.addAll_draft calls
  have hconcat := fun name placement ↦ seed.draft.addAll_concat calls name placement
  change ∀ name placement, _ = (d.add name placement).toOption.getD d at hconcat
  rw [hd] at hconcat ⊢
  rw [c.build_draft]
  refine ⟨Chain.proper_table (Chain.blank_insertAll seed.blank_chain calls), c.names_stages, rfl,
    fun name placement ↦ ⟨c.add_draft name placement, ?_, ?_⟩⟩
  · intro admits
    obtain ⟨grown, hinsert⟩ := Chain.exists_insert admits
    obtain ⟨-, hplaced⟩ := Chain.placed_of_insert hinsert
    have hadd : c.draft.add name placement = .ok grown.draft := by
      rw [c.add_draft, hinsert]
      rfl
    refine ⟨grown.draft, hadd, ?_, hplaced, hplaced.erase admits.fresh⟩
    rw [hconcat, hadd]
    rfl
  · intro hrefused
    cases hinsert : c.insert name placement with
    | ok grown => exact absurd (Chain.placed_of_insert hinsert).1 hrefused
    | error error =>
      have hadd : c.draft.add name placement = .error error := by
        rw [c.add_draft, hinsert]
        rfl
      refine ⟨error, hadd, ?_⟩
      rw [hconcat, hadd]
      rfl

/-- Calls half of which are refused: for a blank, a name that is there, an anchor that is not, and a
place below the floor. -/
def muddled : List (String × Chain.Placement) :=
  [("Run", .atEnd), (" ", .atEnd), ("Test", .after "Fetch"), ("Fetch", .before "Run"),
    ("Run", .after "Fetch"), ("Test", .after "Fetch"), ("Boot", .before "NotInstalled")]

theorem drafts_proper_muddled :
    let d := Seed.floor.draft.addAll muddled
    d.names = ["NotInstalled", "Fetch", "Test", "Run"] ∧ d.build.Proper ∧
      d.build.stages.map Stage.name = d.names ∧ d.build.next? ⟨"Test", 2⟩ = some ⟨"Run", 3⟩ ∧
      ∃ error, d.add "Boot" (.before "NotInstalled") = .error error ∧
        Seed.floor.draft.addAll (muddled ++ [("Boot", .before "NotInstalled")]) = d := by
  intro d
  obtain ⟨hproper, hnames, -, hcalls⟩ := drafts_proper .floor muddled
  refine ⟨by decide +kernel, hproper, hnames, by decide +kernel, ?_⟩
  exact (hcalls "Boot" (.before "NotInstalled")).2.2 fun admits ↦ admits.above rfl

end Draft

namespace Table

/-- In the table of a draft that has grown by whatever calls, a stage stands for what is found under
its name, whatever place it names. What is found belongs to the table and stands for itself; stages
of one name stand for the same; and only a stage whose name is not in the draft stands for nothing.
The chain that has grown by the same calls finds the same. -/
theorem tables_resolve (seed : Seed) (calls : List (String × Chain.Placement)) (s : Stage) :
    let d := seed.draft.addAll calls
    d.build.resolve s = d.build.lookup s.name ∧
    (∀ found, d.build.resolve s = .ok found → d.build.contains found = true ∧
      found.name = s.name ∧ d.build.resolve found = .ok found) ∧
    (∀ other : Stage, other.name = s.name → d.build.resolve other = d.build.resolve s) ∧
    (d.build.resolve s = .error (.unknownStage s.name) ↔ s.name ∉ d.names) ∧
    ∀ found, d.build.resolve s = .ok found ↔
      (seed.chain.insertAll calls).resolve? s = some found := by
  intro d
  rw [show d = _ from seed.addAll_draft calls, Chain.build_draft]
  generalize seed.chain.insertAll calls = c
  have hfound : ∀ other found, c.table.resolve other = .ok found ↔
      c.contains found = true ∧ found.name = other.name := by
    intro other found
    rw [← Chain.resolve?_eq_some_iff, c.resolve_table]
    cases c.resolve? other <;> simp
  refine ⟨?_, fun found h ↦ ?_, fun other hother ↦ ?_, ?_, fun found ↦ ?_⟩
  · rw [c.resolve_table, c.lookup_table, c.resolve?_eq_find?]
  · obtain ⟨hcontains, hname⟩ := (hfound s found).1 h
    exact ⟨(c.contains_table found).trans hcontains, hname, (hfound found found).2 ⟨hcontains, rfl⟩⟩
  · rw [c.resolve_table, c.resolve_table, c.resolve?_eq_find?, c.resolve?_eq_find?, hother]
  · rw [c.resolve_table, show s.name ∉ c.draft.names ↔ ¬ (c.resolve? s).isSome = true from
      not_congr Chain.isSome_resolve?_iff.symm]
    cases c.resolve? s <;> simp
  · rw [hfound, Chain.resolve?_eq_some_iff]

/-- One more stage among the standard ones, which moves those above it one place up. -/
def shifted : List (String × Chain.Placement) := [("PostDescribe", .after "Describe")]

theorem tables_resolve_shifted :
    let d := Seed.standard.draft.addAll shifted
    d.build.resolve ⟨"ClassLoader", 5⟩ = .ok ⟨"ClassLoader", 6⟩ ∧
      d.build.resolve ⟨"ClassLoader", 40⟩ = .ok ⟨"ClassLoader", 6⟩ ∧
      d.build.resolve ⟨"PostDescribe", 5⟩ = .ok ⟨"PostDescribe", 5⟩ ∧
      d.build.resolve ⟨"Fetch", 1⟩ = .error (.unknownStage "Fetch") := by
  intro d
  have hloader : d.build.resolve ⟨"ClassLoader", 5⟩ = .ok ⟨"ClassLoader", 6⟩ := by decide +kernel
  obtain ⟨-, -, halike, -⟩ := tables_resolve .standard shifted ⟨"ClassLoader", 5⟩
  obtain ⟨-, -, -, hunknown, -⟩ := tables_resolve .standard shifted ⟨"Fetch", 1⟩
  exact ⟨hloader, (halike ⟨"ClassLoader", 40⟩ rfl).trans hloader, by decide +kernel,
    hunknown.2 (by decide +kernel)⟩

end Table

end Rollout
