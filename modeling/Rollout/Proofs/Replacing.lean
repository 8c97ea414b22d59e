import Rollout.Proofs.Climbing

/-!
Taking out and planting side by side. Which trees can be taken out is read off the board, and which
slots they leave, and are handed out to new trees, off the shape of the forest. So two runs that
match in the scope of a group take out and plant the same trees on the same slots, and match then.
-/

set_option autoImplicit false
set_option relaxedAutoImplicit false

namespace Rollout

variable {β σ : Type}

namespace Forest

variable {f g : Forest β}

/-- The places of all units and the free slots make up the shape. -/
theorem sameShape_of_node? (hlength : g.slots.length = f.slots.length) (hfree : g.free = f.free)
    (hnode : ∀ h, g.node? h = f.node? h) : SameShape f g := by
  refine ⟨List.ext_getElem? fun h ↦ ?_, hfree.symm⟩
  have hsame := hnode h
  rw [node?_eq_skeleton, node?_eq_skeleton] at hsame
  by_cases hlt : h < f.slots.length
  · have hf : h < f.skeleton.length := by
      unfold skeleton
      rwa [List.length_map]
    have hg : h < g.skeleton.length := by
      unfold skeleton
      rwa [List.length_map, hlength]
    rw [List.getElem?_eq_getElem hf, List.getElem?_eq_getElem hg] at hsame ⊢
    exact congrArg some hsame.symm
  · have hf : f.skeleton.length ≤ h := by
      unfold skeleton
      rw [List.length_map]
      exact Nat.le_of_not_lt hlt
    have hg : g.skeleton.length ≤ h := by
      unfold skeleton
      rw [List.length_map, hlength]
      exact Nat.le_of_not_lt hlt
    rw [List.getElem?_eq_none hf, List.getElem?_eq_none hg]

/-- Uprooting the tree on one handle takes forests of one shape to forests of one shape. -/
theorem SameShape.uproot (same : SameShape f g) (sound : f.Sound) {root : Handle} {t : Node}
    (ht : f.node? root = some t) (hkind : t.kind = .topLevel) :
    SameShape (f.uproot root).2 (g.uproot root).2 := by
  have ht' : g.node? root = some t := by rw [← same.node?, ht]
  have hfree : ∀ {k : Forest β}, k.Sound → k.node? root = some t →
      (k.uproot root).2.free = (k.tree root).reverse ++ k.free := fun {k} hk htk ↦ by
    obtain ⟨_, hnodup, hmem⟩ := hk.tree_spec htk hkind
    refine (clear_eq hnodup fun h hh ↦ ?_).2
    obtain ⟨n, hn, _⟩ := (hmem h).1 hh
    obtain ⟨u, hu, _⟩ := node?_eq_some_iff.1 hn
    exact ⟨u, hu⟩
  refine sameShape_of_node? ?_ ?_ fun h ↦ ?_
  · unfold Forest.uproot
    rw [length_clear, length_clear, same.length]
  · rw [hfree sound ht, hfree (sound.of_sameShape same) ht', same.tree, same.free]
  · rw [node?_uproot, node?_uproot, same.tree, same.node?]

theorem SameShape.stock (same : SameShape f g) : g.stock = f.stock := by
  unfold Forest.stock
  rw [same.free, same.length]

theorem SameShape.layout (same : SameShape f g) (b : Blueprint) : g.layout b = f.layout b := by
  unfold Forest.layout
  rw [same.stock]

/-- Planting a tree takes forests of one shape to forests of one shape. -/
theorem SameShape.settle (same : SameShape f g) (sound : f.Sound) (b : Blueprint) :
    SameShape (f.settle (f.layout b)) (g.settle (f.layout b)) := by
  have hlaid := sound.laid b
  have hlaid' := (sound.of_sameShape same).laid b
  rw [same.layout] at hlaid'
  have hsettle : g.settle (f.layout b) = g.settle (g.layout b) := by rw [same.layout]
  refine sameShape_of_node? ?_ rfl fun h ↦ ?_
  · rw [hsettle, length_settle_layout, length_settle_layout, same.free, same.length]
  · refine Option.ext fun n ↦ ⟨fun hn ↦ ?_, fun hn ↦ ?_⟩
    · rcases hlaid'.cases hn with ⟨u, hu, rfl, rfl⟩ | hn
      · exact hlaid.node?_of_mem hu
      · exact hlaid.node? ((same.node? h).trans hn)
    · rcases hlaid.cases hn with ⟨u, hu, rfl, rfl⟩ | hn
      · exact hlaid'.node?_of_mem hu
      · exact hlaid'.node? ((same.node? h).symm.trans hn)

/-- Where one tree has been laid out in forests of one shape, a slot holds the same new unit in
both, or what it held before in both. -/
theorem Laid.beside {f' g' : Forest β} {b : Blueprint} {root h : Handle} {us : List (LiveUnit β)}
    (laid : Laid f b root us f') (laid' : Laid g b root us g') (same : SameShape f g)
    {u v : LiveUnit β} (hu : f'.get? h = some u) (hv : g'.get? h = some v) :
    v = u ∨ f.get? h = some u ∧ g.get? h = some v := by
  rcases laid.get?.1 hu with ⟨hu, hid⟩ | hu
  · rcases laid'.get?.1 hv with ⟨hv, hid'⟩ | hv
    · exact Or.inl (List.inj_on_of_nodup_map laid.nodup hv hu (hid'.trans hid.symm))
    · have hnone := laid.vacant u hu
      rw [same.node?, hid, node?_of_get? hv] at hnone
      exact absurd hnone (by simp)
  · rcases laid'.get?.1 hv with ⟨hv, hid'⟩ | hv
    · have hnone := laid.vacant v hv
      rw [hid', node?_of_get? hu] at hnone
      exact absurd hnone (by simp)
    · exact Or.inr ⟨hu, hv⟩

end Forest

namespace Controller

variable {c d k m : Controller β σ} {group : String → Prop}
  {root : Handle} {p : Progress} {h : Handle} {b : Blueprint}

/-! Taking out. -/

theorem discardable_eq (c : Controller β σ) : c.discardable = c.board.order.filter fun h ↦
    (c.board.get? h).any fun p ↦ p.removing && p.stage.isFloor := by
  unfold discardable Board.tracked
  rw [List.filter_filterMap, List.map_filterMap, ← List.filterMap_eq_filter]
  refine List.filterMap_congr fun h _ ↦ ?_
  cases hp : c.board.get? h with
  | none => simp [Option.guard, hp]
  | some p =>
    have hroot := Board.root_of_get? hp
    cases hremoving : p.removing <;> cases hfloor : p.stage.isFloor <;>
      simp [Option.guard, hp, hremoving, hfloor, hroot]

/-- The same trees can be taken out on both sides. -/
theorem Beside.discardable (beside : Beside group c d) : d.discardable = c.discardable := by
  have hnone : ∀ (c : Controller β σ) (h : Handle), ¬ (c.scope group).seen h →
      (c.board.get? h).any (fun p ↦ p.removing && p.stage.isFloor) = false := fun c h hseen ↦ by
    refine Bool.of_not_eq_true fun hany ↦ ?_
    obtain ⟨p, hp, hgoing⟩ := (Option.any_eq_true _ _).1 hany
    exact hseen ⟨p, hp, Or.inl (Bool.and_eq_true_iff.1 hgoing).1⟩
  rw [discardable_eq, discardable_eq, beside.same.order]
  refine List.filter_congr fun h _ ↦ ?_
  by_cases hseen : (c.scope group).seen h
  · rw [beside.same.progress h hseen]
  · rw [hnone c h hseen, hnone d h (beside.scope ▸ hseen)]

/-- What is taken out leaves the scope of every group, and the rest of it stays as it is. -/
theorem Sound.scope_discard (sound : c.Sound) (group : String → Prop)
    (hp : c.board.get? root = some p) (hremoving : p.removing = true) :
    (c.discard root).scope group =
      ⟨fun h ↦ h ≠ root ∧ (c.scope group).whole h, fun h ↦ h ≠ root ∧ (c.scope group).seen h,
        (c.scope group).heard⟩ := by
  have hget : ∀ {h q}, (c.discard root).board.get? h = some q ↔
      h ≠ root ∧ c.board.get? h = some q := fun {h q} ↦ by
    rw [get?_board_discard hp]
    by_cases hh : h = root <;> simp [hh]
  unfold scope
  rw [Scope.mk.injEq]
  refine ⟨funext fun h ↦ ?_, funext fun h ↦ ?_, funext fun name ↦ propext
    ⟨fun hheard h q hq hstays hgroup ↦ ?_, fun hheard h q hq hstays hgroup ↦ ?_⟩⟩
  · simp [hget, and_assoc]
  · simp [hget, and_assoc]
  · have hne : h ≠ root := fun heq ↦ by
      subst heq
      obtain rfl := Option.some_inj.1 (hp.symm.trans hq)
      rw [hremoving] at hstays
      exact absurd hstays (by simp)
    have hnames := hheard h q (hget.2 ⟨hne, hq⟩) hstays hgroup
    unfold Forest.treeNames at hnames ⊢
    rwa [sound.treeUnits_discard hp hq hne] at hnames
  · obtain ⟨hne, hq⟩ := hget.1 hq
    have hnames := hheard h q hq hstays hgroup
    unfold Forest.treeNames at hnames ⊢
    rwa [sound.treeUnits_discard hp hq hne]

theorem low_discard (hp : c.board.get? root = some p) (low : ∀ h, c.Low h) (h : Handle) :
    (c.discard root).Low h :=
  fun q hq ↦ low h q (of_get?_discard hp hq).2

/-- A tree that is to be removed is taken out on both sides. -/
theorem Beside.discard (beside : Beside group c d) (hp : c.board.get? root = some p)
    (hremoving : p.removing = true) : Beside group (c.discard root) (d.discard root) := by
  have hp' : d.board.get? root = some p :=
    (beside.same.progress root ⟨p, hp, Or.inl hremoving⟩).trans hp
  obtain ⟨t, ht, hkind⟩ := beside.left.exists_top hp
  have hscope := beside.left.scope_discard group hp hremoving
  refine ⟨beside.left.discard hp, beside.right.discard hp', low_discard hp beside.low,
    low_discard hp' beside.low', ?_, ?_⟩
  · rw [hscope, beside.right.scope_discard group hp' hremoving, beside.scope]
  · have hget : ∀ {k : Handle} {u : LiveUnit β}, (c.forest.uproot root).2.get? k = some u →
        c.forest.get? k = some u := fun {k u} hu ↦
      ((beside.left.get?_forest_discard hp).1 (by rw [discard_eq hp]; exact hu)).1
    have hget' : ∀ {k : Handle} {v : LiveUnit β}, (d.forest.uproot root).2.get? k = some v →
        d.forest.get? k = some v := fun {k v} hv ↦
      ((beside.right.get?_forest_discard hp').1 (by rw [discard_eq hp']; exact hv)).1
    have same := beside.same
    rw [hscope, discard_eq hp, discard_eq hp']
    refine Matches.note ?_ rfl rfl
    refine ⟨same.shape.uproot beside.left.forest ht hkind, same.chain, same.target,
      same.roster, congrArg (List.filter (· != root)) same.order, fun h hh ↦ ?_,
      fun k u v hu hv hh ↦ same.record k u v (hget hu) (hget' hv) hh.2,
      fun k u v hu hv hh ↦ same.units k u v (hget hu) (hget' hv) hh.2, same.calls⟩
    show (d.board.leave root).get? h = (c.board.leave root).get? h
    rw [Board.get?_leave, Board.get?_leave, if_neg hh.1, if_neg hh.1]
    exact same.progress h hh.2

theorem Beside.discardEach (roots : List Handle) (beside : Beside group c d)
    (hnodup : roots.Nodup)
    (hroots : ∀ h ∈ roots, ∃ p, c.board.get? h = some p ∧ p.removing = true) :
    Beside group (roots.foldl (fun c root ↦ c.discard root) c)
      (roots.foldl (fun d root ↦ d.discard root) d) := by
  induction roots generalizing c d with
  | nil => exact beside
  | cons root roots ih =>
    obtain ⟨hroot, hrest⟩ := List.nodup_cons.1 hnodup
    obtain ⟨p, hp, hremoving⟩ := hroots root List.mem_cons_self
    refine ih (beside.discard hp hremoving) hrest fun h hh ↦ ?_
    obtain ⟨q, hq, hgoing⟩ := hroots h (List.mem_cons_of_mem _ hh)
    have hne : h ≠ root := fun heq ↦ hroot (heq ▸ hh)
    exact ⟨q, by rw [get?_board_discard hp, if_neg hne, hq], hgoing⟩

/-- Everything that is to be removed is taken out on both sides. -/
theorem Beside.sweep (beside : Beside group c d) : Beside group c.sweep d.sweep := by
  unfold Controller.sweep
  rw [beside.discardable]
  refine beside.discardEach _ (nodup_discardable beside.left) fun h hh ↦ ?_
  obtain ⟨p, hp, hremoving, _⟩ := (mem_discardable_iff beside.left).1 hh
  exact ⟨p, hp, hremoving⟩

/-- Taking out makes no calls. -/
theorem exists_removals (roots : List Handle) (c : Controller β σ) :
    ∃ es, (roots.foldl (fun c root ↦ c.discard root) c).journal.toList = c.journal.toList ++ es ∧
      ∀ e ∈ es, e.isCall = false := by
  induction roots generalizing c with
  | nil => exact ⟨[], (List.append_nil _).symm, by simp⟩
  | cons root roots ih =>
    obtain ⟨es, hes, hcalls⟩ := ih (c.discard root)
    cases hp : c.board.get? root with
    | none =>
      have hsame : c.discard root = c := by
        unfold discard
        rw [hp]
      rw [hsame] at hes
      rw [List.foldl_cons, hsame]
      exact ⟨es, hes, hcalls⟩
    | some p =>
      refine ⟨.removed root p.name (c.forest.uproot root).1 :: es, ?_, fun e he ↦ ?_⟩
      · rw [List.foldl_cons, hes, journal_discard hp, List.append_assoc]
        rfl
      · rcases List.mem_cons.1 he with rfl | he
        · rfl
        · exact hcalls e he

/-- What a batch tells of a deployment that is to be removed: what it has done while it moved what
was live, and then, among entries that are not calls, that the deployment is out. -/
theorem Parts.removed {crew : Crew β σ} {e : Controller β σ} (parts : Parts crew c m k e)
    (sound : c.Sound) (hp : c.board.get? h = some p) (hremoving : p.removing = true) :
    ∃ es rs fs, m.journal.toList = c.journal.toList ++ es ∧ (∀ e ∈ rs, e.isCall = false) ∧
      e.journal.toList =
        c.journal.toList ++ (es ++ rs) ++ .removed h p.name (c.forest.treeNames h) :: fs := by
  obtain ⟨hm, _⟩ := parts.sound sound
  have hmoves := (Turns.sound_moves parts.first sound).2
  obtain ⟨q, hq, hname, _, hgoing⟩ := hmoves.exists_get? hp
  obtain ⟨es, hes⟩ := Steps.continues parts.first.steps sound
  obtain ⟨rs, hrs, hcalls⟩ := exists_removals m.discardable m
  change m.sweep.journal.toList = _ at hrs
  obtain ⟨rs', hrs', hmem⟩ := parts.swept.told ((mem_discardable_of_low hm parts.low).2
    ⟨q, hq, hgoing.trans hremoving⟩) hq
  obtain rfl := List.append_cancel_left (hrs.symm.trans hrs')
  obtain ⟨pre, post, rfl⟩ := List.append_of_mem hmem
  obtain ⟨fs, hfs⟩ := parts.continues_sweep sound
  refine ⟨es, pre, post ++ fs, hes, fun e he ↦ hcalls e (List.mem_append_left _ he), ?_⟩
  rw [hfs, hrs, hes, hname, hmoves.shape.treeNames]
  simp only [List.append_assoc, List.cons_append]

/-! Planting. -/

/-- What is planted comes into the scope of its group. Its names are not heard any more if it has
another one. -/
theorem Sound.scope_settled (sound : c.Sound) (group : String → Prop) {f : Forest β}
    (planted : Forest.Planted c.forest b root f) : (c.settled b root f).scope group =
      ⟨fun h ↦ h = root ∧ group b.name ∨ (c.scope group).whole h,
        fun h ↦ h = root ∧ group b.name ∨ (c.scope group).seen h,
        fun name ↦ (c.scope group).heard name ∧ (¬ group b.name → name ∉ b.names)⟩ := by
  have hvacant := sound.vacant_of_planted planted
  have hroot : (c.settled b root f).board.get? root =
      some (Progress.start root b.name c.target) := get?_board_settled.trans (if_pos rfl)
  have hnames : ∀ {h : Handle} {q : Progress}, c.board.get? h = some q →
      f.treeNames h = c.forest.treeNames h := fun {h q} hq ↦ by
    unfold Forest.treeNames
    rw [sound.treeUnits_settled planted hq]
  unfold scope
  rw [Scope.mk.injEq]
  refine ⟨funext fun h ↦ propext ⟨?_, ?_⟩, funext fun h ↦ propext ⟨?_, ?_⟩,
    funext fun name ↦ propext ⟨fun hheard ↦ ⟨fun h q hq hstays hgroup ↦ ?_, fun hgroup ↦ ?_⟩,
      fun hheard h q hq hstays hgroup ↦ ?_⟩⟩
  · rintro ⟨q, hq, hstays, hgroup⟩
    rcases of_get?_settled hq with ⟨rfl, rfl⟩ | ⟨_, hq⟩
    · exact Or.inl ⟨rfl, hgroup⟩
    · exact Or.inr ⟨q, hq, hstays, hgroup⟩
  · rintro (⟨rfl, hgroup⟩ | ⟨q, hq, hstays, hgroup⟩)
    · exact ⟨_, hroot, rfl, hgroup⟩
    · exact ⟨q, sound.get?_settled planted hq, hstays, hgroup⟩
  · rintro ⟨q, hq, hseen⟩
    rcases of_get?_settled hq with ⟨rfl, rfl⟩ | ⟨_, hq⟩
    · exact Or.inl ⟨rfl, hseen.resolve_left (by simp [Progress.start])⟩
    · exact Or.inr ⟨q, hq, hseen⟩
  · rintro (⟨rfl, hgroup⟩ | ⟨q, hq, hseen⟩)
    · exact ⟨_, hroot, Or.inr hgroup⟩
    · exact ⟨q, sound.get?_settled planted hq, hseen⟩
  · rw [← hnames hq]
    exact hheard h q (sound.get?_settled planted hq) hstays hgroup
  · rw [← planted.names]
    exact hheard root _ hroot rfl hgroup
  · show name ∉ f.treeNames h
    rcases of_get?_settled hq with ⟨rfl, rfl⟩ | ⟨_, hq⟩
    · rw [planted.names]
      exact hheard.2 hgroup
    · rw [hnames hq]
      exact hheard.1 h q hq hstays hgroup

theorem low_settled {f : Forest β} (low : ∀ h, c.Low h) (h : Handle) :
    (c.settled b root f).Low h := by
  intro q hq
  rcases of_get?_settled hq with ⟨_, rfl⟩ | ⟨_, hq⟩
  · exact Nat.zero_le _
  · exact low h q hq

/-- A deployment is planted on the same slots on both sides. -/
theorem Beside.settled (beside : Beside group c d) (hqueue : c.queue = []) (hqueue' : d.queue = [])
    {root' : Handle} {f g : Forest β} (hplant : c.forest.plant b = .ok (root, f))
    (hplant' : d.forest.plant b = .ok (root', g)) :
    Beside group (c.settled b root f) (d.settled b root' g) := by
  have same := beside.same
  have hplanted := beside.left.forest.planted hplant
  have hplanted' := beside.right.forest.planted hplant'
  obtain ⟨hroot, hf, _⟩ := Forest.plant_eq_ok hplant
  obtain ⟨hroot', hg, _⟩ := Forest.plant_eq_ok hplant'
  obtain rfl : root' = root := by rw [hroot, hroot', same.shape.stock]
  have hlaid := beside.left.forest.laid b
  have hlaid' := beside.right.forest.laid b
  rw [← hroot, ← hf] at hlaid
  rw [← hroot', ← hg, same.shape.layout] at hlaid'
  have hscope := beside.left.scope_settled group hplanted
  have hold : ∀ {k : Handle} {u : LiveUnit β}, c.forest.get? k = some u → u.top ≠ root' :=
    fun hu ↦ hlaid.top_ne beside.left.forest (Forest.node?_of_get? hu)
  refine ⟨beside.left.settled hplanted hqueue, beside.right.settled hplanted' hqueue',
    low_settled beside.low, low_settled beside.low', ?_, ?_⟩
  · rw [hscope, beside.right.scope_settled group hplanted', beside.scope]
  · rw [hscope]
    refine Matches.note ?_ rfl rfl
    refine ⟨?_, same.chain, same.target, same.roster, congrArg (· ++ [root']) same.order,
      fun h hh ↦ ?_, fun k u v hu hv hh ↦ ?_, fun k u v hu hv hh ↦ ?_,
      fun names hnames ↦ same.calls names fun name hname ↦ (hnames name hname).1⟩
    · have hsettle := same.shape.settle beside.left.forest b
      rw [hf, hg, same.shape.layout]
      exact hsettle
    · show (d.board.enter root' b.name d.target).get? h =
        (c.board.enter root' b.name c.target).get? h
      rw [Board.get?_enter, Board.get?_enter, same.target]
      split
      · rfl
      · next hne => exact same.progress h (hh.resolve_left fun heq ↦ hne heq.1)
    · rcases hlaid.beside hlaid' same.shape hu hv with rfl | ⟨hu, hv⟩
      · exact ⟨rfl, rfl⟩
      · exact same.record k u v hu hv (hh.resolve_left fun heq ↦ hold hu heq.1)
    · rcases hlaid.beside hlaid' same.shape hu hv with rfl | ⟨hu, hv⟩
      · rfl
      · exact same.units k u v hu hv (hh.resolve_left fun heq ↦ hold hu heq.1)

/-- A queue is planted in step. -/
theorem Beside.plantAll {bs : List Blueprint} (beside : Beside group c d) (hqueue : c.queue = [])
    (hqueue' : d.queue = []) (hplant : Controller.plantAll bs c = (m, none))
    (hplant' : Controller.plantAll bs d = (k, none)) : Beside group m k := by
  induction bs generalizing c d with
  | nil =>
    obtain rfl : c = m := congrArg Prod.fst hplant
    obtain rfl : d = k := congrArg Prod.fst hplant'
    exact beside
  | cons b bs ih =>
    obtain ⟨root, f, hroot, hrest⟩ := plantAll_cons hplant
    obtain ⟨root', g, hroot', hrest'⟩ := plantAll_cons hplant'
    exact ih (beside.settled hqueue hqueue' hroot hroot') hqueue hqueue' hrest hrest'

/-- Between moving what was live and moving what is live then, two runs take out and plant in
step. -/
theorem Beside.replaced {crew crew' : Crew β σ} {m m' k k' e e' : Controller β σ}
    (beside : Beside group m m') (parts : Parts crew c m k e) (parts' : Parts crew' c m' k' e') :
    Beside group k k' := by
  have hswept := beside.sweep
  have hempty : Beside group { m.sweep with queue := [] } { m'.sweep with queue := [] } := by
    refine ⟨hswept.left.requeue (List.nil_sublist _), hswept.right.requeue (List.nil_sublist _),
      hswept.low, hswept.low', hswept.scope, ?_⟩
    have same := hswept.same
    exact ⟨same.shape, same.chain, same.target, same.roster, same.order, same.progress, same.record,
      same.units, same.calls⟩
  exact hempty.plantAll rfl rfl parts.planted parts'.planted

end Controller

end Rollout
