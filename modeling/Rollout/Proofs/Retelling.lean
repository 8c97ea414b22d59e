import Rollout.Proofs.Requests

/-!
What the events tell. A client that sees nothing but the events can keep the stage of every
deployment: one that is added stands on the floor, and from then on it goes up and down as it is
told. What it keeps is always what the board tracks, and no event it is sent ever comes as a
surprise: names are new when they are added, and stages are entered and left one at a time.
-/

set_option autoImplicit false
set_option relaxedAutoImplicit false

namespace Rollout

variable {β σ : Type}

/-- The text in a field of an event. -/
def Event.text? (e : Event) (key : String) : Option String :=
  match e.data.bind (Json.field? key) with
  | some (.text s) => some s
  | _ => none

/-- The stages of the deployments that a client knows of, by name. -/
abbrev Known := String → Option Stage

namespace Known

/-- A client that knows of no deployment. -/
def nothing : Known := fun _ ↦ none

/-- What a client knows after an event, unless this one does not go with what it knew. -/
def learn? (chain : Chain) (known : Known) (e : Event) : Option Known :=
  if e.type = "deployment.added" then do
    let name ← e.text? "deployment"
    if known name = none then some (Function.update known name (some Stage.floor)) else none
  else if e.type = "deployment.removed" then do
    let name ← e.text? "deployment"
    if known name = none then none else some (Function.update known name none)
  else if e.type = "unit.stage_entered" then do
    let name ← e.text? "deployment"
    let next ← (known name).bind chain.next?
    if e.text? "stage" = some next.name then some (Function.update known name (some next))
      else none
  else if e.type = "unit.stage_left" then do
    let name ← e.text? "deployment"
    let held ← known name
    let below ← chain.prev? held
    if e.text? "stage" = some held.name ∧ e.text? "now" = some below.name then
      some (Function.update known name (some below))
    else none
  else some known

/-- What a client knows after some events. -/
def learnAll? (chain : Chain) (known : Known) (es : List Event) : Option Known :=
  es.foldlM (learn? chain) known

end Known

/-- Whether an entry leaves every deployment where it is. -/
def Entry.isStill : Entry β → Bool
  | added .. => false
  | removed .. => false
  | advanced .. => false
  | retreated .. => false
  | _ => true

theorem Entry.isStill_of_ofCrew {e : Entry β} (hcrew : e.ofCrew = true) : e.isStill = true := by
  cases e <;> first | rfl | exact absurd hcrew (by simp [ofCrew, isCall])

namespace Known

/-- What a client knows after the events of some entries of a journal. -/
def hear? (chain : Chain) (time : String) (known : Known) (es : List (Entry β)) : Option Known :=
  known.learnAll? chain (es.filterMap (Entry.event? time))

variable {chain : Chain} {known : Known} {time : String}

theorem hear?_append (es fs : List (Entry β)) : known.hear? chain time (es ++ fs) =
    (known.hear? chain time es).bind fun known ↦ known.hear? chain time fs := by
  unfold hear? learnAll?
  rw [List.filterMap_append]
  exact List.foldlM_append

/-! One entry of each kind. -/

theorem hear?_still {e : Entry β} (hstill : e.isStill = true) :
    known.hear? chain time [e] = some known := by
  cases e
  case added | removed | advanced | retreated => exact absurd hstill (by simp [Entry.isStill])
  case failed | parked | completed =>
    simp [hear?, learnAll?, learn?, Entry.event?, Event.ofFields]
  all_goals rfl

theorem hear?_added {root : Handle} {b : Blueprint} {units : Nat} {target : Stage}
    (hnew : known b.name = none) :
    known.hear? chain time [(.added root b units target : Entry β)] =
      some (Function.update known b.name (some Stage.floor)) := by
  simp [hear?, learnAll?, learn?, Entry.event?, Event.ofFields, Event.text?, Json.field?, hnew]

theorem hear?_removed {root : Handle} {name : String} {units : List String} {stage : Stage}
    (hknown : known name = some stage) :
    known.hear? chain time [(.removed root name units : Entry β)] =
      some (Function.update known name none) := by
  simp [hear?, learnAll?, learn?, Entry.event?, Event.ofFields, Event.text?, Json.field?, hknown]

theorem hear?_advanced {move : Move β} {applied : Nat} (hknown : known move.name = some move.start)
    (hnext : chain.next? move.start = some move.goal) :
    known.hear? chain time [.advanced move applied] =
      some (Function.update known move.name (some move.goal)) := by
  simp [hear?, learnAll?, learn?, Entry.event?, Event.ofFields, Event.text?, Json.field?, hknown,
    hnext]

theorem hear?_retreated {move : Move β} {undone : Nat} (hknown : known move.name = some move.start)
    (hprev : chain.prev? move.start = some move.goal) :
    known.hear? chain time [.retreated move undone] =
      some (Function.update known move.name (some move.goal)) := by
  simp [hear?, learnAll?, learn?, Entry.event?, Event.ofFields, Event.text?, Json.field?, hknown,
    hprev]

theorem hear?_stills {es : List (Entry β)} (hstill : ∀ e ∈ es, e.isStill = true) :
    known.hear? chain time es = some known := by
  induction es with
  | nil => rfl
  | cons x es ih =>
    obtain ⟨hx, hes⟩ := List.forall_mem_cons.1 hstill
    rw [← List.singleton_append, hear?_append, hear?_still hx, Option.bind_some]
    exact ih hes

/-- What happens on the way is not heard of, only what comes of it. -/
theorem hear?_concat {es : List (Entry β)} (hstill : ∀ e ∈ es, e.isStill = true) (e : Entry β) :
    known.hear? chain time (es ++ [e]) = known.hear? chain time [e] := by
  rw [hear?_append, hear?_stills hstill, Option.bind_some]

end Known

namespace Controller

variable {crew : Crew β σ} {c d : Controller β σ} {h root : Handle} {p q : Progress}
  {known : Known} {time : String} {es : List (Entry β)}

/-- A client knows the stage of every tracked deployment, and of nothing else. -/
def Tracks (known : Known) (c : Controller β σ) : Prop :=
  ∀ name stage, known name = some stage ↔
    ∃ h p, c.board.get? h = some p ∧ p.name = name ∧ p.stage = stage

theorem Tracks.knows (tracks : Tracks known c) (hp : c.board.get? h = some p) :
    known p.name = some p.stage :=
  (tracks p.name p.stage).2 ⟨h, p, hp, rfl, rfl⟩

theorem Tracks.still (tracks : Tracks known c) (hsame : ∀ h,
    (d.board.get? h).map (fun p ↦ (p.name, p.stage)) =
      (c.board.get? h).map fun p ↦ (p.name, p.stage)) : Tracks known d := by
  have hread : ∀ (c : Controller β σ) name stage,
      (∃ h p, c.board.get? h = some p ∧ p.name = name ∧ p.stage = stage) ↔
        ∃ h, (c.board.get? h).map (fun p ↦ (p.name, p.stage)) = some (name, stage) := by
    simp
  intro name stage
  rw [tracks name stage, hread, hread]
  simp only [hsame]

/-- One deployment moves. -/
theorem Tracks.moved (tracks : Tracks known c) (sound : c.Sound)
    (hp : c.board.get? p.root = some p) (hname : q.name = p.name)
    (hget : ∀ h, d.board.get? h = if h = p.root then some q else c.board.get? h) :
    Tracks (Function.update known p.name (some q.stage)) d := by
  intro name stage
  by_cases heq : name = p.name
  · subst heq
    rw [Function.update_self, Option.some_inj]
    constructor
    · rintro rfl
      exact ⟨p.root, q, by rw [hget, if_pos rfl], hname, rfl⟩
    · rintro ⟨h, r, hr, hrname, rfl⟩
      rw [hget] at hr
      split at hr
      · rw [Option.some_inj.1 hr]
      · next hne => exact absurd (sound.root_eq hr hp hrname) hne
  · rw [Function.update_of_ne heq, tracks name stage]
    refine exists_congr fun h ↦ exists_congr fun r ↦ ?_
    rw [hget]
    by_cases hh : h = p.root
    · subst hh
      rw [if_pos rfl, hp]
      constructor
      · rintro ⟨hr, hrname, _⟩
        exact absurd ((Option.some_inj.1 hr) ▸ hrname.symm) heq
      · rintro ⟨hr, hrname, _⟩
        exact absurd (hrname.symm.trans ((Option.some_inj.1 hr) ▸ hname)) heq
    · rw [if_neg hh]

/-- What a client knows from all the events so far is what the board tracks. -/
def Retold (time : String) (c : Controller β σ) : Prop :=
  ∃ known, Known.nothing.hear? c.chain time c.journal.toList = some known ∧ Tracks known c

theorem Retold.extend (retold : Retold time c) (hchain : d.chain = c.chain)
    (hes : d.journal.toList = c.journal.toList ++ es)
    (hhear : ∀ known, Tracks known c →
      ∃ known', known.hear? c.chain time es = some known' ∧ Tracks known' d) : Retold time d := by
  obtain ⟨known, hknown, htracks⟩ := retold
  obtain ⟨known', hknown', htracks'⟩ := hhear known htracks
  refine ⟨known', ?_, htracks'⟩
  rw [hchain, hes, Known.hear?_append, hknown, Option.bind_some, hknown']

theorem Retold.still (retold : Retold time c) (hchain : d.chain = c.chain)
    (hes : d.journal.toList = c.journal.toList ++ es) (hstill : ∀ e ∈ es, e.isStill = true)
    (hsame : ∀ h, (d.board.get? h).map (fun p ↦ (p.name, p.stage)) =
      (c.board.get? h).map fun p ↦ (p.name, p.stage)) : Retold time d :=
  retold.extend hchain hes fun known htracks ↦
    ⟨known, Known.hear?_stills hstill, htracks.still hsame⟩

theorem Retold.note (retold : Retold time c) {entry : Entry β} (hstill : entry.isStill = true) :
    Retold time (c.note entry) :=
  retold.still rfl (journal_note c entry) (by simpa using hstill) fun _ ↦ rfl

/-- A deployment moves, and the client hears of it once its deployers have been at work. -/
theorem Retold.moved (retold : Retold time c) (sound : c.Sound) {site : Site β σ}
    {calls : List (Entry β)} (passed : c.site.ambient.Passed site.ambient calls) {board : Board}
    {entry : Entry β} (hp : c.board.get? p.root = some p) (hname : q.name = p.name)
    (hget : ∀ h, board.get? h = if h = p.root then some q else c.board.get? h)
    (hhear : ∀ known : Known, known p.name = some p.stage →
      known.hear? c.chain time [entry] = some (Function.update known p.name (some q.stage))) :
    Retold time (({ c with site, board } : Controller β σ).note entry) := by
  obtain ⟨es, hes, hcrew, _⟩ := passed.journal
  have hjournal : (({ c with site, board } : Controller β σ).note entry).journal.toList =
      c.journal.toList ++ (es ++ [entry]) := by
    rw [journal_note, ← List.append_assoc]
    exact congrArg (· ++ [entry]) hes
  refine retold.extend rfl hjournal fun known htracks ↦ ⟨_, ?_, htracks.moved sound hp hname hget⟩
  rw [Known.hear?_concat fun e he ↦ Entry.isStill_of_ofCrew (hcrew e he)]
  exact hhear known (htracks.knows hp)

theorem Retold.lowered (retold : Retold time c) (sound : c.Sound) (crew : Crew β σ)
    {below : Stage} (hp : c.board.get? p.root = some p)
    (hbelow : c.chain.prev? p.stage = some below) : Retold time (c.lowered crew p below) :=
  retold.moved sound (sound.treated_lowered crew _).ambient hp
    (q := { p with stage := below }) rfl (fun _ ↦ get?_lowered crew hp)
    fun _ hknown ↦ Known.hear?_retreated hknown hbelow

theorem Retold.raised (retold : Retold time c) (sound : c.Sound) {next : Stage} {applied : Nat}
    {site : Site β σ} (hp : c.board.get? p.root = some p)
    (hnext : c.chain.next? p.stage = some next)
    (henter : c.site.enterStage crew p.root next = (.ok applied, site)) :
    Retold time (c.raised p next applied site) := by
  obtain ⟨_, hpassed⟩ := sound.passed_enterStage crew henter
  have hget : ∀ h, (c.raised p next applied site).board.get? h =
      if h = p.root then some { p with stage := next, waiting := [] } else c.board.get? h :=
    fun _ ↦ get?_raised hp
  exact retold.moved sound hpassed hp (q := { p with stage := next, waiting := [] }) rfl hget
    fun _ hknown ↦ Known.hear?_advanced hknown hnext

theorem same_of_get? (hp : c.board.get? p.root = some p) (hname : q.name = p.name)
    (hstage : q.stage = p.stage)
    (hget : ∀ h, d.board.get? h = if h = p.root then some q else c.board.get? h) (h : Handle) :
    (d.board.get? h).map (fun p ↦ (p.name, p.stage)) =
      (c.board.get? h).map fun p ↦ (p.name, p.stage) := by
  rw [hget]
  split
  · next heq => rw [heq, hp, Option.map_some, Option.map_some, hname, hstage]
  · rfl

theorem Turn.retold (turn : Turn crew c d) (retold : Retold time c) (sound : c.Sound) :
    Retold time d := by
  cases turn with
  | descend hp _ hbelow hrecalls =>
    refine hrecalls.preserves_lowered sound hp hbelow (Retold time) ?_ ?_ retold
    · exact fun _ _ _ hc ↦ hc.note rfl
    · exact fun hc hq hbelow hretold ↦ hretold.lowered hc crew hq hbelow
  | raise hp hready henter =>
    exact retold.raised sound hp (of_verdict_ready hp hready).2.2.1 henter
  | @stall p next failure site hp hready henter =>
    obtain ⟨_, hpassed⟩ := sound.passed_enterStage crew henter
    obtain ⟨es, hes, hcrew, _⟩ := hpassed.journal
    have hjournal : (c.stalled p next failure site).journal.toList =
        c.journal.toList ++ (es ++ [.failed p.root p.name next failure]) := by
      rw [← List.append_assoc]
      exact (journal_note _ _).trans (congrArg (· ++ [_]) hes)
    refine retold.still rfl hjournal (fun e he ↦ ?_)
      (same_of_get? (q := { p with error := some failure, waiting := [] }) hp rfl rfl
        fun _ ↦ get?_stalled hp)
    · rcases List.mem_append.1 he with he | he
      · exact Entry.isStill_of_ofCrew (hcrew e he)
      · rw [List.mem_singleton.1 he]
        rfl
  | @park p missing hp _ =>
    exact retold.still rfl (journal_note _ _) (by simp [Entry.isStill])
      (same_of_get? (q := { p with waiting := missing }) hp rfl rfl fun _ ↦ get?_parked hp)
  | limit _ => exact retold.note rfl

theorem Retold.settled (retold : Retold time c) (sound : c.Sound) {b : Blueprint} {g : Forest β}
    (planted : Forest.Planted c.forest b root g) (hsettled : (c.settled b root g).Sound) :
    Retold time (c.settled b root g) := by
  have hvacant := sound.vacant_of_planted planted
  have hroot : (c.settled b root g).board.get? root = some (Progress.start root b.name c.target) :=
    get?_board_settled.trans (if_pos rfl)
  have hother : ∀ {h p}, c.board.get? h = some p → p.name ≠ b.name := fun {h p} hp heq ↦ by
    obtain rfl := hsettled.root_eq (sound.get?_settled planted hp) hroot heq
    rw [hvacant] at hp
    exact absurd hp (by simp)
  refine retold.extend rfl journal_settled fun known htracks ↦ ⟨_, Known.hear?_added ?_, ?_⟩
  · refine Option.eq_none_iff_forall_ne_some.2 fun stage hstage ↦ ?_
    obtain ⟨h, p, hp, hname, _⟩ := (htracks b.name stage).1 hstage
    exact hother hp hname
  · intro name stage
    by_cases heq : name = b.name
    · subst heq
      rw [Function.update_self, Option.some_inj]
      constructor
      · rintro rfl
        exact ⟨root, _, hroot, rfl, rfl⟩
      · rintro ⟨h, q, hq, hname, rfl⟩
        rcases of_get?_settled hq with ⟨_, rfl⟩ | ⟨_, hq⟩
        · rfl
        · exact absurd hname (hother hq)
    · rw [Function.update_of_ne heq, htracks name stage]
      constructor
      · rintro ⟨h, p, hp, hrest⟩
        exact ⟨h, p, sound.get?_settled planted hp, hrest⟩
      · rintro ⟨h, q, hq, hname, hstage⟩
        rcases of_get?_settled hq with ⟨_, rfl⟩ | ⟨_, hq⟩
        · exact absurd hname.symm heq
        · exact ⟨h, q, hq, hname, hstage⟩

theorem Retold.discard (retold : Retold time c) (sound : c.Sound)
    (hp : c.board.get? root = some p) : Retold time (c.discard root) := by
  refine retold.extend (chain_discard hp) (journal_discard hp) fun known htracks ↦
    ⟨_, Known.hear?_removed (htracks.knows hp), fun name stage ↦ ?_⟩
  by_cases heq : name = p.name
  · subst heq
    rw [Function.update_self]
    refine ⟨fun hnone ↦ absurd hnone (by simp), ?_⟩
    rintro ⟨h, q, hq, hname, _⟩
    obtain ⟨hne, hq⟩ := of_get?_discard hp hq
    exact absurd (sound.root_eq hq hp hname) hne
  · rw [Function.update_of_ne heq, htracks name stage]
    constructor
    · rintro ⟨h, q, hq, hname, hstage⟩
      have hne : h ≠ root := fun hh ↦ by
        rw [hh, hp, Option.some_inj] at hq
        exact heq (hname.symm.trans (congrArg Progress.name hq.symm))
      exact ⟨h, q, by rw [get?_board_discard hp, if_neg hne, hq], hname, hstage⟩
    · rintro ⟨h, q, hq, hrest⟩
      exact ⟨h, q, (of_get?_discard hp hq).2, hrest⟩

theorem Step.retold (step : Step crew c d) (retold : Retold time c) (sound : c.Sound) :
    Retold time d := by
  cases step with
  | turn turn => exact turn.retold retold sound
  | plant hqueue hplant =>
    have hplanted := sound.forest.planted hplant
    exact retold.settled sound hplanted (sound.settled hplanted hqueue)
  | discard hp _ _ => exact retold.discard sound hp
  | @plan board queue hstage hsound _ _ =>
    refine retold.still rfl (List.append_nil _).symm (by simp) fun h ↦ ?_
    have hsame := hstage h
    unfold Board.stage? at hsame
    cases hp : c.board.get? h with
    | none =>
      rw [hp, Option.map_none, Option.map_eq_none_iff] at hsame
      exact congrArg _ hsame
    | some p =>
      rw [hp, Option.map_some, Option.map_eq_some_iff] at hsame
      obtain ⟨q, hq, heq⟩ := hsame
      obtain ⟨t, ht, _⟩ := sound.exists_top hp
      have hname := (hsound.name (h := h) hq ht).symm.trans (sound.name hp ht)
      show (board.get? h).map _ = _
      rw [hq, Option.map_some, Option.map_some, hname, heq]
  | staff hpassed =>
    obtain ⟨es, hes, hcrew, _⟩ := hpassed.journal
    exact retold.still rfl hes (fun e he ↦ Entry.isStill_of_ofCrew (hcrew e he)) fun _ ↦ rfl
  | @remark entry hremark =>
    refine retold.note ?_
    cases entry <;> first | rfl | exact absurd hremark (by simp [Entry.isRemark])

/-- The stages that a client keeps from the events are those that the board tracks. -/
theorem Reachable.retold (reachable : Reachable crew c) (time : String) : Retold time c := by
  obtain ⟨_, _, _, b, hsteps, hsound, hboard, _, hjournal⟩ := reachable.invariant
  refine hsteps.preserves hsound (Retold time) (fun sound step hc ↦ step.retold hc sound) ?_
  refine ⟨Known.nothing, ?_, fun name stage ↦ ?_⟩
  · rw [hjournal]
    rfl
  · rw [hboard]
    simp [Known.nothing, Board.empty, Board.get?]

end Controller

end Rollout
