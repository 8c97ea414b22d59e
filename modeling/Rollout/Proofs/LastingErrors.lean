import Rollout.Proofs.DependencySafety

/-!
Errors last. A deployment that has failed to enter a stage keeps the error that was recorded then
until a client asks for it by name or its tree is taken out. As long as it does, deployers are not
called to deploy on any of its units, it may be called down but comes up no more, and no other
deployment enters a stage for which it needs one of its units.
-/

set_option autoImplicit false
set_option relaxedAutoImplicit false

namespace Rollout

variable {β σ : Type}

namespace Entry

/-- Whether an entry ends what an error on a deployment is good for: a client has named the
deployment, or its tree has been taken out. -/
def releases (root : Handle) : Entry β → Bool
  | removed top _ _ => top == root
  | e => root ∈ e.named

/-- Where everything stood before and after a move that an entry tells of. -/
def positions : Entry β → List (Position β)
  | retreated move _ => [move.before, move.after]
  | advanced move _ => [move.before, move.after]
  | _ => []

/-- The deployment that an entry tells to have failed, and the stage it failed to enter. -/
def failure? : Entry β → Option (Handle × Stage)
  | failed root _ stage _ => some (root, stage)
  | _ => none

/-- Whether an entry tells that a deployment has failed to enter a stage. -/
def isFailed (e : Entry β) : Bool := e.failure?.isSome

theorem positions_of_ofCrew {e : Entry β} (hcrew : e.ofCrew = true) : e.positions = [] := by
  cases e <;> first | rfl | exact absurd hcrew (by simp [ofCrew, isCall])

theorem isFailed_of_ofCrew {e : Entry β} (hcrew : e.ofCrew = true) : e.isFailed = false := by
  cases e <;> first | rfl | exact absurd hcrew (by simp [ofCrew, isCall])

theorem exists_failed {e : Entry β} {root : Handle} {stage : Stage}
    (hfailure : e.failure? = some (root, stage)) :
    ∃ name failure, e = .failed root name stage failure := by
  match e with
  | failed _ name _ failure =>
    obtain ⟨rfl, rfl⟩ := Prod.mk.inj (Option.some_inj.1 hfailure)
    exact ⟨name, failure, rfl⟩

theorem releases_of_named {root : Handle} {e : Entry β} (hroot : root ∈ e.named) :
    e.releases root = true := by
  cases e <;> first | exact decide_eq_true hroot | exact absurd hroot List.not_mem_nil

end Entry

/-- A deployment is no higher in a position than it was in an earlier one. -/
def Position.Sinks (root : Handle) (x y : Position β) : Prop :=
  ∀ p q, x.board.get? root = some p → y.board.get? root = some q → q.stage.index ≤ p.stage.index

theorem Position.sinks_of_get? {root : Handle} {x y : Position β} {p q : Progress}
    (hp : x.board.get? root = some p) (hq : y.board.get? root = some q)
    (hle : q.stage.index ≤ p.stage.index) : x.Sinks root y := by
  intro r s hr hs
  obtain rfl := Option.some_inj.1 (hp.symm.trans hr)
  obtain rfl := Option.some_inj.1 (hq.symm.trans hs)
  exact hle

/-- What deployers at work and one entry more add to the journal. -/
theorem Ambient.Passed.told {a b : Ambient β σ} {calls : List (Entry β)} (passed : a.Passed b calls)
    (entry : Entry β) : ∃ es, (b.note entry).journal.toList = a.journal.toList ++ (es ++ [entry]) ∧
      (∀ e ∈ es, e.ofCrew = true) ∧ es.filter Entry.isCall = calls := by
  obtain ⟨es, hes, hcrew, hcalls⟩ := passed.journal
  refine ⟨es, ?_, hcrew, hcalls⟩
  unfold note
  rw [Array.toList_push, hes, List.append_assoc]

namespace Controller

variable {crew : Crew β σ} {c d : Controller β σ} {h root : Handle} {p q : Progress}
  {stage next below : Stage} {failure : Failure} {es post : List (Entry β)} {name : String}

/-- What has come after a deployment failed to enter a stage has left it in error, with the same
failure and below that stage, no higher at any time than before; no deployer was called to deploy on
its units; and nobody entered a stage with a need on one of them. -/
structure Terminal (c : Controller β σ) (root : Handle) (stage : Stage) (failure : Failure)
    (post : List (Entry β)) : Prop where
  error : ∀ x ∈ post.flatMap Entry.positions ++ [c.position], ∃ p, x.board.get? root = some p ∧
    p.error = some failure ∧ p.stage.index < stage.index
  sinks : (post.flatMap Entry.positions ++ [c.position]).Pairwise (Position.Sinks root)
  calls : ∀ d unit name s, .deploying d unit name s ∈ post → unit ∉ c.forest.tree root
  stays : ∀ move n, .advanced move n ∈ post → move.root ≠ root
  shunned : ∀ move n, .advanced move n ∈ post → ∀ need ∈ move.before.forest.treeNeeds move.root,
    Board.appliesFrom c.chain need ≤ move.goal →
      ∀ u, move.before.forest.byName? need.target = some u → u.top ≠ root

/-- How a deployment in error comes through what one controller has done since another. -/
structure Spared (c d : Controller β σ) (root : Handle) (es : List (Entry β)) : Prop where
  get? : ∀ p, c.board.get? root = some p → ∃ q, d.board.get? root = some q ∧
    q.error = p.error ∧ q.stage.index ≤ p.stage.index
  tree : d.forest.tree root = c.forest.tree root
  positions : es.flatMap Entry.positions = [] ∨
    es.flatMap Entry.positions = [c.position, d.position]
  calls : ∀ d unit name s, .deploying d unit name s ∈ es → unit ∉ c.forest.tree root
  moves : ∀ move n, .advanced move n ∈ es → move.root ≠ root ∧
    ∀ need ∈ move.before.forest.treeNeeds move.root, Board.appliesFrom c.chain need ≤ move.goal →
      ∀ u, move.before.forest.byName? need.target = some u → u.top ≠ root

theorem Spared.pairwise (spared : Spared c d root es) (hp : c.board.get? root = some p) :
    (es.flatMap Entry.positions ++ [d.position]).Pairwise (Position.Sinks root) := by
  obtain ⟨q, hq, _, hle⟩ := spared.get? p hp
  have hself := Position.sinks_of_get? (x := d.position) (y := d.position) hq hq (Nat.le_refl _)
  rcases spared.positions with hnone | hmove
  · rw [hnone]
    exact List.pairwise_singleton _ _
  · rw [hmove]
    refine .cons (fun y hy ↦ ?_) (.cons (fun y hy ↦ ?_) (List.pairwise_singleton _ _))
    · have hy' : y = d.position := by simpa using hy
      rw [hy']
      exact Position.sinks_of_get? hp hq hle
    · rw [List.mem_singleton.1 hy]
      exact hself

/-- What spares a deployment in error leaves a failure as terminal as it was. -/
theorem Terminal.extend (terminal : Terminal c root stage failure post)
    (spared : Spared c d root es) (hchain : d.chain = c.chain) :
    Terminal d root stage failure (post ++ es) := by
  obtain ⟨p, hp, herror, hlt⟩ := terminal.error c.position (by simp)
  obtain ⟨q, hq, herror', hle⟩ := spared.get? p hp
  have hnow : ∀ x ∈ es.flatMap Entry.positions ++ [d.position],
      x = c.position ∨ x = d.position := fun x hx ↦ by
    rcases spared.positions with hnone | hmove
    · rw [hnone] at hx
      exact Or.inr (by simpa using hx)
    · rw [hmove] at hx
      simpa [or_assoc] using hx
  refine ⟨fun x hx ↦ ?_, ?_, fun d' unit name s hcall ↦ ?_, fun move n hmove ↦ ?_,
    fun move n hmove ↦ ?_⟩
  · rw [List.flatMap_append, List.append_assoc, List.mem_append] at hx
    rcases hx with hx | hx
    · exact terminal.error x (List.mem_append_left _ hx)
    · rcases hnow x hx with rfl | rfl
      · exact ⟨p, hp, herror, hlt⟩
      · exact ⟨q, hq, herror'.trans herror, by omega⟩
  · obtain ⟨hearlier, _, hlast⟩ := List.pairwise_append.1 terminal.sinks
    rw [List.flatMap_append, List.append_assoc, List.pairwise_append]
    refine ⟨hearlier, spared.pairwise hp, fun x hx y hy ↦ ?_⟩
    obtain ⟨r, hr, _⟩ := terminal.error x (List.mem_append_left _ hx)
    have hpr := hlast x hx c.position (List.mem_singleton_self _) r p hr hp
    rcases hnow y hy with rfl | rfl
    · exact Position.sinks_of_get? hr hp hpr
    · exact Position.sinks_of_get? hr hq (Nat.le_trans hle hpr)
  · rw [spared.tree]
    rcases List.mem_append.1 hcall with hcall | hcall
    · exact terminal.calls d' unit name s hcall
    · exact spared.calls d' unit name s hcall
  · rcases List.mem_append.1 hmove with hmove | hmove
    · exact terminal.stays move n hmove
    · exact (spared.moves move n hmove).1
  · rw [hchain]
    rcases List.mem_append.1 hmove with hmove | hmove
    · exact terminal.shunned move n hmove
    · exact (spared.moves move n hmove).2

/-- Every failure in the journal that has not been released since is terminal. -/
def Persists (c : Controller β σ) : Prop :=
  ∀ pre root name stage failure post,
    c.journal.toList = pre ++ .failed root name stage failure :: post →
      (∀ e ∈ post, e.releases root = false) → Terminal c root stage failure post

/-- A deployment that has just been named has no failure that has not been released. -/
theorem not_justNamed {pre : List (Entry β)}
    (hes : c.journal.toList = pre ++ .failed root name stage failure :: post)
    (hpost : ∀ e ∈ post, e.releases root = false) : ¬ c.JustNamed root := by
  rintro ⟨fs, e, hfs, hroot⟩
  rw [hes] at hfs
  rcases List.eq_nil_or_concat post with rfl | ⟨rest, last, rfl⟩
  · have hlast := (List.append_inj' hfs rfl).2
    rw [List.cons.injEq] at hlast
    rw [← hlast.1] at hroot
    exact absurd hroot List.not_mem_nil
  · rw [List.concat_eq_append, ← List.cons_append, ← List.append_assoc] at hfs
    have hlast := (List.append_inj' hfs rfl).2
    rw [List.cons.injEq] at hlast
    have hreleases := hpost last (by simp)
    rw [hlast.1, Entry.releases_of_named hroot] at hreleases
    exact absurd hreleases (by simp)

/-- What is done leaves all failures terminal if it spares those in error, but for those it
releases, and if its own failures are terminal. -/
theorem Persists.extend (persists : Persists c)
    (hes : d.journal.toList = c.journal.toList ++ es) (hchain : d.chain = c.chain)
    (hspared : ∀ root p failure, c.board.get? root = some p → p.error = some failure →
      (∀ e ∈ es, e.releases root = false) → ¬ c.JustNamed root → Spared c d root es)
    (hfresh : ∀ pre root name stage failure post,
      es = pre ++ .failed root name stage failure :: post → Terminal d root stage failure post) :
    Persists d := by
  intro pre root name stage failure post heq hpost
  rw [hes, List.append_eq_append_iff] at heq
  rcases heq with ⟨fs, rfl, hfs⟩ | ⟨fs, hfs, hrest⟩
  · exact hfresh fs root name stage failure post hfs
  · cases fs with
    | nil => exact hfresh [] root name stage failure post hrest.symm
    | cons e fs =>
      rw [List.cons_append, List.cons.injEq] at hrest
      obtain ⟨rfl, rfl⟩ := hrest
      have hold : ∀ e ∈ fs, e.releases root = false := fun e he ↦
        hpost e (List.mem_append_left _ he)
      have hterminal := persists pre root name stage failure fs hfs hold
      obtain ⟨p, hp, herror, _⟩ := hterminal.error c.position (by simp)
      exact hterminal.extend (hspared root p failure hp herror
        (fun e he ↦ hpost e (List.mem_append_right _ he)) (not_justNamed hfs hold)) hchain

/-- No failure is new where the journal tells of none. -/
theorem Persists.extend_calm (persists : Persists c)
    (hes : d.journal.toList = c.journal.toList ++ es) (hchain : d.chain = c.chain)
    (hcalm : ∀ e ∈ es, e.isFailed = false)
    (hspared : ∀ root p failure, c.board.get? root = some p → p.error = some failure →
      (∀ e ∈ es, e.releases root = false) → ¬ c.JustNamed root → Spared c d root es) :
    Persists d := by
  refine persists.extend hes hchain hspared fun pre root name stage failure post heq ↦ ?_
  have hfailed := hcalm (.failed root name stage failure) (by simp [heq])
  exact absurd hfailed (by simp [Entry.isFailed, Entry.failure?])

/-! What each kind of step does to a deployment in error. -/

/-- Work on a tree and one entry more spare a deployment. -/
theorem spared_of_crew {calls : List (Entry β)} {entry : Entry β}
    (hcrew : ∀ e ∈ es, e.ofCrew = true) (hcalls : es.filter Entry.isCall = calls)
    (hcall : entry.isCall = false)
    (hget : ∀ p, c.board.get? root = some p → ∃ q, d.board.get? root = some q ∧
      q.error = p.error ∧ q.stage.index ≤ p.stage.index)
    (htree : d.forest.tree root = c.forest.tree root)
    (hpositions : entry.positions = [] ∨ entry.positions = [c.position, d.position])
    (hquiet : ∀ d unit name s, .deploying d unit name s ∈ calls → unit ∉ c.forest.tree root)
    (hmoves : ∀ move n, entry = .advanced move n → move.root ≠ root ∧
      ∀ need ∈ move.before.forest.treeNeeds move.root, Board.appliesFrom c.chain need ≤ move.goal →
        ∀ u, move.before.forest.byName? need.target = some u → u.top ≠ root) :
    Spared c d root (es ++ [entry]) := by
  have hnone : es.flatMap Entry.positions = [] :=
    List.flatMap_eq_nil_iff.2 fun e he ↦ Entry.positions_of_ofCrew (hcrew e he)
  refine ⟨hget, htree, ?_, fun d' unit name s hmem ↦ ?_, fun move n hmem ↦ ?_⟩
  · rw [List.flatMap_append, hnone, List.nil_append, List.flatMap_singleton]
    exact hpositions
  · refine hquiet d' unit name s ?_
    rcases List.mem_append.1 hmem with hmem | hmem
    · rw [← hcalls]
      exact List.mem_filter.2 ⟨hmem, rfl⟩
    · rw [← List.mem_singleton.1 hmem] at hcall
      exact absurd hcall (by simp [Entry.isCall])
  · rcases List.mem_append.1 hmem with hmem | hmem
    · exact absurd (hcrew _ hmem) (by simp [Entry.ofCrew, Entry.isCall])
    · exact hmoves move n (List.mem_singleton.1 hmem).symm

/-- Where nothing is done on trees, a deployment is spared if its error and its stage are kept. -/
theorem spared_of_still (hentries : ∀ e ∈ es, e.positions = [] ∧ e.isCall = false)
    (hget : ∀ p, c.board.get? root = some p → ∃ q, d.board.get? root = some q ∧
      q.error = p.error ∧ q.stage.index ≤ p.stage.index)
    (htree : d.forest.tree root = c.forest.tree root) : Spared c d root es := by
  refine ⟨hget, htree, Or.inl ?_, fun d' unit name s hmem ↦ ?_, fun move n hmem ↦ ?_⟩
  · exact List.flatMap_eq_nil_iff.2 fun e he ↦ (hentries e he).1
  · exact absurd (hentries _ hmem).2 (by simp [Entry.isCall])
  · exact absurd (hentries _ hmem).1 (by simp [Entry.positions])

theorem get?_self (p : Progress) (hp : c.board.get? root = some p) :
    ∃ q, c.board.get? root = some q ∧ q.error = p.error ∧ q.stage.index ≤ p.stage.index :=
  ⟨p, hp, rfl, Nat.le_refl _⟩

/-- No unit belongs to two trees. -/
theorem Sound.notMem_tree (sound : c.Sound) (hp : c.board.get? root = some p)
    (hq : c.board.get? h = some q) (hne : h ≠ root) {k : Handle} (hk : k ∈ c.forest.tree root) :
    k ∉ c.forest.tree h := by
  intro hk'
  obtain ⟨m, hm, htop⟩ := (sound.mem_tree_iff hp).1 hk
  obtain ⟨n, hn, htop'⟩ := (sound.mem_tree_iff hq).1 hk'
  obtain rfl := Option.some_inj.1 (hm.symm.trans hn)
  exact hne (htop'.symm.trans htop)

theorem Persists.note (persists : Persists c) {entry : Entry β} (hpositions : entry.positions = [])
    (hcall : entry.isCall = false) (hfailed : entry.isFailed = false) :
    Persists (c.note entry) := by
  refine persists.extend_calm (journal_note c entry) rfl (fun e he ↦ ?_) fun root p _ hp _ _ _ ↦ ?_
  · rw [List.mem_singleton.1 he]
    exact hfailed
  · refine spared_of_still (fun e he ↦ ?_) get?_self rfl
    rw [List.mem_singleton.1 he]
    exact ⟨hpositions, hcall⟩

theorem Persists.lowered (persists : Persists c) (sound : c.Sound) (crew : Crew β σ)
    (hp : c.board.get? p.root = some p) (hbelow : c.chain.prev? p.stage = some below) :
    Persists (c.lowered crew p below) := by
  have htreated := sound.treated_lowered crew p
  have hindex := Chain.index_of_prev? hbelow
  obtain ⟨es, hes, hcrew, hcalls⟩ := htreated.ambient.told
    (.retreated ⟨p.root, p.name, p.stage, below, c.position,
      (c.lowered crew p below).position⟩ (c.site.leaveStage crew p.root p.stage).1)
  refine persists.extend_calm hes rfl (fun e he ↦ ?_) fun root q _ hq _ _ _ ↦ ?_
  · rcases List.mem_append.1 he with he | he
    · exact Entry.isFailed_of_ofCrew (hcrew e he)
    · rw [List.mem_singleton.1 he]
      rfl
  · refine spared_of_crew hcrew hcalls rfl (fun r hr ↦ ?_) (htreated.shape.tree root).symm
      (Or.inr rfl) (fun d unit name s hmem ↦ ?_) fun move n heq ↦ absurd heq (by simp)
    · rw [get?_lowered crew hp]
      split
      · next heq =>
        obtain rfl := Option.some_inj.1 (hp.symm.trans (heq ▸ hr))
        exact ⟨_, rfl, rfl, by simp only; omega⟩
      · exact ⟨r, hr, rfl, Nat.le_refl _⟩
    · obtain ⟨k, _, u, _, hcall⟩ := Site.mem_callsOn.1 hmem
      obtain ⟨_, _, heq⟩ := List.mem_map.1 hcall
      exact absurd heq (by simp)

/-- The calls by which a tree enters a stage are calls on its own units. -/
theorem Sound.notMem_of_deploying (sound : c.Sound) (hp : c.board.get? root = some p)
    (hq : c.board.get? h = some q) (hne : h ≠ root) {hs : List Handle}
    (hsub : hs ⊆ c.forest.tree root) {done : Handle → List (Deployer β)} {d : Deployer β}
    {unit : Handle} {s : Stage}
    (hmem : .deploying d unit name s ∈ c.site.callsOn hs (Site.enterCalls next done)) :
    unit ∉ c.forest.tree h := by
  obtain ⟨k, hk, u, hu, hcall⟩ := Site.mem_callsOn.1 hmem
  obtain ⟨d', _, hpair⟩ := List.mem_flatMap.1 hcall
  have hunit : unit = u.id := by
    rcases List.mem_pair.1 hpair with heq | heq
    · exact (Entry.deploying.inj heq).2.1
    · exact absurd heq (by simp)
  have hid : u.id = k := sound.forest.id_eq (Forest.node?_of_get? hu)
  rw [hunit, hid]
  exact sound.notMem_tree hp hq hne (hsub hk)

theorem Persists.raised (persists : Persists c) (sound : c.Sound)
    (hp : c.board.get? p.root = some p) (hready : c.verdict p.root = .ready next) {applied : Nat}
    {site : Site β σ} (henter : c.site.enterStage crew p.root next = (.ok applied, site)) :
    Persists (c.raised p next applied site) := by
  obtain ⟨done, htreated⟩ := Site.exists_entered (sound.forest.nodup_tree _) henter
  obtain ⟨es, hes, hcrew, hcalls⟩ := htreated.ambient.told
    (.advanced ⟨p.root, p.name, p.stage, next, c.position,
      (c.raised p next applied site).position⟩ applied)
  refine persists.extend_calm hes rfl (fun e he ↦ ?_) fun root q failure hq hfailure _ _ ↦ ?_
  · rcases List.mem_append.1 he with he | he
    · exact Entry.isFailed_of_ofCrew (hcrew e he)
    · rw [List.mem_singleton.1 he]
      rfl
  · -- a deployment in error is not ready for anything
    have hne : root ≠ p.root := fun heq ↦ by
      obtain rfl := Option.some_inj.1 (hp.symm.trans (heq ▸ hq))
      rw [(of_verdict_ready hp hready).1] at hfailure
      exact absurd hfailure (by simp)
    refine spared_of_crew hcrew hcalls rfl (fun r hr ↦ ?_) (htreated.shape.tree root).symm
      (Or.inr rfl) (fun d unit name s hmem ↦ ?_) fun move n heq ↦ ?_
    · rw [get?_raised hp, if_neg hne]
      exact ⟨r, hr, rfl, Nat.le_refl _⟩
    · exact sound.notMem_of_deploying hp hq hne (List.Subset.refl _) hmem
    · obtain ⟨rfl, _⟩ := Entry.advanced.inj heq
      refine ⟨hne.symm, fun need hneed happlies u hu htop ↦ ?_⟩
      have hadmits := (admits_of_ready sound hp hready need hneed happlies).2 q
      have hof : c.position.board.ofUnit? c.position.forest need.target = some q := by
        unfold Board.ofUnit?
        rw [hu, Option.bind_some, htop]
        exact hq
      rw [hadmits hof] at hfailure
      exact absurd hfailure (by simp)

/-- A deployment that has just failed is in error below the stage that it failed to enter. -/
theorem terminal_stalled (hp : c.board.get? p.root = some p)
    (hnext : c.chain.next? p.stage = some next) {site : Site β σ} :
    Terminal (c.stalled p next failure site) p.root next failure [] := by
  have hindex := Chain.index_of_next? hnext
  have hself : (c.stalled p next failure site).board.get? p.root =
      some { p with error := some failure, waiting := [] } := by
    rw [get?_stalled hp, if_pos rfl]
  refine ⟨fun x hx ↦ ?_, List.pairwise_singleton _ _, by simp, by simp, by simp⟩
  rw [List.flatMap_nil, List.nil_append, List.mem_singleton] at hx
  rw [hx]
  exact ⟨_, hself, rfl, by simp only; omega⟩

theorem Persists.stalled (persists : Persists c) (sound : c.Sound)
    (hp : c.board.get? p.root = some p) (hready : c.verdict p.root = .ready next)
    {site : Site β σ} (henter : c.site.enterStage crew p.root next = (.error failure, site)) :
    Persists (c.stalled p next failure site) := by
  obtain ⟨herror, _, hnext, _⟩ := of_verdict_ready hp hready
  obtain ⟨done, m, pre, k, u, d, cause, hsub, hu, hentered, hleft⟩ :=
    Site.exists_undone (sound.forest.nodup_tree _) henter
  have htreated := hentered.left next hleft
  obtain ⟨es, hes, hcrew, hcalls⟩ := htreated.ambient.told (.failed p.root p.name next failure)
  refine persists.extend hes rfl (fun root q cause' hq hcause _ _ ↦ ?_)
    fun fs root name stage cause' rest heq ↦ ?_
  · have hne : root ≠ p.root := fun heq ↦ by
      obtain rfl := Option.some_inj.1 (hp.symm.trans (heq ▸ hq))
      rw [herror] at hcause
      exact absurd hcause (by simp)
    refine spared_of_crew hcrew hcalls rfl (fun r hr ↦ ?_) (htreated.shape.tree root).symm
      (Or.inl rfl) (fun d' unit name s hmem ↦ ?_) fun move n heq ↦ absurd heq (by simp)
    · rw [get?_stalled hp, if_neg hne]
      exact ⟨r, hr, rfl, Nat.le_refl _⟩
    · rw [List.mem_append, List.mem_append] at hmem
      rcases hmem with (hmem | hmem) | hmem
      · exact sound.notMem_of_deploying hp hq hne hsub hmem
      · -- the call that failed
        have hunit : unit = u.id := by
          rcases List.mem_pair.1 hmem with heq | heq
          · exact (Entry.deploying.inj heq).2.1
          · exact absurd heq (by simp)
        have hid : u.id = k := sound.forest.id_eq (Forest.node?_of_get? hu)
        rw [hunit, hid]
        exact sound.notMem_tree hp hq hne (hsub (List.mem_append_right _ List.mem_cons_self))
      · obtain ⟨_, _, _, _, hcall⟩ := Site.mem_callsOn.1 hmem
        obtain ⟨_, _, heq⟩ := List.mem_map.1 hcall
        exact absurd heq (by simp)
  · -- the only failure that is new comes last
    rcases List.eq_nil_or_concat rest with rfl | ⟨rest, last, rfl⟩
    · have hlast := (List.append_inj' heq rfl).2
      rw [List.cons.injEq, Entry.failed.injEq] at hlast
      obtain ⟨⟨rfl, _, rfl, rfl⟩, _⟩ := hlast
      exact terminal_stalled hp hnext
    · rw [List.concat_eq_append, ← List.cons_append, ← List.append_assoc] at heq
      have hfailed := Entry.isFailed_of_ofCrew
        (hcrew (.failed root name stage cause') (by simp [(List.append_inj' heq rfl).1]))
      exact absurd hfailed (by simp [Entry.isFailed, Entry.failure?])

/-! Steps and runs. -/

theorem Turn.persists (turn : Turn crew c d) (persists : Persists c) (sound : c.Sound) :
    Persists d := by
  cases turn with
  | descend hp _ hbelow hrecalls =>
    refine hrecalls.preserves_lowered sound hp hbelow Persists ?_ ?_ persists
    · exact fun _ _ _ hc ↦ hc.note rfl rfl rfl
    · exact fun hc hq hbelow hpersists ↦ hpersists.lowered hc crew hq hbelow
  | raise hp hready henter => exact persists.raised sound hp hready henter
  | stall hp hready henter => exact persists.stalled sound hp hready henter
  | @park p missing hp hblocked =>
    have hjournal : (c.parked p missing).journal.toList =
        c.journal.toList ++ [.parked p.root p.name p.stage missing] := Array.toList_push
    refine persists.extend_calm hjournal rfl (fun e he ↦ ?_) fun root q _ hq _ _ _ ↦ ?_
    · rw [List.mem_singleton.1 he]
      rfl
    · refine spared_of_still (fun e he ↦ ?_) (fun r hr ↦ ?_) rfl
      · rw [List.mem_singleton.1 he]
        exact ⟨rfl, rfl⟩
      · rw [get?_parked hp]
        split
        · next heq =>
          obtain rfl := Option.some_inj.1 (hp.symm.trans (heq ▸ hr))
          exact ⟨_, rfl, rfl, Nat.le_refl _⟩
        · exact ⟨r, hr, rfl, Nat.le_refl _⟩
  | limit _ => exact persists.note rfl rfl rfl

theorem Persists.settled (persists : Persists c) (sound : c.Sound) {b : Blueprint} {g : Forest β}
    (planted : Forest.Planted c.forest b root g) : Persists (c.settled b root g) := by
  refine persists.extend_calm journal_settled rfl (fun e he ↦ ?_) fun h q _ hq _ _ _ ↦ ?_
  · rw [List.mem_singleton.1 he]
    rfl
  · refine spared_of_still (fun e he ↦ ?_) (fun r hr ↦ ?_) (sound.tree_settled planted hq)
    · rw [List.mem_singleton.1 he]
      exact ⟨rfl, rfl⟩
    · exact ⟨r, sound.get?_settled planted hr, rfl, Nat.le_refl _⟩

/-- Whoever is taken out is released, and all others are spared. -/
theorem Persists.discard (persists : Persists c) (sound : c.Sound)
    (hp : c.board.get? root = some p) : Persists (c.discard root) := by
  refine persists.extend_calm (journal_discard hp) (chain_discard hp) (fun e he ↦ ?_)
    fun h q _ hq _ hreleases _ ↦ ?_
  · rw [List.mem_singleton.1 he]
    rfl
  · have hne : h ≠ root := fun heq ↦ by
      have hremoved := hreleases _ List.mem_cons_self
      simp [Entry.releases, heq] at hremoved
    refine spared_of_still (fun e he ↦ ?_) (fun r hr ↦ ?_) (sound.tree_discard hp hq hne)
    · rw [List.mem_singleton.1 he]
      exact ⟨rfl, rfl⟩
    · exact ⟨r, by rw [get?_board_discard hp, if_neg hne, hr], rfl, Nat.le_refl _⟩

theorem Step.persists (step : Step crew c d) (persists : Persists c) (sound : c.Sound) :
    Persists d := by
  cases step with
  | turn turn => exact turn.persists persists sound
  | plant _ hplant => exact persists.settled sound (sound.forest.planted hplant)
  | discard hp _ _ => exact persists.discard sound hp
  | @plan board queue hstage _ _ hremembers =>
    refine persists.extend_calm (List.append_nil _).symm rfl (by simp)
      fun root p failure hp hfailure _ hnamed ↦ spared_of_still (by simp) (fun r hr ↦ ?_) rfl
    obtain rfl := Option.some_inj.1 (hp.symm.trans hr)
    obtain ⟨q, hq, herror⟩ := (hremembers root p failure hp hfailure).resolve_right hnamed
    have hsame := hstage root
    unfold Board.stage? at hsame
    rw [hp, hq, Option.map_some, Option.map_some, Option.some_inj] at hsame
    exact ⟨q, hq, herror.trans hfailure.symm, Nat.le_of_eq (by rw [hsame])⟩
  | staff hpassed =>
    obtain ⟨es, hes, hcrew, hcalls⟩ := hpassed.journal
    refine persists.extend_calm hes rfl (fun e he ↦ Entry.isFailed_of_ofCrew (hcrew e he))
      fun root p _ hp _ _ _ ↦ spared_of_still (fun e he ↦ ⟨?_, ?_⟩) get?_self rfl
    · exact Entry.positions_of_ofCrew (hcrew e he)
    · simpa using List.filter_eq_nil_iff.1 hcalls e he
  | @remark entry hremark =>
    refine persists.note ?_ ?_ ?_
    all_goals cases entry <;> first | rfl | exact absurd hremark (by simp [Entry.isRemark])

/-- Whatever deployers do and whatever clients ask for: what has come since a deployment failed to
enter a stage has left it in error, unless a client has named it or its tree has been taken out. -/
theorem failures_terminal (reachable : Reachable crew c) {pre : List (Entry β)}
    (hfailed : c.journal.toList = pre ++ .failed root name stage failure :: post)
    (hpost : ∀ e ∈ post, e.releases root = false) : Terminal c root stage failure post := by
  obtain ⟨_, _, _, b, hsteps, hsound, _, _, hjournal⟩ := reachable.invariant
  have hstart : Persists b := by
    intro pre root name stage failure post heq
    rw [hjournal] at heq
    exact absurd heq (by simp)
  have hpersists : Persists c :=
    hsteps.preserves hsound Persists (fun sound step hc ↦ step.persists hc sound) hstart
  exact hpersists pre root name stage failure post hfailed hpost

/-- A run on which "db" fails at its second stage, "app" needs it there, and then "net" is taken
out, which "db" needs to be where it is. -/
def pulled : Controller Unit Unit := postParsing.serveAll touchy
  [.enlist ⟨{ name := "db", stage := ⟨"PostParse", 2⟩ }, ()⟩,
    .deployAll [.mk "net" .none [] [] [],
      .mk "db" .none [⟨"net", ⟨"Parse", 1⟩, ⟨"Parse", 1⟩⟩] [] [],
      .mk "app" .none [⟨"db", ⟨"PostParse", 2⟩, ⟨"Parse", 1⟩⟩] [] []],
    .undeploy "net", .process]

/-- What the journal of that run tells from the failure on. -/
def sinceFailure : List (Entry Unit) := pulled.journal.toList.dropWhile fun e ↦ !e.isFailed

theorem failures_terminal_pulled :
    pulled.board.tracked.map (fun p ↦ (p.name, p.stage.index, p.error.isSome)) =
        [("db", 0, true), ("app", 1, false)] ∧
      ((sinceFailure.tail.flatMap Entry.positions).map fun x ↦
        (x.board.stage? 1).map Stage.index) = [some 1, some 1, some 1, some 0, some 0, some 0] ∧
      (∀ e ∈ sinceFailure.tail, e.releases 1 = false) ∧
      ∃ failure, Terminal pulled 1 ⟨"PostParse", 2⟩ failure sinceFailure.tail := by
  have hreachable : Reachable touchy pulled := reachable_postParsing touchy _
  have hreleases : ∀ e ∈ sinceFailure.tail, e.releases 1 = false := by decide +kernel
  have hhead : sinceFailure.head?.bind Entry.failure? = some (1, ⟨"PostParse", 2⟩) := by
    decide +kernel
  obtain ⟨e, he, hfailure⟩ := Option.bind_eq_some_iff.1 hhead
  obtain ⟨name, failure, rfl⟩ := Entry.exists_failed hfailure
  obtain ⟨post, hpost⟩ := List.head?_eq_some_iff.1 he
  have hjournal := List.takeWhile_append_dropWhile (p := fun e : Entry Unit ↦ !e.isFailed)
    (l := pulled.journal.toList)
  change _ ++ sinceFailure = _ at hjournal
  rw [hpost] at hjournal
  rw [hpost] at hreleases
  refine ⟨by decide +kernel, by decide +kernel, ?_, failure, ?_⟩
  · rw [hpost]
    exact hreleases
  · rw [hpost]
    exact failures_terminal hreachable hjournal.symm hreleases

end Controller

end Rollout
