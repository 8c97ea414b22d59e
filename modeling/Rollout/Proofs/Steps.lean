import Rollout.Proofs.Deeds
import Rollout.Proofs.Turns

/-!
The steps of a controller. Whatever a client asks of a controller comes about in steps: a turn of a
batch, a deployment that is planted or taken out, a change of what is asked for or queued, a change
of the roster, or nothing but an entry in the journal. Every step keeps a controller sound and its
journal as it was, up to what is added at the end.
-/

set_option autoImplicit false
set_option relaxedAutoImplicit false

namespace Rollout

variable {β σ : Type}

namespace Entry

/-- Whether an entry only tells what a client asked for, or that a batch is over. -/
def isRemark : Entry β → Bool
  | replacing .. => true
  | queued .. => true
  | unqueued .. => true
  | retiring .. => true
  | completed .. => true
  | changing .. => true
  | bouncing .. => true
  | _ => false

/-- The deployments that a client asks afresh for a stage with the call that an entry tells of. -/
def named : Entry β → List Handle
  | changing _ roots => roots
  | bouncing _ roots => roots
  | _ => []

end Entry

namespace Controller

variable {crew : Crew β σ} {c d e : Controller β σ} {h : Handle} {p q : Progress}

/-- The last thing that happened is that a client named a deployment. -/
def JustNamed (c : Controller β σ) (h : Handle) : Prop :=
  ∃ es entry, c.journal.toList = es ++ [entry] ∧ h ∈ entry.named

/-- On another board no error has been forgotten, but of a deployment that has just been named. -/
def Remembers (c : Controller β σ) (board : Board) : Prop :=
  ∀ h p failure, c.board.get? h = some p → p.error = some failure →
    (∃ q, board.get? h = some q ∧ q.error = some failure) ∨ c.JustNamed h

theorem remembers_self (c : Controller β σ) : c.Remembers c.board :=
  fun _ p _ hp hfailure ↦ Or.inl ⟨p, hp, hfailure⟩

/-- A single step of a controller. -/
inductive Step (crew : Crew β σ) : Controller β σ → Controller β σ → Prop
  | turn {c d : Controller β σ} : Turn crew c d → Step crew c d
  | plant {c : Controller β σ} {b : Blueprint} {root : Handle} {g : Forest β} :
    c.queue = [] → c.forest.plant b = .ok (root, g) → Step crew c (c.settled b root g)
  | discard {c : Controller β σ} {p : Progress} :
    c.board.get? p.root = some p → p.removing = true → p.stage.index = 0 →
    Step crew c (c.discard p.root)
  | plan {c : Controller β σ} {board : Board} {queue : List Blueprint} :
    (∀ h, board.stage? h = c.board.stage? h) → Sound { c with board, queue } →
    (c.Waits → Waits { c with board, queue }) → c.Remembers board →
    Step crew c { c with board, queue }
  | staff {c : Controller β σ} {ambient : Ambient β σ} :
    c.site.ambient.Passed ambient [] → Step crew c { c with site := { c.site with ambient } }
  | remark {c : Controller β σ} {entry : Entry β} :
    entry.isRemark = true → Step crew c (c.note entry)

/-- Steps one after another. -/
abbrev Steps (crew : Crew β σ) : Controller β σ → Controller β σ → Prop :=
  Relation.ReflTransGen (Step crew)

theorem Turns.steps (turns : Turns crew c d) : Steps crew c d := by
  induction turns with
  | refl => exact .refl
  | tail _ turn ih => exact ih.tail (.turn turn)

theorem Sound.staff (sound : c.Sound) {ambient : Ambient β σ}
    (passed : c.site.ambient.Passed ambient []) :
    Alike c { c with site := { c.site with ambient } } :=
  ⟨.refl _, rfl, fun {_ q} hq ↦ ⟨q, hq, sound.keeps_self hq⟩, fun {_ p} hp ↦ ⟨p, hp⟩, rfl,
    passed.chain, rfl, rfl, rfl⟩

theorem Step.sound (step : Step crew c d) (sound : c.Sound) : d.Sound := by
  cases step with
  | turn turn => exact sound.of_alike (turn.moves sound).toAlike
  | plant hqueue hplant => exact sound.settled (sound.forest.planted hplant) hqueue
  | discard hp _ _ => exact sound.discard hp
  | plan _ hsound _ _ => exact hsound
  | staff hpassed => exact sound.of_alike (sound.staff hpassed)
  | remark _ => exact sound.note _

theorem Steps.sound (steps : Steps crew c d) (sound : c.Sound) : d.Sound := by
  induction steps with
  | refl => exact sound
  | tail _ step ih => exact step.sound ih

/-- A property of sound controllers that every step keeps is kept by all of them together. -/
theorem Steps.preserves (steps : Steps crew c d) (sound : c.Sound)
    (holds : Controller β σ → Prop)
    (hstep : ∀ {c d : Controller β σ}, c.Sound → Step crew c d → holds c → holds d)
    (start : holds c) : holds d := by
  induction steps with
  | refl => exact start
  | tail first step ih => exact hstep (Steps.sound first sound) step ih

/-- No step changes how a controller is set up, nor the stage it drives deployments to. -/
theorem Step.fixed (step : Step crew c d) (sound : c.Sound) :
    d.config = c.config ∧ d.target = c.target := by
  cases step with
  | turn turn => exact ⟨(turn.moves sound).config, (turn.moves sound).target⟩
  | discard hp _ _ =>
    rw [discard_eq hp]
    exact ⟨rfl, rfl⟩
  | plant _ _ | plan _ _ _ _ | staff _ | remark _ => exact ⟨rfl, rfl⟩

theorem Steps.fixed (steps : Steps crew c d) (sound : c.Sound) :
    d.config = c.config ∧ d.target = c.target :=
  steps.preserves sound (fun e ↦ e.config = c.config ∧ e.target = c.target)
    (fun sound step h ↦ ⟨(step.fixed sound).1.trans h.1, (step.fixed sound).2.trans h.2⟩) ⟨rfl, rfl⟩

theorem Step.waits (step : Step crew c d) (sound : c.Sound) (waits : c.Waits) : d.Waits := by
  cases step with
  | turn turn => exact turn.waits sound waits
  | @plant b root g hqueue hplant =>
    intro h q hq hwaiting
    rcases of_get?_settled hq with ⟨_, rfl⟩ | ⟨_, hq⟩
    · exact absurd rfl hwaiting
    · exact waits hq hwaiting
  | discard hp _ _ =>
    intro h q hq hwaiting
    exact waits (of_get?_discard hp hq).2 hwaiting
  | plan _ _ hwaits _ => exact hwaits waits
  | staff _ => exact waits
  | remark _ => exact waits

theorem Steps.waits (steps : Steps crew c d) (sound : c.Sound) (waits : c.Waits) : d.Waits :=
  steps.preserves sound Waits (fun sound step ↦ step.waits sound) waits

/-! The journal. -/

/-- The journal of one controller goes on from that of another. -/
def Continues (c d : Controller β σ) : Prop :=
  ∃ es, d.journal.toList = c.journal.toList ++ es

theorem Continues.refl (c : Controller β σ) : Continues c c := ⟨[], by simp⟩

theorem Continues.trans (first : Continues c d) (second : Continues d e) : Continues c e := by
  obtain ⟨es, hes⟩ := first
  obtain ⟨fs, hfs⟩ := second
  exact ⟨es ++ fs, by rw [hfs, hes, List.append_assoc]⟩

theorem Continues.mem (continues : Continues c d) {entry : Entry β} (hentry : entry ∈ c.journal) :
    entry ∈ d.journal := by
  obtain ⟨es, hes⟩ := continues
  rw [← Array.mem_toList_iff, hes]
  exact List.mem_append_left _ (Array.mem_toList_iff.2 hentry)

/-- An entry that one controller has made since another. -/
def Told (c d : Controller β σ) (entry : Entry β) : Prop :=
  ∃ es, d.journal.toList = c.journal.toList ++ es ∧ entry ∈ es

theorem Told.continues {entry : Entry β} (told : Told d e entry) (continues : Continues c d) :
    Told c e entry := by
  obtain ⟨es, hes, hentry⟩ := told
  obtain ⟨fs, hfs⟩ := continues
  exact ⟨fs ++ es, by rw [hes, hfs, List.append_assoc], List.mem_append_right _ hentry⟩

theorem Continues.told {entry : Entry β} (continues : Continues d e) (told : Told c d entry) :
    Told c e entry := by
  obtain ⟨es, hes, hentry⟩ := told
  obtain ⟨fs, hfs⟩ := continues
  exact ⟨es ++ fs, by rw [hfs, hes, List.append_assoc], List.mem_append_left _ hentry⟩

theorem Told.grows {entry : Entry β} (told : Told c d entry) : Continues c d := by
  obtain ⟨es, hes, _⟩ := told
  exact ⟨es, hes⟩

theorem Told.mem_drop {entry : Entry β} (told : Told c d entry) :
    entry ∈ d.journal.toList.drop c.journal.size := by
  obtain ⟨es, hes, hentry⟩ := told
  rw [hes, ← Array.length_toList, List.drop_left]
  exact hentry

theorem Told.mem {entry : Entry β} (told : Told c d entry) : entry ∈ d.journal :=
  Array.mem_toList_iff.1 (List.mem_of_mem_drop told.mem_drop)

theorem journal_note (c : Controller β σ) (entry : Entry β) :
    (c.note entry).journal.toList = c.journal.toList ++ [entry] :=
  Array.toList_push

theorem journal_settled {b : Blueprint} {root : Handle} {g : Forest β} :
    (c.settled b root g).journal.toList =
      c.journal.toList ++ [.added root b (g.tree root).length c.target] :=
  journal_note _ _

theorem journal_discard {root : Handle} (hp : c.board.get? root = some p) :
    (c.discard root).journal.toList =
      c.journal.toList ++ [.removed root p.name (c.forest.uproot root).1] := by
  rw [discard_eq hp]
  exact journal_note _ _

theorem justNamed_note (c : Controller β σ) {entry : Entry β} (hh : h ∈ entry.named) :
    (c.note entry).JustNamed h :=
  ⟨c.journal.toList, entry, journal_note c entry, hh⟩

theorem continues_note (c : Controller β σ) (entry : Entry β) : Continues c (c.note entry) :=
  ⟨[entry], journal_note c entry⟩

theorem Continues.told_note (continues : Continues c d) (entry : Entry β) :
    Told c (d.note entry) entry := by
  obtain ⟨es, hes⟩ := continues
  refine ⟨es ++ [entry], ?_, List.mem_append_right _ List.mem_cons_self⟩
  rw [journal_note, hes, List.append_assoc]

/-- The journal goes on, and no tree is planted or taken out meanwhile. -/
def Quiet (c d : Controller β σ) : Prop :=
  ∃ es, d.journal.toList = c.journal.toList ++ es ∧ ∀ e ∈ es, e.isQuiet = true

theorem Quiet.refl (c : Controller β σ) : Quiet c c := ⟨[], by simp⟩

theorem Quiet.trans (first : Quiet c d) (second : Quiet d e) : Quiet c e := by
  obtain ⟨es, hes, hquiet⟩ := first
  obtain ⟨fs, hfs, hquiet'⟩ := second
  refine ⟨es ++ fs, by rw [hfs, hes, List.append_assoc], fun x hx ↦ ?_⟩
  exact (List.mem_append.1 hx).elim (hquiet x) (hquiet' x)

theorem Quiet.continues (quiet : Quiet c d) : Continues c d := by
  obtain ⟨es, hes, _⟩ := quiet
  exact ⟨es, hes⟩

theorem quiet_note (c : Controller β σ) {entry : Entry β} (hquiet : entry.isQuiet = true) :
    Quiet c (c.note entry) :=
  ⟨[entry], journal_note c entry, by simpa using hquiet⟩

theorem quiet_of_passed {calls : List (Entry β)}
    (passed : c.site.ambient.Passed d.site.ambient calls) : Quiet c d := by
  obtain ⟨es, hes, hquiet, _⟩ := passed.deeds
  exact ⟨es, hes, hquiet⟩

theorem Sound.quiet_lowered (sound : c.Sound) (crew : Crew β σ) (p : Progress) (below : Stage) :
    Quiet c (c.lowered crew p below) := by
  have htreated := sound.treated_lowered crew p
  have hleft : Quiet c { c with
      site := (c.site.leaveStage crew p.root p.stage).2
      board := c.board.update p.root fun q ↦ { q with stage := below } } :=
    quiet_of_passed htreated.ambient
  exact hleft.trans (quiet_note _ rfl)

theorem Sound.passed_enterStage (sound : c.Sound) (crew : Crew β σ) {root : Handle}
    {stage : Stage} {result : Except Failure Nat} {site : Site β σ}
    (henter : c.site.enterStage crew root stage = (result, site)) :
    ∃ calls, c.site.ambient.Passed site.ambient calls := by
  rcases Site.enterStage_cases crew stage (sound.forest.nodup_tree _) with
    ⟨done, t, heq, htreated⟩ | ⟨done, m, t, _, _, _, _, _, _, _, _, heq, hentered, hleft⟩
  · obtain rfl : t = site := congrArg Prod.snd (heq.symm.trans henter)
    exact ⟨_, htreated.ambient⟩
  · obtain rfl : t = site := congrArg Prod.snd (heq.symm.trans henter)
    exact ⟨_, hentered.ambient.trans hleft.ambient⟩

/-- A step up is told of, with where everything stands before and after it. -/
theorem Sound.told_advanced (sound : c.Sound) {next : Stage} {applied : Nat} {site : Site β σ}
    (henter : c.site.enterStage crew p.root next = (.ok applied, site)) :
    Told c (c.raised p next applied site) (.advanced ⟨p.root, p.name, p.stage, next, c.position,
      (c.raised p next applied site).position⟩ applied) := by
  obtain ⟨_, hpassed⟩ := sound.passed_enterStage crew henter
  have hsite : Continues c { c with
      site
      board := c.board.update p.root fun q ↦ { q with stage := next, waiting := [] } } :=
    (quiet_of_passed hpassed).continues
  exact hsite.told_note _

theorem Sound.told_failed (sound : c.Sound) {next : Stage} {failure : Failure} {site : Site β σ}
    (henter : c.site.enterStage crew p.root next = (.error failure, site)) :
    Told c (c.stalled p next failure site) (.failed p.root p.name next failure) := by
  obtain ⟨_, hpassed⟩ := sound.passed_enterStage crew henter
  have hsite : Continues c { c with site } :=
    (quiet_of_passed hpassed).continues
  exact hsite.told_note _

/-- No turn plants a tree or takes one out. -/
theorem Turn.quiet (turn : Turn crew c d) (sound : c.Sound) : Quiet c d := by
  cases turn with
  | descend hp _ hbelow hrecalls =>
    refine hrecalls.preserves_lowered sound hp hbelow (Quiet c) ?_ ?_ (.refl c)
    · exact fun _ _ _ hc ↦ hc.trans (quiet_note _ rfl)
    · exact fun hc _ _ hquiet ↦ hquiet.trans (hc.quiet_lowered crew _ _)
  | @raise p next applied site hp _ henter =>
    obtain ⟨_, hpassed⟩ := sound.passed_enterStage crew henter
    have hsite : Quiet c { c with
        site
        board := c.board.update p.root fun q ↦ { q with stage := next, waiting := [] } } :=
      quiet_of_passed hpassed
    exact hsite.trans (quiet_note _ rfl)
  | @stall p next failure site hp _ henter =>
    obtain ⟨_, hpassed⟩ := sound.passed_enterStage crew henter
    have hsite : Quiet c { c with site } := quiet_of_passed hpassed
    exact hsite.trans (quiet_note _ rfl)
  | park _ _ => exact quiet_note _ rfl
  | limit _ => exact quiet_note _ rfl

theorem Turn.continues (turn : Turn crew c d) (sound : c.Sound) : Continues c d :=
  (turn.quiet sound).continues

theorem Step.continues (step : Step crew c d) (sound : c.Sound) : Continues c d := by
  cases step with
  | turn turn => exact turn.continues sound
  | plant _ _ => exact continues_note _ _
  | discard hp _ _ => exact ⟨_, journal_discard hp⟩
  | plan _ _ _ _ => exact .refl _
  | staff hpassed => exact (quiet_of_passed hpassed).continues
  | remark _ => exact continues_note _ _

theorem Steps.continues (steps : Steps crew c d) (sound : c.Sound) : Continues c d := by
  induction steps with
  | refl => exact .refl c
  | tail first step ih => exact ih.trans (step.continues (Steps.sound first sound))

end Controller

end Rollout
