import Rollout.Proofs.Records
import Rollout.Proofs.Requests

/-!
The parts of a controller in step. The board, the forest and the queue are kept apart and changed in
separate operations, and the slots of the forest are used again; still each can be read against the
others at any time. Only a name that is queued can be live as well: a deployment may be queued in
the place of a live one, and then the live one is to be removed.
-/

set_option autoImplicit false
set_option relaxedAutoImplicit false

namespace Rollout.Controller

variable {β σ : Type} {crew : Crew β σ} {c : Controller β σ} {h root : Handle} {p q : Progress}

/-- The board lists the live top-level units, each once and under its name, at stages of the chain;
no two live units share a name, nor do any two that are queued; and a name that is both belongs to a
tree that is to be removed for the queued deployment that has the name of its top. -/
structure InStep (c : Controller β σ) : Prop where
  order : c.board.order.Nodup
  mem_order : ∀ h, h ∈ c.board.order ↔ ∃ u, c.forest.get? h = some u ∧ u.kind = .topLevel
  tracked : ∀ h, h ∈ c.board.order ↔ ∃ p, c.board.get? h = some p
  name : ∀ h p u, c.board.get? h = some p → c.forest.get? h = some u →
    p.root = h ∧ p.name = u.name
  top : ∀ h u, c.forest.get? h = some u → u.top ∈ c.board.order ∧ h ∈ c.forest.tree u.top
  stages : ∀ h p, c.board.get? h = some p →
    p.stage ∈ c.chain.stages ∧ p.requested ∈ c.chain.stages
  names : (c.board.order.flatMap c.forest.treeNames).Nodup
  queued : (c.queue.flatMap Blueprint.names).Nodup
  claimed : ∀ b ∈ c.queue, ∀ name ∈ b.names, ∀ u, c.unit? name = some u →
    ∃ p t, c.board.get? u.top = some p ∧ p.removing = true ∧
      c.forest.get? u.top = some t ∧ t.name = b.name

/-- No name occurs twice in a tree. -/
theorem Sound.nodup_treeNames (sound : c.Sound) (root : Handle) :
    (c.forest.treeNames root).Nodup := by
  have hunits : (c.forest.treeUnits root).Nodup := by
    refine (sound.forest.nodup_tree _).filterMap fun h k u hu hk ↦ ?_
    exact sound.forest.name_inj (Forest.node?_of_get? hu) (Forest.node?_of_get? hk) rfl
  refine hunits.map_on fun u hu v hv heq ↦ ?_
  obtain ⟨h, _, hu⟩ := mem_treeUnits_iff.1 hu
  obtain ⟨k, _, hv⟩ := mem_treeUnits_iff.1 hv
  obtain rfl := sound.forest.name_inj (Forest.node?_of_get? hu) (Forest.node?_of_get? hv) heq
  exact Option.some_inj.1 (hu.symm.trans hv)

/-- No name occurs twice among all trees. -/
theorem Sound.nodup_names (sound : c.Sound) :
    (c.board.order.flatMap c.forest.treeNames).Nodup := by
  rw [List.nodup_flatMap]
  refine ⟨fun root _ ↦ sound.nodup_treeNames root,
    sound.order.imp_of_mem fun {root h} hroot hh hne ↦ ?_⟩
  · obtain ⟨p, hp⟩ := sound.tracked.1 hroot
    obtain ⟨q, hq⟩ := sound.tracked.1 hh
    intro name hname
    obtain ⟨u, hu, rfl⟩ := List.mem_map.1 hname
    obtain ⟨k, hk, hu⟩ := mem_treeUnits_iff.1 hu
    exact sound.name_notMem_treeNames hp hq (Ne.symm hne) hk hu

theorem Sound.inStep (sound : c.Sound) : InStep c := by
  refine ⟨sound.order, fun h ↦ ?_, fun h ↦ sound.tracked, fun h p u hp hu ↦ ?_, fun h u hu ↦ ?_,
    fun h p hp ↦ ?_, sound.nodup_names, sound.queueNodup, fun b hb name hname u hu ↦ ?_⟩
  · rw [sound.mem_order]
    constructor
    · rintro ⟨n, hn, hkind⟩
      obtain ⟨u, hu, rfl⟩ := Forest.node?_eq_some_iff.1 hn
      exact ⟨u, hu, hkind⟩
    · rintro ⟨u, hu, hkind⟩
      exact ⟨_, Forest.node?_of_get? hu, hkind⟩
  · exact ⟨Board.root_of_get? hp, (sound.name hp (Forest.node?_of_get? hu)).symm⟩
  · have hn := Forest.node?_of_get? hu
    obtain ⟨p, hp⟩ := sound.exists_progress hn
    exact ⟨sound.tracked.2 ⟨p, hp⟩, (sound.mem_tree_iff hp).2 ⟨_, hn, rfl⟩⟩
  · exact ⟨Chain.mem_stages_iff.2 (sound.stage hp), Chain.mem_stages_iff.2 (sound.requested hp)⟩
  · obtain ⟨h, hu, huname⟩ := sound.forest.byName?_eq_some_iff.1 hu
    obtain ⟨p, hp, hremoving, hpname⟩ :=
      sound.claimed b hb name hname (Forest.node?_of_get? hu) huname
    obtain ⟨n, hn, _⟩ := sound.exists_top hp
    obtain ⟨t, ht, rfl⟩ := Forest.node?_eq_some_iff.1 hn
    exact ⟨p, t, hp, hremoving, ht, (sound.name hp hn).trans hpname⟩

/-- Whatever a client can come to have is in step. -/
theorem parts_inStep (reachable : Reachable crew c) : InStep c := reachable.sound.inStep

/-- A run on which a tree of two units is live and to be removed, and a deployment is queued that
takes both of its names. -/
def redeploying : Controller Unit Unit :=
  parsing.serveAll idle
    [.deploy (.mk "app" .none [] [] [.mk "db" .none [] [] []]),
      .add (.mk "app" .none [] [.mk "db" .none [] [] []] [])]

theorem parts_inStep_redeploying :
    Reachable idle redeploying ∧ redeploying.queuedNames = ["app"] ∧
      (redeploying.unit? "db").isSome = true ∧ InStep redeploying :=
  have hreachable := reachable_parsing idle
    [.deploy (.mk "app" .none [] [] [.mk "db" .none [] [] []]),
      .add (.mk "app" .none [] [.mk "db" .none [] [] []] [])]
  ⟨hreachable, by decide +kernel, by decide +kernel, parts_inStep hreachable⟩

end Rollout.Controller
