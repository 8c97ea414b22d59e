import Rollout.Forest.LiveUnit
import Rollout.Forest.Naming

/-!
The forest of live units. Every live unit has a slot of its own, and trees are links between slots.
A tree is planted whole: its units are laid out in tree order on the slots that were freed last,
then on new ones, and then put in place. A tree is uprooted whole, and its slots are free again.
-/

set_option autoImplicit false
set_option relaxedAutoImplicit false

namespace Rollout

/-- The slots that can be handed out: the free ones, last freed first, and then new ones. -/
structure Stock where
  free : List Handle
  size : Nat
deriving DecidableEq, Repr

namespace Stock

/-- The next slot, and what is left. -/
def take (s : Stock) : Handle × Stock :=
  match s.free with
  | [] => (s.size, ⟨[], s.size + 1⟩)
  | h :: rest => (h, ⟨rest, s.size⟩)

end Stock

/-- Units that have been laid out: the handles on top, all units in tree order, and the slots that
are left. -/
structure Layout (β : Type) where
  tops : List Handle
  units : List (LiveUnit β)
  stock : Stock

namespace Layout

variable {β : Type}

mutual

/-- Lays out one tree. A tree that hangs below no other is its own top. -/
def tree (kind : Kind) (parent top : Option Handle) (s : Stock) : Blueprint → Layout β
  | .mk name attachments demands components children =>
    let id := s.take.1
    let top := top.getD id
    let parts := trees .component id top s.take.2 components
    let kids := trees .child id top parts.stock children
    let unit : LiveUnit β :=
      { id, name, kind, parent, top
        children := kids.tops
        components := parts.tops
        attachments
        needs := Need.distinct (demands.map (Need.of name · none))
        stepping := none
        applied := [] }
    ⟨[id], unit :: (parts.units ++ kids.units), kids.stock⟩

/-- Lays out several trees below one unit, one after another. -/
def trees (kind : Kind) (parent top : Handle) (s : Stock) : List Blueprint → Layout β
  | [] => ⟨[], [], s⟩
  | b :: bs =>
    let first := tree kind (some parent) (some top) s b
    let rest := trees kind parent top first.stock bs
    ⟨first.tops ++ rest.tops, first.units ++ rest.units, rest.stock⟩

end

end Layout

/-- The live units in their slots, and the free slots, last freed first. -/
structure Forest (β : Type) where
  slots : List (Option (LiveUnit β))
  free : List Handle

namespace Forest

variable {β : Type}

/-- The forest without a unit. -/
def empty : Forest β := ⟨[], []⟩

instance : Inhabited (Forest β) := ⟨empty⟩

/-- The unit that lives in a slot. -/
def get? (f : Forest β) (h : Handle) : Option (LiveUnit β) := f.slots[h]?.join

/-- Puts a unit into a slot. -/
def put (f : Forest β) (h : Handle) (u : LiveUnit β) : Forest β :=
  { f with slots := f.slots.set h (some u) }

/-- The slot of the unit of a name. -/
def find? (f : Forest β) (name : String) : Option Handle :=
  f.slots.findIdx? fun slot ↦ slot.any fun u ↦ u.name == name

/-- The live unit of a name. -/
def byName? (f : Forest β) (name : String) : Option (LiveUnit β) :=
  (f.find? name).bind f.get?

/-- The live units in the order of their slots. -/
def units (f : Forest β) : List (LiveUnit β) := f.slots.filterMap id

/-- How many units are live. -/
def size (f : Forest β) : Nat := f.units.length

/-- The live units below a handle and on it, in tree order, down to a depth. -/
def walk (f : Forest β) : Nat → Handle → List Handle
  | 0, _ => []
  | depth + 1, h =>
    match f.get? h with
    | none => []
    | some u => h :: (u.components ++ u.children).flatMap (f.walk depth)

/-- The handles of a tree in tree order. No tree is deeper than there are slots. -/
def tree (f : Forest β) (root : Handle) : List Handle := f.walk f.slots.length root

/-- The units of a tree in tree order. -/
def treeUnits (f : Forest β) (root : Handle) : List (LiveUnit β) :=
  (f.tree root).filterMap f.get?

/-- The needs of all units of a tree in tree order. -/
def treeNeeds (f : Forest β) (root : Handle) : List Need :=
  (f.treeUnits root).flatMap LiveUnit.needs

theorem get?_put (f : Forest β) (h other : Handle) (u : LiveUnit β) :
    (f.put h u).get? other =
      if other = h then (if h < f.slots.length then some u else none) else f.get? other := by
  unfold put get?
  by_cases ho : other = h
  · subst ho
    by_cases hl : other < f.slots.length <;> simp [hl]
  · simp [List.getElem?_set_ne (Ne.symm ho), ho]

theorem mem_units_iff {f : Forest β} {u : LiveUnit β} :
    u ∈ f.units ↔ ∃ h, f.get? h = some u := by
  unfold units get?
  rw [List.mem_filterMap]
  constructor
  · rintro ⟨slot, hs, hu⟩
    obtain ⟨h, hh⟩ := List.mem_iff_getElem?.1 hs
    exact ⟨h, by simpa [hh] using hu⟩
  · rintro ⟨h, hs⟩
    exact ⟨some u, List.mem_iff_getElem?.2 ⟨h, Option.join_eq_some_iff.1 hs⟩, rfl⟩

/-- The slots that can be handed out. -/
def stock (f : Forest β) : Stock := ⟨f.free, f.slots.length⟩

/-- Puts units that were laid out into their slots. -/
def settle (f : Forest β) (l : Layout β) : Forest β where
  slots := l.units.foldl (fun slots u ↦ slots.set u.id (some u))
    (f.slots ++ List.replicate (l.stock.size - f.slots.length) none)
  free := l.stock.free

/-- The tree of a blueprint, laid out on the free slots. -/
def layout (f : Forest β) (b : Blueprint) : Layout β :=
  Layout.tree .topLevel none none f.stock b

/-- Plants a tree, if its names can be taken in, and gives the handle on top. -/
def plant (f : Forest β) (b : Blueprint) : Except NameFault (Handle × Forest β) :=
  match NameFault.first? (fun n ↦ (f.find? n).isSome) [] b.names with
  | some fault => .error fault
  | none => .ok (f.stock.take.1, f.settle (f.layout b))

/-- Frees slots one after another, and gives the names that lived there. -/
def clear (f : Forest β) : List Handle → List String × Forest β
  | [] => ([], f)
  | h :: hs =>
    match f.get? h with
    | none => f.clear hs
    | some u =>
      let rest := Forest.clear ⟨f.slots.set h none, h :: f.free⟩ hs
      (u.name :: rest.1, rest.2)

/-- Takes a whole tree out, and gives the names of its units in tree order. -/
def uproot (f : Forest β) (root : Handle) : List String × Forest β :=
  f.clear (f.tree root)

/-- The live top-level unit of a name. -/
def topLevel? (f : Forest β) (name : String) : Option Handle :=
  (f.find? name).filter fun h ↦ (f.get? h).any fun u ↦ u.kind == .topLevel

end Forest

end Rollout
