import Mathlib.Data.List.AList
import Rollout.Forest

/-!
Groves. A grove is a forest that is worked on in place and keeps an index of its names. Its trees
are not laid out before they are planted: each unit is handed a slot and put there at once, and is
hung below the unit above it only when its own tree is done. A tree is taken out unit by unit, and
each name leaves the index with its unit.
-/

set_option autoImplicit false
set_option relaxedAutoImplicit false

namespace Rollout

namespace LiveUnit

variable {β : Type}

/-- A unit as it is put into its slot, with nothing below it yet. -/
def bare (id : Handle) (kind : Kind) (parent : Option Handle) (top : Handle) (b : Blueprint) :
    LiveUnit β where
  id
  name := b.name
  kind
  parent
  top
  children := []
  components := []
  attachments := b.attachments
  needs := Need.distinct (b.demands.map (Need.of b.name · none))
  stepping := none
  applied := []

/-- Adds a unit to those that hang below and play this part. -/
def hang (kind : Kind) (u : LiveUnit β) (h : Handle) : LiveUnit β :=
  match kind with
  | .topLevel => u
  | .component => { u with components := u.components ++ [h] }
  | .child => { u with children := u.children ++ [h] }

end LiveUnit

/-- A forest and the slots of its units by their names. -/
structure Grove (β : Type) extends Forest β where
  index : AList fun _ : String ↦ Handle

namespace Grove

variable {β : Type}

/-- The grove without a unit. -/
def empty : Grove β := ⟨Forest.empty, ∅⟩

/-- The slot that the index has for a name. -/
def slotOf? (a : Grove β) (name : String) : Option Handle := a.index.lookup name

/-- Hands out a slot: the one that was freed last, or else a new one. -/
def allocate (a : Grove β) : Handle × Grove β :=
  match a.free with
  | h :: rest => (h, { a with free := rest })
  | [] => (a.slots.length, { a with slots := a.slots ++ [none] })

/-- Puts a unit into its slot and its name into the index. -/
def occupy (a : Grove β) (u : LiveUnit β) : Grove β :=
  { a with slots := a.slots.set u.id (some u), index := a.index.insert u.name u.id }

/-- Hangs a unit below another. -/
def hang (a : Grove β) (kind : Kind) (above h : Handle) : Grove β :=
  { a with slots := a.slots.modify above (Option.map (LiveUnit.hang kind · h)) }

mutual

/-- Puts the units of a tree into slots, one after another, and gives the handle on top. -/
def insert (a : Grove β) (kind : Kind) (parent top : Option Handle) : Blueprint → Handle × Grove β
  | .mk name attachments demands components children =>
    let id := a.allocate.1
    let top := top.getD id
    let unit := .bare id kind parent top (.mk name attachments demands components children)
    let withParts := insertEach (a.allocate.2.occupy unit) .component id top components
    (id, insertEach withParts .child id top children)

/-- Puts several trees into slots, and hangs each of them below one unit when it is done. -/
def insertEach (a : Grove β) (kind : Kind) (above top : Handle) : List Blueprint → Grove β
  | [] => a
  | b :: bs =>
    let made := insert a kind (some above) (some top) b
    insertEach (made.2.hang kind above made.1) kind above top bs

end

/-- Plants a tree, if its names can be taken in. -/
def plant (a : Grove β) (b : Blueprint) : Except NameFault Handle × Grove β :=
  match NameFault.first? (fun n ↦ (a.slotOf? n).isSome) [] b.names with
  | some fault => (.error fault, a)
  | none =>
    let made := a.insert .topLevel none none b
    (.ok made.1, made.2)

/-- Frees slots one after another, takes their names out of the index, and gives them. -/
def clear (a : Grove β) : List Handle → List String × Grove β
  | [] => ([], a)
  | h :: hs =>
    match a.get? h with
    | none => a.clear hs
    | some u =>
      let rest := Grove.clear
        { slots := a.slots.set h none, free := h :: a.free, index := a.index.erase u.name } hs
      (u.name :: rest.1, rest.2)

/-- Takes a whole tree out, and gives the names of its units. -/
def uproot (a : Grove β) (root : Handle) : List String × Grove β :=
  a.clear (a.tree root)

end Grove

end Rollout
