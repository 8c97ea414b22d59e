import Rollout.Sorting
import Rollout.Text.Quoted

/-!
Attachments. A unit carries values under keys for the deployers that work on it. A key may also be
attached with no value, which is not the same as not being attached. A value put without a key goes
under the key of its own type, and a value is only handed out to a reader who names its type.
-/

set_option autoImplicit false
set_option relaxedAutoImplicit false

namespace Rollout

/-- The types of value that can be attached. -/
inductive ValueType
  | text
  | flag
  | integer
  | byte
  | empty
deriving DecidableEq, Repr

namespace ValueType

/-- The key under which a value of this type goes by itself. -/
def key : ValueType → String
  | text => "alloc::string::String"
  | flag => "bool"
  | integer => "i64"
  | byte => "u8"
  | empty => "()"

end ValueType

/-- An attached value. -/
inductive Value
  | text (s : String)
  | flag (b : Bool)
  | integer (n : Int)
  | byte (n : UInt8)
  | empty
deriving DecidableEq, Repr

namespace Value

/-- The type of a value. -/
def type : Value → ValueType
  | text _ => .text
  | flag _ => .flag
  | integer _ => .integer
  | byte _ => .byte
  | empty => .empty

end Value

/-- Values, or the lack of one, under keys. No key occurs twice. -/
structure Attachments where
  entries : List (String × Option Value)
deriving DecidableEq, Repr

namespace Attachments

/-- Nothing attached. -/
def none : Attachments := ⟨[]⟩

instance : Inhabited Attachments := ⟨none⟩

/-- What is attached under a key: nothing at all, no value, or a value. -/
def find? (a : Attachments) (key : String) : Option (Option Value) :=
  (a.entries.find? fun entry ↦ entry.1 == key).map Prod.snd

/-- Whether something is attached under a key, be it no value. -/
def contains (a : Attachments) (key : String) : Bool := (a.find? key).isSome

/-- The value under a key. -/
def value? (a : Attachments) (key : String) : Option Value := (a.find? key).join

/-- Whether there is a value under a key. -/
def isPresent (a : Attachments) (key : String) : Bool := (a.value? key).isSome

/-- The value under a key, if it is of the type asked for. -/
def get? (a : Attachments) (type : ValueType) (key : String) : Option Value :=
  (a.value? key).filter fun v ↦ v.type == type

/-- Takes the key out, and what is under it. -/
def erase (a : Attachments) (key : String) : Attachments :=
  ⟨a.entries.filter fun entry ↦ entry.1 != key⟩

/-- Attaches a value, or the lack of one, in place of what was under the key. -/
def attach (a : Attachments) (key : String) (v : Option Value) : Attachments :=
  ⟨(a.erase key).entries ++ [(key, v)]⟩

/-- Attaches a value under a key. -/
def put (a : Attachments) (key : String) (v : Value) : Attachments := a.attach key (some v)

/-- Attaches a key without a value. -/
def putNull (a : Attachments) (key : String) : Attachments := a.attach key .none

/-- Replaces the value under the key of its own type, if one of that type is there. The old value
is handed out. -/
def set (a : Attachments) (v : Value) : Option Value × Attachments :=
  match a.get? v.type v.type.key with
  | some old => (some old, a.put v.type.key v)
  | .none => (.none, a)

/-- Takes out the value under the key of a type, if it is of that type. -/
def take (a : Attachments) (type : ValueType) : Option Value × Attachments :=
  match a.get? type type.key with
  | some v => (some v, a.erase type.key)
  | .none => (.none, a)

/-- The attached keys in ascending order. -/
def keys (a : Attachments) : List String :=
  Sorting.sortTexts (a.entries.map Prod.fst)

/-- How many keys are attached. -/
def size (a : Attachments) : Nat := a.entries.length

/-- The attachments spelled out. -/
def spelled (a : Attachments) : String :=
  "Attachments \x7b keys: [" ++
    ", ".intercalate (a.keys.map fun key ↦ "AttachmentKey(" ++ Text.quoted key ++ ")") ++
    "] \x7d"

theorem find?_erase (a : Attachments) (key other : String) :
    (a.erase key).find? other = if other = key then .none else a.find? other := by
  unfold erase find?
  rw [List.find?_filter]
  by_cases h : other = key
  · subst h
    simp
  · have same : (fun entry : String × Option Value ↦
        (entry.1 != key) && (entry.1 == other)) = fun entry ↦ entry.1 == other := by
      funext entry
      by_cases he : entry.1 = other
      · simp [he, h]
      · simp [he]
    simp only [Bool.decide_and, Bool.decide_eq_true, same, if_neg h]

@[simp] theorem find?_attach (a : Attachments) (key other : String) (v : Option Value) :
    (a.attach key v).find? other = if other = key then some v else a.find? other := by
  have h := find?_erase a key other
  unfold attach
  unfold find? at h ⊢
  rw [List.find?_append, Option.map_or, h]
  by_cases ho : other = key
  · simp [ho]
  · have : (key == other) = false := by simpa using fun e ↦ ho e.symm
    simp [ho, this]

end Attachments

end Rollout
