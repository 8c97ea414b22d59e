import Rollout.Double.Layout
import Rollout.Sorting

/-!
JSON values and their two written forms. The compact form has no space in it; the laid-out form puts
every element on a line of its own, two blanks deeper than what holds it. In a text a quote, a
backslash and the control characters are escaped and nothing else is. A number in double precision
is written with the fewest digits that identify it.
-/

set_option autoImplicit false
set_option relaxedAutoImplicit false

namespace Rollout

/-- A JSON value. The fields of an object are kept in the order in which they were given. -/
inductive Json where
  | null
  | bool (b : Bool)
  | int (n : Int)
  | real (x : Double)
  | text (s : String)
  | array (elements : List Json)
  | object (fields : List (String × Json))

namespace Json

instance : Inhabited Json := ⟨null⟩

/-- The field of an object of a name. Of several the last one counts. -/
def field? (key : String) : Json → Option Json
  | object fields => (fields.reverse.find? fun f ↦ f.1 == key).map Prod.snd
  | _ => none

/-- A whole number that counts something. -/
def count (n : Nat) : Json := int n

/-- A text, or nothing. -/
def text? : Option String → Json
  | none => null
  | some s => text s

/-- Two hexadecimal digits in lower case. -/
def hexByte (n : Nat) : List Char :=
  [Nat.digitChar (n / 16 % 16), Nat.digitChar (n % 16)]

/-- How one character stands inside a written text. -/
def escape (c : Char) : List Char :=
  match c with
  | '"' => ['\\', '"']
  | '\\' => ['\\', '\\']
  | '\n' => ['\\', 'n']
  | '\r' => ['\\', 'r']
  | '\t' => ['\\', 't']
  | '\x08' => ['\\', 'b']
  | '\x0c' => ['\\', 'f']
  | c => if c.toNat < 32 then ['\\', 'u', '0', '0'] ++ hexByte c.toNat else [c]

/-- A text as it is written. -/
def quote (s : String) : String :=
  String.ofList ('"' :: s.toList.flatMap escape ++ ['"'])

/-- From 0.00001 up to the sixteenth power of ten a number has digits on both sides of its point;
elsewhere it has a power of ten with a sign. -/
def realLayout : Double.Layout where
  least := -5
  greatest := 15

mutual

/-- The compact form. -/
def compact : Json → String
  | null => "null"
  | bool b => if b then "true" else "false"
  | int n => toString n
  | real x => realLayout.text x
  | text s => quote s
  | array elements => "[" ++ ",".intercalate (compactEach elements) ++ "]"
  | object fields => "\x7b" ++ ",".intercalate (compactFields fields) ++ "\x7d"

/-- The compact forms of several values. -/
def compactEach : List Json → List String
  | [] => []
  | v :: rest => v.compact :: compactEach rest

/-- The compact forms of several fields. -/
def compactFields : List (String × Json) → List String
  | [] => []
  | (key, v) :: rest => (quote key ++ ":" ++ v.compact) :: compactFields rest

end

/-- Some lines between brackets, or the brackets alone. -/
def layOut (opening closing : String) (depth : Nat) (lines : List String) : String :=
  let indent (n : Nat) := "".pushn ' ' (2 * n)
  match lines with
  | [] => opening ++ closing
  | lines =>
    opening ++ "\n" ++ ",\n".intercalate (lines.map (indent (depth + 1) ++ ·)) ++ "\n" ++
      indent depth ++ closing

mutual

/-- The form laid out over lines, inside `depth` other values. -/
def prettyAt (depth : Nat) : Json → String
  | array elements => layOut "[" "]" depth (prettyEach (depth + 1) elements)
  | object fields => layOut "\x7b" "\x7d" depth (prettyFields (depth + 1) fields)
  | null => "null"
  | bool b => if b then "true" else "false"
  | int n => toString n
  | real x => realLayout.text x
  | text s => quote s

/-- The laid-out forms of several values. -/
def prettyEach (depth : Nat) : List Json → List String
  | [] => []
  | v :: rest => v.prettyAt depth :: prettyEach depth rest

/-- The laid-out forms of several fields. -/
def prettyFields (depth : Nat) : List (String × Json) → List String
  | [] => []
  | (key, v) :: rest => (quote key ++ ": " ++ v.prettyAt depth) :: prettyFields depth rest

end

/-- The form laid out over lines. -/
def pretty (v : Json) : String := v.prettyAt 0

mutual

/-- The same value with the fields of every object sorted by name; of several fields with one name
the last one counts. -/
def sorted : Json → Json
  | array elements => array (sortedEach elements)
  | object fields => object (sortedFields [] fields)
  | null => null
  | bool b => bool b
  | int n => int n
  | real x => real x
  | text s => text s

/-- Several values with sorted fields. -/
def sortedEach : List Json → List Json
  | [] => []
  | v :: rest => v.sorted :: sortedEach rest

/-- Several fields sorted into those that have been sorted already. -/
def sortedFields (done : List (String × Json)) : List (String × Json) → List (String × Json)
  | [] => done
  | (key, v) :: rest => sortedFields (Sorting.enter key v.sorted done) rest

end

end Json

end Rollout
