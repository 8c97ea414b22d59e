import Rollout.Json.Literal

/-!
Reading JSON text from the front. Each reader takes what it reads off the text and gives the rest.
A text that is read has to be Unicode, so an escape that names half a surrogate pair needs the other
half behind it; a value that is only passed over needs to be grammatical and nothing more.
-/

set_option autoImplicit false
set_option relaxedAutoImplicit false

namespace Rollout.Json

namespace Scan

/-- The text after its leading blanks. -/
def skipSpace (cs : List Char) : List Char :=
  cs.dropWhile fun c ↦ c == ' ' || c == '\n' || c == '\t' || c == '\r'

/-- Reads one given character after blanks. -/
def expect (c : Char) (cs : List Char) : Option (List Char) :=
  match skipSpace cs with
  | d :: rest => if d == c then some rest else none
  | [] => none

/-- Reads a word. -/
def expectWord (word : List Char) (cs : List Char) : Option (List Char) :=
  if word.isPrefixOf cs then some (cs.drop word.length) else none

/-- The value of a hexadecimal digit. -/
def hexDigit? (c : Char) : Option Nat :=
  if '0' ≤ c && c ≤ '9' then some (c.toNat - 48)
  else if 'a' ≤ c && c ≤ 'f' then some (c.toNat - 87)
  else if 'A' ≤ c && c ≤ 'F' then some (c.toNat - 55)
  else none

/-- The 16-bit unit that four digits give. -/
def unit? (a b c d : Char) : Option Nat := do
  return ((← hexDigit? a) * 16 + (← hexDigit? b)) * 256 + (← hexDigit? c) * 16 + (← hexDigit? d)

/-- The character of an escape with a single letter. -/
def shortEscape? : Char → Option Char
  | '"' => some '"'
  | '\\' => some '\\'
  | '/' => some '/'
  | 'b' => some '\x08'
  | 'f' => some '\x0c'
  | 'n' => some '\n'
  | 'r' => some '\r'
  | 't' => some '\t'
  | _ => none

/-- One piece of a text: a character, or a 16-bit unit given by its number. -/
inductive Piece
  | char (c : Char)
  | unit (n : Nat)

/-- Reads the pieces of a text up to its closing quote. -/
def pieces : List Char → Option (List Piece × List Char)
  | [] => none
  | '"' :: rest => some ([], rest)
  | '\\' :: 'u' :: a :: b :: c :: d :: rest => do
    let n ← unit? a b c d
    let (more, rest) ← pieces rest
    return (.unit n :: more, rest)
  | '\\' :: c :: rest => do
    let c ← shortEscape? c
    let (more, rest) ← pieces rest
    return (.char c :: more, rest)
  | c :: rest =>
    if c == '\\' || c.toNat < 32 then none
    else do
      let (more, rest) ← pieces rest
      return (.char c :: more, rest)

/-- The characters of some pieces, if all units make up characters. -/
def join : List Piece → Option (List Char)
  | [] => some []
  | .char c :: rest => (join rest).map (c :: ·)
  | .unit n :: rest =>
    if n < 0xD800 || 0xDFFF < n then (join rest).map (Char.ofNat n :: ·)
    else match rest with
      | .unit m :: rest =>
        if n ≤ 0xDBFF && 0xDC00 ≤ m && m ≤ 0xDFFF then
          (join rest).map (Char.ofNat (0x10000 + (n - 0xD800) * 0x400 + (m - 0xDC00)) :: ·)
        else none
      | _ => none

/-- Reads a text with its quotes. -/
def text (cs : List Char) : Option (String × List Char) := do
  let rest ← expect '"' cs
  let (ps, rest) ← pieces rest
  let chars ← join ps
  return (String.ofList chars, rest)

/-- Reads the digits in front, however many there are. -/
def digits (cs : List Char) : List Nat × List Char :=
  ((cs.takeWhile Char.isDigit).map (·.toNat - 48), cs.dropWhile Char.isDigit)

/-- Reads the digits in front, if there are any. -/
def someDigits (cs : List Char) : Option (List Nat × List Char) :=
  let (ds, rest) := digits cs
  if ds.isEmpty then none else some (ds, rest)

/-- Reads the whole part of a number: one zero, or digits that do not begin with zero. -/
def wholePart (cs : List Char) : Option (List Nat × List Char) :=
  (someDigits cs).filter fun (ds, _) ↦ ds.head? != some 0 || ds.length == 1

/-- Reads the part after a point, if there is one. -/
def fraction : List Char → Option (Option (List Nat) × List Char)
  | '.' :: rest => (someDigits rest).map fun (ds, rest) ↦ (some ds, rest)
  | cs => some (none, cs)

/-- Reads a power of ten, if there is one. -/
def power (cs : List Char) : Option (Option Int × List Char) :=
  let unsigned (sign : Int) (rest : List Char) :=
    (someDigits rest).map fun (ds, rest) ↦ (some (sign * Literal.ofDigits ds), rest)
  match cs with
  | 'e' :: rest | 'E' :: rest =>
    match rest with
    | '+' :: rest => unsigned 1 rest
    | '-' :: rest => unsigned (-1) rest
    | rest => unsigned 1 rest
  | cs => some (none, cs)

/-- Reads a number. -/
def number (cs : List Char) : Option (Literal × List Char) := do
  let (negative, rest) := match cs with
    | '-' :: rest => (true, rest)
    | cs => (false, cs)
  let (whole, rest) ← wholePart rest
  let (places, rest) ← fraction rest
  let (power, rest) ← power rest
  return (⟨negative, whole, places, power⟩, rest)

/-- Reads a number that is written with digits alone. -/
def natural (cs : List Char) : Option (Nat × List Char) := do
  let (l, rest) ← number (skipSpace cs)
  return (← l.natural?, rest)

/-- Reads a truth value. -/
def truth (cs : List Char) : Option (Bool × List Char) :=
  let cs := skipSpace cs
  match expectWord "true".toList cs with
  | some rest => some (true, rest)
  | none => (expectWord "false".toList cs).map (false, ·)

mutual

/-- Passes over any grammatical value; there are at most `fuel` steps to it. -/
def skipValue : Nat → List Char → Option (List Char)
  | 0, _ => none
  | fuel + 1, cs =>
    match skipSpace cs with
    | '"' :: rest => (pieces rest).map Prod.snd
    | 't' :: rest => expectWord "rue".toList rest
    | 'f' :: rest => expectWord "alse".toList rest
    | 'n' :: rest => expectWord "ull".toList rest
    | '[' :: rest =>
      match expect ']' rest with
      | some rest => some rest
      | none => skipElements fuel rest
    | '\x7b' :: rest =>
      match expect '\x7d' rest with
      | some rest => some rest
      | none => skipFields fuel rest
    | cs => (number cs).map Prod.snd

/-- Passes over the elements of an array that has some, and its closing bracket. -/
def skipElements : Nat → List Char → Option (List Char)
  | 0, _ => none
  | fuel + 1, cs =>
    match skipValue fuel cs with
    | none => none
    | some rest =>
      match expect ',' rest with
      | some rest => skipElements fuel rest
      | none => expect ']' rest

/-- Passes over the fields of an object that has some, and its closing brace. -/
def skipFields : Nat → List Char → Option (List Char)
  | 0, _ => none
  | fuel + 1, cs =>
    match expect '"' cs with
    | none => none
    | some rest =>
      match (pieces rest).bind fun p ↦ expect ':' p.2 with
      | none => none
      | some rest =>
        match skipValue fuel rest with
        | none => none
        | some rest =>
          match expect ',' rest with
          | some rest => skipFields fuel rest
          | none => expect '\x7d' rest

end

/-- Passes over one value, whatever it is. -/
def skip (cs : List Char) : Option (List Char) := skipValue (2 * cs.length + 2) cs

mutual

/-- Reads any value; there are at most `fuel` steps to it. -/
def valueWithin : Nat → List Char → Option (Json × List Char)
  | 0, _ => none
  | fuel + 1, cs =>
    match skipSpace cs with
    | '"' :: rest => (text ('"' :: rest)).map fun (s, rest) ↦ (.text s, rest)
    | 't' :: rest => (expectWord "rue".toList rest).map (.bool true, ·)
    | 'f' :: rest => (expectWord "alse".toList rest).map (.bool false, ·)
    | 'n' :: rest => (expectWord "ull".toList rest).map (.null, ·)
    | '[' :: rest =>
      match expect ']' rest with
      | some rest => some (.array [], rest)
      | none => (elements fuel rest).map fun (vs, rest) ↦ (.array vs, rest)
    | '\x7b' :: rest =>
      match expect '\x7d' rest with
      | some rest => some (.object [], rest)
      | none => (fields fuel rest).map fun (fs, rest) ↦ (.object fs, rest)
    | cs => (number cs).bind fun (l, rest) ↦ l.value?.map (·, rest)

/-- Reads the elements of an array that has some, and its closing bracket. -/
def elements : Nat → List Char → Option (List Json × List Char)
  | 0, _ => none
  | fuel + 1, cs =>
    match valueWithin fuel cs with
    | none => none
    | some (v, rest) =>
      match expect ',' rest with
      | some rest => (elements fuel rest).map fun (vs, rest) ↦ (v :: vs, rest)
      | none => (expect ']' rest).map ([v], ·)

/-- Reads the fields of an object that has some, and its closing brace. -/
def fields : Nat → List Char → Option (List (String × Json) × List Char)
  | 0, _ => none
  | fuel + 1, cs =>
    match text cs with
    | none => none
    | some (key, rest) =>
      match (expect ':' rest).bind (valueWithin fuel) with
      | none => none
      | some (v, rest) =>
        match expect ',' rest with
        | some rest => (fields fuel rest).map fun (fs, rest) ↦ ((key, v) :: fs, rest)
        | none => (expect '\x7d' rest).map ([(key, v)], ·)

end

/-- Reads one value, whatever it is. -/
def value (cs : List Char) : Option (Json × List Char) := valueWithin (2 * cs.length + 2) cs

/-- Reads a word out of a choice of words: its text, or an object with nothing under that name. -/
def choice (cs : List Char) : Option (String × List Char) :=
  match skipSpace cs with
  | '\x7b' :: rest => do
    let (word, rest) ← text rest
    let rest ← expect ':' rest
    let rest ← expectWord "null".toList (skipSpace rest)
    let rest ← expect '\x7d' rest
    return (word, rest)
  | cs => text cs

/-- Whether nothing but blanks is left. -/
def atEnd (cs : List Char) : Bool := (skipSpace cs).isEmpty

/-- Reads a whole text with a reader that leaves nothing but blanks. -/
def whole {α : Type} (reader : List Char → Option (α × List Char)) (s : String) : Option α :=
  (reader s.toList).bind fun (x, rest) ↦ if atEnd rest then some x else none

end Scan

/-- The value that a text describes. -/
def ofText? (s : String) : Option Json := Scan.whole Scan.value s

end Rollout.Json
