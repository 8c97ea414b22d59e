import Rollout.Text.Unshown

/-!
Quoted text. A text is shown in quotes so that a reader can tell exactly what is in it: a quote, a
backslash, the usual blanks and the zero character are escaped by a letter, and a character that
does not show is given by its code point.
-/

set_option autoImplicit false
set_option relaxedAutoImplicit false

namespace Rollout.Text

/-- How one character stands in a quoted text. -/
def escape (c : Char) : List Char :=
  match c with
  | '\x00' => ['\\', '0']
  | '\t' => ['\\', 't']
  | '\r' => ['\\', 'r']
  | '\n' => ['\\', 'n']
  | '"' => ['\\', '"']
  | '\\' => ['\\', '\\']
  | c =>
    if isUnshown c then ['\\', 'u', '\x7b'] ++ Nat.toDigits 16 c.toNat ++ ['\x7d']
    else [c]

/-- A text in quotes. -/
def quoted (s : String) : String :=
  String.ofList ('"' :: s.toList.flatMap escape ++ ['"'])

/-- Texts in quotes, in brackets. -/
def quotedList (l : List String) : String :=
  "[" ++ ", ".intercalate (l.map quoted) ++ "]"

end Rollout.Text
