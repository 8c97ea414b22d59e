/-!
Blank text. A name or an attachment key is blank when every character of it is white space, and a
setting read from outside is stripped of white space at both ends before it is looked at. White
space is the Unicode property of that name, not only its ASCII part.
-/

set_option autoImplicit false
set_option relaxedAutoImplicit false

namespace Rollout.Text

/-- The characters with the Unicode property White_Space. -/
def isSpace (c : Char) : Bool :=
  let n := c.toNat
  (9 ≤ n && n ≤ 13) || n == 0x20 || n == 0x85 || n == 0xA0 || n == 0x1680 ||
    (0x2000 ≤ n && n ≤ 0x200A) || n == 0x2028 || n == 0x2029 || n == 0x202F ||
    n == 0x205F || n == 0x3000

/-- A text without a character that shows. The empty text is blank. -/
def isBlank (s : String) : Bool :=
  s.toList.all isSpace

/-- The text less the white space at its two ends. -/
def trim (s : String) : String :=
  String.ofList (((s.toList.dropWhile isSpace).reverse.dropWhile isSpace).reverse)

/-- Every character that core calls white space is white space here. -/
theorem isSpace_of_isWhitespace {c : Char} (h : c.isWhitespace) : isSpace c := by
  simp only [Char.isWhitespace, Bool.or_eq_true, decide_eq_true_eq] at h
  rcases h with ((rfl | rfl) | rfl) | rfl <;> decide

theorem isBlank_empty : isBlank "" = true := rfl

end Rollout.Text
