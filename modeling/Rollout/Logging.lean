import Rollout.Error
import Rollout.Text.Blank

/-!
Log settings. The form of the log and the least level that is logged are set from outside by texts;
what makes no sense falls back to plain text and to information. A log can be installed only once.
-/

set_option autoImplicit false
set_option relaxedAutoImplicit false

namespace Rollout

/-- A text with ASCII capitals made small. -/
def lowered (s : String) : String := s.map Char.toLower

/-- The form of a log. -/
inductive LogFormat
  | text
  | json
deriving DecidableEq, Repr

namespace LogFormat

/-- The word for a form. -/
def word : LogFormat → String
  | text => "text"
  | json => "json"

/-- The form of exactly this word. -/
def ofWord? (s : String) : Option LogFormat :=
  [text, json].find? fun f ↦ f.word == s

/-- The form that a setting asks for, blanks around it and case aside. -/
def ofSetting (s : String) : LogFormat :=
  if lowered (Text.trim s) = "json" then json else text

/-- The form that a setting asks for, if it is set. -/
def ofSetting? : Option String → LogFormat
  | none => text
  | some s => ofSetting s

end LogFormat

namespace Logging

/-- The levels that a filter can name, the quietest first. -/
def filterLevels : List String := ["off", "error", "warn", "info", "debug", "trace"]

/-- The filter of a level, by its name in any case or by its number. -/
def filterOfLevel? (s : String) : Option String :=
  if lowered s ∈ filterLevels then some (lowered s)
  else if s.toList.all Char.isDigit then s.toNat?.bind (filterLevels[·]?)
  else none

/-- The filter that a setting asks for. An empty setting makes an empty filter, and one that is not
understood or not set lets information through. -/
def filterOf : Option String → String
  | none => "info"
  | some s => if s.isEmpty then "" else (filterOfLevel? s).getD "info"

/-- Installs a log, which fails if there is one already. -/
def install (installed : Bool) : Except Error Unit :=
  if installed then
    .error (.config ("tracing already initialized: a global default trace dispatcher has " ++
      "already been set"))
  else .ok ()

end Logging

end Rollout
