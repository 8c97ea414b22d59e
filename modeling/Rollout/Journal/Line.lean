import Rollout.Json

/-!
What leaves a journal: lines for a log, each with a level and named fields, and events for a client,
each with a type and JSON data.
-/

set_option autoImplicit false
set_option relaxedAutoImplicit false

namespace Rollout

/-- How much a log line matters. -/
inductive Level
  | trace
  | debug
  | info
  | warn
  | error
deriving DecidableEq, Repr

namespace Level

/-- The name of a level. -/
def text : Level → String
  | trace => "TRACE"
  | debug => "DEBUG"
  | info => "INFO"
  | warn => "WARN"
  | error => "ERROR"

/-- The level of a name. -/
def ofText? (s : String) : Option Level :=
  [trace, debug, info, warn, error].find? fun l ↦ l.text == s

end Level

/-- A line for a log. -/
structure Line where
  level : Level
  message : String
  fields : List (String × String)
deriving DecidableEq, Repr

/-- An event for a client; an event may come without data. -/
structure Event where
  type : String
  data : Option Json

/-- The event with the given fields and the time at which it happened. -/
def Event.ofFields (type : String) (time : String) (fields : List (String × Json)) : Event :=
  ⟨type, some (.object (fields ++ [("timestamp", .text time)]))⟩

end Rollout
