import Rollout.Journal.Line

/-!
Sinks for events. A sink either drops what it is sent, writes it to the log at its level, or keeps
it in order.
-/

set_option autoImplicit false
set_option relaxedAutoImplicit false

namespace Rollout

/-- Where events go. -/
inductive Sink
  | silent
  | logging (level : Level)
  | collecting
deriving DecidableEq, Repr

namespace Sink

/-- The level at which events are logged: debugging on demand, else information. -/
def lineLevel : Level → Level
  | .debug => .debug
  | _ => .info

/-- What an event becomes in the log. -/
def lines : Sink → Event → List Line
  | logging level, e =>
    [⟨lineLevel level, "Deployment event",
      [("event", e.type), ("payload", (e.data.map fun v ↦ v.sorted.compact).getD "")]⟩]
  | _, _ => []

/-- The events a sink keeps of those it is sent. -/
def kept : Sink → List Event → List Event
  | collecting, es => es
  | _, _ => []

end Sink

/-- The events whose type begins with a text. -/
def Event.ofType (start : String) (es : List Event) : List Event :=
  es.filter fun e ↦ start.toList.isPrefixOf e.type.toList

end Rollout
