import Rollout.Json
import Rollout.Json.Scan
import Rollout.Text.Blank
import Rollout.Text.Quoted

/-!
Configuration. A controller is configured by the stage that new deployments are driven to, whether
an incomplete deployment is an error, how many passes a batch may take, and whether events are sent.
A configuration can be read from JSON: an object with any of these fields, each at most once, or the
fields in order in an array.
-/

set_option autoImplicit false
set_option relaxedAutoImplicit false

namespace Rollout

/-- How a controller is to behave. -/
structure Config where
  defaultTarget : String := "Installed"
  errorOnIncomplete : Bool := true
  maxPasses : Nat := 10000
  emitEvents : Bool := true
deriving DecidableEq, Repr

namespace Config

instance : Inhabited Config := ⟨{}⟩

/-- What makes a configuration unusable. -/
inductive Fault
  | blankTarget
  | noPasses
deriving DecidableEq, Repr

/-- The text of a fault. -/
def Fault.message : Fault → String
  | .blankTarget => "default_target cannot be empty"
  | .noPasses => "max_passes must be at least 1"

/-- The first fault of a configuration. -/
def fault? (c : Config) : Option Fault :=
  if Text.isBlank c.defaultTarget then some .blankTarget
  else if c.maxPasses = 0 then some .noPasses
  else none

/-- The fields of a configuration as JSON, under their names. -/
def toJson (c : Config) : Json :=
  .object [("default_target", .text c.defaultTarget),
    ("error_on_incomplete", .bool c.errorOnIncomplete),
    ("max_passes", .count c.maxPasses),
    ("emit_events", .bool c.emitEvents)]

/-- The configuration spelled out. -/
def spelled (c : Config) : String :=
  "ControllerConfig \x7b default_target: " ++ Text.quoted c.defaultTarget ++
    s!", error_on_incomplete: {c.errorOnIncomplete}, max_passes: {c.maxPasses}" ++
    s!", emit_events: {c.emitEvents} \x7d"

/-- The fields that have been read so far. -/
structure Given where
  defaultTarget : Option String := none
  errorOnIncomplete : Option Bool := none
  maxPasses : Option Nat := none
  emitEvents : Option Bool := none

/-- The configuration with the fields that were given. -/
def ofGiven (g : Given) : Config :=
  let standard : Config := {}
  { defaultTarget := g.defaultTarget.getD standard.defaultTarget
    errorOnIncomplete := g.errorOnIncomplete.getD standard.errorOnIncomplete
    maxPasses := g.maxPasses.getD standard.maxPasses
    emitEvents := g.emitEvents.getD standard.emitEvents }

open Json

/-- The largest number of passes that can be asked for: it is counted in sixty-four bits. -/
def passLimit : Nat := UInt64.size - 1

/-- Reads the value of the field of a name. A field that is not known is passed over, and one that
has been given already is refused. -/
def Given.read (g : Given) (field : String) (cs : List Char) : Option (Given × List Char) :=
  match field with
  | "default_target" =>
    if g.defaultTarget.isSome then none
    else (Scan.text cs).map fun (v, rest) ↦ ({ g with defaultTarget := some v }, rest)
  | "error_on_incomplete" =>
    if g.errorOnIncomplete.isSome then none
    else (Scan.truth cs).map fun (v, rest) ↦ ({ g with errorOnIncomplete := some v }, rest)
  | "max_passes" =>
    if g.maxPasses.isSome then none
    else (Scan.natural cs).bind fun (v, rest) ↦
      if v ≤ passLimit then some ({ g with maxPasses := some v }, rest) else none
  | "emit_events" =>
    if g.emitEvents.isSome then none
    else (Scan.truth cs).map fun (v, rest) ↦ ({ g with emitEvents := some v }, rest)
  | _ => (Scan.skip cs).map (g, ·)

/-- Reads the fields of an object that has some, and its closing brace; each takes a step. -/
def readFields : Nat → Given → List Char → Option (Given × List Char)
  | 0, _, _ => none
  | fuel + 1, g, cs =>
    (Scan.text cs).bind fun (field, rest) ↦
      (Scan.expect ':' rest).bind fun rest ↦
        (g.read field rest).bind fun (g, rest) ↦
          match Scan.expect ',' rest with
          | some rest => readFields fuel g rest
          | none => (Scan.expect '\x7d' rest).map (g, ·)

/-- Reads the elements of an array that has some as the fields of the given names, and its closing
bracket. Fields may lack at the end. -/
def readElements : List String → Given → List Char → Option (Given × List Char)
  | [], _, _ => none
  | field :: fields, g, cs =>
    (g.read field cs).bind fun (g, rest) ↦
      match Scan.expect ',' rest with
      | some rest => readElements fields g rest
      | none => (Scan.expect ']' rest).map (g, ·)

/-- The names of the fields in order. -/
def fieldNames : List String :=
  ["default_target", "error_on_incomplete", "max_passes", "emit_events"]

/-- Reads a configuration from the front of a text. -/
def readFrom (cs : List Char) : Option (Given × List Char) :=
  match Scan.skipSpace cs with
  | '\x7b' :: rest =>
    match Scan.expect '\x7d' rest with
    | some rest => some ({}, rest)
    | none => readFields (rest.length + 1) {} rest
  | '[' :: rest =>
    match Scan.expect ']' rest with
    | some rest => some ({}, rest)
    | none => readElements fieldNames {} rest
  | _ => none

/-- The configuration that a text describes, usable or not. -/
def ofText? (s : String) : Option Config :=
  (Scan.whole readFrom s).map ofGiven

end Config

end Rollout
