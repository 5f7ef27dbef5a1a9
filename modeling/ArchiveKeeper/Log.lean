import ArchiveKeeper.Json.Value

namespace ArchiveKeeper

namespace Log

inductive Level where
  | debug
  | info
  | warn
  | error
deriving DecidableEq, Repr, Inhabited

def Level.name : Level → String
  | .debug => "debug"
  | .info => "info"
  | .warn => "warn"
  | .error => "error"

def Level.severity : Level → Nat
  | .debug => 20
  | .info => 30
  | .warn => 40
  | .error => 50

inductive Threshold where
  | fatal
  | error
  | warn
  | info
  | debug
  | trace
  | silent
deriving DecidableEq, Repr, Inhabited

namespace Threshold

def name : Threshold → String
  | .fatal => "fatal"
  | .error => "error"
  | .warn => "warn"
  | .info => "info"
  | .debug => "debug"
  | .trace => "trace"
  | .silent => "silent"

def all : List Threshold := [.fatal, .error, .warn, .info, .debug, .trace, .silent]

def severity? : Threshold → Option Nat
  | .fatal => some 60
  | .error => some 50
  | .warn => some 40
  | .info => some 30
  | .debug => some 20
  | .trace => some 10
  | .silent => none

def admits (t : Threshold) (l : Level) : Bool := t.severity?.any (· ≤ l.severity)

end Threshold

structure Record where
  level : Level
  message : String
  fields : List (String × Json.Value)
deriving Repr, Inhabited

/-- Puts bindings in front of a record's own fields, which win over bindings of the same name. -/
def Record.bind (bindings : List (String × Json.Value)) (r : Record) : Record :=
  { r with fields := (bindings.filter fun b => r.fields.all fun f => f.1 ≠ b.1) ++ r.fields }

def hiddenBindings : List String := ["level", "serializers", "formatters", "customLevels"]

/-- The line of a record with bindings in front of its fields; the last value of a name is shown. -/
def Record.line (bindings : List (String × Json.Value)) (r : Record) : Json.Value :=
  .object (Json.Value.settle (([("level", Json.Value.nat r.level.severity)] ++
    bindings.filter (fun b => b.1 ∉ hiddenBindings) ++ r.fields ++
    [("msg", Json.Value.str r.message)]).map fun f => (Json.Text.ofString f.1, f.2)))

def debug (message : String) (fields : List (String × Json.Value)) : Record :=
  ⟨.debug, message, fields⟩

def info (message : String) (fields : List (String × Json.Value)) : Record :=
  ⟨.info, message, fields⟩

def warn (message : String) (fields : List (String × Json.Value)) : Record :=
  ⟨.warn, message, fields⟩

def error (message : String) (fields : List (String × Json.Value)) : Record :=
  ⟨.error, message, fields⟩

end Log

end ArchiveKeeper
