import ArchiveKeeper.Json.Value

namespace ArchiveKeeper.Check

inductive Kind where
  | string
  | number
  | nan
  | integer
  | float
  | boolean
  | object
  | array
  | null
  | function
deriving DecidableEq, Repr

def Kind.text : Kind → String
  | .string => "string"
  | .number => "number"
  | .nan => "nan"
  | .integer => "integer"
  | .float => "float"
  | .boolean => "boolean"
  | .object => "object"
  | .array => "array"
  | .null => "null"
  | .function => "function"

inductive Step where
  | name (s : String)
  | index (i : Nat)
deriving DecidableEq, Repr

def Step.text : Step → String
  | .name s => s
  | .index i => toString i

def choices (options : List String) : String :=
  " | ".intercalate (options.map fun o => "'" ++ o ++ "'")

inductive Cause where
  /-- A value that must be there is missing. -/
  | required
  | kind (expected received : Kind)
  | kindOfChoice (options : List String) (received : Kind)
  | choice (options : List String) (received : String)
  | least (n : Nat)
  | length (n : Nat)
  | url
  /-- A value that none of several forms admits. -/
  | noForm
  /-- A rule of the domain, by its own wording. -/
  | rule (wording : String)
deriving DecidableEq, Repr

def Cause.text : Cause → String
  | .required => "Required"
  | .kind expected received => "Expected " ++ expected.text ++ ", received " ++ received.text
  | .kindOfChoice options received =>
    "Expected " ++ choices options ++ ", received " ++ received.text
  | .choice options received =>
    "Invalid enum value. Expected " ++ choices options ++ ", received '" ++ received ++ "'"
  | .least n => "Number must be greater than or equal to " ++ toString n
  | .length n => "String must contain at least " ++ toString n ++ " character(s)"
  | .url => "Invalid url"
  | .noForm => "Invalid input"
  | .rule wording => wording

structure Issue where
  path : List Step
  cause : Cause
deriving DecidableEq, Repr

namespace Issue

def place (i : Issue) : String := ".".intercalate (i.path.map Step.text)

/-- An issue with its place; the value as a whole is called `<root>`. -/
def text (i : Issue) : String :=
  (if i.place = "" then "<root>" else i.place) ++ ": " ++ i.cause.text

def report (issues : List Issue) : String := "; ".intercalate (issues.map text)

end Issue

end ArchiveKeeper.Check
