import ArchiveKeeper.Job.Path

namespace ArchiveKeeper

abbrev Environment := List (String × String)

namespace Environment

def get? (e : Environment) (name : String) : Option String :=
  (e.find? fun v => v.1 = name).map Prod.snd

def filled? (e : Environment) (name : String) : Option String := (e.get? name).filter (· ≠ "")

/-- Adds variables where they are not set. -/
def extend (e more : Environment) : Environment :=
  more.foldl (fun e v => if (e.get? v.1).isSome then e else e ++ [v]) e

def set (e : Environment) (name value : String) : Environment :=
  (name, value) :: e.filter fun v => v.1 ≠ name

/-- The name between the braces of a text that is a reference to a variable as a whole. -/
def reference? (cs : List Char) : Option String :=
  match Text.after? ['$', '\x7b'] cs with
  | some rest =>
    if cs.getLast? = some '\x7d' then some (String.ofList rest.dropLast) else none
  | none => none

def mentioned : List Char → List String
  | [] => []
  | c :: rest =>
    match Text.after? ['$', '\x7b'] (c :: rest) with
    | some inner => String.ofList (inner.takeWhile (· ≠ '\x7d')) :: mentioned rest
    | none => mentioned rest

end Environment

end ArchiveKeeper
