import ArchiveKeeper.CommandLine.Misuse

namespace ArchiveKeeper.CommandLine

inductive Command where
  | fetch
  | watch
  | overview
  | document (path : String)
deriving DecidableEq, Repr, Inhabited

inductive Request where
  | help
  /-- A command, under the configuration file that is named. -/
  | command (c : Command) (config? : Option String)
deriving DecidableEq, Repr, Inhabited

structure Sorted where
  config? : Option String
  operands : List String
  /-- From the first unknown option on. -/
  unknown : List String
deriving DecidableEq, Repr, Inhabited

inductive ConfigOption where
  /-- The path is the next argument. -/
  | ahead
  | within (path : String)
deriving DecidableEq, Repr

def configOption? (s : String) : Option ConfigOption :=
  if s = "-c" ∨ s = "--config" then some .ahead
  else
    let rest := (Text.after? "-c".toList s.toList).orElse fun () =>
      Text.after? "--config=".toList s.toList
    rest.map fun cs => .within (String.ofList cs)

def isOption (s : String) : Bool :=
  match s.toList with
  | '-' :: _ :: _ => true
  | _ => false

namespace Sorted

def add (s : Sorted) (argument : String) : Sorted :=
  if isOption argument ∨ s.unknown ≠ [] then { s with unknown := s.unknown ++ [argument] }
  else { s with operands := s.operands ++ [argument] }

def addPlain (s : Sorted) (rest : List String) : Sorted :=
  if s.unknown ≠ [] then { s with unknown := s.unknown ++ optionMark :: rest }
  else { s with operands := s.operands ++ rest }

def addAll (s : Sorted) : List String → Except Misuse Sorted
  | [] => .ok s
  | a :: rest =>
    if a = optionMark then .ok (s.addPlain rest)
    else match configOption? a with
      | none => (s.add a).addAll rest
      | some (.within path) => { s with config? := some path }.addAll rest
      | some .ahead => match rest with
        | [] => .error .noConfigPath
        | path :: rest => { s with config? := some path }.addAll rest

def asksForHelp (s : Sorted) : Bool := s.unknown.any fun a => a = "-h" ∨ a = "--help"

def command (s : Sorted) : Except Misuse Command :=
  match s.operands with
  | [] => .error .noCommand
  | "fetch" :: _ => .ok .fetch
  | "watch" :: _ => .ok .watch
  | "overview" :: _ => .ok .overview
  | ["show"] => .error .noDocumentPath
  | "show" :: path :: _ => .ok (.document path)
  | name :: _ => .error (.unknownCommand name)

/-- What is asked for. Help comes first, then an unknown command, then an unknown option, and what
is missing last. -/
def request (s : Sorted) : Except Misuse Request :=
  if s.asksForHelp ∨ s.operands.head? = some "help" then .ok .help
  else match s.command, s.unknown with
    | .error (.unknownCommand name), _ => .error (.unknownCommand name)
    | _, option :: _ => .error (.unknownOption option)
    | .ok c, [] => .ok (.command c s.config?)
    | .error m, [] => .error m

end Sorted

def Request.read (arguments : List String) : Except Misuse Request :=
  match Sorted.addAll ⟨none, [], []⟩ arguments with
  | .ok sorted => sorted.request
  | .error m => .error m

end ArchiveKeeper.CommandLine
