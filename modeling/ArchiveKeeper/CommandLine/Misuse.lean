import ArchiveKeeper.Text.Similar

namespace ArchiveKeeper.CommandLine

inductive Misuse where
  | noCommand
  | unknownCommand (name : String)
  | unknownOption (name : String)
  /-- The option for the configuration file stands without a path. -/
  | noConfigPath
  /-- The command that shows a document stands without a path. -/
  | noDocumentPath
deriving DecidableEq, Repr, Inhabited

def commandNames : List String := ["fetch", "watch", "overview", "show", "help"]

def longOptions : List String := ["--config", "--help"]

def optionMark : String := "--"

/-- The known words that an unknown one may have meant. If it begins like a long option, what
follows the mark is compared, and the mark is put in front of what is found. -/
def meant (word : String) (known : List String) : List String :=
  match Text.after? optionMark.toList word.toList with
  | some rest =>
    let bare := known.map fun k => (k.drop optionMark.length).toString
    (Text.nearest (String.ofList rest) bare).map (optionMark ++ ·)
  | none => Text.nearest word known

def suggestion (word : String) (known : List String) : String :=
  match meant word known with
  | [] => ""
  | [one] => "\n(Did you mean " ++ one ++ "?)"
  | several => "\n(Did you mean one of " ++ ", ".intercalate several ++ "?)"

def usage : String := "\n".intercalate [
  "Usage: archive-keeper [-c <path>] <command>",
  "",
  "Keeps a local cache of the archives of completed jobs.",
  "",
  "  -c, --config <path>  the configuration file",
  "  -h, --help           this text",
  "",
  "  fetch        fill the cache in a single cycle",
  "  watch        keep the cache up to date",
  "  overview     print the overview of all jobs",
  "  show <path>  print the document at a path, such as /jobs/<id>"]

def Misuse.message : Misuse → String
  | .noCommand => usage
  | .unknownCommand name => "error: unknown command '" ++ name ++ "'" ++ suggestion name commandNames
  | .unknownOption name =>
    let said := if (Text.after? optionMark.toList name.toList).isSome
      then suggestion name longOptions else ""
    "error: unknown option '" ++ name ++ "'" ++ said
  | .noConfigPath => "error: option '-c, --config <path>' argument missing"
  | .noDocumentPath => "error: missing required argument 'path'"

end ArchiveKeeper.CommandLine
