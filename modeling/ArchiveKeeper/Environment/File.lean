import ArchiveKeeper.Environment.Basic
import ArchiveKeeper.Text.Blank

namespace ArchiveKeeper.Environment.File

def withLineFeeds : List Char → List Char
  | [] => []
  | '\r' :: '\n' :: rest => '\n' :: withLineFeeds rest
  | '\r' :: rest => '\n' :: withLineFeeds rest
  | c :: rest => c :: withLineFeeds rest

def isNameChar (c : Char) : Bool := c.isAlphanum || c == '_' || c == '.' || c == '-'

def skipBlanks (cs : List Char) : List Char := cs.dropWhile Text.isBlank

def afterSign? (cs : List Char) : Option (List Char) :=
  match skipBlanks cs with
  | '=' :: rest => some rest
  | _ => match cs with
    | ':' :: c :: rest => if Text.isBlank c then some rest else none
    | _ => none

/-- A name at the head of a text, and what follows the sign behind it. -/
def name? (cs : List Char) : Option (String × List Char) :=
  match cs.takeWhile isNameChar with
  | [] => none
  | name => (afterSign? (cs.dropWhile isNameChar)).map (String.ofList name, ·)

def exportedName? (cs : List Char) : Option (String × List Char) :=
  let announced := match Text.after? "export".toList cs with
    | some (c :: rest) => if Text.isBlank c then name? (skipBlanks rest) else none
    | _ => none
  announced.orElse fun () => name? cs

def endsLine (cs : List Char) : Bool :=
  let blanks := cs.takeWhile Text.isBlank
  match cs.dropWhile Text.isBlank with
  | [] => true
  | '#' :: _ => true
  | _ => blanks.any Text.isLineEnd

/-- The places where a quoted text may end, the best first: at the first quote without a backslash
in front, else at one with a backslash, the last of them first. `inner` holds the characters before,
in reverse. -/
def closings (quote : Char) (inner : List Char) (found : List (List Char × List Char)) :
    List Char → List (List Char × List Char)
  | [] => found
  | c :: rest =>
    if c = quote then
      if inner.head? = some '\\' then
        closings quote (c :: inner) ((inner.reverse, rest) :: found) rest
      else (inner.reverse, rest) :: found
    else closings quote (c :: inner) found rest

/-- A value in quotes and what follows it, if it ends properly. -/
def quoted? (cs : List Char) : Option (List Char × List Char) :=
  match skipBlanks cs with
  | q :: rest =>
    if q = '\'' ∨ q = '"' ∨ q = '\x60' then
      ((closings q [] [] rest).find? fun c => endsLine c.2).map fun c => (q :: c.1 ++ [q], c.2)
    else none
  | [] => none

def isValueChar (c : Char) : Bool := c ≠ '#' && c ≠ '\n'

def value (cs : List Char) : List Char × List Char :=
  (quoted? cs).getD (cs.takeWhile isValueChar, cs.dropWhile isValueChar)

/-- The last place where a quote ends a line: what stands before it and behind it. -/
def lastClosing? (quote : Char) (inner : List Char) (best : Option (List Char × List Char)) :
    List Char → Option (List Char × List Char)
  | [] => best
  | c :: rest =>
    let ends := c = quote && rest.head?.all Text.isLineEnd
    lastClosing? quote (c :: inner) (if ends then some (inner.reverse, rest) else best) rest

/-- Takes the quotes off a text that stands between them, line by line. -/
def unquoted (lineStart : Bool) : Nat → List Char → List Char
  | 0, cs => cs
  | _, [] => []
  | fuel + 1, c :: rest =>
    let pair? := if lineStart && (c == '\'' || c == '"' || c == '\x60')
      then lastClosing? c [] none rest else none
    match pair? with
    | some (inner, after) => inner ++ unquoted false fuel after
    | none => c :: unquoted (Text.isLineEnd c) fuel rest

def withLineEnds : List Char → List Char
  | [] => []
  | '\\' :: 'n' :: rest => '\n' :: withLineEnds rest
  | '\\' :: 'r' :: rest => '\r' :: withLineEnds rest
  | c :: rest => c :: withLineEnds rest

def meaning (cs : List Char) : String :=
  let cs := Text.trimList cs
  let plain := unquoted true (cs.length + 1) cs
  String.ofList (if cs.head? = some '"' then withLineEnds plain else plain)

def nextLine (cs : List Char) : List Char := (cs.dropWhile (!Text.isLineEnd ·)).drop 1

def settings : Nat → List Char → List (String × String)
  | 0, _ => []
  | _, [] => []
  | fuel + 1, cs =>
    match exportedName? (skipBlanks cs) with
    | some (name, rest) =>
      let (written, rest) := value rest
      (name, meaning written) :: settings fuel (nextLine rest)
    | none => settings fuel (nextLine cs)

/-- The variables that a file sets; the last setting of a name counts. -/
def read (content : String) : Environment :=
  let cs := withLineFeeds content.toList
  (settings (cs.length + 1) cs).foldl (fun e (name, v) => e.set name v) []

end ArchiveKeeper.Environment.File
