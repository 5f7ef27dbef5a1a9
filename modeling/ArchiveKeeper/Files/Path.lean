import ArchiveKeeper.Text.Blank

namespace ArchiveKeeper.Files

/-- The segments from the root down. -/
abbrev Path := List String

namespace Path

def text (p : Path) : String := "/" ++ "/".intercalate p

def isAbsolute (s : String) : Bool := s.toList.head? = some '/'

def segments (s : String) : List String := (Text.split '/' s).filter (· ≠ "")

/-- Goes to a segment: `.` stays, `..` goes up, and above the root is the root. -/
def go (p : Path) (segment : String) : Path :=
  if segment = "." then p else if segment = ".." then p.dropLast else p ++ [segment]

def resolve (base : Path) (s : String) : Path :=
  (segments s).foldl go (if isAbsolute s then [] else base)

def isBelow (root p : Path) : Bool := root.isPrefixOf p

/-- The text of a relative or absolute path with `.` and inner `..` taken out. -/
def normalize (s : String) : String :=
  let absolute := isAbsolute s
  let goBack : List String → String → List String
    | back, "." => back
    | [], ".." => if absolute then [] else [".."]
    | top :: back, ".." => if top = ".." then ".." :: ".." :: back else back
    | back, segment => segment :: back
  let kept := ((segments s).foldl goBack []).reverse
  if absolute then text kept else if kept = [] then "." else "/".intercalate kept

def join (directory entry : String) : String :=
  if directory = "" then normalize entry else normalize (directory ++ "/" ++ entry)

def parent (s : String) : String :=
  let cs := s.toList
  let cut := Text.dropRightWhile (· ≠ '/') (Text.dropRightWhile (· == '/') cs)
  let kept := Text.dropRightWhile (· == '/') cut
  if kept ≠ [] then String.ofList kept
  else if cs.head? = some '/' then "/" else "."

end Path

end ArchiveKeeper.Files
