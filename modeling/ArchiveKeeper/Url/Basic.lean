import ArchiveKeeper.Url.Host

namespace ArchiveKeeper.Url

/-- The schemes whose hosts are domain names, other than that of files. -/
def webSchemes : List String := ["ftp", "http", "https", "ws", "wss"]

def isMargin (c : Char) : Bool := c.toNat ≤ 0x20

/-- A text without control characters and spaces at its ends, and without tabs and line ends. -/
def cleaned (s : String) : List Char :=
  (Text.dropRightWhile isMargin (s.toList.dropWhile isMargin)).filter
    fun c => c ≠ '\t' && c ≠ '\n' && c ≠ '\r'

def isSchemeChar (c : Char) : Bool := c.isAlphanum || c == '+' || c == '-' || c == '.'

/-- The scheme at the head of a text, in small letters, and what follows its colon. -/
def scheme? (cs : List Char) : Option (String × List Char) :=
  match cs with
  | [] => none
  | c :: _ =>
    if c.isAlpha then
      match cs.dropWhile isSchemeChar with
      | ':' :: rest => some (String.ofList ((cs.takeWhile isSchemeChar).map Char.toLower), rest)
      | _ => none
    else none

/-- In URLs of the web and of files a backslash separates like a slash. -/
def isSlash (web : Bool) (c : Char) : Bool := c == '/' || (web && c == '\\')

def endsPart (web : Bool) (c : Char) : Bool := isSlash web c || c == '?' || c == '#'

def afterUser (cs : List Char) : Bool × List Char :=
  (cs.contains '@', (cs.reverse.takeWhile (· ≠ '@')).reverse)

/-- Splits a host from the port behind the first colon outside of brackets. -/
def splitPort (inBrackets : Bool) : List Char → List Char × Option (List Char)
  | [] => ([], none)
  | c :: cs =>
    if c = ':' && !inBrackets then ([], some cs)
    else
      let inBrackets := c = '[' || (c ≠ ']' && inBrackets)
      let (host, port) := splitPort inBrackets cs
      (c :: host, port)

def isPort (cs : List Char) : Bool :=
  cs.all Char.isDigit && Decimal.ofDigits cs ≤ 65535

/-- Whether a text names a host, with a user in front and a port behind it if wanted. -/
def isAuthority (web : Bool) (cs : List Char) : Bool :=
  let (userGiven, cs) := afterUser cs
  let (host, port?) := splitPort false cs
  if cs = [] && (userGiven || web) then false
  else if host = [] && (web || port?.isSome) then false
  else (host = [] || (host? web host).isSome) && (port?.all isPort)

def isDriveLetter : List Char → Bool
  | [c, d] => c.isAlpha && (d == ':' || d == '|')
  | _ => false

/-- The host of a file URL and the path behind it, from what follows its two slashes. A drive letter
is no host. -/
def fileHost? (cs : List Char) : Option (List Char × List Char) :=
  let host := cs.takeWhile (!endsPart true ·)
  let path := cs.dropWhile (!endsPart true ·)
  if isDriveLetter host then some ([], cs)
  else if host = [] then some ([], path)
  else (host? true host).map fun h => (if h = "localhost".toList then [] else h, path)

/-- The host and the path of a file URL, from what follows its scheme. -/
def fileParts? : List Char → Option (List Char × List Char)
  | a :: b :: rest =>
    if isSlash true a && isSlash true b then fileHost? rest else some ([], a :: b :: rest)
  | cs => some ([], cs)

def isUrl (s : String) : Bool :=
  match scheme? (cleaned s) with
  | none => false
  | some (scheme, rest) =>
    if scheme = "file" then (fileParts? rest).isSome
    else
      let web := webSchemes.contains scheme
      let authority := if web then some (rest.dropWhile (isSlash true)) else
        match rest with
        | '/' :: '/' :: rest => some rest
        | _ => none
      authority.all fun cs => isAuthority web (cs.takeWhile (!endsPart web ·))

def isSingleDot (segment : List Char) : Bool :=
  let s := String.ofList (segment.map Char.toLower)
  s == "." || s == "%2e"

def isDoubleDot (segment : List Char) : Bool :=
  let s := String.ofList (segment.map Char.toLower)
  s == ".." || s == ".%2e" || s == "%2e." || s == "%2e%2e"

/-- Goes one segment down a path, which stands in reverse. `last` tells that no slash follows it. A
drive letter at the root is never left. -/
def enter (path : List (List Char)) (segment : List Char) (last : Bool) : List (List Char) :=
  if isDoubleDot segment then
    let up := match path with
      | [top] => if isDriveLetter top && top.getLast? = some ':' then path else []
      | _ => path.drop 1
    if last then [] :: up else up
  else if isSingleDot segment then (if last then [] :: path else path)
  else
    let segment := if path = [] && isDriveLetter segment then segment.take 1 ++ [':'] else segment
    segment :: path

def enterAll (path : List (List Char)) : List (List Char) → List (List Char)
  | [] => path
  | [segment] => enter path segment true
  | segment :: rest => enterAll (enter path segment false) rest

def segments (cs : List Char) : List (List Char) :=
  let cs := (cs.takeWhile fun c => c ≠ '?' && c ≠ '#').map fun c => if c = '\\' then '/' else c
  let cs := match cs with
    | '/' :: rest => rest
    | _ => cs
  (enterAll [] (Text.splitList '/' cs)).reverse

/-- Whether every `%` starts an escape, and none is that of a slash. -/
def hasCleanEscapes : List Char → Bool
  | [] => true
  | '%' :: a :: b :: rest =>
    (Literal.digit? a).isSome && (Literal.digit? b).isSome &&
      !(a == '2' && (b == 'f' || b == 'F')) && hasCleanEscapes (a :: b :: rest)
  | '%' :: _ => false
  | _ :: rest => hasCleanEscapes rest

/-- The path of the local file that a URL names, if it names one. -/
def filePath? (s : String) : Option String := do
  let (scheme, rest) ← scheme? (cleaned s)
  if scheme ≠ "file" then none
  let (host, path) ← fileParts? rest
  if host ≠ [] then none
  let cs := (segments path).flatMap fun segment => '/' :: segment
  if hasCleanEscapes cs then Text.ofBytes? (percentDecoded cs) else none

end ArchiveKeeper.Url
