import ArchiveKeeper.Url.Host
import ArchiveKeeper.Yaml.Scan

namespace ArchiveKeeper.Yaml

open Reading

/-- The text that escapes with `%` stand for, if they are well formed. -/
def unescaped? (cs : List Char) : Option String :=
  if clean cs then Text.ofBytes? (Url.percentDecoded cs) else none
where
  clean : List Char → Bool
    | [] => true
    | '%' :: a :: b :: rest =>
      (Literal.digitIn? 16 a).isSome && (Literal.digitIn? 16 b).isSome && clean (a :: b :: rest)
    | '%' :: _ => false
    | _ :: rest => clean rest

def isHandleChar (c : Char) : Bool := c.isAlpha || c == '-'

/-- Whether a text is `!`, `!!` or a name between two marks. -/
def isHandle (cs : List Char) : Bool :=
  match cs with
  | ['!'] => true
  | '!' :: rest => rest.getLast? == some '!' && rest.dropLast.all isHandleChar
  | _ => false

def isTagChar (c : Char) : Bool := c.isAlphanum || "-#;/?:@&=+$,_.!~*'()[]".toList.contains c

/-- Whether a text consists of the characters of tags, with `%` only in escapes. -/
def isTagRest : List Char → Bool
  | [] => true
  | '%' :: a :: b :: rest =>
    (Literal.digitIn? 16 a).isSome && (Literal.digitIn? 16 b).isSome && isTagRest rest
  | c :: rest => isTagChar c && isTagRest rest

def isTagText : List Char → Bool
  | [] => false
  | c :: rest => !isFlowIndicator c && isTagRest rest

/-- What the properties in front of a node say. -/
structure Properties where
  tag? : Option String
  anchor? : Option String
deriving Repr, Inhabited

def Properties.none : Properties := ⟨Option.none, Option.none⟩

def isWord (c : Char) : Bool := !isBlank c

def verbatimTag : Reading String := do
  advance 1
  let first ← peek
  advance 1
  let rest ← take (· ≠ '>')
  let cs := first :: rest
  require ((← peek) == '>')
  advance 1
  require (isTagText cs)
  ofOption (unescaped? cs)

/-- A handle at the head of a tag, if it has one other than the first mark, and what follows it. -/
def splitHandle (cs : List Char) : Option (List Char × List Char) :=
  if cs.contains '!' then
    let name := cs.takeWhile (· ≠ '!')
    let rest := (cs.dropWhile (· ≠ '!')).drop 1
    if isHandle ('!' :: (name ++ ['!'])) && !rest.contains '!' then
      some ('!' :: (name ++ ['!']), rest)
    else none
  else some (['!'], cs)

def tagStart (handle : String) : Reading String := do
  match (← get).handles.find? fun h => h.1 = handle with
  | some (_, start) => return start
  | none =>
    if handle = "!" then return "!"
    else if handle = "!!" then return "tag:yaml.org,2002:"
    else refuse

def tagName : Reading String := do
  if (← peek) == '<' then verbatimTag
  else
    let cs ← take isWord
    let (handle, name) ← ofOption (splitHandle cs)
    require (!name.any isFlowIndicator && (name = [] || isTagText name))
    return (← tagStart (String.ofList handle)) ++ (← ofOption (unescaped? name))

/-- The name of an anchor or of an alias, behind its mark. -/
def anchorName : Reading String := do
  let cs ← take fun c => !isBlank c && !isFlowIndicator c
  require (cs ≠ [])
  return String.ofList cs

def property? (p : Properties) : Reading (Option Properties) := do
  let c ← peek
  if c == '!' then
    require p.tag?.isNone
    advance 1
    return some { p with tag? := some (← tagName) }
  else if c == '&' then
    require p.anchor?.isNone
    advance 1
    return some { p with anchor? := some (← anchorName) }
  else return none

def setAnchor (name? : Option String) (n : Node) : Reading Unit :=
  match name? with
  | some name => modify fun s => { s with anchors := (name, n) :: s.anchors }
  | none => return ()

/-- The node that an alias leads to, if an alias starts here. -/
def alias? : Reading (Option Node) := do
  if (← peek) == '*' then
    advance 1
    let name ← anchorName
    let n ← ofOption (((← get).anchors.find? fun a => a.1 = name).map Prod.snd)
    let _ ← separate true
    return some n
  else return none

/-- Whether a directive names a version of the format that can be read. -/
def isVersion (arg : List Char) : Bool :=
  match Text.splitList '.' arg with
  | [major, minor] =>
    [major, minor].all (fun part => part ≠ [] && part.all Char.isDigit) && Decimal.ofDigits major == 1
  | _ => false

def directiveWords : Nat → Reading (List (List Char))
  | 0 => refuse
  | fuel + 1 => do
    pass isSpace
    let c ← peek
    if c == '#' then
      pass (!isBreak ·)
      return []
    else if c == ending || isBreak c then return []
    else
      let word ← take isWord
      return word :: (← directiveWords fuel)

/-- The directives at the head of a document; answers whether there are any. Those of other kinds
are passed over. -/
def directives (versionSeen : Bool) : Nat → Reading Bool
  | 0 => refuse
  | fuel + 1 => do
    let _ ← separate true
    if (← place).indent > 0 || (← peek) ≠ '%' then return false
    else
      advance 1
      let name ← take isWord
      require (name ≠ [])
      let words ← directiveWords ((← read).size + 1)
      if (← peek) ≠ ending then passBreak
      let isVersionLine := name == "YAML".toList
      if isVersionLine then
        match words with
        | [version] => require (!versionSeen && isVersion version)
        | _ => refuse
      if name == "TAG".toList then
        match words with
        | [handle, start] =>
          let handles := (← get).handles
          require (isHandle handle && isTagText start &&
            !handles.any fun h => h.1 = String.ofList handle)
          let start ← ofOption (unescaped? start)
          modify fun s => { s with handles := (String.ofList handle, start) :: handles }
        | _ => refuse
      let _ ← directives (versionSeen || isVersionLine) fuel
      return true

end ArchiveKeeper.Yaml
