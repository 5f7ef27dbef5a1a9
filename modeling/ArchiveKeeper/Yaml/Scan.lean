import ArchiveKeeper.Yaml.Node

namespace ArchiveKeeper.Yaml

structure Place where
  at_ : Nat
  line : Nat
  /-- Where the current line starts. -/
  lineStart : Nat
  /-- How many spaces the current line starts with. -/
  indent : Nat
  /-- The first tab among the blanks that were passed on this line. -/
  tab? : Option Nat
deriving Repr, Inhabited

structure Scan where
  place : Place
  anchors : List (String × Node)
  handles : List (String × String)
deriving Inhabited

/-- Reading that fails wherever the text is not well formed. -/
abbrev Reading := ReaderT (Array Char) (StateT Scan Option)

def ending : Char := '\x00'

def isBreak (c : Char) : Bool := c == '\n' || c == '\r'

def isSpace (c : Char) : Bool := c == ' ' || c == '\t'

def isBlank (c : Char) : Bool := isSpace c || isBreak c

def isFlowIndicator (c : Char) : Bool :=
  c == ',' || c == '[' || c == ']' || c == '{' || c == '}'

/-- Where the characters of a kind end that start at a position. -/
def endOf (text : Array Char) (p : Char → Bool) (i : Nat) : Nat :=
  if h : i < text.size then if p text[i] then endOf text p (i + 1) else i else i
termination_by text.size - i

namespace Reading

def refuse : Reading α := fun _ _ => none

def require (holds : Bool) : Reading Unit := if holds then return () else refuse

def ofOption (a : Option α) : Reading α :=
  match a with
  | some a => return a
  | none => refuse

def place : Reading Place := return (← get).place

def setPlace (p : Place) : Reading Unit := modify fun s => { s with place := p }

def charAt (i : Nat) : Reading Char := return (← read).getD i ending

def peek : Reading Char := do charAt (← place).at_

def peekNext : Reading Char := do charAt ((← place).at_ + 1)

def goTo (i : Nat) : Reading Unit := do setPlace { ← place with at_ := i }

def advance (n : Nat) : Reading Unit := do goTo ((← place).at_ + n)

def pass (p : Char → Bool) : Reading Unit := do goTo (endOf (← read) p (← place).at_)

def slice (i j : Nat) : Reading (List Char) := return ((← read).extract i j).toList

def take (p : Char → Bool) : Reading (List Char) := do
  let i := (← place).at_
  pass p
  slice i (← place).at_

def passBreak : Reading Unit := do
  let c ← peek
  require (isBreak c)
  let two := c == '\r' && (← peekNext) == '\n'
  let p ← place
  let i := p.at_ + (if two then 2 else 1)
  setPlace { p with at_ := i, line := p.line + 1, lineStart := i, tab? := none }

/-- Passes spaces and tabs, and notes the first tab. -/
def passSpaces : Reading Unit := do
  let p ← place
  let text ← read
  let i := endOf text isSpace p.at_
  let firstTab := endOf text (· == ' ') p.at_
  let tab? := if p.tab?.isNone && firstTab < i then some firstTab else p.tab?
  setPlace { p with at_ := i, tab? }

def passIndent : Reading Unit := do
  let p ← place
  let i := endOf (← read) (· == ' ') p.at_
  setPlace { p with at_ := i, indent := i - p.at_ }

/-- Passes blanks, line ends and, if that is wanted, comments; answers how many lines ended. -/
def passBlanks (comments : Bool) : Nat → Reading Nat
  | 0 => return 0
  | fuel + 1 => do
    passSpaces
    if comments && (← peek) == '#' then pass (!isBreak ·)
    if isBreak (← peek) then
      passBreak
      passIndent
      return (← passBlanks comments fuel) + 1
    else return 0

def separate (comments : Bool) : Reading Nat := do passBlanks comments ((← read).size + 1)

/-- Whether a line starts here that ends a document or starts one. -/
def atSeparator : Reading Bool := do
  let c ← peek
  let i := (← place).at_
  if c == '-' || c == '.' then
    let after ← charAt (i + 3)
    return (← charAt (i + 1)) == c && (← charAt (i + 2)) == c && (after == ending || isBlank after)
  else return false

def atLineStart : Reading Bool := return (← place).at_ == (← place).lineStart

end Reading

end ArchiveKeeper.Yaml
