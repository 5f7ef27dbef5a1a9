import ArchiveKeeper.Number.Literal
import ArchiveKeeper.Yaml.Scan

namespace ArchiveKeeper.Yaml

open Reading

def isUnprintable (c : Char) : Bool :=
  let n := c.toNat
  n ≤ 0x08 || n == 0x0B || n == 0x0C || (0x0E ≤ n && n ≤ 0x1F) || (0x7F ≤ n && n ≤ 0x84) ||
    (0x86 ≤ n && n ≤ 0x9F) || n == 0xFFFE || n == 0xFFFF

def printable (i j : Nat) : Reading (List Char) := do
  let cs ← slice i j
  require (!cs.any isUnprintable)
  return cs

def quotable (i j : Nat) : Reading (List Char) := do
  let cs ← slice i j
  require (cs.all fun c => c == '\t' || ' ' ≤ c)
  return cs

def folded (breaks : Nat) : List Char :=
  match breaks with
  | 0 => []
  | 1 => [' ']
  | n + 1 => List.replicate n '\n'

def startsNoPlain (c : Char) : Bool :=
  isBlank c || isFlowIndicator c || "#&*!|>'\"%@\x60".toList.contains c

def endsWord (inFlow : Bool) (c : Char) : Bool := isBlank c || (inFlow && isFlowIndicator c)

/-- The rest of a plain scalar: `taken` is what has been read, and `from_` to `to_` the stretch that
belongs to it so far. A line that is indented less than `least` ends it. -/
def plainFrom (least : Nat) (inFlow : Bool) (taken : List Char) (from_ to_ : Nat) :
    Nat → Reading (List Char)
  | 0 => refuse
  | fuel + 1 => do
    let c ← peek
    let p ← place
    let finish : Reading (List Char) := return taken ++ (← printable from_ to_)
    let onward : Reading (List Char) := do
      advance 1
      plainFrom least inFlow taken from_ (if isSpace c then to_ else p.at_ + 1) fuel
    if c == ending then finish
    else if c == ':' then
      if endsWord inFlow (← peekNext) then finish else onward
    else if c == '#' then
      if isBlank (← charAt (p.at_ - 1)) then finish else onward
    else if ((← atLineStart) && (← atSeparator)) || (inFlow && isFlowIndicator c) then finish
    else if isBreak c then
      let _ ← separate false
      let q ← place
      if q.indent < least then
        setPlace { q with at_ := to_, line := p.line, lineStart := p.lineStart, indent := p.indent }
        finish
      else
        let c ← peek
        let goesOn ← continues c
        if goesOn then
          let before ← printable from_ to_
          plainFrom least inFlow (taken ++ before ++ folded (q.line - p.line)) q.at_ q.at_ fuel
        else finish
    else onward
where
  /-- Whether a character that comes first on a line belongs to the scalar. -/
  continues (c : Char) : Reading Bool := do
    if c == ending then return false
    else if c == ':' then return !endsWord inFlow (← peekNext)
    else if c == '#' then return !isBlank (← charAt ((← place).at_ - 1))
    else return !(((← atLineStart) && (← atSeparator)) || (inFlow && isFlowIndicator c))

def plain? (least : Nat) (inFlow : Bool) : Reading (Option Json.Text) := do
  let c ← peek
  let needsWord := c == '?' || c == '-'
  if c == ending || startsNoPlain c || (needsWord && endsWord inFlow (← peekNext)) then return none
  else
    let i := (← place).at_
    let cs ← plainFrom least inFlow [] i i (2 * (← read).size + 2)
    return if cs = [] then none else some (cs.map .char)

/-- The rest of a single quoted scalar; a quote in it is written twice. -/
def singleFrom (taken : List Char) (from_ : Nat) : Nat → Reading (List Char)
  | 0 => refuse
  | fuel + 1 => do
    let c ← peek
    let i := (← place).at_
    if c == ending then refuse
    else if c == '\'' then
      let taken := taken ++ (← quotable from_ i)
      advance 1
      if (← peek) == '\'' then
        advance 1
        singleFrom taken (i + 1) fuel
      else return taken
    else if isBreak c then
      let before ← quotable from_ i
      let breaks ← separate false
      singleFrom (taken ++ before ++ folded breaks) (← place).at_ fuel
    else if (← atLineStart) && (← atSeparator) then refuse
    else
      advance 1
      singleFrom taken from_ fuel

def single? : Reading (Option Json.Text) := do
  if (← peek) == '\'' then
    advance 1
    let cs ← singleFrom [] (← place).at_ ((← read).size + 1)
    return some (cs.map .char)
  else return none

def escaped? (c : Char) : Option Char :=
  match c with
  | '0' => some '\x00'
  | 'a' => some '\x07'
  | 'b' => some '\x08'
  | 't' => some '\t'
  | '\t' => some '\t'
  | 'n' => some '\n'
  | 'v' => some '\x0b'
  | 'f' => some '\x0c'
  | 'r' => some '\r'
  | 'e' => some '\x1b'
  | ' ' => some ' '
  | '"' => some '"'
  | '/' => some '/'
  | '\\' => some '\\'
  | 'N' => some '\u0085'
  | '_' => some '\u00a0'
  | 'L' => some '\u2028'
  | 'P' => some '\u2029'
  | _ => none

/-- How many digits in base 16 follow a backslash and a letter. -/
def escapeLength? (c : Char) : Option Nat :=
  match c with
  | 'x' => some 2
  | 'u' => some 4
  | 'U' => some 8
  | _ => none

/-- Appends the code units of a number to a text that stands in reverse. -/
def pushNumber (before : Json.Text) (n : Nat) : Json.Text :=
  if n < 0x10000 ∨ 0x80000000 ≤ n then Json.Text.pushUnit before (n % 0x10000)
  else
    let high := ((n - 0x10000) / 0x400 + 0xD800) % 0x10000
    let low := (n - 0x10000) % 0x400 + 0xDC00
    Json.Text.pushUnit (Json.Text.pushUnit before high) low

def pushChars (before : Json.Text) (cs : List Char) : Json.Text :=
  (cs.map Json.Rune.char).reverse ++ before

/-- The rest of a double quoted scalar, behind what has been read, which stands in reverse. -/
def doubleFrom (before : Json.Text) (from_ : Nat) : Nat → Reading Json.Text
  | 0 => refuse
  | fuel + 1 => do
    let c ← peek
    let i := (← place).at_
    if c == ending then refuse
    else if c == '"' then
      let cs ← quotable from_ i
      advance 1
      return (pushChars before cs).reverse
    else if c == '\\' then
      let before := pushChars before (← quotable from_ i)
      advance 1
      let e ← peek
      if isBreak e then
        let _ ← separate false
        doubleFrom before (← place).at_ fuel
      else match escaped? e, escapeLength? e with
        | some c, _ =>
          advance 1
          doubleFrom (.char c :: before) (i + 2) fuel
        | none, some n =>
          let digits ← slice (i + 2) (i + 2 + n)
          require (digits.length == n && digits.all fun d => (Literal.digitIn? 16 d).isSome)
          goTo (i + 2 + n)
          doubleFrom (pushNumber before (Literal.ofDigitsIn 16 digits)) (i + 2 + n) fuel
        | none, none => refuse
    else if isBreak c then
      let cs ← quotable from_ i
      let breaks ← separate false
      doubleFrom (pushChars before (cs ++ folded breaks)) (← place).at_ fuel
    else if (← atLineStart) && (← atSeparator) then refuse
    else
      advance 1
      doubleFrom before from_ fuel

def double? : Reading (Option Json.Text) := do
  if (← peek) == '"' then
    advance 1
    return some (← doubleFrom [] (← place).at_ ((← read).size + 1))
  else return none

inductive Chomping where
  | clip
  | keep
  | strip
deriving DecidableEq

/-- What the head of a block says: what becomes of the line breaks at its end, and how many columns
the block is indented. -/
structure BlockHead where
  chomping : Option Chomping
  columns : Option Nat

/-- The head of a block, which names each of its two parts at most once. -/
def blockHead (h : BlockHead) : Nat → Reading BlockHead
  | 0 => refuse
  | fuel + 1 => do
    let c ← peek
    if c == '+' || c == '-' then
      require h.chomping.isNone
      advance 1
      blockHead { h with chomping := some (if c == '+' then .keep else .strip) } fuel
    else if c.isDigit then
      require (c ≠ '0' && h.columns.isNone)
      advance 1
      blockHead { h with columns := some (Decimal.digitValue c) } fuel
    else return h

/-- A block of text while it is read. -/
structure Block where
  folding : Bool
  chomping : Chomping
  taken : List Char
  /-- The least indentation of a line, and whether it is settled. -/
  indent : Nat
  settled : Bool
  begun : Bool
  emptyLines : Nat
  /-- Whether the last line was indented more than the block. -/
  deeper : Bool

namespace Block

def breaks (n : Nat) : List Char := List.replicate n '\n'

/-- The line breaks in front of the next line with content, which starts with `c`. -/
def joint (b : Block) (c : Char) : List Char × Bool :=
  let all := breaks (if b.begun then b.emptyLines + 1 else b.emptyLines)
  if !b.folding then (all, b.deeper)
  else if isSpace c then (all, true)
  else if b.deeper then (breaks (b.emptyLines + 1), false)
  else if b.emptyLines = 0 then (if b.begun then [' '] else [], false)
  else (breaks b.emptyLines, false)

def tail (b : Block) : List Char :=
  match b.chomping with
  | .keep => breaks (if b.begun then b.emptyLines + 1 else b.emptyLines)
  | .clip => if b.begun then breaks 1 else []
  | .strip => []

def lines (b : Block) : Nat → Reading (List Char)
  | 0 => refuse
  | fuel + 1 => do
    if (← peek) == ending then return b.taken
    passBreak
    let p ← place
    let text ← read
    let spaces := endOf text (· == ' ') p.at_ - p.at_
    let indent := if b.settled then min spaces b.indent else spaces
    setPlace { p with at_ := p.at_ + indent, indent }
    let b := if b.settled then b else { b with indent := max b.indent indent }
    let c ← peek
    if isBreak c then lines { b with emptyLines := b.emptyLines + 1 } fuel
    else if indent < b.indent then return b.taken ++ b.tail
    else
      let (joint, deeper) := b.joint c
      let i := (← place).at_
      pass (!isBreak ·)
      let line ← printable i (← place).at_
      lines { b with
        taken := b.taken ++ joint ++ line
        settled := true
        begun := true
        emptyLines := 0
        deeper } fuel

end Block

/-- A block of text, if one starts here; its lines are indented by `least` columns or more. -/
def block? (least : Nat) : Reading (Option Json.Text) := do
  let c ← peek
  if c == '|' || c == '>' then
    advance 1
    let head ← blockHead ⟨none, none⟩ 4
    if isSpace (← peek) then
      pass isSpace
      if (← peek) == '#' then pass (!isBreak ·)
    let start : Block := {
      folding := c == '>'
      chomping := head.chomping.getD .clip
      taken := []
      indent := match head.columns with
        | some n => least + n - 1
        | none => least
      settled := head.columns.isSome
      begun := false
      emptyLines := 0
      deeper := false }
    let cs ← start.lines ((← read).size + 1)
    return some (cs.map .char)
  else return none

end ArchiveKeeper.Yaml
