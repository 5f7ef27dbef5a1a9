import ArchiveKeeper.Number.Literal
import ArchiveKeeper.Yaml.Node

namespace ArchiveKeeper.Yaml

inductive Kind where
  | scalar
  | sequence
  | mapping
deriving DecidableEq, Repr

/-- The types that tags of the standard name. -/
inductive Tag where
  | str
  | seq
  | map
  | null
  | bool
  | int
  | float
  | timestamp
  | merge
  | binary
  | omap
  | pairs
  | set
deriving DecidableEq, Repr

namespace Tag

def start : String := "tag:yaml.org,2002:"

def suffix : Tag → String
  | .str => "str"
  | .seq => "seq"
  | .map => "map"
  | .null => "null"
  | .bool => "bool"
  | .int => "int"
  | .float => "float"
  | .timestamp => "timestamp"
  | .merge => "merge"
  | .binary => "binary"
  | .omap => "omap"
  | .pairs => "pairs"
  | .set => "set"

def all : List Tag :=
  [.str, .seq, .map, .null, .bool, .int, .float, .timestamp, .merge, .binary, .omap, .pairs, .set]

def ofName? (name : String) : Option Tag := all.find? fun t => start ++ t.suffix = name

def kind : Tag → Kind
  | .seq | .omap | .pairs => .sequence
  | .map | .set => .mapping
  | _ => .scalar

/-- The types that plain scalars are tried for, in this order. -/
def implicit : List Tag := [.null, .bool, .int, .float, .timestamp, .merge]

def null? (s : String) : Option Node :=
  if s ∈ ["~", "null", "Null", "NULL"] then some .null else none

def bool? (s : String) : Option Node :=
  if s ∈ ["true", "True", "TRUE"] then some (.bool true)
  else if s ∈ ["false", "False", "FALSE"] then some (.bool false)
  else none

def withoutUnderscores (cs : List Char) : List Char := cs.filter (· ≠ '_')

/-- Digits in a base, with underscores between and before them. -/
def digitsIn? (base : Nat) (cs : List Char) : Option Nat :=
  let ds := withoutUnderscores cs
  if ds ≠ [] && cs.getLast? ≠ some '_' && ds.all (fun c => (Literal.digitIn? base c).isSome) then
    some (Literal.ofDigitsIn base ds)
  else none

def int? (cs : List Char) : Option Node :=
  let (negative, cs) := Literal.sign cs
  let n? := match cs with
    | '0' :: 'b' :: ds => digitsIn? 2 ds
    | '0' :: 'x' :: ds => digitsIn? 16 ds
    | '0' :: 'o' :: ds => digitsIn? 8 ds
    | '_' :: _ | '0' :: '_' :: _ => none
    | ds => digitsIn? 10 ds
  n?.map fun n => .number (.ofRatio negative n 1)

def isDigitOrUnderscore (c : Char) : Bool := c.isDigit || c == '_'

/-- Whether a text is a number with a point or a power of ten. -/
def isFloat (cs : List Char) : Bool :=
  let unsigned := (Literal.sign cs).2
  let whole := unsigned.takeWhile isDigitOrUnderscore
  let rest := unsigned.dropWhile isDigitOrUnderscore
  let (part, power) := match rest with
    | '.' :: rest => (some (rest.takeWhile isDigitOrUnderscore), rest.dropWhile isDigitOrUnderscore)
    | rest => (none, rest)
  let headed := match whole with
    | [] => unsigned.length == cs.length && part.any (· ≠ [])
    | c :: _ => c.isDigit
  headed && cs.getLast? ≠ some '_' && (Literal.power? power).isSome

def float? (cs : List Char) : Option Node :=
  let (negative, unsigned) := Literal.sign cs
  if String.ofList unsigned ∈ [".inf", ".Inf", ".INF"] then some (.number (.infinite negative))
  else if String.ofList cs ∈ [".nan", ".NaN", ".NAN"] then some (.number .nan)
  else if isFloat cs then
    some (.number ((Literal.decimal? (withoutUnderscores cs)).getD .nan))
  else none

def afterDigits? (least most : Nat) (cs : List Char) : Option (List Char) :=
  let n := min (cs.takeWhile Char.isDigit).length most
  if least ≤ n then some (cs.drop n) else none

def afterChar? (p : Char → Bool) : List Char → Option (List Char)
  | c :: cs => if p c then some cs else none
  | [] => none

def isSpaceOrTab (c : Char) : Bool := c == ' ' || c == '\t'

def isZone (cs : List Char) : Bool :=
  if cs = [] then true
  else match cs.dropWhile isSpaceOrTab with
    | ['Z'] => true
    | c :: rest =>
      (c == '+' || c == '-') &&
        match afterDigits? 1 2 rest with
        | some [] => true
        | some (':' :: rest) => afterDigits? 2 2 rest == some []
        | _ => false
    | [] => false

def isTimeOfDay (cs : List Char) : Bool :=
  let rest? := do
    let cs ← afterDigits? 1 2 cs
    let cs ← afterChar? (· == ':') cs
    let cs ← afterDigits? 2 2 cs
    let cs ← afterChar? (· == ':') cs
    afterDigits? 2 2 cs
  match rest? with
  | none => false
  | some ('.' :: rest) => isZone (rest.dropWhile Char.isDigit)
  | some rest => isZone rest

def isMoment (cs : List Char) : Bool :=
  let date? (least : Nat) : Option (List Char) := do
    let cs ← afterDigits? 4 4 cs
    let cs ← afterChar? (· == '-') cs
    let cs ← afterDigits? least 2 cs
    let cs ← afterChar? (· == '-') cs
    afterDigits? least 2 cs
  date? 2 == some [] ||
    match date? 1 with
    | some (c :: rest) =>
      if c == 'T' || c == 't' then isTimeOfDay rest
      else isSpaceOrTab c && isTimeOfDay (rest.dropWhile isSpaceOrTab)
    | _ => false

/-- Bytes written with 64 characters; their bits must come out even. -/
def bytes? (s : String) : Option Node :=
  let cs := s.toList.filter fun c => c ≠ '\n' && c ≠ '\r'
  if cs.all (fun c => (Text.sixBits? c).isSome || c == '=') && cs.length * 6 % 8 == 0 then
    let bs := Text.ofBase64 cs
    some (.bytes (if bs = [] then [0, 0, 0] else bs))
  else none

def ofText? (t : Tag) (s : Json.Text) : Option Node :=
  let plain := s.toString
  match t with
  | .str => some (.text s)
  | .null => null? plain
  | .bool => bool? plain
  | .int => int? plain.toList
  | .float => float? plain.toList
  | .timestamp => if isMoment plain.toList then some (.moment plain) else none
  | .merge => if plain = "<<" then some (.text s) else none
  | .binary => bytes? plain
  | _ => none

def onlyMember? : Node → Option (Json.Text × Node)
  | .mapping [m] => some m
  | _ => none

def distinct : List Json.Text → Bool
  | [] => true
  | k :: ks => !ks.contains k && distinct ks

def ofNode? (t : Tag) (n : Node) : Option Node :=
  match t, n with
  | .seq, n => some n
  | .map, n => some n
  | .omap, .sequence items => do
    let members ← items.mapM onlyMember?
    if distinct (members.map Prod.fst) then some n else none
  | .pairs, .sequence items => do
    let members ← items.mapM onlyMember?
    return .sequence (members.map fun m => .sequence [.text m.1, m.2])
  | .set, .mapping members => if members.all fun m => m.2.isNull then some n else none
  | t, .text s => ofText? t s
  | .str, n => some n
  | _, _ => none

def ofNothing? : Tag → Option Node
  | .str => some (.text [])
  | .seq | .omap | .pairs => some (.sequence [])
  | .map | .set => some (.mapping [])
  | .null | .merge => some .null
  | _ => none

/-- The type that a plain scalar is written like, and what it makes of it. -/
def resolve (s : Json.Text) : Option Tag × Node :=
  match implicit.findSome? fun t => (ofText? t s).map (t, ·) with
  | some (t, n) => (some t, n)
  | none => (none, .text s)

end Tag

end ArchiveKeeper.Yaml
