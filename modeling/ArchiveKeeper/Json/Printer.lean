import ArchiveKeeper.Json.Value

namespace ArchiveKeeper.Json

def hexDigits (width n : Nat) : List Char :=
  let ds := Nat.toDigits 16 n
  List.replicate (width - ds.length) '0' ++ ds

/-- A quote, a backslash, a control character and half of a surrogate pair are written by escapes,
everything else as it is. -/
def Rune.written : Rune → List Char
  | .half offset => '\\' :: 'u' :: hexDigits 4 (0xD800 + offset.val)
  | .char c =>
    if c = '"' then ['\\', '"']
    else if c = '\\' then ['\\', '\\']
    else if c = '\x08' then ['\\', 'b']
    else if c = '\x0c' then ['\\', 'f']
    else if c = '\n' then ['\\', 'n']
    else if c = '\r' then ['\\', 'r']
    else if c = '\t' then ['\\', 't']
    else if c.toNat < 0x20 then '\\' :: 'u' :: hexDigits 4 c.toNat
    else [c]

def Text.written (t : Text) : List Char := '"' :: (t.flatMap Rune.written ++ ['"'])

/-- The array index a name spells in its only decimal form. -/
def Text.index? (t : Text) : Option Nat :=
  let cs := t.map Text.runeChar
  match cs with
  | [] => none
  | ['0'] => some 0
  | '0' :: _ => none
  | _ =>
    if cs.all Char.isDigit && cs.length ≤ 10 then
      let n := Decimal.ofDigits cs
      if n ≤ 4294967294 then some n else none
    else none

/-- Members with index names, in ascending order, and then the others. -/
def inWritingOrder (members : List (Text × α)) : List (Text × α) :=
  let indexed := members.filterMap fun m => (Text.index? m.1).map (·, m)
  ((indexed.mergeSort fun a b => a.1 ≤ b.1).map Prod.snd) ++
    members.filter fun m => (Text.index? m.1).isNone

def commaSeparated : List (List Char) → List Char
  | [] => []
  | [x] => x
  | x :: xs => x ++ ',' :: commaSeparated xs

mutual

def Value.chars : Value → List Char
  | .null => "null".toList
  | .bool b => (if b then "true" else "false").toList
  | .number x => if x.isFinite then x.text.toList else "null".toList
  | .string s => s.written
  | .array items => '[' :: (commaSeparated (itemChars items) ++ [']'])
  | .object members =>
    let written := (inWritingOrder (memberChars members)).map fun m => m.1.written ++ ':' :: m.2
    '{' :: (commaSeparated written ++ ['}'])

def itemChars : List Value → List (List Char)
  | [] => []
  | v :: vs => v.chars :: itemChars vs

def memberChars : List (Text × Value) → List (Text × List Char)
  | [] => []
  | (name, v) :: ms => (name, v.chars) :: memberChars ms

end

def Value.text (v : Value) : String := String.ofList v.chars

end ArchiveKeeper.Json
