import ArchiveKeeper.Number.Decimal
import ArchiveKeeper.Text.Blank

namespace ArchiveKeeper

namespace Literal

def digit? (c : Char) : Option Nat :=
  if c.isDigit then some (c.toNat - '0'.toNat)
  else if 'a' ≤ c ∧ c ≤ 'f' then some (c.toNat - 'a'.toNat + 10)
  else if 'A' ≤ c ∧ c ≤ 'F' then some (c.toNat - 'A'.toNat + 10)
  else none

def digitIn? (base : Nat) (c : Char) : Option Nat := (digit? c).filter (· < base)

def ofDigitsIn (base : Nat) (cs : List Char) : Nat :=
  cs.foldl (fun n c => base * n + (digit? c).getD 0) 0

def wholeIn? (base : Nat) (cs : List Char) : Option Double :=
  if cs ≠ [] ∧ cs.all (fun c => (digitIn? base c).isSome) then
    some (Double.ofNat (ofDigitsIn base cs))
  else none

def sign : List Char → Bool × List Char
  | '-' :: cs => (true, cs)
  | '+' :: cs => (false, cs)
  | cs => (false, cs)

/-- The digits at the head of a list, and what follows them. -/
def digits (cs : List Char) : List Char × List Char :=
  (cs.takeWhile Char.isDigit, cs.dropWhile Char.isDigit)

def fraction : List Char → List Char × List Char
  | '.' :: cs => digits cs
  | cs => ([], cs)

def power? : List Char → Option Int
  | [] => some 0
  | c :: cs =>
    if c = 'e' ∨ c = 'E' then
      let (negative, cs) := sign cs
      if cs ≠ [] ∧ cs.all Char.isDigit then
        some (if negative then -(Decimal.ofDigits cs : Int) else (Decimal.ofDigits cs : Int))
      else none
    else none

def decimal? (cs : List Char) : Option Double :=
  let (negative, cs) := sign cs
  if cs = "Infinity".toList then some (.infinite negative)
  else
    let (whole, cs) := digits cs
    let (part, cs) := fraction cs
    if whole = [] ∧ part = [] then none
    else (power? cs).map fun e => (Decimal.ofParts negative whole part e).toDouble

def number? : List Char → Option Double
  | [] => some .zero
  | '0' :: c :: cs =>
    if c = 'x' ∨ c = 'X' then wholeIn? 16 cs
    else if c = 'o' ∨ c = 'O' then wholeIn? 8 cs
    else if c = 'b' ∨ c = 'B' then wholeIn? 2 cs
    else decimal? ('0' :: c :: cs)
  | cs => decimal? cs

/-- The whole number at the head of a text, in base 16 behind `0x` where that is admitted. What
follows it does not count. -/
def leadingWhole? (admitHex : Bool) (s : String) : Option Double :=
  let (negative, cs) := sign (s.toList.dropWhile Text.isBlank)
  let (base, cs) := match cs with
    | '0' :: c :: rest => if admitHex && (c == 'x' || c == 'X') then (16, rest) else (10, cs)
    | _ => (10, cs)
  match cs.takeWhile fun c => (digitIn? base c).isSome with
  | [] => none
  | ds => some (Double.ofRatio negative (ofDigitsIn base ds) 1)

end Literal

def Double.ofText (s : String) : Double :=
  (Literal.number? (Text.trimList s.toList)).getD .nan

end ArchiveKeeper
