import ArchiveKeeper.Number.Literal
import ArchiveKeeper.Text.Utf8

namespace ArchiveKeeper.Url

open Literal (digit? digitIn? ofDigitsIn)

def isForbiddenInHost (c : Char) : Bool :=
  "\x00\t\n\r #/:<>?@[\\]^|".toList.contains c

def isForbiddenInDomain (c : Char) : Bool :=
  isForbiddenInHost c || c.toNat < 0x20 || c == '%' || c == '\x7f'

/-- The bytes of a text, with `%` and two digits standing for a byte. -/
def percentDecoded : List Char → List UInt8
  | [] => []
  | '%' :: a :: b :: rest =>
    match digit? a, digit? b with
    | some x, some y => UInt8.ofNat (x * 16 + y) :: percentDecoded rest
    | _, _ => Text.bytes "%" ++ percentDecoded (a :: b :: rest)
  | c :: rest => Text.bytes c.toString ++ percentDecoded rest

/-- Part of a numeric address, in base 16 behind `0x`, else in base 8 behind `0`. -/
def addressPart? (cs : List Char) : Option Nat :=
  let whole (base : Nat) (cs : List Char) : Option Nat :=
    if cs.all fun c => (digitIn? base c).isSome then some (ofDigitsIn base cs) else none
  match cs with
  | [] => none
  | '0' :: 'x' :: rest => whole 16 rest
  | '0' :: 'X' :: rest => whole 16 rest
  | '0' :: d :: rest => whole 8 (d :: rest)
  | cs => whole 10 cs

/-- The parts of a domain name; a dot at its end does not count. -/
def domainParts (cs : List Char) : List (List Char) :=
  let parts := Text.splitList '.' cs
  if parts.length > 1 && parts.getLast? == some [] then parts.dropLast else parts

def endsInNumber (cs : List Char) : Bool :=
  match (domainParts cs).getLast? with
  | none | some [] => false
  | some part => part.all Char.isDigit || (addressPart? part).isSome

/-- Whether the parts make a numeric address: each but the last is a byte, and the last fills the
bytes that are left. -/
def isAddress (cs : List Char) : Bool :=
  let parts := domainParts cs
  match parts.mapM addressPart? with
  | none => false
  | some ns =>
    ns.length ≤ 4 && ns.dropLast.all (· ≤ 255) &&
      (ns.getLast?.getD 0) < Nat.pow 256 (5 - ns.length)

/-- The four decimal bytes at the end of an address in brackets. -/
def isDottedQuad (cs : List Char) : Bool :=
  let parts := Text.splitList '.' cs
  parts.length == 4 && parts.all fun p =>
    p ≠ [] && p.all Char.isDigit && (p.length == 1 || p.head? ≠ some '0') && p.length ≤ 3 &&
      Decimal.ofDigits p ≤ 255

/-- How many of the eight pieces a list of parts makes up, if each is fit. The last one may be four
decimal bytes, which count for two. -/
def pieces? : List (List Char) → Option Nat
  | [] => some 0
  | [p] => if isDottedQuad p then some 2 else if isPiece p then some 1 else none
  | p :: ps => if isPiece p then (pieces? ps).map (· + 1) else none
where
  isPiece (p : List Char) : Bool :=
    p ≠ [] && p.length ≤ 4 && p.all fun c => (digitIn? 16 c).isSome

def splitAtGap : List Char → Option (List Char × List Char)
  | [] => none
  | ':' :: ':' :: rest => some ([], rest)
  | c :: rest => (splitAtGap rest).map fun p => (c :: p.1, p.2)

def pieceList (cs : List Char) : List (List Char) := if cs = [] then [] else Text.splitList ':' cs

/-- Whether a text is an address of eight pieces of four digits in base 16; a double colon stands
for one or more pieces that are zero. -/
def isLongAddress (cs : List Char) : Bool :=
  match splitAtGap cs with
  | none => pieces? (pieceList cs) == some 8
  | some (before, after) =>
    match (pieceList before).all pieces?.isPiece, pieces? (pieceList after) with
    | true, some n => (pieceList before).length + n ≤ 7
    | _, _ => false

/-- Characters that are dropped from a domain name before it is looked at. -/
def isDroppedFromDomain (c : Char) : Bool :=
  let n := c.toNat
  n == 0xAD || n == 0x34F || (0x180B ≤ n && n ≤ 0x180F && n ≠ 0x180E) || n == 0x200B ||
    n == 0x2060 || n == 0x2064 || (0xFE00 ≤ n && n ≤ 0xFE0F) || n == 0xFEFF ||
    (0x1BCA0 ≤ n && n ≤ 0x1BCA3) || (0xE0100 ≤ n && n ≤ 0xE01EF)

def isUnfitForDomain (c : Char) : Bool :=
  let n := c.toNat
  (0x80 ≤ n && n ≤ 0xA0) || (0x2000 ≤ n && n ≤ 0x200F) || (0x2028 ≤ n && n ≤ 0x202F) ||
    n == 0x205F || n == 0x3000 || n == 0x1680 || (0xE000 ≤ n && n ≤ 0xF8FF) ||
    (0xFFF0 ≤ n && n ≤ 0xFFFF) || 0xE0000 ≤ n

/-- Places in the mathematical alphabets that are not taken, as the letters have been elsewhere. -/
def missingLetters : List Nat :=
  [0x1D455, 0x1D49D, 0x1D4A0, 0x1D4A1, 0x1D4A3, 0x1D4A4, 0x1D4A7, 0x1D4A8, 0x1D4AD, 0x1D4BA,
    0x1D4BC, 0x1D4C4, 0x1D506, 0x1D50B, 0x1D50C, 0x1D515, 0x1D51D, 0x1D53A, 0x1D53F, 0x1D545,
    0x1D547, 0x1D548, 0x1D549, 0x1D551]

/-- Single signs for letters of `localhost`, the one domain that a local file URL may name. -/
def lettersOfLocalhost : List (String × String) :=
  [("ªᴬᵃₐ", "a"), ("ᶜℂℭⅭⅽꟲ🄫", "c"), ("ʰᴴₕℋℌℍℎ", "h"), ("ˡᴸₗℒℓⅬⅼ", "l"), ("ºᴼᵒₒℴ", "o"),
    ("ſˢₛ", "s"), ("ᵀᵗₜ", "t"), ("ﬅﬆ", "st"), ("㎈", "cal")]

/-- What a character of a domain name counts as: wide forms of ASCII characters and of the dot as
those, and letters of other alphabets of the same shapes as the plain letters. -/
def plainForm (c : Char) : List Char :=
  let n := c.toNat
  let letter (first : Nat) : List Char := [Char.ofNat (0x61 + (n - first) % 26)]
  if 0xFF01 ≤ n && n ≤ 0xFF5E then [Char.ofNat (n - 0xFEE0)]
  else if n == 0x3002 || n == 0xFF61 then ['.']
  else if 0x24B6 ≤ n && n ≤ 0x24E9 then letter 0x24B6
  else if 0x1F130 ≤ n && n ≤ 0x1F149 then letter 0x1F130
  else if 0x1D400 ≤ n && n ≤ 0x1D6A3 && !missingLetters.contains n then letter 0x1D400
  else match lettersOfLocalhost.find? fun l => l.1.toList.contains c with
    | some l => l.2.toList
    | none => [c]

def domain? (host : List Char) : Option (List Char) :=
  let cs := (Text.ofBytes (percentDecoded host)).toList
  let cs := ((cs.filter (!isDroppedFromDomain ·)).flatMap plainForm).map Char.toLower
  if cs = [] ∨ cs.any (fun c => isForbiddenInDomain c || isUnfitForDomain c) then none
  else if endsInNumber cs && !isAddress cs then none
  else some cs

/-- The host of a URL, if a text is one. The schemes of the web name their hosts by domain. -/
def host? (byDomain : Bool) (cs : List Char) : Option (List Char) :=
  match cs with
  | '[' :: rest =>
    if rest.getLast? = some ']' && isLongAddress rest.dropLast then some cs else none
  | _ =>
    if byDomain then domain? cs
    else if cs.any isForbiddenInHost then none
    else some cs

end ArchiveKeeper.Url
