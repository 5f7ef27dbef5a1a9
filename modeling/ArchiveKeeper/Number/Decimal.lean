import ArchiveKeeper.Number.Double

namespace ArchiveKeeper

/-- The decimal `± digits · 10 ^ scale`. -/
structure Decimal where
  negative : Bool
  digits : Nat
  scale : Int
deriving DecidableEq, Repr

namespace Decimal

def digitValue (c : Char) : Nat := c.toNat - '0'.toNat

def ofDigits (cs : List Char) : Nat := cs.foldl (fun n c => 10 * n + digitValue c) 0

/-- The decimal written as a whole part, a fraction and a power of ten. -/
def ofParts (negative : Bool) (whole fraction : List Char) (exponent : Int) : Decimal :=
  ⟨negative, ofDigits (whole ++ fraction), exponent - fraction.length⟩

def digitCount (n : Nat) : Nat := (Nat.toDigits 10 n).length

/-- The number nearest to a decimal. Decimals from `10 ^ 400` on are infinite and those below
`10 ^ -400` are zero, so their powers of ten are never computed. -/
def toDouble (d : Decimal) : Double :=
  let size := d.scale + digitCount d.digits
  if d.digits = 0 then .finite d.negative 0 Double.minExponent
  else if 400 < size then .infinite d.negative
  else if size < -400 then .finite d.negative 0 Double.minExponent
  else if d.scale < 0 then .ofRatio d.negative d.digits (Nat.pow 10 (-d.scale).toNat)
  else .ofRatio d.negative (d.digits * Nat.pow 10 d.scale.toNat) 1

def trim (fuel digits : Nat) (scale : Int) : Nat × Int :=
  match fuel with
  | 0 => (digits, scale)
  | fuel + 1 =>
    if digits ≠ 0 ∧ digits % 10 = 0 then trim fuel (digits / 10) (scale + 1) else (digits, scale)

/-- `num / den` measured in units of `10 ^ scale`, as a pair of naturals with that quotient. -/
def inUnits (num den : Nat) (scale : Int) : Nat × Nat :=
  if scale < 0 then (num * Nat.pow 10 (-scale).toNat, den) else (num, den * Nat.pow 10 scale.toNat)

/-- The least `p` with `num / den < 10 ^ p`, for positive `num` and `den`. -/
def magnitude (num den : Nat) : Int :=
  let p : Int := (digitCount num : Int) - (digitCount den : Int)
  let (n, d) := inUnits num den p
  if d ≤ n then p + 1 else p

/-- The point of the grid with `count` significant digits nearest to the number
`significand · 2 ^ exponent` among the two neighbours that read back as that number. -/
def onGrid (significand : Nat) (exponent : Int) (count : Nat) : Option (Nat × Int) :=
  let (num, den) := Double.ratio significand exponent
  let scale := magnitude num den - count
  let (n, d) := inUnits num den scale
  let below := n / d
  let above := below + 1
  let (near, far) := if 2 * (n % d) ≤ d then (below, above) else (above, below)
  let readsBack (digits : Nat) : Bool :=
    (⟨false, digits, scale⟩ : Decimal).toDouble == .finite false significand exponent
  if readsBack near then some (near, scale) else if readsBack far then some (far, scale) else none

def exact (significand : Nat) (exponent : Int) : Nat × Int :=
  if exponent < 0 then (significand * Nat.pow 5 (-exponent).toNat, exponent)
  else (significand <<< exponent.toNat, 0)

/-- The fewest digits that read back as `significand · 2 ^ exponent`, without trailing zeros. -/
def shortest (significand : Nat) (exponent : Int) : Nat × Int :=
  let found := ((List.range 17).findSome? fun k => onGrid significand exponent (k + 1)).getD
    (exact significand exponent)
  trim (digitCount found.1) found.1 found.2

end Decimal

namespace Double

def repeated (n : Nat) (c : Char) : String := String.ofList (List.replicate n c)

/-- Positional notation is used while the leading digit stands between the sixth place after the
point and the twenty-first before it. -/
def layout (digits : List Char) (point : Int) : String :=
  let k := digits.length
  if (k : Int) ≤ point ∧ point ≤ 21 then
    String.ofList digits ++ repeated (point - k).toNat '0'
  else if 0 < point ∧ point ≤ 21 then
    String.ofList (digits.take point.toNat) ++ "." ++ String.ofList (digits.drop point.toNat)
  else if -6 < point ∧ point ≤ 0 then
    "0." ++ repeated (-point).toNat '0' ++ String.ofList digits
  else
    let e := point - 1
    let mantissa := match digits with
      | [] => "0"
      | [d] => String.ofList [d]
      | d :: ds => String.ofList [d] ++ "." ++ String.ofList ds
    mantissa ++ "e" ++ (if e < 0 then "-" else "+") ++ toString e.natAbs

/-- The shortest text that reads back as the number. Both zeros are written `0`. -/
def text : Double → String
  | .nan => "NaN"
  | .infinite negative => if negative then "-Infinity" else "Infinity"
  | .finite negative m e =>
    if m = 0 then "0"
    else
      let (digits, scale) := Decimal.shortest m e
      let cs := Nat.toDigits 10 digits
      (if negative then "-" else "") ++ layout cs (scale + cs.length)

end Double

end ArchiveKeeper
