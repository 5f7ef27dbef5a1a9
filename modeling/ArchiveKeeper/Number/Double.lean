namespace ArchiveKeeper

/-- A number of the 64-bit binary format: not a number, an infinity, or
`± significand · 2 ^ exponent`. -/
inductive Double where
  | nan
  | infinite (negative : Bool)
  | finite (negative : Bool) (significand : Nat) (exponent : Int)
deriving DecidableEq, Repr, Inhabited

namespace Double

def minExponent : Int := -1074

def maxExponent : Int := 971

/-- `num / den · 2 ^ (- shift)` as a pair of naturals with that quotient. -/
def scaled (num den : Nat) (shift : Int) : Nat × Nat :=
  if shift < 0 then (num <<< (-shift).toNat, den) else (num, den <<< shift.toNat)

/-- The greatest `k` with `2 ^ k ≤ num / den`, for positive `num` and `den`. -/
def floorLog2 (num den : Nat) : Int :=
  let k : Int := (Nat.log2 num : Int) - (Nat.log2 den : Int)
  let (n, d) := scaled num den k
  if d ≤ n then k else k - 1

/-- The natural nearest to `num / den`; of two equally near the even one. -/
def roundHalfEven (num den : Nat) : Nat :=
  let q := num / den
  let twice := 2 * (num % den)
  if twice < den then q
  else if den < twice then q + 1
  else if q % 2 = 0 then q else q + 1

/-- The number nearest to `± num / den`; beyond the largest finite one it is an infinity. -/
def ofRatio (negative : Bool) (num den : Nat) : Double :=
  if num = 0 then .finite negative 0 minExponent
  else
    let e := max (floorLog2 num den - 52) minExponent
    let (n, d) := scaled num den e
    let m := roundHalfEven n d
    let (m, e) := if m = 1 <<< 53 then (1 <<< 52, e + 1) else (m, e)
    if maxExponent < e then .infinite negative else .finite negative m e

def ofNat (n : Nat) : Double := ofRatio false n 1

def ofInt (i : Int) : Double := ofRatio (decide (i < 0)) i.natAbs 1

def zero : Double := .finite false 0 minExponent

def ratio (significand : Nat) (exponent : Int) : Nat × Nat :=
  if exponent < 0 then (significand, 1 <<< (-exponent).toNat)
  else (significand <<< exponent.toNat, 1)

/-- The integer a number is equal to, if it is one. Both zeros are the integer zero. -/
def toInt? : Double → Option Int
  | .finite negative m e =>
    let (n, d) := ratio m e
    let whole : Int := (n / d : Nat)
    if n % d = 0 then some (if negative then -whole else whole) else none
  | _ => none

def isInteger (x : Double) : Bool := x.toInt?.isSome

def isFinite : Double → Bool
  | .finite .. => true
  | _ => false

def isNegative : Double → Bool
  | .nan => false
  | .infinite negative => negative
  | .finite negative m _ => negative && decide (m ≠ 0)

def atLeastOne : Double → Bool
  | .nan => false
  | .infinite negative => !negative
  | .finite negative m e =>
    let (n, d) := ratio m e
    !negative && decide (d ≤ n)

end Double

end ArchiveKeeper
