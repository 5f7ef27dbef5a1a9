import ArchiveKeeper.Failure

namespace ArchiveKeeper.Fetch

inductive Limit where
  | unbounded
  | atMost (n : Nat)
deriving DecidableEq, Repr, Inhabited

/-- A limit is written as a number: minus one for none, else a whole number from one on. -/
def Limit.read (setting : Double) : Except Failure Limit :=
  match setting.toInt? with
  | some n =>
    if n = -1 then .ok .unbounded
    else if 1 ≤ n then .ok (.atMost n.toNat)
    else .error (.configuration (.retention setting))
  | none => .error (.configuration (.retention setting))

def Limit.setting : Limit → Double
  | .unbounded => .ofInt (-1)
  | .atMost n => .ofNat n

structure Policy where
  limit : Limit
  /-- Evict jobs whose archive has disappeared from its location. -/
  evictExpired : Bool
  /-- Evict, and delete at the location, the archives listed beyond the limit. -/
  evictBeyondLimit : Bool
deriving DecidableEq, Repr, Inhabited

/-- Whether the archive at a position of its listing, counted from zero, is beyond the limit. -/
def Policy.isBeyond (p : Policy) (position : Nat) : Bool :=
  p.evictBeyondLimit &&
    match p.limit with
    | .unbounded => false
    | .atMost n => decide (n ≤ position)

end ArchiveKeeper.Fetch
