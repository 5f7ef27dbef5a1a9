import ArchiveKeeper.Text.Beginning
import ArchiveKeeper.Text.Units

namespace ArchiveKeeper.Text

/-- The least number of slips that turn one list into another, where a slip adds, drops or replaces
an element, or swaps two neighbours that no other slip touches. -/
def slips [DecidableEq α] : List α → List α → Nat
  | [], bs => bs.length
  | as, [] => as.length
  | a :: as, b :: bs =>
    let least := min (min (slips as (b :: bs)) (slips (a :: as) bs) + 1)
      (slips as bs + if a = b then 0 else 1)
    match as, bs with
    | a' :: as', b' :: bs' =>
      if a = b' ∧ a' = b then min least (slips as' bs' + 1) else least
    | _, _ => least
termination_by as bs => as.length + bs.length

/-- From this many slips on two words have nothing to do with each other. -/
def mostSlips : Nat := 3

/-- The number of slips between two words that have more than two fifths of the longer one in
common. Words of one letter are never near to another. -/
def near? (word candidate : String) : Option Nat :=
  let a := units word
  let b := units candidate
  let longer := max a.length b.length
  if b.length ≤ 1 ∨ a.length + mostSlips < b.length ∨ b.length + mostSlips < a.length then none
  else
    let n := slips a b
    if n ≤ mostSlips ∧ 2 * longer < 5 * (longer - n) then some n else none

/-- The candidates with the fewest slips from a word, of those that are near to it. -/
def nearest (word : String) (candidates : List String) : List String :=
  let found := candidates.filterMap fun c => (near? word c).map (·, c)
  let fewest := found.foldl (fun n f => min n f.1) mostSlips
  sortByUnits id ((found.filter fun f => f.1 = fewest).map Prod.snd)

end ArchiveKeeper.Text
