namespace ArchiveKeeper.Text

def unitsOf (c : Char) : List Nat :=
  let n := c.toNat
  if n < 0x10000 then [n]
  else [0xD800 + (n - 0x10000) / 0x400, 0xDC00 + (n - 0x10000) % 0x400]

def units (s : String) : List Nat := s.toList.flatMap unitsOf

/-- Sorts by code units; what has the same text keeps its order. -/
def sortByUnits (text : α → String) (xs : List α) : List α :=
  ((xs.map fun x => (units (text x), x)).mergeSort fun a b => !decide (b.1 < a.1)).map Prod.snd

end ArchiveKeeper.Text
