namespace ArchiveKeeper.Text

def isBlank (c : Char) : Bool :=
  let n := c.toNat
  (9 ≤ n && n ≤ 13) || n == 0x20 || n == 0xA0 || n == 0x1680 || (0x2000 ≤ n && n ≤ 0x200A) ||
    n == 0x2028 || n == 0x2029 || n == 0x202F || n == 0x205F || n == 0x3000 || n == 0xFEFF

def isLineEnd (c : Char) : Bool :=
  let n := c.toNat
  n == 0x0A || n == 0x0D || n == 0x2028 || n == 0x2029

def dropRightWhile (p : Char → Bool) (cs : List Char) : List Char :=
  (cs.reverse.dropWhile p).reverse

def trimList (cs : List Char) : List Char := dropRightWhile isBlank (cs.dropWhile isBlank)

def trim (s : String) : String := String.ofList (trimList s.toList)

/-- The parts of a list between the elements equal to `c`; there is always at least one. -/
def splitList (c : Char) : List Char → List (List Char)
  | [] => [[]]
  | x :: xs =>
    if x = c then [] :: splitList c xs
    else match splitList c xs with
      | [] => [[x]]
      | part :: parts => (x :: part) :: parts

def split (c : Char) (s : String) : List String := (splitList c s.toList).map String.ofList

def byteCount (s : String) : Nat := s.utf8ByteSize

end ArchiveKeeper.Text
