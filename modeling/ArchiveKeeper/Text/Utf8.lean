namespace ArchiveKeeper.Text

def replacement : Char := '\uFFFD'

/-- The number of bytes that a leading byte asks for, the range that the byte after it must lie in,
and the bits it contributes. -/
def leading? (b : UInt8) : Option (Nat × UInt8 × UInt8 × Nat) :=
  if 0xC2 ≤ b && b ≤ 0xDF then some (1, 0x80, 0xBF, b.toNat - 0xC0)
  else if b == 0xE0 then some (2, 0xA0, 0xBF, 0)
  else if b == 0xED then some (2, 0x80, 0x9F, 0xD)
  else if 0xE1 ≤ b && b ≤ 0xEF then some (2, 0x80, 0xBF, b.toNat - 0xE0)
  else if b == 0xF0 then some (3, 0x90, 0xBF, 0)
  else if b == 0xF4 then some (3, 0x80, 0x8F, 4)
  else if 0xF1 ≤ b && b ≤ 0xF3 then some (3, 0x80, 0xBF, b.toNat - 0xF0)
  else none

/-- A character of which some bytes have been read: how many are to come, where the next one must
lie, and the bits so far. -/
structure Partial where
  missing : Nat
  low : UInt8
  high : UInt8
  bits : Nat

/-- The characters of a list of bytes, where `none` stands for bytes that encode nothing: a byte
that starts no character, or the longest beginning of one that is broken off. -/
def decodeFrom (open? : Option Partial) : List UInt8 → List (Option Char)
  | [] => if open?.isSome then [none] else []
  | b :: bs =>
    let fresh (b : UInt8) : List (Option Char) × Option Partial :=
      if b < 0x80 then ([some (Char.ofNat b.toNat)], none)
      else match leading? b with
        | some (missing, low, high, bits) => ([], some ⟨missing, low, high, bits⟩)
        | none => ([none], none)
    let (read, next) := match open? with
      | none => fresh b
      | some p =>
        if p.low ≤ b && b ≤ p.high then
          let bits := p.bits * 64 + (b.toNat - 0x80)
          if p.missing ≤ 1 then ([some (Char.ofNat bits)], none)
          else ([], some ⟨p.missing - 1, 0x80, 0xBF, bits⟩)
        else
          let (read, next) := fresh b
          (none :: read, next)
    read ++ decodeFrom next bs

/-- The text of a list of bytes; what encodes nothing becomes a replacement character. -/
def ofBytes (bs : List UInt8) : String :=
  String.ofList ((decodeFrom none bs).map (·.getD replacement))

/-- The text of a list of bytes, if all of them encode characters. -/
def ofBytes? (bs : List UInt8) : Option String :=
  ((decodeFrom none bs).mapM id).map String.ofList

def bytes (s : String) : List UInt8 := s.toUTF8.toList

end ArchiveKeeper.Text
