namespace ArchiveKeeper.Job

def isHexDigit (c : Char) : Bool :=
  c.isDigit || ('a' ≤ c && c ≤ 'f') || ('A' ≤ c && c ≤ 'F')

/-- A job id is 32 hexadecimal digits. -/
def isId (name : String) : Bool :=
  let cs := name.toList
  cs.length == 32 && cs.all isHexDigit

end ArchiveKeeper.Job
