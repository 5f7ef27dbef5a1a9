import ArchiveKeeper.Failure
import ArchiveKeeper.Job.Path

namespace ArchiveKeeper.Location

structure Bucket where
  name : String
  start : String
deriving DecidableEq, Repr

def afterScheme? (cs : List Char) : Option (List Char) :=
  match Text.after? "s3://".toList cs with
  | some rest => some rest
  | none => Text.after? "s3a://".toList cs

def isBucket (location : String) : Bool := (afterScheme? location.toList).isSome

def stripSlashes (cs : List Char) : List Char :=
  Text.dropRightWhile (· == '/') (cs.dropWhile (· == '/'))

namespace Bucket

def read? (location : String) : Option Bucket := do
  let cs ← afterScheme? location.toList
  let name := cs.takeWhile (· ≠ '/')
  let path := (cs.dropWhile (· ≠ '/')).drop 1
  if name = [] ∨ path.any Text.isLineEnd then none
  else
    let start := stripSlashes path
    some ⟨String.ofList name, String.ofList (if start = [] then [] else start ++ ['/'])⟩

def read (location : String) : Except Failure Bucket :=
  match read? location with
  | some b => .ok b
  | none => .error (.configuration (.notBucket location))

end Bucket

end ArchiveKeeper.Location
