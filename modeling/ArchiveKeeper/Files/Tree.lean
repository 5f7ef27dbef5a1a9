import ArchiveKeeper.Failure
import ArchiveKeeper.Files.Path
import ArchiveKeeper.Table

namespace ArchiveKeeper.Files

/-- What a path leads to. File contents are text; a database file is known by its table. -/
inductive Node where
  | directory
  | file (content : String) (modified : Int)
  | database (table : Table)
deriving DecidableEq, Repr, Inhabited

def Node.isDirectory : Node → Bool
  | .directory => true
  | _ => false

def Node.modified : Node → Double
  | .file _ modified => .ofInt modified
  | _ => .zero

/-- The nodes by path; the root directory is always there and is not listed. -/
structure Tree where
  nodes : List (Path × Node)
deriving Repr, Inhabited

namespace Tree

def empty : Tree := ⟨[]⟩

def node? (t : Tree) (p : Path) : Option Node :=
  if p = [] then some .directory else (t.nodes.find? fun n => n.1 = p).map Prod.snd

def erase (t : Tree) (p : Path) : Tree := ⟨t.nodes.filter fun n => n.1 ≠ p⟩

def insert (t : Tree) (p : Path) (node : Node) : Tree := ⟨(p, node) :: (t.erase p).nodes⟩

def eraseBelow (t : Tree) (p : Path) : Tree := ⟨t.nodes.filter fun n => !p.isBelow n.1⟩

def longestName : Nat := 255

def longestPath : Nat := 4095

/-- What every call checks before it looks at the files. -/
def accept (s : String) : Except SystemFault Unit :=
  if s.toList.any (· == '\x00') then .error .badName
  else if longestPath < Text.byteCount s then .error .nameTooLong
  else .ok ()

def follow (t : Tree) (here : Path) : List String → Except SystemFault (Path × Node)
  | [] =>
    match t.node? here with
    | some node => .ok (here, node)
    | none => .error .notFound
  | segment :: rest =>
    match t.node? here with
    | none => .error .notFound
    | some .directory =>
      if segment = "." then t.follow here rest
      else if segment = ".." then t.follow here.dropLast rest
      else if longestName < Text.byteCount segment then .error .nameTooLong
      else t.follow (here ++ [segment]) rest
    | some _ => .error .notDirectory

def find (t : Tree) (p : Path) : Except SystemFault Node :=
  match accept (Path.text p) with
  | .error e => .error e
  | .ok () => (t.follow [] p).map Prod.snd

/-- The path and node that a text leads to from a working directory. A slash at the end asks for a
directory. -/
def locate (t : Tree) (base : Path) (s : String) : Except SystemFault (Path × Node) :=
  match accept s with
  | .error e => .error e
  | .ok () =>
    if s = "" then .error .notFound
    else
      let segments := Path.segments s ++ (if s.toList.getLast? = some '/' then ["."] else [])
      t.follow (if Path.isAbsolute s then [] else base) segments

def content : Node → Except SystemFault String
  | .directory => .error .isDirectory
  | .file text _ => .ok text
  | .database _ => .ok ""

def entries (t : Tree) (p : Path) : List (String × Node) :=
  let below := t.nodes.filterMap fun n =>
    match n.1.getLast? with
    | some name => if n.1.dropLast = p then some (name, n.2) else none
    | none => none
  below.mergeSort fun a b => a.1 < b.1 || a.1 == b.1

def list (t : Tree) (p : Path) : Except SystemFault (List (String × Node)) :=
  match t.find p with
  | .error e => .error e
  | .ok .directory => .ok (t.entries p)
  | .ok _ => .error .notDirectory

def read (t : Tree) (p : Path) : Except SystemFault String :=
  match t.find p with
  | .error e => .error e
  | .ok node => content node

/-- Creates the missing directories on the way from one path to another, the upper ones first. -/
def makeDirectoriesFrom (t : Tree) (here : Path) : List String → Except SystemFault Unit × Tree
  | [] => (.ok (), t)
  | segment :: rest =>
    if longestName < Text.byteCount segment then (.error .nameTooLong, t)
    else
      let next := here ++ [segment]
      match t.node? next with
      | some .directory => t.makeDirectoriesFrom next rest
      | some _ => (.error .notDirectory, t)
      | none => (t.insert next .directory).makeDirectoriesFrom next rest

def makeDirectories (t : Tree) (p : Path) : Except SystemFault Unit × Tree :=
  match accept (Path.text p) with
  | .error e => (.error e, t)
  | .ok () => t.makeDirectoriesFrom [] p

/-- What the name of a temporary file adds to the name of the file it replaces, in bytes. -/
def temporarySuffixLength : Nat := 41

/-- Replaces a file in one step by a text written beside it. The directory must be there. -/
def replace (t : Tree) (p : Path) (text : String) : Except SystemFault Unit × Tree :=
  let name := p.getLast?.getD ""
  match accept (Path.text p) with
  | .error e => (.error e, t)
  | .ok () =>
    if longestName < Text.byteCount name + temporarySuffixLength then (.error .nameTooLong, t)
    else if longestPath < Text.byteCount (Path.text p) + temporarySuffixLength then
      (.error .nameTooLong, t)
    else match t.node? p with
      | some .directory => (.error .isDirectory, t)
      | _ => (.ok (), t.insert p (.file text 0))

/-- Removes a file; a missing one is fine. -/
def remove (t : Tree) (p : Path) : Except SystemFault Unit × Tree :=
  match t.find p with
  | .error .notFound => (.ok (), t)
  | .error e => (.error e, t)
  | .ok .directory => (.error .isDirectory, t)
  | .ok _ => (.ok (), t.erase p)

/-- Removes a file or a directory with all below it; a missing one is fine. -/
def removeAll (t : Tree) (p : Path) : Except SystemFault Unit × Tree :=
  match t.find p with
  | .error .notFound => (.ok (), t)
  | .error e => (.error e, t)
  | .ok _ => (.ok (), t.eraseBelow p)

end Tree

end ArchiveKeeper.Files
