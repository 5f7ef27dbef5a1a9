import ArchiveKeeper.Json.Value
import ArchiveKeeper.Text.Base64
import ArchiveKeeper.Text.Utf8

namespace ArchiveKeeper.Yaml

inductive Node where
  | null
  | bool (b : Bool)
  | number (x : Double)
  | text (s : Json.Text)
  | sequence (items : List Node)
  | mapping (members : List (Json.Text × Node))
  /-- A point in time, as it was written. -/
  | moment (written : String)
  | bytes (bs : List UInt8)
  /-- A collection that is still being read: an alias inside of it leads back to it. -/
  | enclosing
deriving Repr, Inhabited

namespace Node

/-- Bytes in a list behave as members under their positions. -/
def byteMembers (bs : List UInt8) : List (Json.Text × Node) :=
  bs.zipIdx.map fun (b, i) => (Json.Text.ofString (toString i), .number (.ofNat b.toNat))

mutual

/-- The plain value of a node. A point in time has no members, and a collection inside of itself has
no value. -/
def value? : Node → Option Json.Value
  | .null => some .null
  | .bool b => some (.bool b)
  | .number x => some (.number x)
  | .text s => some (.string s)
  | .sequence items => (itemValues? items).map .array
  | .mapping members => (memberValues? members).map .object
  | .moment _ => some (.object [])
  | .bytes bs => some (.object (bs.zipIdx.map fun (b, i) =>
      (Json.Text.ofString (toString i), .number (.ofNat b.toNat))))
  | .enclosing => none

def itemValues? : List Node → Option (List Json.Value)
  | [] => some []
  | n :: ns => do return (← n.value?) :: (← itemValues? ns)

def memberValues? : List (Json.Text × Node) → Option (List (Json.Text × Json.Value))
  | [] => some []
  | (key, n) :: ms => do return (key, ← n.value?) :: (← memberValues? ms)

end

def isNull : Node → Bool
  | .null => true
  | _ => false

def objectText : Json.Text := Json.Text.ofString "[object Object]"

def separated : List Json.Text → Json.Text
  | [] => []
  | [t] => t
  | t :: ts => t ++ .char ',' :: separated ts

def bytesText (bs : List UInt8) : Json.Text :=
  separated (bs.map fun b => Json.Text.ofString (toString b.toNat))

/-- The text of an item of a sequence that stands as a key; sequences inside it are refused. -/
def itemKey? : Node → Option Json.Text
  | .null => some []
  | .bool b => some (Json.Text.ofString (toString b))
  | .number x => some (Json.Text.ofString x.text)
  | .text s => some s
  | .sequence _ => none
  | .mapping _ => some objectText
  | .moment w => some (Json.Text.ofString w)
  | .bytes bs => some (bytesText bs)
  | .enclosing => none

def key? : Node → Option Json.Text
  | .null => some (Json.Text.ofString "null")
  | .sequence items => (items.mapM itemKey?).map separated
  | n => n.itemKey?

/-- The members that a node has to offer to a mapping it is merged into. -/
def offered? : Node → Option (List (Json.Text × Node))
  | .mapping members => some members
  | .sequence items => some (items.zipIdx.map fun (n, i) => (Json.Text.ofString (toString i), n))
  | .moment _ => some []
  | .bytes bs => some (byteMembers bs)
  | _ => none

end Node

/-- A mapping while it is read. Members that were merged into it may still be set on their own. -/
structure Members where
  all : List (Json.Text × Node)
  merged : List Json.Text
deriving Repr, Inhabited

namespace Members

def empty : Members := ⟨[], []⟩

def has (m : Members) (key : Json.Text) : Bool := m.all.any fun p => p.1 = key

/-- Sets a member; a key that was set before on its own is refused. -/
def set? (m : Members) (key : Json.Text) (n : Node) : Option Members :=
  if m.has key && !m.merged.contains key then none
  else some ⟨Json.Value.put key n m.all, m.merged.filter (· ≠ key)⟩

/-- Takes over what a node offers, as far as it is not there. -/
def merge? (m : Members) (source : Node) : Option Members :=
  source.offered?.map fun offered =>
    offered.foldl (fun m (key, n) =>
      if m.has key then m else ⟨m.all ++ [(key, n)], key :: m.merged⟩) m

def mergeAll? (m : Members) : List Node → Option Members
  | [] => some m
  | n :: ns => (m.merge? n).bind fun m => m.mergeAll? ns

/-- Sets a member, or takes over the members of the value if the key asks for that. -/
def store? (m : Members) (asMerge : Bool) (key value : Node) : Option Members := do
  let name ← key.key?
  if asMerge then
    match value with
    | .sequence sources => m.mergeAll? sources
    | source => m.merge? source
  else m.set? name value

end Members

end ArchiveKeeper.Yaml
