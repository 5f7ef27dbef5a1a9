import ArchiveKeeper.Check.Basic
import ArchiveKeeper.Environment.Basic

namespace ArchiveKeeper

inductive Setting where
  | null
  | bool (b : Bool)
  | number (x : Double)
  | text (s : Json.Text)
  | list (items : List Setting)
  /-- The members of a mapping, and those that it falls back on. -/
  | mapping (members fallback : List (Json.Text × Setting))
  | function
deriving Inhabited

namespace Setting

def str (s : String) : Setting := .text (Json.Text.ofString s)

/-- The names that are taken in every environment, set or not. They stand for functions. -/
def takenNames : List String :=
  ["constructor", "hasOwnProperty", "isPrototypeOf", "propertyIsEnumerable", "toLocaleString",
    "toString", "valueOf", "__defineGetter__", "__defineSetter__", "__lookupGetter__",
    "__lookupSetter__"]

/-- The member through which a mapping names the mapping that it falls back on. -/
def fallbackName : String := "__proto__"

/-- What a reference to a variable stands for, if it stands for anything. -/
def ofVariable? (e : Environment) (name : String) : Option Setting :=
  match e.get? name with
  | some value => some (str value)
  | none =>
    if name ∈ takenNames then some .function
    else if name = fallbackName then some (.mapping [] [])
    else none

/-- The name of the variable that a text refers to as a whole. No variable has half of a pair in its
name. -/
def referred? (s : Json.Text) : Option String :=
  (s.mapM Json.Text.runeChar?).bind Environment.reference?

/-- The members that a value lends to a mapping that falls back on it. -/
def lent : Setting → List (Json.Text × Setting)
  | .mapping members fallback => members ++ fallback
  | _ => []

mutual

/-- The settings of a value: texts that are references as a whole are replaced by what they stand
for, which is not looked into again. -/
def ofValue (e : Environment) : Json.Value → Setting
  | .null => .null
  | .bool b => .bool b
  | .number x => .number x
  | .string s =>
    match (referred? s).bind (ofVariable? e) with
    | some setting => setting
    | none => .text s
  | .array items => .list (ofItems e items)
  | .object members => ofMembers e members [] []

def ofItems (e : Environment) : List Json.Value → List Setting
  | [] => []
  | v :: vs => ofValue e v :: ofItems e vs

/-- A mapping with the members taken over so far, and those that it falls back on. -/
def ofMembers (e : Environment) : List (Json.Text × Json.Value) → List (Json.Text × Setting) →
    List (Json.Text × Setting) → Setting
  | [], members, fallback => .mapping members fallback
  | (name, v) :: rest, members, fallback =>
    let setting := ofValue e v
    if name = Json.Text.ofString fallbackName then ofMembers e rest members setting.lent
    else ofMembers e rest (members ++ [(name, setting)]) fallback

end

mutual

/-- The plain value of a setting. Functions have none; they leave a gap in a mapping, and null in a
list. -/
def value? : Setting → Option Json.Value
  | .null => some .null
  | .bool b => some (.bool b)
  | .number x => some (.number x)
  | .text s => some (.string s)
  | .list items => some (.array (itemValues items))
  | .mapping members _ => some (.object (memberValues members))
  | .function => none

def itemValues : List Setting → List Json.Value
  | [] => []
  | s :: ss => s.value?.getD .null :: itemValues ss

def memberValues : List (Json.Text × Setting) → List (Json.Text × Json.Value)
  | [] => []
  | (name, s) :: ms => (s.value?.map (name, ·)).toList ++ memberValues ms

end

def isNull : Setting → Bool
  | .null => true
  | _ => false

mutual

def plain : Setting → Json.Text
  | .null => Json.Text.ofString "null"
  | .bool b => Json.Text.ofString (if b then "true" else "false")
  | .number x => Json.Text.ofString x.text
  | .text s => s
  | .list items => [Json.Rune.char ','].intercalate (plainItems items)
  | .mapping _ _ => Json.Text.ofString "[object Object]"
  | .function => Json.Text.ofString "function"

def plainItems : List Setting → List Json.Text
  | [] => []
  | s :: ss => (if s.isNull then [] else s.plain) :: plainItems ss

end

instance : Check.Visible Setting where
  plain := plain
  see
    | .null => .null
    | .bool b => .boolean b
    | .number x => .number x
    | .text s => .text s
    | .list items => .list items
    | .mapping members fallback => .mapping fun name =>
        Json.Value.find? (Json.Text.ofString name) (members ++ fallback)
    | .function => .function

def own : Setting → List (Json.Text × Setting)
  | .mapping members _ => members
  | _ => []

/-- Sets a member of a section of a mapping. A section of another kind is replaced, and what a
section falls back on is gone. -/
def override (section_ name value : String) (members : List (Json.Text × Setting)) :
    List (Json.Text × Setting) :=
  let sectionName := Json.Text.ofString section_
  let current := match Json.Value.find? sectionName members with
    | some s => s.own
    | none => []
  Json.Value.put sectionName
    (.mapping (Json.Value.put (Json.Text.ofString name) (str value) current) []) members

end Setting

end ArchiveKeeper
