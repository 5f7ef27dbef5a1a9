import ArchiveKeeper.Json.Value

namespace ArchiveKeeper.Json

def Value.isNull : Value → Bool
  | .null => true
  | _ => false

mutual

/-- The text that a value amounts to where a text is wanted: scalars are written without quotes, and
lists as their items between commas. An object is asked for its text by a name, so there is none if
it has a member of that name. -/
def Value.plain? : Value → Option Text
  | .null => some (Text.ofString "null")
  | .bool b => some (Text.ofString (if b then "true" else "false"))
  | .number x => some (Text.ofString x.text)
  | .string s => some s
  | .array items => (plainItems? items).map [Rune.char ','].intercalate
  | .object members =>
    match Value.find? (Text.ofString "toString") members with
    | some _ => none
    | none => some (Text.ofString "[object Object]")

def plainItems? : List Value → Option (List Text)
  | [] => some []
  | v :: vs => do
    let item ← if v.isNull then some [] else v.plain?
    let items ← plainItems? vs
    return item :: items

end

end ArchiveKeeper.Json
