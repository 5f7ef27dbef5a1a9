import ArchiveKeeper.Json.Token

namespace ArchiveKeeper.Json

/-- An unfinished array or object, its parts in reverse. An object waits for the value of `key`. -/
inductive Frame where
  | array (before : List Value)
  | object (before : List (Text × Value)) (key : Text)
deriving Repr, Inhabited

/-- What may come next, inside the frames around it. -/
inductive Reading where
  | value (frames : List Frame)
  | itemOrClose (frames : List Frame)
  | nameOrClose (frames : List Frame)
  | name (before : List (Text × Value)) (frames : List Frame)
  | colon (before : List (Text × Value)) (key : Text) (frames : List Frame)
  | done (v : Value) (frames : List Frame)
deriving Repr, Inhabited

namespace Reading

/-- A value starts, or stands as a whole, with its first token. -/
def start (frames : List Frame) : Token → Option Reading
  | .scalar v => some (.done v frames)
  | .text s => some (.done (.string s) frames)
  | .openArray => some (.itemOrClose frames)
  | .openObject => some (.nameOrClose frames)
  | _ => none

def next : Reading → Token → Option Reading
  | .value frames, t => start frames t
  | .itemOrClose frames, .closeArray => some (.done (.array []) frames)
  | .itemOrClose frames, t => start (.array [] :: frames) t
  | .nameOrClose frames, .closeObject => some (.done (.object []) frames)
  | .nameOrClose frames, .text s => some (.colon [] s frames)
  | .name before frames, .text s => some (.colon before s frames)
  | .colon before key frames, .colon => some (.value (.object before key :: frames))
  | .done v (.array before :: frames), .comma => some (.value (.array (v :: before) :: frames))
  | .done v (.array before :: frames), .closeArray =>
    some (.done (.array (v :: before).reverse) frames)
  | .done v (.object before key :: frames), .comma => some (.name ((key, v) :: before) frames)
  | .done v (.object before key :: frames), .closeObject =>
    some (.done (.object (Value.settle ((key, v) :: before).reverse)) frames)
  | _, _ => none

def run (r : Reading) : List Token → Option Reading
  | [] => some r
  | t :: ts => match r.next t with
    | some r => run r ts
    | none => none

end Reading

def Value.read? (s : String) : Option Value := do
  let tokens ← Token.scan [] s.toList
  match ← Reading.run (.value []) tokens with
  | .done v [] => return v
  | _ => none

end ArchiveKeeper.Json
