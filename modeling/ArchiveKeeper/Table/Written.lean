import ArchiveKeeper.Json.Printer
import ArchiveKeeper.Json.Reader
import ArchiveKeeper.Table

namespace ArchiveKeeper

def Row.written (r : Row) : Json.Value :=
  .array [.str r.key, (r.owner.map Json.Value.str).getD .null, .str r.value]

def Row.ofValue? : Json.Value → Option Row
  | .array [.string key, .null, .string value] => some ⟨key.toString, none, value.toString⟩
  | .array [.string key, .string owner, .string value] =>
    some ⟨key.toString, some owner.toString, value.toString⟩
  | _ => none

namespace Table

def text (t : Table) : String := Json.Value.text (.array (t.map Row.written))

/-- The table that a text holds; the rows are put in order. -/
def ofText? (s : String) : Option Table :=
  match Json.Value.read? s with
  | some (.array rows) =>
    (rows.mapM Row.ofValue?).map fun rows => rows.foldl (fun t r => t.insert r) []
  | _ => none

end Table

end ArchiveKeeper
