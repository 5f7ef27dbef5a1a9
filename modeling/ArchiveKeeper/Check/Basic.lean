import ArchiveKeeper.Check.Issue
import ArchiveKeeper.Json.Plain
import ArchiveKeeper.Number.Literal

namespace ArchiveKeeper.Check

inductive Seen (V : Type) where
  | null
  | boolean (b : Bool)
  | number (x : Double)
  | text (s : Json.Text)
  | list (items : List V)
  | mapping (find : String → Option V)
  | function

def Seen.kind : Seen V → Kind
  | .null => .null
  | .boolean _ => .boolean
  | .number .nan => .nan
  | .number _ => .number
  | .text _ => .string
  | .list _ => .array
  | .mapping _ => .object
  | .function => .function

/-- Values that a check can look into. -/
class Visible (V : Type) where
  see : V → Seen V
  /-- The plain text of a value. -/
  plain : V → Json.Text

instance : Visible Json.Value where
  plain v := v.plain?.getD (Json.Text.ofString "[object Object]")
  see
    | .null => .null
    | .bool b => .boolean b
    | .number x => .number x
    | .string s => .text s
    | .array items => .list items
    | .object members => .mapping fun name => Json.Value.find? (Json.Text.ofString name) members

structure Verdict (α : Type) where
  value? : Option α
  issues : List Issue

namespace Verdict

def pure (a : α) : Verdict α := ⟨some a, []⟩

def refuse (cause : Cause) : Verdict α := ⟨none, [⟨[], cause⟩]⟩

def map (f : α → β) (v : Verdict α) : Verdict β := ⟨v.value?.map f, v.issues⟩

def both (v : Verdict (α → β)) (w : Verdict α) : Verdict β :=
  ⟨v.value?.bind fun f => w.value?.map f, v.issues ++ w.issues⟩

instance : Applicative Verdict where
  pure := pure
  map := map
  seq f a := f.both (a ())

/-- Moves the issues of a part to its place in the whole. -/
def under (step : Step) (v : Verdict α) : Verdict α :=
  ⟨v.value?, v.issues.map fun i => ⟨step :: i.path, i.cause⟩⟩

/-- Adds an issue if there is a result and it breaks a rule. -/
def insist (holds : α → Bool) (cause : Cause) (v : Verdict α) : Verdict α :=
  match v.value? with
  | some a => if holds a then v else ⟨some a, v.issues ++ [⟨[], cause⟩]⟩
  | none => v

def passed? (v : Verdict α) : Option α := if v.issues.isEmpty then v.value? else none

def toExcept (v : Verdict α) : Except (List Issue) α :=
  match v.passed? with
  | some a => .ok a
  | none => .error v.issues

end Verdict

end Check

/-- A check of a value that may be missing. -/
abbrev Check (V α : Type) := Option V → Check.Verdict α

namespace Check

variable {V α β : Type} [Visible V]

def ofKind (expected : Kind) (take : Seen V → Option α) : Check V α
  | none => .refuse .required
  | some v =>
    match take (Visible.see v) with
    | some a => .pure a
    | none => .refuse (.kind expected (Visible.see v).kind)

def text : Check V Json.Text := ofKind .string fun
  | .text s => some s
  | _ => none

def string : Check V String := fun v => (text v).map Json.Text.toString

def boolean : Check V Bool := ofKind .boolean fun
  | .boolean b => some b
  | _ => none

/-- Any number but the one that is not a number. -/
def number : Check V Double := ofKind .number fun
  | .number .nan => none
  | .number x => some x
  | _ => none

def anything : Check V V
  | none => .refuse .required
  | some v => .pure v

def items : Check V (List V) := ofKind .array fun
  | .list vs => some vs
  | _ => none

def mapping : Check V (String → Option V) := ofKind .object fun
  | .mapping find => some find
  | _ => none

def each (item : Check V α) : Nat → List V → Verdict (List α)
  | _, [] => .pure []
  | i, v :: vs =>
    List.cons <$> (item (some v)).under (.index i) <*> each item (i + 1) vs

def listOf (item : Check V α) : Check V (List α) := fun v =>
  let list := items v
  match list.value? with
  | some vs => each item 0 vs
  | none => ⟨none, list.issues⟩

/-- Checks the parts of a mapping, which the parts find by name. -/
def record (parts : (String → Option V) → Verdict α) : Check V α := fun v =>
  let found := mapping v
  match found.value? with
  | some find => parts find
  | none => ⟨none, found.issues⟩

def field (name : String) (c : Check V α) (find : String → Option V) : Verdict α :=
  (c (find name)).under (.name name)

def optional (c : Check V α) : Check V (Option α)
  | none => .pure none
  | some v => (c (some v)).map some

def withDefault (a : α) (c : Check V α) : Check V α
  | none => .pure a
  | some v => c (some v)

def insist (c : Check V α) (holds : α → Bool) (cause : Cause) : Check V α := fun v =>
  (c v).insist holds cause

def map (f : α → β) (c : Check V α) : Check V β := fun v => (c v).map f

def count : Check V Double :=
  insist (insist number Double.isInteger (.kind .integer .float)) (fun x => !x.isNegative) (.least 0)

/-- The number that a value amounts to: nothing and falsehood are zero, truth is one, and a text or
a list is read as a number. -/
def amount (v : V) : Double :=
  match Visible.see v with
  | .null => .zero
  | .boolean b => if b then .ofNat 1 else .zero
  | .number x => x
  | .text s => .ofText s.toString
  | .list _ => .ofText (Visible.plain v).toString
  | .mapping _ => .nan
  | .function => .nan

def numberLike : Check V Double
  | none => .refuse .required
  | some v =>
    match amount v with
    | .nan => .refuse (.kind .number .nan)
    | x => .pure x

def oneOf (options : List (String × α)) : Check V α
  | none => .refuse .required
  | some v =>
    match Visible.see v with
    | .text s =>
      match options.find? fun o => Json.Text.ofString o.1 = s with
      | some o => .pure o.2
      | none => .refuse (.choice (options.map Prod.fst) s.toString)
    | other => .refuse (.kindOfChoice (options.map Prod.fst) other.kind)

/-- The first of two forms that the value passes, else the first that gives a result. -/
def either (c d : Check V α) : Check V α := fun v =>
  let first := c v
  let second := d v
  if first.passed?.isSome then first
  else if second.passed?.isSome then second
  else if first.value?.isSome then first
  else if second.value?.isSome then second
  else .refuse .noForm

end Check

end ArchiveKeeper
