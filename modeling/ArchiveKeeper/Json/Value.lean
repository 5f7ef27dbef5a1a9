import ArchiveKeeper.Number.Decimal

namespace ArchiveKeeper.Json

/-- One element of a string: a character, or the surrogate code unit `0xD800 + offset` on its own.
-/
inductive Rune where
  | char (c : Char)
  | half (offset : Fin 0x800)
deriving DecidableEq, Repr, Inhabited

abbrev Text := List Rune

namespace Text

def ofString (s : String) : Text := s.toList.map .char

/-- A half pair has no place in Unicode text; the replacement character stands for it. -/
def runeChar : Rune → Char
  | .char c => c
  | .half _ => '\uFFFD'

def runeChar? : Rune → Option Char
  | .char c => some c
  | .half _ => none

def toString (t : Text) : String := String.ofList (t.map runeChar)

theorem toString_ofString (s : String) : toString (ofString s) = s := by
  simp [toString, ofString, Function.comp_def, runeChar]

theorem ofString_injective {a b : String} (h : ofString a = ofString b) : a = b := by
  simpa only [toString_ofString] using congrArg toString h

/-- Appends a code unit, in front of which the elements stand in reverse. A second half completes a
pair with the first half before it. -/
def pushUnit (before : Text) (unit : Nat) : Text :=
  if h : 0xD800 ≤ unit ∧ unit < 0xE000 then
    match before with
    | .half first :: rest =>
      if first.val < 0x400 ∧ 0xDC00 ≤ unit then
        .char (Char.ofNat (0x10000 + first.val * 0x400 + (unit - 0xDC00))) :: rest
      else .half ⟨unit - 0xD800, by omega⟩ :: before
    | _ => .half ⟨unit - 0xD800, by omega⟩ :: before
  else .char (Char.ofNat unit) :: before

end Text

inductive Value where
  | null
  | bool (b : Bool)
  | number (x : Double)
  | string (s : Text)
  | array (items : List Value)
  | object (members : List (Text × Value))
deriving Repr, Inhabited

namespace Value

def str (s : String) : Value := .string (Text.ofString s)

def nat (n : Nat) : Value := .number (Double.ofNat n)

/-- Sets a member: a known name keeps its place, a new one goes last. -/
def put (name : Text) (value : α) : List (Text × α) → List (Text × α)
  | [] => [(name, value)]
  | (n, v) :: rest => if n = name then (n, value) :: rest else (n, v) :: put name value rest

/-- The members that a sequence of settings leaves: one per name, with its last value, in the order
of the first settings. -/
def settle (settings : List (Text × α)) : List (Text × α) :=
  settings.foldl (fun members (n, v) => put n v members) []

def find? (name : Text) (members : List (Text × α)) : Option α :=
  (members.find? fun m => m.1 = name).map Prod.snd

def record (members : List (String × Value)) : Value :=
  .object (members.map fun m => (Text.ofString m.1, m.2))

end Value

end ArchiveKeeper.Json
