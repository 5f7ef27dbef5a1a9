import ArchiveKeeper.Number.Literal

namespace ArchiveKeeper.Cron

def monthNames : List String :=
  ["january", "february", "march", "april", "may", "june", "july", "august", "september",
    "october", "november", "december"]

def weekdayNames : List String :=
  ["sunday", "monday", "tuesday", "wednesday", "thursday", "friday", "saturday"]

def numbered (names : List String) (first : Nat) : List (List Char × Nat) :=
  let all := names.zipIdx first
  (all.map fun n => (n.1.toList, n.2)) ++ all.map fun n => (n.1.toList.take 3, n.2)

/-- What follows a name at the head of a list, in capital letters or not. -/
def afterName? : List Char → List Char → Option (List Char)
  | [], cs => some cs
  | _ :: _, [] => none
  | n :: ns, c :: cs => if c.toLower = n then afterName? ns cs else none

def replaceName (name number : List Char) (fuel : Nat) (cs : List Char) : List Char :=
  match fuel with
  | 0 => cs
  | fuel + 1 =>
    match afterName? name cs with
    | some rest => number ++ replaceName name number fuel rest
    | none => match cs with
      | [] => []
      | c :: cs => c :: replaceName name number fuel cs

def nameless (names : List (List Char × Nat)) (cs : List Char) : List Char :=
  names.foldl (fun cs n => replaceName n.1 (toString n.2).toList (cs.length + 1) cs) cs

def replaceFirst (c : Char) (by_ : List Char) : List Char → List Char
  | [] => []
  | x :: xs => if x = c then by_ ++ xs else x :: replaceFirst c by_ xs

def span (a b : Nat) : List Nat := List.range' (min a b) (max a b + 1 - min a b)

def listed (ns : List Nat) : List Char := (",".intercalate (ns.map toString)).toList

/-- Replaces the leftmost range by its list; `before` holds the digits and the rest read so far, in
reverse. -/
def replaceRange? (before : List Char) : List Char → Option (List Char)
  | [] => none
  | '-' :: rest =>
    let low := before.takeWhile Char.isDigit
    match rest.takeWhile Char.isDigit with
    | [] => replaceRange? ('-' :: before) rest
    | high =>
      if low = [] then replaceRange? ('-' :: before) rest
      else some ((before.dropWhile Char.isDigit).reverse ++
        (listed (span (Decimal.ofDigits low.reverse) (Decimal.ofDigits high)) ++
          rest.dropWhile Char.isDigit))
  | c :: rest => replaceRange? (c :: before) rest

/-- Replaces all ranges; each replacement takes one dash away. -/
def spread (fuel : Nat) (cs : List Char) : List Char :=
  match fuel with
  | 0 => cs
  | fuel + 1 => match replaceRange? [] cs with
    | some cs => spread fuel cs
    | none => cs

def isWordChar (c : Char) : Bool := c.isAlphanum || c == '_'

def stepped? (cs : List Char) : Option (List Char × List Char) :=
  let back := cs.reverse
  match back.takeWhile isWordChar, back.dropWhile isWordChar with
  | [], _ => none
  | step, '/' :: items =>
    if items = [] ∨ items.any Text.isLineEnd then none else some (items.reverse, step.reverse)
  | _, _ => none

def divides (step value : Double) : Bool :=
  match step.toInt?, value.toInt? with
  | some s, some v => s ≠ 0 && v % s == 0
  | _, _ => false

def items (cs : List Char) : List String := (Text.splitList ',' cs).map String.ofList

def kept (list step : List Char) : List String :=
  match Literal.leadingWhole? false (String.ofList step) with
  | none => []
  | some d =>
    (((items list).filterMap (Literal.leadingWhole? false)).filter (divides d)).map Double.text

/-- The numbers of a field; nothing for a step that is not a number. -/
def numbers? (cs : List Char) : Option (List (Option Double)) :=
  let read := List.map (Literal.leadingWhole? true)
  match stepped? cs with
  | none => some (read (items cs))
  | some (list, step) =>
    if Double.ofText (String.ofList step) = .nan then none else some (read (kept list step))

/-- What is known of each field: the text of all its numbers, the names that it admits, and the
greatest and least number. -/
structure Field where
  all : String
  names : List (List Char × Nat)
  sevenIsZero : Bool
  least : Nat
  greatest : Nat

def fields : List Field :=
  [⟨"0-59", [], false, 0, 59⟩, ⟨"0-59", [], false, 0, 59⟩, ⟨"0-23", [], false, 0, 23⟩,
    ⟨"1-31", [], false, 1, 31⟩, ⟨"1-12", numbered monthNames 1, false, 1, 12⟩,
    ⟨"0-6", numbered weekdayNames 0, true, 0, 7⟩]

def Field.numbers? (f : Field) (cs : List Char) : Option (List (Option Double)) :=
  let cs := if f.sevenIsZero then replaceFirst '7' ['0'] cs else cs
  let cs := replaceFirst '*' f.all.toList (nameless f.names cs)
  Cron.numbers? (spread (cs.length + 1) cs)

def Field.admits (f : Field) (x : Option Double) : Bool :=
  match x.bind Double.toInt? with
  | some n => (f.least : Int) ≤ n && n ≤ f.greatest
  | none => false

def Field.accepts (f : Field) (cs : List Char) : Bool :=
  match f.numbers? cs with
  | some ns => ns ≠ [] && ns.all f.admits
  | none => false

/-- Makes one space of each run of two or more blanks; `run` is what the blanks right before amount
to. -/
def collapse (run : Option Char) : List Char → List Char
  | [] => run.toList
  | c :: cs =>
    if Text.isBlank c then collapse (some (if run.isSome then ' ' else c)) cs
    else run.toList ++ c :: collapse none cs

/-- The fields of an expression. Where the second is left out, it is the first of the minute. -/
def split (expression : String) : List (List Char) :=
  let parts := Text.splitList ' ' (Text.trimList (collapse none expression.toList))
  if parts.length = 5 then ['0'] :: parts else parts

/-- A step behind the six fields is read even though the field is not. -/
def readable (extra : List Char) : Bool := (numbers? (spread (extra.length + 1) extra)).isSome

/-- Whether an expression has a meaning. Fields behind the sixth are not looked at. -/
def isValid (expression : String) : Bool :=
  let parts := split expression
  6 ≤ parts.length && (fields.zip parts).all (fun p => p.1.accepts p.2) &&
    (parts.drop 6).all readable

end ArchiveKeeper.Cron
