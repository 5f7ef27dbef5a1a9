import ArchiveKeeper.Json.Value

namespace ArchiveKeeper.Json

inductive Token where
  | openArray
  | closeArray
  | openObject
  | closeObject
  | comma
  | colon
  | scalar (v : Value)
  | text (s : Text)
deriving Repr, Inhabited

namespace Token

def isBlank (c : Char) : Bool := c == ' ' || c == '\t' || c == '\n' || c == '\r'

def hexValue? (c : Char) : Option Nat :=
  if c.isDigit then some (c.toNat - '0'.toNat)
  else if 'a' ≤ c ∧ c ≤ 'f' then some (c.toNat - 'a'.toNat + 10)
  else if 'A' ≤ c ∧ c ≤ 'F' then some (c.toNat - 'A'.toNat + 10)
  else none

def unit? (a b c d : Char) : Option Nat := do
  return ((← hexValue? a) * 16 + (← hexValue? b)) * 256 + (← hexValue? c) * 16 + (← hexValue? d)

/-- What a backslash makes of the letter after it, except for `u`. -/
def escaped? : Char → Option Char
  | '"' => some '"'
  | '\\' => some '\\'
  | '/' => some '/'
  | 'b' => some '\x08'
  | 'f' => some '\x0c'
  | 'n' => some '\n'
  | 'r' => some '\r'
  | 't' => some '\t'
  | _ => none

/-- The rest of a string after its opening quote: its elements behind those read before, and the
characters behind the closing quote. -/
def string? (before : Text) : List Char → Option (Text × List Char)
  | [] => none
  | '"' :: rest => some (before.reverse, rest)
  | '\\' :: 'u' :: a :: b :: c :: d :: rest =>
    match unit? a b c d with
    | some unit => string? (Text.pushUnit before unit) rest
    | none => none
  | '\\' :: c :: rest =>
    match escaped? c with
    | some e => string? (.char e :: before) rest
    | none => none
  | c :: rest => if c.toNat < 0x20 ∨ c = '\\' then none else string? (.char c :: before) rest

def minus : List Char → Bool × List Char
  | '-' :: rest => (true, rest)
  | cs => (false, cs)

def whole? (cs : List Char) : Option (List Char × List Char) :=
  match cs.takeWhile Char.isDigit with
  | [] => none
  | '0' :: _ :: _ => none
  | digits => some (digits, cs.dropWhile Char.isDigit)

def fraction? : List Char → Option (List Char × List Char)
  | '.' :: rest =>
    match rest.takeWhile Char.isDigit with
    | [] => none
    | digits => some (digits, rest.dropWhile Char.isDigit)
  | cs => some ([], cs)

def power? (negative : Bool) (cs : List Char) : Option (Int × List Char) :=
  match cs.takeWhile Char.isDigit with
  | [] => none
  | digits =>
    let n : Int := Decimal.ofDigits digits
    some (if negative then -n else n, cs.dropWhile Char.isDigit)

/-- A power of ten, which may be left out but not empty. -/
def exponent? (cs : List Char) : Option (Int × List Char) :=
  match cs with
  | c :: rest =>
    if c = 'e' ∨ c = 'E' then
      match rest with
      | '-' :: rest => power? true rest
      | '+' :: rest => power? false rest
      | rest => power? false rest
    else some (0, cs)
  | [] => some (0, [])

def number? (cs : List Char) : Option (Decimal × List Char) :=
  let (negative, cs) := minus cs
  match whole? cs with
  | none => none
  | some (whole, cs) =>
    match fraction? cs with
    | none => none
    | some (fraction, cs) =>
      match exponent? cs with
      | none => none
      | some (exponent, cs) => some (Decimal.ofParts negative whole fraction exponent, cs)

/-- The token at the head of a list of characters that does not start with a blank. -/
def next? : List Char → Option (Token × List Char)
  | '[' :: rest => some (.openArray, rest)
  | ']' :: rest => some (.closeArray, rest)
  | '{' :: rest => some (.openObject, rest)
  | '}' :: rest => some (.closeObject, rest)
  | ',' :: rest => some (.comma, rest)
  | ':' :: rest => some (.colon, rest)
  | 'n' :: 'u' :: 'l' :: 'l' :: rest => some (.scalar .null, rest)
  | 't' :: 'r' :: 'u' :: 'e' :: rest => some (.scalar (.bool true), rest)
  | 'f' :: 'a' :: 'l' :: 's' :: 'e' :: rest => some (.scalar (.bool false), rest)
  | '"' :: rest => (string? [] rest).map fun (s, rest) => (.text s, rest)
  | cs => (number? cs).map fun (d, rest) => (.scalar (.number d.toDouble), rest)

theorem length_string? {before : Text} {cs rest : List Char} {s : Text}
    (h : string? before cs = some (s, rest)) : rest.length < cs.length := by
  fun_induction string? before cs with
  | case1 => simp at h
  | case2 => simp_all
  | case3 _ _ _ _ _ _ _ _ ih => have := ih h; simp only [List.length_cons]; omega
  | case4 => simp at h
  | case5 _ _ _ _ _ _ ih => have := ih h; simp only [List.length_cons]; omega
  | case6 => simp at h
  | case7 => simp at h
  | case8 _ _ _ _ _ _ _ ih => have := ih h; simp only [List.length_cons]; omega

theorem length_minus (cs : List Char) : (minus cs).2.length ≤ cs.length := by
  unfold minus; split <;> simp

theorem length_dropWhile (cs : List Char) : (cs.dropWhile Char.isDigit).length ≤ cs.length :=
  (List.dropWhile_suffix _).length_le

theorem length_dropWhile_lt {cs : List Char} (h : cs.takeWhile Char.isDigit ≠ []) :
    (cs.dropWhile Char.isDigit).length < cs.length := by
  have := congrArg List.length (List.takeWhile_append_dropWhile (p := Char.isDigit) (l := cs))
  have hpos := List.length_pos_iff.2 h
  simp only [List.length_append] at this
  omega

theorem length_whole? {cs rest ds : List Char} (h : whole? cs = some (ds, rest)) :
    rest.length < cs.length := by
  unfold whole? at h
  split at h
  · simp at h
  · simp at h
  · next hne _ =>
    simp only [Option.some.injEq, Prod.mk.injEq] at h
    exact h.2 ▸ length_dropWhile_lt (by intro h0; exact hne h0)

theorem length_fraction? {cs rest ds : List Char} (h : fraction? cs = some (ds, rest)) :
    rest.length ≤ cs.length := by
  unfold fraction? at h
  split at h
  · split at h
    · simp at h
    · simp only [Option.some.injEq, Prod.mk.injEq] at h
      rw [← h.2, List.length_cons]
      exact Nat.le_succ_of_le (length_dropWhile _)
  · simp_all

theorem length_power? {b : Bool} {cs rest : List Char} {e : Int} (h : power? b cs = some (e, rest)) :
    rest.length ≤ cs.length := by
  unfold power? at h
  split at h
  · simp at h
  · simp only [Option.some.injEq, Prod.mk.injEq] at h
    exact h.2 ▸ length_dropWhile _

theorem length_exponent? {cs rest : List Char} {e : Int} (h : exponent? cs = some (e, rest)) :
    rest.length ≤ cs.length := by
  unfold exponent? at h
  split at h
  · split at h
    · split at h
      · exact Nat.le_succ_of_le (Nat.le_succ_of_le (length_power? h))
      · exact Nat.le_succ_of_le (Nat.le_succ_of_le (length_power? h))
      · exact Nat.le_succ_of_le (length_power? h)
    · exact (Prod.mk.inj (Option.some.inj h)).2 ▸ Nat.le_refl _
  · exact (Prod.mk.inj (Option.some.inj h)).2 ▸ Nat.le_refl _

theorem length_number? {cs rest : List Char} {d : Decimal} (h : number? cs = some (d, rest)) :
    rest.length < cs.length := by
  unfold number? at h
  have h0 := length_minus cs
  split at h
  next negative cs' hm =>
  rw [hm] at h0
  split at h
  · simp at h
  · next hw =>
    split at h
    · simp at h
    · next hf =>
      split at h
      · simp at h
      · next he =>
        simp only [Option.some.injEq, Prod.mk.injEq] at h
        have h1 := length_whole? hw
        have h2 := length_fraction? hf
        have h3 := length_exponent? he
        rw [← h.2]
        simp only at h0
        omega

theorem length_next? {cs rest : List Char} {t : Token} (h : next? cs = some (t, rest)) :
    rest.length < cs.length := by
  unfold next? at h
  split at h
  case h_10 =>
    obtain ⟨_, hs, hr⟩ := Option.map_eq_some_iff.1 h
    simp only [Prod.mk.injEq] at hr
    exact hr.2 ▸ Nat.lt_succ_of_lt (length_string? hs)
  case h_11 =>
    obtain ⟨_, hn, hr⟩ := Option.map_eq_some_iff.1 h
    simp only [Prod.mk.injEq] at hr
    exact hr.2 ▸ length_number? hn
  all_goals
    simp only [Option.some.injEq, Prod.mk.injEq] at h
    rw [← h.2]
    simp only [List.length_cons]
    omega

/-- The tokens of a text behind those read before; nothing if some part of it is no token. -/
def scan (before : List Token) (cs : List Char) : Option (List Token) :=
  match cs with
  | [] => some before.reverse
  | c :: rest =>
    if isBlank c then scan before rest
    else
      match h : next? (c :: rest) with
      | none => none
      | some (t, rest') =>
        have := length_next? h
        scan (t :: before) rest'
termination_by cs.length
decreasing_by
  · exact Nat.lt_succ_self _
  · exact this

end Token

end ArchiveKeeper.Json
