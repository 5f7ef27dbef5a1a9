import ArchiveKeeper.Proofs.Json.Units

namespace ArchiveKeeper.Json.Token

def blanks : List Char := [' ', '\t', '\n', '\r']

/-- The letters that may stand after a backslash, with the characters they stand for. -/
def escapes : List (Char × Char) :=
  [('"', '"'), ('\\', '\\'), ('/', '/'), ('b', '\x08'), ('f', '\x0c'), ('n', '\n'), ('r', '\r'),
    ('t', '\t')]

def hexLetters : List (Char × Char) :=
  [('0', '0'), ('1', '1'), ('2', '2'), ('3', '3'), ('4', '4'), ('5', '5'), ('6', '6'), ('7', '7'),
    ('8', '8'), ('9', '9'), ('a', 'A'), ('b', 'B'), ('c', 'C'), ('d', 'D'), ('e', 'E'), ('f', 'F')]

def IsHex (c : Char) (n : Nat) : Prop := ∃ d ∈ hexLetters[n]?, c = d.1 ∨ c = d.2

instance (c : Char) (n : Nat) : Decidable (IsHex c n) :=
  inferInstanceAs (Decidable (∃ d ∈ hexLetters[n]?, c = d.1 ∨ c = d.2))

/-- What stands between quotes, with its code units. A character that needs no escape stands for
itself. -/
inductive Quoted : List Char → List Nat → Prop
  | nil : Quoted [] []
  | plain {c : Char} {cs : List Char} {us : List Nat} : c ≠ '"' → c ≠ '\\' → 0x20 ≤ c.toNat →
      Quoted cs us → Quoted (c :: cs) (ArchiveKeeper.Text.unitsOf c ++ us)
  | escape {e c : Char} {cs : List Char} {us : List Nat} : (e, c) ∈ escapes → Quoted cs us →
      Quoted ('\\' :: e :: cs) (ArchiveKeeper.Text.unitsOf c ++ us)
  | unit {a b c d : Char} {i j k l : Nat} {cs : List Char} {us : List Nat} : IsHex a i →
      IsHex b j → IsHex c k → IsHex d l → Quoted cs us →
      Quoted ('\\' :: 'u' :: a :: b :: c :: d :: cs) ((((i * 16 + j) * 16 + k) * 16 + l) :: us)

/-- A whole part as it is written, without a superfluous zero in front. -/
structure IsWhole (whole : List Char) : Prop where
  digits : ∀ c ∈ whole, c.isDigit
  lead : whole = ['0'] ∨ ∃ c cs, whole = c :: cs ∧ c ≠ '0'

def IsDigits (cs : List Char) : Prop := cs ≠ [] ∧ ∀ c ∈ cs, c.isDigit

/-- A fraction with its digits. It may be left out but not empty. -/
inductive IsFraction : List Char → List Char → Prop
  | none : IsFraction [] []
  | some {digits : List Char} : IsDigits digits → IsFraction ('.' :: digits) digits

def signs : List (List Char × Bool) := [([], false), (['+'], false), (['-'], true)]

/-- A power of ten. It may be left out but not empty. -/
inductive IsPower : List Char → Int → Prop
  | none : IsPower [] 0
  | some {letter : Char} {sign digits : List Char} {negative : Bool} : letter ∈ ['e', 'E'] →
      (sign, negative) ∈ signs → IsDigits digits →
      IsPower (letter :: (sign ++ digits))
        (if negative then -(Decimal.ofDigits digits : Int) else Decimal.ofDigits digits)

/-- A number with its value: a sign, a whole part, a fraction and a power of ten. -/
inductive IsNumeral : List Char → Decimal → Prop
  | mk {whole cs fraction cs' : List Char} {e : Int} (negative : Bool) : IsWhole whole →
      IsFraction cs fraction → IsPower cs' e →
      IsNumeral ((if negative then ['-'] else []) ++ (whole ++ (cs ++ cs')))
        (Decimal.ofParts negative whole fraction e)

/-- The characters with which a token is written. A text is told by its code units. -/
inductive Word : Token → List Char → Prop
  | openArray : Word .openArray ['[']
  | closeArray : Word .closeArray [']']
  | openObject : Word .openObject ['{']
  | closeObject : Word .closeObject ['}']
  | comma : Word .comma [',']
  | colon : Word .colon [':']
  | null : Word (.scalar .null) ['n', 'u', 'l', 'l']
  | truth : Word (.scalar (.bool true)) ['t', 'r', 'u', 'e']
  | falsehood : Word (.scalar (.bool false)) ['f', 'a', 'l', 's', 'e']
  | number {cs : List Char} {d : Decimal} : IsNumeral cs d →
      Word (.scalar (.number d.toDouble)) cs
  | text {cs : List Char} {s : Text} : Quoted cs s.units → s.Joined →
      Word (.text s) ('"' :: (cs ++ ['"']))

/-- The words of tokens in their order, with blanks around them. -/
inductive Spelled : List Token → List Char → Prop
  | nil : Spelled [] []
  | blank {c : Char} {ts : List Token} {cs : List Char} : c ∈ blanks → Spelled ts cs →
      Spelled ts (c :: cs)
  | word {t : Token} {w : List Char} {ts : List Token} {cs : List Char} : t.Word w →
      Spelled ts cs → Spelled (t :: ts) (w ++ cs)

theorem isBlank_iff {c : Char} : isBlank c ↔ c ∈ blanks := by
  simp [isBlank, blanks, or_assoc]

theorem Quoted.append {cs cs' : List Char} {us us' : List Nat} (h : Quoted cs us)
    (h' : Quoted cs' us') : Quoted (cs ++ cs') (us ++ us') := by
  induction h with
  | nil => exact h'
  | plain hquote hback hcontrol _ ih =>
    rw [List.append_assoc]
    exact .plain hquote hback hcontrol ih
  | escape hescape _ ih =>
    rw [List.append_assoc]
    exact .escape hescape ih
  | unit ha hb hc hd _ ih => exact .unit ha hb hc hd ih

theorem Spelled.append {ts ts' : List Token} {cs cs' : List Char} (h : Spelled ts cs)
    (h' : Spelled ts' cs') : Spelled (ts ++ ts') (cs ++ cs') := by
  induction h with
  | nil => exact h'
  | blank hc _ ih => exact .blank hc ih
  | word hw _ ih =>
    rw [List.append_assoc]
    exact .word hw ih

theorem Word.spelled {t : Token} {w : List Char} (h : t.Word w) : Spelled [t] w := by
  rw [← List.append_nil w]
  exact .word h .nil

section Strings

variable {a b c d e : Char} {i j k l n u : Nat} {cs rest : List Char} {us : List Nat}
  {before s : Text}

theorem escaped?_eq_some_iff : escaped? e = some c ↔ (e, c) ∈ escapes := by
  unfold escaped? escapes
  split <;> simp_all [eq_comm]

theorem hexValue?_of_isHex (h : IsHex c n) : hexValue? c = some n := by
  have hall : ∀ m < 16, ∀ d ∈ hexLetters[m]?, hexValue? d.1 = some m ∧ hexValue? d.2 = some m := by
    decide
  obtain ⟨d, hd, hc⟩ := h
  obtain ⟨hlower, hupper⟩ := hall n (List.getElem?_eq_some_iff.mp hd).1 d hd
  rcases hc with rfl | rfl
  · exact hlower
  · exact hupper

theorem hexValue?_eq_some_iff : hexValue? c = some n ↔ IsHex c n := by
  refine ⟨fun h => ?_, hexValue?_of_isHex⟩
  -- no character behind these is a digit
  have hall : ∀ m < 103, ∀ n ∈ hexValue? (Char.ofNat m), IsHex (Char.ofNat m) n := by decide
  have hc : c.toNat < 103 := by
    unfold hexValue? at h
    split at h
    · rename_i hdigit
      have hle : c.toNat ≤ 57 := (Char.isDigit_iff_toNat.mp hdigit).2
      omega
    · split at h
      · rename_i hletter
        have hle : c.toNat ≤ 102 := hletter.2
        omega
      · split at h
        · rename_i hletter
          have hle : c.toNat ≤ 70 := hletter.2
          omega
        · cases h
  have hhex := hall c.toNat hc n
  rw [Char.ofNat_toNat] at hhex
  exact hhex h

theorem isHex_lt (h : IsHex c n) : n < 16 := by
  obtain ⟨d, hd, -⟩ := h
  exact (List.getElem?_eq_some_iff.mp hd).1

theorem unit?_eq_some_iff : unit? a b c d = some u ↔ ∃ i j k l, IsHex a i ∧ IsHex b j ∧
    IsHex c k ∧ IsHex d l ∧ u = ((i * 16 + j) * 16 + k) * 16 + l := by
  simp only [unit?, ← hexValue?_eq_some_iff, Option.bind_eq_bind, Option.bind_eq_some_iff,
    Option.pure_def, Option.some.injEq]
  constructor
  · rintro ⟨i, hi, j, hj, k, hk, l, hl, rfl⟩
    exact ⟨i, j, k, l, hi, hj, hk, hl, by omega⟩
  · rintro ⟨i, j, k, l, hi, hj, hk, hl, rfl⟩
    exact ⟨i, hi, j, hj, k, hk, l, hl, by omega⟩

theorem Quoted.lt (h : Quoted cs us) : ∀ u ∈ us, u < 0x10000 := by
  have hchar (c : Char) : ∀ u ∈ ArchiveKeeper.Text.unitsOf c, u < 0x10000 := by
    rcases Text.unitsOf_cases c with ⟨hunits, hlt, -⟩ | ⟨first, second, _, _, hunits, -⟩
    · simpa [hunits] using hlt
    · rw [hunits]
      simp only [List.forall_mem_cons]
      exact ⟨by omega, by omega, List.forall_mem_nil _⟩
  induction h with
  | nil => exact List.forall_mem_nil _
  | plain _ _ _ _ ih => exact List.forall_mem_append.mpr ⟨hchar _, ih⟩
  | escape _ _ ih => exact List.forall_mem_append.mpr ⟨hchar _, ih⟩
  | unit ha hb hc hd _ ih =>
    have := isHex_lt ha
    have := isHex_lt hb
    have := isHex_lt hc
    have := isHex_lt hd
    exact List.forall_mem_cons.mpr ⟨by omega, ih⟩

theorem pushUnits_char (before : Text) (c : Char) (us : List Nat) :
    Text.pushUnits before (ArchiveKeeper.Text.unitsOf c ++ us) =
      Text.pushUnits (.char c :: before) us := by
  rw [Text.pushUnits_append, Text.pushUnits_unitsOf]

theorem string?_of_quoted (h : Quoted cs us) (before : Text) (rest : List Char) :
    string? before (cs ++ '"' :: rest) = some ((Text.pushUnits before us).reverse, rest) := by
  induction h generalizing before with
  | nil => rw [List.nil_append, string?, Text.pushUnits, List.foldl_nil]
  | plain hquote hback hcontrol _ ih =>
    rw [List.cons_append, string?_cons before hquote hback (by omega), ih, pushUnits_char]
  | escape hescape _ ih =>
    rw [List.cons_append, List.cons_append,
      string?_escape before (escaped?_eq_some_iff.mpr hescape), ih, pushUnits_char]
  | unit ha hb hc hd _ ih =>
    have hunit := unit?_eq_some_iff.mpr ⟨_, _, _, _, ha, hb, hc, hd, rfl⟩
    simp only [List.cons_append, string?, hunit]
    exact ih _

theorem quoted_of_string? (h : string? before cs = some (s, rest)) : ∃ w us,
    cs = w ++ '"' :: rest ∧ Quoted w us ∧ s = (Text.pushUnits before us).reverse := by
  fun_induction string? before cs with
  | case1 => cases h
  | case2 => cases h; exact ⟨[], [], rfl, .nil, rfl⟩
  | case3 before a b c d cs u hunit ih =>
    obtain ⟨w, us, rfl, hw, rfl⟩ := ih h
    obtain ⟨i, j, k, l, ha, hb, hc, hd, rfl⟩ := unit?_eq_some_iff.mp hunit
    exact ⟨_, _, rfl, .unit ha hb hc hd hw, rfl⟩
  | case4 => cases h
  | case5 before e cs _ c hescape ih =>
    obtain ⟨w, us, rfl, hw, rfl⟩ := ih h
    exact ⟨_, _, rfl, .escape (escaped?_eq_some_iff.mp hescape) hw, by rw [pushUnits_char]⟩
  | case6 => cases h
  | case7 => cases h
  | case8 before c cs hquote _ _ hnot ih =>
    obtain ⟨w, us, rfl, hw, rfl⟩ := ih h
    rw [not_or] at hnot
    exact ⟨_, _, rfl, .plain hquote hnot.2 (by omega) hw, by rw [pushUnits_char]⟩

end Strings

section Numerals

variable {cs rest ds whole : List Char} {c : Char} {d : Decimal} {e : Int} {negative : Bool}

theorem span_digits (hdigits : ∀ c ∈ ds, c.isDigit) (hrest : rest.takeWhile Char.isDigit = []) :
    (ds ++ rest).takeWhile Char.isDigit = ds ∧
      (ds ++ rest).dropWhile Char.isDigit = rest := by
  have hdrop : rest.dropWhile Char.isDigit = rest := by
    have h := List.takeWhile_append_dropWhile (p := Char.isDigit) (l := rest)
    rwa [hrest, List.nil_append] at h
  rw [List.takeWhile_append_of_pos hdigits, List.dropWhile_append_of_pos hdigits, hrest, hdrop,
    List.append_nil]
  exact ⟨rfl, rfl⟩

/-- What may stand behind a number, so that the number does not go on. -/
def Ends (rest : List Char) : Prop := ∀ c ∈ rest.head?, ¬ c.isDigit ∧ c ∉ ['.', 'e', 'E']

theorem Ends.no_digit (h : Ends rest) : rest.takeWhile Char.isDigit = [] := by
  cases rest with
  | nil => rfl
  | cons c rest => exact List.takeWhile_cons_of_neg (h c rfl).1

theorem IsDigits.head (h : IsDigits ds) : ∃ c cs, ds = c :: cs ∧ c.isDigit := by
  obtain ⟨hne, hdigits⟩ := h
  obtain ⟨c, cs, rfl⟩ := List.exists_cons_of_ne_nil hne
  exact ⟨c, cs, rfl, hdigits c List.mem_cons_self⟩

theorem isDigits_of_takeWhile (h : cs.takeWhile Char.isDigit = ds) (hne : ds ≠ []) :
    cs = ds ++ cs.dropWhile Char.isDigit ∧ IsDigits ds := by
  subst h
  exact ⟨List.takeWhile_append_dropWhile.symm, hne, List.all_eq_true.mp List.all_takeWhile⟩

theorem minus_eq (cs : List Char) :
    cs = (if (minus cs).1 then ['-'] else []) ++ (minus cs).2 := by
  unfold minus
  split <;> rfl

theorem isWhole_of_whole? (h : whole? cs = some (ds, rest)) : cs = ds ++ rest ∧ IsWhole ds := by
  unfold whole? at h
  split at h
  · cases h
  · cases h
  · rename_i hne hlead
    cases h
    obtain ⟨hcs, -, hdigits⟩ := isDigits_of_takeWhile rfl hne
    refine ⟨hcs, hdigits, ?_⟩
    cases htake : cs.takeWhile Char.isDigit with
    | nil => exact absurd htake hne
    | cons c ds =>
      by_cases hc : c = '0'
      · subst hc
        cases ds with
        | nil => exact .inl rfl
        | cons d ds => exact absurd htake (hlead _ _)
      · exact .inr ⟨c, ds, rfl, hc⟩

theorem isFraction_of_fraction? (h : fraction? cs = some (ds, rest)) :
    ∃ w, cs = w ++ rest ∧ IsFraction w ds := by
  unfold fraction? at h
  split at h
  · split at h
    · cases h
    · rename_i hne
      cases h
      obtain ⟨hcs, hdigits⟩ := isDigits_of_takeWhile rfl hne
      exact ⟨_, congrArg _ hcs, .some hdigits⟩
  · cases h
    exact ⟨[], rfl, .none⟩

theorem fraction?_of_isFraction {w : List Char} (h : IsFraction w ds)
    (hrest : rest.takeWhile Char.isDigit = []) (hpoint : rest.head? ≠ some '.') :
    fraction? (w ++ rest) = some (ds, rest) := by
  cases h with
  | none =>
    rw [List.nil_append]
    unfold fraction?
    split
    · exact absurd rfl hpoint
    · rfl
  | some hdigits =>
    obtain ⟨htake, hdrop⟩ := span_digits hdigits.2 hrest
    rw [List.cons_append, fraction?, htake, hdrop]
    split
    · exact absurd rfl hdigits.1
    · rfl

theorem digits_of_power? (h : power? negative cs = some (e, rest)) : ∃ ds, cs = ds ++ rest ∧
    IsDigits ds ∧ e = if negative then -(Decimal.ofDigits ds : Int) else Decimal.ofDigits ds := by
  unfold power? at h
  split at h
  · cases h
  · rename_i hne
    cases h
    obtain ⟨hcs, hdigits⟩ := isDigits_of_takeWhile rfl hne
    exact ⟨_, hcs, hdigits, rfl⟩

theorem power?_of_digits (negative : Bool) (h : IsDigits ds) (hrest : rest.takeWhile Char.isDigit = []) :
    power? negative (ds ++ rest) =
      some (if negative then -(Decimal.ofDigits ds : Int) else Decimal.ofDigits ds, rest) := by
  obtain ⟨htake, hdrop⟩ := span_digits h.2 hrest
  unfold power?
  rw [htake, hdrop]
  split
  · exact absurd rfl h.1
  · rfl

theorem isPower_of_exponent? (h : exponent? cs = some (e, rest)) :
    ∃ w, cs = w ++ rest ∧ IsPower w e := by
  unfold exponent? at h
  split at h
  · rename_i letter cs
    split at h
    · rename_i hletter
      have hletter : letter ∈ ['e', 'E'] := by simpa using hletter
      split at h
      · obtain ⟨ds, rfl, hds, rfl⟩ := digits_of_power? h
        exact ⟨_, rfl, .some hletter (.tail _ (.tail _ (.head _))) hds⟩
      · obtain ⟨ds, rfl, hds, rfl⟩ := digits_of_power? h
        exact ⟨_, rfl, .some hletter (.tail _ (.head _)) hds⟩
      · obtain ⟨ds, rfl, hds, rfl⟩ := digits_of_power? h
        exact ⟨_, rfl, .some hletter (.head _) hds⟩
    · cases h
      exact ⟨[], rfl, .none⟩
  · cases h
    exact ⟨[], rfl, .none⟩

theorem exponent?_of_isPower {w : List Char} (h : IsPower w e) (hrest : Ends rest) :
    exponent? (w ++ rest) = some (e, rest) := by
  cases h with
  | none =>
    rw [List.nil_append]
    unfold exponent?
    split
    · rename_i c rest
      have hc := (hrest c rfl).2
      simp only [List.mem_cons, List.not_mem_nil, or_false, not_or] at hc
      rw [if_neg (not_or.mpr hc.2)]
    · rfl
  | @some letter sign digits negative hletter hsign hdigits =>
    have hpower := power?_of_digits negative hdigits hrest.no_digit
    have hletter : letter = 'e' ∨ letter = 'E' := by simpa using hletter
    rw [List.cons_append, List.append_assoc]
    unfold exponent?
    dsimp only
    rw [if_pos hletter]
    simp only [signs, List.mem_cons, Prod.mk.injEq, List.not_mem_nil, or_false] at hsign
    rcases hsign with ⟨rfl, rfl⟩ | ⟨rfl, rfl⟩ | ⟨rfl, rfl⟩
    · rw [List.nil_append]
      -- without a sign the digits come first, and a digit is not taken for a sign
      obtain ⟨c, cs, rfl, hc⟩ := hdigits.head
      split
      · rename_i heq
        cases heq
        exact absurd hc (by decide)
      · rename_i heq
        cases heq
        exact absurd hc (by decide)
      · exact hpower
    · exact hpower
    · exact hpower

theorem minus_append (negative : Bool) (h : IsWhole whole) (rest : List Char) :
    minus ((if negative then ['-'] else []) ++ (whole ++ rest)) = (negative, whole ++ rest) := by
  cases negative with
  | true => rfl
  | false =>
    obtain ⟨c, cs, rfl⟩ : ∃ c cs, whole = c :: cs := by
      rcases h.lead with hw | ⟨c, cs, hw, -⟩
      · exact ⟨_, _, hw⟩
      · exact ⟨c, cs, hw⟩
    have hc : c ≠ '-' := by
      rintro rfl
      exact absurd (h.digits '-' List.mem_cons_self) (by decide)
    simp [minus, hc]

theorem whole?_append (h : IsWhole whole) (hrest : rest.takeWhile Char.isDigit = []) :
    whole? (whole ++ rest) = some (whole, rest) := by
  obtain ⟨htake, hdrop⟩ := span_digits h.digits hrest
  unfold whole?
  rw [htake, hdrop]
  split
  · rcases h.lead with hw | ⟨c, cs, hw, -⟩
    · cases hw
    · cases hw
  · rcases h.lead with hw | ⟨c, cs, hw, hc⟩
    · cases hw
    · cases hw
      exact absurd rfl hc
  · rfl

theorem isNumeral_of_number? (h : number? cs = some (d, rest)) :
    ∃ w, cs = w ++ rest ∧ IsNumeral w d := by
  have hminus := minus_eq cs
  unfold number? at h
  split at h
  rename_i negative cs₁ hsign
  rw [hsign] at hminus
  split at h
  · cases h
  · rename_i whole cs₂ hw
    split at h
    · cases h
    · rename_i fraction cs₃ hf
      split at h
      · cases h
      · rename_i e cs₄ hp
        cases h
        obtain ⟨rfl, hwhole⟩ := isWhole_of_whole? hw
        obtain ⟨w, rfl, hfraction⟩ := isFraction_of_fraction? hf
        obtain ⟨w', rfl, hpower⟩ := isPower_of_exponent? hp
        refine ⟨_, ?_, .mk negative hwhole hfraction hpower⟩
        rw [hminus]
        simp only [List.append_assoc]

/-- What may stand behind a power of ten may stand behind what comes before it. -/
theorem behind_power {w : List Char} (h : IsPower w e) (hrest : Ends rest) :
    (w ++ rest).takeWhile Char.isDigit = [] ∧ (w ++ rest).head? ≠ some '.' := by
  cases h with
  | none => exact ⟨hrest.no_digit, fun hc => (hrest '.' hc).2 (by decide)⟩
  | some hletter _ _ =>
    simp only [List.mem_cons, List.not_mem_nil, or_false] at hletter
    rcases hletter with rfl | rfl
    · exact ⟨rfl, by simp⟩
    · exact ⟨rfl, by simp⟩

theorem behind_fraction {w : List Char} (h : IsFraction w ds)
    (hrest : rest.takeWhile Char.isDigit = []) : (w ++ rest).takeWhile Char.isDigit = [] := by
  cases h with
  | none => exact hrest
  | some _ => rfl

theorem number?_of_isNumeral {w : List Char} (h : IsNumeral w d) (hrest : Ends rest) :
    number? (w ++ rest) = some (d, rest) := by
  cases h with
  | mk negative hwhole hfraction hpower =>
    obtain ⟨hdigit, hpoint⟩ := behind_power hpower hrest
    unfold number?
    simp only [List.append_assoc]
    rw [minus_append negative hwhole]
    dsimp only
    rw [whole?_append hwhole (behind_fraction hfraction hdigit)]
    dsimp only
    rw [fraction?_of_isFraction hfraction hdigit hpoint]
    dsimp only
    rw [exponent?_of_isPower hpower hrest]

theorem head_of_number? (h : number? (c :: cs) = some (d, rest)) : c = '-' ∨ c.isDigit := by
  by_contra hc
  rw [not_or] at hc
  have hminus : minus (c :: cs) = (false, c :: cs) := by
    unfold minus
    split
    · rename_i heq
      exact absurd (List.cons.inj heq).1 hc.1
    · rfl
  have hwhole : whole? (c :: cs) = none := by
    unfold whole?
    rw [List.takeWhile_cons_of_neg hc.2]
  unfold number? at h
  rw [hminus] at h
  dsimp only at h
  rw [hwhole] at h
  cases h

theorem not_blank_of_number? (h : number? (c :: cs) = some (d, rest)) : isBlank c = false := by
  rcases head_of_number? h with rfl | hc
  · rfl
  · rw [Bool.eq_false_iff]
    intro hblank
    simp only [isBlank, Bool.or_eq_true, beq_iff_eq] at hblank
    rcases hblank with ((rfl | rfl) | rfl) | rfl
    all_goals exact absurd hc (by decide)

theorem next?_of_number? (h : number? cs = some (d, rest)) :
    next? cs = some (.scalar (.number d.toDouble), rest) := by
  unfold next?
  split
  case h_11 => rw [h]; rfl
  -- no other token starts like a number
  all_goals
    rcases head_of_number? h with hc | hc
    · exact absurd hc (by decide)
    · exact absurd hc (by decide)

end Numerals

section Scanning

variable {t : Token} {ts : List Token} {cs w rest : List Char}

/-- A token that is no part of a value by itself. -/
def IsMark : Token → Prop
  | .scalar _ | .text _ => False
  | _ => True

theorem word_of_next? (h : next? cs = some (t, rest)) : ∃ w, cs = w ++ rest ∧ t.Word w := by
  unfold next? at h
  split at h
  case h_1 => cases h; exact ⟨_, rfl, .openArray⟩
  case h_2 => cases h; exact ⟨_, rfl, .closeArray⟩
  case h_3 => cases h; exact ⟨_, rfl, .openObject⟩
  case h_4 => cases h; exact ⟨_, rfl, .closeObject⟩
  case h_5 => cases h; exact ⟨_, rfl, .comma⟩
  case h_6 => cases h; exact ⟨_, rfl, .colon⟩
  case h_7 => cases h; exact ⟨_, rfl, .null⟩
  case h_8 => cases h; exact ⟨_, rfl, .truth⟩
  case h_9 => cases h; exact ⟨_, rfl, .falsehood⟩
  case h_10 =>
    obtain ⟨⟨s, rest'⟩, hs, hr⟩ := Option.map_eq_some_iff.mp h
    cases hr
    obtain ⟨w, us, rfl, hw, rfl⟩ := quoted_of_string? hs
    obtain ⟨hjoined, hunits⟩ := (Text.reverse_pushUnits_eq_iff hw.lt).mp rfl
    exact ⟨_, by simp, .text (hunits.symm ▸ hw) hjoined⟩
  case h_11 =>
    obtain ⟨⟨d, rest'⟩, hd, hr⟩ := Option.map_eq_some_iff.mp h
    cases hr
    obtain ⟨w, rfl, hw⟩ := isNumeral_of_number? hd
    exact ⟨w, rfl, .number hw⟩

theorem next?_of_word (h : t.Word w) (hrest : t.IsMark ∨ Ends rest) :
    next? (w ++ rest) = some (t, rest) := by
  cases h with
  | number hw => exact next?_of_number? (number?_of_isNumeral hw (hrest.resolve_left id))
  | @text cs s hw hjoined =>
    have hs := string?_of_quoted hw [] rest
    rw [(Text.reverse_pushUnits_eq_iff hw.lt).mpr ⟨hjoined, rfl⟩] at hs
    rw [List.cons_append, List.append_assoc, List.singleton_append, next?, hs]
    rfl
  | _ => rfl

theorem Word.head (h : t.Word w) : ∃ c cs, w = c :: cs ∧ isBlank c = false ∧
    (t.IsMark → ¬ c.isDigit ∧ c ∉ ['.', 'e', 'E']) := by
  cases h with
  | number hw =>
    have hd := number?_of_isNumeral hw (show Ends [] from fun _ hc => nomatch hc)
    cases w with
    | nil => cases hd
    | cons c cs => exact ⟨c, cs, rfl, not_blank_of_number? hd, False.elim⟩
  | _ => exact ⟨_, _, rfl, rfl, fun _ => by decide⟩

theorem ends_of_spelled (h : Spelled ts cs) (hmark : ∀ t ∈ ts.head?, t.IsMark) : Ends cs := by
  cases h with
  | nil => exact fun _ hc => nomatch hc
  | blank hb _ =>
    intro c hc
    cases hc
    simp only [blanks, List.mem_cons, List.not_mem_nil, or_false] at hb
    rcases hb with rfl | rfl | rfl | rfl
    all_goals exact ⟨by decide, by decide⟩
  | word hw _ =>
    obtain ⟨c, cs, rfl, -, hc⟩ := hw.head
    intro c' hc'
    cases hc'
    exact hc (hmark _ rfl)

def Parted (t t' : Token) : Prop := t.IsMark ∨ t'.IsMark

theorem scan_of_next? {c : Char} (hblank : isBlank c = false)
    (h : next? (c :: cs) = some (t, rest)) (before : List Token) :
    scan before (c :: cs) = scan (t :: before) rest := by
  rw [scan, if_neg (by simp [hblank])]
  split
  · rename_i hnone
    rw [h] at hnone
    cases hnone
  · rename_i hsome
    rw [h] at hsome
    cases hsome
    rfl

theorem spelled_of_scan {before : List Token} (h : scan before cs = some ts) :
    ∃ ts', ts = before.reverse ++ ts' ∧ Spelled ts' cs := by
  fun_induction scan before cs with
  | case1 before => cases h; exact ⟨[], (List.append_nil _).symm, .nil⟩
  | case2 before c rest hblank ih =>
    obtain ⟨ts', rfl, hts⟩ := ih h
    exact ⟨ts', rfl, .blank (isBlank_iff.mp hblank) hts⟩
  | case3 => cases h
  | case4 before c cs _ t rest hnext _ ih =>
    obtain ⟨ts', rfl, hts⟩ := ih h
    obtain ⟨w, hcs, hw⟩ := word_of_next? hnext
    refine ⟨t :: ts', by simp, ?_⟩
    rw [hcs]
    exact .word hw hts

theorem scan_of_spelled (h : Spelled ts cs) (hts : ts.IsChain Parted) (before : List Token) :
    scan before cs = some (before.reverse ++ ts) := by
  induction h generalizing before with
  | nil => rw [scan, List.append_nil]
  | blank hc _ ih => rw [scan, if_pos (isBlank_iff.mpr hc), ih hts]
  | @word t w ts cs hw hcs ih =>
    obtain ⟨hhead, hts⟩ := List.isChain_cons.mp hts
    -- a token that is no mark, such as a number, has a mark behind it or nothing
    have hrest : t.IsMark ∨ Ends cs := by
      by_cases ht : t.IsMark
      · exact .inl ht
      · exact .inr (ends_of_spelled hcs fun t' ht' => (hhead t' ht').resolve_left ht)
    have hnext := next?_of_word hw hrest
    obtain ⟨c, w, rfl, hblank, -⟩ := hw.head
    rw [List.cons_append] at hnext ⊢
    rw [scan_of_next? hblank hnext, ih hts, List.reverse_cons, List.append_assoc,
      List.singleton_append]

/-- The tokens of a text in which they are parted are the ones that are read. -/
theorem scan_eq_some_iff (hts : ts.IsChain Parted) : scan [] cs = some ts ↔ Spelled ts cs := by
  refine ⟨fun h => ?_, fun h => scan_of_spelled h hts []⟩
  obtain ⟨ts', rfl, hts'⟩ := spelled_of_scan h
  exact hts'

end Scanning

end ArchiveKeeper.Json.Token
