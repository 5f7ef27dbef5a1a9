import ArchiveKeeper.Json.Printer
import ArchiveKeeper.Proofs.Json.Numbers
import ArchiveKeeper.Proofs.Json.Syntax

namespace ArchiveKeeper.Json

open Token

section Strings

theorem hexDigits_eq {n : Nat} (h : n < 0x10000) :
    hexDigits 4 n = [(n / 0x1000).digitChar, (n / 0x100 % 16).digitChar, (n / 16 % 16).digitChar,
      (n % 16).digitChar] := by
  have hsmall (k : Nat) (hk : k < 16) : Nat.toDigits 16 k = [k.digitChar] :=
    Nat.toDigits_of_lt_base hk
  have hlarge (k : Nat) (hk : 16 ≤ k) :
      Nat.toDigits 16 k = Nat.toDigits 16 (k / 16) ++ [(k % 16).digitChar] :=
    Nat.toDigits_of_base_le (by omega) hk
  have h2 : n / 16 / 16 = n / 0x100 := by omega
  have h3 : n / 16 / 16 / 16 = n / 0x1000 := by omega
  unfold hexDigits
  -- the digits in front are zeros where the number is short
  by_cases h1 : n < 16
  · have hz : n / 16 = 0 ∧ n / 0x100 = 0 ∧ n / 0x1000 = 0 := by omega
    rw [hsmall n h1, hz.1, hz.2.1, hz.2.2, Nat.mod_eq_of_lt h1]
    rfl
  rw [hlarge n (by omega)]
  by_cases h1 : n / 16 < 16
  · have hz : n / 0x100 = 0 ∧ n / 0x1000 = 0 := by omega
    rw [hsmall _ h1, hz.1, hz.2, Nat.mod_eq_of_lt h1]
    rfl
  rw [hlarge _ (by omega)]
  by_cases h1 : n / 16 / 16 < 16
  · have hz : n / 0x1000 = 0 := by omega
    have hlead : n / 0x100 % 16 = n / 0x100 := Nat.mod_eq_of_lt (by omega)
    rw [hsmall _ h1, hz, h2, hlead]
    rfl
  · rw [hlarge _ (by omega), hsmall _ (by omega), h3, h2]
    rfl

/-- A code unit of 16 bits is written by its four digits of base 16. -/
theorem quoted_unit {n : Nat} (h : n < 0x10000) : Quoted ('\\' :: 'u' :: hexDigits 4 n) [n] := by
  have hdigit : ∀ k < 16, IsHex k.digitChar k := by decide
  have hunit := Quoted.unit (hdigit (n / 0x1000) (by omega)) (hdigit (n / 0x100 % 16) (by omega))
    (hdigit (n / 16 % 16) (by omega)) (hdigit (n % 16) (by omega)) .nil
  have hn : ((n / 0x1000 * 16 + n / 0x100 % 16) * 16 + n / 16 % 16) * 16 + n % 16 = n := by omega
  rwa [hn, ← hexDigits_eq h] at hunit

theorem quoted_written (r : Rune) : Quoted r.written r.units := by
  cases r with
  | half offset => exact quoted_unit (by omega)
  | char c =>
    have hchar {cs : List Char} (h : Quoted cs (ArchiveKeeper.Text.unitsOf c ++ [])) :
        Quoted cs (Rune.char c).units := by
      rwa [List.append_nil] at h
    simp only [Rune.written]
    -- the characters that have an escape of one letter
    iterate 7
      split
      · subst_vars
        exact hchar (.escape (by decide) .nil)
    split
    · rename_i hcontrol
      have hunits : (Rune.char c).units = [c.toNat] := if_pos (by omega)
      rw [hunits]
      exact quoted_unit (by omega)
    · rename_i hquote hback _ _ _ _ _ hcontrol
      exact hchar (.plain hquote hback (by omega) .nil)

theorem quoted_flatMap (t : Text) : Quoted (t.flatMap Rune.written) (Text.units t) := by
  induction t with
  | nil => exact .nil
  | cons r t ih =>
    rw [Text.units, List.flatMap_cons, List.flatMap_cons]
    exact (quoted_written r).append ih

theorem spelled_written {t : Text} (h : t.Joined) : Spelled [.text t] t.written :=
  (Word.text (quoted_flatMap t) h).spelled

end Strings

namespace Value

/-- The text of a value is read as some value, wherever it stands. -/
def ReadAs (v w : Value) : Prop := ∃ ts, w.Phrase ts ∧ Spelled ts v.chars

def Legible (v : Value) : Prop := v.ReadAs v

theorem ReadAs.read?_text {v w : Value} (h : v.ReadAs w) : read? v.text = some w := by
  rw [read?_eq_some_iff, HasText, text, String.toList_ofList]
  exact h

theorem readAs_string {t : Text} (h : t.Joined) : (string t).ReadAs (string t) :=
  ⟨_, .text t, spelled_written h⟩

theorem readAs_null : null.ReadAs null := ⟨_, .scalar null, Word.null.spelled⟩

theorem readAs_bool (b : Bool) : (bool b).ReadAs (bool b) := by
  cases b with
  | false => exact ⟨_, .scalar (bool false), Word.falsehood.spelled⟩
  | true => exact ⟨_, .scalar (bool true), Word.truth.spelled⟩

theorem readAs_number {m : Nat} {e : Int} (h : Double.InFormat m e) (negative : Bool) :
    (number (.finite negative m e)).ReadAs (number (Double.finite negative m e).plain) := by
  obtain ⟨d, hnumeral, hd⟩ := Double.isNumeral_text h negative
  exact ⟨_, .scalar _, hd ▸ (Word.number hnumeral).spelled⟩

theorem readAs_of_not_finite {x : Double} (h : x.isFinite = false) : (number x).ReadAs null := by
  have hchars : (number x).chars = null.chars := by
    rw [chars, chars, h]
    rfl
  unfold ReadAs
  rw [hchars]
  exact readAs_null

theorem itemChars_eq_map (vs : List Value) : itemChars vs = vs.map Value.chars := by
  induction vs with
  | nil => rfl
  | cons v vs ih => rw [itemChars, ih, List.map_cons]

theorem memberChars_eq_map (ms : List (Text × Value)) :
    memberChars ms = ms.map fun m => (m.1, m.2.chars) := by
  induction ms with
  | nil => rfl
  | cons m ms ih => rw [memberChars, ih, List.map_cons]

section Composed

variable {f : Value → Value} {vs : List Value} {ms : List (Text × Value)}

theorem commaSeparated_eq (xs : List (List Char)) : commaSeparated xs = [','].intercalate xs := by
  induction xs with
  | nil => rfl
  | cons x xs ih =>
    cases xs with
    | nil => simp [commaSeparated, List.intercalate]
    | cons y ys =>
      rw [commaSeparated, ih, intercalate_cons_cons]
      simp

theorem spelled_commaSeparated {α : Type} {tokens : α → List Token} {written : α → List Char}
    {parts : List α} (h : ∀ p ∈ parts, Spelled (tokens p) (written p)) :
    Spelled ([.comma].intercalate (parts.map tokens)) (commaSeparated (parts.map written)) := by
  rw [commaSeparated_eq]
  induction parts with
  | nil => exact .nil
  | cons p parts ih =>
    obtain ⟨hp, hparts⟩ := List.forall_mem_cons.mp h
    cases parts with
    | nil => simpa [List.intercalate] using hp
    | cons q parts =>
      have hrest := Spelled.word .comma (ih hparts)
      simp only [List.map_cons, intercalate_cons_cons] at hrest ⊢
      exact hp.append hrest

theorem readAs_array (h : ∀ v ∈ vs, v.ReadAs (f v)) : (array vs).ReadAs (array (vs.map f)) := by
  choose! tokens hphrase hspelled using h
  have hitems : ∀ i ∈ vs.map fun v => (f v, tokens v), i.1.Phrase i.2 := by
    intro i hi
    obtain ⟨v, hv, rfl⟩ := List.mem_map.mp hi
    exact hphrase v hv
  have harray := Phrase.array hitems
  rw [List.map_map, List.map_map] at harray
  refine ⟨_, harray, ?_⟩
  rw [chars, itemChars_eq_map]
  exact .word .openArray ((spelled_commaSeparated hspelled).append Word.closeArray.spelled)

def memberText (m : Text × Value) : List Char := m.1.written ++ ':' :: m.2.chars

theorem chars_object (ms : List (Text × Value)) : (object ms).chars =
    '{' :: (commaSeparated ((inWritingOrder ms).map memberText) ++ ['}']) := by
  rw [chars, memberChars_eq_map, inWritingOrder_map, List.map_map]
  rfl

/-- An object is read with its members in writing order, if they have names of their own. -/
theorem readAs_object (hd : (ms.map Prod.fst).Nodup) (hn : ∀ m ∈ ms, m.1.Joined)
    (h : ∀ m ∈ ms, m.2.ReadAs (f m.2)) :
    (object ms).ReadAs (object ((inWritingOrder ms).map fun m => (m.1, f m.2))) := by
  choose! tokens hphrase hspelled using h
  have hperm := inWritingOrder_perm ms
  have hsettings : ∀ s ∈ (inWritingOrder ms).map fun m => (m.1, f m.2, tokens m),
      s.2.1.Phrase s.2.2 := by
    intro s hs
    obtain ⟨m, hm, rfl⟩ := List.mem_map.mp hs
    exact hphrase m (hperm.mem_iff.mp hm)
  have hsettled : Settles ((inWritingOrder ms).map fun m => (m.1, f m.2))
      ((inWritingOrder ms).map fun m => (m.1, f m.2)) := by
    refine settles_iff.mpr (settle_of_nodup ?_).symm
    rw [List.map_map]
    exact (hperm.map _).nodup_iff.mpr hd
  have hmembers : ∀ m ∈ inWritingOrder ms,
      Spelled (.text m.1 :: .colon :: tokens m) (memberText m) := by
    intro m hm
    have hm := hperm.mem_iff.mp hm
    exact (spelled_written (hn m hm)).append (.word .colon (hspelled m hm))
  have hobject := Phrase.object hsettings (by rwa [List.map_map])
  rw [List.map_map] at hobject
  refine ⟨_, hobject, ?_⟩
  rw [chars_object]
  exact .word .openObject ((spelled_commaSeparated hmembers).append Word.closeObject.spelled)

end Composed

section Legible

variable {vs : List Value}

theorem Legible.read?_text {v : Value} (h : v.Legible) : read? v.text = some v :=
  ReadAs.read?_text h


theorem legible_array (h : ∀ v ∈ vs, v.Legible) : (array vs).Legible := by
  have hread : (array vs).ReadAs (array (vs.map fun v => v)) := readAs_array h
  rwa [List.map_id'] at hread

/-- A record of legible values is legible if its names are distinct and none of them is an index. -/
theorem legible_record {ms : List (String × Value)} (hn : (ms.map Prod.fst).Nodup)
    (hi : ∀ name ∈ ms.map Prod.fst, (Text.ofString name).index? = none)
    (h : ∀ m ∈ ms, m.2.Legible) :
    (record ms).Legible := by
  obtain ⟨members, hmembers⟩ : ∃ members, members =
      ms.map fun m => (Text.ofString m.1, m.2) := ⟨_, rfl⟩
  have hmem : ∀ m ∈ members, ∃ m' ∈ ms, m = (Text.ofString m'.1, m'.2) := by
    intro m hm
    rw [hmembers] at hm
    obtain ⟨m', hm', rfl⟩ := List.mem_map.mp hm
    exact ⟨m', hm', rfl⟩
  have hdistinct : (members.map Prod.fst).Nodup := by
    have h := hn.map fun _ _ => Text.ofString_injective
    rw [hmembers, List.map_map]
    rwa [List.map_map] at h
  -- no name is an index, so the members are written in the order in which they stand
  have horder : inWritingOrder members = members := by
    apply inWritingOrder_of_named
    intro m hm
    obtain ⟨m', hm', rfl⟩ := hmem m hm
    exact hi _ (List.mem_map_of_mem hm')
  have hread : (object members).ReadAs
      (object ((inWritingOrder members).map fun m => (m.1, m.2))) := by
    apply readAs_object (f := fun v => v) hdistinct
    · intro m hm
      obtain ⟨m', -, rfl⟩ := hmem m hm
      exact Text.joined_ofString _
    · intro m hm
      obtain ⟨m', hm', rfl⟩ := hmem m hm
      exact h m' hm'
  rw [horder, List.map_id'] at hread
  rw [record, ← hmembers]
  exact hread

end Legible

end Value

end ArchiveKeeper.Json
