import ArchiveKeeper.Proofs.Json.Legibility
import ArchiveKeeper.Proofs.Json.Proper

namespace ArchiveKeeper

theorem Double.text_plain (x : Double) : x.plain.text = x.text := by
  cases x with
  | finite negative m e =>
    by_cases hm : m = 0
    · rw [plain, if_pos hm, zero, text, text, if_pos rfl, if_pos hm]
    · rw [plain, if_neg hm]
  | nan => rfl
  | infinite negative => rfl

theorem Double.isFinite_plain (x : Double) : x.plain.isFinite = x.isFinite := by
  cases x with
  | finite negative m e =>
    by_cases hm : m = 0
    · rw [plain, if_pos hm]
      rfl
    · rw [plain, if_neg hm]
  | nan => rfl
  | infinite negative => rfl

namespace Json

mutual

/-- What the text of a value is read as. -/
def Value.asWritten : Value → Value
  | .null => .null
  | .bool b => .bool b
  | .number x => if x.isFinite then .number x.plain else .null
  | .string s => .string s
  | .array items => .array (itemsAsWritten items)
  | .object members => .object (inWritingOrder (membersAsWritten members))

def itemsAsWritten : List Value → List Value
  | [] => []
  | v :: vs => v.asWritten :: itemsAsWritten vs

def membersAsWritten : List (Text × Value) → List (Text × Value)
  | [] => []
  | (name, v) :: ms => (name, v.asWritten) :: membersAsWritten ms

end

variable {v : Value} {members : List (Text × Value)}

theorem itemsAsWritten_eq_map (vs : List Value) : itemsAsWritten vs = vs.map Value.asWritten := by
  induction vs with
  | nil => rfl
  | cons v vs ih => rw [itemsAsWritten, ih, List.map_cons]

theorem membersAsWritten_eq_map (ms : List (Text × Value)) :
    membersAsWritten ms = ms.map fun m => (m.1, m.2.asWritten) := by
  induction ms with
  | nil => rfl
  | cons m ms ih => rw [membersAsWritten, ih, List.map_cons]

theorem Value.asWritten_array (vs : List Value) :
    (array vs).asWritten = array (vs.map asWritten) := by
  rw [asWritten, itemsAsWritten_eq_map]

theorem Value.asWritten_object (ms : List (Text × Value)) : (object ms).asWritten =
    object ((inWritingOrder ms).map fun m => (m.1, m.2.asWritten)) := by
  rw [asWritten, membersAsWritten_eq_map, inWritingOrder_map]

namespace Value

theorem asWritten_record {ms : List (String × Value)}
    (hi : ∀ name ∈ ms.map Prod.fst, (Text.ofString name).index? = none) :
    (record ms).asWritten = record (ms.map fun m => (m.1, m.2.asWritten)) := by
  have horder : inWritingOrder (ms.map fun m => (Text.ofString m.1, m.2)) =
      ms.map fun m => (Text.ofString m.1, m.2) := by
    apply inWritingOrder_of_named
    intro m hm
    obtain ⟨m', hm', rfl⟩ := List.mem_map.mp hm
    exact hi _ (List.mem_map_of_mem hm')
  rw [record, asWritten_object, horder, record, List.map_map, List.map_map]
  rfl

theorem readAs_asWritten (h : v.Proper) : v.ReadAs v.asWritten := by
  induction h with
  | null => exact readAs_null
  | bool b => exact readAs_bool b
  | @number x hx =>
    rw [asWritten]
    cases x with
    | finite negative m e => exact readAs_number hx negative
    | nan => exact readAs_of_not_finite rfl
    | infinite negative => exact readAs_of_not_finite rfl
  | string hs => exact readAs_string hs
  | array _ ih =>
    rw [asWritten_array]
    exact readAs_array ih
  | object hd hn _ ih =>
    rw [asWritten_object]
    exact readAs_object hd hn ih

theorem read?_text (h : v.Proper) : read? v.text = some v.asWritten := (readAs_asWritten h).read?_text

theorem chars_asWritten (h : v.Proper) : v.asWritten.chars = v.chars := by
  induction h with
  | null => rfl
  | bool b => rfl
  | @number x hx =>
    rw [asWritten, chars]
    cases hfinite : x.isFinite with
    | true => rw [if_pos rfl, if_pos rfl, chars, Double.isFinite_plain, hfinite, if_pos rfl,
        Double.text_plain]
    | false => rfl
  | string hs => rfl
  | @array items _ ih =>
    have hitems : (items.map asWritten).map chars = items.map chars := by
      rw [List.map_map]
      exact List.map_congr_left ih
    rw [asWritten_array, chars, chars, itemChars_eq_map, itemChars_eq_map, hitems]
  | @object members hd hn _ ih =>
    have hmembers : (members.map fun m => (m.1, m.2.asWritten)).map (fun m => (m.1, m.2.chars)) =
        members.map fun m => (m.1, m.2.chars) := by
      rw [List.map_map]
      refine List.map_congr_left fun m hm => ?_
      exact congrArg (Prod.mk m.1) (ih m hm)
    rw [asWritten, membersAsWritten_eq_map, chars, chars, memberChars_eq_map, memberChars_eq_map,
      ← inWritingOrder_map, hmembers, inWritingOrder_idem]

/-- Members that were written and read are found by their names, each with its value. -/
theorem find?_asWritten (hd : (members.map Prod.fst).Nodup) (name : Text) :
    find? name ((inWritingOrder members).map fun m => (m.1, m.2.asWritten)) =
      (find? name members).map asWritten := by
  have hd' : ((inWritingOrder members).map Prod.fst).Nodup :=
    ((inWritingOrder_perm members).map _).nodup_iff.mpr hd
  rw [find?_map, find?_perm hd' (inWritingOrder_perm members)]

/-- Two values that are one and the same, except that the members of objects may stand in another
order, zero may have lost its sign, and a number that is not finite may have become null. -/
inductive Alike : Value → Value → Prop
  | null : Alike null null
  | bool (b : Bool) : Alike (bool b) (bool b)
  | number {x : Double} : x.isFinite → Alike (number x) (number x.plain)
  | lost {x : Double} : x.isFinite = false → Alike (number x) null
  | string (s : Text) : Alike (string s) (string s)
  | array (pairs : List (Value × Value)) : (∀ p ∈ pairs, Alike p.1 p.2) →
      Alike (array (pairs.map Prod.fst)) (array (pairs.map Prod.snd))
  | object (pairs : List (Text × Value × Value)) {members : List (Text × Value)} :
      (∀ p ∈ pairs, Alike p.2.1 p.2.2) → members.Perm (pairs.map fun p => (p.1, p.2.2)) →
      Alike (object (pairs.map fun p => (p.1, p.2.1))) (object members)

theorem alike_object {members' : List (Text × Value)} (hperm : members'.Perm members)
    (h : ∀ m ∈ members, m.2.Alike m.2.asWritten) :
    (object members).Alike (object (members'.map fun m => (m.1, m.2.asWritten))) := by
  have hleft : (members.map fun m => (m.1, m.2, m.2.asWritten)).map (fun p => (p.1, p.2.1)) =
      members := by
    rw [List.map_map]
    exact List.map_id _
  have hright : (members.map fun m => (m.1, m.2, m.2.asWritten)).map (fun p => (p.1, p.2.2)) =
      members.map fun m => (m.1, m.2.asWritten) := by
    rw [List.map_map]
    rfl
  have hpairs : ∀ p ∈ members.map fun m => (m.1, m.2, m.2.asWritten), p.2.1.Alike p.2.2 := by
    intro p hp
    obtain ⟨m, hm, rfl⟩ := List.mem_map.mp hp
    exact h m hm
  have hwritten := hperm.map fun m => (m.1, m.2.asWritten)
  rw [← hright] at hwritten
  have hobject := Alike.object _ hpairs hwritten
  rwa [hleft] at hobject

theorem alike_asWritten (h : v.Proper) : v.Alike v.asWritten := by
  induction h with
  | null => exact .null
  | bool b => exact .bool b
  | @number x hx =>
    rw [asWritten]
    cases hfinite : x.isFinite with
    | true => exact .number hfinite
    | false => exact .lost hfinite
  | string hs => exact .string _
  | @array items _ ih =>
    have hpairs : ∀ p ∈ items.map fun v => (v, v.asWritten), p.1.Alike p.2 := by
      intro p hp
      obtain ⟨v, hv, rfl⟩ := List.mem_map.mp hp
      exact ih v hv
    have harray := Alike.array _ hpairs
    rw [List.map_map, List.map_map] at harray
    rw [asWritten_array]
    simpa [Function.comp_def] using harray
  | @object members hd hn _ ih =>
    rw [asWritten_object]
    exact alike_object (inWritingOrder_perm members) ih

end Value

end Json

end ArchiveKeeper
