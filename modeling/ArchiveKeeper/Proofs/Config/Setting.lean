import ArchiveKeeper.Config.Setting
import ArchiveKeeper.Proofs.Json.Members

namespace ArchiveKeeper

namespace Json.Value

/-- What is true of a value if it is true of its parts is true of every value. -/
@[elab_as_elim]
theorem of_parts {P : Value → Prop} (null : P .null) (bool : ∀ b, P (.bool b))
    (number : ∀ x, P (.number x)) (string : ∀ s, P (.string s))
    (array : ∀ items, (∀ v ∈ items, P v) → P (.array items))
    (object : ∀ members, (∀ m ∈ members, P m.2) → P (.object members)) (v : Value) : P v := by
  refine @Value.rec P (fun items => ∀ v ∈ items, P v) (fun members => ∀ m ∈ members, P m.2)
    (fun m => P m.2) null bool number string array object ?_ ?_ ?_ ?_ ?_ v
  · simp
  · exact fun v items hv hitems => List.forall_mem_cons.mpr ⟨hv, hitems⟩
  · simp
  · exact fun m members hm hmembers => List.forall_mem_cons.mpr ⟨hm, hmembers⟩
  · exact fun _ _ h => h

/-- A text stands somewhere in a value. The names of members do not count. -/
inductive Contains (s : Text) : Value → Prop
  | string : Contains s (.string s)
  | array {v : Value} {items : List Value} : v ∈ items → Contains s v → Contains s (.array items)
  | object {m : Text × Value} {members : List (Text × Value)} : m ∈ members → Contains s m.2 →
      Contains s (.object members)

theorem contains_string {s t : Text} : (Value.string t).Contains s ↔ t = s :=
  ⟨fun h => by cases h; rfl, fun h => h ▸ .string⟩

theorem contains_object {s : Text} {members : List (Text × Value)} :
    (Value.object members).Contains s ↔ ∃ m ∈ members, m.2.Contains s :=
  ⟨fun h => by cases h with | object hm hs => exact ⟨_, hm, hs⟩, fun ⟨_, hm, hs⟩ => .object hm hs⟩

end Json.Value

namespace Setting

open Json

variable {e e' : Environment} {members : List (Text × Value)}

/-- What a text refers to is the same in two environments. -/
def Alike (e e' : Environment) (s : Text) : Prop :=
  ∀ name ∈ referred? s, ofVariable? e name = ofVariable? e' name

theorem bind_ofVariable?_congr {s : Text} (h : Alike e e' s) :
    (referred? s).bind (ofVariable? e) = (referred? s).bind (ofVariable? e') := by
  cases hs : referred? s with
  | none => rfl
  | some name => exact h name hs

theorem ofItems_eq_map (e : Environment) (items : List Value) :
    ofItems e items = items.map (ofValue e) := by
  induction items with
  | nil => rw [ofItems, List.map_nil]
  | cons v vs ih => rw [ofItems, ih, List.map_cons]

theorem ofMembers_congr {ms : List (Text × Value)}
    (h : ∀ m ∈ ms, ofValue e m.2 = ofValue e' m.2) (members fallback : List (Text × Setting)) :
    ofMembers e ms members fallback = ofMembers e' ms members fallback := by
  induction ms generalizing members fallback with
  | nil => simp only [ofMembers]
  | cons m ms ih =>
    obtain ⟨hm, hms⟩ := List.forall_mem_cons.mp h
    simp only [ofMembers, hm, ih hms]

theorem ofValue_congr (v : Value) (h : ∀ s, v.Contains s → Alike e e' s) :
    ofValue e v = ofValue e' v := by
  induction v using Value.of_parts with
  | null => rw [ofValue, ofValue]
  | bool b => rw [ofValue, ofValue]
  | number x => rw [ofValue, ofValue]
  | string s =>
    have hs := bind_ofVariable?_congr (h s .string)
    simp only [ofValue, hs]
  | array items ih =>
    rw [ofValue, ofValue, ofItems_eq_map, ofItems_eq_map,
      List.map_congr_left fun v hv => ih v hv fun s hs => h s (.array hv hs)]
  | object members ih =>
    rw [ofValue, ofValue, ofMembers_congr fun m hm => ih m hm fun s hs => h s (.object hm hs)]

/-- The members of a mapping are those of the value; the member through which it falls back on
another one is not among them. -/
theorem ofMembers_own (e : Environment) (ms : List (Text × Value))
    (members fallback : List (Text × Setting)) :
    (ofMembers e ms members fallback).own = members ++
      (ms.filter fun m => m.1 ≠ Text.ofString fallbackName).map fun m => (m.1, ofValue e m.2) := by
  induction ms generalizing members fallback with
  | nil => simp [ofMembers, own]
  | cons m ms ih =>
    by_cases h : m.1 = Text.ofString fallbackName
    · simp [ofMembers, h, ih]
    · simp [ofMembers, h, ih]

theorem find?_own_ofValue {name : Text} (hname : name ≠ Text.ofString fallbackName) :
    Value.find? name (ofValue e (.object members)).own =
      (Value.find? name members).map (ofValue e) := by
  have hfilter : Value.find? name (members.filter fun m => m.1 ≠ Text.ofString fallbackName) =
      Value.find? name members := by
    unfold Value.find?
    rw [List.find?_filter]
    congr 2
    funext m
    by_cases h : m.1 = name
    · simp [h, hname]
    · simp [h]
  rw [ofValue, ofMembers_own, List.nil_append, Value.find?_map, hfilter]

/-- A setting that falls back on nothing. -/
def Unbacked : Setting → Prop
  | .mapping _ fallback => fallback = []
  | _ => True

/-- A value with no member that names a mapping to fall back on. -/
def LendsNothing (v : Value) : Prop :=
  ∀ members, v = .object members → ∀ m ∈ members, m.1 = Text.ofString fallbackName →
    ∀ inner, m.2 ≠ .object inner

/-- A variable stands for a text, a function or a mapping that has nothing. -/
theorem ofVariable?_cases {name : String} {s : Setting} (h : ofVariable? e name = some s) :
    s.lent = [] ∧ s.Unbacked := by
  unfold ofVariable? at h
  split at h
  · cases h
    exact ⟨rfl, trivial⟩
  · split at h
    · cases h
      exact ⟨rfl, trivial⟩
    · split at h
      · cases h
        exact ⟨rfl, rfl⟩
      · cases h

theorem ofValue_string_cases (e : Environment) (s : Text) :
    (ofValue e (.string s)).lent = [] ∧ (ofValue e (.string s)).Unbacked := by
  rw [ofValue]
  split
  · rename_i setting h
    obtain ⟨name, -, hname⟩ := Option.bind_eq_some_iff.mp h
    exact ofVariable?_cases hname
  · exact ⟨rfl, trivial⟩

theorem lent_ofValue {v : Value} (h : ∀ inner, v ≠ .object inner) : (ofValue e v).lent = [] := by
  cases v with
  | string s => exact (ofValue_string_cases e s).1
  | object inner => exact absurd rfl (h inner)
  | _ =>
    rw [ofValue]
    rfl

theorem unbacked_ofMembers {ms : List (Text × Value)} (members : List (Text × Setting))
    (h : ∀ m ∈ ms, m.1 = Text.ofString fallbackName → ∀ inner, m.2 ≠ .object inner) :
    (ofMembers e ms members []).Unbacked := by
  induction ms generalizing members with
  | nil =>
    rw [ofMembers]
    rfl
  | cons m ms ih =>
    obtain ⟨hm, hms⟩ := List.forall_mem_cons.mp h
    obtain ⟨name, v⟩ := m
    rw [ofMembers]
    split
    · rename_i hname
      rw [lent_ofValue (hm hname)]
      exact ih _ hms
    · exact ih _ hms

theorem unbacked_ofValue {v : Value} (h : LendsNothing v) : (ofValue e v).Unbacked := by
  cases v with
  | string s => exact (ofValue_string_cases e s).2
  | object members =>
    rw [ofValue]
    exact unbacked_ofMembers [] (h members rfl)
  | _ =>
    rw [ofValue]
    trivial

end Setting

end ArchiveKeeper
