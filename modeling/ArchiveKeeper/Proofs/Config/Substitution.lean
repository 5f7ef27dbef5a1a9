import ArchiveKeeper.Proofs.Config.Setting
import ArchiveKeeper.Proofs.Text.Cut
import Mathlib.Data.List.Forall2

namespace ArchiveKeeper

namespace Environment

variable {cs : List Char} {name : String}

def reference (name : String) : String := "$\x7b" ++ name ++ "\x7d"

theorem toList_reference (name : String) :
    (reference name).toList = ['$', '\x7b'] ++ name.toList ++ ['\x7d'] := by
  rw [reference, String.toList_append, String.toList_append]
  rfl

theorem reference?_eq_some_iff : reference? cs = some name ↔ cs = (reference name).toList := by
  rw [toList_reference]
  unfold reference?
  constructor
  · intro h
    split at h
    · rename_i rest hrest
      obtain rfl := Text.after?_eq_some_iff.mp hrest
      split at h
      · rename_i hlast
        cases h
        -- the opening brace is no closing one
        have hne : rest ≠ [] := by
          rintro rfl
          exact absurd hlast (by decide)
        rw [List.getLast?_append_of_ne_nil _ hne] at hlast
        rw [String.toList_ofList, List.append_assoc, List.dropLast_append_getLast? _ hlast]
      · cases h
    · cases h
  · rintro rfl
    rw [List.append_assoc, Text.after?_eq_some_iff.mpr rfl]
    dsimp only
    rw [← List.append_assoc, List.getLast?_concat, if_pos rfl, List.dropLast_concat,
      String.ofList_toList]

end Environment

namespace Json

theorem Text.mapM_runeChar?_eq_some_iff {s : Text} {cs : List Char} :
    s.mapM Text.runeChar? = some cs ↔ s = cs.map Rune.char := by
  induction s generalizing cs with
  | nil => cases cs <;> simp
  | cons r s ih =>
    rw [List.mapM_cons]
    cases r with
    | half offset => cases cs <;> simp [Text.runeChar?]
    | char c =>
      change ((s.mapM Text.runeChar?).bind fun cs' => some (c :: cs')) = some cs ↔ _
      rw [Option.bind_eq_some_iff]
      constructor
      · rintro ⟨cs', hcs', he⟩
        rw [← Option.some.inj he, List.map_cons, ih.mp hcs']
      · intro he
        obtain ⟨c', cs', rfl, hc, hs⟩ := List.map_eq_cons_iff.mp he.symm
        exact ⟨cs', ih.mpr hs.symm, by rw [Rune.char.inj hc]⟩

end Json

namespace Json.Value

/-- Somewhere in a value a member has a name. -/
inductive Names (name : Text) : Value → Prop
  | here {m : Text × Value} {members : List (Text × Value)} : m ∈ members → m.1 = name →
      Names name (.object members)
  | array {v : Value} {items : List Value} : v ∈ items → Names name v → Names name (.array items)
  | object {m : Text × Value} {members : List (Text × Value)} : m ∈ members → Names name m.2 →
      Names name (.object members)

variable {name : Text} {items : List Value} {members : List (Text × Value)}

theorem names_array : (Value.array items).Names name ↔ ∃ v ∈ items, v.Names name :=
  ⟨fun h => by cases h with | array hv hn => exact ⟨_, hv, hn⟩, fun ⟨_, hv, hn⟩ => .array hv hn⟩

theorem names_object : (Value.object members).Names name ↔
    (∃ m ∈ members, m.1 = name) ∨ ∃ m ∈ members, m.2.Names name := by
  constructor
  · intro h
    cases h with
    | here hm hn => exact .inl ⟨_, hm, hn⟩
    | object hm hn => exact .inr ⟨_, hm, hn⟩
  · rintro (⟨m, hm, hn⟩ | ⟨m, hm, hn⟩)
    · exact .here hm hn
    · exact .object hm hn

theorem contains_array {s : Text} : (Value.array items).Contains s ↔ ∃ v ∈ items, v.Contains s :=
  ⟨fun h => by cases h with | array hv hs => exact ⟨_, hv, hs⟩, fun ⟨_, hv, hs⟩ => .array hv hs⟩

end Json.Value

namespace Setting

open Json

variable {e : Environment} {v : Value} {s : Text} {name value : String} {items : List Value}
  {members : List (Text × Value)}

theorem referred?_eq_some_iff :
    referred? s = some name ↔ s = Text.ofString (Environment.reference name) := by
  rw [referred?, Option.bind_eq_some_iff]
  constructor
  · rintro ⟨cs, hcs, hname⟩
    rw [Text.mapM_runeChar?_eq_some_iff.mp hcs, Environment.reference?_eq_some_iff.mp hname]
    rfl
  · rintro rfl
    exact ⟨_, Text.mapM_runeChar?_eq_some_iff.mpr rfl, Environment.reference?_eq_some_iff.mpr rfl⟩

/-- A setting has the shape of a value, and differs from it in this only: where a text of the value
refers to a variable that is set, there is the text of the variable. -/
inductive Replaces (e : Environment) : Value → Setting → Prop
  | null : Replaces e .null .null
  | bool (b : Bool) : Replaces e (.bool b) (.bool b)
  | number (x : Double) : Replaces e (.number x) (.number x)
  | set {name value : String} (known : e.get? name = some value) :
      Replaces e (.str (Environment.reference name)) (.str value)
  | kept {s : Text} (unset : ∀ name, s = Text.ofString (Environment.reference name) →
      e.get? name = none) : Replaces e (.string s) (.text s)
  | list {items : List Value} {settings : List Setting}
      (each : List.Forall₂ (Replaces e) items settings) : Replaces e (.array items) (.list settings)
  | mapping {members : List (Text × Value)} {settings : List (Text × Setting)}
      (names : settings.map Prod.fst = members.map Prod.fst)
      (each : List.Forall₂ (Replaces e) (members.map Prod.snd) (settings.map Prod.snd)) :
      Replaces e (.object members) (.mapping settings [])

/-- A value that does not name what it is not given: the mapping that a mapping falls back on, and
what every environment has under a name that is not set. -/
structure Modest (e : Environment) (v : Value) : Prop where
  members : ¬ v.Names (Text.ofString fallbackName)
  references : ∀ name, v.Contains (Text.ofString (Environment.reference name)) →
    e.get? name = none → name ∉ takenNames ∧ name ≠ fallbackName

theorem modest_of_bare (hnames : ∀ name, ¬ v.Names name) (htexts : ∀ s, ¬ v.Contains s) :
    Modest e v := ⟨hnames _, fun _ h => absurd h (htexts _)⟩

theorem modest_array : Modest e (.array items) ↔ ∀ v ∈ items, Modest e v := by
  constructor
  · intro h v hv
    exact ⟨fun hn => h.members (.array hv hn), fun name hs => h.references name (.array hv hs)⟩
  · intro h
    refine ⟨fun hn => ?_, fun name hs => ?_⟩
    · obtain ⟨v, hv, hn⟩ := Value.names_array.mp hn
      exact (h v hv).members hn
    · obtain ⟨v, hv, hs⟩ := Value.contains_array.mp hs
      exact (h v hv).references name hs

theorem modest_object : Modest e (.object members) ↔
    (∀ m ∈ members, m.1 ≠ Text.ofString fallbackName) ∧ ∀ m ∈ members, Modest e m.2 := by
  constructor
  · intro h
    exact ⟨fun m hm hn => h.members (.here hm hn), fun m hm =>
      ⟨fun hn => h.members (.object hm hn), fun name hs => h.references name (.object hm hs)⟩⟩
  · rintro ⟨hnames, hall⟩
    refine ⟨fun hn => ?_, fun name hs => ?_⟩
    · obtain ⟨m, hm, hn⟩ | ⟨m, hm, hn⟩ := Value.names_object.mp hn
      · exact hnames m hm hn
      · exact (hall m hm).members hn
    · obtain ⟨m, hm, hs⟩ := Value.contains_object.mp hs
      exact (hall m hm).references name hs

/-- Without a member that names a mapping to fall back on, all members are taken over. -/
theorem ofMembers_of_names {ms : List (Text × Value)} (members fallback : List (Text × Setting))
    (h : ∀ m ∈ ms, m.1 ≠ Text.ofString fallbackName) : ofMembers e ms members fallback =
      .mapping (members ++ ms.map fun m => (m.1, ofValue e m.2)) fallback := by
  induction ms generalizing members with
  | nil => rw [ofMembers, List.map_nil, List.append_nil]
  | cons m ms ih =>
    obtain ⟨hm, hms⟩ := List.forall_mem_cons.mp h
    rw [ofMembers, if_neg hm, ih _ hms, List.append_assoc, List.singleton_append, List.map_cons]

theorem replaces_array : Replaces e (.array items) (ofValue e (.array items)) ↔
    ∀ v ∈ items, Replaces e v (ofValue e v) := by
  have heach : List.Forall₂ (Replaces e) items (items.map (ofValue e)) ↔
      ∀ v ∈ items, Replaces e v (ofValue e v) := by
    rw [List.forall₂_map_right_iff, List.forall₂_same]
  rw [ofValue, ofItems_eq_map, ← heach]
  exact ⟨fun h => by cases h with | list each => exact each, .list⟩

theorem replaces_object : Replaces e (.object members) (ofValue e (.object members)) ↔
    (∀ m ∈ members, m.1 ≠ Text.ofString fallbackName) ∧
      ∀ m ∈ members, Replaces e m.2 (ofValue e m.2) := by
  -- the member that names the fallback is lost, so names are kept only where there is none
  have hkept (h : Replaces e (.object members) (ofValue e (.object members))) :
      ∀ m ∈ members, m.1 ≠ Text.ofString fallbackName := by
    have hown := ofMembers_own e members [] []
    rw [ofValue] at h
    generalize ofMembers e members [] [] = setting at h hown
    cases h with
    | @mapping _ settings names each =>
      obtain rfl : settings = _ := hown
      have hlength := congrArg List.length names
      simp only [List.nil_append, List.length_map] at hlength
      have hall := List.length_filter_eq_length_iff.mp hlength
      exact fun m hm => of_decide_eq_true (hall m hm)
  -- without it the members are substituted one by one, each in its place
  have heach (hnames : ∀ m ∈ members, m.1 ≠ Text.ofString fallbackName) :
      Replaces e (.object members) (ofValue e (.object members)) ↔
        ∀ m ∈ members, Replaces e m.2 (ofValue e m.2) := by
    have hmap : List.Forall₂ (Replaces e) (members.map Prod.snd)
        ((members.map fun m => (m.1, ofValue e m.2)).map Prod.snd) ↔
          ∀ m ∈ members, Replaces e m.2 (ofValue e m.2) := by
      rw [List.map_map, List.forall₂_map_left_iff, List.forall₂_map_right_iff, List.forall₂_same]
      rfl
    rw [ofValue, ofMembers_of_names [] [] hnames, List.nil_append, ← hmap]
    refine ⟨fun h => by cases h with | mapping names each => exact each, .mapping ?_⟩
    rw [List.map_map]
    rfl
  constructor
  · intro h
    exact ⟨hkept h, (heach (hkept h)).mp h⟩
  · rintro ⟨hnames, h⟩
    exact (heach hnames).mpr h

/-- What is put in the place of a text that refers to a variable. -/
theorem ofValue_reference (e : Environment) (name : String) :
    ofValue e (.str (Environment.reference name)) =
      (ofVariable? e name).getD (Setting.str (Environment.reference name)) := by
  rw [Value.str, ofValue, referred?_eq_some_iff.mpr rfl, Option.bind_some]
  cases ofVariable? e name <;> rfl

theorem Replaces.isText {setting : Setting} (h : Replaces e (.string s) setting) :
    ∃ t, setting = .text t := by
  generalize hv : Value.string s = v at h
  cases h with
  | set => exact ⟨_, rfl⟩
  | kept => exact ⟨_, rfl⟩
  | _ => cases hv

theorem replaces_string :
    Replaces e (.string s) (ofValue e (.string s)) ↔ Modest e (.string s) := by
  have hnames : ¬ (Value.string s).Names (Text.ofString fallbackName) := by
    intro h
    cases h
  cases hs : referred? s with
  | none =>
    have hnot (name : String) : s ≠ Text.ofString (Environment.reference name) := fun h => by
      rw [referred?_eq_some_iff.mpr h] at hs
      cases hs
    have hvalue : ofValue e (.string s) = .text s := by rw [ofValue, hs, Option.bind_none]
    rw [hvalue]
    refine iff_of_true (.kept fun name h => absurd h (hnot name)) ⟨hnames, fun name h => ?_⟩
    exact absurd (Value.contains_string.mp h) (hnot name)
  | some name =>
    have hone {other : String} (h : s = Text.ofString (Environment.reference other)) :
        other = name := Option.some.inj ((referred?_eq_some_iff.mpr h).symm.trans hs)
    obtain rfl := referred?_eq_some_iff.mp hs
    rw [← Value.str, ofValue_reference]
    -- an unset name is modest just where nothing else stands for it in every environment
    cases hget : e.get? name with
    | some value =>
      have hvariable : ofVariable? e name = some (Setting.str value) := by rw [ofVariable?, hget]
      rw [hvariable]
      refine iff_of_true (.set hget) ⟨hnames, fun other h hnone => ?_⟩
      rw [hone (Value.contains_string.mp h), hget] at hnone
      cases hnone
    | none =>
      have hmodest : Modest e (.str (Environment.reference name)) ↔
          name ∉ takenNames ∧ name ≠ fallbackName := by
        refine ⟨fun h => h.references name .string hget, fun h => ⟨hnames, fun other ho _ => ?_⟩⟩
        rwa [hone (Value.contains_string.mp ho)]
      rw [hmodest]
      constructor
      · intro h
        obtain ⟨t, ht⟩ := h.isText
        rw [ofVariable?, hget] at ht
        dsimp only at ht
        split at ht
        · cases ht
        · rename_i htaken
          split at ht
          · cases ht
          · rename_i hfallback
            exact ⟨htaken, hfallback⟩
      · rintro ⟨htaken, hfallback⟩
        have hvariable : ofVariable? e name = none := by
          rw [ofVariable?, hget]
          dsimp only
          rw [if_neg htaken, if_neg hfallback]
        rw [hvariable]
        exact .kept fun other ho => hone ho ▸ hget

/-- The references of a value to variables that are set are replaced, and nothing else in it is
touched, exactly if the value is modest. -/
theorem substitution_exact (e : Environment) (v : Value) :
    Replaces e v (ofValue e v) ↔ Modest e v := by
  induction v using Value.of_parts with
  | null =>
    rw [ofValue]
    exact iff_of_true .null (modest_of_bare (by rintro _ ⟨⟩) (by rintro _ ⟨⟩))
  | bool b =>
    rw [ofValue]
    exact iff_of_true (.bool b) (modest_of_bare (by rintro _ ⟨⟩) (by rintro _ ⟨⟩))
  | number x =>
    rw [ofValue]
    exact iff_of_true (.number x) (modest_of_bare (by rintro _ ⟨⟩) (by rintro _ ⟨⟩))
  | string s => exact replaces_string
  | array items ih =>
    rw [replaces_array, modest_array]
    exact forall₂_congr ih
  | object members ih =>
    rw [replaces_object, modest_object]
    exact and_congr_right fun _ => forall₂_congr ih

/-- A reference to a variable that is not set is not kept if every environment has something under
its name, and a member that names a mapping to fall back on is lost. -/
theorem unset_reference_replaced :
    Environment.get? [] "constructor" = none ∧
      ofValue [] (.str (Environment.reference "constructor")) = .function ∧
      ¬ Replaces [] (.str (Environment.reference "constructor"))
        (ofValue [] (.str (Environment.reference "constructor"))) ∧
      ofValue [] (.object [(Text.ofString fallbackName, .null)]) = .mapping [] [] ∧
      ¬ Replaces [] (.object [(Text.ofString fallbackName, .null)])
        (ofValue [] (.object [(Text.ofString fallbackName, .null)])) := by
  have hfunction : ofValue [] (.str (Environment.reference "constructor")) = .function :=
    ofValue_reference [] "constructor"
  have hlost : ofValue [] (.object [(Text.ofString fallbackName, .null)]) = .mapping [] [] := by
    rw [ofValue, ofMembers, if_pos rfl, ofMembers, ofValue, lent]
    rintro _ _ ⟨⟩
  refine ⟨rfl, hfunction, fun h => ?_, hlost, fun h => ?_⟩
  · obtain ⟨t, ht⟩ := h.isText
    rw [hfunction] at ht
    cases ht
  · exact (replaces_object.mp h).1 _ List.mem_cons_self rfl

end Setting

end ArchiveKeeper
