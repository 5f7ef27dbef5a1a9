import ArchiveKeeper.Proofs.Json.Members
import ArchiveKeeper.Proofs.Json.Words

namespace ArchiveKeeper.Json

open Token

section Intercalate

variable {α : Type} (a : α) (x y : List α) (xs : List (List α))

theorem intercalate_cons_cons :
    [a].intercalate (x :: y :: xs) = x ++ a :: [a].intercalate (y :: xs) := by
  simp [List.intercalate]

theorem intercalate_cons : [a].intercalate (x :: xs) = x ++ xs.flatMap (a :: ·) := by
  induction xs generalizing x with
  | nil => simp [List.intercalate]
  | cons y ys ih => rw [intercalate_cons_cons, ih, List.flatMap_cons, List.cons_append]

theorem intercalate_concat : [a].intercalate (xs ++ [x]) = xs.flatMap (· ++ [a]) ++ x := by
  induction xs with
  | nil => simp [List.intercalate]
  | cons y ys ih =>
    have hcons : [a].intercalate (y :: (ys ++ [x])) = y ++ a :: [a].intercalate (ys ++ [x]) := by
      cases ys with
      | nil => exact intercalate_cons_cons a y x []
      | cons z zs => exact intercalate_cons_cons a y z (zs ++ [x])
    rw [List.cons_append, hcons, ih]
    simp

end Intercalate

/-- The tokens that make up a value. The names of an object may repeat: the last setting with a name
counts, and the order is that of the first ones. -/
inductive Value.Phrase : Value → List Token → Prop
  | scalar (v : Value) : Phrase v [.scalar v]
  | text (s : Text) : Phrase (.string s) [.text s]
  | array {items : List (Value × List Token)} : (∀ i ∈ items, Phrase i.1 i.2) →
      Phrase (.array (items.map Prod.fst))
        (.openArray :: ([.comma].intercalate (items.map Prod.snd) ++ [.closeArray]))
  | object {settings : List (Text × Value × List Token)} {members : List (Text × Value)} :
      (∀ m ∈ settings, Phrase m.2.1 m.2.2) →
      Settles (settings.map fun m => (m.1, m.2.1)) members →
      Phrase (.object members)
        (.openObject ::
          ([.comma].intercalate (settings.map fun m => .text m.1 :: .colon :: m.2.2) ++
            [.closeObject]))

/-- A JSON text of a value. -/
def Value.HasText (v : Value) (s : String) : Prop := ∃ ts, v.Phrase ts ∧ Spelled ts s.toList

section Parting

variable {t : Token} {ts ts' : List Token}

theorem parted_cons (ht : t.IsMark) (h : ts.IsChain Parted) : (t :: ts).IsChain Parted :=
  List.isChain_cons.mpr ⟨fun _ _ => .inl ht, h⟩

theorem parted_append_cons (h : ts.IsChain Parted) (ht : t.IsMark)
    (h' : (t :: ts').IsChain Parted) : (ts ++ t :: ts').IsChain Parted :=
  List.isChain_append.mpr ⟨h, h', fun _ _ _ ht' => .inr (by cases ht'; exact ht)⟩

theorem parted_intercalate {parts : List (List Token)} (h : ∀ p ∈ parts, p.IsChain Parted) :
    ([Token.comma].intercalate parts).IsChain Parted := by
  induction parts with
  | nil => exact List.isChain_nil
  | cons p parts ih =>
    obtain ⟨hp, hparts⟩ := List.forall_mem_cons.mp h
    cases parts with
    | nil => simpa [List.intercalate] using hp
    | cons q parts =>
      have hrest := ih hparts
      rw [intercalate_cons_cons]
      exact parted_append_cons hp trivial (parted_cons trivial hrest)

theorem Value.Phrase.parted {v : Value} (h : v.Phrase ts) : ts.IsChain Parted := by
  have hclose (t : Token) : [t].IsChain Parted := List.isChain_singleton t
  induction h with
  | scalar v => exact hclose _
  | text s => exact hclose _
  | @array items _ ih =>
    have hitems : ∀ p ∈ items.map Prod.snd, p.IsChain Parted := by
      intro p hp
      obtain ⟨i, hi, rfl⟩ := List.mem_map.mp hp
      exact ih i hi
    exact parted_cons trivial
      (parted_append_cons (parted_intercalate hitems) trivial (hclose .closeArray))
  | @object settings _ _ _ ih =>
    have hmembers : ∀ p ∈ settings.map fun m => .text m.1 :: .colon :: m.2.2,
        p.IsChain Parted := by
      intro p hp
      obtain ⟨m, hm, rfl⟩ := List.mem_map.mp hp
      exact parted_append_cons (hclose (.text m.1)) trivial (parted_cons trivial (ih m hm))
    exact parted_cons trivial
      (parted_append_cons (parted_intercalate hmembers) trivial (hclose .closeObject))

end Parting

/-- Some tokens are read as a value, whatever it is a part of. -/
def Makes (ts : List Token) (v : Value) : Prop :=
  ∃ first rest, ts = first :: rest ∧ ∀ frames more, ∃ r, Reading.start frames first = some r ∧
    r.run (rest ++ more) = (Reading.done v frames).run more

namespace Makes

variable {ts : List Token} {v : Value}

theorem run_value (h : Makes ts v) (frames : List Frame) (more : List Token) :
    (Reading.value frames).run (ts ++ more) = (Reading.done v frames).run more := by
  obtain ⟨first, rest, rfl, h⟩ := h
  obtain ⟨r, hr, hrun⟩ := h frames more
  rw [List.cons_append, Reading.run, Reading.next, hr]
  exact hrun

theorem run_itemOrClose (h : Makes ts v) (frames : List Frame) (more : List Token) :
    (Reading.itemOrClose frames).run (ts ++ more) =
      (Reading.done v (.array [] :: frames)).run more := by
  obtain ⟨first, rest, rfl, h⟩ := h
  obtain ⟨r, hr, hrun⟩ := h (.array [] :: frames) more
  have hnext : (Reading.itemOrClose frames).next first = some r := by
    cases first with
    | closeArray => cases hr
    | _ => exact hr
  rw [List.cons_append, Reading.run, hnext]
  exact hrun

theorem run_items {items : List (Value × List Token)} (h : ∀ i ∈ items, Makes i.2 i.1) (v : Value)
    (before : List Value) (frames : List Frame) (more : List Token) :
    (Reading.done v (.array before :: frames)).run
        ((items.map Prod.snd).flatMap (.comma :: ·) ++ .closeArray :: more) =
      (Reading.done (.array ((v :: before).reverse ++ items.map Prod.fst)) frames).run more := by
  induction items generalizing v before with
  | nil =>
    rw [List.map_nil, List.map_nil, List.append_nil]
    rfl
  | cons i items ih =>
    obtain ⟨hi, hitems⟩ := List.forall_mem_cons.mp h
    rw [List.map_cons, List.flatMap_cons, List.append_assoc]
    change (Reading.value (.array (v :: before) :: frames)).run (i.2 ++ _) = _
    rw [hi.run_value, ih hitems, List.reverse_cons, List.append_assoc]
    rfl

theorem array {items : List (Value × List Token)} (h : ∀ i ∈ items, Makes i.2 i.1) :
    Makes (.openArray :: ([.comma].intercalate (items.map Prod.snd) ++ [.closeArray]))
      (.array (items.map Prod.fst)) := by
  refine ⟨_, _, rfl, fun frames more => ⟨_, rfl, ?_⟩⟩
  -- the array may end where its first item may stand, but not where another one may
  cases items with
  | nil => rfl
  | cons i items =>
    obtain ⟨hi, hitems⟩ := List.forall_mem_cons.mp h
    rw [List.map_cons, intercalate_cons, List.append_assoc, List.append_assoc,
      hi.run_itemOrClose]
    exact run_items hitems i.1 [] frames more

theorem run_members {settings : List (Text × Value × List Token)}
    (h : ∀ m ∈ settings, Makes m.2.2 m.2.1) (key : Text) (v : Value)
    (before : List (Text × Value)) (frames : List Frame) (more : List Token) :
    (Reading.done v (.object before key :: frames)).run
        ((settings.map fun m => .text m.1 :: .colon :: m.2.2).flatMap (.comma :: ·) ++
          .closeObject :: more) =
      (Reading.done (.object (Value.settle (((key, v) :: before).reverse ++
        settings.map fun m => (m.1, m.2.1)))) frames).run more := by
  induction settings generalizing key v before with
  | nil =>
    rw [List.map_nil, List.map_nil, List.append_nil]
    rfl
  | cons m settings ih =>
    obtain ⟨hm, hsettings⟩ := List.forall_mem_cons.mp h
    rw [List.map_cons, List.flatMap_cons, List.append_assoc]
    change (Reading.value (.object ((key, v) :: before) m.1 :: frames)).run (m.2.2 ++ _) = _
    rw [hm.run_value, ih hsettings, List.reverse_cons, List.append_assoc]
    rfl

theorem object {settings : List (Text × Value × List Token)}
    (h : ∀ m ∈ settings, Makes m.2.2 m.2.1) :
    Makes (.openObject :: ([.comma].intercalate
        (settings.map fun m => .text m.1 :: .colon :: m.2.2) ++ [.closeObject]))
      (.object (Value.settle (settings.map fun m => (m.1, m.2.1)))) := by
  refine ⟨_, _, rfl, fun frames more => ⟨_, rfl, ?_⟩⟩
  cases settings with
  | nil => rfl
  | cons m settings =>
    obtain ⟨hm, hsettings⟩ := List.forall_mem_cons.mp h
    rw [List.map_cons, intercalate_cons, List.append_assoc, List.append_assoc]
    change (Reading.value (.object [] m.1 :: frames)).run (m.2.2 ++ _) = _
    rw [hm.run_value]
    exact run_members hsettings m.1 m.2.1 [] frames more

end Makes

theorem Value.Phrase.makes {v : Value} {ts : List Token} (h : v.Phrase ts) : Makes ts v := by
  induction h with
  | scalar v => exact ⟨_, _, rfl, fun _ _ => ⟨_, rfl, rfl⟩⟩
  | text s => exact ⟨_, _, rfl, fun _ _ => ⟨_, rfl, rfl⟩⟩
  | array _ ih => exact .array ih
  | object _ hsettles ih =>
    rw [settles_iff.mp hsettles]
    exact .object ih

/-- The tokens of the items of an unfinished array, each with the comma behind it. -/
def itemTokens (items : List (Value × List Token)) : List Token :=
  (items.map Prod.snd).flatMap (· ++ [.comma])

/-- The tokens of the settings of an unfinished object, each with the comma behind it. -/
def settingTokens (settings : List (Text × Value × List Token)) : List Token :=
  (settings.map fun m => .text m.1 :: .colon :: m.2.2).flatMap (· ++ [.comma])

/-- The tokens that lead into unfinished arrays and objects. -/
inductive Opened : List Frame → List Token → Prop
  | nil : Opened [] []
  | array {frames : List Frame} {ts : List Token} {items : List (Value × List Token)} :
      Opened frames ts → (∀ i ∈ items, i.1.Phrase i.2) →
      Opened (.array (items.map Prod.fst).reverse :: frames) (ts ++ .openArray :: itemTokens items)
  | object {frames : List Frame} {ts : List Token} {key : Text}
      {settings : List (Text × Value × List Token)} :
      Opened frames ts → (∀ m ∈ settings, m.2.1.Phrase m.2.2) →
      Opened (.object (settings.map fun m => (m.1, m.2.1)).reverse key :: frames)
        (ts ++ .openObject :: (settingTokens settings ++ [.text key, .colon]))

/-- The tokens that lead to what may come next. -/
inductive Reading.After : Reading → List Token → Prop
  | value {frames : List Frame} {ts : List Token} : Opened frames ts → After (.value frames) ts
  | itemOrClose {frames : List Frame} {ts : List Token} : Opened frames ts →
      After (.itemOrClose frames) (ts ++ [.openArray])
  | nameOrClose {frames : List Frame} {ts : List Token} : Opened frames ts →
      After (.nameOrClose frames) (ts ++ [.openObject])
  | name {frames : List Frame} {ts : List Token} {settings : List (Text × Value × List Token)} :
      Opened frames ts → (∀ m ∈ settings, m.2.1.Phrase m.2.2) →
      After (.name (settings.map fun m => (m.1, m.2.1)).reverse frames)
        (ts ++ .openObject :: settingTokens settings)
  | colon {frames : List Frame} {ts : List Token} {key : Text}
      {settings : List (Text × Value × List Token)} :
      Opened frames ts → (∀ m ∈ settings, m.2.1.Phrase m.2.2) →
      After (.colon (settings.map fun m => (m.1, m.2.1)).reverse key frames)
        (ts ++ .openObject :: (settingTokens settings ++ [.text key]))
  | done {frames : List Frame} {ts ts' : List Token} {v : Value} : Opened frames ts →
      v.Phrase ts' → After (.done v frames) (ts ++ ts')

section Reading

variable {frames : List Frame} {r r' : Reading} {t : Token} {ts ts' : List Token} {v : Value}

theorem after_start (h : Reading.start frames t = some r) (hframes : Opened frames ts) :
    r.After (ts ++ [t]) := by
  unfold Reading.start at h
  split at h
  case h_1 v => cases h; exact .done hframes (.scalar v)
  case h_2 s => cases h; exact .done hframes (.text s)
  case h_3 => cases h; exact .itemOrClose hframes
  case h_4 => cases h; exact .nameOrClose hframes
  case h_5 => cases h

section Growing

variable {items : List (Value × List Token)} {settings : List (Text × Value × List Token)}
  {key : Text}

theorem forall_mem_concat {α : Type} {p : α → Prop} {xs : List α} {x : α} (h : ∀ y ∈ xs, p y)
    (hx : p x) : ∀ y ∈ xs ++ [x], p y :=
  List.forall_mem_append.mpr ⟨h, List.forall_mem_singleton.mpr hx⟩

theorem phrase_array (h : ∀ i ∈ items, i.1.Phrase i.2) (hv : v.Phrase ts) :
    (Value.array (v :: (items.map Prod.fst).reverse).reverse).Phrase
      (.openArray :: (itemTokens items ++ (ts ++ [.closeArray]))) := by
  have hitems : ∀ i ∈ items ++ [(v, ts)], i.1.Phrase i.2 := forall_mem_concat h hv
  have harray := Value.Phrase.array hitems
  rw [List.map_append, List.map_append] at harray
  simpa [intercalate_concat, itemTokens] using harray

theorem phrase_object (h : ∀ m ∈ settings, m.2.1.Phrase m.2.2) (hv : v.Phrase ts) :
    (Value.object (Value.settle
        ((key, v) :: (settings.map fun m => (m.1, m.2.1)).reverse).reverse)).Phrase
      (.openObject :: (settingTokens settings ++ (.text key :: .colon :: ts ++ [.closeObject]))) := by
  have hsettings : ∀ m ∈ settings ++ [(key, v, ts)], m.2.1.Phrase m.2.2 := forall_mem_concat h hv
  have hobject := Value.Phrase.object hsettings (Value.settles_iff.mpr rfl)
  rw [List.map_append, List.map_append] at hobject
  simpa [intercalate_concat, settingTokens] using hobject

theorem opened_item (hframes : Opened frames ts) (h : ∀ i ∈ items, i.1.Phrase i.2)
    (hv : v.Phrase ts') : Opened (.array (v :: (items.map Prod.fst).reverse) :: frames)
      (ts ++ .openArray :: (itemTokens items ++ (ts' ++ [.comma]))) := by
  have hitems : ∀ i ∈ items ++ [(v, ts')], i.1.Phrase i.2 := forall_mem_concat h hv
  simpa [itemTokens] using Opened.array hframes hitems

theorem after_setting (hframes : Opened frames ts) (h : ∀ m ∈ settings, m.2.1.Phrase m.2.2)
    (hv : v.Phrase ts') :
    (Reading.name ((key, v) :: (settings.map fun m => (m.1, m.2.1)).reverse) frames).After
      (ts ++ .openObject :: (settingTokens settings ++ (.text key :: .colon :: ts' ++ [.comma]))) := by
  have hsettings : ∀ m ∈ settings ++ [(key, v, ts')], m.2.1.Phrase m.2.2 := forall_mem_concat h hv
  simpa [settingTokens] using Reading.After.name hframes hsettings

end Growing

/-- Each token is read as the syntax has it: with the tokens that led here it leads to what may come
next. -/
theorem after_next (h : r.next t = some r') (hr : r.After ts) : r'.After (ts ++ [t]) := by
  unfold Reading.next at h
  split at h
  case h_1 =>
    cases hr with
    | value hframes => exact after_start h hframes
  case h_2 =>
    cases h
    cases hr with
    | itemOrClose hframes =>
      rw [List.append_assoc]
      exact .done hframes (.array (List.forall_mem_nil _))
  case h_3 =>
    cases hr with
    | itemOrClose hframes =>
      exact after_start h (.array hframes (List.forall_mem_nil _))
  case h_4 =>
    cases h
    cases hr with
    | nameOrClose hframes =>
      rw [List.append_assoc]
      exact .done hframes (.object (List.forall_mem_nil _) (Value.settles_iff.mpr rfl))
  case h_5 =>
    cases h
    cases hr with
    | nameOrClose hframes =>
      rw [List.append_assoc]
      exact .colon hframes (List.forall_mem_nil _)
  case h_6 =>
    cases h
    cases hr with
    | name hframes hsettings =>
      rw [List.append_assoc]
      exact .colon hframes hsettings
  case h_7 =>
    cases h
    cases hr with
    | colon hframes hsettings => simpa using Reading.After.value (.object hframes hsettings)
  -- a value is done, inside an array or an object
  case h_8 =>
    cases h
    cases hr with
    | done hopened hv =>
      cases hopened with
      | array hframes hitems => simpa using Reading.After.value (opened_item hframes hitems hv)
  case h_9 =>
    cases h
    cases hr with
    | done hopened hv =>
      cases hopened with
      | array hframes hitems => simpa using Reading.After.done hframes (phrase_array hitems hv)
  case h_10 =>
    cases h
    cases hr with
    | done hopened hv =>
      cases hopened with
      | object hframes hsettings => simpa using after_setting hframes hsettings hv
  case h_11 =>
    cases h
    cases hr with
    | done hopened hv =>
      cases hopened with
      | object hframes hsettings =>
        simpa using Reading.After.done hframes (phrase_object hsettings hv)
  case h_12 => cases h

theorem after_run (h : r.run ts' = some r') (hr : r.After ts) : r'.After (ts ++ ts') := by
  induction ts' generalizing r ts with
  | nil =>
    cases h
    rwa [List.append_nil]
  | cons t ts' ih =>
    rw [Reading.run] at h
    split at h
    · rename_i hnext
      have hafter := ih h (after_next hnext hr)
      rwa [List.append_assoc] at hafter
    · cases h

theorem run_eq_done_iff : (Reading.value []).run ts = some (.done v []) ↔ v.Phrase ts := by
  constructor
  · intro h
    have hafter := after_run h (.value .nil)
    rw [List.nil_append] at hafter
    cases hafter with
    | done hopened hv =>
      cases hopened with
      | nil => exact hv
  · intro h
    have hrun := h.makes.run_value [] []
    rwa [List.append_nil] at hrun

end Reading

/-- A value is read from its texts, and from no others. -/
theorem Value.read?_eq_some_iff {v : Value} {s : String} : read? s = some v ↔ v.HasText s := by
  have hread : read? s = some v ↔
      ∃ ts, scan [] s.toList = some ts ∧ (Reading.value []).run ts = some (.done v []) := by
    unfold read?
    simp only [Option.bind_eq_bind, Option.bind_eq_some_iff]
    refine exists_congr fun ts => and_congr_right fun _ => ⟨?_, fun h => ⟨_, h, rfl⟩⟩
    rintro ⟨r, hrun, hr⟩
    split at hr
    · cases hr
      exact hrun
    · cases hr
  rw [hread]
  -- the tokens of a value are parted, so they are the ones that are found in its texts
  constructor
  · rintro ⟨ts, hscan, hrun⟩
    have hphrase := run_eq_done_iff.mp hrun
    exact ⟨ts, hphrase, (scan_eq_some_iff hphrase.parted).mp hscan⟩
  · rintro ⟨ts, hphrase, hspelled⟩
    exact ⟨ts, (scan_eq_some_iff hphrase.parted).mpr hspelled, run_eq_done_iff.mpr hphrase⟩

theorem Value.HasText.unique {v w : Value} {s : String} (hv : v.HasText s) (hw : w.HasText s) :
    v = w :=
  Option.some.inj ((read?_eq_some_iff.mpr hv).symm.trans (read?_eq_some_iff.mpr hw))

end ArchiveKeeper.Json
