import ArchiveKeeper.Proofs.Config.Form
import ArchiveKeeper.Proofs.Json.Members
import ArchiveKeeper.Proofs.Number.Literal
import ArchiveKeeper.Proofs.Number.Value
import ArchiveKeeper.Proofs.Text.Margin

namespace ArchiveKeeper

namespace Json.Value

/-- A value whose numbers are numbers of the binary format, or not numbers at all. -/
inductive Admissible : Value → Prop
  | null : Admissible .null
  | bool (b : Bool) : Admissible (.bool b)
  | number {x : Double} : x.Admissible → Admissible (.number x)
  | string (s : Text) : Admissible (.string s)
  | array {items : List Value} : (∀ v ∈ items, Admissible v) → Admissible (.array items)
  | object {members : List (Text × Value)} : (∀ m ∈ members, Admissible m.2) →
      Admissible (.object members)

theorem Admissible.find? {members : List (Text × Value)} {name : Text} {v : Value}
    (h : (Value.object members).Admissible) (hv : Value.find? name members = some v) :
    v.Admissible := by
  obtain ⟨m, hm, rfl⟩ := Option.map_eq_some_iff.mp hv
  cases h with
  | object h => exact h m (List.mem_of_find?_eq_some hm)

end Json.Value

namespace Fetch.Limit

/-- A limit that is a number of the binary format. -/
def Exact : Limit → Prop
  | .unbounded => True
  | .atMost n => 1 ≤ n ∧ (Double.ofNat n).toInt? = some (n : Int)

end Fetch.Limit

namespace Config

open Check Json Verdict

/-- A configuration that a form makes: no text that must be there is empty, the locations stand
without blanks around them, and the limit is a number. -/
structure Valid (c : Config) : Prop where
  located : c.archive.locations ≠ []
  locations : ∀ l ∈ c.archive.locations, l ≠ "" ∧ Text.trim l = l
  schedule : c.archive.schedule ≠ ""
  retained : c.archive.retained.Exact
  directory : c.storage.directory ≠ ""
  database : c.storage.database ≠ ""
  region : c.objects.region ≠ ""
  endpoint : ∀ url ∈ c.objects.endpoint, Url.isUrl url

section Made

variable {V : Type} [Visible V] {v : Option V}

theorem trim_trim (s : String) : Text.trim (Text.trim s) = Text.trim s := by
  have h := Text.middle_middle Text.isBlank s.toList
  unfold Text.trim Text.trimList
  rw [String.toList_ofList]
  exact congrArg String.ofList h

theorem entries_trimmed {parts : List String} {l : String} (h : l ∈ entries parts) :
    l ≠ "" ∧ Text.trim l = l := by
  obtain ⟨hmem, hne⟩ := List.mem_filter.mp h
  obtain ⟨s, -, rfl⟩ := List.mem_map.mp hmem
  exact ⟨of_decide_eq_true hne, trim_trim s⟩

theorem made_locationList {ls : List String} (h : (locationList v).passed? = some ls) :
    ls ≠ [] ∧ ∀ l ∈ ls, l ≠ "" ∧ Text.trim l = l := by
  unfold locationList at h
  rw [passed?_insist_check, Option.filter_eq_some_iff, passed?_map_check,
    Option.map_eq_some_iff] at h
  obtain ⟨⟨parts, -, rfl⟩, hne⟩ := h
  exact ⟨of_decide_eq_true hne, fun l hl => entries_trimmed hl⟩

theorem made_filled {s : String} (h : (filled v).passed? = some s) : s ≠ "" := by
  unfold filled at h
  rw [passed?_insist_check, Option.filter_eq_some_iff] at h
  exact of_decide_eq_true h.2

theorem made_filledOr {s standard : String} (hstandard : standard ≠ "")
    (h : (withDefault standard filled v).passed? = some s) : s ≠ "" := by
  rw [passed?_withDefault] at h
  split at h
  · cases h
    exact hstandard
  · exact made_filled h

theorem made_endpoint {url? : Option String}
    (h : (optional (insist string Url.isUrl .url) v).passed? = some url?) :
    ∀ url ∈ url?, Url.isUrl url := by
  rw [passed?_optional] at h
  split at h
  · cases h
    simp
  · obtain ⟨url, hurl, rfl⟩ := Option.map_eq_some_iff.mp h
    rw [passed?_insist_check, Option.filter_eq_some_iff] at hurl
    rintro _ ⟨⟩
    exact hurl.2

theorem exact_limitOf {x : Double} (hx : x.Admissible) : (limitOf x).Exact := by
  unfold limitOf
  split
  · rename_i n hn
    rcases hx with rfl | hproper
    · cases hn
    · split
      · rename_i hle
        have hof := Double.ofNat_of_toInt? hproper hn hle
        refine ⟨by omega, ?_⟩
        rw [hof, hn]
        exact congrArg some (by omega)
      · trivial
  · trivial

end Made

/-- Whatever a value amounts to is a number of the format, if the numbers in the value are. -/
theorem admissible_amount {v : Value} (h : v.Admissible) : (amount v).Admissible := by
  cases h with
  | null => exact .inr Double.inFormat_zero
  | bool b =>
    cases b
    · exact .inr Double.inFormat_zero
    · exact .inr (Double.proper_ofNat 1)
  | number hx => exact hx
  | string s => exact Double.admissible_ofText _
  | array _ => exact Double.admissible_ofText _
  | object _ => exact .inl rfl

theorem passed?_numberLike {v : Value} : (numberLike (some v)).passed? =
    if amount v = .nan then none else some (amount v) := by
  unfold numberLike
  dsimp only
  split
  · rename_i h
    rw [if_pos h]
    rfl
  · rename_i h
    rw [if_neg h]
    rfl

theorem passed?_retention (v : Option Value) : (retention v).passed? =
    (((numberLike v).passed?.filter Double.isInteger).filter isLimit).map limitOf := by
  unfold retention
  rw [passed?_map_check, passed?_insist_check, passed?_insist_check]

theorem made_retention {v : Option Value} {l : Fetch.Limit} (hv : ∀ w ∈ v, w.Admissible)
    (h : (withDefault .unbounded retention v).passed? = some l) : l.Exact := by
  rw [passed?_withDefault] at h
  split at h
  · cases h
    trivial
  · rename_i w
    rw [passed?_retention] at h
    obtain ⟨x, hx, rfl⟩ := Option.map_eq_some_iff.mp h
    have hx := (Option.filter_eq_some_iff.mp (Option.filter_eq_some_iff.mp hx).1).1
    rw [passed?_numberLike] at hx
    split at hx
    · cases hx
    · cases hx
      exact exact_limitOf (admissible_amount (hv w rfl))

theorem finder?_eq_some {v : Option Value} {find : String → Option Value}
    (h : finder? v = some find) :
    ∃ members, v = some (.object members) ∧
      find = fun name => Value.find? (Text.ofString name) members := by
  obtain ⟨w, rfl, h⟩ := Option.bind_eq_some_iff.mp h
  cases w with
  | object members => exact ⟨members, rfl, (Option.some.inj h).symm⟩
  | _ => cases h

theorem made_archive {v : Option Value} {a : Archive} (hv : ∀ w ∈ v, w.Admissible)
    (h : (Archive.form v).passed? = some a) : a.locations ≠ [] ∧
      (∀ l ∈ a.locations, l ≠ "" ∧ Text.trim l = l) ∧ a.schedule ≠ "" ∧ a.retained.Exact := by
  obtain ⟨find, hfind, hdirs, hcron, hretained, -, -⟩ := passed?_archive_iff.mp h
  obtain ⟨members, rfl, rfl⟩ := finder?_eq_some hfind
  obtain ⟨hne, hlocations⟩ := made_locationList hdirs
  have hnumber := made_retention (fun w hw => (hv _ rfl).find? hw) hretained
  exact ⟨hne, hlocations, made_filledOr (by decide) hcron, hnumber⟩

theorem made_storage {v : Option Value} {s : Storage}
    (h : (withDefault Storage.initial Storage.form v).passed? = some s) :
    s.directory ≠ "" ∧ s.database ≠ "" := by
  rw [passed?_withDefault] at h
  split at h
  · cases h
    decide
  · obtain ⟨find, -, -, hdirectory, hdatabase⟩ := passed?_storage_iff.mp h
    exact ⟨made_filledOr (by decide) hdirectory, made_filledOr (by decide) hdatabase⟩

theorem made_objects {v : Option Value} {o : ObjectAccess}
    (h : (withDefault ObjectAccess.initial ObjectAccess.form v).passed? = some o) :
    o.region ≠ "" ∧ ∀ url ∈ o.endpoint, Url.isUrl url := by
  rw [passed?_withDefault] at h
  split at h
  · cases h
    simp [ObjectAccess.initial]
  · obtain ⟨find, -, hregion, hendpoint, -⟩ := passed?_objects_iff.mp h
    exact ⟨made_filledOr (by decide) hregion, made_endpoint hendpoint⟩

theorem valid_of_passed {v : Value} {c : Config} (hv : v.Admissible)
    (h : (form (some v)).passed? = some c) : c.Valid := by
  obtain ⟨find, hfind, harchive, hstorage, hobjects, -⟩ := passed?_form_iff.mp h
  obtain ⟨members, hmembers, rfl⟩ := finder?_eq_some hfind
  cases hmembers
  obtain ⟨hlocated, hlocations, hschedule, hretained⟩ :=
    made_archive (fun w hw => hv.find? hw) harchive
  obtain ⟨hdirectory, hdatabase⟩ := made_storage hstorage
  obtain ⟨hregion, hendpoint⟩ := made_objects hobjects
  exact ⟨hlocated, hlocations, hschedule, hretained, hdirectory, hdatabase, hregion, hendpoint⟩

section Again

theorem passed?_str (s : String) : (string (some (Value.str s))).passed? = some s := by
  change some (Text.ofString s).toString = some s
  rw [Text.toString_ofString]

theorem passed?_texts (ls : List String) :
    (listOf string (some (Value.array (ls.map .str)))).passed? = some ls := by
  rw [passed?_listOf]
  change (ls.map Value.str).mapM (fun v => (string (some v)).passed?) = some ls
  induction ls with
  | nil => rfl
  | cons l ls ih =>
    rw [List.map_cons, List.mapM_cons, passed?_str, ih]
    rfl

theorem entries_of_trimmed {ls : List String} (h : ∀ l ∈ ls, l ≠ "" ∧ Text.trim l = l) :
    entries ls = ls := by
  have htrim : ls.map Text.trim = ls :=
    (List.map_congr_left fun l hl => (h l hl).2).trans (List.map_id ls)
  rw [entries, htrim, List.filter_eq_self]
  exact fun l hl => decide_eq_true (h l hl).1

/-- A list of locations that was made is no text, so it is read as a list. -/
theorem again_locationList {ls : List String} (hne : ls ≠ [])
    (h : ∀ l ∈ ls, l ≠ "" ∧ Text.trim l = l) :
    (locationList (some (Value.array (ls.map .str)))).passed? = some ls := by
  have htext : (map (Text.split ',') string (some (Value.array (ls.map .str)))).passed? = none := by
    rw [passed?_map_check]
    rfl
  unfold locationList
  rw [passed?_insist_check, passed?_map_check, passed?_either, htext, Option.none_or,
    passed?_texts, Option.map_some, entries_of_trimmed h, Option.filter_some, if_pos]
  exact decide_eq_true hne

theorem again_filled {s : String} (h : s ≠ "") :
    (filled (some (Value.str s))).passed? = some s := by
  unfold filled
  rw [passed?_insist_check, passed?_str, Option.filter_some, if_pos]
  exact decide_eq_true h

theorem again_retention {l : Fetch.Limit} (h : l.Exact) :
    (retention (some (limitValue l))).passed? = some l := by
  cases l with
  | unbounded => decide +kernel
  | atMost n =>
    obtain ⟨hn, hwhole⟩ := h
    -- the limit is written as a double, and an exact one comes back as the same natural
    have hnan : amount (limitValue (.atMost n)) ≠ .nan := by
      change Double.ofNat n ≠ .nan
      rintro hnan
      rw [hnan] at hwhole
      cases hwhole
    have hinteger : (Double.ofNat n).isInteger := by
      rw [Double.isInteger, hwhole]
      rfl
    have hlimit : isLimit (Double.ofNat n) := by
      rw [isLimit, (Double.atLeastOne_iff hwhole).mpr (by omega), Bool.or_true]
    have hof : limitOf (Double.ofNat n) = .atMost n := by
      unfold limitOf
      rw [hwhole]
      dsimp only
      rw [if_pos (by omega), Int.toNat_natCast]
    rw [passed?_retention, passed?_numberLike, if_neg hnan]
    change (((some (Double.ofNat n)).filter Double.isInteger).filter isLimit).map limitOf = _
    rw [Option.filter_some, if_pos hinteger, Option.filter_some, if_pos hlimit, Option.map_some,
      hof]

theorem again_switch (b : Bool) : (switch (some (Value.bool b))).passed? = some b := by
  rw [switch, passed?_either]
  rfl

theorem again_backend (b : Backend) :
    (oneOf backends (some (Value.str b.name))).passed? = some b := by
  cases b <;> decide

theorem again_level (t : Log.Threshold) :
    (oneOf levels (some (Value.str t.name))).passed? = some t := by
  cases t <;> decide

theorem again_endpoint {url? : Option String} (h : ∀ url ∈ url?, Url.isUrl url) :
    (optional (insist string Url.isUrl .url) (url?.map Value.str)).passed? = some url? := by
  cases url? with
  | none => rfl
  | some url =>
    rw [Option.map_some, passed?_optional]
    dsimp only
    rw [passed?_insist_check, passed?_str, Option.filter_some, if_pos (h url rfl), Option.map_some]

theorem finder?_record (ms : List (String × Value)) : finder? (some (Value.record ms)) =
    some fun name => Value.find? (Text.ofString name) (ms.map fun m => (Text.ofString m.1, m.2)) :=
  rfl

theorem again_archive {a : Archive} (hne : a.locations ≠ [])
    (hlocations : ∀ l ∈ a.locations, l ≠ "" ∧ Text.trim l = l) (hschedule : a.schedule ≠ "")
    (hretained : a.retained.Exact) : (Archive.form (some a.value)).passed? = some a := by
  refine passed?_archive_iff.mpr ⟨_, finder?_record _, ?_⟩
  simp only [List.map_cons, Value.find?_ofString_cons, String.reduceEq, if_true, if_false]
  exact ⟨again_locationList hne hlocations, again_filled hschedule, again_retention hretained,
    again_switch _, again_switch _⟩

theorem again_storage {s : Storage} (hdirectory : s.directory ≠ "") (hdatabase : s.database ≠ "") :
    (Storage.form (some s.value)).passed? = some s := by
  refine passed?_storage_iff.mpr ⟨_, finder?_record _, ?_⟩
  simp only [List.map_cons, Value.find?_ofString_cons, String.reduceEq, if_true, if_false]
  exact ⟨again_backend _, again_filled hdirectory, again_filled hdatabase⟩

theorem again_objects {o : ObjectAccess} (hregion : o.region ≠ "")
    (hendpoint : ∀ url ∈ o.endpoint, Url.isUrl url) :
    (ObjectAccess.form (some o.value)).passed? = some o := by
  refine passed?_objects_iff.mpr ⟨_, finder?_record _, ?_⟩
  have hagain := again_endpoint hendpoint
  cases hurl : o.endpoint with
  | none =>
    rw [hurl] at hagain
    simp only [Option.map_none, Option.toList_none, List.append_nil, List.cons_append,
      List.nil_append, List.map_cons, List.map_nil, Value.find?_ofString_cons, String.reduceEq,
      if_true, if_false]
    exact ⟨again_filled hregion, hagain, again_switch _⟩
  | some url =>
    rw [hurl] at hagain
    simp only [Option.map_some, Option.toList_some, List.cons_append, List.nil_append,
      List.map_cons, Value.find?_ofString_cons, String.reduceEq, if_true, if_false]
    exact ⟨again_filled hregion, hagain, again_switch _⟩

theorem again_logging (l : Logging) : (Logging.form (some l.value)).passed? = some l := by
  refine passed?_logging_iff.mpr ⟨_, finder?_record _, ?_⟩
  simp only [List.map_cons, Value.find?_ofString_cons, String.reduceEq, if_true, if_false]
  exact ⟨again_level _, again_switch _⟩

theorem Valid.again {c : Config} (h : c.Valid) : (form (some c.value)).passed? = some c := by
  refine passed?_form_iff.mpr ⟨_, finder?_record _, ?_⟩
  simp only [sections, List.map_cons, Value.find?_ofString_cons, String.reduceEq, if_true, if_false]
  exact ⟨again_archive h.located h.locations h.schedule h.retained,
    again_storage h.directory h.database, again_objects h.region h.endpoint, again_logging _⟩

end Again

/-- What a form makes of a value passes the form again, and stays what it is. -/
theorem form_idempotent {v : Value} {c : Config} (hv : v.Admissible)
    (h : (form (some v)).toExcept = .ok c) : (form (some c.value)).toExcept = .ok c :=
  toExcept_eq_ok_iff.mpr (valid_of_passed hv (toExcept_eq_ok_iff.mp h)).again

/-- Settings with blanks around the locations, words for switches, a number written as a text in base
16, and names that no form knows. -/
def looseSettings : Value := .record [
  ("archive", .record [
    ("dirs", .str " a, ,\u00a0b c\u2003,"),
    ("retainedJobs", .array [.str " 0x10 "]),
    ("cleanupExpiredJobs", .str "no"),
    ("unknown", .number .nan)]),
  ("s3", .record [("endpoint", .str "http://localhost:9000")]),
  ("unknown", .null)]

def tightConfig : Config where
  archive := ⟨["a", "b c"], initialSchedule, .atMost 16, false, true⟩
  storage := Storage.initial
  objects := { ObjectAccess.initial with endpoint := some "http://localhost:9000" }
  logging := Logging.initial

theorem idempotent_looseSettings : looseSettings.Admissible ∧
    (form (some looseSettings)).toExcept = .ok tightConfig ∧
    (form (some tightConfig.value)).toExcept = .ok tightConfig := by
  have hv : looseSettings.Admissible := by
    refine .object ?_
    simp only [List.map_cons, List.map_nil, List.forall_mem_cons]
    refine ⟨.object ?_, .object ?_, .null, List.forall_mem_nil _⟩
    · simp only [List.map_cons, List.map_nil, List.forall_mem_cons]
      refine ⟨.string _, .array ?_, .string _, .number (.inl rfl), List.forall_mem_nil _⟩
      exact List.forall_mem_singleton.mpr (.string _)
    · exact List.forall_mem_singleton.mpr (.string _)
  have h : (form (some looseSettings)).toExcept = .ok tightConfig :=
    toExcept_eq_ok_iff.mpr (by decide +kernel)
  exact ⟨hv, h, form_idempotent hv h⟩

end Config

end ArchiveKeeper
