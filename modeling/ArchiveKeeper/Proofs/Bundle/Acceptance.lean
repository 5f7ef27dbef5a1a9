import ArchiveKeeper.Proofs.Bundle
import ArchiveKeeper.Proofs.Check

namespace ArchiveKeeper.Bundle

open Check Json Verdict

/-- A value that spells an entry, whatever other members it has. -/
def IsEntry (v : Value) (x : Entry) : Prop :=
  ∃ members, v = .object members ∧
    Value.find? (Text.ofString "path") members = some (.string x.path) ∧ x.path ≠ [] ∧
    Value.find? (Text.ofString "json") members = some (.string x.json)

/-- A value that lists entries in their order, whatever other members it has. -/
def Lists (v : Value) (xs : List Entry) : Prop :=
  ∃ members items, v = .object members ∧
    Value.find? (Text.ofString "archive") members = some (.array items) ∧
    List.Forall₂ IsEntry items xs

variable {v : Value} {x : Entry} {xs : List Entry}

theorem passed?_entry_iff : (entry (some v)).passed? = some x ↔ IsEntry v x := by
  unfold entry
  simp only [passed?_record, passed?_seq_iff, passed?_fmap_iff, passed?_field,
    passed?_insist_check, passed?_text, Option.bind_some, Option.bind_eq_some_iff,
    Option.filter_eq_some_iff, Value.members?_eq_some_iff, Value.text?_eq_some_iff]
  constructor
  · rintro ⟨members, rfl, _, json, ⟨path, ⟨⟨_, hpath, rfl⟩, hne⟩, rfl⟩, ⟨_, hjson, rfl⟩, rfl⟩
    exact ⟨members, rfl, hpath, of_decide_eq_true hne, hjson⟩
  · rintro ⟨members, rfl, hpath, hne, hjson⟩
    exact ⟨members, rfl, _, x.json, ⟨x.path, ⟨⟨_, hpath, rfl⟩, decide_eq_true hne⟩, rfl⟩,
      ⟨_, hjson, rfl⟩, rfl⟩

theorem passed?_entries_iff : (entries (some v)).passed? = some xs ↔ Lists v xs := by
  unfold entries
  simp only [passed?_record, passed?_field, passed?_listOf, Option.bind_some,
    Option.bind_eq_some_iff, mapM_eq_some_iff, passed?_entry_iff, Value.members?_eq_some_iff,
    Value.items?_eq_some_iff]
  constructor
  · rintro ⟨members, rfl, items, ⟨_, harchive, rfl⟩, hitems⟩
    exact ⟨members, items, rfl, harchive, hitems⟩
  · rintro ⟨members, items, rfl, harchive, hitems⟩
    exact ⟨members, rfl, items, ⟨_, harchive, rfl⟩, hitems⟩

theorem read_eq_ok_iff {job raw : String} :
    read job raw = .ok xs ↔ ∃ v : Value, v.HasText raw ∧ Lists v xs := by
  simp only [← Value.read?_eq_some_iff, ← passed?_entries_iff, ← toExcept_eq_ok_iff]
  unfold read
  cases Value.read? raw with
  | none => simp
  | some v =>
    cases h : (entries (some v)).toExcept with
    | ok xs => simp [h]
    | error issues => simp [h]

/-- A bundle is read as some entries exactly if it is a JSON text of a value that lists them, in
which the last setting of a name counts. Any other text is refused as malformed, on account of its
job: as no JSON if it is none, and else with what is wrong with its form. -/
theorem read_exact (job raw : String) :
    (∀ xs, read job raw = .ok xs ↔ ∃ v : Value, v.HasText raw ∧ Lists v xs) ∧
      ((∃ xs, read job raw = .ok xs) ∨
        (read job raw = .error (.malformed job .bundleNotJson) ∧ ∀ v : Value, ¬ v.HasText raw) ∨
        ∃ issues, ∃ v : Value, read job raw = .error (.malformed job (.bundleForm issues)) ∧
          v.HasText raw ∧ ∀ xs, ¬ Lists v xs) := by
  refine ⟨fun xs => read_eq_ok_iff, ?_⟩
  simp only [← Value.read?_eq_some_iff, ← passed?_entries_iff, ← toExcept_eq_ok_iff]
  unfold read
  cases hraw : Value.read? raw with
  | none => exact .inr (.inl ⟨rfl, fun v hv => nomatch hv⟩)
  | some v =>
    cases hentries : (entries (some v)).toExcept with
    | ok xs => exact .inl ⟨xs, by simp [hentries]⟩
    | error issues =>
      refine .inr (.inr ⟨issues, v, by simp [hentries], rfl, fun xs hok => ?_⟩)
      rw [hentries] at hok
      cases hok

example :
    read "1" "\x7b\"archive\":0, \"archive\":[\x7b\"path\":\"\\uD800\",\"json\":\"\",\"x\":1e9\x7d]\x7d"
      = .ok [⟨[.half 0], []⟩] := by
  decide +kernel

end ArchiveKeeper.Bundle
