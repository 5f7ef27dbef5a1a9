import ArchiveKeeper.Bundle
import ArchiveKeeper.Proofs.Json.Legibility

namespace ArchiveKeeper.Bundle

open Check Json

/-- The texts of an entry spell every surrogate pair as the one character that it is. -/
def Entry.Joined (x : Entry) : Prop := x.path.Joined ∧ x.json.Joined

theorem Entry.joined_ofDocument (d : Document) : (Entry.ofDocument d).Joined :=
  ⟨Text.joined_ofString d.path, Text.joined_ofString d.json⟩

variable {x : Entry} {xs : List Entry}

theorem legible_entry (h : x.Joined) : x.value.Legible := by
  apply Value.legible_record
  · show ["path", "json"].Nodup
    decide
  · show ∀ name ∈ ["path", "json"], (Text.ofString name).index? = none
    decide
  · simp [Value.Legible, Value.readAs_string h.1, Value.readAs_string h.2]

theorem read?_write (h : ∀ x ∈ xs, x.Joined) : Value.read? (write xs) =
    some (.record [("archive", .array (xs.map Entry.value))]) := by
  apply Value.Legible.read?_text
  apply Value.legible_record
  · show ["archive"].Nodup
    decide
  · show ∀ name ∈ ["archive"], (Text.ofString name).index? = none
    decide
  · intro m hm
    rw [List.mem_singleton.mp hm]
    apply Value.legible_array
    intro v hv
    obtain ⟨x, hx, rfl⟩ := List.mem_map.mp hv
    exact legible_entry (h x hx)

/-- What is wrong with the entries whose paths are empty, in a list at some place whose first item
has some position there. -/
def emptyPaths (place : List Step) (position : Nat) (xs : List Entry) : List Issue :=
  ((xs.zipIdx position).filter fun x => x.1.path = []).map fun x =>
    ⟨place ++ [.index x.2, .name "path"], .length 1⟩

theorem emptyPaths_eq_nil {place : List Step} {position : Nat} :
    emptyPaths place position xs = [] ↔ ∀ x ∈ xs, x.path ≠ [] := by
  induction xs generalizing position with
  | nil => simp [emptyPaths]
  | cons x xs ih =>
    have hrest : emptyPaths place (position + 1) xs = [] ↔ ∀ x ∈ xs, x.path ≠ [] := ih
    rw [List.forall_mem_cons, ← hrest]
    by_cases h : x.path = [] <;> simp [emptyPaths, h]

theorem record_object {α : Type} (parts : (String → Option Value) → Verdict α)
    (ms : List (Text × Value)) : Check.record parts (some (.object ms)) =
      parts fun name => Value.find? (Text.ofString name) ms := rfl

theorem path_string (t : Text) : (insist text (· ≠ []) (.length 1)) (some (Value.string t)) =
    ⟨some t, if t = [] then [⟨[], .length 1⟩] else []⟩ := by
  show Verdict.insist (· ≠ []) (.length 1) (.pure t) = _
  by_cases h : t = [] <;> simp [Verdict.insist, Verdict.pure, h]

theorem entry_value (x : Entry) : entry (some x.value) =
    ⟨some x, if x.path = [] then [⟨[.name "path"], .length 1⟩] else []⟩ := by
  rw [Entry.value, Value.record, entry, record_object]
  simp only [List.map_cons, List.map_nil, field, Value.find?_ofString_cons, if_true, path_string]
  show Verdict.both (Verdict.map _ _) (.pure x.json) = _
  simp [Verdict.both, Verdict.map, Verdict.under, Verdict.pure, apply_ite]

theorem each_entry (position : Nat) (xs : List Entry) :
    Check.each entry position (xs.map Entry.value) = ⟨some xs, emptyPaths [] position xs⟩ := by
  induction xs generalizing position with
  | nil => rfl
  | cons x xs ih =>
    show Verdict.both (Verdict.map List.cons ((entry (some x.value)).under (.index position)))
      (Check.each entry (position + 1) (xs.map Entry.value)) = _
    rw [ih, entry_value]
    by_cases h : x.path = [] <;> simp [Verdict.both, Verdict.map, Verdict.under, emptyPaths, h]

theorem entries_record (xs : List Entry) :
    entries (some (.record [("archive", .array (xs.map Entry.value))])) =
      ⟨some xs, emptyPaths [.name "archive"] 0 xs⟩ := by
  rw [Value.record, entries, record_object, field, List.map_cons, Value.find?_ofString_cons,
    if_pos rfl]
  show (Check.each entry 0 (xs.map Entry.value)).under (.name "archive") = _
  rw [each_entry, Verdict.under]
  simp [emptyPaths]

theorem read_write_of_joined (job : String) (h : ∀ x ∈ xs, x.Joined) :
    read job (write xs) =
      if ∀ x ∈ xs, x.path ≠ [] then .ok xs
      else .error (.malformed job (.bundleForm (emptyPaths [.name "archive"] 0 xs))) := by
  rw [read, read?_write h]
  simp only [entries_record, Verdict.toExcept, Verdict.passed?]
  by_cases hnone : emptyPaths [.name "archive"] 0 xs = []
  · rw [if_pos (emptyPaths_eq_nil.mp hnone), hnone]
    rfl
  · rw [if_neg (mt emptyPaths_eq_nil.mpr hnone), if_neg (by simpa using hnone)]

/-- A bundle that was written is read as its documents in their order, whatever characters are in
them. Only if the path of one of them is empty it is refused, as one of its job that is malformed.
-/
theorem read_write (job : String) (docs : List Document) :
    read job (write (docs.map Entry.ofDocument)) =
      if docs.all (·.path ≠ "") then .ok (docs.map Entry.ofDocument)
      else .error (.malformed job (.bundleForm
        (emptyPaths [.name "archive"] 0 (docs.map Entry.ofDocument)))) := by
  have hjoined : ∀ x ∈ docs.map Entry.ofDocument, x.Joined := by
    simpa using fun d _ => Entry.joined_ofDocument d
  have hpaths : (∀ x ∈ docs.map Entry.ofDocument, x.path ≠ []) ↔ docs.all (·.path ≠ "") := by
    simp [Entry.ofDocument, Text.ofString_eq_nil]
  simp only [read_write_of_joined job hjoined, hpaths]

example : write [.ofDocument ⟨"/jobs/1", "\x7b\"a\\b\":1\x7d\n"⟩] =
    "\x7b\"archive\":[\x7b\"path\":\"/jobs/1\",\"json\":\"\x7b\\\"a\\\\b\\\":1\x7d\\n\"\x7d]\x7d" := by
  decide +kernel

end ArchiveKeeper.Bundle
