import ArchiveKeeper.Proofs.Location.Bucket

namespace ArchiveKeeper

namespace Location

variable {l : String}

/-- A text that looks like a place in an object store and is written like none, or that looks like a
file URL and names no local file. -/
def Misnamed (l : String) : Prop :=
  (∃ scheme ∈ ["s3://", "s3a://"], ∃ rest, l = scheme ++ rest) ∧
      (¬ ∃ name path, Written l name path) ∨
    (∃ rest, l = "file:" ++ rest) ∧ Url.filePath? l = none

theorem isBucket_iff : isBucket l ↔ ∃ scheme ∈ ["s3://", "s3a://"], ∃ rest, l = scheme ++ rest := by
  rw [isBucket, Option.isSome_iff_exists]
  constructor
  · rintro ⟨rest, h⟩
    obtain ⟨scheme, hscheme, hl⟩ := Bucket.afterScheme?_eq_some h
    exact ⟨scheme, hscheme, String.ofList rest, String.toList_inj.mp (by simp [hl])⟩
  · rintro ⟨scheme, hscheme, rest, rfl⟩
    exact ⟨rest.toList, by rw [String.toList_append, Bucket.afterScheme?_append hscheme]⟩

theorem isFileUrl_iff : isFileUrl l ↔ ∃ rest, l = "file:" ++ rest := by
  rw [isFileUrl, Option.isSome_iff_exists]
  constructor
  · rintro ⟨rest, h⟩
    exact ⟨String.ofList rest, String.toList_inj.mp (by simp [Text.after?_eq_some_iff.mp h])⟩
  · rintro ⟨rest, rfl⟩
    exact ⟨rest.toList, Text.after?_eq_some_iff.mpr (String.toList_append ..)⟩

theorem not_isFileUrl_of_isBucket (h : isBucket l) : ¬ isFileUrl l := by
  obtain ⟨scheme, hscheme, rest, rfl⟩ := isBucket_iff.mp h
  rw [isFileUrl_iff]
  rintro ⟨rest', hl⟩
  have hhead := congrArg (fun s : String => s.toList.head?) hl
  rw [List.mem_cons, List.mem_singleton] at hscheme
  rcases hscheme with rfl | rfl <;> simp at hhead

theorem Bucket.read?_eq_none_iff : Bucket.read? l = none ↔ ¬ ∃ name path, Written l name path := by
  rw [Option.eq_none_iff_forall_ne_some]
  constructor
  · rintro h ⟨name, path, hwritten⟩
    exact h ⟨name, _⟩ (Bucket.read?_eq_some_iff.mpr ⟨path, hwritten, rfl⟩)
  · intro h b hb
    obtain ⟨path, hwritten, -⟩ := Bucket.read?_eq_some_iff.mp hb
    exact h ⟨b.name, path, hwritten⟩

theorem misnamed_iff : Misnamed l ↔
    isBucket l ∧ Bucket.read? l = none ∨ isFileUrl l ∧ Url.filePath? l = none := by
  rw [Misnamed, ← isBucket_iff, ← isFileUrl_iff, Bucket.read?_eq_none_iff]

def Refuses (l : String) (e : Failure) : Prop :=
  e = .configuration (.notBucket l) ∨ e = .configuration (.notFileUrl l)

theorem read_cases (l : String) : Misnamed l ∧ (∃ e, read l = .error e ∧ Refuses l e) ∨
    ¬ Misnamed l ∧ ∃ place, read l = .ok place := by
  rw [misnamed_iff]
  by_cases hbucket : isBucket l
  · have hfile := not_isFileUrl_of_isBucket hbucket
    rw [read, if_pos hbucket, Bucket.read]
    cases hread : Bucket.read? l with
    | none => exact .inl ⟨.inl ⟨hbucket, rfl⟩, _, rfl, .inl rfl⟩
    | some b => exact .inr ⟨by simp [hfile], _, rfl⟩
  · rw [read, if_neg hbucket]
    by_cases hfile : isFileUrl l
    · rw [if_pos hfile]
      cases hpath : Url.filePath? l with
      | none => exact .inl ⟨.inr ⟨hfile, rfl⟩, _, rfl, .inr rfl⟩
      | some path => exact .inr ⟨by simp [hbucket], _, rfl⟩
    · rw [if_neg hfile]
      exact .inr ⟨by simp [hbucket, hfile], _, rfl⟩

/-- The locations of a list are read up to the first that is misnamed. -/
theorem readAll_cases (ls : List String) :
    (∃ l ∈ ls, Misnamed l ∧ ∃ e, readAll ls = .error e ∧ Refuses l e) ∨
      (∀ l ∈ ls, ¬ Misnamed l) ∧ ∃ places, readAll ls = .ok places ∧ places.map Prod.fst = ls := by
  induction ls with
  | nil => exact .inr ⟨List.forall_mem_nil _, [], rfl, rfl⟩
  | cons l ls ih =>
    rw [readAll]
    obtain ⟨hmis, e, he, hrefuses⟩ | ⟨hwell, place, hplace⟩ := read_cases l
    · rw [he]
      exact .inl ⟨l, List.mem_cons_self, hmis, e, rfl, hrefuses⟩
    · rw [hplace]
      obtain ⟨m, hm, hmis, e, he, hrefuses⟩ | ⟨hall, places, hplaces, hfst⟩ := ih
      · exact .inl ⟨m, List.mem_cons_of_mem _ hm, hmis, e, by rw [he]; rfl, hrefuses⟩
      · refine .inr ⟨List.forall_mem_cons.mpr ⟨hwell, hall⟩, (l, place) :: places, ?_, ?_⟩
        · rw [hplaces]
          rfl
        · rw [List.map_cons, hfst]

end Location

end ArchiveKeeper
