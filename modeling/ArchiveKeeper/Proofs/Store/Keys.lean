import ArchiveKeeper.Proofs.Store.DatabaseService
import ArchiveKeeper.Proofs.Store.DirectoryService

namespace ArchiveKeeper.Store

open Database

variable {job path key key' text : String} {c c' : Contents} {puts : String → String → Prop}

/-- The keys of a store to which some documents are put: that of the combined overview, and those of
the documents. -/
inductive IsKey (puts : String → String → Prop) : String → Prop
  | combined : IsKey puts Job.overviewPath
  | filed {job path : String} (isId : Job.isId job) (owns : Job.owns job path)
    (put : puts job path) : IsKey puts (keyOf job path)

theorem IsKey.any (h : IsKey puts key) : IsKey (fun _ _ => True) key := by
  cases h with
  | combined => exact .combined
  | filed isId owns => exact .filed isId owns trivial

theorem IsKey.absolute (h : IsKey puts key) : key.toList.head? = some '/' := by
  have hhead {cs rest : List Char} (h : cs.take 6 = '/' :: rest) : cs.head? = some '/' := by
    cases cs with
    | nil => cases h
    | cons c cs => rw [List.head?_cons, (List.cons.inj h).1]
  cases h with
  | combined => rfl
  | @filed job path isId owns =>
    rcases Job.owns_iff.mp owns with rfl | hin
    · rw [keyOf_overview]
      exact hhead (take_overviewKey job)
    · rw [keyOf_inTree hin]
      exact hhead hin.take

namespace Contents

inductive Has (c : Contents) : String → String → Prop
  | combined {text : String} (kept : c.combined = some text) : c.Has Job.overviewPath text
  | filed {job path text : String} (isId : Job.isId job) (owns : Job.owns job path)
    (kept : c.shelf job path = some text) : c.Has (keyOf job path) text

theorem Has.isKey (h : c.Has key text) : IsKey (fun _ _ => True) key := by
  cases h with
  | combined => exact .combined
  | filed isId owns => exact .filed isId owns trivial

theorem not_has_empty : ¬ empty.Has key text := by
  rintro (kept | ⟨-, -, kept⟩) <;> cases kept

theorem Alike.has_iff (h : c.Alike c') : c'.Has key text ↔ c.Has key text := by
  constructor
  · rintro (kept | ⟨isId, owns, kept⟩)
    · exact .combined (h.combined ▸ kept)
    · exact .filed isId owns (h.shelf _ isId ▸ kept)
  · rintro (kept | ⟨isId, owns, kept⟩)
    · exact .combined (h.combined.symm ▸ kept)
    · exact .filed isId owns ((h.shelf _ isId).symm ▸ kept)

end Contents

/-- In a table a text is found under the key under which it is kept. -/
theorem Database.Ready.has_iff {t : Table} (h : Database.Ready t) :
    (Database.contents t).Has key text ↔ t.get? key = some text := by
  constructor
  · rintro (kept | @⟨job, path, _, -, owns, kept⟩)
    · exact kept
    · change Database.shelf job t path = some text at kept
      rwa [Database.shelf, if_pos owns] at kept
  · intro hget
    obtain ⟨r, hr, rfl, -⟩ := (Table.get?_eq_some_iff h.sorted).mp hget
    rcases h.filed r hr with ⟨-, hk⟩ | ⟨job, path, isId, owns, -, hk⟩
    · rw [hk] at hget ⊢
      exact .combined hget
    · rw [hk] at hget ⊢
      refine .filed isId owns ?_
      show Database.shelf job t path = some text
      rwa [Database.shelf, if_pos owns]

namespace Directory

open Files

variable {root p q : Path} {t : Tree}

theorem documentFile?_keyOf (hj : Job.isId job) (ho : Job.owns job path) (root : Path) :
    documentFile? root (keyOf job path) = target? root job path := by
  rcases Job.owns_iff.mp ho with rfl | hin
  · have hproper : ∀ s ∈ ["overviews"] ++ [job], Path.IsProper s := by
      simpa using ⟨⟨⟨by decide, by decide⟩, by decide, by decide⟩, isProper_id hj⟩
    have hpath : (Keyed.overviewStart ++ job).toList =
        (["overviews"] ++ [job]).flatMap fun s => '/' :: s.toList := by
      simp [Keyed.overviewStart, String.toList_append]
    rw [keyOf_overview, target?_overview hj, documentFile?_of_proper hproper hpath, overviews]
  · rw [keyOf_inTree hin, target?_eq_documentFile? hin]

theorem file_of_isKey (h : IsKey puts key) (root : Path) :
    ∃ q, documentFile? root key = some q ∧ Within root q := by
  cases h with
  | combined => exact ⟨_, documentFile?_overviewPath, within_combinedFile⟩
  | filed isId owns =>
    obtain ⟨q, htarget, hplace⟩ := target?_of_owns isId owns root
    exact ⟨q, (documentFile?_keyOf isId owns root).trans htarget, hplace.area.within⟩

/-- No two keys have the same file. -/
theorem eq_of_isKey (h : IsKey puts key) (h' : IsKey puts key')
    (hfile : documentFile? root key = documentFile? root key') : key = key' := by
  have hcombined {job path : String} (isId : Job.isId job) (owns : Job.owns job path)
      (he : documentFile? root (keyOf job path) = documentFile? root Job.overviewPath) : False := by
    obtain ⟨q, htarget, hplace⟩ := target?_of_owns isId owns root
    rw [documentFile?_keyOf isId owns, htarget, documentFile?_overviewPath, Option.some.injEq] at he
    exact not_area_combinedFile isId (he ▸ hplace.area)
  cases h with
  | combined =>
    cases h' with
    | combined => rfl
    | filed isId' owns' => exact (hcombined isId' owns' hfile.symm).elim
  | @filed job path isId owns =>
    cases h' with
    | combined => exact (hcombined isId owns hfile).elim
    | @filed job' path' isId' owns' =>
      rw [documentFile?_keyOf isId owns, documentFile?_keyOf isId' owns'] at hfile
      obtain ⟨q, htarget, hplace⟩ := target?_of_owns isId owns root
      obtain ⟨q', htarget', hplace'⟩ := target?_of_owns isId' owns' root
      obtain rfl : q = q' := Option.some.inj (htarget.symm.trans (hfile.trans htarget'))
      obtain rfl := hplace.area.job_eq isId isId' hplace'.area
      rw [target?_inj isId owns owns' hfile]

/-- In a directory a text is kept under a key where it stands in the file of the key. -/
theorem has_contents_iff : (contents root t).Has key text ↔
    IsKey (fun _ _ => True) key ∧ ∃ q, documentFile? root key = some q ∧ text? t q = some text := by
  constructor
  · intro h
    refine ⟨h.isKey, ?_⟩
    obtain kept | @⟨job, path, _, isId, owns, kept⟩ := h
    · exact ⟨_, documentFile?_overviewPath, kept⟩
    · change shelf root job t path = some text at kept
      rw [shelf, if_pos owns, Option.bind_eq_some_iff] at kept
      obtain ⟨q, htarget, htext⟩ := kept
      exact ⟨q, (documentFile?_keyOf isId owns root).trans htarget, htext⟩
  · rintro ⟨isKey, q, hfile, htext⟩
    cases isKey with
    | combined =>
      obtain rfl := Option.some.inj (documentFile?_overviewPath.symm.trans hfile)
      exact .combined htext
    | @filed job path isId owns =>
      refine .filed isId owns ?_
      rw [documentFile?_keyOf isId owns] at hfile
      show shelf root job t path = some text
      rw [shelf, if_pos owns, hfile, Option.bind_some, htext]

theorem resolve_of_documentFile? (h : documentFile? root path = some q) :
    Path.resolve root (String.ofList (path.toList.dropWhile (· == '/')) ++ ending) = q := by
  unfold documentFile? at h
  dsimp only at h
  split at h
  · exact Option.some.inj h
  · cases h

theorem plain_documentFile? (hroot : ∀ s ∈ root, Path.IsPlain s)
    (h : documentFile? root path = some q) : ∀ s ∈ q, Path.IsPlain s :=
  resolve_of_documentFile? h ▸ Path.plain_resolve hroot _

theorem ends_documentFile? (h : documentFile? root path = some q) : Ends q := by
  have hfile := resolve_of_documentFile? h
  generalize String.ofList (path.toList.dropWhile (· == '/')) = relative at hfile
  -- the ending has no slash, so that it goes to the last segment, which neither stays nor goes up
  have hending : '/' ∉ ending.toList := by decide
  obtain ⟨init, last, hsplit⟩ := Text.splitList_append_part hending relative.toList
  have hlast : String.ofList (last ++ ending.toList) = String.ofList last ++ ending := by
    rw [String.ofList_append, String.ofList_toList]
  have hne : String.ofList last ++ ending ≠ "" := append_ending_ne (by decide)
  have hkept : [String.ofList last ++ ending].filter (· ≠ "") = [String.ofList last ++ ending] :=
    List.filter_cons_of_pos (decide_eq_true hne)
  have hsegments : Path.segments (relative ++ ending) =
      (init.map String.ofList).filter (· ≠ "") ++ [String.ofList last ++ ending] := by
    rw [Path.segments, Text.split, String.toList_append, hsplit, List.map_append, List.filter_append,
      List.map_singleton, hlast, hkept]
  have hplain := plain_append_ending (String.ofList last)
  rw [← hfile, Path.resolve, hsegments, List.foldl_append, List.foldl_cons, List.foldl_nil, Path.go,
    if_neg hplain.1, if_neg hplain.2]
  exact ⟨_, _, rfl⟩

end Directory

end ArchiveKeeper.Store
