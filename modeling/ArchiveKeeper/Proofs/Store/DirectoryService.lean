import ArchiveKeeper.Proofs.Store.Service
import ArchiveKeeper.Proofs.Store.DirectoryInvariant

namespace ArchiveKeeper.Store.Directory

open Files Files.Tree

variable {root q : Path} {job path json : String} {t t' : Tree} {c : Contents}

def contents (root : Path) (t : Tree) : Contents :=
  ⟨fun job => shelf root job t, text? t (combinedFile root)⟩

def Keeping (root : Path) (c : Contents) (t : Tree) : Prop :=
  Tidy root t ∧ c.Alike (contents root t)

/-- What a request names is within the limits of the file system, and the paths of documents are
clear. -/
def Allows (root : Path) : Request → Prop
  | .put job path _ => Clear path ∧
    (Job.owns job path → ∀ q, target? root job path = some q → Fits q)
  | .get path => Clear path ∧ ∀ q, documentFile? root path = some q →
    accept (Path.text q) = .ok () ∧ ∀ s ∈ q, Text.byteCount s ≤ longestName
  | .holds job => accept (Path.text (overviewFile root job)) = .ok ()
  | .publish _ => Fits (combinedFile root)
  | .reset | .delete _ | .deleteOverview _ | .listOverviews => True

theorem get_eq (hready : Ready root t) (hq : Within root q) (hfile : documentFile? root path = some q)
    (hplain : ∀ s ∈ q, Path.IsPlain s) (hshort : ∀ s ∈ q, Text.byteCount s ≤ longestName)
    (hacc : accept (Path.text q) = .ok ())
    (habove : ∀ r, r <+: q → r ≠ q → t.node? r = none ∨ t.node? r = some .directory)
    (hd : t.node? q ≠ some .directory) : Directory.get root path t = .ok (text? t q) := by
  have hread : t.read q = (text? t q).elim (.error .notFound) .ok := by
    rw [text?, Tree.read]
    cases hn : t.node? q with
    | none =>
      have hway (r : Path) (hr : r <+: q) : t.node? r = none ∨ t.node? r = some .directory := by
        by_cases hrq : r = q
        · exact .inl (hrq ▸ hn)
        · exact habove r hr hrq
      rw [find_of_missing hplain hshort hacc hway hn]
      rfl
    | some n =>
      rw [(hready.reaches q hq (by simp [hn])).find, hn]
      cases n with
      | directory => exact absurd hn hd
      | file => rfl
      | database table => exact absurd hn (hready.texts q hq table)
  rw [Directory.get, hfile]
  dsimp only
  rw [hread]
  cases text? t q <;> rfl

theorem Neat.ascending (h : Neat root t) (hroot : ∀ s ∈ root, Path.IsPlain s)
    (hdistinct : Distinct (overviews root) t) :
    ∃ os, Directory.listOverviews root t = .ok os ∧ os.Pairwise (fun o o' => o.job < o'.job) ∧
      ∀ o, o ∈ os ↔ Job.isId o.job ∧ shelf root o.job t Job.overviewPath = some o.json := by
  obtain ⟨os, hos, hsub, hmem⟩ := listOverviews_spec hroot h.ready
  obtain ⟨os', hos', hids, -⟩ := h.listed hroot
  obtain rfl : os' = os := Except.ok.inj (hos'.symm.trans hos)
  refine ⟨os', hos, ?_, fun o => ?_⟩
  · have hnames := hdistinct.pairwise_entries_lt.sublist hsub
    exact (List.pairwise_map.mp hnames).imp_of_mem fun ho ho' hlt =>
      lt_of_append_ending_lt (hids _ ho) (hids _ ho') hlt
  · constructor
    · exact fun ho => ⟨hids o ho, (hmem o.job (hids o ho) o.json).mp ho⟩
    · rintro ⟨hj, ho⟩
      exact (hmem o.job hj o.json).mpr ho

theorem owns_of_filed (h : shelf root job t path ≠ none) : Job.owns job path := by
  by_contra hno
  exact h (if_neg hno)

/-- Where a job has filed something, one of the paths is there at which it is looked for. -/
theorem there_of_filed (hj : Job.isId job) (hready : Ready root t)
    (h : shelf root job t path ≠ none) :
    ∃ p ∈ [overviews root ++ [job ++ ending], jobs root ++ [job], jobs root ++ [job ++ ending]],
      t.node? p ≠ none := by
  have ho := owns_of_filed h
  obtain ⟨q, htarget, hq⟩ := target?_of_owns hj ho root
  rw [shelf, if_pos ho, htarget, Option.bind_some] at h
  have hn : t.node? q ≠ none := by
    intro hn
    exact h (by rw [text?, hn])
  cases hq.area with
  | overview => exact ⟨_, by simp, hn⟩
  | document => exact ⟨_, by simp, hn⟩
  | below q' =>
    refine ⟨jobs root ++ [job], by simp, ?_⟩
    by_cases he : q' = []
    · rwa [he] at hn
    have hreach := hready.reaches _ hq.area.within hn
    have hdir := hreach.above (jobs root ++ [job])
      ((List.prefix_append_right_inj _).mpr (by simp)) (by simpa using he)
    simp [hdir]

namespace Tidy

theorem get_inTree (h : Tidy root t) (hroot : ∀ s ∈ root, Path.IsPlain s) (hj : Job.isId job)
    (hin : Job.InTree job path) (hallows : Allows root (.get path)) :
    Directory.get root path t = .ok (shelf root job t path) := by
  obtain ⟨hclear, hlimits⟩ := hallows
  obtain ⟨q, htarget, hq⟩ := target?_of_owns hj hin.1 root
  obtain ⟨habove, hd⟩ := h.clearance hj hin.1 hclear htarget hq
  have hfile : documentFile? root path = some q := by
    rw [← target?_eq_documentFile? hin, htarget]
  obtain ⟨hacc, hshort⟩ := hlimits q hfile
  rw [shelf, if_pos hin.1, htarget, Option.bind_some]
  exact get_eq h.ready hq.area.within hfile (hq.plain hroot) hshort hacc
    (fun r hr hne => habove r (Path.prefix_dropLast hr hne)) hd

theorem get_overviewPath (h : Tidy root t) (hroot : ∀ s ∈ root, Path.IsPlain s)
    (hallows : Allows root (.get Job.overviewPath)) :
    Directory.get root Job.overviewPath t = .ok (text? t (combinedFile root)) := by
  obtain ⟨hacc, hshort⟩ := hallows.2 _ documentFile?_overviewPath
  refine get_eq h.ready within_combinedFile documentFile?_overviewPath (plain_combinedFile hroot)
    hshort hacc (fun r hr hne => ?_) h.combined
  exact .inr (h.ready.above (.inl ((List.prefix_concat_iff.mp hr).resolve_left hne)))

/-- Something of a job is found exactly if there is something on its shelf. -/
theorem holds_iff (h : Tidy root t) (hroot : ∀ s ∈ root, Path.IsPlain s) (hj : Job.isId job)
    (hacc : accept (Path.text (overviewFile root job)) = .ok ()) :
    ∃ found, Directory.holds root job t = .ok found ∧
      (found ↔ ∃ path, shelf root job t path ≠ none) := by
  refine ⟨_, holds_eq hj h.ready hacc, ?_⟩
  rw [List.any_eq_true]
  constructor
  · rintro ⟨p, hp, hn⟩
    rw [Option.isSome_iff_ne_none] at hn
    obtain ⟨path, q, ho, htarget, htext, -⟩ := h.filed job p hj (plain_area hroot hj hp).2 hn
    refine ⟨path, ?_⟩
    rwa [shelf, if_pos ho, htarget, Option.bind_some]
  · rintro ⟨path, hpath⟩
    obtain ⟨p, hp, hn⟩ := there_of_filed hj h.ready hpath
    exact ⟨p, hp, Option.isSome_iff_ne_none.mpr hn⟩

theorem listed (h : Tidy root t) (hroot : ∀ s ∈ root, Path.IsPlain s) :
    ∃ os, Directory.listOverviews root t = .ok os ∧ os.Pairwise (fun o o' => o.job < o'.job) ∧
      ∀ o, o ∈ os ↔ Job.isId o.job ∧ shelf root o.job t Job.overviewPath = some o.json :=
  h.neat.ascending hroot h.distinct

end Tidy

theorem keeping_empty (hready : Ready root t)
    (hempty : ∀ q, Within root q → q ≠ jobs root → q ≠ overviews root → t.node? q = none) :
    Keeping root .empty t := by
  have htidy := Tidy.of_empty hready hempty
  refine ⟨htidy, fun job hj => ?_, ?_⟩
  · exact shelf_of_bare hj fun q hq => hempty q hq.within hq.ne_directory.1 hq.ne_directory.2
  · show text? t (combinedFile root) = none
    rw [text?, hempty _ within_combinedFile combinedFile_ne.1 combinedFile_ne.2]

/-- Where the overview of a job was taken out, it is off the shelf. -/
theorem shelf_drop_overview (hj : Job.isId job) (h : ∀ q, t'.node? q =
    if q = overviews root ++ [job ++ ending] then none else t.node? q) :
    shelf root job t' = (shelf root job t).drop Job.overviewPath := by
  have htext (q : Path) : text? t' q =
      if q = overviews root ++ [job ++ ending] then none else text? t q := by
    have hnode := h q
    by_cases hq : q = overviews root ++ [job ++ ending]
    · rw [if_pos hq] at hnode ⊢
      rw [text?, hnode]
    · rw [if_neg hq] at hnode ⊢
      exact text?_congr hnode
  funext path
  rw [Shelf.drop, shelf, shelf]
  by_cases ho : Job.owns job path
  · obtain ⟨q, htarget, -⟩ := target?_of_owns hj ho root
    have hq : q = overviews root ++ [job ++ ending] ↔ path = Job.overviewPath := by
      rw [← Option.some.injEq, ← htarget, ← target?_overview hj root]
      constructor
      · exact target?_inj hj ho Job.owns_overviewPath
      · exact fun he => he ▸ rfl
    simp only [if_pos ho, htarget, Option.bind_some, htext, hq]
  · simp only [if_neg ho, ite_self]

theorem shelf_deleteOverview (hroot : ∀ s ∈ root, Path.IsPlain s) (hj : Job.isId job)
    (hready : Ready root t) : shelf root job (Directory.deleteOverview root job t).2 =
      (shelf root job t).drop Job.overviewPath :=
  shelf_drop_overview hj (node?_deleteOverview hroot hj hready)

theorem Keeping.of_area {s : Shelf} (h : Keeping root c t) (hj : Job.isId job)
    (htidy : Tidy root t') (hsame : ∀ q, ¬ Area root job q → t'.node? q = t.node? q)
    (hjob : shelf root job t' = s) : Keeping root (c.stock job s) t' := by
  refine ⟨htidy, h.2.stock hjob (fun job' hj' hne => ?_) ?_⟩
  · apply shelf_congr hj'
    exact fun q hq => hsame q fun ha => hne (hq.job_eq hj' hj ha)
  · exact text?_congr (hsame _ (not_area_combinedFile hj))

end ArchiveKeeper.Store.Directory

namespace ArchiveKeeper.Store

open Directory Files

section Serving

variable {root : Path} {c : Contents} {t : Tree} {request : Request}
  (hroot : ∀ s ∈ root, Path.IsPlain s)

include hroot

theorem Directory.Keeping.gives (h : Keeping root c t) (hproper : request.Proper)
    (hallows : Allows root request) : c.Gives request ((directory root).ask t request).1 := by
  obtain ⟨htidy, halike⟩ := h
  cases request with
  | reset =>
    obtain ⟨t', hreset, -⟩ := reset_of_ready hroot htidy.ready
    simp only [ask, directory_reset, hreset]
    exact .reset
  | put job path json =>
    obtain ⟨hclear, hfits⟩ := hallows
    rw [ask, directory_put]
    by_cases ho : Job.owns job path
    · rw [htidy.outcome_put hroot hproper ho hclear (hfits ho) json]
      exact .put json ho
    · rw [Directory.put, if_neg ho]
      exact .refuse json ho
  | get path =>
    simp only [ask, directory]
    rcases Request.Proper.get hproper with rfl | ⟨job, hj, hin⟩
    · have hcombined : text? t (combinedFile root) = c.combined := halike.combined
      rw [htidy.get_overviewPath hroot hallows, hcombined]
      exact .combined
    · have hshelf : shelf root job t path = c.shelf job path := by
        rw [← halike.shelf job hj]
        rfl
      rw [htidy.get_inTree hroot hj hin hallows, hshelf]
      exact .document hj hin
  | delete job =>
    rw [ask, outcome_delete]
    exact .delete job
  | deleteOverview job =>
    rw [ask, outcome_deleteOverview]
    exact .deleteOverview job
  | holds job =>
    obtain ⟨found, hfound, hiff⟩ := htidy.holds_iff hroot hproper hallows
    rw [ask, outcome_holds, hfound]
    refine .holds (hiff.trans ?_)
    rw [← halike.shelf job hproper]
    rfl
  | listOverviews =>
    obtain ⟨os, hos, hascending, hmem⟩ := htidy.listed hroot
    simp only [ask, directory, hos]
    refine .listOverviews hascending fun o => (hmem o).trans (and_congr_right fun hj => ?_)
    rw [← halike.shelf o.job hj]
    rfl
  | publish json =>
    obtain ⟨hok, -⟩ := htidy.publish hroot hallows json
    rw [ask, directory_publish, hok]
    exact .publish json

theorem Directory.Keeping.after (h : Keeping root c t) (hproper : request.Proper)
    (hallows : Allows root request) :
    Keeping root (c.after request) ((directory root).ask t request).2 := by
  have hready : Ready root t := h.1.ready
  have hfiled (job : String) (hj : Job.isId job) : shelf root job t = c.shelf job :=
    h.2.shelf job hj
  cases request with
  | reset =>
    obtain ⟨t', hreset, hready', hempty⟩ := reset_of_ready hroot hready
    simp only [ask, directory_reset, hreset]
    exact keeping_empty hready' hempty
  | put job path json =>
    obtain ⟨hclear, hfits⟩ := hallows
    rw [ask, directory_put]
    by_cases ho : Job.owns job path
    · have hok := h.1.outcome_put hroot hproper ho hclear (hfits ho) json
      have htidy := h.1.put hroot hproper ho hclear (hfits ho) json
      obtain ⟨-, hsame⟩ := ready_put hroot hproper path json hready
      have hfile := (directory_keeps hroot).filed job path json t hproper hready
      rw [directory_put] at hfile
      rw [Contents.after, if_pos ho, ← hfiled job hproper]
      exact h.of_area hproper htidy hsame (hfile hok)
    · rw [Directory.put, if_neg ho, Contents.after, if_neg ho]
      exact h
  | get path => exact h
  | delete job =>
    obtain ⟨-, hsame, hnone⟩ := ready_delete hroot hproper hready
    rw [ask, directory_delete]
    exact h.of_area hproper (h.1.delete hroot hproper) hsame (shelf_of_bare hproper hnone)
  | deleteOverview job =>
    have hthin := thinned_deleteOverview hroot hproper hready
    rw [ask, directory_deleteOverview, Contents.after, ← hfiled job hproper]
    exact h.of_area hproper (h.1.deleteOverview hroot hproper) (fun q => hthin.same)
      (shelf_deleteOverview hroot hproper hready)
  | holds job => exact h
  | listOverviews => exact h
  | publish json =>
    obtain ⟨hok, htidy⟩ := h.1.publish hroot hallows json
    obtain ⟨-, hsame, htext⟩ := ready_publish hroot hready json
    rw [ask, directory_publish]
    refine ⟨htidy, fun job hj => ?_, htext hok⟩
    refine (shelf_congr hj fun q hq => hsame q ?_).trans (hfiled job hj)
    rintro rfl
    exact not_area_combinedFile hj hq

/-- A directory serves its contents, as far as it allows for the requests. -/
theorem directory_serves : Serves (directory root) (Keeping root) (Allows root) where
  answer _ _ _ h hproper hallows := h.gives hroot hproper hallows
  after _ _ _ h hproper hallows := h.after hroot hproper hallows

end Serving

end ArchiveKeeper.Store
