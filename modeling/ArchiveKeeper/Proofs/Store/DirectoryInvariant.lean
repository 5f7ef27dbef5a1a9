import ArchiveKeeper.Proofs.Files.Listing
import ArchiveKeeper.Proofs.Store.Placement
import ArchiveKeeper.Proofs.Store.Publication

namespace ArchiveKeeper.Store.Directory

open Files Files.Tree

variable {root q r : Path} {job job' path : String} {t t' : Tree}

theorem combinedFile_ne : combinedFile root ≠ jobs root ∧ combinedFile root ≠ overviews root := by
  constructor
  · simp [combinedFile]
  · exact fun he => jobs_append_ne (he.trans (List.append_nil _).symm)

def Ends (q : Path) : Prop := ∃ p name, q = p ++ [name ++ ending]

/-- No segment of a path but the last one is like the name of a file. -/
def Clear (path : String) : Prop := ∀ s ∈ (Text.split '/' path).dropLast, withoutEnding? s = none

/-- On the way to what there is of a job, there is nothing of any other. -/
theorem Area.of_prefix (hq : Area root job q) (hr : r <+: q) (ha : Area root job' r) :
    Area root job r := by
  have hchild {p : Path} {s : String} (hle : r <+: p ++ [s]) (hp : Above root p) : r = p ++ [s] := by
    refine (List.prefix_concat_iff.mp hle).resolve_right fun hrp => Above.not_area ?_ ha
    exact hp.imp hrp.trans hrp.trans
  cases hq with
  | overview => exact hchild hr (.inr (List.prefix_refl _)) ▸ .overview
  | document => exact hchild hr (.inl (List.prefix_refl _)) ▸ .document
  | below q' =>
    rcases prefix_jobs_append hr with hle | ⟨s, r', rfl, hle⟩
    · exact absurd ha (Above.not_area (.inl hle))
    · rw [(List.cons_prefix_cons.mp hle).1]
      exact .below r'

theorem ends_target (hj : Job.isId job) (ho : Job.owns job path)
    (htarget : target? root job path = some q) : Ends q := by
  rcases Job.owns_iff.mp ho with rfl | hin
  · rw [target?_overview hj, Option.some.injEq] at htarget
    exact ⟨_, _, htarget.symm⟩
  · obtain ⟨dirs, name, -, hq, -⟩ := target?_of_inTree hj hin root
    rw [hq, Option.some.injEq] at htarget
    exact ⟨_, _, htarget.symm⟩

/-- On the way to the file of a clear path, no directory of the job has the name of a file. -/
theorem not_ends_above (hj : Job.isId job) (ho : Job.owns job path) (hclear : Clear path)
    (htarget : target? root job path = some q) (hr : r <+: q.dropLast) (ha : Area root job' r) :
    ¬ Ends r := by
  rintro ⟨p, n, rfl⟩
  rcases Job.owns_iff.mp ho with rfl | hin
  · rw [target?_overview hj, Option.some.injEq] at htarget
    rw [← htarget, List.dropLast_concat] at hr
    exact Above.not_area (.inr hr) ha
  obtain ⟨dirs, name, -, hq, hpath, hproper, -⟩ := target?_of_inTree hj hin root
  rw [hq, Option.some.injEq] at htarget
  rw [← htarget, List.dropLast_concat] at hr
  -- the directories of the job are segments of the path
  have hdir : n ++ ending ∈ dirs := by
    rcases prefix_jobs_append hr with hle | ⟨s, r', he, hle⟩
    · exact absurd ha (Above.not_area (.inl hle))
    have hlast : (s :: r').getLast? = some (n ++ ending) := by
      rw [← List.getLast?_append_cons (jobs root), ← he, List.getLast?_concat]
    exact hle.subset (List.mem_of_getLast? hlast)
  have hwhole : ∀ s ∈ "jobs" :: dirs ++ [name], '/' ∉ s.toList := by
    intro s hs
    rcases List.mem_cons.mp hs with rfl | hs
    · decide
    · exact (hproper s hs).whole
  have hsplit : (Text.split '/' path).dropLast = "" :: "jobs" :: dirs := by
    rw [Path.split_flatMap hwhole hpath, ← List.cons_append, List.dropLast_concat]
  have hnone := hclear (n ++ ending) (by rw [hsplit]; simp [hdir])
  rw [withoutEnding?_eq_some_iff.mpr rfl] at hnone
  cases hnone

theorem node?_deleteOverview (hroot : ∀ s ∈ root, Path.IsPlain s) (hj : Job.isId job)
    (hready : Ready root t) (q : Path) : (Directory.deleteOverview root job t).2.node? q =
      if q = overviews root ++ [job ++ ending] then none else t.node? q := by
  rw [Directory.deleteOverview, attempt_tree, overviewFile_eq hj]
  exact node?_remove_overview hroot hj hready q

theorem thinned_deleteOverview (hroot : ∀ s ∈ root, Path.IsPlain s) (hj : Job.isId job)
    (hready : Ready root t) : Thinned root job t (Directory.deleteOverview root job t).2 := by
  have hnodes := node?_deleteOverview hroot hj hready
  set t' := (Directory.deleteOverview root job t).2
  refine ⟨fun q => ?_, fun q r hle hn hnone => ?_⟩
  · rw [hnodes]
    split
    · rename_i hq
      exact .inr ⟨hq ▸ .overview, rfl⟩
    · exact .inl rfl
  · -- there is nothing below a file
    obtain rfl : q = overviews root ++ [job ++ ending] := by
      by_contra hq
      rw [hnodes, if_neg hq] at hnone
      exact hn hnone
    rw [hnodes]
    split
    · rfl
    · rename_i hr
      by_contra hsome
      have hwithin : Within root r := .inr ((List.prefix_append _ _).trans hle)
      have hdir := (hready.reaches r hwithin hsome).above _ hle (Ne.symm hr)
      exact hready.overview _ hdir

/-- A directory in which nothing stands but the documents of jobs and the combined overview. -/
structure Tidy (root : Path) (t : Tree) : Prop where
  neat : Neat root t
  distinct : Distinct (overviews root) t
  combined : t.node? (combinedFile root) ≠ some .directory
  /-- Files have the names of files, and directories have not. -/
  named : ∀ job q, Job.isId job → Area root job q → t.node? q ≠ none →
    (t.node? q = some .directory ↔ ¬ Ends q)
  /-- All that there is of a job is a document, or on the way to one. -/
  filed : ∀ job q, Job.isId job → Area root job q → t.node? q ≠ none →
    ∃ path p, Job.owns job path ∧ target? root job path = some p ∧ text? t p ≠ none ∧ q <+: p

theorem distinct_replaceFile {p : Path} {content : String} (h : Distinct p t) :
    Distinct p (replaceFile t q content).2 := by
  have hmade := h.makeDirectories q.dropLast
  unfold replaceFile
  split <;> rename_i heq <;> rw [heq] at hmade
  · exact hmade
  · exact hmade.replace q content

theorem neat_delete (hroot : ∀ s ∈ root, Path.IsPlain s) (hj : Job.isId job) (h : Neat root t) :
    Neat root (Directory.delete root job t).2 := by
  obtain ⟨hready, hsame, -⟩ := ready_delete hroot hj h.ready
  exact (leaves_of_area hroot hj (fun _ => ⟨hready, hsame⟩) h).1

theorem distinct_delete {p : Path} (hj : Job.isId job) (h : Distinct p t) :
    Distinct p (Directory.delete root job t).2 := by
  rw [delete_tree hj]
  exact ((h.remove _).removeAll _).remove _

namespace Tidy

theorem ready (h : Tidy root t) : Ready root t := h.neat.ready

theorem of_empty (hready : Ready root t)
    (hempty : ∀ q, Within root q → q ≠ jobs root → q ≠ overviews root → t.node? q = none) :
    Tidy root t := by
  have harea {job : String} {q : Path} (hq : Area root job q) : t.node? q = none :=
    hempty q hq.within hq.ne_directory.1 hq.ne_directory.2
  have hentry (name : String) : t.node? (overviews root ++ [name]) = none := by
    apply hempty _ (.inr (List.prefix_append _ _))
    · exact fun he => jobs_append_ne ((List.append_nil _).trans he.symm)
    · simp
  have hcombined : t.node? (combinedFile root) = none :=
    hempty _ within_combinedFile combinedFile_ne.1 combinedFile_ne.2
  exact
    { neat := ⟨hready, fun name hn => absurd (hentry name) hn⟩
      distinct := distinct_of_no_entry hentry
      combined := by simp [hcombined]
      named := fun job q _ hq hn => absurd (harea hq) hn
      filed := fun job q _ hq hn => absurd (harea hq) hn }

/-- A file of a clear path is not in the way of any other. -/
theorem clearance (h : Tidy root t) (hj : Job.isId job) (ho : Job.owns job path)
    (hclear : Clear path) (htarget : target? root job path = some q) (hq : Place root job q) :
    (∀ r, r <+: q.dropLast → t.node? r = none ∨ t.node? r = some .directory) ∧
      t.node? q ≠ some .directory := by
  constructor
  · intro r hr
    rcases hq.above r hr with ha | ha | ⟨r', rfl⟩
    · exact .inr (h.ready.above (.inl ha))
    · exact .inr (h.ready.above (.inr ha))
    · by_cases hn : t.node? (jobs root ++ job :: r') = none
      · exact .inl hn
      · have harea : Area root job (jobs root ++ job :: r') := .below r'
        exact .inr ((h.named job _ hj harea hn).mpr (not_ends_above hj ho hclear htarget hr harea))
  · intro hd
    have hn : t.node? q ≠ none := by simp [hd]
    exact (h.named job q hj hq.area hn).mp hd (ends_target hj ho htarget)

theorem outcome_put (h : Tidy root t) (hroot : ∀ s ∈ root, Path.IsPlain s) (hj : Job.isId job)
    (ho : Job.owns job path) (hclear : Clear path)
    (hfits : ∀ q, target? root job path = some q → Fits q) (json : String) :
    (Directory.put root job path json t).1 = .ok () := by
  obtain ⟨q, htarget, hq⟩ := target?_of_owns hj ho root
  obtain ⟨habove, hd⟩ := h.clearance hj ho hclear htarget hq
  exact (put_ok_iff hroot hj h.ready).mpr
    ⟨ho, q, htarget, hfits q htarget, fun r hr _ => habove r hr, hd⟩

theorem put (h : Tidy root t) (hroot : ∀ s ∈ root, Path.IsPlain s) (hj : Job.isId job)
    (ho : Job.owns job path) (hclear : Clear path)
    (hfits : ∀ q, target? root job path = some q → Fits q) (json : String) :
    Tidy root (Directory.put root job path json t).2 := by
  have hok := h.outcome_put hroot hj ho hclear hfits json
  obtain ⟨q, htarget, hq, hput⟩ := put_of_owns root json t hj ho
  have hends := ends_target hj ho htarget
  have hnodes := node?_put hroot hj ho htarget hok
  obtain ⟨hready', hothers⟩ := ready_put hroot hj path json h.ready
  have htexts := text?_put hroot hj ho htarget h.ready hok
  have hdistinct : Distinct (overviews root) (Directory.put root job path json t).2 := by
    rw [hput]
    exact distinct_replaceFile h.distinct
  set t' := (Directory.put root job path json t).2
  have hneat : Neat root t' := (leaves_of_area hroot hj (fun _ => ⟨hready', hothers⟩) h.neat).1
  refine ⟨hneat, hdistinct, ?combined, ?named, ?filed⟩
  case combined =>
    rw [hothers _ (not_area_combinedFile hj)]
    exact h.combined
  case named =>
    intro job' p hj' hp hn
    rw [hnodes] at hn ⊢
    split at hn
    · rename_i hpq
      simp [hpq, hends]
    split at hn
    · rename_i hpq hle
      simp [hpq, hle, not_ends_above hj ho hclear htarget hle hp]
    · rename_i hpq hle
      rw [if_neg hpq, if_neg hle]
      exact h.named job' p hj' hp hn
  case filed =>
    intro job' p hj' hp hn
    by_cases hpq : p = q ∨ p <+: q.dropLast
    · -- this is of the document that was put
      have hle : p <+: q := by
        rcases hpq with rfl | hle
        · exact List.prefix_refl _
        · exact hle.trans (List.dropLast_prefix q)
      obtain rfl : job' = job := hp.job_eq hj' hj (hq.area.of_prefix hle hp)
      exact ⟨path, q, ho, htarget, by simp [htexts], hle⟩
    · rw [not_or] at hpq
      rw [hnodes, if_neg hpq.1, if_neg hpq.2] at hn
      obtain ⟨path', p', ho', htarget', htext, hle⟩ := h.filed job' p hj' hp hn
      refine ⟨path', p', ho', htarget', ?_, hle⟩
      rw [htexts]
      split
      · simp
      · exact htext

/-- Where what was taken out took with it all on the way to it, the rest is tidy. -/
theorem without (h : Tidy root t) (gone : Path → Prop) (hneat : Neat root t')
    (hdistinct : Distinct (overviews root) t')
    (hcombined : t'.node? (combinedFile root) ≠ some .directory)
    (hgone : ∀ q, gone q → t'.node? q = none)
    (hkept : ∀ job q, Job.isId job → Area root job q → ¬ gone q → t'.node? q = t.node? q)
    (hway : ∀ job p q, Job.isId job → Area root job q → q <+: p → gone p → gone q) :
    Tidy root t' := by
  have hstays {job : String} {q : Path} (hj : Job.isId job) (hq : Area root job q)
      (hn : t'.node? q ≠ none) : ¬ gone q ∧ t'.node? q = t.node? q := by
    have hng : ¬ gone q := fun hg => hn (hgone q hg)
    exact ⟨hng, hkept job q hj hq hng⟩
  refine ⟨hneat, hdistinct, hcombined, fun job q hj hq hn => ?_, fun job q hj hq hn => ?_⟩
  · obtain ⟨-, he⟩ := hstays hj hq hn
    rw [he] at hn ⊢
    exact h.named job q hj hq hn
  · obtain ⟨hng, he⟩ := hstays hj hq hn
    rw [he] at hn
    obtain ⟨path, p, ho, htarget, htext, hle⟩ := h.filed job q hj hq hn
    refine ⟨path, p, ho, htarget, ?_, hle⟩
    have hp : ¬ gone p := fun hg => hng (hway job p q hj hq hle hg)
    rwa [text?_congr (hkept job p hj (place_of_target hj ho htarget).area hp)]

theorem delete (h : Tidy root t) (hroot : ∀ s ∈ root, Path.IsPlain s) (hj : Job.isId job) :
    Tidy root (Directory.delete root job t).2 := by
  obtain ⟨-, hsame, hnone⟩ := ready_delete hroot hj h.ready
  refine h.without (Area root job) (neat_delete hroot hj h.neat) (distinct_delete hj h.distinct) ?_
    hnone (fun _ q _ _ => hsame q) ?_
  · rw [hsame _ (not_area_combinedFile hj)]
    exact h.combined
  · intro job' p q _ hq hle hp
    exact hp.of_prefix hle hq

theorem deleteOverview (h : Tidy root t) (hroot : ∀ s ∈ root, Path.IsPlain s) (hj : Job.isId job) :
    Tidy root (Directory.deleteOverview root job t).2 := by
  have hthin := thinned_deleteOverview hroot hj h.ready
  have hnodes := node?_deleteOverview hroot hj h.ready
  refine h.without (· = overviews root ++ [job ++ ending]) ?_ ?_ ?_ ?_ ?_ ?_
  · exact (leaves_of_area hroot hj (fun _ => ⟨h.ready.thin hthin, fun _ => hthin.same⟩) h.neat).1
  · rw [Directory.deleteOverview, attempt_tree]
    exact h.distinct.remove _
  · rw [hthin.same (not_area_combinedFile hj)]
    exact h.combined
  · exact fun q hq => (hnodes q).trans (if_pos hq)
  · exact fun _ q _ _ hq => (hnodes q).trans (if_neg hq)
  · rintro job' p q hj' hq hle rfl
    -- above the overview is nothing of any job
    refine (List.prefix_concat_iff.mp hle).resolve_right fun hdir => ?_
    exact Above.not_area (.inr hdir) hq

theorem publish (h : Tidy root t) (hroot : ∀ s ∈ root, Path.IsPlain s)
    (hfits : Fits (combinedFile root)) (json : String) :
    (replaceFile t (combinedFile root) json).1 = .ok () ∧
      Tidy root (replaceFile t (combinedFile root) json).2 := by
  have hne : combinedFile root ≠ [] := by simp [combinedFile]
  have hok : (replaceFile t (combinedFile root) json).1 = .ok () := by
    refine (replaceFile_ok_iff hne (plain_combinedFile hroot)).mpr ⟨hfits, fun r hr => ?_, h.combined⟩
    rw [combinedFile, List.dropLast_concat] at hr
    exact .inr (h.ready.above (.inl hr))
  obtain ⟨hready, hsame, htext⟩ := ready_publish hroot h.ready json
  refine ⟨hok, h.without (fun _ => False) ?_ ?_ ?_ (fun _ => False.elim) ?_ ?_⟩
  · refine ⟨hready, fun name hn => h.neat.ofJobs name ?_⟩
    rwa [hsame _ overview_ne_combinedFile] at hn
  · exact distinct_replaceFile h.distinct
  · rw [node?_replaceFile hne (plain_combinedFile hroot) hok, if_pos rfl]
    simp
  · intro job q hj hq _
    apply hsame
    rintro rfl
    exact not_area_combinedFile hj hq
  · exact fun _ _ _ _ _ _ => False.elim

end Tidy

end ArchiveKeeper.Store.Directory
