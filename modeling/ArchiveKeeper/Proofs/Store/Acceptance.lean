import ArchiveKeeper.Proofs.Store.JobIndependence
import ArchiveKeeper.Proofs.Store.Reached

namespace ArchiveKeeper

namespace Store

variable {σ ρ : Type} {part : σ → ρ} {inner : Store ρ} {outer : Store σ} {w : σ}
  {job path json : String} {spares : String → Prop}

/-- The file of a document is named like a directory on the way to that of another one. -/
def Shadows (path path' : String) : Prop := (path ++ Directory.ending ++ "/").toList <+: path'.toList

def Clash (path path' : String) : Prop := Shadows path path' ∨ Shadows path' path

/-- A document is stored and served. What is read under any other path is what was read before, and
so is what is found, as far as the store spares the paths of the same job. -/
structure Accepts (S : Store ρ) (job path json : String) (spares : String → Prop) (w : ρ) :
    Prop where
  stored : (S.put job path json w).1.outcome = .ok ()
  served : (S.get path (S.put job path json w).2).1.outcome = .ok (some json)
  others : ∀ job' path', Job.isId job' → job' ≠ job → Job.InTree job' path' →
    (S.get path' (S.put job path json w).2).1.outcome = (S.get path' w).1.outcome
  combined : (S.get Job.overviewPath (S.put job path json w).2).1.outcome =
    (S.get Job.overviewPath w).1.outcome
  siblings : ∀ path', Job.InTree job path' → path' ≠ path → spares path' →
    (S.get path' (S.put job path json w).2).1.outcome = (S.get path' w).1.outcome
  read : ∀ path', Job.InTree job path' → path' ≠ path → ∀ text,
    (S.get path' (S.put job path json w).2).1.outcome = .ok (some text) ↔
      (S.get path' w).1.outcome = .ok (some text)

theorem Acts.accepts (h : Acts part inner outer)
    (haccepts : Accepts inner job path json spares (part w)) :
    Accepts outer job path json spares w := by
  have hnext := h.next_put job path json w
  obtain ⟨hstored, hserved, hothers, hcombined, hsiblings, hread⟩ := haccepts
  refine ⟨?_, ?_, fun job' path' => ?_, ?_, fun path' => ?_, fun path' => ?_⟩
  · rwa [h.outcome_put]
  · rwa [h.outcome_get, hnext]
  · rw [h.outcome_get, h.outcome_get, hnext]
    exact hothers job' path'
  · rwa [h.outcome_get, h.outcome_get, hnext]
  · rw [h.outcome_get, h.outcome_get, hnext]
    exact hsiblings path'
  · rw [h.outcome_get, h.outcome_get, hnext]
    exact hread path'

namespace Database

variable {place : Place} {w : World} {t : Table} {c : Contents}

theorem Retains.accepts (h : Retains place c w) (hj : Job.isId job) (hin : Job.InTree job path)
    (json : String) (spares : String → Prop) :
    Accepts (database place) job path json spares w := by
  obtain ⟨t, hholds, -, -⟩ := h
  have hput : Holds place ((database place).put job path json w).2
      (t.insert ⟨path, some job, json⟩) := by
    have hask := hholds.ask (.put job path json)
    rwa [tableAfter, if_pos hin.1, keyOf_inTree hin] at hask
  have hget (path' : String) :
      ((database place).get path' ((database place).put job path json w).2).1.outcome =
        .ok (if path = path' then some json else t.get? path') := by
    rw [hput.outcome_get, Table.get?_insert]
  have hsame {path' : String} (hne : path' ≠ path) :
      ((database place).get path' ((database place).put job path json w).2).1.outcome =
        ((database place).get path' w).1.outcome := by
    rw [hget, if_neg (Ne.symm hne), hholds.outcome_get]
  refine ⟨?_, by rw [hget, if_pos rfl], fun job' path' hj' hne hin' => hsame ?_,
    hsame (Ne.symm hin.2), fun path' _ hne _ => hsame hne, fun path' _ hne text => by rw [hsame hne]⟩
  · exact (Answer.done.inj (answer_of_table hholds.table_eq (.put job path json))).trans
      (if_pos hin.1)
  · rintro rfl
    exact hne (hin'.job_eq hj' hj hin)

end Database

namespace Directory

open Files Files.Tree

variable {root p q : Path} {path' : String} {t t₀ : Tree} {c : Contents}
  {tries : String → List String}

/-- Where the file of one document would stand above that of another one, their paths tell. -/
theorem shadows_of_above (hj : Job.isId job) (ho : Job.owns job path) (ho' : Job.owns job path')
    (htarget : target? root job path = some q) (htarget' : target? root job path' = some p)
    (hle : q <+: p.dropLast) : Shadows path path' := by
  have hplace := place_of_target hj ho htarget
  have hnot {r : Path} (ha : Above root r) (hr : q <+: r) : False :=
    Above.not_area (ha.imp hr.trans hr.trans) hplace.area
  rcases Job.owns_iff.mp ho' with rfl | hin'
  · rw [target?_overview hj, Option.some.injEq] at htarget'
    rw [← htarget', List.dropLast_concat] at hle
    exact (hnot (.inr (List.prefix_refl _)) hle).elim
  obtain ⟨dirs', name', -, hp', hpath', -⟩ := target?_of_inTree hj hin' root
  obtain rfl : _ = p := Option.some.inj (hp'.symm.trans htarget')
  rw [List.dropLast_concat] at hle
  rcases Job.owns_iff.mp ho with rfl | hin
  · -- the overviews stand elsewhere
    rw [target?_overview hj, Option.some.injEq] at htarget
    rcases prefix_jobs_append hle with hr | ⟨s, r, he, -⟩
    · exact (hnot (.inl (List.prefix_refl _)) hr).elim
    · exact absurd (he.symm.trans htarget.symm) jobs_append_ne
  obtain ⟨dirs, name, -, hq, hpath, -⟩ := target?_of_inTree hj hin root
  obtain rfl : _ = q := Option.some.inj (hq.symm.trans htarget)
  rw [List.append_assoc, List.prefix_append_right_inj] at hle
  -- both documents stand below the jobs, the second one below the file of the first
  obtain ⟨rest, rfl⟩ := hle
  obtain ⟨cs, hcs⟩ : ∃ cs, (rest ++ [name']).flatMap (fun s => '/' :: s.toList) = '/' :: cs := by
    cases rest <;> exact ⟨_, rfl⟩
  refine ⟨cs, ?_⟩
  have hlong : path'.toList = path.toList ++ ending.toList ++
      (rest ++ [name']).flatMap (fun s => '/' :: s.toList) := by
    rw [hpath', hpath]
    simp [String.toList_append]
  rw [hlong, hcs, String.toList_append, String.toList_append, List.append_assoc]
  rfl

namespace Orderly

/-- A document that clashes with none of those that its job was to put is accepted, if the system
takes the name of its file. -/
theorem put_ok (h : Orderly root t₀ c tries t) (hroot : ∀ s ∈ root, Path.IsPlain s)
    (hj : Job.isId job) (hin : Job.InTree job path)
    (hfits : ∀ q, documentFile? root path = some q → Fits q)
    (hapart : ∀ path' ∈ tries job, Job.owns job path' → ¬ Clash path path') (json : String) :
    (Directory.put root job path json t).1 = .ok () := by
  obtain ⟨q, htarget, hq⟩ := target?_of_owns hj hin.1 root
  have hfile : documentFile? root path = some q := by rw [← target?_eq_documentFile? hin, htarget]
  refine (put_ok_iff hroot hj h.ready).mpr ⟨hin.1, q, htarget, hfits q hfile, fun r hr ha => ?_,
    fun hd => ?_⟩
  · by_cases hn : t.node? r = none
    · exact .inl hn
    -- a file in the way would be that of a document of the job
    obtain ⟨path', hp', ⟨-, hd⟩ | ⟨ho', htarget', -⟩⟩ := h.stems hj ha hn
    · exact .inr hd
    · exact absurd (.inr (shadows_of_above hj ho' hin.1 htarget' htarget hr)) (hapart path' hp' ho')
  · obtain ⟨path', hp', ⟨⟨ho', p, htarget', hle⟩, -⟩ | ⟨-, -, hno⟩⟩ :=
      h.stems hj hq.area (by simp [hd])
    · exact absurd (.inl (shadows_of_above hj hin.1 ho' htarget htarget' hle)) (hapart path' hp' ho')
    · exact hno hd

end Orderly

/-- On the way to what does not clash with a document, that changes nothing that matters. -/
theorem find_of_filed (hj : Job.isId job) (hin : Job.InTree job path) (hin' : Job.InTree job path')
    (hne : path' ≠ path) (hclash : ¬ Clash path path') {t' : Tree}
    (hready : Ready root t) (hroot : ∀ s ∈ root, Path.IsPlain s)
    (htarget : target? root job path = some q) (htarget' : target? root job path' = some p)
    (hway : ∀ r, r ≠ q → Paves root job path t t' r)
    (hshort : ∀ s ∈ p, Text.byteCount s ≤ longestName) : t'.find p = t.find p := by
  have hplace := place_of_target hj hin'.1 htarget'
  refine find_eq_of_paved (hplace.plain hroot) hshort (fun r hr => ?_)
    fun r r' hrr hr' => hready.none_below hplace.area.within hrr hr'
  -- the new file is neither on the way nor at its end
  have hrq : r ≠ q := by
    rintro rfl
    by_cases hrp : r = p
    · subst hrp
      exact hne (target?_inj hj hin'.1 hin.1 (htarget'.trans htarget.symm))
    · exact hclash (.inl (shadows_of_above hj hin.1 hin'.1 htarget htarget'
        (Path.prefix_dropLast hr hrp)))
  rcases hway r hrq with he | ⟨hn, hd, -, q', htarget'', hle⟩
  · exact .inl he
  · refine .inr ⟨hn, hd, ?_⟩
    rintro rfl
    exact hclash (.inr (shadows_of_above hj hin'.1 hin.1 htarget' htarget'' hle))

theorem Orderly.accepts (h : Orderly root t₀ c tries t) (hroot : ∀ s ∈ root, Path.IsPlain s)
    (hj : Job.isId job) (hin : Job.InTree job path)
    (hfits : ∀ q, documentFile? root path = some q → Fits q)
    (hapart : ∀ path' ∈ tries job, Job.owns job path' → ¬ Clash path path') (json : String) :
    Accepts (directory root) job path json
      (fun path' => ¬ Clash path path' ∧ Legible root path') t := by
  have hok := h.put_ok hroot hj hin hfits hapart json
  obtain ⟨hready', hsame⟩ := ready_put hroot hj path json h.ready
  obtain ⟨q, htarget, -⟩ := target?_of_owns hj hin.1 root
  have hshelf := text?_file hj hin.1 htarget (text?_put hroot hj hin.1 htarget h.ready hok)
  have hstep := step_put hroot hj path json t
  rw [hok] at hstep
  have hput : ((directory root).put job path json t).2 = (Directory.put root job path json t).2 := by
    rw [directory_put]
  set t' := (Directory.put root job path json t).2
  -- other jobs are spared by their areas, and the same job by what the step says
  refine ⟨by rw [directory_put, hok], ?_, fun job' path' hj' hne hin' => ?_, ?_,
    fun path' hin' hne hspared => ?_, fun path' hin' hne text => ?_⟩
  · rw [hput, outcome_get, get_of_inTree hroot hj hready' hin, hshelf, Shelf.file, if_pos rfl]
  · rw [hput, outcome_get, outcome_get]
    exact get_of_area hj hsame hroot hj' hne hin'
  · rw [hput, outcome_get, outcome_get]
    exact get_overview_of_area hj hsame hroot
  · rw [hput, outcome_get, outcome_get]
    refine get_congr fun p hfile => ?_
    have hfile' : target? root job path' = some p := by rw [target?_eq_documentFile? hin', hfile]
    cases hstep with
    | asked asks => exact asks.elim
    | filed owns target file way =>
      exact find_of_filed hj hin hin' hne hspared.1 h.ready hroot target hfile' way
        (hspared.2 p hfile).2
  · rw [hput, outcome_get, outcome_get, get_of_inTree hroot hj hready' hin',
      get_of_inTree hroot hj h.ready hin',
      hshelf, Shelf.file, if_neg hne]

end Directory

end Store

namespace Site

open Files Store

variable {τ : Type} {base : Path} {config : Config.Storage} {s : Site τ} {uses : List Use}
  {job path : String}

/-- In every state that a store of either kind can reach, a document of a job is stored and served,
and no other path is disturbed. In a directory this is so unless the document clashes with one that
its job was to put since it was last deleted, or with the other path. -/
theorem document_accepted (inUse : InUse base config s uses) (isId : Job.isId job)
    (inTree : Job.InTree job path)
    (fits : config.backend = .files → ∀ q,
      Directory.documentFile? (root base config) path = some q → Tree.Fits q)
    (apart : config.backend = .files →
      ∀ path' ∈ tried job uses, Job.owns job path' → ¬ Clash path path')
    (json : String) :
    Accepts (Site.store base config) job path json
      (fun path' => config.backend = .files →
        ¬ Clash path path' ∧ Directory.Legible (root base config) path')
      (reached base config s uses) := by
  cases hbackend : config.backend with
  | files =>
    have horderly := inUse.orderly hbackend
    refine (acts_directory base hbackend).accepts ?_
    simpa [hbackend] using
      horderly.accepts inUse.plainRoot isId inTree (fits hbackend) (apart hbackend) json
  | table =>
    refine (acts_database base hbackend).accepts ?_
    exact (inUse.retains hbackend).accepts isId inTree json _

def somePath : String := Job.root firstJob ++ "/a"

theorem inTree_somePath : Job.InTree firstJob somePath := by
  unfold Job.InTree
  decide +kernel

theorem fits_somePath : ∀ q,
    Directory.documentFile? (root [] inData) somePath = some q → Tree.Fits q := by
  have file : Directory.documentFile? (root [] inData) somePath =
      some ["data", "jobs", firstJob, "a.json"] := by decide +kernel
  intro q hq
  obtain rfl := Option.some.inj (file.symm.trans hq)
  exact ⟨by decide +kernel, by decide +kernel, by decide +kernel, by decide +kernel⟩

/-- There is room for a document beside a directory of its name. -/
theorem accepted_beside : Accepts (Site.store [] inData) firstJob somePath "{}"
    (fun path' => inData.backend = .files →
      ¬ Clash somePath path' ∧ Directory.Legible (root [] inData) path')
    (reached [] inData vacant (putBefore (somePath ++ "/b"))) := by
  refine document_accepted (inUse_putBefore _) isId_firstJob inTree_somePath
    (fun _ => fits_somePath) (fun _ path' hpath' _ => ?_) _
  obtain rfl : path' = somePath ++ "/b" := by simpa [putBefore, tried, Use.tries] using hpath'
  unfold Clash Shadows
  decide +kernel

/-- A document is refused whose file is named like a directory that was made for another one. -/
theorem clashing_document_refused :
    InUse [] inData vacant (putBefore (somePath ++ ".json/b")) ∧ Job.isId firstJob ∧
      Job.InTree firstJob somePath ∧
      (∀ q, Directory.documentFile? (root [] inData) somePath = some q → Tree.Fits q) ∧
      ((Site.store [] inData).put firstJob somePath "{}"
        (reached [] inData vacant (putBefore (somePath ++ ".json/b")))).1.outcome =
        .error (.system .isDirectory) :=
  ⟨inUse_putBefore _, isId_firstJob, inTree_somePath, fits_somePath, by decide +kernel⟩

end Site

end ArchiveKeeper
