import ArchiveKeeper.Proofs.Store.Publication

namespace ArchiveKeeper.Store.Database

open Keyed

variable {job job' path json : String} {t : Table} {w : World} {place : Place} {c : Contents}

def contents (t : Table) : Contents := ⟨fun job => shelf job t, t.get? Job.overviewPath⟩

def Keeping (c : Contents) (w : World) : Prop :=
  ∃ t, w.2 = .opened t ∧ Ready t ∧ c.Alike (contents t)

theorem shelf_erase_overview (hj : Job.isId job) (hj' : Job.isId job') :
    shelf job' (t.erase (overviewStart ++ job)) =
      if job' = job then (shelf job t).drop Job.overviewPath else shelf job' t := by
  have hkey {path : String} (ho' : Job.owns job' path) :
      keyOf job' path = overviewStart ++ job ↔ job' = job ∧ path = Job.overviewPath := by
    rw [← keyOf_overview]
    constructor
    · exact keyOf_inj hj' hj ho' Job.owns_overviewPath
    · rintro ⟨rfl, rfl⟩
      rfl
  funext path
  by_cases he : job' = job
  · subst he
    rw [if_pos rfl, Shelf.drop, shelf, shelf]
    by_cases ho' : Job.owns job' path
    · simp only [if_pos ho', Table.get?_erase, hkey ho', true_and]
    · simp only [if_neg ho', ite_self]
  · rw [if_neg he, shelf, shelf]
    by_cases ho' : Job.owns job' path
    · simp only [if_pos ho', Table.get?_erase, hkey ho', he, false_and, if_false]
    · simp only [if_neg ho']

theorem get?_erase_overview :
    (t.erase (overviewStart ++ job)).get? Job.overviewPath = t.get? Job.overviewPath := by
  rw [Table.get?_erase, if_neg overviewKey_ne_overviewPath.symm]

namespace Ready

theorem erase (h : Ready t) (key : String) : Ready (t.erase key) :=
  ⟨h.sorted.erase key, fun r hm => h.filed r (List.mem_of_mem_filter hm)⟩

theorem hasOwned_iff (h : Ready t) (hj : Job.isId job) :
    t.hasOwned job ↔ ∃ path, shelf job t path ≠ none := by
  constructor
  · intro hown
    obtain ⟨r, hr, ho⟩ := Table.hasOwned_iff.mp hown
    rcases h.filed r hr with ⟨hnone, -⟩ | ⟨job', path, -, howns, howner, hk⟩
    · rw [hnone] at ho
      cases ho
    obtain rfl : job' = job := Option.some.inj (howner.symm.trans ho)
    refine ⟨path, ?_⟩
    rw [shelf, if_pos howns, (Table.get?_eq_some_iff h.sorted).mpr ⟨r, hr, hk, rfl⟩]
    simp
  · rintro ⟨path, hpath⟩
    by_contra hno
    rw [h.shelf_eq_empty hj hno] at hpath
    exact hpath rfl

end Ready

theorem keeping_empty (h : w.2 = .opened []) : Keeping .empty w :=
  ⟨[], h, .nil, fun _ _ => shelf_nil, rfl⟩

theorem Ready.after (h : Ready t) {request : Request} (about : request.AboutJobs) :
    Ready (tableAfter t request) := by
  cases request with
  | reset => exact .nil
  | put job path json =>
    rw [tableAfter]
    split
    · rename_i ho
      exact h.insert (.inr ⟨job, path, about, ho, rfl, rfl⟩)
    · exact h
  | delete job => exact h.eraseOwned job
  | deleteOverview job => exact h.erase _
  | publish json => exact h.insert (.inl ⟨rfl, rfl⟩)
  | get | holds | listOverviews => exact h

theorem alike_after (hready : Ready t) (h : c.Alike (contents t)) {request : Request}
    (about : request.AboutJobs) : (c.after request).Alike (contents (tableAfter t request)) := by
  cases request with
  | reset => exact ⟨fun _ _ => shelf_nil, rfl⟩
  | put job path json =>
    rw [tableAfter, Contents.after]
    split
    · rename_i ho
      rw [← h.shelf job about]
      refine h.stock (Ready.shelf_insert about ho) (fun job' hj' hne => ?_)
        (Ready.get?_insert_of_owns ho)
      exact Ready.shelf_insert_of_ne fun path' ho' he =>
        hne (keyOf_inj about hj' ho ho' he).1.symm
    · exact h
  | delete job =>
    exact h.stock ((hready.eraseOwned job).shelf_eq_empty about Table.not_hasOwned_eraseOwned)
      (fun _ => hready.shelf_eraseOwned) (hready.get?_eraseOwned job)
  | deleteOverview job =>
    rw [Contents.after, ← h.shelf job about]
    exact h.stock ((shelf_erase_overview about about).trans (if_pos rfl))
      (fun _ hj' hne => (shelf_erase_overview about hj').trans (if_neg hne)) get?_erase_overview
  | publish json =>
    refine ⟨fun job hj => ?_, ?_⟩
    · -- no job has the key of the combined overview
      refine Eq.trans ?_ (h.shelf job hj)
      exact Ready.shelf_insert_of_ne fun path ho => (keyOf_ne_overviewPath ho).symm
    · show (Keyed.publish json t).get? Job.overviewPath = some json
      rw [Keyed.publish, Table.get?_insert, if_pos rfl]
  | get | holds | listOverviews => exact h

end ArchiveKeeper.Store.Database

namespace ArchiveKeeper.Store

open Database

theorem Database.Keeping.gives {place : Place} {c : Contents} {w : World} {request : Request}
    (hw : Keeping c w) (hproper : request.Proper) :
    c.Gives request ((database place).ask w request).1 := by
  obtain ⟨t, ht, hready, halike⟩ := hw
  rw [answer_ask ht]
  cases request with
  | reset => exact .reset
  | put job path json =>
    rw [answerFrom]
    split
    · rename_i ho
      exact .put json ho
    · rename_i ho
      exact .refuse json ho
  | get path =>
    rcases Request.Proper.get hproper with rfl | ⟨job, hj, hin⟩
    · have hcombined : t.get? Job.overviewPath = c.combined := halike.combined
      rw [answerFrom, hcombined]
      exact .combined
    · have hshelf : t.get? path = c.shelf job path := by
        rw [← halike.shelf job hj]
        show _ = shelf job t path
        rw [shelf, if_pos hin.1, keyOf_inTree hin]
      rw [answerFrom, hshelf]
      exact .document hj hin
  | delete job => exact .delete job
  | deleteOverview job => exact .deleteOverview job
  | holds job =>
    refine .holds ?_
    rw [hready.hasOwned_iff hproper, ← halike.shelf job hproper]
    rfl
  | listOverviews =>
    obtain ⟨hids, hascending⟩ := hready.listed
    refine .listOverviews hascending fun o => ?_
    constructor
    · intro ho
      rw [← halike.shelf o.job (hids o ho)]
      exact ⟨hids o ho, hready.mem_listOverviews.mp ho⟩
    · rintro ⟨hj, ho⟩
      rw [← halike.shelf o.job hj] at ho
      exact hready.mem_listOverviews.mpr ho
  | publish json => exact .publish json

/-- A table serves its contents, whatever the requests. -/
theorem database_serves (place : Place) : Serves (database place) Keeping fun _ => True where
  answer _ _ _ hw hproper _ := hw.gives hproper
  after c w request hw hproper _ := by
    obtain ⟨t, ht, hready, halike⟩ := hw
    have habout := hproper.aboutJobs
    exact ⟨tableAfter t request, opened_ask ht request, hready.after habout,
      alike_after hready halike habout⟩

end ArchiveKeeper.Store
