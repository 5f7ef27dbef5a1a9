import ArchiveKeeper.Proofs.Store.Combined
import ArchiveKeeper.Proofs.Store.Database
import ArchiveKeeper.Proofs.Store.Directory

namespace ArchiveKeeper.Store

open Files

variable {job path text : String}

namespace Database

variable {t : Table} {w w' : World} {place : Place}

theorem shows_iff (h : w.2 = .opened t) :
    (database place).Shows w text ↔ t.get? Job.overviewPath = some text := by
  rw [Shows, Answer.document.inj (answer_ask h (.get Job.overviewPath)), Except.ok.injEq]

theorem leaves_view (h : ∀ t, w.2 = .opened t → Ready t → ∃ t', w'.2 = .opened t' ∧ Ready t' ∧
    t'.get? Job.overviewPath = t.get? Job.overviewPath) :
    (database place).Leaves view.ready w w' := by
  rintro ⟨t, ht, hready⟩
  obtain ⟨t', ht', hready', hsame⟩ := h t ht hready
  refine ⟨⟨t', ht', hready'⟩, fun text => ?_⟩
  rw [shows_iff ht, shows_iff ht', hsame]

namespace Ready

theorem get?_insert_of_owns {json : String} (ho : Job.owns job path) :
    Table.get? Job.overviewPath (t.insert ⟨keyOf job path, some job, json⟩) =
      t.get? Job.overviewPath := by
  rw [Table.get?_insert, if_neg (keyOf_ne_overviewPath ho)]

theorem get?_eraseOwned (h : Ready t) (job : String) :
    (t.eraseOwned job).get? Job.overviewPath = t.get? Job.overviewPath := by
  refine Table.get?_eraseOwned h.sorted fun r hr hk => ?_
  rcases h.filed r hr with ⟨ho, -⟩ | ⟨job', path, -, ho, -, hk'⟩
  · simp [ho]
  · exact absurd (hk'.symm.trans hk) (keyOf_ne_overviewPath ho)

theorem listed (h : Ready t) : (∀ o ∈ Keyed.listOverviews t, Job.isId o.job) ∧
    (Keyed.listOverviews t).Pairwise fun o o' => o.job < o'.job := by
  constructor
  · intro o ho
    obtain ⟨r, hr, rfl⟩ := List.mem_map.mp ho
    obtain ⟨job, hj, hk⟩ := h.key_of_mem_range hr
    rwa [hk, drop_overviewKey]
  · rw [Keyed.listOverviews, List.pairwise_map]
    refine (h.sorted.filter _).imp_of_mem fun {r r'} hr hr' hlt => ?_
    obtain ⟨job, -, hk⟩ := h.key_of_mem_range hr
    obtain ⟨job', -, hk'⟩ := h.key_of_mem_range hr'
    rw [hk, hk'] at hlt
    rw [hk, hk', drop_overviewKey, drop_overviewKey]
    exact lt_of_overviewKey_lt hlt

end Ready

end Database

open Database in
theorem database_publishes (place : Place) :
    Publishes (database place) Database.view Database.view.ready fun _ w w' => w' = w where
  ready _ h := h
  reset w hs h := ((database_keeps place).reset w hs h).1
  untouched w w' h := leaves_view fun t ht hready => ⟨t, h.trans ht, hready, rfl⟩
  put job path json w hj := by
    refine leaves_view fun t ht hready => ⟨_, opened_ask ht (.put job path json), ?_⟩
    rw [tableAfter]
    split
    · rename_i ho
      exact ⟨hready.insert (.inr ⟨job, path, hj, ho, rfl, rfl⟩), Ready.get?_insert_of_owns ho⟩
    · exact ⟨hready, rfl⟩
  delete job w _ := leaves_view fun t ht hready =>
    ⟨_, opened_ask ht (.delete job), hready.eraseOwned job, hready.get?_eraseOwned job⟩
  thinned _ w w' _ h := by
    obtain rfl : w' = w := h
    exact .refl _ _ w'
  listing w := leaves_view fun t ht hready => ⟨t, opened_ask ht .listOverviews, hready, rfl⟩
  publish json w hw := by
    obtain ⟨t, ht, hready⟩ := hw
    have hopen : ((database place).publish json w).2.2 = .opened (Keyed.publish json t) :=
      opened_ask ht (.publish json)
    refine ⟨⟨_, hopen, hready.insert (.inl ⟨rfl, rfl⟩)⟩, fun _ => ?_⟩
    rw [shows_iff hopen, Keyed.publish, Table.get?_insert, if_pos rfl]
  listed := by
    refine ⟨fun job job' => job ≤ job', fun job job' => String.le_antisymm, fun w hw => ?_⟩
    obtain ⟨t, ht, hready⟩ := hw
    obtain ⟨hids, hascending⟩ := hready.listed
    exact ⟨_, Answer.overviews.inj (answer_ask ht .listOverviews), hids,
      hascending.imp Std.le_of_lt⟩

namespace Directory

variable {root q : Path} {t t' : Tree}

/-- There are no overviews but those of jobs. -/
structure Neat (root : Path) (t : Tree) : Prop where
  ready : Ready root t
  ofJobs : ∀ name, t.node? (overviews root ++ [name]) ≠ none →
    ∃ job, Job.isId job ∧ name = job ++ ending

theorem within_combinedFile : Within root (combinedFile root) := .inl (List.prefix_append _ _)

theorem plain_combinedFile (hroot : ∀ s ∈ root, Path.IsPlain s) :
    ∀ s ∈ combinedFile root, Path.IsPlain s :=
  plain_concat (plain_jobs hroot) ⟨by decide, by decide⟩

theorem documentFile?_overviewPath : documentFile? root Job.overviewPath =
    some (combinedFile root) := by
  have hproper : Path.IsProper "overview" := ⟨⟨by decide, by decide⟩, by decide, by decide⟩
  have hpath : Job.overviewPath.toList =
      ("jobs" :: [] ++ ["overview"]).flatMap fun s => '/' :: s.toList := by decide
  rw [documentFile?_eq (by simpa using hproper) hpath, List.append_nil, combinedFile]

theorem shows_iff (hroot : ∀ s ∈ root, Path.IsPlain s) (hready : Ready root t) :
    (directory root).Shows t text ↔ text? t (combinedFile root) = some text := by
  rw [← text?_of_read hready (plain_combinedFile hroot) within_combinedFile text]
  simp only [Shows, directory, Directory.get, documentFile?_overviewPath]
  cases t.read (combinedFile root) with
  | error e => cases e <;> simp
  | ok content => simp

theorem leaves_of_neat (hroot : ∀ s ∈ root, Path.IsPlain s) (h : Neat root t → Neat root t' ∧
    t'.node? (combinedFile root) = t.node? (combinedFile root)) :
    (directory root).Leaves (Neat root) t t' := by
  intro hneat
  obtain ⟨hneat', hsame⟩ := h hneat
  refine ⟨hneat', fun text => ?_⟩
  rw [shows_iff hroot hneat.ready, shows_iff hroot hneat'.ready, text?_congr hsame]

theorem leaves_of_area (hroot : ∀ s ∈ root, Path.IsPlain s) (hj : Job.isId job)
    (h : Ready root t → Ready root t' ∧ ∀ q, ¬ Area root job q → t'.node? q = t.node? q) :
    (directory root).Leaves (Neat root) t t' := by
  refine leaves_of_neat hroot fun hneat => ?_
  obtain ⟨hready', hsame⟩ := h hneat.ready
  refine ⟨⟨hready', fun name hn => ?_⟩, hsame _ (not_area_combinedFile hj)⟩
  by_cases ha : Area root job (overviews root ++ [name])
  · rcases area_iff.mp ha with he | he | ⟨r, he⟩
    · exact ⟨job, hj, (List.cons.inj (List.append_cancel_left he)).1⟩
    · exact absurd he.symm jobs_append_ne
    · exact absurd he.symm jobs_append_ne
  · rw [hsame _ ha] at hn
    exact hneat.ofJobs name hn

theorem overview_ne_combinedFile {name : String} :
    overviews root ++ [name] ≠ combinedFile root := fun h => jobs_append_ne h.symm

theorem Neat.listed (hroot : ∀ s ∈ root, Path.IsPlain s) (h : Neat root t) :
    ∃ os, Directory.listOverviews root t = .ok os ∧ (∀ o ∈ os, Job.isId o.job) ∧
      os.Pairwise fun o o' => o.job ++ ending ≤ o'.job ++ ending := by
  obtain ⟨os, hos, hsub, -⟩ := listOverviews_spec hroot h.ready
  refine ⟨os, hos, fun o ho => ?_, List.pairwise_map.mp (Tree.pairwise_entries.sublist hsub)⟩
  have hname := hsub.subset (List.mem_map_of_mem (f := fun o => o.job ++ ending) ho)
  obtain ⟨job, hj, he⟩ := h.ofJobs _ (Tree.mem_entries.mp hname)
  rwa [append_ending_inj he]

end Directory

open Directory in
theorem directory_publishes {root : Path} (hroot : ∀ s ∈ root, Path.IsPlain s) :
    Publishes (directory root) (Directory.view root) (Neat root) (Thinned root) where
  ready _ h := h.ready
  reset t hs h := by
    rw [directory_reset] at h ⊢
    have hok : Directory.reset root t = (.ok (), (Directory.reset root t).2) :=
      Prod.ext (lift_eq_ok_iff.mp h) rfl
    obtain ⟨hready, hempty⟩ := ready_reset hroot hs hok
    refine ⟨hready, fun name hn => absurd (hempty _ (.inr (List.prefix_append _ _)) ?_ ?_) hn⟩
    · exact fun he => jobs_append_ne ((List.append_nil _).trans he.symm)
    · simp
  untouched t t' h := leaves_of_neat hroot fun hneat => by
    refine ⟨⟨hneat.ready.congr h, fun name hn => hneat.ofJobs name ?_⟩,
      h _ (.inl within_combinedFile)⟩
    rwa [← h _ (.inl (.inr (List.prefix_append _ _)))]
  put job path json t hj := by
    rw [directory_put]
    exact leaves_of_area hroot hj fun hready => ready_put hroot hj path json hready
  delete job t hj := by
    rw [directory_delete]
    refine leaves_of_area hroot hj fun hready => ?_
    obtain ⟨hready', hsame, -⟩ := ready_delete hroot hj hready
    exact ⟨hready', hsame⟩
  thinned job t t' hj h := leaves_of_area hroot hj fun hready => ⟨hready.thin h, fun _ => h.same⟩
  listing t := .refl _ _ t
  publish json t hneat := by
    rw [directory_publish]
    obtain ⟨hready', hsame, hshows⟩ := ready_publish hroot hneat.ready json
    refine ⟨⟨hready', fun name hn => hneat.ofJobs name ?_⟩, fun hok => ?_⟩
    · rwa [← hsame _ overview_ne_combinedFile]
    · rw [shows_iff hroot hready']
      exact hshows (lift_eq_ok_iff.mp hok)
  listed := by
    refine ⟨fun job job' => job ++ ending ≤ job' ++ ending,
      fun job job' h h' => append_ending_inj (String.le_antisymm h h'), fun t hneat => ?_⟩
    obtain ⟨os, hos, hrest⟩ := hneat.listed hroot
    exact ⟨os, lift_eq_ok_iff.mpr hos, hrest⟩

end ArchiveKeeper.Store
