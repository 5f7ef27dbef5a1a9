import ArchiveKeeper.Proofs.Store.Step

namespace ArchiveKeeper.Store

theorem Contents.following_of_asks {c : Contents} {request : Request} (h : request.Asks)
    (answer : Answer) : c.following request answer = c := by
  unfold following
  split
  · rfl
  · cases request <;> first | rfl | exact h.elim

theorem tries_of_asks {job : String} {paths : List String} {request : Request} (h : request.Asks) :
    Use.tries job paths (.ask request) = paths := by
  cases request <;> first | rfl | exact h.elim

namespace Directory

open Files Files.Tree

variable {root p q : Path} {job path json : String} {t t' t₀ : Tree} {request : Request}
  {answer : Answer} {c : Contents} {paths paths' : List String} {tries : String → List String}

/-- A job was to put a document: what stands at a path is its file, or a directory on the way. -/
def Stems (root : Path) (job : String) (paths : List String) (t : Tree) (q : Path) : Prop :=
  ∃ path ∈ paths, OnWay root job path q ∧ t.node? q = some .directory ∨
    Job.owns job path ∧ target? root job path = some q ∧ t.node? q ≠ some .directory

/-- What stands in the two directories of a store is the combined overview or stems from a job. -/
def Traced (root : Path) (tries : String → List String) (t : Tree) : Prop :=
  ∀ q, Within root q → q ≠ jobs root → q ≠ overviews root → q ≠ combinedFile root →
    t.node? q ≠ none → ∃ job, Job.isId job ∧ Stems root job (tries job) t q

/-- A directory in which a store was reset, and used since. -/
structure Orderly (root : Path) (t₀ : Tree) (c : Contents) (tries : String → List String)
    (t : Tree) : Prop where
  neat : Neat root t
  distinct : Distinct (overviews root) t
  /-- It keeps what it should. -/
  alike : c.Alike (contents root t)
  traced : Traced root tries t
  /-- Where the combined overview stands is no directory. -/
  combinedFree : t.node? (combinedFile root) ≠ some .directory
  /-- Outside of the store there is what was there before, but for the directories above it. -/
  elsewhere : ∀ q, ¬ Within root q → t.node? q = t₀.node? q ∨
    t₀.node? q = none ∧ t.node? q = some .directory ∧ Above root q

theorem OnWay.above_or_area (h : OnWay root job path q) (hj : Job.isId job) :
    Above root q ∨ Area root job q := by
  obtain ⟨ho, p, htarget, hle⟩ := h
  rcases (place_of_target hj ho htarget).above q hle with ha | ha | ⟨r, rfl⟩
  · exact .inl (.inl ha)
  · exact .inl (.inr ha)
  · exact .inr (.below r)

theorem Stems.above_or_area (h : Stems root job paths t q) (hj : Job.isId job) :
    Above root q ∨ Area root job q := by
  obtain ⟨path, -, ⟨hway, -⟩ | ⟨ho, htarget, -⟩⟩ := h
  · exact hway.above_or_area hj
  · exact .inr (place_of_target hj ho htarget).area

theorem Stems.of_same (h : Stems root job paths t q) (hpaths : ∀ path ∈ paths, path ∈ paths')
    (hn : t'.node? q = t.node? q) : Stems root job paths' t' q := by
  obtain ⟨path, hmem, hstem⟩ := h
  exact ⟨path, hpaths path hmem, by rwa [hn]⟩

theorem Paves.text? (h : Paves root job path t t' q) : text? t' q = text? t q := by
  rcases h with he | ⟨hn, hd, -⟩
  · exact text?_congr he
  · rw [Directory.text?, Directory.text?, hn, hd]

theorem Paves.same (h : Paves root job path t t' q) (hj : Job.isId job) (hready : Ready root t)
    (hq : ¬ Area root job q) : t'.node? q = t.node? q := by
  rcases h with he | ⟨hn, -, hway⟩
  · exact he
  · rw [hready.above ((hway.above_or_area hj).resolve_right hq)] at hn
    cases hn

namespace Step

theorem same_elsewhere (h : Step root t t' request answer) (about : request.AboutJobs)
    (hready : Ready root t) (hq : ¬ Within root q) : t'.node? q = t.node? q := by
  have harea {job : String} (ha : Area root job q) : False := hq ha.within
  cases h with
  | asked _ same => rw [same]
  | unfiled way => exact (way q).same about hready harea
  | filed owns target file way =>
    refine (way q ?_).same about hready harea
    rintro rfl
    exact harea (place_of_target about owns target).area
  | deleted gone same => exact same q harea
  | overviewDeleted nodes =>
    refine (nodes q).trans (if_neg ?_)
    rintro rfl
    exact harea .overview
  | unpublished same => exact same q
  | published nodes =>
    refine (nodes q).trans (if_neg ?_)
    rintro rfl
    exact hq within_combinedFile
  | reset empty same => exact same q hq

theorem combinedFree (h : Step root t t' request answer) (about : request.AboutJobs)
    (hready : Ready root t) (hd : t.node? (combinedFile root) ≠ some .directory) :
    t'.node? (combinedFile root) ≠ some .directory := by
  cases h with
  | asked _ same => rwa [same]
  | unfiled way => rwa [(way _).same about hready (not_area_combinedFile about)]
  | @filed job path json q owns target file way =>
    have hne : combinedFile root ≠ q := by
      rintro rfl
      exact not_area_combinedFile about (place_of_target about owns target).area
    rwa [(way _ hne).same about hready (not_area_combinedFile about)]
  | deleted gone same => rwa [same _ (not_area_combinedFile about)]
  | overviewDeleted nodes =>
    rw [nodes]
    split
    · simp
    · exact hd
  | unpublished same => rwa [same]
  | published nodes => simp [nodes]
  | reset empty => simp [empty _ within_combinedFile combinedFile_ne.1 combinedFile_ne.2]

/-- What is there after a request was there before, or the request has put it there. -/
theorem traced (h : Step root t t' request answer) (about : request.AboutJobs)
    (ht : Traced root tries t) :
    Traced root (fun job => Use.tries job (tries job) (.ask request)) t' := by
  have hput {job path json : String} {job' path' : String} (hp : path' ∈ tries job') :
      path' ∈ Use.tries job' (tries job') (.ask (.put job path json)) := by
    rw [Use.tries]
    split
    · exact List.mem_cons_of_mem _ hp
    · exact hp
  have hnew {job path json : String} : path ∈ Use.tries job (tries job) (.ask (.put job path json)) := by
    rw [Use.tries, if_pos rfl]
    exact List.mem_cons_self ..
  intro q hq hqj hqo hqc hn
  -- whatever was left as it was stems from where it did before
  have hold (hpaths : ∀ job, ∀ path ∈ tries job, path ∈ Use.tries job (tries job) (.ask request))
      (he : t'.node? q = t.node? q) :
      ∃ job, Job.isId job ∧ Stems root job (Use.tries job (tries job) (.ask request)) t' q := by
    obtain ⟨job, hj, hstem⟩ := ht q hq hqj hqo hqc (he ▸ hn)
    exact ⟨job, hj, hstem.of_same (hpaths job) he⟩
  cases h with
  | asked asks same => exact hold (fun job => by simp [tries_of_asks asks]) (by rw [same])
  | unfiled way =>
    rcases way q with he | ⟨-, hd, hway⟩
    · exact hold (fun _ _ => hput) he
    · exact ⟨_, about, _, hnew, .inl ⟨hway, hd⟩⟩
  | @filed job path json p owns target file way =>
    by_cases hqp : q = p
    · subst hqp
      exact ⟨job, about, path, hnew, .inr ⟨owns, target, by simp [file]⟩⟩
    · rcases way q hqp with he | ⟨-, hd, hway⟩
      · exact hold (fun _ _ => hput) he
      · exact ⟨job, about, path, hnew, .inl ⟨hway, hd⟩⟩
  | @deleted job gone same =>
    have ha : ¬ Area root job q := fun ha => hn (gone q ha)
    obtain ⟨job', hj', hstem⟩ := ht q hq hqj hqo hqc (same q ha ▸ hn)
    -- it stems from another job, then
    have hne : job ≠ job' := by
      rintro rfl
      exact (hstem.above_or_area hj').elim (hq.not_above hqj hqo) ha
    have hkept : Use.tries job' (tries job') (.ask (.delete job)) = tries job' := by
      rw [Use.tries, if_neg hne]
    exact ⟨job', hj', hstem.of_same (by simp [hkept]) (same q ha)⟩
  | overviewDeleted nodes =>
    refine hold (fun _ _ hp => hp) ?_
    have he := nodes q
    split at he
    · exact absurd he hn
    · exact he
  | unpublished same => exact hold (fun _ _ hp => hp) (same q)
  | published nodes => exact hold (fun _ _ hp => hp) ((nodes q).trans (if_neg hqc))
  | reset empty => exact absurd (empty q hq hqj hqo) hn

theorem alike (h : Step root t t' request answer) (about : request.AboutJobs)
    (hc : c.Alike (contents root t)) : (c.following request answer).Alike (contents root t') := by
  have hsame (htext : ∀ q, text? t' q = text? t q) : c.Alike (contents root t') :=
    ⟨fun job hj => (shelf_congr_text hj fun q _ => htext q).trans (hc.shelf job hj),
      (htext (combinedFile root)).trans hc.combined⟩
  -- the files of other jobs stand in areas of their own
  have hothers {job job' : String} (hj : Job.isId job) (hj' : Job.isId job') (hne : job' ≠ job)
      (htext : ∀ q, ¬ Area root job q → text? t' q = text? t q) :
      shelf root job' t' = shelf root job' t :=
    shelf_congr_text hj' fun q hq => htext q fun ha => hne (hq.job_eq hj' hj ha)
  cases h with
  | asked asks same => rwa [Contents.following_of_asks asks, same]
  | unfiled way => exact hsame fun q => (way q).text?
  | @filed job path json p owns target file way =>
    have htext (q : Path) : text? t' q = if q = p then some json else text? t q := by
      split
      · rename_i he
        rw [he, text?, file]
      · rename_i hne
        exact (way q hne).text?
    have hout {q : Path} (ha : ¬ Area root job q) : text? t' q = text? t q := by
      rw [htext, if_neg]
      rintro rfl
      exact ha (place_of_target about owns target).area
    rw [Contents.following, Contents.after, if_pos owns, ← hc.shelf job about]
    · exact hc.stock (text?_file about owns target htext)
        (fun job' hj' hne => hothers about hj' hne fun _ => hout) (hout (not_area_combinedFile about))
    · simp
  | @deleted job gone same =>
    have hout {q : Path} (ha : ¬ Area root job q) : text? t' q = text? t q := text?_congr (same q ha)
    exact hc.stock (shelf_of_bare about gone) (fun job' hj' hne => hothers about hj' hne fun _ => hout)
      (hout (not_area_combinedFile about))
  | @overviewDeleted job nodes =>
    have hout {q : Path} (ha : ¬ Area root job q) : text? t' q = text? t q := by
      refine text?_congr ((nodes q).trans (if_neg ?_))
      rintro rfl
      exact ha .overview
    rw [Contents.following, Contents.after, ← hc.shelf job about]
    · exact hc.stock (shelf_drop_overview about nodes)
        (fun job' hj' hne => hothers about hj' hne fun _ => hout) (hout (not_area_combinedFile about))
    · simp
  | unpublished same => exact hsame fun q => text?_congr (same q)
  | published nodes =>
    refine ⟨fun job hj => (shelf_congr hj fun q hq => (nodes q).trans (if_neg ?_)).trans
      (hc.shelf job hj), ?_⟩
    · rintro rfl
      exact not_area_combinedFile hj hq
    · show text? t' (combinedFile root) = _
      rw [text?, nodes, if_pos rfl]
      rfl
  | reset empty =>
    refine ⟨fun job hj => shelf_of_bare hj fun q hq =>
      empty q hq.within hq.ne_directory.1 hq.ne_directory.2, ?_⟩
    show text? t' (combinedFile root) = none
    rw [text?, empty _ within_combinedFile combinedFile_ne.1 combinedFile_ne.2]

end Step

theorem neat_ask (hroot : ∀ s ∈ root, Path.IsPlain s) (hneat : Neat root t)
    (about : request.AboutJobs) : Neat root ((directory root).ask t request).2 := by
  have publishes := directory_publishes hroot
  cases request with
  | reset =>
    obtain ⟨t', hreset, hready, hempty⟩ := reset_of_ready hroot hneat.ready
    rw [ask, directory_reset, hreset]
    exact (Tidy.of_empty hready hempty).neat
  | put job path json =>
    simpa only [ask] using (publishes.put job path json t about hneat).1
  | delete job =>
    rw [ask, directory_delete]
    exact neat_delete hroot about hneat
  | deleteOverview job =>
    have hthin := thinned_deleteOverview hroot about hneat.ready
    rw [ask, directory_deleteOverview]
    exact (publishes.thinned job t _ about hthin hneat).1
  | publish json =>
    simpa only [ask] using (publishes.publish json t hneat).1
  | get | holds | listOverviews => exact hneat

theorem distinct_ask (hroot : ∀ s ∈ root, Path.IsPlain s) (hready : Ready root t)
    (hdistinct : Distinct (overviews root) t) (about : request.AboutJobs) :
    Distinct (overviews root) ((directory root).ask t request).2 := by
  cases request with
  | reset =>
    obtain ⟨t', hreset, hready', hempty⟩ := reset_of_ready hroot hready
    rw [ask, directory_reset, hreset]
    exact (Tidy.of_empty hready' hempty).distinct
  | put job path json =>
    rw [ask, directory_put]
    by_cases ho : Job.owns job path
    · obtain ⟨q, -, -, hput⟩ := put_of_owns root json t about ho
      rw [hput]
      exact distinct_replaceFile hdistinct
    · rw [Directory.put, if_neg ho]
      exact hdistinct
  | delete job =>
    rw [ask, directory_delete]
    exact distinct_delete about hdistinct
  | deleteOverview job =>
    rw [ask, directory_deleteOverview, Directory.deleteOverview, attempt_tree]
    exact hdistinct.remove _
  | publish json =>
    rw [ask, directory_publish]
    exact distinct_replaceFile hdistinct
  | get | holds | listOverviews => exact hdistinct

namespace Orderly

theorem ready (h : Orderly root t₀ c tries t) : Ready root t := h.neat.ready

theorem stems (h : Orderly root t₀ c tries t) (hj : Job.isId job) (ha : Area root job q)
    (hn : t.node? q ≠ none) : Stems root job (tries job) t q := by
  have hqc : q ≠ combinedFile root := by
    rintro rfl
    exact not_area_combinedFile hj ha
  obtain ⟨job', hj', hstem⟩ := h.traced q ha.within ha.ne_directory.1 ha.ne_directory.2 hqc hn
  have ha' : Area root job' q := (hstem.above_or_area hj').resolve_left fun habove => habove.not_area ha
  obtain rfl : job = job' := ha.job_eq hj hj' ha'
  exact hstem

theorem of_reset (hroot : ∀ s ∈ root, Path.IsPlain s) (hs : Sound t)
    (h : ((directory root).reset t).1.outcome = .ok ()) :
    Orderly root t .empty (fun _ => []) ((directory root).reset t).2 := by
  rw [directory_reset] at h ⊢
  have hok : Directory.reset root t = (.ok (), (Directory.reset root t).2) :=
    Prod.ext (lift_eq_ok_iff.mp h) rfl
  obtain ⟨hready, hempty⟩ := ready_reset hroot hs hok
  obtain ⟨htidy, halike⟩ := keeping_empty hready hempty
  exact ⟨htidy.neat, htidy.distinct, halike,
    fun q hq hqj hqo _ hn => absurd (hempty q hq hqj hqo) hn,
    by simp [hempty _ within_combinedFile combinedFile_ne.1 combinedFile_ne.2],
    fun q => reset_elsewhere hroot hok⟩

theorem ask (h : Orderly root t₀ c tries t) (hroot : ∀ s ∈ root, Path.IsPlain s)
    (about : request.AboutJobs) :
    Orderly root t₀ (c.following request ((directory root).ask t request).1)
      (fun job => Use.tries job (tries job) (.ask request)) ((directory root).ask t request).2 where
  neat := neat_ask hroot h.neat about
  distinct := distinct_ask hroot h.ready h.distinct about
  alike := (step_ask hroot h.ready about).alike about h.alike
  traced := (step_ask hroot h.ready about).traced about h.traced
  combinedFree := (step_ask hroot h.ready about).combinedFree about h.ready h.combinedFree
  elsewhere q hq := by
    rw [(step_ask hroot h.ready about).same_elsewhere about h.ready hq]
    exact h.elsewhere q hq

/-- A directory stays in order through all uses of the store. -/
theorem through (h : Orderly root t₀ c tries t) (hroot : ∀ s ∈ root, Path.IsPlain s)
    {uses : List Use} (about : ∀ use ∈ uses, use.AboutJobs) :
    Orderly root t₀ ((directory root).kept true c t uses)
      (fun job => uses.foldl (Use.tries job) (tries job)) ((directory root).through t uses) := by
  induction uses generalizing c tries t with
  | nil => exact h
  | cons use uses ih =>
    obtain ⟨habout, hrest⟩ := List.forall_mem_cons.mp about
    cases use with
    | ask request => exact ih (h.ask hroot habout) hrest
    | close => exact ih h hrest

end Orderly

end Directory

end ArchiveKeeper.Store
