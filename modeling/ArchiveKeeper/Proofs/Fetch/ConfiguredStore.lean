import ArchiveKeeper.Fetch.Site
import ArchiveKeeper.Proofs.Fetch.Mirror
import ArchiveKeeper.Proofs.Store.Database
import ArchiveKeeper.Proofs.Store.Directory

namespace ArchiveKeeper

open Files Store

variable {σ ρ τ : Type} {base : Path} {config : Config.Storage} {job : String}

namespace Site

def view (base : Path) (c : Config.Storage) : View (Site τ) :=
  match c.backend with
  | .files => (Directory.view (Path.resolve base c.directory)).zoom (·.files)
  | .table => Database.view.zoom fun s => (s.files, s.connection)

theorem store_keeps (hbase : ∀ s ∈ base, Path.IsPlain s) (c : Config.Storage) :
    Keeps (Site.store base c : Store (Site τ)) (Site.view base c) := by
  unfold Site.store Site.view
  refine Keeps.bindBackend ?_
  cases c.backend with
  | files =>
    refine (directory_keeps (Path.plain_resolve hbase _)).zoom ?_
    exact fun _ _ => rfl
  | table =>
    refine (database_keeps _).zoom ?_
    exact fun _ _ => rfl

theorem outcome_reset (h : config.backend = .files) (s : Site τ) :
    ((Site.store base config).reset s).1.outcome =
      Directory.lift (Directory.reset (Path.resolve base config.directory) s.files).1 := by
  simp only [Site.store, h]
  simp only [bindBackend, Operation.bind, Store.zoom, Operation.zoom, Directory.directory_reset]

theorem outcome_holds (h : config.backend = .files) (s : Site τ) :
    ((Site.store base config).holds job s).1.outcome =
      Directory.lift (Directory.holds (Path.resolve base config.directory) job s.files) := by
  simp only [Site.store, h]
  simp only [bindBackend, Operation.bind, Store.zoom, Operation.zoom, Directory.outcome_holds]

theorem untouched_refl (base : Path) (c : Config.Storage) (s : Site τ) :
    (Site.view base c).untouched s s := by
  unfold Site.view
  cases c.backend with
  | files => exact fun _ _ => rfl
  | table => rfl

end Site

namespace Store

/-- There is nothing of a job in a store. -/
structure Lacks (S : Store ρ) (V : View ρ) (job : String) (w : ρ) : Prop where
  notThere : (S.holds job w).1.outcome ≠ .ok true
  absent : V.visible job → (S.holds job w).1.outcome = .ok false
  unread : ∀ path, Job.InTree job path → ∀ text, (S.get path w).1.outcome ≠ .ok (some text)
  unlisted : ∃ os, (S.listOverviews w).1.outcome = .ok os ∧ ∀ o ∈ os, o.job ≠ job

/-- A job has filed what is on a shelf, and nothing else. -/
structure Carries (S : Store ρ) (job : String) (shelf : Shelf) (w : ρ) : Prop where
  read : ∀ path, Job.InTree job path → ∀ text,
    (S.get path w).1.outcome = .ok (some text) ↔ shelf path = some text
  listed : ∃ os, (S.listOverviews w).1.outcome = .ok os ∧
    ∀ json, ⟨job, json⟩ ∈ os ↔ shelf Job.overviewPath = some json

variable {S : Store ρ} {V : View ρ} {w : ρ}

theorem Keeps.lacks (h : Keeps S V) (hj : Job.isId job) (hw : V.ready w) (hb : V.bare job w) :
    Lacks S V job w := by
  obtain ⟨hno, hfalse⟩ := h.absent job w hj hw hb
  obtain ⟨os, hos, hmem⟩ := h.overviews w hw
  have hempty := h.empty job w hj hw hb
  refine ⟨hno, hfalse, fun path hin text ht => ?_, os, hos, fun o ho he => ?_⟩
  · rw [h.get job path w hj hw hin, hempty] at ht
    cases ht
  · subst he
    have hfiled := (hmem o.job hj o.json).mp ho
    rw [hempty] at hfiled
    cases hfiled

theorem Keeps.carries (h : Keeps S V) (hj : Job.isId job) (hw : V.ready w) :
    Carries S job (V.shelf job w) w := by
  obtain ⟨os, hos, hmem⟩ := h.overviews w hw
  exact ⟨fun path hin => h.get job path w hj hw hin, os, hos, hmem job hj⟩

end Store

namespace Fetch.Fetcher

variable {f : Fetcher σ} {part : σ → Site τ} {drift : σ → σ → Prop} {w₀ w : σ} {cache : Cache}
  {history : List (Result × Progress σ)}

/-- A fetcher that uses the store of a configuration, which nothing else meddles with. -/
structure Sited (f : Fetcher σ) (base : Path) (config : Config.Storage) (part : σ → Site τ)
    (drift : σ → σ → Prop) (w₀ : σ) : Prop where
  plain : ∀ s ∈ base, Path.IsPlain s
  stands : f.StandsOn part (Site.store base config) (Site.view base config)
  sound : (Site.view base config).sound (part w₀)
  drift : ∀ w w', drift w w' → (Site.view base config).untouched (part w) (part w')

/-- After any run over either store, if only jobs can be deleted, there is nothing of a job that no
location holds, and of a job that is held there is what the bundle filed that was read when the job
was last created. -/
theorem store_mirrors (sited : f.Sited base config part drift w₀)
    (run : f.Run drift w₀ history cache w) (distinct : ∀ x ∈ history, x.2.DistinctListings)
    (valid : ∀ x ∈ history, x.2.ValidListings) (hj : Job.isId job) :
    (¬ cache.holds job → Lacks (Site.store base config) (Site.view base config) job (part w)) ∧
      (cache.holds job → ∃ docs ds, origin? job history = some docs ∧
        docs.mapM (stored job) = .ok ds ∧
        Carries (Site.store base config) job (Shelf.ofDocuments ds) (part w)) := by
  have keeps : Keeps (Site.store base config : Store (Site τ)) (Site.view base config) :=
    Site.store_keeps sited.plain config
  have mirrored := run.mirrored keeps sited.stands sited.sound sited.drift distinct valid
  constructor
  · exact fun hno => keeps.lacks hj mirrored.ready (mirrored.bare job hj hno)
  · intro hheld
    obtain ⟨docs, ds, ho, hds, hshelf⟩ := mirrored.filed job hj hheld
    have hcarries := keeps.carries hj mirrored.ready
    exact ⟨docs, ds, ho, hds, hshelf ▸ hcarries⟩

theorem sited_sample {outage : Site Bool → Site Bool → Prop}
    (houtage : ∀ w w', outage w w' → w'.connection = w.connection) :
    sample.Sited [] sampleConfig id outage blankSite where
  plain := by simp
  stands := by
    have hl (l : Listener (Site Bool)) (h : sample.listener = some l) (e : Event)
        (w : Site Bool) : (l e w).2 = w := by
      obtain rfl := Option.some.inj h
      rfl
    refine StandsOn.refl (Site.untouched_refl [] sampleConfig) hl fun s hs a w => ?_
    have hs' : s = sampleSource ∨ s = offering "second" (fun _ => false) [] := by
      simpa [sample] using hs
    rcases hs' with rfl | rfl
    · exact offering_unchanged ..
    · exact offering_unchanged ..
  sound := trivial
  drift := houtage

theorem store_sampleCycle :
    Carries (Site.store [] sampleConfig) sampleArchive.job (Shelf.ofDocuments sampleBundle)
        sampleCycle.2.world ∧
      Lacks (Site.store [] sampleConfig) (Site.view [] sampleConfig)
        "00000000000000000000000000000002" sampleCycle.2.world := by
  have sited : sample.Sited [] sampleConfig id (fun _ _ => False) blankSite :=
    sited_sample fun _ _ h => h.elim
  have distinct : ∀ x ∈ [sampleCycle], x.2.DistinctListings :=
    List.forall_mem_singleton.mpr distinct_sampleCycle
  have valid : ∀ x ∈ [sampleCycle], x.2.ValidListings :=
    List.forall_mem_singleton.mpr valid_sampleCycle
  have held : sampleCycle.2.cache.holds sampleArchive.job := by decide +kernel
  have free : ¬ sampleCycle.2.cache.holds "00000000000000000000000000000002" := by decide +kernel
  have horigin : origin? sampleArchive.job [sampleCycle] = some sampleBundle := by
    decide +kernel
  have hstored : sampleBundle.mapM (stored sampleArchive.job) = .ok sampleBundle := by
    decide +kernel
  constructor
  · obtain ⟨docs, ds, ho, hds, hcarries⟩ :=
      (store_mirrors sited run_sampleCycle distinct valid (by decide)).2 held
    obtain rfl := Option.some.inj (horigin.symm.trans ho)
    obtain rfl := Except.ok.inj (hstored.symm.trans hds)
    exact hcarries
  · exact (store_mirrors sited run_sampleCycle distinct valid (by decide)).1 free

end Fetch.Fetcher

namespace Fetch

def idle (base : Path) : Fetcher (Site Unit) where
  sources := [offering "archives" (fun _ => false) []]
  store := Site.store base .initial
  listener := none
  policy := ⟨.unbounded, true, true⟩
  cycleBindings := []
  overviewBindings := []

def initialSite : Site Unit := ⟨.empty, .closed, ()⟩

theorem sound_initialSite (base : Path) (c : Config.Storage) :
    (Site.view base c).sound initialSite := by
  unfold Site.view
  cases c.backend with
  | files => exact Tree.sound_empty
  | table => trivial

theorem sited_idle (hbase : ∀ s ∈ base, Path.IsPlain s) :
    (idle base).Sited base .initial id (fun _ _ => False) initialSite where
  plain := hbase
  stands := by
    have hl : (idle base).listener = none := rfl
    refine Fetcher.StandsOn.refl (Site.untouched_refl base .initial) (by simp [hl]) fun s hs a w => ?_
    obtain rfl := List.mem_singleton.mp hs
    exact offering_unchanged "archives" _ [] a w
  sound := sound_initialSite base .initial
  drift _ _ h := h.elim

/-- Where the root of the store is so deep that the system does not take the paths of overviews, the
store can be set up, but does not answer whether there is something of a job. -/
theorem idle_refuses (hbase : ∀ s ∈ base, Path.IsPlain s ∧ Text.byteCount s ≤ Tree.longestName)
    (hjobs : Tree.accept (Path.text (base ++ ["output", "history", "jobs"])) = .ok ())
    (hoverviews : Tree.accept (Path.text (base ++ ["output", "history", "overviews"])) = .ok ())
    (hj : Job.isId job) (hlong : Tree.accept (Path.text
      (base ++ ["output", "history", "overviews", job ++ Directory.ending])) ≠ .ok ()) :
    ∃ w, (idle base).Run (fun _ _ => False) initialSite [] (idle base).emptyCache w ∧
      ((Site.store base .initial).holds job w).1.outcome ≠ .ok false := by
  have hresolve : Path.resolve base Config.Storage.initial.directory =
      base ++ ["output"] ++ ["history"] := rfl
  have hbackend : Config.Storage.initial.backend = .files := rfl
  have haccept : Fetcher.accept (.ofInt (-1)) ["archives"] = .ok .unbounded := by decide
  have hroot : ∀ s ∈ base ++ ["output"] ++ ["history"],
      Path.IsPlain s ∧ Text.byteCount s ≤ Tree.longestName := by
    simp only [List.mem_append, List.mem_singleton]
    rintro s ((hs | rfl) | rfl)
    · exact hbase s hs
    · exact ⟨⟨by decide, by decide⟩, by decide⟩
    · exact ⟨⟨by decide, by decide⟩, by decide⟩
  have happ (names : List String) : base ++ ["output"] ++ ["history"] ++ names =
      base ++ "output" :: "history" :: names := by simp
  have hreset : ((idle base).store.reset initialSite).1.outcome = .ok () := by
    refine (Site.outcome_reset hbackend initialSite).trans ?_
    rw [hresolve, Directory.lift_eq_ok_iff]
    refine Directory.reset_empty hroot ?_ ?_
    · rwa [Directory.jobs, happ]
    · rwa [Directory.overviews, happ]
  obtain ⟨log, w, hprepare⟩ := Fetcher.prepare_ok hreset
  refine ⟨w, .prepared ⟨.ofInt (-1), haccept⟩ hprepare, ?_⟩
  rw [Site.outcome_holds hbackend, hresolve]
  have hrefused : Tree.accept (Path.text
      (Directory.overviewFile (base ++ ["output"] ++ ["history"]) job)) ≠ .ok () := by
    rwa [Directory.overviewFile_eq hj, Directory.overviews, List.append_assoc, happ]
  obtain ⟨e, he⟩ := Directory.holds_of_refused (t := w.files) hrefused
  rw [he]
  simp [Directory.lift]

/-- A working directory whose path is nearly as long as the system takes. -/
def deepDirectory : Path := List.replicate 17 (String.ofList (List.replicate 237 'a'))

theorem accept_deep {names : List String} (h : ∀ s ∈ names, '\x00' ∉ s.toList) :
    Tree.accept (Path.text (deepDirectory ++ names)) = .ok () ↔
      (names.map fun s => Text.byteCount s + 1).sum ≤ 49 := by
  have hne : deepDirectory ≠ [] := List.cons_ne_nil _ _
  rw [Tree.accept_text_iff (by simp [hne]), and_iff_right]
  · simp only [deepDirectory, List.map_append, List.sum_append, List.map_replicate,
      List.sum_replicate_nat, Text.byteCount_replicate, Tree.longestPath]
    omega
  · intro s hs
    rcases List.mem_append.mp hs with hs | hs
    · rw [List.eq_of_mem_replicate hs, String.toList_ofList]
      intro c hc
      rw [List.eq_of_mem_replicate hc]
      decide
    · exact List.forall_mem_ne'.mpr (h s hs)

/-- In the deep directory the store can be set up, but it does not answer that there is nothing of a
job that is not held. -/
theorem deep_store_refuses : ∃ w,
    (idle deepDirectory).Sited deepDirectory .initial id (fun _ _ => False) initialSite ∧
    (idle deepDirectory).Run (fun _ _ => False) initialSite [] (idle deepDirectory).emptyCache w ∧
    Job.isId "00000000000000000000000000000001" ∧
    ¬ (idle deepDirectory).emptyCache.holds "00000000000000000000000000000001" ∧
    ((Site.store deepDirectory .initial).holds "00000000000000000000000000000001" w).1.outcome ≠
      .ok false := by
  have hj : Job.isId "00000000000000000000000000000001" := by decide
  have hbase : ∀ s ∈ deepDirectory, Path.IsPlain s ∧ Text.byteCount s ≤ Tree.longestName := by
    intro s hs
    have hsize : Text.byteCount s = 237 := by
      rw [List.eq_of_mem_replicate hs, Text.byteCount_replicate]
    refine ⟨⟨?_, ?_⟩, by rw [hsize]; decide⟩ <;> rintro rfl <;> exact absurd hsize (by decide)
  obtain ⟨w, run, hholds⟩ := idle_refuses hbase ((accept_deep (by decide +kernel)).mpr (by decide))
    ((accept_deep (by decide +kernel)).mpr (by decide)) hj
    (mt (accept_deep (by decide +kernel)).mp (by decide))
  exact ⟨w, sited_idle fun s hs => (hbase s hs).1, run, hj, by decide, hholds⟩

end Fetch

end ArchiveKeeper
