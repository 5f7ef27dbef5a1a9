import ArchiveKeeper.CommandLine.Program
import ArchiveKeeper.ObjectStore.Memory
import ArchiveKeeper.Proofs.Fetch.Act
import ArchiveKeeper.Proofs.Store.Blame

namespace ArchiveKeeper

variable {σ τ : Type} {f : Fetch.Fetcher σ}

theorem Fetch.Fetcher.unblaming_prepare (h : f.store.Unblaming) : f.prepare.Unblaming := by
  intro s
  obtain ⟨e, hreset, hprepare⟩ | ⟨-, log, hprepare⟩ := prepare_cases f s
  · rw [hprepare]
    exact hreset ▸ h.reset s
  · rw [hprepare]
    exact Failure.unblamed_ok ()

theorem Scheduler.start_error {schedule : String} {e : Failure} {log : List Log.Record}
    {s : Scheduler} (h : Scheduler.start schedule true .initial = (.error e, log, s)) :
    Cron.isValid schedule = false ∧ e = .configuration (.cron schedule) := by
  unfold start at h
  split at h
  · rename_i hinvalid
    cases h
    exact ⟨by simpa using hinvalid, rfl⟩
  · simp [initial] at h

/-- A watch that does not start has left what its preparation leaves, whether that is what failed or
the schedule. -/
theorem Watch.start_error {schedule : String} {s s' : σ} {e : Failure} {log : List Log.Record}
    (h : Watch.start schedule f s = (⟨.error e, log⟩, s')) :
    s' = (f.prepare s).2 ∧ ((f.prepare s).1.outcome = .error e ∨
      Cron.isValid schedule = false ∧ e = .configuration (.cron schedule)) := by
  unfold start at h
  rcases hp : f.prepare s with ⟨⟨e' | u, log'⟩, s''⟩
  · rw [hp] at h
    cases h
    exact ⟨rfl, .inl rfl⟩
  · rw [hp] at h
    dsimp only at h
    split at h
    · rename_i hs
      cases h
      exact ⟨rfl, .inr (Scheduler.start_error hs)⟩
    · cases h

theorem Site.store_of_fetcher {base : Files.Path} {objects : ObjectStore τ}
    {listener : Option (Listener (Site τ))} {c : Config} {f : Fetch.Fetcher (Site τ)}
    (h : Site.fetcher base objects listener c = .ok f) : f.store = Site.store base c.storage := by
  unfold Site.fetcher at h
  split at h
  · cases h
  · split at h
    · cases h
    · cases h
      rfl

namespace CommandLine

def Report.Unblaming (r : Report) : Prop := ∀ reason, r.ending ≠ .failed (.configuration reason)

theorem unblaming_closing {store : Store σ} {command : σ → Report × σ} {s : σ}
    (h : store.Unblaming) (hcommand : (command s).1.Unblaming) :
    (closing store command s).1.Unblaming := by
  have hclose := h.close (command s).2
  unfold closing
  dsimp only
  split
  · exact hcommand
  · rename_i e log s' heq
    rw [heq] at hclose
    exact fun reason he => hclose reason (by rw [Ending.failed.inj he])

theorem unblaming_fetch (h : f.store.Unblaming) (s : σ) : (fetch f s).1.Unblaming := by
  have hprepare := Fetch.Fetcher.unblaming_prepare h s
  intro reason
  unfold fetch
  split
  · rename_i e log s' heq
    rw [heq] at hprepare
    exact fun he => hprepare reason (by rw [Ending.failed.inj he])
  · dsimp only
    split <;> simp

theorem unblaming_document {store : Store σ} (h : store.Unblaming) (path : String) (s : σ) :
    (document store path s).1.Unblaming := by
  have hget := h.get path s
  intro reason
  unfold document
  split
  · simp
  · simp
  · rename_i e log s' heq
    rw [heq] at hget
    exact fun he => hget reason (by rw [Ending.failed.inj he])

/-- A watch finds nothing wrong with the configuration but its schedule, and that only when its store
has been prepared. -/
theorem watch_blaming {schedule : String} {s : σ} {reason : Failure.Configuration}
    (h : f.store.Unblaming)
    (failed : (watch schedule f s).1.ending = .failed (.configuration reason)) :
    Cron.isValid schedule = false ∧ reason = .cron schedule ∧
      (watch schedule f s).2 = (f.prepare s).2 := by
  unfold watch at failed ⊢
  split at failed
  · rename_i e log s' heq
    obtain ⟨hs', hprepare | ⟨hinvalid, he⟩⟩ := Watch.start_error heq
    · exact absurd (by rw [hprepare, Ending.failed.inj failed])
        (Fetch.Fetcher.unblaming_prepare h s reason)
    · rw [he] at failed
      cases failed
      exact ⟨hinvalid, rfl, hs'⟩
  · split at failed <;> cases failed

/-- What a request has left of the files and the objects that it found. -/
def Leaves (s s' : Site τ) : Prop := s'.files = s.files ∧ s'.objects = s.objects

/-- A watch stumbles over its schedule when it has prepared its store. -/
def Stumbles (w : Surroundings τ) (arguments : List String) (s : Site τ)
    (reason : Failure.Configuration) : Prop :=
  ∃ path? config f, Request.read arguments = .ok (.command .watch path?) ∧
    w.config path? s.files = .ok config ∧ w.fetcher config = .ok f ∧
    Cron.isValid config.archive.schedule = false ∧ reason = .cron config.archive.schedule ∧
    (run w arguments s).2 = (f.prepare { s with connection := .closed }).2

theorem command_blaming {w : Surroundings τ} {config : Config} {c : Command} {s : Site τ}
    {reason : Failure.Configuration}
    (failed : (c.run w config s).1.ending = .failed (.configuration reason)) :
    (c.run w config s).2 = s ∨ c = .watch ∧ ∃ f, w.fetcher config = .ok f ∧
      Cron.isValid config.archive.schedule = false ∧ reason = .cron config.archive.schedule ∧
      (c.run w config s).2 = (f.prepare s).2 := by
  have hstore : (Site.store w.directory config.storage : Store (Site τ)).Unblaming :=
    Site.store_unblaming w.directory config.storage
  have hfetcher {f : Fetch.Fetcher (Site τ)} (hf : w.fetcher config = .ok f) : f.store.Unblaming :=
    Site.store_of_fetcher hf ▸ hstore
  -- a fetcher may refuse the configuration before anything is done; later only a schedule is refused
  cases c with
  | fetch =>
    unfold Command.run at failed ⊢
    cases hf : w.fetcher config with
    | error e => exact .inl rfl
    | ok f =>
      rw [hf] at failed
      exact absurd failed
        (unblaming_closing (hfetcher hf) (unblaming_fetch (hfetcher hf) s) reason)
  | watch =>
    unfold Command.run at failed ⊢
    cases hf : w.fetcher config with
    | error e => exact .inl rfl
    | ok f =>
      rw [hf] at failed
      exact .inr ⟨rfl, f, rfl, watch_blaming (hfetcher hf) failed⟩
  | overview =>
    exact absurd failed (unblaming_closing hstore (unblaming_document hstore _ s) reason)
  | document path =>
    exact absurd failed (unblaming_closing hstore (unblaming_document hstore path s) reason)

/-- A command line that ends with the configuration being wrong has changed no file and no object,
unless it is a watch whose schedule cannot be read. -/
theorem configuration_error_confined (w : Surroundings τ) (arguments : List String) (s : Site τ)
    {reason : Failure.Configuration}
    (failed : (run w arguments s).1.ending = .failed (.configuration reason)) :
    Leaves s (run w arguments s).2 ∨ Stumbles w arguments s reason := by
  unfold Stumbles
  unfold run at failed ⊢
  dsimp only at failed ⊢
  cases hr : Request.read arguments with
  | error m => exact .inl ⟨rfl, rfl⟩
  | ok request =>
    rw [hr] at failed
    cases request with
    | help => exact .inl ⟨rfl, rfl⟩
    | command c path? =>
      unfold Request.run at failed ⊢
      dsimp only at failed ⊢
      cases hc : w.config path? s.files with
      | error e => exact .inl ⟨rfl, rfl⟩
      | ok config =>
        rw [hc] at failed
        obtain hsame | ⟨rfl, f, hf, hinvalid, hreason, hsite⟩ := command_blaming failed
        · left
          show Leaves s (c.run w config _).2
          rw [hsame]
          exact ⟨rfl, rfl⟩
        · exact .inr ⟨path?, config, f, rfl, hc, hf, hinvalid, hreason, hsite⟩

section Mirror

def mirroredJob : String := "/jobs/00000000000000000000000000000001"

/-- A working directory with a store in it, and what is to be set in the environment. -/
def mirrorSurroundings (locations schedule : String) : Surroundings ObjectStore.Memory where
  directory := []
  environment := [("ARCHIVE_DIRS", locations), ("REFRESH_CRON", schedule), ("STORAGE_DIR", "history")]
  objects := ObjectStore.memory

def mirrorSite : Site ObjectStore.Memory where
  files := ⟨[(["history"], .directory), (["history", "jobs"], .directory),
    (["history", "jobs", "00000000000000000000000000000001.json"], .file "null" 0)]⟩
  connection := .closed
  objects := []

/-- A watch reports that its schedule is wrong, and the document that could be shown before is gone. -/
theorem wrong_schedule_empties_store :
    (run (mirrorSurroundings "arch" "nonsense") ["show", mirroredJob] mirrorSite).1.printed =
        ["null"] ∧
      (run (mirrorSurroundings "arch" "nonsense") ["watch"] mirrorSite).1.ending =
        .failed (.configuration (.cron "nonsense")) ∧
      (run (mirrorSurroundings "arch" "nonsense") ["show", mirroredJob]
        (run (mirrorSurroundings "arch" "nonsense") ["watch"] mirrorSite).2).1.ending =
        .noDocument mirroredJob := by
  refine ⟨?_, ?_, ?_⟩ <;> decide +kernel

/-- A location that is named twice is found before anything is touched. -/
theorem repeated_location_leaves :
    (run (mirrorSurroundings "arch,arch" "nonsense") ["watch"] mirrorSite).1.ending =
        .failed (.configuration (.locationTwice "arch")) ∧
      Leaves mirrorSite (run (mirrorSurroundings "arch,arch" "nonsense") ["watch"] mirrorSite).2 := by
  have failed : (run (mirrorSurroundings "arch,arch" "nonsense") ["watch"] mirrorSite).1.ending =
      .failed (.configuration (.locationTwice "arch")) := by
    decide +kernel
  refine ⟨failed, (configuration_error_confined _ _ _ failed).resolve_right ?_⟩
  rintro ⟨path?, config, f, -, -, -, -, hreason, -⟩
  cases hreason

end Mirror

end CommandLine

end ArchiveKeeper
