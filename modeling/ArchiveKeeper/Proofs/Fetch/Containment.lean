import ArchiveKeeper.Proofs.Fetch.ConfiguredStore

namespace ArchiveKeeper

open Store

variable {σ τ : Type} {base : Files.Path} {config : Config.Storage}

namespace Store.Database

theorem outcome_attempt (place : Place) (message job : String) (act : Table → Table) (w : World) :
    (attempt place message job act w).1.outcome = .ok () := by
  rw [attempt]
  split <;> rfl

end Store.Database

/-- No store of a configuration refuses to delete a job, whatever state it is in. -/
theorem Site.outcome_delete (base : Files.Path) (config : Config.Storage) (job : String)
    (s : Site τ) : ((Site.store base config).delete job s).1.outcome = .ok () := by
  cases h : config.backend with
  | files =>
    simp only [Site.store, h]
    simp only [bindBackend, Operation.bind, Store.zoom, Operation.zoom, Directory.outcome_delete]
  | table =>
    simp only [Site.store, h]
    simp only [bindBackend, Operation.bind, Store.zoom, Operation.zoom, database,
      Database.outcome_attempt]

namespace Fetch.Fetcher

open Act Progress

end Fetch.Fetcher

end ArchiveKeeper
