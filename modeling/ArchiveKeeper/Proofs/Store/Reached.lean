import ArchiveKeeper.Proofs.Store.DirectoryUses
import ArchiveKeeper.Proofs.Store.Reopening

namespace ArchiveKeeper.Site

open Files Store

variable {τ : Type} {base : Path} {config : Config.Storage} {s : Site τ} {uses : List Use}

/-- The state of a site on which the store was reset, and used since. -/
def reached (base : Path) (config : Config.Storage) (s : Site τ) (uses : List Use) : Site τ :=
  (Site.store base config).through ((Site.store base config).reset s).2 uses

def keptBy (base : Path) (config : Config.Storage) (s : Site τ) (uses : List Use) : Contents :=
  (Site.store base config).kept (lasting base config) .empty ((Site.store base config).reset s).2
    uses

/-- A site on which the store can be reset, and what it is used for then. -/
structure InUse (base : Path) (config : Config.Storage) (s : Site τ) (uses : List Use) : Prop where
  /-- The working directory is in normal form. -/
  plain : ∀ name ∈ base, Path.IsPlain name
  sound : s.files.Sound
  /-- The store was not used before. -/
  fresh : s.connection = .closed
  reset : ((Site.store base config).reset s).1.outcome = .ok ()
  about : ∀ use ∈ uses, use.AboutJobs

namespace InUse

theorem plainRoot (h : InUse base config s uses) : ∀ name ∈ root base config, Path.IsPlain name :=
  Path.plain_resolve h.plain _

/-- A store in files is in order in every state that it can reach. -/
theorem orderly (h : InUse base config s uses) (hbackend : config.backend = .files) :
    Directory.Orderly (root base config) s.files (keptBy base config s uses)
      (fun job => tried job uses) (reached base config s uses).files := by
  have hacts := acts_directory (τ := τ) base hbackend
  have hreset := h.reset
  have hnext : ((Site.store base config).reset s).2.files =
      ((directory (root base config)).reset s.files).2 := hacts.next_reset s
  have hlasting : lasting base config = true := by rw [lasting, hbackend]
  rw [hacts.outcome_reset] at hreset
  rw [reached, keptBy, hacts.through, hacts.kept, hnext, hlasting]
  have hstart := Directory.Orderly.of_reset h.plainRoot h.sound hreset
  exact hstart.through h.plainRoot h.about

/-- A store in a table is at work on it in every state that it can reach. -/
theorem retains (h : InUse base config s uses) (hbackend : config.backend = .table) :
    Database.Retains (.ofText base config.database) (keptBy base config s uses)
      ((reached base config s uses).files, (reached base config s uses).connection) := by
  have hacts := acts_database (τ := τ) base hbackend
  have hreset := h.reset
  have hnext : (((Site.store base config).reset s).2.files,
      ((Site.store base config).reset s).2.connection) =
      ((database (.ofText base config.database)).reset (s.files, s.connection)).2 :=
    hacts.next_reset s
  have hlasting : lasting base config =
      (Database.Place.ofText base config.database).file.isSome := by rw [lasting, hbackend]
  rw [hacts.outcome_reset, h.fresh] at hreset
  have hstart := Database.Retains.of_reset (Database.sited_ofText h.plain config.database) hreset
  have hthrough := hacts.through ((Site.store base config).reset s).2 uses
  rw [hnext, h.fresh] at hthrough
  rw [keptBy, hacts.kept, hnext, h.fresh, hlasting]
  exact hthrough ▸ hstart.through h.about

end InUse

/-- A job, and a store in files in a directory where nothing is. -/
def firstJob : String := "00000000000000000000000000000001"

def inData : Config.Storage := ⟨.files, "data", "data/history.sqlite"⟩

def vacant : Site Unit := ⟨.empty, .closed, ()⟩

theorem inUse_vacant (about : ∀ use ∈ uses, use.AboutJobs) : InUse [] inData vacant uses :=
  ⟨by simp, Tree.sound_empty, rfl, rfl, about⟩

theorem isId_firstJob : Job.isId firstJob := by decide

def putBefore (path : String) : List Use := [.ask (.put firstJob path "null")]

theorem inUse_putBefore (path : String) : InUse [] inData vacant (putBefore path) :=
  inUse_vacant (by simp [putBefore, Use.AboutJobs, Request.AboutJobs, isId_firstJob])

end ArchiveKeeper.Site
