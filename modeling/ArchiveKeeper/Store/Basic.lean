import ArchiveKeeper.Job.Path
import ArchiveKeeper.Overview
import ArchiveKeeper.Operation

namespace ArchiveKeeper

inductive Backend where
  | files
  | table
deriving DecidableEq, Repr, Inhabited

def Backend.name : Backend → String
  | .files => "file"
  | .table => "kvstore"

/-- A store. What it throws while the overview is published may be of any kind; of a refused
document it matters only that it was refused. -/
structure Store (σ : Type) (ε : Type := Failure) where
  backend : Backend
  /-- Drops what an earlier run has left. -/
  reset : Operation σ Unit
  /-- Stores a document of a job; refuses paths that the job does not own. -/
  put : String → String → String → Operation σ Unit
  get : String → Operation σ (Option String)
  /-- Removes every document of a job; failures are only logged. -/
  delete : String → Operation σ Unit
  deleteOverview : String → Operation σ Unit
  listOverviews : Operation σ (List StoredOverview) ε
  holds : String → Operation σ Bool
  publish : String → Operation σ Unit ε
  close : Operation σ Unit

namespace Store

def zoom (get : σ → τ) (set : τ → σ → σ) (s : Store τ) : Store σ where
  backend := s.backend
  reset := s.reset.zoom get set
  put job path json := (s.put job path json).zoom get set
  get path := (s.get path).zoom get set
  delete job := (s.delete job).zoom get set
  deleteOverview job := (s.deleteOverview job).zoom get set
  listOverviews := s.listOverviews.zoom get set
  holds job := (s.holds job).zoom get set
  publish json := (s.publish json).zoom get set
  close := s.close.zoom get set

def bindBackend (s : Store σ) : Store σ :=
  let b := [("storage", Json.Value.str s.backend.name)]
  { s with
    reset := s.reset.bind b
    put := fun job path json => (s.put job path json).bind b
    get := fun path => (s.get path).bind b
    delete := fun job => (s.delete job).bind b
    deleteOverview := fun job => (s.deleteOverview job).bind b
    listOverviews := s.listOverviews.bind b
    holds := fun job => (s.holds job).bind b
    publish := fun json => (s.publish json).bind b
    close := s.close.bind b }

def outsideTree (job path : String) : Failure := .ingestion job (.outsideTree path)

end Store

end ArchiveKeeper
