import ArchiveKeeper.Store.Basic

namespace ArchiveKeeper.Overview

def skipped (job : String) (fault : Fault) : Log.Record :=
  Log.warn "Skipping unreadable job overview" [("jobId", .str job), ("err", .str fault.text)]

variable {σ ε : Type} [Throwable ε]

def unpublished (text : String) : Log.Record :=
  Log.error "Failed to update job overview" [("err", .str text)]

def published (count : Nat) : Log.Record := Log.debug "Job overview updated" [("jobs", .nat count)]

/-- Publishes the merge of the stored overviews and answers how many jobs it lists, or nothing if
the store failed. -/
def republish (store : Store σ ε) : Operation σ (Option Nat) := fun s =>
  match store.listOverviews s with
  | (⟨.error x, log⟩, s) =>
    let reply := Reply.despite x none unpublished
    (⟨reply.outcome, log ++ reply.log⟩, s)
  | (⟨.ok stored, log⟩, s) =>
    let jobs := merge stored
    let warnings := (unreadable stored).map fun (job, fault) => skipped job fault
    match store.publish (write jobs) s with
    | (⟨.error x, log'⟩, s) =>
      let reply := Reply.despite x none unpublished
      (⟨reply.outcome, log ++ warnings ++ log' ++ reply.log⟩, s)
    | (⟨.ok (), log'⟩, s) =>
      (⟨.ok (some jobs.length), log ++ warnings ++ log' ++ [published jobs.length]⟩, s)

end ArchiveKeeper.Overview
