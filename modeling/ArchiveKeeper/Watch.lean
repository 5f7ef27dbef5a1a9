import ArchiveKeeper.Scheduler

namespace ArchiveKeeper

structure Watch (σ : Type) where
  fetcher : Fetch.Fetcher σ
  scheduler : Scheduler
  cache : Cache

namespace Watch

variable {σ : Type}

def scheduled (log : List Log.Record) : List Log.Record :=
  log.map (Log.Record.bind [("component", .str "scheduler")])

def work (w : Watch σ) (s : σ) : List Log.Record × Watch σ × σ :=
  if w.scheduler.isRunning then
    let (result, p) := w.fetcher.cycle w.cache s
    let (_, log, scheduler) := w.scheduler.finish (.ok result)
    (p.log ++ scheduled log, ⟨w.fetcher, scheduler, p.cache⟩, p.world)
  else ([], w, s)

/-- Empties the store, puts a schedule in force, and runs a first cycle. -/
def start (schedule : String) (f : Fetch.Fetcher σ) : Operation σ (Watch σ) := fun s =>
  match f.prepare s with
  | (⟨.error e, log⟩, s) => (⟨.error e, log⟩, s)
  | (⟨.ok (), log⟩, s) =>
    match Scheduler.start schedule true .initial with
    | (.error e, more, _) => (⟨.error e, log ++ scheduled more⟩, s)
    | (.ok _, more, scheduler) =>
      let (first, w, s) := work ⟨f, scheduler, f.emptyCache⟩ s
      (⟨.ok w, log ++ scheduled more ++ first⟩, s)

def tick (w : Watch σ) (s : σ) : List Log.Record × Watch σ × σ :=
  let (_, asked, scheduler) := w.scheduler.trigger
  let (done, w, s) := work { w with scheduler := scheduler } s
  (scheduled asked ++ done, w, s)

def stop (w : Watch σ) : Operation σ Unit := fun s =>
  let farewell := Log.info "Shutting down archive fetcher" []
  match w.fetcher.store.close s with
  | (⟨.ok (), log⟩, s) => (⟨.ok (), farewell :: log⟩, s)
  | (⟨.error e, log⟩, s) =>
    (⟨.error e, farewell :: log ++ [Log.error "Shutdown failed" [("err", .str e.message)]]⟩, s)

end Watch

end ArchiveKeeper
