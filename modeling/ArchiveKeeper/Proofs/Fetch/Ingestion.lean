import ArchiveKeeper.Proofs.Fetch.Act

namespace ArchiveKeeper.Fetch.Fetcher

open Act

variable {σ ε : Type} {f : Fetcher σ ε} {s : Source σ} {a : Archive} {job : String}
  {p q : Progress σ}

/-- Documents are converted and stored one after the other, and lead from a world to another. -/
inductive Stores (f : Fetcher σ ε) (job : String) : List Document → σ → σ → Prop
  | nil (w : σ) : Stores f job [] w w
  | cons {d d' : Document} {ds : List Document} {w w' : σ} (converted : stored job d = .ok d')
      (put : (f.store.put job d'.path d'.json w).1.outcome = .ok ())
      (rest : Stores f job ds (f.store.put job d'.path d'.json w).2 w') : Stores f job (d :: ds) w w'

/-- From a world on, an archive can be read, and its documents can all be converted and stored. -/
def Loads (f : Fetcher σ ε) (s : Source σ) (a : Archive) (w : σ) : Prop :=
  ∃ docs w', (s.read a w).1.outcome = .ok docs ∧ f.Stores a.job docs (s.read a w).2 w'

def converting (f : Fetcher σ ε) (a : Archive) (d : Document) (p : Progress σ) : Progress σ :=
  if d.path = Job.legacyOverviewPath then
    p.said ((Log.debug "Migrating legacy archive"
      [("jobId", .str a.job), ("path", .str a.path)]).bind f.cycleBindings)
  else p

@[simp] theorem world_converting (d : Document) : (f.converting a d p).world = p.world := by
  unfold converting
  split <;> rfl

theorem go_storeAll_of_unconverted {d : Document} {e : Failure} (h : stored a.job d = .error e)
    (ds : List Document) :
    go (f.storeAll a (d :: ds)) p = (.ok (.error e), f.converting a d p) := by
  rw [storeAll, converting]
  split <;> simp only [go_bind, go_say, h, go_pure]

theorem go_storeAll_of_refused {d d' : Document} {e : Failure} (h : stored a.job d = .ok d')
    (hp : (f.store.put a.job d'.path d'.json p.world).1.outcome = .error e) (ds : List Document) :
    go (f.storeAll a (d :: ds)) p = (.ok (.error (.ingestion a.job (.unstored d'.path))),
      (f.converting a d p).asked (.put a.job d'.path d'.json)
        (f.store.put a.job d'.path d'.json)) := by
  rw [storeAll, converting]
  split <;> simp only [go_bind, go_say, h, go_ask, Progress.world_said, hp, go_pure]

theorem go_storeAll_of_put {d d' : Document} (h : stored a.job d = .ok d')
    (hp : (f.store.put a.job d'.path d'.json p.world).1.outcome = .ok ()) (ds : List Document) :
    go (f.storeAll a (d :: ds)) p = go (f.storeAll a ds)
      ((f.converting a d p).asked (.put a.job d'.path d'.json)
        (f.store.put a.job d'.path d'.json)) := by
  rw [storeAll, converting]
  split <;> simp only [go_bind, go_say, h, go_ask, Progress.world_said, hp]

/-- Documents are stored as far as possible; it is known afterwards whether all of them are. -/
theorem storeAll_spec (docs : List Document) (p : Progress σ) :
    ∃ t q, go (f.storeAll a docs) p = (.ok t, q) ∧
      (t = .ok () ∧ f.Stores a.job docs p.world q.world ∨
        (∃ e, t = .error e) ∧ ∀ w, ¬ f.Stores a.job docs p.world w) := by
  induction docs generalizing p with
  | nil => exact ⟨_, _, rfl, .inl ⟨rfl, .nil _⟩⟩
  | cons d ds ih =>
    -- the first document that is not converted or not put ends the storing
    cases hd : stored a.job d with
    | error e =>
      refine ⟨_, _, go_storeAll_of_unconverted hd ds, .inr ⟨⟨e, rfl⟩, fun w hw => ?_⟩⟩
      cases hw with
      | cons converted put rest => simp [hd] at converted
    | ok d' =>
      cases hp : (f.store.put a.job d'.path d'.json p.world).1.outcome with
      | error e =>
        refine ⟨_, _, go_storeAll_of_refused hd hp ds, .inr ⟨⟨_, rfl⟩, fun w hw => ?_⟩⟩
        cases hw with
        | cons converted put rest =>
          rw [hd] at converted
          cases converted
          simp [hp] at put
      | ok u =>
        obtain ⟨t, q, hgo, h⟩ := ih ((f.converting a d p).asked (.put a.job d'.path d'.json)
          (f.store.put a.job d'.path d'.json))
        rw [Progress.world_asked, world_converting] at h
        refine ⟨t, q, (go_storeAll_of_put hd hp ds).trans hgo, h.imp ?_ ?_⟩
        · rintro ⟨ht, hs⟩
          exact ⟨ht, .cons hd hp hs⟩
        · rintro ⟨ht, hs⟩
          refine ⟨ht, fun w hw => ?_⟩
          cases hw with
          | cons converted put rest =>
            rw [hd] at converted
            cases converted
            exact hs w rest

/-- An archive is transferred as far as possible; it is known afterwards whether all of it is. -/
theorem transfer_spec (f : Fetcher σ ε) (s : Source σ) (a : Archive) (p : Progress σ) :
    ∃ t q, go (f.transfer s a) p = (.ok t, q) ∧
      ((t = .ok () ∧ ∃ docs, (s.read a p.world).1.outcome = .ok docs ∧
          f.Stores a.job docs (s.read a p.world).2 q.world) ∨
        (∃ e, t = .error e) ∧ ¬ f.Loads s a p.world) := by
  rw [transfer, go_bind, go_ask]
  cases hr : (s.read a p.world).1.outcome with
  | error e =>
    refine ⟨_, _, rfl, .inr ⟨⟨e, rfl⟩, ?_⟩⟩
    rintro ⟨docs, w, hd, -⟩
    simp [hr] at hd
  | ok docs =>
    obtain ⟨t, q, hgo, h⟩ := storeAll_spec (f := f) (a := a) docs
      (p.asked (.read s.location a) (s.read a))
    rw [Progress.world_asked] at h
    refine ⟨t, q, hgo, h.imp (fun ⟨ht, hs⟩ => ⟨ht, docs, rfl, hs⟩) ?_⟩
    rintro ⟨ht, hs⟩
    refine ⟨ht, ?_⟩
    rintro ⟨docs', w, hd, hw⟩
    cases hr.symm.trans hd
    exact hs w hw

/-- An archive is ingested whole, or all that it left is to be deleted. -/
theorem ingest_cases {r : Except Failure Bool} (h : go (f.ingest s a) p = (r, q)) :
    (r = .ok true ∧ (∃ p' l l', go (f.transfer s a) (p.said l) = (.ok (.ok ()), p') ∧
        q = p'.said l') ∧ ∃ docs, (s.read a p.world).1.outcome = .ok docs ∧
        f.Stores a.job docs (s.read a p.world).2 q.world) ∨
      ¬ f.Loads s a p.world ∧ ∃ t p' l l', go (f.transfer s a) (p.said l) = (t, p') ∧
        q = (p'.said l').asked (.delete a.job) (f.store.delete a.job) ∧
        r = (f.store.delete a.job p'.world).1.outcome.map fun _ => false := by
  rw [ingest, go_bind, go_say] at h
  obtain ⟨t, p', hgo, ht⟩ := transfer_spec f s a (p.said ((Log.info "Processing archive"
    [("jobId", .str a.job), ("path", .str a.path)]).bind f.cycleBindings))
  simp only [go_bind, hgo] at h
  rw [Progress.world_said] at ht
  rcases ht with ⟨rfl, docs, hr, hs⟩ | ⟨⟨e, rfl⟩, hn⟩
  · left
    simp only [go_bind, go_say, go_pure, Prod.mk.injEq] at h
    obtain ⟨rfl, rfl⟩ := h
    exact ⟨rfl, ⟨p', _, _, hgo, rfl⟩, docs, hr, hs⟩
  · right
    simp only [go_bind, go_say, go_deleteJob, go_pure, Progress.world_said] at h
    -- whatever comes of the deletion, it is the last that is done
    cases hd : (f.store.delete a.job p'.world).1.outcome with
    | ok u =>
      rw [hd] at h
      cases h
      exact ⟨hn, _, p', _, _, hgo, rfl, by rw [hd]; rfl⟩
    | error e =>
      rw [hd] at h
      cases h
      exact ⟨hn, _, p', _, _, hgo, rfl, by rw [hd]; rfl⟩

theorem ingest_true (h : go (f.ingest s a) p = (.ok true, q)) :
    (∃ p' l l', go (f.transfer s a) (p.said l) = (.ok (.ok ()), p') ∧ q = p'.said l') ∧
      ∃ docs, (s.read a p.world).1.outcome = .ok docs ∧
        f.Stores a.job docs (s.read a p.world).2 q.world := by
  obtain ⟨-, hwhole⟩ | ⟨-, t, p', l, l', -, -, hr⟩ := ingest_cases h
  · exact hwhole
  · cases hd : (f.store.delete a.job p'.world).1.outcome <;> simp [hd, Except.map] at hr

section Respects

variable {R : Progress σ → Progress σ → Prop} [IsPreorder (Progress σ) R]
  (onSaid : ∀ p r, R p (p.said r))
  (onPut : ∀ p path json, R p (p.asked (.put a.job path json) (f.store.put a.job path json)))
  (onRead : ∀ p, R p (p.asked (.read s.location a) (s.read a)))
  (onDelete : ∀ p, R p (p.asked (.delete a.job) (f.store.delete a.job)))

include onSaid onPut in
theorem respects_storeAll (docs : List Document) : Respects R (f.storeAll a docs) := by
  induction docs with
  | nil => exact respects_pure _
  | cons d ds ih =>
    intro p
    have hc : R p (f.converting a d p) := by
      unfold converting
      split
      · exact onSaid p _
      · exact refl_of R p
    cases hd : stored a.job d with
    | error e =>
      rw [go_storeAll_of_unconverted hd]
      exact hc
    | ok d' =>
      have hq := trans_of R hc (onPut _ d'.path d'.json)
      cases hp : (f.store.put a.job d'.path d'.json p.world).1.outcome with
      | error e =>
        rw [go_storeAll_of_refused hd hp]
        exact hq
      | ok u =>
        rw [go_storeAll_of_put hd hp]
        exact trans_of R hq (ih _)

include onSaid onPut onRead in
theorem respects_transfer : Respects R (f.transfer s a) := by
  refine Respects.bind (fun p => onRead p) fun r => ?_
  cases r with
  | error e => exact respects_pure _
  | ok docs => exact respects_storeAll onSaid onPut docs

include onSaid onPut onRead onDelete in
theorem respects_ingest : Respects R (f.ingest s a) := by
  refine Respects.bind (respects_say onSaid _) fun _ => ?_
  refine Respects.bind (respects_transfer onSaid onPut onRead) fun t => ?_
  cases t with
  | ok u => exact Respects.bind (respects_say onSaid _) fun _ => respects_pure _
  | error e =>
    refine Respects.bind (respects_say onSaid _) fun _ => ?_
    refine Respects.bind (fun p => ?_) fun _ => respects_pure _
    rw [go_deleteJob]
    exact onDelete p

end Respects

end ArchiveKeeper.Fetch.Fetcher
