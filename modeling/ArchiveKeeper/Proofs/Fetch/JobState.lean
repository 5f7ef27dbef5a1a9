import ArchiveKeeper.Proofs.Fetch.Remnants
import ArchiveKeeper.Proofs.Store.Separation
import Mathlib.Data.Finset.Basic

namespace ArchiveKeeper

namespace Cache

variable {c : Cache} {location job id : String}

def holders (c : Cache) (job : String) : Finset String :=
  (c.locations.filter fun location => job ∈ c.ids location).toFinset

@[simp] theorem mem_holders : location ∈ c.holders job ↔ job ∈ c.ids location := by
  simp only [holders, List.mem_toFinset, List.mem_filter, decide_eq_true_eq, and_iff_right_iff_imp]
  exact mem_locations_of_mem_ids

theorem holders_ingest (h : location ∈ c.locations) :
    (c.ingest location job).holders job = insert location (c.holders job) := by
  ext l
  simp [mem_ids_ingest h, or_comm]

theorem holders_evict : (c.evict location job).holders job = (c.holders job).erase location := by
  ext l
  simp [mem_ids_evict, and_comm]

theorem holds_iff_holders (h : c.locations.Nodup) : c.holds job ↔ (c.holders job).Nonempty := by
  rw [holds_iff h]
  exact exists_congr fun l => mem_holders.symm

theorem heldElsewhere_iff_holders (h : c.locations.Nodup) :
    c.heldElsewhere location job ↔ ((c.holders job).erase location).Nonempty := by
  rw [heldElsewhere_iff h]
  exact exists_congr fun l => by simp

end Cache

namespace Fetch

open Act Progress Store Relation

variable {σ ρ : Type} {f : Fetcher σ} {s : Source σ} {a : Archive} {as : List Archive} {part : σ → ρ}
  {inner : Store ρ} {V : View ρ} {U : View σ} {w : σ} {c : Cache} {job : String}
  {p q : Progress σ} {position : Nat} {alike : String → ρ → ρ → Prop}

structure Life where
  held : Finset String
  filed : Shelf
  events : List Event

namespace Life

inductive Move where
  /-- A location that does not hold the job offers it, with what its bundle would file. -/
  | offered (location : String) (bundle : Option Shelf)
  | evicted (location : String)

/-- A job that is held somewhere is shared with the location that offers it, and else created if its
bundle can be filed. It is deleted when it is evicted from the last location that may hold it. -/
def step (job : String) (x : Life) : Move → Life
  | .offered location bundle =>
    if x.held.Nonempty then { x with held := insert location x.held }
    else match bundle with
      | none => { x with filed := Shelf.empty }
      | some shelf => ⟨{location}, shelf, x.events ++ [⟨.created, job⟩]⟩
  | .evicted location =>
    if (x.held.erase location).Nonempty then { x with held := x.held.erase location }
    else ⟨∅, Shelf.empty, x.events ++ [⟨.deleted, job⟩]⟩

end Life

/-- What a bundle of a job files where there is nothing of the job, if it can be stored there. -/
noncomputable def filing (S : Store ρ) (V : View ρ) (job : String) :
    Except Failure (List Document) → Option Shelf
  | .error _ => none
  | .ok docs =>
    match docs.mapM (Fetcher.stored job) with
    | .error _ => none
    | .ok ds =>
      open Classical in if Admits S V job ds then some (Shelf.ofDocuments ds) else none

theorem filing_eq_some_iff {answer : Except Failure (List Document)} {shelf : Shelf} :
    filing inner V job answer = some shelf ↔ ∃ docs ds, answer = .ok docs ∧
      docs.mapM (Fetcher.stored job) = .ok ds ∧ Admits inner V job ds ∧
        Shelf.ofDocuments ds = shelf := by
  unfold filing
  split
  · simp
  split
  · rename_i docs e he
    simp [he]
  · rename_i docs ds hds
    simp [hds]

/-- What there is in a cycle: the listings of the locations, and what comes of reading an archive. -/
structure Offer where
  listings : List (String × Except Failure (List Archive))
  bundle : String → Archive → Except Failure (List Document)

namespace Offer

variable (o : Offer) (policy : Policy) (load : Except Failure (List Document) → Option Shelf)
  (job : String) (held : Finset String)

/-- The offers of a job that a location makes in a listing, from a position on, if it did not hold the
job before. -/
def offered (location : String) (position : Nat) (as : List Archive) : List Life.Move :=
  (as.zipIdx position).filterMap fun x =>
    if x.1.job = job ∧ location ∉ held ∧ ¬ policy.isBeyond x.2 then
      some (.offered location (load (o.bundle location x.1)))
    else none

def arrivals : String × Except Failure (List Archive) → List Life.Move
  | (location, .ok as) => o.offered policy load job held location 0 as
  | (_, .error _) => []

def overflows : String × Except Failure (List Archive) → List Life.Move
  | (location, .ok as) =>
    ((policy.surplus 0 as).filter (·.job = job)).map fun _ => .evicted location
  | (_, .error _) => []

/-- A job may be evicted from the locations that held it before and do not list it. -/
def lapses : String × Except Failure (List Archive) → List Life.Move
  | (location, .ok as) =>
    if location ∈ held ∧ ∀ a ∈ as, a.job ≠ job then [.evicted location] else []
  | (_, .error _) => []

def moves : List Life.Move :=
  o.listings.flatMap (o.arrivals policy load job held) ++
    o.listings.flatMap (overflows policy job) ++
    if policy.evictExpired then o.listings.flatMap (lapses job held) else []

def follow (x : Life) : Life := (o.moves policy load job x.held).foldl (Life.step job) x

end Offer

/-- The life of a job at a point, with the events that tell of it by then. -/
def Progress.life (U : View σ) (job : String) (p : Progress σ) (events : List Event) : Life :=
  ⟨p.cache.holders job, U.shelf job p.world, events⟩

/-- Between two points a job made some moves, of which some events tell. -/
def Moved (U : View σ) (job : String) (moves : List Life.Move) (events : List Event)
    (p q : Progress σ) : Prop :=
  ∀ told, moves.foldl (Life.step job) (p.life U job told) = q.life U job (told ++ events)

namespace Moved

variable {moves moves' : List Life.Move} {events events' : List Event} {p' : Progress σ}

theorem of_same (hc : q.cache.holders job = p.cache.holders job)
    (hs : U.shelf job q.world = U.shelf job p.world) : Moved U job [] [] p q := by
  intro told
  rw [List.append_nil, Progress.life, Progress.life, hc, hs]
  rfl

theorem trans (h : Moved U job moves events p p') (h' : Moved U job moves' events' p' q) :
    Moved U job (moves ++ moves') (events ++ events') p q := by
  intro told
  rw [List.foldl_append, h told, h' (told ++ events), List.append_assoc]

end Moved

/-- What is announced of a job among the jobs that were created. -/
def births (job : String) (created : List String) : List Event :=
  (created.filter (· = job)).map (⟨.created, ·⟩)

@[simp] theorem births_append (created created' : List String) :
    births job (created ++ created') = births job created ++ births job created' := by
  simp [births]

/-- Between two points of a survey a job made some moves, and was created by them as is known. -/
def Brought (U : View σ) (job : String) (moves : List Life.Move) (p q : Progress σ) : Prop :=
  ∃ new, q.created = p.created ++ new ∧ Moved U job moves (births job new) p q

theorem Brought.trans {moves moves' : List Life.Move} {p' : Progress σ}
    (h : Brought U job moves p p') (h' : Brought U job moves' p' q) :
    Brought U job (moves ++ moves') p q := by
  obtain ⟨new, hnew, hmoved⟩ := h
  obtain ⟨new', hnew', hmoved'⟩ := h'
  refine ⟨new ++ new', by rw [hnew', hnew, List.append_assoc], ?_⟩
  rw [births_append]
  exact hmoved.trans hmoved'

theorem Brought.of_same (hc : q.cache.holders job = p.cache.holders job)
    (hs : U.shelf job q.world = U.shelf job p.world)
    (hcreated : ∃ new, q.created = p.created ++ new ∧ births job new = []) :
    Brought U job [] p q := by
  obtain ⟨new, hnew, hbirths⟩ := hcreated
  refine ⟨new, hnew, ?_⟩
  rw [hbirths]
  exact .of_same hc hs

namespace Fetcher

section Aside

variable {D : Prop} {K : String → Prop} {phase : Phase}

theorem Step.holders (hl : ∀ s ∈ f.sources, s.location ∈ p.cache.locations)
    (hK : ∀ id, K id → id ≠ job) (h : Step f D K phase p q) :
    q.cache.holders job = p.cache.holders job := by
  ext l
  rw [Cache.mem_holders, Cache.mem_holders]
  have hevict {location id : String} (known : K id) :
      job ∈ (p.cache.evict location id).ids l ↔ job ∈ p.cache.ids l := by
    rw [Cache.mem_ids_evict, and_iff_left]
    exact fun he => hK id known he.2.symm
  cases h with
  | noted h => rw [h.cache]
  | listed => exact Iff.rfl
  | @visited _ _ s before position a r hs _ known h =>
    by_cases hloc : l = s.location
    · subst hloc
      rw [h.mem_ids (hl s hs), or_iff_left]
      exact fun he => hK _ known he.1.symm
    · rw [h.ids_of_ne hloc]
  | removed => exact Iff.rfl
  | evicted known h => cases h <;> exact hevict known
  | republished => exact Iff.rfl
  | delivered => exact Iff.rfl

theorem Step.created (hK : ∀ id, K id → id ≠ job) (h : Step f D K phase p q) :
    ∃ new, q.created = p.created ++ new ∧ births job new = [] := by
  have hnone {q' : Progress σ} (h : q'.created = p.created) :
      ∃ new, q'.created = p.created ++ new ∧ births job new = [] := ⟨[], by simp [h], rfl⟩
  cases h with
  | noted h => exact hnone h.created
  | listed => exact hnone rfl
  | visited _ _ known h =>
    cases h with
    | beyond => exact hnone rfl
    | known => exact hnone rfl
    | shared => exact hnone rfl
    | created _ _ _ run =>
      refine ⟨_, congrArg (· ++ _) (ingest_books run).2, ?_⟩
      simp [births, hK _ known]
    | refused _ _ _ run => exact hnone (ingest_books run).2
    | broken _ _ _ run => exact hnone (ingest_books run).2
  | removed => exact hnone rfl
  | evicted _ h => cases h <;> exact hnone rfl
  | republished => exact hnone rfl
  | delivered => exact hnone rfl

variable (keeps : Keeps inner V) (stands : f.StandsOn part inner V)

include keeps stands

theorem standing_of_steps (h : Steps f D (fun id => Job.isId id) phase p q)
    (hp : p.Standing f (V.zoom part)) : q.Standing f (V.zoom part) := by
  have leans : f.LeansOn part inner V fun _ _ _ => False := stands.leansOn
  exact standing_steps keeps leans (fun _ _ _ _ h => h.elim) h hp

theorem shelf_step (hp : p.Standing f (V.zoom part)) (hj : Job.isId job)
    (hK : ∀ id, K id → Job.isId id ∧ id ≠ job) (h : Step f D K phase p q) :
    (V.zoom part).shelf job q.world = (V.zoom part).shelf job p.world := by
  have leans : f.LeansOn part inner V fun _ _ _ => False := stands.leansOn
  have hspares : Sparing (V.zoom part) (· = job) p q :=
    sparing_step keeps leans (fun _ _ _ _ h => h.elim) hK h
  exact ((hspares hp.ready).2 job hj rfl).1

theorem moved_step (hp : p.Standing f (V.zoom part)) (hj : Job.isId job)
    (hK : ∀ id, K id → Job.isId id ∧ id ≠ job) (h : Step f D K phase p q) :
    Moved (V.zoom part) job [] [] p q :=
  .of_same (h.holders (fun _ hs => hp.mem hs) fun id hid => (hK id hid).2)
    (shelf_step keeps stands hp hj hK h)

theorem brought_step (hp : p.Standing f (V.zoom part)) (hj : Job.isId job)
    (hK : ∀ id, K id → Job.isId id ∧ id ≠ job) (h : Step f D K phase p q) :
    Brought (V.zoom part) job [] p q :=
  .of_same (h.holders (fun _ hs => hp.mem hs) fun id hid => (hK id hid).2)
    (shelf_step keeps stands hp hj hK h) (h.created fun id hid => (hK id hid).2)

end Aside

section Own

/-- The documents of a store are put as in the store that it stands on. -/
def Works (part : σ → ρ) (inner : Store ρ) (f : Fetcher σ) : Prop :=
  ∀ job path json w, Answers part (inner.put job path json) (f.store.put job path json) w

/-- Documents can be converted and stored just if the documents that they are converted to can be put. -/
theorem stores_iff (works : Works part inner f) {docs : List Document} :
    (∃ w', f.Stores job docs w w') ↔
      ∃ ds, docs.mapM (stored job) = .ok ds ∧ Takes inner job ds (part w) := by
  induction docs generalizing w with
  | nil => exact ⟨fun _ => ⟨[], rfl, trivial⟩, fun _ => ⟨w, .nil w⟩⟩
  | cons d docs ih =>
    have hput (d' : Document) : (f.store.put job d'.path d'.json w).1.outcome = _ ∧
        part (f.store.put job d'.path d'.json w).2 = _ := works job d'.path d'.json w
    constructor
    · rintro ⟨w', h⟩
      cases h with
      | @cons _ d' _ _ _ converted put rest =>
        obtain ⟨ds, hds, htakes⟩ := ih.mp ⟨w', rest⟩
        refine ⟨d' :: ds, by simp [List.mapM_cons, converted, hds, bind, Except.bind, pure, Except.pure],
          (hput d').1.symm.trans put, ?_⟩
        rwa [(hput d').2] at htakes
    · rintro ⟨ds, hds, htakes⟩
      cases hd : stored job d with
      | error e => simp [List.mapM_cons, hd, bind, Except.bind] at hds
      | ok d' =>
        cases hrest : docs.mapM (stored job) with
        | error e => simp [List.mapM_cons, hd, hrest, bind, Except.bind] at hds
        | ok ds' =>
          obtain rfl : d' :: ds' = ds := by
            simpa [List.mapM_cons, hd, hrest, bind, Except.bind, pure, Except.pure] using hds
          obtain ⟨hfirst, htakes⟩ := htakes
          rw [← (hput d').2] at htakes
          obtain ⟨w', h⟩ := ih.mpr ⟨ds', hrest, htakes⟩
          exact ⟨w', .cons hd ((hput d').1.trans hfirst) h⟩

variable (keeps : Keeps inner V) (stands : f.StandsOn part inner V)
  (separates : Separates inner V alike) (works : Works part inner f) (hs : s ∈ f.sources)
  (hj : Job.isId a.job)

include keeps stands separates works hs hj

/-- Where there is nothing of a job, it loads just if its bundle can be filed. -/
theorem loads_iff_filing (hw : (V.zoom part).ready w) (hb : (V.zoom part).bare a.job w) :
    f.Loads s a w ↔ (filing inner V a.job (s.read a w).1.outcome).isSome := by
  obtain ⟨hready, hsame⟩ := spares_read keeps stands hs a w hw
  have hbare := (hsame a.job hj trivial).2 hb
  rw [Option.isSome_iff_exists]
  constructor
  · rintro ⟨docs, w', hread, h⟩
    obtain ⟨ds, hds, htakes⟩ := (stores_iff works).mp ⟨w', h⟩
    have hadmits := (separates.takes_iff keeps hj hready hbare).mp htakes
    exact ⟨_, filing_eq_some_iff.mpr ⟨docs, ds, hread, hds, hadmits, rfl⟩⟩
  · rintro ⟨shelf, h⟩
    obtain ⟨docs, ds, hread, hds, hadmits, -⟩ := filing_eq_some_iff.mp h
    have htakes := (separates.takes_iff keeps hj hready hbare).mpr hadmits
    obtain ⟨w', h⟩ := (stores_iff works).mpr ⟨ds, hds, htakes⟩
    exact ⟨docs, w', hread, h⟩

theorem filing_of_ingest (hw : (V.zoom part).ready p.world) (hb : (V.zoom part).bare a.job p.world)
    (h : go (f.ingest s a) p = (.ok true, q)) :
    filing inner V a.job (s.read a p.world).1.outcome = some ((V.zoom part).shelf a.job q.world) := by
  obtain ⟨-, docs', hread', hstores⟩ := ingest_true h
  have hloads : f.Loads s a p.world := ⟨docs', _, hread', hstores⟩
  obtain ⟨shelf, hshelf⟩ := Option.isSome_iff_exists.mp
    ((loads_iff_filing keeps stands separates works hs hj hw hb).mp hloads)
  obtain ⟨docs, ds, hread, hds, hfiled⟩ := shelf_of_ingest keeps stands hs hj hw hb h
  obtain ⟨docs'', ds', hread'', hds', -, rfl⟩ := filing_eq_some_iff.mp hshelf
  obtain rfl := Except.ok.inj (hread.symm.trans hread'')
  obtain rfl := Except.ok.inj (hds.symm.trans hds')
  rw [hshelf, hfiled]

omit keeps stands separates works hs hj

/-- What a source answers to the reading of an archive is in the trace. -/
theorem read_of_ingest {r : Except Failure Bool} (h : go (f.ingest s a) p = (r, q)) :
    ∃ m ∈ q.trace, m.deed = .read s.location a (s.read a p.world).1.outcome := by
  have htransfer {t p₀ p'} (h : go (f.transfer s a) p₀ = (t, p')) :
      ∃ m ∈ p'.trace, m.deed = .read s.location a (s.read a p₀.world).1.outcome := by
    rw [transfer, go_bind, go_ask] at h
    have hdoing : Doing (fun _ => true) (p₀.asked (.read s.location a) (s.read a)) p' := by
      dsimp only at h
      split at h
      · cases h
        exact refl_of (Doing _) _
      · rename_i docs _
        have hall := respects_storeAll (R := Doing fun _ => true) (f := f) (a := a)
          (fun p r => ⟨[], by simp, by simp⟩) (fun p _ _ => doing_asked _ _ fun _ => rfl) docs
          (p₀.asked (.read s.location a) (s.read a))
        rwa [h] at hall
    obtain ⟨ms, htrace, -⟩ := hdoing
    exact ⟨⟨.read s.location a (s.read a p₀.world).1.outcome, p₀.cache, p₀.world⟩,
      by simp [htrace], rfl⟩
  obtain ⟨-, ⟨p', l, l', hgo, rfl⟩, -⟩ | ⟨-, t, p', l, l', hgo, rfl, -⟩ := ingest_cases h
  · obtain ⟨m, hm, hdeed⟩ := htransfer hgo
    exact ⟨m, hm, hdeed⟩
  · obtain ⟨m, hm, hdeed⟩ := htransfer hgo
    exact ⟨m, by simp [hm], hdeed⟩

theorem brought_shared {bundle : Option Shelf} (hn : p.cache.locations.Nodup)
    (hl : s.location ∈ p.cache.locations) (elsewhere : p.cache.heldElsewhere s.location a.job)
    (l : Log.Record) :
    Brought (V.zoom part) a.job [.offered s.location bundle] p
      (((p.taken s.location position a).said l).withCache (p.cache.ingest s.location a.job)) := by
  refine ⟨[], by simp [withCache], fun told => ?_⟩
  have hheld : (p.cache.holders a.job).Nonempty :=
    (Cache.holds_iff_holders hn).mp (Cache.holds_of_heldElsewhere hn elsewhere)
  have hholders : (p.cache.ingest s.location a.job).holders a.job =
      insert s.location (p.cache.holders a.job) := Cache.holders_ingest hl
  simp [Life.step, life, hheld, withCache, hholders, births]

include keeps stands separates works hs hj

theorem brought_created (hl : s.location ∈ p.cache.locations)
    (hw : (V.zoom part).ready p.world) (hb : (V.zoom part).bare a.job p.world)
    (hempty : p.cache.holders a.job = ∅)
    (run : go (f.ingest s a) (p.taken s.location position a) = (.ok true, q)) :
    Brought (V.zoom part) a.job
      [.offered s.location (filing inner V a.job (s.read a p.world).1.outcome)] p
      { q with cache := q.cache.ingest s.location a.job, created := q.created ++ [a.job] } := by
  have hc : q.cache = p.cache := (ingest_books run).1
  have hcreated : q.created = p.created := (ingest_books run).2
  have hfiled : filing inner V a.job (s.read a p.world).1.outcome =
      some ((V.zoom part).shelf a.job q.world) :=
    filing_of_ingest keeps stands separates works hs hj (p := p.taken s.location position a) hw hb run
  refine ⟨[a.job], congrArg (· ++ [a.job]) hcreated, fun told => ?_⟩
  have hholders : (q.cache.ingest s.location a.job).holders a.job = {s.location} := by
    rw [hc, Cache.holders_ingest hl, hempty]
    rfl
  simp [Life.step, life, hempty, hfiled, hholders, births]

theorem brought_refused (hw : (V.zoom part).ready p.world) (hb : (V.zoom part).bare a.job p.world)
    (hempty : p.cache.holders a.job = ∅)
    (run : go (f.ingest s a) (p.taken s.location position a) = (.ok false, q)) :
    Brought (V.zoom part) a.job
      [.offered s.location (filing inner V a.job (s.read a p.world).1.outcome)] p
      { q with failedJobs := q.failedJobs ++ [a.job] } := by
  have hready : (V.zoom part).ready (p.taken s.location position a).world := hw
  obtain ⟨hc, hcreated⟩ := ingest_books run
  obtain ⟨hr, -⟩ | ⟨hloads, -⟩ := ingest_cases run
  · cases hr
  have hnone : filing inner V a.job (s.read a p.world).1.outcome = none :=
    Option.not_isSome_iff_eq_none.mp
      (mt (loads_iff_filing keeps stands separates works hs hj hw hb).mpr hloads)
  obtain ⟨-, hgone⟩ := bare_of_ingest keeps stands hs hj hready run (by simp)
  have hready' : (V.zoom part).ready q.world :=
    ((spares_ingest keeps stands hs hj).of_go run hready).1
  have hshelf : (V.zoom part).shelf a.job q.world = Shelf.empty :=
    keeps.empty a.job _ hj hready' hgone
  refine ⟨[], by simpa using hcreated, fun told => ?_⟩
  have hholders : q.cache.holders a.job = ∅ := by rw [hc]; exact hempty
  simp only [List.foldl_cons, List.foldl_nil, Life.step, life, hempty, hnone, hholders, hshelf,
    Finset.not_nonempty_empty, if_false]
  simp [births]

/-- The archive of a job is taken up: if that is new, it is offered. -/
theorem brought_visited {before : List String} {b : Bool}
    {answer : Except Failure (List Document)} (hstands : p.Standing f (V.zoom part))
    (hbare : ¬ p.cache.holds a.job → (V.zoom part).bare a.job p.world)
    (free : a.job ∉ before → a.job ∉ p.cache.ids s.location)
    (reads : ∀ m ∈ q.trace, ∀ answer', m.deed = .read s.location a answer' → answer' = answer)
    (h : Visited f s before position a p (.ok b) q) :
    Brought (V.zoom part) a.job
      (if a.job ∉ before ∧ ¬ f.policy.isBeyond position then
        [.offered s.location (filing inner V a.job answer)] else []) p q := by
  have hl := hstands.mem hs
  have hnobody (new : a.job ∉ before) (alone : ¬ p.cache.heldElsewhere s.location a.job) :
      ¬ p.cache.holds a.job ∧ p.cache.holders a.job = ∅ := by
    have hno : ¬ p.cache.holds a.job := Cache.not_holds_of_alone hstands.nodup (free new) alone
    refine ⟨hno, ?_⟩
    rwa [Cache.holds_iff_holders hstands.nodup, Finset.not_nonempty_iff_eq_empty] at hno
  have hanswer {r q'} (run : go (f.ingest s a) (p.taken s.location position a) = (r, q'))
      (hq : q'.trace = q.trace) : (s.read a p.world).1.outcome = answer := by
    obtain ⟨m, hm, hdeed⟩ := read_of_ingest run
    exact reads m (hq ▸ hm) _ hdeed
  cases h with
  | beyond hb =>
    rw [if_neg (fun h => h.2 hb)]
    exact .of_same rfl rfl ⟨[], by simp, rfl⟩
  | known _ hk =>
    rw [if_neg (fun h => h.1 hk)]
    exact .of_same rfl rfl ⟨[], by simp, rfl⟩
  | shared hw hn elsewhere l =>
    rw [if_pos ⟨hn, hw⟩]
    exact brought_shared hstands.nodup hl elsewhere l
  | created hw hn alone run =>
    obtain ⟨hno, hempty⟩ := hnobody hn alone
    rw [if_pos ⟨hn, hw⟩, ← hanswer run rfl]
    exact brought_created keeps stands separates works hs hj hl hstands.ready (hbare hno) hempty run
  | refused hw hn alone run =>
    obtain ⟨hno, hempty⟩ := hnobody hn alone
    rw [if_pos ⟨hn, hw⟩, ← hanswer run rfl]
    exact brought_refused keeps stands separates works hs hj hstands.ready (hbare hno) hempty run

end Own

section Departures

variable (keeps : Keeps inner V) (stands : f.StandsOn part inner V)

include keeps stands

/-- The eviction of a job is a move of it, and not one of any other job. -/
theorem moved_evicted {location id : String} {event : Option Event}
    (hstands : p.Standing f (V.zoom part)) (hj : Job.isId job) (hid : Job.isId id)
    (h : Evicted f location id p (.ok event) q) :
    Moved (V.zoom part) job (if id = job then [.evicted location] else [])
      (event.toList.filter (·.job = job)) p q := by
  by_cases he : id = job
  · subst he
    rw [if_pos rfl]
    intro told
    -- the cache asks who else holds the job only once this location has given it up
    have hholders : (p.cache.evict location id).holders id = (p.cache.holders id).erase location :=
      Cache.holders_evict
    have helsewhere : p.cache.heldElsewhere location id ↔
        ((p.cache.holders id).erase location).Nonempty :=
      Cache.heldElsewhere_iff_holders hstands.nodup
    cases h with
    | kept elsewhere l =>
      rw [Cache.heldElsewhere_evict hstands.nodup, helsewhere] at elsewhere
      simp [Life.step, life, withCache, hholders, elsewhere]
    | dropped alone deleted =>
      rw [Cache.heldElsewhere_evict hstands.nodup, helsewhere,
        Finset.not_nonempty_iff_eq_empty] at alone
      obtain ⟨-, hbare⟩ := deleted_delete keeps stands hj hstands.ready
      have hready := (spares_delete keeps stands hj p.world hstands.ready).1
      have hshelf : V.shelf id (part (f.store.delete id p.world).2) = Shelf.empty :=
        keeps.empty id _ hj hready hbare
      simp only [List.foldl_cons, List.foldl_nil, Life.step, life, alone,
        Finset.not_nonempty_empty, if_false]
      simp [withCache, hholders, alone, hshelf]
  · rw [if_neg he]
    have hnone : event.toList.filter (·.job = job) = [] := by
      cases h with
      | kept => rfl
      | dropped => simp [he]
    rw [hnone]
    exact moved_step keeps stands (D := False) (K := (· = id)) hstands hj
      (by rintro _ rfl; exact ⟨hid, he⟩) (.evicted rfl h)

end Departures

end Fetcher

end Fetch

end ArchiveKeeper
