import ArchiveKeeper.Proofs.Fetch.Deeds
import ArchiveKeeper.Proofs.Fetch.Effect
import Mathlib.Data.Set.Insert

namespace ArchiveKeeper

namespace Event

variable {σ : Type} {job : String} {known : Set String}

def follow (known : Set String) (e : Event) : Set String :=
  match e.kind with
  | .created => insert e.job known
  | .deleted => known \ {e.job}

theorem mem_foldl_created {jobs : List String} :
    job ∈ (jobs.map fun job => (⟨.created, job⟩ : Event)).foldl follow known ↔
      job ∈ known ∨ job ∈ jobs := by
  induction jobs generalizing known with
  | nil => simp
  | cons j js ih =>
    rw [List.map_cons, List.foldl_cons, ih]
    simp only [follow, Set.mem_insert_iff, List.mem_cons]
    tauto

theorem mem_foldl_deleted {events : List Event} (hk : ∀ e ∈ events, e.kind = .deleted) :
    job ∈ events.foldl follow known ↔ job ∈ known ∧ job ∉ events.map Event.job := by
  induction events generalizing known with
  | nil => simp
  | cons e es ih =>
    rw [List.foldl_cons, ih fun e' he' => hk e' (List.mem_cons_of_mem _ he')]
    simp only [follow, hk e (by simp), Set.mem_sdiff, Set.mem_singleton_iff, List.map_cons,
      List.mem_cons, not_or, and_assoc]

end Event

namespace Fetch.Fetcher

open Act Progress

variable {σ : Type} {f : Fetcher σ} {drift : σ → σ → Prop} {w₀ w : σ} {c : Cache}
  {history : List (Result × Progress σ)} {p q : Progress σ}
  {K : String → Prop}

/-- As far as a survey has come, it announces what was not held when it began and is held now. -/
structure Announces (f : Fetcher σ) (c : Cache) (p : Progress σ) : Prop where
  locations : p.cache.locations = f.sources.map (·.location)
  once : p.created.Nodup
  held : ∀ id, p.cache.holds id ↔ c.holds id ∨ id ∈ p.created
  new : ∀ id ∈ p.created, ¬ c.holds id

theorem Announces.visited {s : Source σ} {before : List String} {position : Nat} {a : Archive}
    {r : Except Failure Bool} (hn : (f.sources.map (·.location)).Nodup) (hs : s ∈ f.sources)
    (free : a.job ∉ before → a.job ∉ p.cache.ids s.location)
    (h : Visited f s before position a p r q) (hp : Announces f c p) : Announces f c q := by
  have hn' : p.cache.locations.Nodup := hp.locations ▸ hn
  have hl : s.location ∈ p.cache.locations := hp.locations ▸ List.mem_map_of_mem hs
  have hsame {q' : Progress σ} (hc : q'.cache = p.cache) (hcr : q'.created = p.created) :
      Announces f c q' :=
    ⟨hc ▸ hp.locations, hcr ▸ hp.once, hc ▸ hcr ▸ hp.held, hcr ▸ hp.new⟩
  cases h with
  | beyond => exact hsame rfl rfl
  | known => exact hsame rfl rfl
  | refused _ _ _ run => exact hsame (ingest_books run).1 (ingest_books run).2
  | broken _ _ _ run => exact hsame (ingest_books run).1 (ingest_books run).2
  | shared _ _ elsewhere l =>
    refine ⟨Cache.locations_ingest.trans hp.locations, hp.once, fun id => ?_, hp.new⟩
    have hheld : p.cache.holds a.job := Cache.holds_of_heldElsewhere hn' elsewhere
    exact (Cache.holds_ingest_of_holds hn' hl hheld).trans (hp.held id)
  | @created _ new alone q' run =>
    have hc : q'.cache = p.cache := (ingest_books run).1
    have hcr : q'.created = p.created := (ingest_books run).2
    -- a job that is created was new, and so is in neither list of the invariant
    have hfresh : ¬ p.cache.holds a.job := Cache.not_holds_of_alone hn' (free new) alone
    have hout : ¬ c.holds a.job ∧ a.job ∉ p.created := by
      rwa [hp.held, not_or] at hfresh
    refine ⟨?_, ?_, fun id => ?_, fun id hid => ?_⟩
    · exact Cache.locations_ingest.trans (hc ▸ hp.locations)
    · change (q'.created ++ [a.job]).Nodup
      rw [hcr, ← List.concat_eq_append]
      exact hp.once.concat hout.2
    · change (q'.cache.ingest s.location a.job).holds id ↔ c.holds id ∨ id ∈ q'.created ++ [a.job]
      rw [hc, hcr, Cache.holds_ingest hn' hl, hp.held, List.mem_append, List.mem_singleton,
        or_assoc]
    · change id ∈ q'.created ++ [a.job] at hid
      rw [hcr, List.mem_append, List.mem_singleton] at hid
      rcases hid with hid | rfl
      · exact hp.new id hid
      · exact hout.1

theorem Announces.step (hn : (f.sources.map (·.location)).Nodup)
    (h : Step f True K .survey p q) (hp : Announces f c p) : Announces f c q := by
  cases h with
  | noted h =>
    exact ⟨h.cache ▸ hp.locations, h.created ▸ hp.once, h.cache ▸ h.created ▸ hp.held,
      h.created ▸ hp.new⟩
  | listed => exact ⟨hp.locations, hp.once, hp.held, hp.new⟩
  | visited hs free _ h => exact hp.visited hn hs (free trivial) h

theorem Steps.announces (h : Steps f True K .survey p q)
    (hn : (f.sources.map (·.location)).Nodup) (hp : Announces f c p) : Announces f c q := by
  induction h with
  | refl => exact hp
  | tail _ h ih => exact ih.step hn h

/-- The announcements of a cycle, with the caches before and after it. -/
structure Mirrors (c : Cache) (r : Result) (c' : Cache) : Prop where
  created : ∀ id, id ∈ r.created ↔ ¬ c.holds id ∧ c'.holds id
  once : r.created.Nodup
  deleted : ∀ id, c.holds id → ¬ c'.holds id → id ∈ r.deleted
  gone : ∀ id ∈ r.deleted, ¬ c'.holds id
  disjoint : ∀ id ∈ r.created, id ∉ r.deleted

namespace Completed

variable {middle : Progress σ} {left : Leftover σ} {ms : List (Moment σ)} {deletions : List Event}

theorem distinct_middle (h : Completed f c w middle left ms deletions)
    (hd : (f.cycle c w).2.DistinctListings) : middle.DistinctListings := by
  intro location as hm
  refine hd location as ?_
  rw [← listingsOf_landmarks] at hm ⊢
  rwa [h.clearance.landmarks]

/-- What is newly held after the survey is not evicted in the same cycle. -/
theorem holds_of_created (h : Completed f c w middle left ms deletions)
    (hn : (f.sources.map (·.location)).Nodup) (hc : c.locations = f.sources.map (·.location))
    (hd : (f.cycle c w).2.DistinctListings) {id : String} (hid : middle.cache.holds id)
    (hnew : ¬ c.holds id) : (f.cycle c w).2.cache.holds id := by
  have hnc : c.locations.Nodup := hc ▸ hn
  have hnm : middle.cache.locations = c.locations := h.survey.locations
  have hnq : (f.cycle c w).2.cache.locations = c.locations := h.clearance.locations.trans hnm
  obtain ⟨location, hl⟩ := (Cache.holds_iff (hnm ▸ hnc)).mp hid
  have hnl : id ∉ c.ids location := fun hm => hnew ((Cache.holds_iff hnc).mpr ⟨location, hm⟩)
  have hloc : location ∈ f.sources.map (·.location) :=
    hc ▸ hnm ▸ Cache.mem_locations_of_mem_ids hl
  obtain ⟨s, hs, rfl⟩ := List.mem_map.mp hloc
  obtain ⟨⟨l, answer⟩, hlist, rfl⟩ := List.mem_map.mp (h.survey.listed ▸ hloc)
  cases answer with
  | error e => exact absurd (h.survey.failed s hs e hlist ▸ hl) hnl
  | ok as =>
    obtain hid' | ⟨m, hm, ha⟩ := (h.survey.ids s hs as hlist id).mp hl
    · exact absurd hid' hnl
    have hdas := hd _ as (h.listings ▸ hlist)
    exact (Cache.holds_iff (hnq ▸ hnc)).mpr ⟨s.location, (h.mem_ids hn hs hlist hdas).mpr
      (.inl (h.retains_of_acquires hs hlist hm ha))⟩

theorem mirrors (h : Completed f c w middle left ms deletions)
    (hn : (f.sources.map (·.location)).Nodup) (hc : c.locations = f.sources.map (·.location))
    (hd : (f.cycle c w).2.DistinctListings) :
    Mirrors c (f.cycle c w).1 (f.cycle c w).2.cache := by
  have hsteps := h.steps True (fun _ => True)
    ⟨fun _ => h.distinct_middle hd, fun _ _ _ _ _ => trivial⟩
  have hm : Announces f c middle :=
    hsteps.announces hn ⟨hc, List.nodup_nil, by simp [begin_], by simp [begin_]⟩
  have hheld := h.clearance.held
  -- what is held in the middle was held before or created; evictions take away from both
  have hcreated : ∀ id, id ∈ (f.cycle c w).1.created ↔
      ¬ c.holds id ∧ (f.cycle c w).2.cache.holds id := by
    intro id
    rw [h.created]
    constructor
    · intro hid
      have hheld := (hm.held id).mpr (.inr hid)
      exact ⟨hm.new id hid, h.holds_of_created hn hc hd hheld (hm.new id hid)⟩
    · rintro ⟨hnew, hid⟩
      exact ((hm.held id).mp ((hheld id).mp hid).1).resolve_left hnew
  have hgone : ∀ id ∈ (f.cycle c w).1.deleted, ¬ (f.cycle c w).2.cache.holds id := by
    intro id hid hq
    rw [h.deleted] at hid
    exact ((hheld id).mp hq).2 hid
  refine ⟨hcreated, h.created ▸ hm.once, fun id hid hq => ?_, hgone, fun id hid hdel => ?_⟩
  · rw [h.deleted]
    by_contra hdel
    exact hq ((hheld id).mpr ⟨(hm.held id).mpr (.inl hid), hdel⟩)
  · exact hgone id hdel ((hcreated id).mp hid).2

end Completed

theorem Completed.mem_foldl {middle : Progress σ} {left : Leftover σ} {ms : List (Moment σ)}
    {deletions : List Event} (h : Completed f c w middle left ms deletions)
    (hl : f.listener.isSome) {known : Set String} {id : String} :
    id ∈ (deliveriesOf (f.cycle c w).2.trace).foldl Event.follow known ↔
      (id ∈ known ∨ id ∈ (f.cycle c w).1.created) ∧ id ∉ (f.cycle c w).1.deleted := by
  rw [h.delivered hl, List.foldl_append, Event.mem_foldl_deleted h.clearance.kinds,
    Event.mem_foldl_created, ← h.created, ← h.deleted]

/-- One who knew what was held before a cycle, and follows its announcements, knows what is held
after it. -/
theorem Completed.follow {middle : Progress σ} {left : Leftover σ} {ms : List (Moment σ)}
    {deletions : List Event} (h : Completed f c w middle left ms deletions)
    (hm : Mirrors c (f.cycle c w).1 (f.cycle c w).2.cache) (hl : f.listener.isSome) :
    (deliveriesOf (f.cycle c w).2.trace).foldl Event.follow {id | c.holds id} =
      {id | (f.cycle c w).2.cache.holds id} := by
  ext id
  rw [h.mem_foldl hl, Set.mem_ofPred_eq, Set.mem_ofPred_eq]
  constructor
  · rintro ⟨hid | hid, hdel⟩
    · by_contra hq
      exact hdel (hm.deleted id hid hq)
    · exact ((hm.created id).mp hid).2
  · intro hq
    refine ⟨?_, fun hdel => hm.gone id hdel hq⟩
    by_cases hid : c.holds id
    · exact .inl hid
    · exact .inr ((hm.created id).mpr ⟨hid, hq⟩)

/-- The announcements of every cycle that comes to its end mirror what is held, and so does all that
the listener hears in a run of such cycles when it is followed from the start. -/
theorem announcements_mirror (run : f.Run drift w₀ history c w) :
    ((f.cycle c w).1.completed → (f.cycle c w).2.DistinctListings →
        Mirrors c (f.cycle c w).1 (f.cycle c w).2.cache) ∧
      (f.listener.isSome → (∀ x ∈ history, x.1.completed ∧ x.2.DistinctListings) →
        ∃ events, f.HearsAll history events ∧
          events.foldl Event.follow ∅ = {id | c.holds id}) := by
  have hcycle {history c w} (run : f.Run drift w₀ history c w)
      (hend : (f.cycle c w).1.completed) (hd : (f.cycle c w).2.DistinctListings) :
      Mirrors c (f.cycle c w).1 (f.cycle c w).2.cache := by
    obtain ⟨middle, left, ms, deletions, h⟩ := cycle_completed run.accepted.nodup run.locations hend
    exact h.mirrors run.accepted.nodup run.locations hd
  refine ⟨hcycle run, fun hl hall => ⟨_, run.hearsAll fun x hx => (hall x hx).2, ?_⟩⟩
  induction run with
  | prepared accepted =>
    ext id
    simp [deliveries, emptyCache, Cache.holds, Cache.ofLocations]
  | drifted _ _ ih => exact ih hall
  | @cycled history c w run ih =>
    obtain ⟨hend, hd⟩ := hall _ (List.mem_append_right _ (List.mem_singleton.mpr rfl))
    have hih := ih fun x hx => hall x (List.mem_append_left _ hx)
    obtain ⟨middle, left, ms, deletions, h⟩ := cycle_completed run.accepted.nodup run.locations hend
    rw [deliveries_concat, List.foldl_append, hih]
    exact h.follow (hcycle run hend hd) hl

theorem announcements_sampleCycle :
    Mirrors sample.emptyCache sampleCycle.1 sampleCycle.2.cache ∧
      ∃ events, sample.HearsAll [sampleCycle] events ∧
        events.foldl Event.follow ∅ = {id | sampleCycle.2.cache.holds id} := by
  have run : sample.Run (fun _ _ => False) blankSite [sampleCycle] sampleCycle.2.cache
      sampleCycle.2.world := run_sampleCycle
  have hend := completed_sampleCycle
  have distinct := distinct_sampleCycle
  refine ⟨?_, (announcements_mirror run).2 rfl fun x hx => ?_⟩
  · unfold sampleCycle at hend distinct ⊢
    have start : sample.Run (fun _ _ => False) blankSite [] sample.emptyCache preparedSite :=
      run_prepared
    exact (announcements_mirror start).1 hend distinct
  · rw [List.mem_singleton.mp hx]
    exact ⟨hend, distinct⟩

end Fetch.Fetcher

end ArchiveKeeper
