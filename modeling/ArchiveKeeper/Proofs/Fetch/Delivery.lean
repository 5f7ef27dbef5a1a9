import ArchiveKeeper.Proofs.Fetch.Omission

namespace ArchiveKeeper.Fetch

open Act Progress

variable {σ : Type} {f : Fetcher σ} {s : Source σ} {a : Archive} {as : List Archive}
  {start c : Cache} {w : σ} {position : Nat} {p q : Progress σ} {ms ms' : List (Moment σ)}
  {jobs jobs' offered offered' before : List String}
  {listings listings' : List (String × Except Failure (List Archive))} {job : String}

namespace Fetcher

/-- At a moment of a cycle a job arrives: an archive of it is taken up that is within the limit and
new to its location, while no other location holds the job, and the archive loads. -/
def Arrives (f : Fetcher σ) (start : Cache) (job : String) (m : Moment σ) : Prop :=
  ∃ s ∈ f.sources, ∃ position a, m.deed = .visit s.location position a ∧ a.job = job ∧
    ¬ f.policy.isBeyond position ∧ job ∉ start.ids s.location ∧
    ¬ m.cache.heldElsewhere s.location job ∧ f.Loads s a m.world

/-- The jobs that arrive at some moments, in their order. -/
inductive Arrivals (f : Fetcher σ) (start : Cache) : List (Moment σ) → List String → Prop
  | nil : Arrivals f start [] []
  | arrives {job : String} {m : Moment σ} {ms : List (Moment σ)} {jobs : List String}
    (arrival : f.Arrives start job m) (rest : Arrivals f start ms jobs) :
    Arrivals f start (m :: ms) (job :: jobs)
  | passes {m : Moment σ} {ms : List (Moment σ)} {jobs : List String}
    (none : ∀ job, ¬ f.Arrives start job m) (rest : Arrivals f start ms jobs) :
    Arrivals f start (m :: ms) jobs

theorem Arrivals.append (h : f.Arrivals start ms jobs) (h' : f.Arrivals start ms' jobs') :
    f.Arrivals start (ms ++ ms') (jobs ++ jobs') := by
  induction h with
  | nil => exact h'
  | arrives arrival _ ih => exact .arrives arrival ih
  | passes none _ ih => exact .passes none ih

theorem arrivals_nil (h : ∀ m ∈ ms, ∀ location position a, m.deed ≠ .visit location position a) :
    f.Arrivals start ms [] := by
  induction ms with
  | nil => exact .nil
  | cons m ms ih =>
    obtain ⟨hm, hms⟩ := List.forall_mem_cons.mp h
    exact .passes (fun job ⟨s, _, position, a, hd, _⟩ => hm s.location position a hd) (ih hms)

theorem arrives_visit_iff (hn : (f.sources.map (·.location)).Nodup) (hs : s ∈ f.sources) :
    f.Arrives start job ⟨.visit s.location position a, c, w⟩ ↔ a.job = job ∧
      ¬ f.policy.isBeyond position ∧ job ∉ start.ids s.location ∧
      ¬ c.heldElsewhere s.location job ∧ f.Loads s a w := by
  constructor
  · rintro ⟨s', hs', position', a', hd, h⟩
    obtain ⟨hloc, rfl, rfl⟩ := Deed.visit.inj hd
    obtain rfl : s = s' := List.inj_on_of_nodup_map hn hs hs' hloc
    exact h
  · intro h
    exact ⟨s, hs, position, a, rfl, h⟩

/-- An archive that is taken up is counted among the created ones if its job arrives with it. -/
theorem Visited.created_cases {b : Bool} (hn : (f.sources.map (·.location)).Nodup)
    (hs : s ∈ f.sources) (h : Visited f s (start.ids s.location) position a p (.ok b) q) :
    f.Arrives start a.job ⟨.visit s.location position a, p.cache, p.world⟩ ∧
        q.created = p.created ++ [a.job] ∨
      ¬ f.Arrives start a.job ⟨.visit s.location position a, p.cache, p.world⟩ ∧
        q.created = p.created := by
  rw [arrives_visit_iff hn hs]
  cases h with
  | beyond beyond => exact .inr ⟨fun h => h.2.1 beyond, rfl⟩
  | known _ known => exact .inr ⟨fun h => h.2.2.1 known, rfl⟩
  | shared _ _ elsewhere => exact .inr ⟨fun h => h.2.2.2.1 elsewhere, rfl⟩
  | @created within new alone q' run =>
    obtain ⟨-, docs, hread, hstores⟩ := ingest_true run
    refine .inl ⟨⟨rfl, within, new, alone, docs, _, hread, hstores⟩, ?_⟩
    change q'.created ++ [a.job] = _
    rw [(ingest_books run).2, created_taken]
  | refused _ _ _ run =>
    refine .inr ⟨fun h => ?_, (ingest_books run).2⟩
    obtain ⟨hr, -⟩ | ⟨hload, -⟩ := ingest_cases run
    · cases hr
    · exact hload h.2.2.2.2

/-- Between two points of a survey sources were listed, and jobs arrived out of those that were
offered, in the order of the offers. -/
def Receives (f : Fetcher σ) (start : Cache)
    (listings : List (String × Except Failure (List Archive))) (offered : List String)
    (p q : Progress σ) : Prop :=
  ∃ ms jobs, q.trace = p.trace ++ ms ∧ listingsOf ms = listings ∧
    q.created = p.created ++ jobs ∧ f.Arrivals start ms jobs ∧ jobs.Sublist offered

theorem Receives.append {p' : Progress σ} (h : f.Receives start listings offered p p')
    (h' : f.Receives start listings' offered' p' q) :
    f.Receives start (listings ++ listings') (offered ++ offered') p q := by
  obtain ⟨ms, jobs, htrace, hlist, hcreated, harrive, hsub⟩ := h
  obtain ⟨ms', jobs', htrace', hlist', hcreated', harrive', hsub'⟩ := h'
  exact ⟨ms ++ ms', jobs ++ jobs', by rw [htrace', htrace, List.append_assoc],
    by rw [listingsOf_append, hlist, hlist'], by rw [hcreated', hcreated, List.append_assoc],
    harrive.append harrive', hsub.append hsub'⟩

theorem receives_nil (htrace : q.trace = p.trace) (hcreated : q.created = p.created) :
    f.Receives start [] [] p q :=
  ⟨[], [], by rw [htrace, List.append_nil], rfl, by rw [hcreated, List.append_nil], .nil, .refl _⟩

/-- The jobs of a listing, from a position on, that are within the limit and not among the ones that
its location held. -/
def offers (f : Fetcher σ) (before : List String) (position : Nat) (as : List Archive) :
    List String :=
  ((as.zipIdx position).filter fun x => !f.policy.isBeyond x.2 && x.1.job ∉ before).map (·.1.job)

theorem offers_cons (before : List String) (position : Nat) (a : Archive) (as : List Archive) :
    f.offers before position (a :: as) =
      f.offers before position [a] ++ f.offers before (position + 1) as := by
  simp only [offers, List.zipIdx_cons, List.zipIdx_nil]
  rw [← List.map_append, ← List.filter_append, List.singleton_append]

theorem Visited.receives {b : Bool} (hn : (f.sources.map (·.location)).Nodup) (hs : s ∈ f.sources)
    (h : Visited f s (start.ids s.location) position a p (.ok b) q) :
    f.Receives start [] (f.offers (start.ids s.location) position [a]) p q := by
  obtain ⟨ms, htrace, hms⟩ := h.trace
  have hquiet : f.Arrivals start ms [] := arrivals_nil fun m hm location position a hd => by
    simpa [hd, Deed.isTransfer] using hms m hm
  have hlist : listingsOf (⟨.visit s.location position a, p.cache, p.world⟩ :: ms) = [] := by
    rw [listingsOf, List.filterMap_eq_nil_iff]
    refine List.forall_mem_cons.mpr ⟨rfl, fun m hm => ?_⟩
    have hm := hms m hm
    cases hd : m.deed <;> simp_all [Deed.isTransfer, Deed.listing?]
  obtain ⟨harrives, hcreated⟩ | ⟨hnot, hcreated⟩ := h.created_cases hn hs
  · refine ⟨_, [a.job], htrace, hlist, hcreated, .arrives harrives hquiet, ?_⟩
    obtain ⟨-, within, new, -⟩ := (arrives_visit_iff hn hs).mp harrives
    simp [offers, within, new]
  · refine ⟨_, [], htrace, hlist, by rw [hcreated, List.append_nil], .passes ?_ hquiet,
      List.nil_sublist _⟩
    intro job hjob
    obtain rfl := ((arrives_visit_iff hn hs).mp hjob).1
    exact hnot hjob

theorem visitAll_receives {surplus : List (Surplus σ)} (hn : (f.sources.map (·.location)).Nodup)
    (hs : s ∈ f.sources)
    (h : go (f.visitAll s (start.ids s.location) position as) p = (.ok surplus, q)) :
    f.Receives start [] (f.offers (start.ids s.location) position as) p q := by
  induction as generalizing position p surplus with
  | nil =>
    cases h
    exact receives_nil rfl rfl
  | cons a as ih =>
    obtain ⟨b, p', more, hv, hgo, -⟩ := visitAll_cons_ok h
    rw [offers_cons]
    exact (hv.receives hn hs).append (ih hgo)

def offersOf (f : Fetcher σ) (start : Cache) : String × Except Failure (List Archive) → List String
  | (location, .ok as) => f.offers (start.ids location) 0 as
  | (_, .error _) => []

theorem receives_listed (f : Fetcher σ) (start : Cache) (s : Source σ) (p : Progress σ) :
    f.Receives start [(s.location, (s.list p.world).1.outcome)] [] p (f.listed s p) :=
  ⟨_, [], trace_asked .., rfl, (List.append_nil _).symm,
    arrivals_nil (List.forall_mem_singleton.mpr nofun), .refl _⟩

theorem visitSources_receives {ss : List (Source σ)} {left : Leftover σ}
    (hn : (f.sources.map (·.location)).Nodup) (hss : ∀ s ∈ ss, s ∈ f.sources)
    (h : go (f.visitSources start ss) p = (.ok left, q)) :
    ∃ listings, f.Receives start listings (listings.flatMap (f.offersOf start)) p q := by
  induction ss generalizing p left with
  | nil =>
    cases h
    exact ⟨[], receives_nil rfl rfl⟩
  | cons s ss ih =>
    obtain ⟨hs, hss⟩ := List.forall_mem_cons.mp hss
    have hlisted := receives_listed f start s p
    cases ho : (s.list p.world).1.outcome with
    | error e =>
      rw [go_visitSources_of_missed ho] at h
      obtain ⟨listings, hrest⟩ := ih hss h
      rw [ho] at hlisted
      have hmissed : f.Receives start [] [] (f.listed s p) (f.missed s e p) := receives_nil rfl rfl
      exact ⟨(s.location, .error e) :: listings, (hlisted.append hmissed).append hrest⟩
    | ok as =>
      obtain ⟨surplus, p', rest, hgo, hrest, -⟩ := visitSources_of_listed_ok ho h
      obtain ⟨listings, hrest⟩ := ih hss hrest
      rw [ho] at hlisted
      exact ⟨(s.location, .ok as) :: listings,
        (hlisted.append (visitAll_receives hn hs hgo)).append hrest⟩

/-- The overview is published if there is anything to announce. -/
inductive Republishes (events : List Event) : List (Moment σ) → Prop
  | nothing (none : events = []) : Republishes events []
  | published (some : events ≠ []) (answer : Except Failure (Option Nat)) (c : Cache) (w : σ) :
    Republishes events [⟨.republish answer, c, w⟩]

/-- The listener, if there is one, is told of each event in its turn, whatever came of telling it the
ones before. -/
inductive Tells (events : List Event) : Option (Listener σ) → List (Moment σ) → σ → Prop
  | unheard (w : σ) : Tells events none [] w
  | told (listener : Listener σ) (c : Cache) (w : σ) : Tells events (some listener)
    [⟨.deliver events, c, w⟩] (events.foldl (fun w e => (listener e w).2) w)

/-- Events were announced at the end of a cycle, after the publication of the overview, and nothing
was published or announced before. -/
def Closes (f : Fetcher σ) (events : List Event) (p : Progress σ) : Prop :=
  ∃ quiet published told, p.trace = quiet ++ published ++ told ∧
    (∀ m ∈ quiet, ¬ m.deed.isClosing) ∧ Republishes events published ∧
    Tells events f.listener told p.world

theorem closes_closed (events : List Event) (h : ∀ m ∈ p.trace, ¬ m.deed.isClosing) :
    f.Closes events (f.closed events p) := by
  have hpublished : ∃ published, (f.afterPublication events p).trace = p.trace ++ published ∧
      Republishes events published := by
    unfold afterPublication
    split
    · rename_i some
      exact ⟨_, trace_asked .., .published some ..⟩
    · rename_i none
      exact ⟨[], (List.append_nil _).symm, .nothing (not_not.mp none)⟩
  obtain ⟨published, htrace, hpublished⟩ := hpublished
  have htold : ∃ told, (f.closed events p).trace = (f.afterPublication events p).trace ++ told ∧
      Tells events f.listener told (f.closed events p).world := by
    unfold closed afterDelivery
    cases f.listener with
    | none => exact ⟨[], (List.append_nil _).symm, .unheard _⟩
    | some listener =>
      refine ⟨_, trace_asked .., ?_⟩
      rw [world_asked, (Event.deliverAll_eq_foldl listener events _).2]
      exact .told listener ..
  obtain ⟨told, htrace', htold⟩ := htold
  exact ⟨p.trace, published, told, by rw [htrace', htrace], h, hpublished, htold⟩

theorem Closes.of_noted {events : List Event} (hq : p.Noted q) (h : f.Closes events p) :
    f.Closes events q := by
  obtain ⟨quiet, published, told, htrace, h⟩ := h
  exact ⟨quiet, published, told, hq.trace.trans htrace, hq.world ▸ h⟩

/-- The cache that a survey leaves. A location that was listed holds what it held before, and what it
acquired. -/
structure Stocked (f : Fetcher σ) (c middle : Cache) (ms : List (Moment σ)) : Prop where
  locations : middle.locations = c.locations
  failed : ∀ s ∈ f.sources, ∀ e, (s.location, .error e) ∈ listingsOf ms →
    middle.ids s.location = c.ids s.location
  listed : ∀ s ∈ f.sources, ∀ as, (s.location, .ok as) ∈ listingsOf ms →
    ∀ id, id ∈ middle.ids s.location ↔
      id ∈ c.ids s.location ∨ ∃ m ∈ ms, f.Acquires s (c.ids s.location) id m

def eventsIn (r : Result) : List Event :=
  r.created.map (⟨.created, ·⟩) ++ r.deleted.map (⟨.deleted, ·⟩)

/-- What a cycle that came to its end says in its result and to the listener, and in which order. -/
structure Delivers (f : Fetcher σ) (c : Cache) (x : Result × Progress σ) : Prop where
  /-- Every source was listed in its turn. -/
  listed : (listingsOf x.2.trace).map Prod.fst = f.sources.map (·.location)
  arrived : f.Arrivals c x.2.trace x.1.created
  created : x.1.created.Sublist ((listingsOf x.2.trace).flatMap (f.offersOf c))
  /-- What is beyond the limits is evicted before what is gone. -/
  deleted : ∃ middle, f.Stocked c middle x.2.trace ∧
    x.2.cache = middle.evictAll (f.evictions c (listingsOf x.2.trace)) ∧
    x.1.deleted = middle.lost (f.overflow (listingsOf x.2.trace)) ++
      (middle.evictAll (f.overflow (listingsOf x.2.trace))).lost (f.lapse c (listingsOf x.2.trace))
  told : f.Closes (eventsIn x.1) x.2

section Course

variable {middle p₀ p₁ p₂ p₃ : Progress σ} {left : Leftover σ} {deletions beyond gone : List Event}

theorem Completed.stocked (h : Completed f c w middle left ms deletions) :
    f.Stocked c middle.cache (f.cycle c w).2.trace where
  locations := h.survey.locations
  failed s hs e he := h.survey.failed s hs e (h.listings ▸ he)
  listed s hs as has id := by
    rw [h.survey.ids s hs as (h.listings ▸ has)]
    refine or_congr_right (exists_congr fun m => and_congr_left fun ha => ?_)
    obtain ⟨position, a, hd, -⟩ := ha
    rw [← h.landmarks, Progress.landmarks, List.mem_filter, hd]
    exact and_iff_left rfl

theorem Completed.deletions_eq (h : Completed f c w middle left ms deletions) :
    (f.cycle c w).1.deleted =
        middle.cache.lost (f.evictions c (listingsOf (f.cycle c w).2.trace)) ∧
      deletions = (f.cycle c w).1.deleted.map (⟨.deleted, ·⟩) := by
  have hlost := h.clearance.lost
  have hdeleted := h.deleted
  rw [← h.listings] at hlost
  rw [hlost, List.map_map] at hdeleted
  have hids : (f.cycle c w).1.deleted =
      middle.cache.lost (f.evictions c (listingsOf (f.cycle c w).2.trace)) :=
    hdeleted.trans (List.map_id' _)
  exact ⟨hids, hids ▸ hlost⟩

theorem Steps.arrivals {D : Prop} {K : String → Prop} {phase : Phase} (hphase : phase ≠ .survey)
    (h : Steps f D K phase p q) (start : Cache) :
    ∃ ms, q.trace = p.trace ++ ms ∧ f.Arrivals start ms [] := by
  obtain ⟨ms, htrace, hms⟩ := h.does
  refine ⟨ms, htrace, arrivals_nil fun m hm location position a hd => ?_⟩
  cases hms m hm with
  | visit => exact hphase rfl
  | list => exact hphase rfl
  | transfer => exact hphase rfl
  | _ => cases hd

theorem Through.received (h : Through f c w p₀ p₁ p₂ p₃ left beyond gone)
    (hn : (f.sources.map (·.location)).Nodup) (hl : c.locations = f.sources.map (·.location)) :
    f.Arrivals c (f.cycle c w).2.trace p₁.created ∧
      p₁.created.Sublist ((listingsOf (f.cycle c w).2.trace).flatMap (f.offersOf c)) := by
  obtain ⟨listings, ms, jobs, htrace, hlist, hcreated, harrive, hsub⟩ :=
    visitSources_receives hn (fun _ hs => hs) h.survey
  rw [h.start.trace] at htrace
  rw [h.start.created] at hcreated
  have hclear : PlainSteps f .clearance p₁ p₃ :=
    h.steps_clearance hn hl p₁.heard_true fun _ _ _ => trivial
  have hclose : PlainSteps f .close p₃ (f.cycle c w).2 := h.steps_close
  have hlistings : listingsOf (f.cycle c w).2.trace = listings := by
    rw [hclose.listings_eq (by simp), hclear.listings_eq (by simp), htrace, ← hlist]
    rfl
  obtain ⟨ms', htrace', hquiet⟩ := hclear.arrivals (by simp) c
  obtain ⟨ms'', htrace'', hquiet'⟩ := hclose.arrivals (by simp) c
  rw [hlistings, htrace'', htrace', htrace, hcreated]
  refine ⟨?_, hsub⟩
  simpa [begin_] using (harrive.append hquiet).append hquiet'

theorem Through.delivers (h : Through f c w p₀ p₁ p₂ p₃ left beyond gone)
    (hn : (f.sources.map (·.location)).Nodup) (hl : c.locations = f.sources.map (·.location)) :
    f.Delivers c (f.cycle c w) := by
  obtain ⟨ms, hms⟩ := h.completed hn hl
  obtain ⟨harrived, hcreated⟩ := h.received hn hl
  obtain ⟨hdeleted, hdeletions⟩ := hms.deletions_eq
  rw [← hms.created] at harrived hcreated
  have hevents : eventsOf p₁.created beyond gone = eventsIn (f.cycle c w).1 := by
    rw [eventsOf, List.append_assoc, hdeletions, ← hms.created, eventsIn]
  refine ⟨hms.listings ▸ hms.survey.listed, harrived, hcreated,
    ⟨p₁.cache, hms.stocked, hms.listings ▸ hms.clearance.cache, ?_⟩, ?_⟩
  · rw [hdeleted, evictions_eq_append, Cache.lost_append]
  · rw [← hevents]
    exact (closes_closed _ (h.unclosed hn hl)).of_noted h.close

end Course

/-- In a cycle that comes to its end the listener is told once of every job that the result names: of
those that arrived in the order of the sources and their listings, then of those that were lost with
what was beyond the limits, and then of those that were lost with what was gone. All that comes after
the publication of the overview, and goes on if the listener fails. A cycle that stops early neither
publishes nor announces anything, and its result names nothing as deleted. -/
theorem deliveries_ordered (accepted : f.Accepted) (hl : c.locations = f.sources.map (·.location)) :
    ((f.cycle c w).1.completed → f.Delivers c (f.cycle c w)) ∧
      ((f.cycle c w).1.completed = false → (f.cycle c w).1.deleted = [] ∧
        ∀ m ∈ (f.cycle c w).2.trace, ¬ m.deed.isClosing) := by
  have hn := accepted.nodup
  constructor
  · intro hend
    obtain ⟨p₀, p₁, p₂, p₃, left, beyond, gone, h⟩ := cycle_through hend
    exact h.delivers hn hl
  · exact unclosed_of_stopped hn hl

end Fetcher

section Eventful

def numberedJob (digit : Char) : String := String.ofList (List.replicate 31 '0' ++ [digit])

/-- A fetcher of two locations, with a listener that takes down what it is told, and fails. -/
def eventful : Fetcher (Site (List Event)) where
  sources := [
    offering "first" (fun _ => false)
      [(numberedJob '1', []), (numberedJob '2', []), (numberedJob '5', [])],
    offering "second" (fun _ => false) [(numberedJob '6', [])]]
  store := Site.store [] sampleConfig
  listener := some fun e w => (⟨.error (.plain "deaf"), []⟩, w.withObjects (w.objects ++ [e]))
  policy := ⟨.atMost 2, true, true⟩
  cycleBindings := []
  overviewBindings := []

def eventfulCache : Cache :=
  ⟨[("first", [numberedJob '3', numberedJob '1']), ("second", [numberedJob '4'])]⟩

def eventfulCycle : Result × Progress (Site (List Event)) :=
  eventful.cycle eventfulCache (eventful.prepare ⟨.empty, .closed, []⟩).2

theorem ordered_eventfulCycle :
    eventful.Accepted ∧ eventfulCache.locations = eventful.sources.map (·.location) ∧
      eventfulCycle.1.completed ∧ eventful.Delivers eventfulCache eventfulCycle ∧
      eventfulCycle.2.world.objects =
        [⟨.created, numberedJob '2'⟩, ⟨.created, numberedJob '6'⟩, ⟨.deleted, numberedJob '5'⟩,
          ⟨.deleted, numberedJob '3'⟩, ⟨.deleted, numberedJob '4'⟩] := by
  have accepted : eventful.Accepted := ⟨.ofInt 2, by decide⟩
  have hl : eventfulCache.locations = eventful.sources.map (·.location) := rfl
  have hend : eventfulCycle.1.completed := by decide +kernel
  have hdelivers : eventful.Delivers eventfulCache eventfulCycle := by
    unfold eventfulCycle at hend ⊢
    exact (Fetcher.deliveries_ordered accepted hl).1 hend
  exact ⟨accepted, hl, hend, hdelivers, by decide +kernel⟩

end Eventful

end ArchiveKeeper.Fetch
