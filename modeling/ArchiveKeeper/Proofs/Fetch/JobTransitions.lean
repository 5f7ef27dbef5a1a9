import ArchiveKeeper.Proofs.Fetch.JobState
import ArchiveKeeper.Proofs.Fetch.Overview

namespace ArchiveKeeper.Fetch

open Act Progress Store Relation

variable {σ ρ : Type} {f : Fetcher σ} {s : Source σ} {a : Archive} {as : List Archive} {part : σ → ρ}
  {inner : Store ρ} {V : View ρ} {w w₀ : σ} {c start : Cache} {job : String}
  {p q : Progress σ} {position : Nat} {alike : String → ρ → ρ → Prop} {o : Offer}
  {held : Finset String} {before : List String} {drift : σ → σ → Prop}
  {history : List (Result × Progress σ)}

/-- The archive of a location that is read, and what comes of it. -/
def Deed.bundle? : Deed → Option (String × Archive × Except Failure (List Document))
  | .read location a answer => some (location, a, answer)
  | _ => none

def bundlesOf (ms : List (Moment σ)) : List (String × Archive × Except Failure (List Document)) :=
  ms.filterMap (·.deed.bundle?)

theorem mem_bundlesOf {ms : List (Moment σ)} {location : String}
    {answer : Except Failure (List Document)} :
    (location, a, answer) ∈ bundlesOf ms ↔ ∃ m ∈ ms, m.deed = .read location a answer := by
  rw [bundlesOf, List.mem_filterMap]
  refine exists_congr fun m => and_congr_right fun _ => ?_
  cases m.deed <;> simp [Deed.bundle?]

/-- Whenever an archive of a job was read, there came of it what an offer says. -/
def Progress.Reads (o : Offer) (job : String) (p : Progress σ) : Prop :=
  ∀ location a answer, (location, a, answer) ∈ bundlesOf p.trace → a.job = job →
    answer = o.bundle location a

theorem Offer.offered_cons (policy : Policy) (load : Except Failure (List Document) → Option Shelf)
    (location : String) :
    o.offered policy load job held location position (a :: as) =
      (if a.job = job ∧ location ∉ held ∧ ¬ policy.isBeyond position then
        [.offered location (load (o.bundle location a))] else []) ++
      o.offered policy load job held location (position + 1) as := by
  rw [offered, List.zipIdx_cons, List.filterMap_cons, offered]
  by_cases h : a.job = job ∧ location ∉ held ∧ ¬ policy.isBeyond position
  · rw [if_pos h, if_pos h]
    rfl
  · rw [if_neg h, if_neg h]
    rfl

theorem Upkept.standing {U : View σ} (hn : (f.sources.map (·.location)).Nodup)
    (h : Upkept f U c w p) : p.Standing f U := ⟨hn, h.locations, h.ready⟩

namespace Fetcher

section Stretches

variable {D : Prop} {K : String → Prop} {phase : Phase}

theorem Steps.reads (h : Steps f D K phase p q) (hq : q.Reads o job) : p.Reads o job := by
  obtain ⟨ms, ht, -⟩ := h.does
  intro location a answer hm
  refine hq location a answer ?_
  rw [ht, bundlesOf, List.filterMap_append]
  exact List.mem_append_left _ hm

variable (keeps : Keeps inner V) (stands : f.StandsOn part inner V)

include keeps stands

theorem upkept_steps (hn : (f.sources.map (·.location)).Nodup)
    (h : Steps f True (fun id => Job.isId id) phase p q) (hp : Upkept f (V.zoom part) c w p) :
    Upkept f (V.zoom part) c w q := by
  induction h with
  | refl => exact hp
  | tail _ h ih => exact upkept_step keeps stands hn h ih

theorem moved_quiet (hj : Job.isId job) (h : Steps f D (fun _ => False) phase p q)
    (hp : p.Standing f (V.zoom part)) :
    Moved (V.zoom part) job [] [] p q ∧ q.Standing f (V.zoom part) := by
  induction h with
  | refl => exact ⟨.of_same rfl rfl, hp⟩
  | @tail p' q _ hstep ih =>
    obtain ⟨hmoved, hp'⟩ := ih
    have hlast : Moved (V.zoom part) job [] [] p' q :=
      moved_step keeps stands hp' hj (fun _ h => h.elim) hstep
    have hstep' : Step f D (fun id => Job.isId id) phase p' q :=
      hstep.mono (fun d => d) fun _ h => h.elim
    exact ⟨hmoved.trans hlast, standing_of_steps keeps stands (.single hstep') hp'⟩

end Stretches

section Survey

variable (keeps : Keeps inner V) (stands : f.StandsOn part inner V)
  (separates : Separates inner V alike) (works : Works part inner f)
  (hn : (f.sources.map (·.location)).Nodup) (hj : Job.isId job)

include keeps stands separates works hn hj

theorem brought_visitAll {surplus : List (Surplus σ)} (hs : s ∈ f.sources)
    (up : Upkept f (V.zoom part) c w p) (fresh : Fresh s before as p)
    (hv : ∀ a ∈ as, Job.isId a.job) (hbefore : s.location ∈ held ↔ job ∈ before)
    (reads : q.Reads o job) (h : go (f.visitAll s before position as) p = (.ok surplus, q)) :
    Brought (V.zoom part) job
      (o.offered f.policy (filing inner V job) job held s.location position as) p q := by
  induction as generalizing p position surplus with
  | nil =>
    cases h
    exact .of_same rfl rfl ⟨[], by simp, rfl⟩
  | cons a as ih =>
    obtain ⟨b, p', more, hvisit, hgo, -⟩ := visitAll_cons_ok h
    obtain ⟨hid, hv'⟩ := List.forall_mem_cons.mp hv
    have hstands := up.standing hn
    have hl := hstands.mem hs
    have hstep : Step f True (fun id => Job.isId id) .survey p p' :=
      .visited hs (fun _ => fresh.free) hid hvisit
    have hafter : PlainSteps f .survey p' q := (steps_visitAll hs
      (hvisit.locations ▸ hl) False.elim (fun _ _ => trivial) hgo).1
    have hrest := ih (upkept_step keeps stands hn hstep up) (fresh.visited hl hvisit) hv' hgo
    rw [Offer.offered_cons]
    refine Brought.trans ?_ hrest
    by_cases he : a.job = job
    · subst he
      have hfirst := brought_visited keeps stands separates works hs hid hstands
        (up.tended a.job hid).bare fresh.free
        (fun m hm answer hdeed =>
          hafter.reads reads _ _ _ (mem_bundlesOf.mpr ⟨m, hm, hdeed⟩) rfl) hvisit
      simpa [hbefore] using hfirst
    · rw [if_neg fun h => he h.1]
      have hother : Step f False (· = a.job) .survey p p' := .visited hs False.elim rfl hvisit
      exact brought_step keeps stands hstands hj (by rintro _ rfl; exact ⟨hid, he⟩) hother

theorem brought_visitSources {ss : List (Source σ)} {left : Leftover σ}
    (ahead : f.Ahead start ss p) (up : Upkept f (V.zoom part) c w p)
    (heard : q.Heard True fun id => Job.isId id) (reads : q.Reads o job)
    (h : go (f.visitSources start ss) p = (.ok left, q)) :
    ∃ ls, listingsOf q.trace = listingsOf p.trace ++ ls ∧ Brought (V.zoom part) job
      (ls.flatMap (o.arrivals f.policy (filing inner V job) job (start.holders job))) p q := by
  induction ss generalizing p left with
  | nil =>
    cases h
    exact ⟨[], by simp, .of_same rfl rfl ⟨[], by simp, rfl⟩⟩
  | cons s ss ih =>
    have hs := ahead.mem_sources
    have hstands := up.standing hn
    have hquiet {p'} (hsteps : Steps f True (fun _ => False) .survey p p')
        (hcreated : p'.created = p.created) :
        Upkept f (V.zoom part) c w p' ∧ Brought (V.zoom part) job [] p p' := by
      have hmoved := (moved_quiet keeps stands hj hsteps hstands).1
      exact ⟨upkept_steps keeps stands hn (hsteps.mono (fun d => d) fun _ h => h.elim) up,
        [], by simp [hcreated], hmoved⟩
    cases ho : (s.list p.world).1.outcome with
    | error e =>
      rw [go_visitSources_of_missed ho] at h
      obtain ⟨up', hfirst⟩ := hquiet (steps_missed f hs e p) rfl
      obtain ⟨ls, hls, hrest⟩ := ih (ahead.missed e) up' h
      refine ⟨(s.location, .error e) :: ls, ?_, hfirst.trans hrest⟩
      rw [hls, listings_missed ho, List.append_assoc, List.singleton_append]
    | ok as =>
      obtain ⟨up₁, hfirst⟩ := hquiet (steps_listed f hs p) rfl
      obtain ⟨surplus, p', rest, hpassed, ahead', -⟩ := passed ahead heard ho h
      have hheld : s.location ∈ start.holders job ↔ job ∈ start.ids s.location := Cache.mem_holders
      have hthrough := brought_visitAll keeps stands separates works hn hj hs up₁
        (hpassed.fresh trivial) hpassed.known hheld (hpassed.after.reads reads) hpassed.through
      obtain ⟨ls, hls, hrest⟩ := ih ahead' (upkept_steps keeps stands hn hpassed.steps up₁)
        hpassed.rest
      refine ⟨(s.location, .ok as) :: ls, ?_, ?_⟩
      · rw [hls, hpassed.listings, List.append_assoc, List.singleton_append]
      · exact hfirst.trans (hthrough.trans hrest)

end Survey

/-- Jobs were evicted from locations in turn, with some events; in between no job was taken up. -/
inductive Evictions (f : Fetcher σ) :
    List (String × String) → List Event → Progress σ → Progress σ → Prop
  | done {p q : Progress σ} (quiet : Steps f True (fun _ => False) .clearance p q) :
    Evictions f [] [] p q
  | evicted {p p' p'' q : Progress σ} {location job : String} {event : Option Event}
    {pairs : List (String × String)} {events : List Event}
    (quiet : Steps f True (fun _ => False) .clearance p p')
    (first : Evicted f location job p' (.ok event) p'') (rest : Evictions f pairs events p'' q) :
    Evictions f ((location, job) :: pairs) (event.toList ++ events) p q

namespace Evictions

variable {pairs pairs' : List (String × String)} {events events' : List Event} {p' : Progress σ}

theorem after_quiet (h : Steps f True (fun _ => False) .clearance p p')
    (h' : Evictions f pairs events p' q) : Evictions f pairs events p q := by
  cases h' with
  | done quiet => exact .done (h.trans quiet)
  | evicted quiet first rest => exact .evicted (h.trans quiet) first rest

theorem append (h : Evictions f pairs events p p') (h' : Evictions f pairs' events' p' q) :
    Evictions f (pairs ++ pairs') (events ++ events') p q := by
  induction h with
  | done quiet => exact after_quiet quiet h'
  | evicted quiet first _ ih =>
    rw [List.append_assoc]
    exact .evicted quiet first (ih h')

end Evictions

theorem evictSurplus_evictions {ss : List (Surplus σ)} {events : List Event}
    (hss : ∀ s ∈ ss, s.source ∈ f.sources) (h : go (f.evictSurplus ss) p = (.ok events, q)) :
    Evictions f (ss.map fun s => (s.source.location, s.archive.job)) events p q := by
  induction ss generalizing p events with
  | nil =>
    cases h
    exact .done .refl
  | cons s ss ih =>
    obtain ⟨p₁, p', event, p'', more, hp₁, hp', he, hgo, rfl⟩ := evictSurplus_cons_ok h
    obtain ⟨hs, hss'⟩ := List.forall_mem_cons.mp hss
    refine .evicted ?_ he (ih hss' hgo)
    exact ((ReflTransGen.single (.noted hp₁)).tail (.removed _ hs)).tail (.noted hp')

theorem evictExpiredOf_evictions {location : String} {jobs : List String} {events : List Event}
    (h : go (f.evictExpiredOf location jobs) p = (.ok events, q)) :
    Evictions f (jobs.map (location, ·)) events p q := by
  induction jobs generalizing p events with
  | nil =>
    cases h
    exact .done .refl
  | cons job jobs ih =>
    obtain ⟨p', event, p'', more, hp', he, hgo, rfl⟩ := evictExpiredOf_cons_ok h
    exact .evicted (.single (.noted hp')) he (ih hgo)

theorem evictExpired_evictions {gone : List (String × List String)} {events : List Event}
    (h : go (f.evictExpired gone) p = (.ok events, q)) :
    Evictions f (gone.flatMap fun g => g.2.map (g.1, ·)) events p q := by
  induction gone generalizing p events with
  | nil =>
    cases h
    exact .done .refl
  | cons g gone ih =>
    obtain ⟨first, p', more, hfirst, hgo, rfl⟩ := evictExpired_cons_ok h
    exact (evictExpiredOf_evictions hfirst).append (ih hgo)

/-- What is beyond the limits is evicted in turn, and then what is gone. -/
theorem Through.evictions {p₀ p₁ p₂ p₃ : Progress σ} {left : Leftover σ} {beyond gone : List Event}
    {ms : List (Moment σ)} (h : Through f c w p₀ p₁ p₂ p₃ left beyond gone)
    (hms : SurveyedAll f c f.sources (begin_ c w) p₁ left ms) :
    Evictions f (f.overflow (listingsOf ms)) beyond p₁ p₂ ∧
      Evictions f (f.lapse c (listingsOf ms)) gone p₂ p₃ := by
  rw [hms.overflow_eq, hms.lapse_eq]
  exact ⟨evictSurplus_evictions (source_of_visitSources h.survey) h.surplus,
    evictExpired_evictions h.expired⟩

section Clearance

def departures (job : String) (pairs : List (String × String)) : List Life.Move :=
  pairs.filterMap fun x => if x.2 = job then some (.evicted x.1) else none

@[simp] theorem departures_append (pairs pairs' : List (String × String)) :
    departures job (pairs ++ pairs') = departures job pairs ++ departures job pairs' :=
  List.filterMap_append

theorem departures_flatMap {α : Type} (xs : List α) (g : α → List (String × String)) :
    departures job (xs.flatMap g) = xs.flatMap fun x => departures job (g x) :=
  List.filterMap_flatMap

theorem departures_overflow (f : Fetcher σ) (job : String)
    (listings : List (String × Except Failure (List Archive))) :
    departures job (f.overflow listings) = listings.flatMap (Offer.overflows f.policy job) := by
  rw [overflow, List.map_flatMap, departures_flatMap]
  congr 1
  funext x
  obtain ⟨location, e | as⟩ := x
  · rfl
  · simp only [surplusOf, Offer.overflows, departures, List.map_map, List.filterMap_map]
    induction f.policy.surplus 0 as with
    | nil => rfl
    | cons a as ih =>
      rw [List.filterMap_cons, ih, List.filter_cons]
      by_cases h : a.job = job <;> simp [h]

theorem departures_location {jobs : List String} (h : jobs.Nodup) (location : String) :
    departures job (jobs.map (location, ·)) = if job ∈ jobs then [.evicted location] else [] := by
  induction jobs with
  | nil => rfl
  | cons id jobs ih =>
    obtain ⟨hid, hn⟩ := List.nodup_cons.mp h
    have hrest := ih hn
    simp only [departures, List.map_cons, List.filterMap_cons] at hrest ⊢
    by_cases he : id = job
    · subst he
      rw [if_neg hid] at hrest
      simp [hrest]
    · simp [he, Ne.symm he, hrest]

theorem departures_lapse (f : Fetcher σ) (job : String) (hc : ∀ location, (c.ids location).Nodup)
    (listings : List (String × Except Failure (List Archive))) :
    departures job (f.lapse c listings) = if f.policy.evictExpired then
      listings.flatMap (Offer.lapses job (c.holders job)) else [] := by
  rw [lapse]
  split
  · induction listings with
    | nil => rfl
    | cons x listings ih =>
      obtain ⟨location, e | as⟩ := x
      · exact ih
      have hn : ((c.ids location).filter fun job => as.all fun a => a.job ≠ job).Nodup :=
        (hc location).filter _
      have hmem : job ∈ (c.ids location).filter (fun job => as.all fun a => a.job ≠ job) ↔
          location ∈ c.holders job ∧ ∀ a ∈ as, a.job ≠ job := by
        simp [List.mem_filter]
      have hfirst : departures job (((c.ids location).filter fun job =>
          as.all fun a => a.job ≠ job).map (location, ·)) = _ := departures_location hn location
      simp only [hmem] at hfirst
      have hcons : departures job (((location, _) :: listings.filterMap (goneOf c)).flatMap
          fun g => g.2.map (g.1, ·)) = _ := (departures_append _ _).trans (congrArg₂ (· ++ ·) hfirst ih)
      exact hcons
  · rfl

variable (keeps : Keeps inner V) (stands : f.StandsOn part inner V) (hj : Job.isId job)

include keeps stands hj

theorem moved_evictions {pairs : List (String × String)} {events : List Event}
    (hids : ∀ x ∈ pairs, Job.isId x.2) (h : Evictions f pairs events p q)
    (hp : p.Standing f (V.zoom part)) :
    Moved (V.zoom part) job (departures job pairs) (events.filter (·.job = job)) p q ∧
      q.Standing f (V.zoom part) := by
  induction h with
  | done quiet => exact moved_quiet keeps stands hj quiet hp
  | @evicted p p' p'' q location id event pairs events quiet first _ ih =>
    obtain ⟨hquiet, hp'⟩ := moved_quiet keeps stands hj quiet hp
    have hid : Job.isId id := hids (location, id) (by simp)
    have hfirst := moved_evicted keeps stands hp' hj hid first
    have hp'' : p''.Standing f (V.zoom part) :=
      standing_of_steps keeps stands (D := False) (.single (.evicted hid first)) hp'
    obtain ⟨hrest, hq⟩ := ih (fun x hx => hids x (by simp [hx])) hp''
    refine ⟨?_, hq⟩
    have hcons : departures job ((location, id) :: pairs) =
        (if id = job then [.evicted location] else []) ++ departures job pairs := by
      by_cases he : id = job <;> simp [departures, he]
    rw [hcons, List.filter_append]
    exact hquiet.trans (hfirst.trans hrest)

end Clearance

section Cycle

variable (keeps : Keeps inner V) (stands : f.StandsOn part inner V)
  (separates : Separates inner V alike) (works : Works part inner f)
  (hn : (f.sources.map (·.location)).Nodup) (hj : Job.isId job)

include keeps stands separates works hn hj

/-- A cycle does with a job what follows from its offer. -/
theorem moved_cycle (up : Upkept f (V.zoom part) c w (begin_ c w))
    (hids : ∀ location, ∀ id ∈ c.ids location, Job.isId id)
    (hc : ∀ location, (c.ids location).Nodup) (distinct : (f.cycle c w).2.DistinctListings)
    (valid : (f.cycle c w).2.ValidListings) (completed : (f.cycle c w).1.completed)
    (listings : listingsOf (f.cycle c w).2.trace = o.listings) (reads : (f.cycle c w).2.Reads o job) :
    ∃ events, Moved (V.zoom part) job
        (o.moves f.policy (filing inner V job) job (c.holders job)) events (begin_ c w)
        (f.cycle c w).2 ∧
      (f.listener.isSome → (deliveriesOf (f.cycle c w).2.trace).filter (·.job = job) = events) := by
  have hl : c.locations = f.sources.map (·.location) := up.locations
  obtain ⟨p₀, p₁, p₂, p₃, left, beyond, gone, through⟩ := cycle_through completed
  have heard : p₁.Heard True fun id => Job.isId id :=
    through.heard hn hl ⟨fun _ => distinct, valid⟩
  obtain ⟨ms, hms⟩ := through.surveyed hn hl
  have hclearance : Steps f True (fun id => Job.isId id) .clearance p₁ p₃ :=
    through.steps_clearance hn hl heard hids
  have hclose : Steps f True (fun _ => False) .close p₃ (f.cycle c w).2 :=
    through.steps_close
  have hlast := hclose.mono (fun d => d) (M := fun id => Job.isId id) fun _ h => h.elim
  -- the survey
  have hstart : Steps f True (fun _ => False) .survey (begin_ c w) p₀ := .single (.noted through.start)
  have hquiet₀ := (moved_quiet keeps stands hj hstart (up.standing hn)).1
  have up₀ := upkept_steps keeps stands hn
    (hstart.mono (fun d => d) (M := fun id => Job.isId id) fun _ h => h.elim) up
  obtain ⟨ls, hls, new, hnew, hsurvey⟩ := brought_visitSources keeps stands separates works hn hj
    (o := o) (through.ahead hn hl) up₀ heard (hclearance.reads (hlast.reads reads)) through.survey
  have hlistings : listingsOf p₁.trace = o.listings := by
    rw [← listings, Steps.listings_eq (by simp) hlast, Steps.listings_eq (by simp) hclearance]
  have hcreated : p₁.created = new := by
    rw [hnew, through.start.created]
    rfl
  obtain rfl : ls = o.listings := by
    rw [← hlistings, hls, through.start.trace]
    rfl
  have hmoments : listingsOf ms = o.listings := hms.listings.symm.trans hlistings
  -- the evictions
  have hstands₁ : p₁.Standing f (V.zoom part) := standing_of_steps keeps stands
    (through.steps hn hl True _ heard) (up.standing hn)
  obtain ⟨hfirst, hsecond⟩ := through.evictions hms
  obtain ⟨hbeyond, hstands₂⟩ :=
    moved_evictions keeps stands hj (hms.known_overflow heard) hfirst hstands₁
  obtain ⟨hgone, hstands₃⟩ := moved_evictions keeps stands hj
    (hms.known_lapse (K := fun id => Job.isId id) hids) hsecond hstands₂
  have hquiet := (moved_quiet keeps stands hj hclose hstands₃).1
  rw [hmoments, departures_overflow] at hbeyond
  rw [hmoments, departures_lapse f job hc] at hgone
  refine ⟨births job new ++ (beyond.filter (·.job = job) ++ gone.filter (·.job = job)), ?_, fun hlis => ?_⟩
  · have hall := hquiet₀.trans (hsurvey.trans (hbeyond.trans (hgone.trans hquiet)))
    simpa [Offer.moves, List.append_assoc] using hall
  · rw [through.delivered hn hl hlis, hcreated, List.filter_append, List.filter_append]
    congr 1
    simp [births, List.filter_map, Function.comp_def]

end Cycle

/-- The life of a job from before the first cycle to after some cycles. -/
def lifeAfter (policy : Policy) (load : Except Failure (List Document) → Option Shelf) (job : String)
    (offers : Nat → Offer) : Nat → Life
  | 0 => ⟨∅, Shelf.empty, []⟩
  | n + 1 => (offers n).follow policy load job (lifeAfter policy load job offers n)

/-- The cycles of a run found the listings of their offers, and what the offers say of the bundles of
all jobs but one. -/
def Meets (offers : Nat → Offer) (except : String) (history : List (Result × Progress σ)) : Prop :=
  ∀ n x, history[n]? = some x → listingsOf x.2.trace = (offers n).listings ∧
    ∀ job, job ≠ except → x.2.Reads (offers n) job

section Runs

variable (keeps : Keeps inner V) (stands : f.StandsOn part inner V)
  (separates : Separates inner V alike) (works : Works part inner f) (hs : V.sound (part w₀))
  (hdrift : ∀ w w', drift w w' → V.untouched (part w) (part w'))

include keeps stands separates works hs hdrift

/-- What a run has done with a job follows from the offers that it met. -/
theorem Run.life {offers : Nat → Offer} {except : String} (run : f.Run drift w₀ history c w)
    (distinct : ∀ x ∈ history, x.2.DistinctListings) (valid : ∀ x ∈ history, x.2.ValidListings)
    (meets : Meets offers except history) (hj : Job.isId job) (hne : job ≠ except) :
    ∃ events, lifeAfter f.policy (filing inner V job) job offers history.length =
        ⟨c.holders job, V.shelf job (part w), events⟩ ∧
      (f.listener.isSome → (deliveries history).filter (·.job = job) = events) := by
  induction run with
  | @prepared log w accepted hprepare =>
    obtain ⟨hready, hbare⟩ := bare_prepare keeps stands.wavers hs hprepare
    have hshelf : V.shelf job (part w) = Shelf.empty := keeps.empty job _ hj hready (hbare job hj)
    have hholders : f.emptyCache.holders job = ∅ := by
      ext l
      simp [emptyCache]
    exact ⟨[], by rw [hholders, hshelf]; rfl, fun _ => rfl⟩
  | @drifted history c w w' run drifts ih =>
    have hready := (run.mirrored keeps stands hs hdrift distinct valid).ready
    have hshelf := ((keeps.untouched _ _ (hdrift _ _ drifts) hready).2 job hj trivial).1
    rw [hshelf]
    exact ih distinct valid meets
  | @cycled history c w run ih =>
    have distinct' x (hx : x ∈ history) := distinct x (List.mem_append_left _ hx)
    have valid' x (hx : x ∈ history) := valid x (List.mem_append_left _ hx)
    have hlast : f.cycle c w ∈ history ++ [f.cycle c w] := by simp
    have mirrored := run.mirrored keeps stands hs hdrift distinct' valid'
    have up : Upkept f (V.zoom part) c w (begin_ c w) :=
      upkept_begin run.locations mirrored.ready mirrored.bare
    have meets' : Meets offers except history := by
      intro n x hx
      refine meets n x ?_
      rw [List.getElem?_append_left (List.getElem?_eq_some_iff.mp hx).1, hx]
    obtain ⟨listings, reads⟩ := meets history.length (f.cycle c w) (by simp)
    obtain ⟨events, hlife, hevents⟩ := ih distinct' valid' meets'
    obtain ⟨more, hmoved, hmore⟩ := moved_cycle keeps stands separates works run.accepted.nodup hj up
      (run.isId_of_held valid') run.nodup_ids (distinct _ hlast) (valid _ hlast)
      (run.completes keeps stands hs hdrift distinct valid) listings (reads job hne)
    refine ⟨events ++ more, ?_, fun hlis => ?_⟩
    · rw [List.length_append, List.length_singleton, lifeAfter, hlife]
      exact hmoved events
    · have hall : deliveries (history ++ [f.cycle c w]) =
          deliveries history ++ deliveriesOf (f.cycle c w).2.trace := by
        simp [deliveries]
      rw [hall, List.filter_append, hevents hlis, hmore hlis]

end Runs

end Fetcher

end ArchiveKeeper.Fetch
