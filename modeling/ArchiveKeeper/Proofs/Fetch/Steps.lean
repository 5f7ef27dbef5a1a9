import ArchiveKeeper.Proofs.Fetch.Course
import Mathlib.Logic.Relation

namespace ArchiveKeeper.Fetch

open Act Progress Relation

variable {σ : Type} {f : Fetcher σ} {s : Source σ} {as : List Archive} {before : List String}
  {start : Cache} {position : Nat} {p q : Progress σ} {D : Prop}
  {K : String → Prop} {phase : Phase}

/-- No listing that the cycle was given names a job twice. -/
def Progress.DistinctListings (p : Progress σ) : Prop :=
  ∀ location as, (location, .ok as) ∈ listingsOf p.trace → (as.map (·.job)).Nodup

/-- The listings that a cycle was given name jobs by their ids. -/
def Progress.ValidListings (p : Progress σ) : Prop :=
  ∀ location as, (location, .ok as) ∈ listingsOf p.trace → ∀ a ∈ as, Job.isId a.job

/-- The listings are distinct if they have to be, and name known jobs. -/
def Progress.Heard (D : Prop) (K : String → Prop) (p : Progress σ) : Prop :=
  (D → p.DistinctListings) ∧
    ∀ location as, (location, .ok as) ∈ listingsOf p.trace → ∀ a ∈ as, K a.job

theorem Progress.heard_true (p : Progress σ) : p.Heard False fun _ => True :=
  ⟨False.elim, fun _ _ _ _ _ => trivial⟩

inductive Phase where
  | survey
  | clearance
  | close

namespace Fetcher

/-- A step of a cycle. If listings are distinct, then an archive that is new to its location is of a
job that the location does not hold. All that is taken up or evicted is of the jobs that are known.
-/
inductive Step (f : Fetcher σ) (D : Prop) (K : String → Prop) :
    Phase → Progress σ → Progress σ → Prop
  | noted {phase : Phase} {p q : Progress σ} (h : p.Noted q) : Step f D K phase p q
  | listed {p : Progress σ} {s : Source σ} (hs : s ∈ f.sources) :
    Step f D K .survey p (p.asked (.list s.location) s.list)
  | visited {p q : Progress σ} {s : Source σ} {before : List String} {position : Nat} {a : Archive}
    {r : Except Failure Bool} (hs : s ∈ f.sources)
    (free : D → a.job ∉ before → a.job ∉ p.cache.ids s.location) (known : K a.job)
    (h : Visited f s before position a p r q) : Step f D K .survey p q
  | removed {p : Progress σ} {s : Source σ} (a : Archive) (hs : s ∈ f.sources) :
    Step f D K .clearance p (p.asked (.remove s.location a) (s.remove a))
  | evicted {p q : Progress σ} {location job : String} {r : Except Failure (Option Event)}
    (known : K job) (h : Evicted f location job p r q) : Step f D K .clearance p q
  | republished {p : Progress σ} : Step f D K .close p
    (p.asked .republish ((Overview.republish f.store).bind f.overviewBindings))
  | delivered {p : Progress σ} {listener : Listener σ} (hl : f.listener = some listener)
    (events : List Event) : Step f D K .close p
      (p.asked (fun _ => .deliver events) (Event.deliverAll listener events))

abbrev Steps (f : Fetcher σ) (D : Prop) (K : String → Prop) (phase : Phase) :
    Progress σ → Progress σ → Prop := ReflTransGen (Step f D K phase)

abbrev PlainSteps (f : Fetcher σ) (phase : Phase) : Progress σ → Progress σ → Prop :=
  Steps f False (fun _ => True) phase

theorem Step.mono {E : Prop} {M : String → Prop} (hd : E → D) (hk : ∀ id, K id → M id)
    (h : Step f D K phase p q) : Step f E M phase p q := by
  cases h with
  | noted h => exact .noted h
  | listed hs => exact .listed hs
  | visited hs free known h => exact .visited hs (free ∘ hd) (hk _ known) h
  | removed a hs => exact .removed a hs
  | evicted known h => exact .evicted (hk _ known) h
  | republished => exact .republished
  | delivered hl events => exact .delivered hl events

/-- As far as one job goes, a step takes up an archive of it, evicts it, or is one with other jobs. -/
theorem Step.own_or_other (job : String) (h : Step f D K phase p q) :
    (∃ (s : Source σ) (before : List String) (position : Nat) (a : Archive) (r : Except Failure Bool),
      s ∈ f.sources ∧ a.job = job ∧ K a.job ∧
        (D → a.job ∉ before → a.job ∉ p.cache.ids s.location) ∧
        Visited f s before position a p r q) ∨
    (∃ (location : String) (r : Except Failure (Option Event)),
      K job ∧ Evicted f location job p r q) ∨
    Step f D (fun id => K id ∧ id ≠ job) phase p q := by
  cases h with
  | noted h => exact .inr (.inr (.noted h))
  | listed hs => exact .inr (.inr (.listed hs))
  | @visited _ _ s before position a r hs free known h =>
    by_cases he : a.job = job
    · exact .inl ⟨s, before, position, a, r, hs, he, known, free, h⟩
    · exact .inr (.inr (.visited hs free ⟨known, he⟩ h))
  | removed a hs => exact .inr (.inr (.removed a hs))
  | @evicted _ _ location id r known h =>
    by_cases he : id = job
    · subst he
      exact .inr (.inl ⟨location, r, known, h⟩)
    · exact .inr (.inr (.evicted ⟨known, he⟩ h))
  | republished => exact .inr (.inr .republished)
  | delivered hl events => exact .inr (.inr (.delivered hl events))

theorem Steps.mono {E : Prop} {M : String → Prop} (hd : E → D) (hk : ∀ id, K id → M id)
    (h : Steps f D K phase p q) : Steps f E M phase p q :=
  ReflTransGen.mono (fun _ _ hstep => hstep.mono hd hk) _ _ h

theorem Step.locations (h : Step f D K phase p q) :
    q.cache.locations = p.cache.locations := by
  cases h with
  | noted h => rw [h.cache]
  | listed => rfl
  | visited _ _ _ h => exact h.locations
  | removed => rfl
  | evicted _ h => cases h <;> exact Cache.locations_evict
  | republished => rfl
  | delivered => rfl

theorem Steps.locations (h : Steps f D K phase p q) :
    q.cache.locations = p.cache.locations := by
  induction h with
  | refl => rfl
  | tail _ h ih => exact h.locations.trans ih

/-- What is done in the phases of a cycle. Sources and the store answer as they do, but nothing is
said of what comes of the transfers, or of which jobs are deleted. -/
inductive Does (f : Fetcher σ) : Phase → Moment σ → Prop
  | list {s : Source σ} (hs : s ∈ f.sources) (c : Cache) (w : σ) :
    Does f .survey ⟨.list s.location (s.list w).1.outcome, c, w⟩
  | visit (location : String) (position : Nat) (a : Archive) (c : Cache) (w : σ) :
    Does f .survey ⟨.visit location position a, c, w⟩
  | transfer {m : Moment σ} (h : m.deed.isTransfer) : Does f .survey m
  | remove {s : Source σ} (hs : s ∈ f.sources) (a : Archive) (c : Cache) (w : σ) :
    Does f .clearance ⟨.remove s.location a (s.remove a w).1.outcome, c, w⟩
  | delete (job : String) (answer : Except Failure Unit) (c : Cache) (w : σ) :
    Does f .clearance ⟨.delete job answer, c, w⟩
  | republish (c : Cache) (w : σ) :
    Does f .close ⟨.republish (Overview.republish f.store w).1.outcome, c, w⟩
  | deliver (events : List Event) (c : Cache) (w : σ) : Does f .close ⟨.deliver events, c, w⟩

theorem Step.does (h : Step f D K phase p q) :
    ∃ ms, q.trace = p.trace ++ ms ∧ ∀ m ∈ ms, f.Does phase m := by
  cases h with
  | noted h => exact ⟨[], by simp [h.trace], by simp⟩
  | listed hs => exact ⟨_, trace_asked _ _, List.forall_mem_singleton.mpr (.list hs ..)⟩
  | visited _ _ _ h =>
    obtain ⟨ms, ht, hms⟩ := h.trace
    exact ⟨_, ht, List.forall_mem_cons.mpr ⟨.visit .., fun m hm => .transfer (hms m hm)⟩⟩
  | removed a hs => exact ⟨_, trace_asked _ _, List.forall_mem_singleton.mpr (.remove hs ..)⟩
  | evicted _ h =>
    cases h with
    | kept => exact ⟨[], by simp [withCache], by simp⟩
    | dropped => exact ⟨_, trace_asked _ _, List.forall_mem_singleton.mpr (.delete ..)⟩
    | stuck => exact ⟨_, trace_asked _ _, List.forall_mem_singleton.mpr (.delete ..)⟩
  | republished => exact ⟨_, trace_asked _ _, List.forall_mem_singleton.mpr (.republish ..)⟩
  | delivered => exact ⟨_, trace_asked _ _, List.forall_mem_singleton.mpr (.deliver ..)⟩

theorem Steps.does (h : Steps f D K phase p q) :
    ∃ ms, q.trace = p.trace ++ ms ∧ ∀ m ∈ ms, f.Does phase m := by
  induction h with
  | refl => exact ⟨[], by simp, by simp⟩
  | tail _ h ih =>
    obtain ⟨ms, ht, hms⟩ := ih
    obtain ⟨ms', ht', hms'⟩ := h.does
    refine ⟨ms ++ ms', by rw [ht', ht, List.append_assoc], ?_⟩
    exact List.forall_mem_append.mpr ⟨hms, hms'⟩

theorem Steps.listings_eq (hphase : phase ≠ .survey) (h : Steps f D K phase p q) :
    listingsOf q.trace = listingsOf p.trace := by
  obtain ⟨ms, ht, hms⟩ := h.does
  rw [ht, listingsOf_append, List.append_right_eq_self, listingsOf, List.filterMap_eq_nil_iff]
  intro m hm
  cases hms m hm with
  | list => exact absurd rfl hphase
  | visit => exact absurd rfl hphase
  | transfer => exact absurd rfl hphase
  | remove => rfl
  | delete => rfl
  | republish => rfl
  | deliver => rfl

theorem Step.known (hl : ∀ s ∈ f.sources, s.location ∈ p.cache.locations)
    (h : Step f D K phase p q) (hp : ∀ location, ∀ id ∈ p.cache.ids location, K id) :
    ∀ location, ∀ id ∈ q.cache.ids location, K id := by
  have hevict {location job : String} :
      ∀ l, ∀ id ∈ (p.cache.evict location job).ids l, K id := fun l id hid =>
    hp l id (Cache.mem_ids_evict.mp hid).1
  cases h with
  | noted h => rwa [h.cache]
  | listed => exact hp
  | @visited _ _ s before position a r hs _ known h =>
    intro location id hid
    by_cases hloc : location = s.location
    · subst hloc
      rcases (h.mem_ids (hl s hs)).mp hid with hid | ⟨rfl, -⟩
      · exact hp _ id hid
      · exact known
    · exact hp location id (h.ids_of_ne hloc ▸ hid)
  | removed => exact hp
  | evicted _ h => cases h <;> exact hevict
  | republished => exact hp
  | delivered => exact hp

theorem Step.nodup_ids (h : Step f D K phase p q) (hp : ∀ location, (p.cache.ids location).Nodup) :
    ∀ location, (q.cache.ids location).Nodup := by
  cases h with
  | noted h => rwa [h.cache]
  | listed => exact hp
  | visited _ _ _ h =>
    cases h with
    | beyond => exact hp
    | known => exact hp
    | shared => exact Cache.nodup_ids_ingest hp
    | created _ _ _ run =>
      refine Cache.nodup_ids_ingest ?_
      rw [(ingest_books run).1]
      exact hp
    | refused _ _ _ run =>
      rw [(ingest_books run).1]
      exact hp
    | broken _ _ _ run =>
      rw [(ingest_books run).1]
      exact hp
  | removed => exact hp
  | evicted _ h => cases h <;> exact Cache.nodup_ids_evict hp
  | republished => exact hp
  | delivered => exact hp

theorem Steps.mem_listings (h : Steps f D K phase p q)
    {l : String × Except Failure (List Archive)} (hl : l ∈ listingsOf p.trace) :
    l ∈ listingsOf q.trace := by
  obtain ⟨ms, ht, -⟩ := h.does
  rw [ht, listingsOf_append]
  exact List.mem_append_left _ hl

theorem Steps.heard {E : Prop} {M : String → Prop} (h : Steps f D K phase p q)
    (hq : q.Heard E M) : p.Heard E M :=
  ⟨fun e location as hm => hq.1 e location as (h.mem_listings hm),
    fun location as hm => hq.2 location as (h.mem_listings hm)⟩

/-- A part of a listing names no job twice, and of those that its location holds only such as it held
before. -/
def Fresh (s : Source σ) (before : List String) (as : List Archive) (p : Progress σ) : Prop :=
  (as.map (·.job)).Nodup ∧ ∀ id ∈ p.cache.ids s.location, id ∈ before ∨ id ∉ as.map (·.job)

theorem Fresh.free {a : Archive} (h : Fresh s before (a :: as) p) (new : a.job ∉ before) :
    a.job ∉ p.cache.ids s.location := fun hmem =>
  (h.2 _ hmem).elim new fun hnot => hnot (by simp)

theorem Fresh.visited {a : Archive} {r : Except Failure Bool} (h : Fresh s before (a :: as) p)
    (hl : s.location ∈ p.cache.locations) (hv : Visited f s before position a p r q) :
    Fresh s before as q := by
  obtain ⟨hn, hids⟩ := h
  rw [List.map_cons, List.nodup_cons] at hn
  refine ⟨hn.2, fun id hid => ?_⟩
  rcases (hv.mem_ids hl).mp hid with hp | ⟨rfl, -⟩
  · exact (hids id hp).imp_right fun h hm => h (List.mem_cons_of_mem _ hm)
  · exact .inr hn.1

theorem steps_visitAll {r : Except Failure (List (Surplus σ))} (hs : s ∈ f.sources)
    (hl : s.location ∈ p.cache.locations) (hd : D → Fresh s before as p) (hk : ∀ a ∈ as, K a.job)
    (h : go (f.visitAll s before position as) p = (r, q)) :
    Steps f D K .survey p q ∧
      ∀ other, other ≠ s.location → q.cache.ids other = p.cache.ids other := by
  induction as generalizing p position r with
  | nil =>
    cases h
    exact ⟨.refl, fun _ _ => rfl⟩
  | cons a as ih =>
    have hfree : D → a.job ∉ before → a.job ∉ p.cache.ids s.location := fun d => (hd d).free
    obtain ⟨e, hv, -⟩ | ⟨b, p', t, hv, hgo, -⟩ := visitAll_cons h
    · exact ⟨.single (.visited hs hfree (hk a (by simp)) hv), fun other ho => hv.ids_of_ne ho⟩
    obtain ⟨hsteps, hothers⟩ := ih (hv.locations ▸ hl) (fun d => (hd d).visited hl hv)
      (fun a' ha' => hk a' (by simp [ha'])) hgo
    exact ⟨.head (.visited hs hfree (hk a (by simp)) hv) hsteps, fun other ho =>
      (hothers other ho).trans (hv.ids_of_ne ho)⟩

theorem steps_listed (f : Fetcher σ) (hs : s ∈ f.sources) (p : Progress σ) :
    Steps f D K .survey p (f.listed s p) :=
  .head (.noted (noted_said p _)) (.single (.listed hs))

theorem steps_missed (f : Fetcher σ) (hs : s ∈ f.sources) (e : Failure) (p : Progress σ) :
    Steps f D K .survey p (f.missed s e p) :=
  .tail (steps_listed f hs p) (.noted ⟨rfl, rfl, rfl, rfl, rfl⟩)

/-- These sources are still ahead of a survey: what their locations held at its start, they hold
now. -/
structure Ahead (f : Fetcher σ) (start : Cache) (ss : List (Source σ)) (p : Progress σ) : Prop where
  sources : ∀ s ∈ ss, s ∈ f.sources
  distinct : (ss.map (·.location)).Nodup
  locations : ∀ s ∈ ss, s.location ∈ p.cache.locations
  ids : ∀ s ∈ ss, p.cache.ids s.location = start.ids s.location

namespace Ahead

variable {ss : List (Source σ)}

theorem whole {c : Cache} (hn : (f.sources.map (·.location)).Nodup)
    (hl : ∀ s ∈ f.sources, s.location ∈ c.locations) (hp : p.cache = c) :
    f.Ahead c f.sources p :=
  ⟨fun _ hs => hs, hn, hp ▸ hl, fun _ _ => by rw [hp]⟩

theorem mem_sources (h : f.Ahead start (s :: ss) p) : s ∈ f.sources :=
  h.sources s List.mem_cons_self

theorem mem_locations (h : f.Ahead start (s :: ss) p) : s.location ∈ p.cache.locations :=
  h.locations s List.mem_cons_self

/-- What is done at one location leaves the sources of the others as they were. -/
theorem after (h : f.Ahead start (s :: ss) p) (hl : q.cache.locations = p.cache.locations)
    (hothers : ∀ other, other ≠ s.location → q.cache.ids other = p.cache.ids other) :
    f.Ahead start ss q := by
  obtain ⟨hsources, hdistinct, hlocations, hids⟩ := h
  rw [List.map_cons, List.nodup_cons] at hdistinct
  rw [List.forall_mem_cons] at hsources hlocations hids
  refine ⟨hsources.2, hdistinct.2, hl ▸ hlocations.2, fun s' hs' => ?_⟩
  have hne : s'.location ≠ s.location := fun he => hdistinct.1 (he ▸ List.mem_map_of_mem hs')
  exact (hothers _ hne).trans (hids.2 s' hs')

theorem listed (h : f.Ahead start ss p) : f.Ahead start ss (f.listed s p) :=
  ⟨h.sources, h.distinct, h.locations, h.ids⟩

theorem missed (h : f.Ahead start (s :: ss) p) (e : Failure) :
    f.Ahead start ss (f.missed s e p) :=
  h.after rfl fun _ _ => rfl

theorem fresh (h : f.Ahead start (s :: ss) p) (hd : (as.map (·.job)).Nodup) :
    Fresh s (start.ids s.location) as (f.listed s p) :=
  ⟨hd, fun _ hid => .inl (h.ids s List.mem_cons_self ▸ hid)⟩

end Ahead

theorem listings_listed {answer : Except Failure (List Archive)}
    (ho : (s.list p.world).1.outcome = answer) :
    listingsOf (f.listed s p).trace = listingsOf p.trace ++ [(s.location, answer)] := by
  rw [← listingsOf_landmarks, landmarks_listed, ho, listingsOf_append, listingsOf_landmarks]
  rfl

theorem listings_missed {e : Failure} (ho : (s.list p.world).1.outcome = .error e) :
    listingsOf (f.missed s e p).trace = listingsOf p.trace ++ [(s.location, .error e)] :=
  listings_listed ho

theorem steps_visitSources {ss : List (Source σ)} {r : Except Failure (Leftover σ)}
    (ahead : f.Ahead start ss p) (hq : q.Heard D K)
    (h : go (f.visitSources start ss) p = (r, q)) : Steps f D K .survey p q := by
  induction ss generalizing p r D K with
  | nil =>
    cases h
    exact .refl
  | cons s ss ih =>
    have hs := ahead.mem_sources
    cases ho : (s.list p.world).1.outcome with
    | error e =>
      rw [go_visitSources_of_missed ho] at h
      exact (steps_missed f hs e p).trans (ih (ahead.missed e) hq h)
    | ok as =>
      have hmem : (s.location, .ok as) ∈ listingsOf (f.listed s p).trace := by
        rw [listings_listed ho]
        simp
      have hl : s.location ∈ (f.listed s p).cache.locations := ahead.listed.mem_locations
      -- whatever is not known of the listings, none of them is forgotten
      have hfree {r p'}
          (hv : go (f.visitAll s (start.ids s.location) 0 as) (f.listed s p) = (r, p')) :=
        steps_visitAll (D := False) (K := fun _ => True) hs hl False.elim (fun _ _ => trivial) hv
      have hall {r p'} (hv : go (f.visitAll s (start.ids s.location) 0 as) (f.listed s p) = (r, p'))
          (hsub : ∀ l ∈ listingsOf p'.trace, l ∈ listingsOf q.trace) :
          Steps f D K .survey (f.listed s p) p' := by
        have hp' := hsub _ (Steps.mem_listings (hfree hv).1 hmem)
        exact (steps_visitAll hs hl (fun d => ahead.fresh (hq.1 d _ _ hp')) (hq.2 _ _ hp') hv).1
      refine (steps_listed f hs p).trans ?_
      obtain ⟨e, hv, -⟩ | ⟨surplus, p', t, hv, hrest, -⟩ := visitSources_of_listed ho h
      · exact hall hv fun _ h => h
      obtain ⟨hsteps, hothers⟩ := hfree hv
      have ahead' : f.Ahead start ss p' := ahead.listed.after (Steps.locations hsteps) hothers
      have hgrow : PlainSteps f .survey p' q := ih ahead' q.heard_true hrest
      exact (hall hv fun _ h => hgrow.mem_listings h).trans (ih ahead' hq hrest)

/-- A source was listed, and its listing was gone through up to a point, before the other sources. -/
structure Passed (f : Fetcher σ) (D : Prop) (K : String → Prop) (start : Cache) (s : Source σ)
    (as : List Archive) (ss : List (Source σ)) (p q : Progress σ) (surplus : List (Surplus σ))
    (p' : Progress σ) (left : Leftover σ) : Prop where
  through : go (f.visitAll s (start.ids s.location) 0 as) (f.listed s p) = (.ok surplus, p')
  rest : go (f.visitSources start ss) p' = (.ok left, q)
  listings : listingsOf p'.trace = listingsOf p.trace ++ [(s.location, .ok as)]
  fresh : D → Fresh s (start.ids s.location) as (f.listed s p)
  known : ∀ a ∈ as, K a.job
  steps : Steps f D K .survey (f.listed s p) p'
  start : ∀ s' ∈ ss, p'.cache.ids s'.location = start.ids s'.location
  after : Steps f D K .survey p' q

theorem passed {ss : List (Source σ)} {left : Leftover σ} (ahead : f.Ahead start (s :: ss) p)
    (hq : q.Heard D K) (ho : (s.list p.world).1.outcome = .ok as)
    (h : go (f.visitSources start (s :: ss)) p = (.ok left, q)) :
    ∃ surplus p' rest, Passed f D K start s as ss p q surplus p' rest ∧ f.Ahead start ss p' ∧
      left.surplus = surplus ++ rest.surplus := by
  have hl : s.location ∈ (f.listed s p).cache.locations := ahead.listed.mem_locations
  obtain ⟨surplus, p', rest, hv, hrest, rfl⟩ := visitSources_of_listed_ok ho h
  obtain ⟨-, vs, hvs⟩ := visitAll_surveyed hv hl
  have hlists : listingsOf p'.trace = listingsOf p.trace ++ [(s.location, .ok as)] := by
    rw [← listingsOf_landmarks, hvs.landmarks, listingsOf_append, hvs.listings, List.append_nil,
      listingsOf_landmarks, listings_listed ho]
  have ahead' : f.Ahead start ss p' := ahead.listed.after hvs.locations hvs.others
  have hafter : Steps f D K .survey p' q := steps_visitSources ahead' hq hrest
  -- the listing that was gone through is still known at the end
  have hmem : (s.location, .ok as) ∈ listingsOf q.trace := Steps.mem_listings hafter
    (hlists ▸ List.mem_append_right _ (List.mem_singleton.mpr rfl))
  have hfresh (d : D) : Fresh s (start.ids s.location) as (f.listed s p) :=
    ahead.fresh (hq.1 d _ _ hmem)
  have hknown : ∀ a ∈ as, K a.job := hq.2 _ _ hmem
  exact ⟨surplus, p', rest, ⟨hv, hrest, hlists, hfresh, hknown,
    (steps_visitAll ahead.mem_sources hl hfresh hknown hv).1, ahead'.ids, hafter⟩, ahead', rfl⟩

theorem steps_evictSurplus {ss : List (Surplus σ)} {r : Except Failure (List Event)}
    (hss : ∀ s ∈ ss, s.source ∈ f.sources) (hk : ∀ s ∈ ss, K s.archive.job)
    (h : go (f.evictSurplus ss) p = (r, q)) :
    Steps f D K .clearance p q := by
  induction ss generalizing p r with
  | nil =>
    cases h
    exact .refl
  | cons s ss ih =>
    obtain ⟨p₁, p', hp₁, hp', he⟩ := evictSurplus_cons h
    have hs : Steps f D K .clearance p p' :=
      ((ReflTransGen.single (.noted hp₁)).tail (.removed _ (hss s (by simp)))).tail (.noted hp')
    obtain ⟨e, he, -⟩ | ⟨event, p'', t, he, hgo, -⟩ := he
    · exact hs.tail (.evicted (hk s (by simp)) he)
    · exact (hs.tail (.evicted (hk s (by simp)) he)).trans (ih
        (fun s' hs' => hss s' (by simp [hs'])) (fun s' hs' => hk s' (by simp [hs'])) hgo)

theorem steps_evictExpiredOf {location : String} {jobs : List String}
    {r : Except Failure (List Event)} (hk : ∀ job ∈ jobs, K job)
    (h : go (f.evictExpiredOf location jobs) p = (r, q)) :
    Steps f D K .clearance p q := by
  induction jobs generalizing p r with
  | nil =>
    cases h
    exact .refl
  | cons job jobs ih =>
    obtain ⟨p', hp', ⟨e, he, -⟩ | ⟨event, p'', t, he, hgo, -⟩⟩ := evictExpiredOf_cons h
    · exact (ReflTransGen.single (.noted hp')).tail (.evicted (hk job (by simp)) he)
    · exact ((ReflTransGen.single (.noted hp')).tail (.evicted (hk job (by simp)) he)).trans
        (ih (fun job' hj' => hk job' (by simp [hj'])) hgo)

theorem steps_evictExpired {gone : List (String × List String)} {r : Except Failure (List Event)}
    (hk : ∀ g ∈ gone, ∀ job ∈ g.2, K job)
    (h : go (f.evictExpired gone) p = (r, q)) : Steps f D K .clearance p q := by
  induction gone generalizing p r with
  | nil =>
    cases h
    exact .refl
  | cons g gone ih =>
    obtain ⟨e, he, -⟩ | ⟨first, p', t, he, hgo, -⟩ := evictExpired_cons h
    · exact steps_evictExpiredOf (hk g (by simp)) he
    · exact (steps_evictExpiredOf (hk g (by simp)) he).trans
        (ih (fun g' hg' => hk g' (by simp [hg'])) hgo)

theorem steps_closed (f : Fetcher σ) (events : List Event) (p : Progress σ) :
    Steps f D K .close p (f.closed events p) := by
  have hp : Steps f D K .close p (f.afterPublication events p) := by
    unfold afterPublication
    split
    · exact .single .republished
    · exact .refl
  refine hp.trans ?_
  unfold closed afterDelivery
  split
  · exact .refl
  · rename_i listener hl
    exact .single (.delivered hl events)

theorem steps_close {events : List Event} (close : (f.closed events p).Noted q) :
    Steps f D K .close p q :=
  (steps_closed f events p).tail (.noted close)

theorem source_of_visitAll {surplus : List (Surplus σ)}
    (h : go (f.visitAll s before position as) p = (.ok surplus, q)) :
    ∀ x ∈ surplus, x.source = s := by
  induction as generalizing position p surplus with
  | nil =>
    cases h
    simp
  | cons a as ih =>
    obtain ⟨b, p', more, -, hgo, rfl⟩ := visitAll_cons_ok h
    split
    · simpa using ih hgo
    · exact ih hgo

theorem source_of_visitSources {ss : List (Source σ)} {left : Leftover σ}
    (h : go (f.visitSources start ss) p = (.ok left, q)) : ∀ x ∈ left.surplus, x.source ∈ ss := by
  induction ss generalizing p left with
  | nil =>
    cases h
    simp
  | cons s ss ih =>
    cases ho : (s.list p.world).1.outcome with
    | error e =>
      rw [go_visitSources_of_missed ho] at h
      exact fun x hx => List.mem_cons_of_mem _ (ih h x hx)
    | ok as =>
      obtain ⟨surplus, p', rest, hv, hrest, rfl⟩ := visitSources_of_listed_ok ho h
      intro x hx
      rcases List.mem_append.mp hx with hx | hx
      · simp [source_of_visitAll hv x hx]
      · exact List.mem_cons_of_mem _ (ih hrest x hx)

theorem plainSteps_evictSurplus {ss : List (Source σ)} {left : Leftover σ} {p₁ : Progress σ}
    {r : Except Failure (List Event)} (hss : ∀ s ∈ ss, s ∈ f.sources)
    (survey : go (f.visitSources start ss) p = (.ok left, p₁))
    (h : go (f.evictSurplus left.surplus) p₁ = (r, q)) : PlainSteps f .clearance p₁ q :=
  steps_evictSurplus (fun x hx => hss _ (source_of_visitSources survey x hx)) (fun _ _ => trivial) h

theorem plainSteps_evictExpired {gone : List (String × List String)}
    {r : Except Failure (List Event)} (h : go (f.evictExpired gone) p = (r, q)) :
    PlainSteps f .clearance p q :=
  steps_evictExpired (fun _ _ _ _ => trivial) h

theorem SurveyedAll.known_surplus {ss : List (Source σ)} {left : Leftover σ}
    {ms : List (Moment σ)} (h : SurveyedAll f start ss p q left ms) (hq : q.Heard D K) :
    ∀ x ∈ left.surplus, K x.archive.job := by
  intro x hx
  obtain ⟨as, hlist, ha⟩ := h.mem_listing_of_surplus hx
  exact hq.2 _ as hlist _ ha

theorem SurveyedAll.known_expired {ss : List (Source σ)} {left : Leftover σ}
    {ms : List (Moment σ)} (h : SurveyedAll f start ss p q left ms)
    (hheld : ∀ location, ∀ id ∈ start.ids location, K id) :
    ∀ g ∈ f.toExpire left, ∀ job ∈ g.2, K job := by
  intro g hg job hj
  unfold toExpire at hg
  split at hg
  · exact hheld _ job (h.mem_ids_of_expired hg hj)
  · cases hg

theorem steps_survey {p₀ : Progress σ} {r : Except Failure (Leftover σ)}
    (hn : (f.sources.map (·.location)).Nodup) (hl : ∀ s ∈ f.sources, s.location ∈ p.cache.locations)
    (start : p.Noted p₀) (hq : q.Heard D K)
    (h : go (f.visitSources p.cache f.sources) p₀ = (r, q)) : Steps f D K .survey p q :=
  .head (.noted start) (steps_visitSources (.whole hn hl start.cache) hq h)

/-- A course is a survey, a clearance and a close, as far as it comes. -/
theorem steps_course {r : Except Failure (List String)} (hn : (f.sources.map (·.location)).Nodup)
    (hl : ∀ s ∈ f.sources, s.location ∈ p.cache.locations) (hq : q.Heard D K)
    (hheld : ∀ location, ∀ id ∈ p.cache.ids location, K id) (h : go f.course p = (r, q)) :
    ∃ p₁ p₂, Steps f D K .survey p p₁ ∧ Steps f D K .clearance p₁ p₂ ∧
      Steps f D K .close p₂ q := by
  have hsurplus {p₀ p₁ p₂ : Progress σ} {left t} (h₀ : p.Noted p₀) (h₁ : p₁.Heard D K)
      (hv : go (f.visitSources p.cache f.sources) p₀ = (.ok left, p₁))
      (h : go (f.evictSurplus left.surplus) p₁ = (t, p₂)) : Steps f D K .clearance p₁ p₂ := by
    obtain ⟨ms, hms⟩ := visitSources_surveyed hn (h₀.cache ▸ hl) hv
    exact steps_evictSurplus (source_of_visitSources hv) (hms.known_surplus h₁) h
  have hexpired {p₀ p₁ p₂ p₃ : Progress σ} {left t} (h₀ : p.Noted p₀)
      (hv : go (f.visitSources p.cache f.sources) p₀ = (.ok left, p₁))
      (h : go (f.evictExpired (f.toExpire left)) p₂ = (t, p₃)) :
      Steps f D K .clearance p₂ p₃ := by
    obtain ⟨ms, hms⟩ := visitSources_surveyed hn (h₀.cache ▸ hl) hv
    exact steps_evictExpired (hms.known_expired hheld) h
  have hcleared {p₀ p₁ p₂ : Progress σ} {left t} (h₀ : p.Noted p₀) (h₂ : p₂.Heard D K)
      (hv : go (f.visitSources p.cache f.sources) p₀ = (.ok left, p₁))
      (h : go (f.evictSurplus left.surplus) p₁ = (t, p₂)) :
      Steps f D K .survey p p₁ ∧ Steps f D K .clearance p₁ p₂ := by
    -- listings are not forgotten by the evictions, of whatever jobs these are
    have h₁ : p₁.Heard D K := by
      exact (plainSteps_evictSurplus (fun _ h => h) hv h).heard h₂
    exact ⟨steps_survey hn hl h₀ h₁ hv, hsurplus h₀ h₁ hv h⟩
  cases coursed h with
  | unsurveyed h₀ hv => exact ⟨q, q, steps_survey hn hl h₀ hq hv, .refl, .refl⟩
  | surplusKept h₀ hv hb =>
    obtain ⟨hs, hc⟩ := hcleared h₀ hq hv hb
    exact ⟨_, q, hs, hc, .refl⟩
  | expiredKept h₀ hv hb hg =>
    have he := hexpired h₀ hv hg
    obtain ⟨hs, hc⟩ := hcleared h₀ (Steps.heard he hq) hv hb
    exact ⟨_, q, hs, hc.trans he, .refl⟩
  | @through p₀ p₁ p₂ p₃ q left beyond gone h₀ hv hb hg close =>
    have hend : Steps f D K .close p₃ q := steps_close close
    have he := hexpired h₀ hv hg
    obtain ⟨hs, hc⟩ := hcleared h₀ (Steps.heard he (hend.heard hq)) hv hb
    exact ⟨p₁, p₃, hs, hc.trans he, hend⟩

theorem cycle_noted (f : Fetcher σ) (c : Cache) (w : σ) :
    ∃ r q, go f.course (begin_ c w) = (r, q) ∧ q.Noted (f.cycle c w).2 ∧
      ((f.cycle c w).1.completed → ∃ deleted, r = .ok deleted) := by
  rcases hr : go f.course (begin_ c w) with ⟨r, q⟩
  refine ⟨r, q, rfl, ?_⟩
  unfold cycle
  rw [show f.course.run.run (begin_ c w) = (r, q) from hr]
  cases r <;> exact ⟨⟨rfl, rfl, rfl, rfl, rfl⟩, by simp⟩

/-- What holds at the beginning of a cycle and is kept by its steps holds at its end. -/
theorem cycle_induction {c : Cache} {w : σ} {I : Progress σ → Prop}
    (hn : (f.sources.map (·.location)).Nodup)
    (hl : c.locations = f.sources.map (·.location)) (hq : (f.cycle c w).2.Heard D K)
    (hheld : ∀ location, ∀ id ∈ c.ids location, K id) (start : I (begin_ c w))
    (step : ∀ phase p q, Step f D K phase p q → I p → I q) : I (f.cycle c w).2 := by
  have hsteps {phase p q} (h : Steps f D K phase p q) (hp : I p) : I q := by
    induction h with
    | refl => exact hp
    | tail _ h ih => exact step _ _ _ h ih
  obtain ⟨r, q, hr, hcycle, -⟩ := cycle_noted f c w
  have hq' : q.Heard D K := by
    rwa [Heard, DistinctListings, hcycle.trace] at hq
  obtain ⟨p₁, p₂, h₁, h₂, h₃⟩ := steps_course hn (p := begin_ c w)
    (fun s hs => hl ▸ List.mem_map_of_mem hs) hq' hheld hr
  exact hsteps (h₃.tail (.noted hcycle)) (hsteps h₂ (hsteps h₁ start))

section Does

variable {c : Cache} {w : σ} (hn : (f.sources.map (·.location)).Nodup)
  (hl : c.locations = f.sources.map (·.location))

include hn hl

theorem does_cycle : ∀ m ∈ (f.cycle c w).2.trace, ∃ phase, f.Does phase m := by
  refine cycle_induction (I := fun p => ∀ m ∈ p.trace, ∃ phase, f.Does phase m) hn hl
    (heard_true _) (fun _ _ _ => trivial) (by simp [begin_]) fun phase p q h hp => ?_
  obtain ⟨ms, ht, hms⟩ := h.does
  rw [ht]
  exact List.forall_mem_append.mpr ⟨hp, fun m hm => ⟨phase, hms m hm⟩⟩

theorem source_of_listing {location : String} {answer : Except Failure (List Archive)}
    {m : Moment σ} (hm : m ∈ (f.cycle c w).2.trace) (hd : m.deed = .list location answer) :
    ∃ s ∈ f.sources, s.location = location ∧ answer = (s.list m.world).1.outcome := by
  obtain ⟨phase, hdoes⟩ := does_cycle hn hl m hm
  cases hdoes with
  | list hs =>
    cases hd
    exact ⟨_, hs, rfl, rfl⟩
  | transfer ht => simp [hd, Deed.isTransfer] at ht
  | _ => cases hd

end Does

end Fetcher

end ArchiveKeeper.Fetch
