import ArchiveKeeper.Fetch.Site
import ArchiveKeeper.Proofs.Fetch.Completion
import ArchiveKeeper.Proofs.Fetch.Steps

namespace ArchiveKeeper.Fetch

open Act Progress

variable {σ : Type} {f : Fetcher σ} {drift : σ → σ → Prop} {w₀ w : σ} {c : Cache}
  {history : List (Result × Progress σ)}

/-- A source that offers the same bundles, unless it is down. -/
def offering (location : String) (down : σ → Bool) (bundles : List (String × List Document)) :
    Source σ where
  location := location
  list w := if down w then Operation.fail (.listing location) w else Operation.answer
    (bundles.map fun b => ⟨b.1, location, location ++ "/" ++ b.1, .zero⟩) w
  read a := match bundles.lookup a.job with
    | some docs => Operation.answer docs
    | none => Operation.fail (.ingestion a.job (.unread a.path))
  remove _ := Operation.answer ()

theorem offering_unchanged (location : String) (down : σ → Bool)
    (bundles : List (String × List Document)) (a : Archive) (w : σ) :
    ((offering location down bundles).list w).2 = w ∧
      ((offering location down bundles).read a w).2 = w ∧
      ((offering location down bundles).remove a w).2 = w := by
  refine ⟨?_, ?_, rfl⟩
  · cases h : down w <;> simp only [offering, h] <;> rfl
  · cases h : bundles.lookup a.job <;> simp only [offering, h] <;> rfl

namespace Fetcher

/-- A fetcher made of a limit and of locations that are accepted. -/
def Accepted (f : Fetcher σ) : Prop :=
  ∃ retained, accept retained (f.sources.map (·.location)) = .ok f.policy.limit

theorem repeated?_eq_none {seen locations : List String} :
    repeated? seen locations = none ↔ locations.Nodup ∧ ∀ l ∈ locations, l ∉ seen := by
  induction locations generalizing seen with
  | nil => simp [repeated?]
  | cons l ls ih =>
    rw [repeated?]
    by_cases hl : l ∈ seen
    · simp [hl]
    · rw [if_neg hl, ih]
      simp only [List.nodup_cons, List.mem_cons, not_or, forall_eq_or_imp]
      constructor
      · rintro ⟨hn, hs⟩
        exact ⟨⟨fun hm => (hs l hm).1 rfl, hn⟩, hl, fun m hm => (hs m hm).2⟩
      · rintro ⟨⟨hl', hn⟩, -, hs⟩
        exact ⟨hn, fun m hm => ⟨fun he => hl' (he ▸ hm), hs m hm⟩⟩

theorem mem_of_repeated? {seen locations : List String} {l : String}
    (h : repeated? seen locations = some l) : l ∈ locations := by
  induction locations generalizing seen with
  | nil => cases h
  | cons m ls ih =>
    rw [repeated?] at h
    split at h
    · cases h
      exact List.mem_cons_self
    · exact List.mem_cons_of_mem _ (ih h)

theorem admitLocations_cases (locations : List String) :
    locations = [] ∧ admitLocations locations = .error (.configuration .noLocation) ∨
      locations.Nodup ∧ admitLocations locations = .ok () ∨
      ¬ locations.Nodup ∧ ∃ l ∈ locations,
        admitLocations locations = .error (.configuration (.locationTwice l)) := by
  have hnone : repeated? [] locations = none ↔ locations.Nodup := by simp [repeated?_eq_none]
  rw [admitLocations, ← hnone]
  split
  · rename_i hempty
    exact .inl ⟨hempty, rfl⟩
  · cases hr : repeated? [] locations with
    | none => exact .inr (.inl ⟨rfl, rfl⟩)
    | some l => exact .inr (.inr ⟨Option.some_ne_none l, l, mem_of_repeated? hr, rfl⟩)

theorem Accepted.nodup (h : f.Accepted) : (f.sources.map (·.location)).Nodup := by
  obtain ⟨retained, h⟩ := h
  unfold accept at h
  split at h
  · cases h
  obtain ⟨-, hadmits⟩ | ⟨hnodup, -⟩ | ⟨-, l, -, hadmits⟩ :=
    admitLocations_cases (f.sources.map (·.location))
  · rw [hadmits] at h
    cases h
  · exact hnodup
  · rw [hadmits] at h
    cases h

/-- A cache and a world are reached, with the results of the cycles and how far these came. -/
inductive Run (f : Fetcher σ) (drift : σ → σ → Prop) (w₀ : σ) :
    List (Result × Progress σ) → Cache → σ → Prop
  | prepared {log : List Log.Record} {w : σ} (accepted : f.Accepted)
    (prepared : f.prepare w₀ = (⟨.ok (), log⟩, w)) : Run f drift w₀ [] f.emptyCache w
  | drifted {history : List (Result × Progress σ)} {c : Cache} {w w' : σ}
    (run : Run f drift w₀ history c w) (drifts : drift w w') : Run f drift w₀ history c w'
  | cycled {history : List (Result × Progress σ)} {c : Cache} {w : σ}
    (run : Run f drift w₀ history c w) :
    Run f drift w₀ (history ++ [f.cycle c w]) (f.cycle c w).2.cache (f.cycle c w).2.world

theorem prepare_ok (h : (f.store.reset w₀).1.outcome = .ok ()) :
    ∃ log w, f.prepare w₀ = (⟨.ok (), log⟩, w) := by
  obtain ⟨e, hreset, -⟩ | ⟨-, log, hprepare⟩ := prepare_cases f w₀
  · cases h.symm.trans hreset
  · exact ⟨log, _, hprepare⟩

namespace Run

theorem accepted (h : f.Run drift w₀ history c w) : f.Accepted := by
  induction h with
  | prepared accepted => exact accepted
  | drifted _ _ ih => exact ih
  | cycled _ ih => exact ih

theorem locations (h : f.Run drift w₀ history c w) :
    c.locations = f.sources.map (·.location) := by
  induction h with
  | prepared accepted => exact Cache.locations_ofLocations accepted.nodup
  | drifted _ _ ih => exact ih
  | cycled run ih =>
    refine cycle_induction (I := fun p => p.cache.locations = _) run.accepted.nodup ih
      (heard_true _) (fun _ _ _ => trivial) ih ?_
    intro phase p q hstep hp
    exact hstep.locations.trans hp

theorem nodup (h : f.Run drift w₀ history c w) : c.locations.Nodup :=
  h.locations ▸ h.accepted.nodup

theorem known {K : String → Prop} (h : f.Run drift w₀ history c w)
    (hk : ∀ x ∈ history, x.2.Heard False K) : ∀ location, ∀ id ∈ c.ids location, K id := by
  induction h with
  | prepared => simp [emptyCache]
  | drifted _ _ ih => exact ih hk
  | @cycled history c w run ih =>
    have hids := ih fun x hx => hk x (List.mem_append_left _ hx)
    have hq := hk (f.cycle c w) (List.mem_append_right _ (List.mem_singleton.mpr rfl))
    refine (cycle_induction (I := fun p => p.cache.locations = f.sources.map (·.location) ∧
      ∀ location, ∀ id ∈ p.cache.ids location, K id) run.accepted.nodup run.locations hq hids
      ⟨run.locations, hids⟩ ?_).2
    intro phase p q hstep hp
    have hl : ∀ s ∈ f.sources, s.location ∈ p.cache.locations := fun s hs =>
      hp.1 ▸ List.mem_map_of_mem hs
    exact ⟨hstep.locations.trans hp.1, hstep.known hl hp.2⟩

theorem isId_of_held (h : f.Run drift w₀ history c w) (hv : ∀ x ∈ history, x.2.ValidListings) :
    ∀ location, ∀ id ∈ c.ids location, Job.isId id :=
  h.known (K := fun id => Job.isId id) fun x hx => ⟨False.elim, hv x hx⟩

theorem nodup_ids (h : f.Run drift w₀ history c w) : ∀ location, (c.ids location).Nodup := by
  induction h with
  | prepared => simp [emptyCache]
  | drifted _ _ ih => exact ih
  | cycled run ih =>
    exact cycle_induction (I := fun p => ∀ location, (p.cache.ids location).Nodup)
      run.accepted.nodup run.locations (heard_true _) (fun _ _ _ => trivial) ih
      fun _ _ _ hstep hp => hstep.nodup_ids hp

/-- A cycle of a run is one from a cache and a world that the run had reached before. -/
theorem cycle_mem (h : f.Run drift w₀ history c w) {x : Result × Progress σ} (hx : x ∈ history) :
    ∃ before c w, f.Run drift w₀ before c w ∧ before ++ [x] <+: history ∧ x = f.cycle c w := by
  induction h with
  | prepared => cases hx
  | drifted _ _ ih => exact ih hx
  | @cycled history c w run ih =>
    rcases List.mem_append.mp hx with hx | hx
    · obtain ⟨before, c', w', hrun, hpre, he⟩ := ih hx
      exact ⟨before, c', w', hrun, hpre.trans (List.prefix_append _ _), he⟩
    · obtain rfl := List.mem_singleton.mp hx
      exact ⟨history, c, w, run, List.prefix_refl _, rfl⟩

end Run

end Fetcher

section Sample

def sampleArchive : Archive :=
  ⟨"00000000000000000000000000000001", "first", "first/00000000000000000000000000000001", .zero⟩

def sampleBundle : List Document :=
  [⟨Job.overviewPath, "\x7b\"jobs\":[]\x7d"⟩, ⟨Job.root sampleArchive.job, "\x7b\x7d"⟩]

def sampleSource : Source (Site Bool) :=
  offering "first" (·.objects) [(sampleArchive.job, sampleBundle)]

def sampleConfig : Config.Storage := ⟨.table, "history", Store.Database.inMemory⟩

/-- A fetcher with its store in a table. The first location offers a job, unless it is down. -/
def sample : Fetcher (Site Bool) where
  sources := [sampleSource, offering "second" (fun _ => false) []]
  store := Site.store [] sampleConfig
  listener := some fun _ => Operation.answer ()
  policy := ⟨.atMost 1, true, true⟩
  cycleBindings := []
  overviewBindings := []

def blankSite : Site Bool := ⟨.empty, .closed, false⟩

def preparedSite : Site Bool := (sample.prepare blankSite).2

def sampleCycle : Result × Progress (Site Bool) := sample.cycle sample.emptyCache preparedSite

variable {outage : Site Bool → Site Bool → Prop}

theorem run_prepared : sample.Run outage blankSite [] sample.emptyCache preparedSite :=
  .prepared ⟨.ofInt 1, by decide⟩ rfl

theorem run_sampleCycle : sample.Run outage blankSite [sampleCycle] sampleCycle.2.cache
    sampleCycle.2.world := by
  have run : sample.Run outage blankSite _ _ _ := .cycled run_prepared
  rw [List.nil_append] at run
  unfold sampleCycle
  exact run

theorem listingsOf_sampleCycle : listingsOf sampleCycle.2.trace =
    [("first", .ok [sampleArchive]), ("second", .ok [])] := by
  decide +kernel

theorem distinct_sampleCycle : sampleCycle.2.DistinctListings := by
  intro location as h
  rw [listingsOf_sampleCycle] at h
  simp only [List.mem_cons, Prod.mk.injEq, Except.ok.injEq, List.not_mem_nil, or_false] at h
  rcases h with ⟨-, rfl⟩ | ⟨-, rfl⟩ <;> decide

theorem valid_sampleCycle : sampleCycle.2.ValidListings := by
  intro location as h
  rw [listingsOf_sampleCycle] at h
  simp only [List.mem_cons, Prod.mk.injEq, Except.ok.injEq, List.not_mem_nil, or_false] at h
  rcases h with ⟨-, rfl⟩ | ⟨-, rfl⟩ <;> decide

theorem completed_sampleCycle : sampleCycle.1.completed := by
  decide +kernel

end Sample

end ArchiveKeeper.Fetch
