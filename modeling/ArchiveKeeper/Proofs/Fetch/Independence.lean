import ArchiveKeeper.Proofs.Fetch.ConfiguredStore
import ArchiveKeeper.Proofs.Fetch.JobTransitions

namespace ArchiveKeeper

open Files Store

variable {σ σ' τ : Type} {base : Path} {config : Config.Storage} {job : String}

theorem Site.store_separates (hbase : ∀ s ∈ base, Path.IsPlain s) (config : Config.Storage) :
    ∃ alike, Separates (Site.store base config : Store (Site τ)) (Site.view base config) alike := by
  unfold Site.store Site.view
  cases config.backend with
  | files =>
    refine ⟨_, ((directory_separates (Path.plain_resolve hbase _)).zoom ?_).bindBackend⟩
    exact fun _ _ => rfl
  | table =>
    refine ⟨_, ((database_separates _).zoom ?_).bindBackend⟩
    exact fun _ _ => rfl

namespace Fetch.Fetcher

variable {f : Fetcher σ} {g : Fetcher σ'} {site : σ → Site τ} {site' : σ' → Site τ}
  {drift : σ → σ → Prop} {drift' : σ' → σ' → Prop} {w₀ w : σ} {w₀' w' : σ'} {c c' : Cache}
  {history : List (Result × Progress σ)} {history' : List (Result × Progress σ')}
  {offers : Nat → Offer} {except : String}

/-- Two runs of as many cycles with the same policy may differ in the archives of one job. All other
jobs are held by the same locations in both, have filed the same, and the listeners were told the same
of them in the same order. -/
theorem jobs_independent (sited : f.Sited base config site drift w₀)
    (sited' : g.Sited base config site' drift' w₀') (works : Works site (Site.store base config) f)
    (works' : Works site' (Site.store base config) g) (policy : f.policy = g.policy)
    (run : f.Run drift w₀ history c w) (run' : g.Run drift' w₀' history' c' w')
    (length : history.length = history'.length) (meets : Meets offers except history)
    (meets' : Meets offers except history') (distinct : ∀ x ∈ history, x.2.DistinctListings)
    (valid : ∀ x ∈ history, x.2.ValidListings) (hj : Job.isId job) (hne : job ≠ except) :
    (∀ location, job ∈ c.ids location ↔ job ∈ c'.ids location) ∧
      (∃ shelf, Carries (Site.store base config) job shelf (site w) ∧
        Carries (Site.store base config) job shelf (site' w')) ∧
      (f.listener.isSome → g.listener.isSome → ∃ events events', f.HearsAll history events ∧
        g.HearsAll history' events' ∧
        events.filter (·.job = job) = events'.filter (·.job = job)) := by
  have keeps : Keeps (Site.store base config : Store (Site τ)) (Site.view base config) :=
    Site.store_keeps sited.plain config
  obtain ⟨alike, separates⟩ := Site.store_separates (τ := τ) sited.plain config
  -- both runs met the same listings
  have hlistings : ∀ y ∈ history', ∃ x ∈ history, listingsOf y.2.trace = listingsOf x.2.trace := by
    intro y hy
    obtain ⟨n, hn⟩ := List.getElem?_of_mem hy
    have hlt : n < history.length := length ▸ (List.getElem?_eq_some_iff.mp hn).1
    have hx : history[n]? = some history[n] := List.getElem?_eq_getElem hlt
    exact ⟨history[n], List.getElem_mem hlt, (meets' n y hn).1.trans (meets n _ hx).1.symm⟩
  have distinct' : ∀ y ∈ history', y.2.DistinctListings := by
    intro y hy location as has
    obtain ⟨x, hx, he⟩ := hlistings y hy
    exact distinct x hx location as (he ▸ has)
  have valid' : ∀ y ∈ history', y.2.ValidListings := by
    intro y hy location as has
    obtain ⟨x, hx, he⟩ := hlistings y hy
    exact valid x hx location as (he ▸ has)
  obtain ⟨events, hlife, htold⟩ := run.life keeps sited.stands separates works sited.sound
    sited.drift distinct valid meets hj hne
  obtain ⟨events', hlife', htold'⟩ := run'.life keeps sited'.stands separates works' sited'.sound
    sited'.drift distinct' valid' meets' hj hne
  rw [policy, length, hlife', Life.mk.injEq] at hlife
  obtain ⟨hheld, hshelf, hevents⟩ := hlife
  have hready := (run.mirrored keeps sited.stands sited.sound sited.drift distinct valid).ready
  have hready' := (run'.mirrored keeps sited'.stands sited'.sound sited'.drift distinct' valid').ready
  refine ⟨fun location => ?_, ⟨_, keeps.carries hj hready, ?_⟩, fun hlis hlis' => ?_⟩
  · rw [← Cache.mem_holders, ← hheld, Cache.mem_holders]
  · rw [← hshelf]
    exact keeps.carries hj hready'
  · exact ⟨_, _, run.hearsAll distinct, run'.hearsAll distinct',
      by rw [htold hlis, htold' hlis', hevents]⟩

end Fetch.Fetcher

namespace Fetch

/-- A job that has its archive beside the one of the sample. -/
def neighbour : String := "00000000000000000000000000000002"

/-- A location that offers two jobs. What the second one brings is left open. -/
def neighbours (bundle : List Document) : Fetcher (Site Bool) where
  sources := [offering "first" (fun _ => false)
    [(sampleArchive.job, sampleBundle), (neighbour, bundle)]]
  store := Site.store [] sampleConfig
  listener := some fun _ => Operation.answer ()
  policy := ⟨.unbounded, true, true⟩
  cycleBindings := []
  overviewBindings := []

def neighboursCycle (bundle : List Document) : Result × Progress (Site Bool) :=
  (neighbours bundle).cycle (neighbours bundle).emptyCache ((neighbours bundle).prepare blankSite).2

def fairBundle : List Document := [⟨Job.root neighbour, "\x7b\x7d"⟩]

def unfairBundle : List Document := [⟨Job.root sampleArchive.job, "null"⟩]

def neighboursOffer : Offer where
  listings := [("first", .ok [sampleArchive, ⟨neighbour, "first", "first/" ++ neighbour, .zero⟩])]
  bundle _ _ := .ok sampleBundle

theorem sited_neighbours (bundle : List Document) :
    (neighbours bundle).Sited [] sampleConfig id (fun _ _ => False) blankSite where
  plain := by simp
  stands := by
    have hl (l : Listener (Site Bool)) (h : (neighbours bundle).listener = some l) (e : Event)
        (w : Site Bool) : (l e w).2 = w := by
      obtain rfl := Option.some.inj h
      rfl
    refine Fetcher.StandsOn.refl (Site.untouched_refl [] sampleConfig) hl fun s hs a w => ?_
    obtain rfl := List.mem_singleton.mp hs
    exact offering_unchanged ..
  sound := trivial
  drift _ _ h := h.elim

theorem run_neighbours (bundle : List Document) :
    (neighbours bundle).Run (fun _ _ => False) blankSite [neighboursCycle bundle]
      (neighboursCycle bundle).2.cache (neighboursCycle bundle).2.world := by
  have accepted : Fetcher.accept (.ofInt (-1)) ["first"] = .ok .unbounded := by decide
  have start : (neighbours bundle).Run (fun _ _ => False) blankSite [] (neighbours bundle).emptyCache
      ((neighbours bundle).prepare blankSite).2 := .prepared ⟨.ofInt (-1), accepted⟩ rfl
  have run := start.cycled
  rw [List.nil_append] at run
  unfold neighboursCycle
  exact run

theorem meets_neighbours {bundle : List Document} (h : bundle = fairBundle ∨ bundle = unfairBundle) :
    Fetcher.Meets (fun _ => neighboursOffer) neighbour [neighboursCycle bundle] := by
  have hlistings : listingsOf (neighboursCycle bundle).2.trace = neighboursOffer.listings := by
    rcases h with rfl | rfl <;> decide +kernel
  have hbundles : ∀ x ∈ bundlesOf (neighboursCycle bundle).2.trace,
      x.2.1.job = neighbour ∨ x.2.2 = .ok sampleBundle := by
    rcases h with rfl | rfl <;> decide +kernel
  intro n x hx
  obtain rfl := List.mem_singleton.mp (List.mem_of_getElem? hx)
  refine ⟨hlistings, fun job hne location a answer hm hjob => ?_⟩
  exact (hbundles _ hm).resolve_left fun he => hne (hjob.symm.trans he)

/-- The second job is refused, or not; for the first one it is the same. -/
theorem independent_neighbours :
    (neighboursCycle fairBundle).1.failedJobs = [] ∧
      (neighboursCycle unfairBundle).1.failedJobs = [neighbour] ∧
      (∀ location, sampleArchive.job ∈ (neighboursCycle fairBundle).2.cache.ids location ↔
        sampleArchive.job ∈ (neighboursCycle unfairBundle).2.cache.ids location) ∧
      (∃ shelf, Carries (Site.store [] sampleConfig) sampleArchive.job shelf
          (neighboursCycle fairBundle).2.world ∧
        Carries (Site.store [] sampleConfig) sampleArchive.job shelf
          (neighboursCycle unfairBundle).2.world) ∧
      ∃ events events', (neighbours fairBundle).HearsAll [neighboursCycle fairBundle] events ∧
        (neighbours unfairBundle).HearsAll [neighboursCycle unfairBundle] events' ∧
        events.filter (·.job = sampleArchive.job) = events'.filter (·.job = sampleArchive.job) := by
  have hj : Job.isId sampleArchive.job := by decide
  have hne : sampleArchive.job ≠ neighbour := by decide
  have works (bundle : List Document) :
      Fetcher.Works id (Site.store [] sampleConfig) (neighbours bundle) := fun _ _ _ _ => ⟨rfl, rfl⟩
  have hlength : [neighboursCycle fairBundle].length = [neighboursCycle unfairBundle].length := by
    rw [List.length_singleton, List.length_singleton]
  have hlistings : listingsOf (neighboursCycle fairBundle).2.trace = neighboursOffer.listings :=
    (meets_neighbours (.inl rfl) 0 _ rfl).1
  have hone {location : String} {as : List Archive}
      (has : (location, .ok as) ∈ listingsOf (neighboursCycle fairBundle).2.trace) :
      as = [sampleArchive, ⟨neighbour, "first", "first/" ++ neighbour, .zero⟩] := by
    rw [hlistings] at has
    cases List.mem_singleton.mp has
    rfl
  have distinct : ∀ x ∈ [neighboursCycle fairBundle], x.2.DistinctListings := by
    refine List.forall_mem_singleton.mpr fun location as has => ?_
    rw [hone has]
    decide
  have valid : ∀ x ∈ [neighboursCycle fairBundle], x.2.ValidListings := by
    refine List.forall_mem_singleton.mpr fun location as has => ?_
    rw [hone has]
    decide
  obtain ⟨hheld, hfiled, htold⟩ := Fetcher.jobs_independent (sited_neighbours fairBundle)
    (sited_neighbours unfairBundle) (works fairBundle) (works unfairBundle) rfl
    (run_neighbours fairBundle) (run_neighbours unfairBundle) hlength (meets_neighbours (.inl rfl))
    (meets_neighbours (.inr rfl)) distinct valid hj hne
  refine ⟨by decide +kernel, by decide +kernel, hheld, ?_, htold rfl rfl⟩
  simpa using hfiled

end Fetch

end ArchiveKeeper
