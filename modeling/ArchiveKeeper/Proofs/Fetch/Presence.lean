import ArchiveKeeper.Proofs.Fetch.Overview
import ArchiveKeeper.Proofs.Fetch.Remnants
import ArchiveKeeper.Proofs.Store.Presence

namespace ArchiveKeeper

open Files Store

variable {σ ρ τ : Type} {job : String}

theorem Site.store_finds (base : Path) (c : Config.Storage) :
    Finds (Site.store base c : Store (Site τ)) (Site.view base c) := by
  unfold Site.store Site.view
  refine Finds.bindBackend ?_
  cases c.backend with
  | files => exact (directory_finds _).zoom
  | table => exact (database_finds _).zoom

namespace Fetch

open Act Progress

variable {f : Fetcher σ} {s : Source σ} {a : Archive} {part : σ → ρ} {inner : Store ρ} {V : View ρ}
  {w w₀ : σ} {c : Cache} {p q : Progress σ} {drift : σ → σ → Prop}
  {history : List (Result × Progress σ)} {nothing : Prop}

/-- If a job that is held has brought no document, there is nothing of it. What it has brought was
read last in the cycle, if that has created it; otherwise it is known from before. -/
def Progress.Vacant (V : View σ) (job : String) (nothing : Prop) (p : Progress σ) : Prop :=
  p.cache.holds job →
    (if job ∈ p.created then (readsOf job p.trace).getLast? = some (.ok []) else nothing) →
    V.bare job p.world

/-- As long as a job is spared and takes no account of what happens, it stays vacant. -/
theorem Progress.Vacant.spare {U : View σ} {P : String → Prop} (hp : p.Vacant U job nothing)
    (hs : SameAccounts P p q) (hw : U.Spares P p.world q.world) (hready : U.ready p.world)
    (hj : Job.isId job) (hjob : P job) : q.Vacant U job nothing := by
  intro hheld hbrought
  rw [hs.reads job hjob] at hbrought
  simp only [hs.created job hjob] at hbrought
  exact ((hw hready).2 job hj hjob).2 (hp ((hs.holds job hjob).mp hheld) hbrought)

namespace Fetcher

section Cycle

variable (keeps : Keeps inner V) (stands : f.StandsOn part inner V)

include keeps stands

theorem bare_of_ingest_nil (hs : s ∈ f.sources) (hj : Job.isId a.job)
    (hw : (V.zoom part).ready p.world) (hb : (V.zoom part).bare a.job p.world)
    (h : go (f.ingest s a) p = (.ok true, q)) (hr : (s.read a p.world).1.outcome = .ok []) :
    (V.zoom part).bare a.job q.world := by
  obtain ⟨-, docs, hread, hstores⟩ := ingest_true h
  obtain rfl : docs = [] := Except.ok.inj (hread.symm.trans hr)
  obtain ⟨-, hsame⟩ := spares_read keeps stands hs a p.world hw
  have hbare := (hsame a.job hj trivial).2 hb
  generalize q.world = w' at hstores
  cases hstores
  exact hbare

variable (hn : (f.sources.map (·.location)).Nodup)

include hn

theorem vacant_visited {before : List String} {position : Nat} {r : Except Failure Bool}
    (hs : s ∈ f.sources) (hj : Job.isId a.job)
    (free : a.job ∉ before → a.job ∉ p.cache.ids s.location)
    (h : Visited f s before position a p r q) (up : Upkept f (V.zoom part) c w p)
    (hp : p.Vacant (V.zoom part) a.job nothing) : q.Vacant (V.zoom part) a.job nothing := by
  have hn' : p.cache.locations.Nodup := up.locations ▸ hn
  have hready : (V.zoom part).ready (p.taken s.location position a).world := up.ready
  have hfresh (new : a.job ∉ before) (alone : ¬ p.cache.heldElsewhere s.location a.job) :
      ¬ p.cache.holds a.job :=
    Cache.not_holds_of_alone hn' (free new) alone
  have hsame {p' : Progress σ} (hheld : p.cache.holds a.job) (hc : p'.created = p.created)
      (ht : p'.trace = (p.taken s.location position a).trace) (hw : p'.world = p.world) :
      p'.Vacant (V.zoom part) a.job nothing := by
    intro _ hbrought
    rw [hc, ht, reads_taken] at hbrought
    exact hw ▸ hp hheld hbrought
  cases h with
  | beyond => exact fun hheld => hsame hheld rfl rfl rfl hheld
  | known => exact fun hheld => hsame hheld rfl rfl rfl hheld
  | shared _ _ elsewhere =>
    exact hsame (Cache.holds_of_heldElsewhere hn' elsewhere) rfl rfl rfl
  | @created _ new alone q' run =>
    intro _ hbrought
    have hcreated : a.job ∈ q'.created ++ [a.job] := by simp
    rw [if_pos hcreated] at hbrought
    have hread := Option.some.inj ((reads_ingest run).symm.trans hbrought)
    have hbare := (up.tended a.job hj).bare (hfresh new alone)
    have hstill := bare_of_ingest_nil keeps stands hs hj hready hbare run hread
    exact hstill
  | @refused _ new alone q' run =>
    have hc : q'.cache = p.cache := (ingest_books run).1
    exact fun hheld => absurd (hc ▸ hheld) (hfresh new alone)
  | broken _ new alone run =>
    have hc : q.cache = p.cache := (ingest_books run).1
    exact fun hheld => absurd (hc ▸ hheld) (hfresh new alone)

omit keeps stands in
theorem vacant_evicted {location : String} {r : Except Failure (Option Event)}
    (h : Evicted f location job p r q) (up : Upkept f (V.zoom part) c w p)
    (hp : p.Vacant (V.zoom part) job nothing) : q.Vacant (V.zoom part) job nothing := by
  have hn' : p.cache.locations.Nodup := up.locations ▸ hn
  cases h with
  | kept elsewhere l =>
    intro hheld hbrought
    exact hp ((Cache.holds_evict_of_heldElsewhere hn' elsewhere).mp hheld) hbrought
  | dropped alone => exact fun hheld => absurd hheld (Cache.not_holds_evict hn' alone)
  | stuck alone => exact fun hheld => absurd hheld (Cache.not_holds_evict hn' alone)

theorem vacant_step {phase : Phase} (hj : Job.isId job)
    (h : Step f True (fun id => Job.isId id) phase p q) (up : Upkept f (V.zoom part) c w p)
    (hp : p.Vacant (V.zoom part) job nothing) : q.Vacant (V.zoom part) job nothing := by
  have hl : ∀ s ∈ f.sources, s.location ∈ p.cache.locations := fun s hs =>
    up.locations ▸ List.mem_map_of_mem hs
  have leans : f.LeansOn part inner V fun _ _ _ => False := stands.leansOn
  obtain ⟨s, before, position, a, r, hs, rfl, known, free, hv⟩ | ⟨location, r, -, hevicted⟩ | hother :=
    h.own_or_other job
  · exact vacant_visited keeps stands hn hs known (free trivial) hv up hp
  · exact vacant_evicted hn hevicted up hp
  · -- of what comes of other jobs, this one notices nothing
    have accounts := accounts_step (up.locations ▸ hn) hl (fun _ known => known.2) hother
    have hspared := sparing_step keeps leans (fun _ _ _ _ h => h.elim) (P := (· = job))
      (fun _ known => known) hother
    exact hp.spare accounts hspared up.ready hj rfl

theorem vacant_cycle (hj : Job.isId job) (hl : c.locations = f.sources.map (·.location))
    (hids : ∀ location, ∀ id ∈ c.ids location, Job.isId id)
    (hd : (f.cycle c w).2.DistinctListings) (hv : (f.cycle c w).2.ValidListings)
    (hw : V.ready (part w)) (hb : ∀ job, Job.isId job → ¬ c.holds job → V.bare job (part w)) :
    (f.cycle c w).2.Vacant (V.zoom part) job (V.bare job (part w)) := by
  have up : Upkept f (V.zoom part) c w (begin_ c w) := upkept_begin hl hw hb
  have hstart : (begin_ c w).Vacant (V.zoom part) job (V.bare job (part w)) := by
    intro _ hbrought
    rwa [if_neg (show job ∉ (begin_ c w).created from List.not_mem_nil)] at hbrought
  have heard : (f.cycle c w).2.Heard True fun id => Job.isId id := ⟨fun _ => hd, hv⟩
  refine (cycle_induction (I := fun p => Upkept f (V.zoom part) c w p ∧
    p.Vacant (V.zoom part) job (V.bare job (part w))) hn hl heard hids ⟨up, hstart⟩ ?_).2
  intro phase p q h hp
  exact ⟨upkept_step keeps stands hn h hp.1, vacant_step keeps stands hn hj h hp.1 hp.2⟩

end Cycle

section Run

variable (keeps : Keeps inner V) (stands : f.StandsOn part inner V) (hs : V.sound (part w₀))
  (hdrift : ∀ w w', drift w w' → V.untouched (part w) (part w'))
  (run : f.Run drift w₀ history c w) (hd : ∀ x ∈ history, x.2.DistinctListings)
  (hv : ∀ x ∈ history, x.2.ValidListings)

include keeps stands hs hdrift run hd hv

theorem Run.vacant (hj : Job.isId job) (hheld : c.holds job) (ho : origin? job history = some []) :
    (V.zoom part).bare job w := by
  induction run with
  | prepared accepted => simp [emptyCache, Cache.holds, Cache.ofLocations] at hheld
  | drifted run drifts ih =>
    have hready := (run.mirrored keeps stands hs hdrift hd hv).ready
    exact ((keeps.untouched _ _ (hdrift _ _ drifts) hready).2 job hj trivial).2 (ih hd hv hheld ho)
  | @cycled history c w run ih =>
    have hd' x (hx : x ∈ history) := hd x (List.mem_append_left _ hx)
    have hv' x (hx : x ∈ history) := hv x (List.mem_append_left _ hx)
    have hlast : f.cycle c w ∈ history ++ [f.cycle c w] := by simp
    have mirrored := run.mirrored keeps stands hs hdrift hd' hv'
    have hvacant := vacant_cycle keeps stands run.accepted.nodup hj run.locations
      (run.isId_of_held hv') (hd _ hlast) (hv _ hlast) mirrored.ready mirrored.bare
    apply hvacant hheld
    rw [origin?_concat, created_cycle] at ho
    -- the bundle was read in this very cycle, or nothing has changed since the one that read it
    by_cases hnew : job ∈ (f.cycle c w).2.created
    · rw [if_pos hnew] at ho ⊢
      split at ho
      · rename_i docs hread
        rw [hread, Option.some.inj ho]
      · cases ho
    · have hup := run.upkept keeps stands mirrored hd hv
      rw [if_neg hnew] at ho ⊢
      exact ih hd' hv' ((hup.tended job hj).old hheld hnew).1 ho

theorem Run.completes_all : ∀ x ∈ history, x.1.completed := by
  intro x hx
  obtain ⟨before, c', w', run', hpre, rfl⟩ := run.cycle_mem hx
  exact run'.completes keeps stands hs hdrift (fun x hx => hd x (hpre.subset hx))
    fun x hx => hv x (hpre.subset hx)

end Run

theorem Run.holds_of_announced (run : f.Run drift w₀ history c w) (hl : f.listener.isSome)
    (hall : ∀ x ∈ history, x.1.completed ∧ x.2.DistinctListings)
    (h : job ∈ (deliveries history).foldl Event.follow ∅) : c.holds job := by
  induction run with
  | prepared => exact absurd h (Set.notMem_empty job)
  | drifted _ _ ih => exact ih hall h
  | @cycled history c w run ih =>
    obtain ⟨hend, hd⟩ := hall _ (List.mem_append_right _ (List.mem_singleton.mpr rfl))
    obtain ⟨middle, left, ms, deletions, hcycle⟩ :=
      cycle_completed run.accepted.nodup run.locations hend
    have hm := hcycle.mirrors run.accepted.nodup run.locations hd
    rw [deliveries_concat, List.foldl_append, hcycle.mem_foldl hl] at h
    obtain ⟨hknown | hnew, hkept⟩ := h
    · have hbefore := ih (fun x hx => hall x (List.mem_append_left _ hx)) hknown
      by_contra hgone
      exact hkept (hm.deleted job hbefore hgone)
    · exact ((hm.created job).mp hnew).2

theorem eq_nil_of_stored {docs : List Document} (h : docs.mapM (stored job) = .ok []) :
    docs = [] := by
  cases docs with
  | nil => rfl
  | cons d docs =>
    rw [List.mapM_cons] at h
    cases hd : stored job d <;> cases hds : docs.mapM (stored job) <;>
      simp [hd, hds, bind, Except.bind, pure, Except.pure] at h

variable {base : Path} {config : Config.Storage} {site : σ → Site τ}

/-- After any run over either store, if only jobs can be deleted, a store that answers whether there
is something of a job says so exactly if the job is held and was created from a bundle that is not
empty. It answers if the system can tell. So of every job of which the listener has heard that it was
created from such a bundle, and not that it was deleted since, there is a document in the store. -/
theorem held_iff_stored (sited : f.Sited base config site drift w₀)
    (run : f.Run drift w₀ history c w) (distinct : ∀ x ∈ history, x.2.DistinctListings)
    (valid : ∀ x ∈ history, x.2.ValidListings) (hj : Job.isId job) :
    (∀ found, ((Site.store base config).holds job (site w)).1.outcome = .ok found →
      (found ↔ c.holds job ∧ origin? job history ≠ some [])) ∧
    ((Site.view (τ := τ) base config).visible job →
      ∃ found, ((Site.store base config).holds job (site w)).1.outcome = .ok found) ∧
    (f.listener.isSome → ∃ events, f.HearsAll history events ∧
      (job ∈ events.foldl Event.follow ∅ → origin? job history ≠ some [] →
        Stocks (Site.store base config) job (site w))) := by
  have keeps : Keeps (Site.store base config : Store (Site τ)) (Site.view base config) :=
    Site.store_keeps sited.plain config
  have finds : Finds (Site.store base config : Store (Site τ)) (Site.view base config) :=
    Site.store_finds base config
  have mirrored := run.mirrored keeps sited.stands sited.sound sited.drift distinct valid
  have hready : (Site.view base config).ready (site w) := mirrored.ready
  have hfiled (hheld : c.holds job) (hsome : origin? job history ≠ some []) :
      ∃ path, (Site.view base config).shelf job (site w) path ≠ none := by
    obtain ⟨docs, ds, ho, hds, hshelf⟩ := mirrored.filed job hj hheld
    have hne : ds ≠ [] := by
      rintro rfl
      exact hsome (ho.trans (congrArg some (eq_nil_of_stored hds)))
    rw [show (Site.view base config).shelf job (site w) = _ from hshelf]
    exact Shelf.exists_of_ne_nil hne
  refine ⟨fun found hfound => ?_, finds.answers job _ hj hready,
    fun hl => ⟨_, run.hearsAll distinct, fun hknown hsome => ?_⟩⟩
  · constructor
    · rintro rfl
      by_contra hno
      have hbare : (Site.view base config).bare job (site w) := by
        by_cases hheld : c.holds job
        · have ho : origin? job history = some [] := not_not.mp fun hsome => hno ⟨hheld, hsome⟩
          have hvacant :=
            run.vacant keeps sited.stands sited.sound sited.drift distinct valid hj hheld ho
          exact hvacant
        · exact mirrored.bare job hj hheld
      exact (keeps.absent job _ hj hready hbare).1 hfound
    · rintro ⟨hheld, hsome⟩
      obtain ⟨path, hpath⟩ := hfiled hheld hsome
      have hne := finds.found job path _ hj hready hpath
      rw [hfound] at hne
      cases found
      · exact absurd rfl hne
      · rfl
  · have hall : ∀ x ∈ history, x.1.completed ∧ x.2.DistinctListings := fun x hx =>
      ⟨run.completes_all keeps sited.stands sited.sound sited.drift distinct valid x hx, distinct x hx⟩
    obtain ⟨path, hpath⟩ := hfiled (run.holds_of_announced hl hall hknown) hsome
    exact keeps.stocks finds hj hready hpath

theorem stored_sampleCycle :
    sampleCycle.2.cache.holds sampleArchive.job ∧
      origin? sampleArchive.job [sampleCycle] = some sampleBundle ∧
      ((Site.store [] sampleConfig).holds sampleArchive.job sampleCycle.2.world).1.outcome =
        .ok true ∧
      Stocks (Site.store [] sampleConfig) sampleArchive.job sampleCycle.2.world := by
  have sited : sample.Sited [] sampleConfig id (fun _ _ => False) blankSite :=
    sited_sample fun _ _ h => h.elim
  have distinct : ∀ x ∈ [sampleCycle], x.2.DistinctListings :=
    List.forall_mem_singleton.mpr distinct_sampleCycle
  have valid : ∀ x ∈ [sampleCycle], x.2.ValidListings :=
    List.forall_mem_singleton.mpr valid_sampleCycle
  have held : sampleCycle.2.cache.holds sampleArchive.job := by decide +kernel
  have horigin : origin? sampleArchive.job [sampleCycle] = some sampleBundle := by
    decide +kernel
  have hsome : origin? sampleArchive.job [sampleCycle] ≠ some [] := by
    rw [horigin]
    decide
  have hdeliveries : deliveries [sampleCycle] = [⟨.created, sampleArchive.job⟩] := by
    decide +kernel
  obtain ⟨hiff, hanswers, hstocks⟩ :=
    held_iff_stored sited run_sampleCycle distinct valid (by decide : Job.isId sampleArchive.job)
  obtain ⟨events, hhears, hstocks⟩ := hstocks rfl
  rw [hhears.eq, hdeliveries] at hstocks
  obtain ⟨found, hfound⟩ := hanswers trivial
  have htrue : found = true := (hiff found hfound).mpr ⟨held, hsome⟩
  rw [id_eq, htrue] at hfound
  exact ⟨held, horigin, hfound, hstocks (Set.mem_insert _ _) hsome⟩

end Fetcher

def barren : Fetcher (Site Bool) :=
  { sample with sources := [offering "first" (fun _ => false) [(sampleArchive.job, [])]] }

def barrenSite : Site Bool := (barren.prepare blankSite).2

def barrenCycle : Result × Progress (Site Bool) := barren.cycle barren.emptyCache barrenSite

theorem sited_barren : barren.Sited [] sampleConfig id (fun _ _ => False) blankSite where
  plain := by simp
  stands := by
    refine Fetcher.StandsOn.refl (Site.untouched_refl [] sampleConfig) ?_ fun s hs a w => ?_
    · intro l h e w
      obtain rfl := Option.some.inj h
      rfl
    · obtain rfl := List.mem_singleton.mp hs
      exact offering_unchanged ..
  sound := trivial
  drift _ _ h := h.elim

theorem run_barren : barren.Run (fun _ _ => False) blankSite [barrenCycle] barrenCycle.2.cache
    barrenCycle.2.world :=
  .cycled (.prepared ⟨.ofInt 1, by decide⟩ rfl)

theorem listingsOf_barrenCycle : listingsOf barrenCycle.2.trace = [("first", .ok [sampleArchive])] := by
  decide +kernel

/-- A job whose bundle is empty is held and announced, but the store has nothing of it. -/
theorem barrenCycle_stores_nothing :
    barren.Sited [] sampleConfig id (fun _ _ => False) blankSite ∧
    barren.Run (fun _ _ => False) blankSite [barrenCycle] barrenCycle.2.cache
      barrenCycle.2.world ∧
    listingsOf barrenCycle.2.trace = [("first", .ok [sampleArchive])] ∧
    Bundle.read sampleArchive.job "\x7b\"archive\":[]\x7d" = .ok [] ∧
    Job.isId sampleArchive.job ∧ barrenCycle.2.cache.holds sampleArchive.job ∧
    barren.HearsAll [barrenCycle] [⟨.created, sampleArchive.job⟩] ∧
    ((Site.store [] sampleConfig).holds sampleArchive.job barrenCycle.2.world).1.outcome =
      .ok false := by
  have distinct : barrenCycle.2.DistinctListings := by
    intro location as h
    rw [listingsOf_barrenCycle] at h
    cases List.mem_singleton.mp h
    decide
  have hhears := run_barren.hearsAll (List.forall_mem_singleton.mpr distinct)
  have hdeliveries : Fetcher.deliveries [barrenCycle] = [⟨.created, sampleArchive.job⟩] := by
    decide +kernel
  rw [hdeliveries] at hhears
  exact ⟨sited_barren, run_barren, listingsOf_barrenCycle, by decide +kernel, by decide,
    by decide +kernel, hhears, by decide +kernel⟩

end Fetch

end ArchiveKeeper
