import ArchiveKeeper.Proofs.Fetch.StoreEffect

namespace ArchiveKeeper.Fetch

open Act Progress Store

variable {σ ρ : Type} {f : Fetcher σ} {part : σ → ρ} {inner : Store ρ} {V : View ρ} {U : View σ}
  {w₀ w : σ} {c : Cache} {job : String} {p q : Progress σ} {history : List (Result × Progress σ)}
  {drift : σ → σ → Prop}

/-- What a job has filed is in keeping with the cache, as far as a cycle has come that began with a
cache and a world. -/
structure Tended (V : View σ) (c : Cache) (w : σ) (job : String) (p : Progress σ) : Prop where
  bare : ¬ p.cache.holds job → V.bare job p.world
  old : p.cache.holds job → job ∉ p.created → c.holds job ∧ V.shelf job p.world = V.shelf job w
  new : p.cache.holds job → job ∈ p.created → ∃ docs ds,
    (readsOf job p.trace).getLast? = some (.ok docs) ∧ docs.mapM (Fetcher.stored job) = .ok ds ∧
      V.shelf job p.world = Shelf.ofDocuments ds

structure Upkept (f : Fetcher σ) (V : View σ) (c : Cache) (w : σ) (p : Progress σ) : Prop where
  locations : p.cache.locations = f.sources.map (·.location)
  ready : V.ready p.world
  tended : ∀ job, Job.isId job → Tended V c w job p

/-- Between two points, the accounts of some jobs are the same. -/
structure SameAccounts (P : String → Prop) (p q : Progress σ) : Prop where
  locations : q.cache.locations = p.cache.locations
  holds : ∀ id, P id → (q.cache.holds id ↔ p.cache.holds id)
  created : ∀ id, P id → (id ∈ q.created ↔ id ∈ p.created)
  reads : ∀ id, P id → readsOf id q.trace = readsOf id p.trace

theorem Upkept.spare {P : String → Prop} (hp : Upkept f U c w p) (hs : SameAccounts P p q)
    (hw : U.Spares P p.world q.world)
    (hrest : ∀ id, Job.isId id → ¬ P id → Tended U c w id q) : Upkept f U c w q := by
  obtain ⟨hready, hspare⟩ := hw hp.ready
  refine ⟨hs.locations.trans hp.locations, hready, fun id hid => ?_⟩
  by_cases hP : P id
  · obtain ⟨hshelf, hbare⟩ := hspare id hid hP
    have ht := hp.tended id hid
    constructor
    · rw [hs.holds id hP]
      exact hbare ∘ ht.bare
    · rw [hs.holds id hP, hs.created id hP, hshelf]
      exact ht.old
    · rw [hs.holds id hP, hs.created id hP, hs.reads id hP, hshelf]
      exact ht.new
  · exact hrest id hid hP

theorem Upkept.same (hp : Upkept f U c w p) (hs : SameAccounts (fun _ => True) p q)
    (hw : U.Spares (fun _ => True) p.world q.world) : Upkept f U c w q :=
  hp.spare hs hw fun _ _ h => absurd trivial h

theorem sameAccounts_asked {α : Type} (P : String → Prop) (deed : Except Failure α → Deed)
    (o : Operation σ α) (p : Progress σ)
    (h : ∀ id, P id → readsOf id [⟨deed (o p.world).1.outcome, p.cache, p.world⟩] = []) :
    SameAccounts P p (p.asked deed o) where
  locations := rfl
  holds _ _ := Iff.rfl
  created _ _ := Iff.rfl
  reads id hid := by rw [trace_asked, readsOf_append, h id hid, List.append_nil]

namespace Fetcher

section Accounts

variable {s : Source σ} {before : List String} {position : Nat} {a : Archive} {location : String}

theorem accounts_evicted {r : Except Failure (Option Event)} (hn : p.cache.locations.Nodup)
    (h : Evicted f location job p r q) : SameAccounts (· ≠ job) p q := by
  have hholds (id : String) (hid : id ≠ job) :
      (p.cache.evict location job).holds id ↔ p.cache.holds id := Cache.holds_evict_of_ne hn hid
  cases h <;>
    exact ⟨Cache.locations_evict, hholds, fun _ _ => Iff.rfl, fun id _ => by simp [readsOf, withCache]⟩

theorem reads_taken (id : String) :
    readsOf id (p.taken s.location position a).trace = readsOf id p.trace := by
  simp [readsOf]

theorem accounts_visited {r : Except Failure Bool} (hn : p.cache.locations.Nodup)
    (hl : s.location ∈ p.cache.locations) (h : Visited f s before position a p r q) :
    SameAccounts (· ≠ a.job) p q := by
  have hholds (id : String) (hid : id ≠ a.job) :
      (p.cache.ingest s.location a.job).holds id ↔ p.cache.holds id :=
    Cache.holds_ingest_of_ne hn hl hid
  have hingest {r q'} (run : go (f.ingest s a) (p.taken s.location position a) = (r, q')) :
      q'.cache = p.cache ∧ q'.created = p.created ∧
        ∀ id, id ≠ a.job → readsOf id q'.trace = readsOf id p.trace := by
    refine ⟨(ingest_books run).1, (ingest_books run).2, fun id hid => ?_⟩
    exact Eq.trans ((reads_ingest_of_ne hid.symm).of_go run) (reads_taken id)
  cases h with
  | beyond => exact ⟨rfl, fun _ _ => Iff.rfl, fun _ _ => Iff.rfl, fun id _ => reads_taken id⟩
  | known => exact ⟨rfl, fun _ _ => Iff.rfl, fun _ _ => Iff.rfl, fun id _ => reads_taken id⟩
  | shared =>
    exact ⟨Cache.locations_ingest, hholds, fun _ _ => Iff.rfl, fun id _ => reads_taken id⟩
  | @created _ _ _ q' run =>
    obtain ⟨hc, hcr, hreads⟩ := hingest run
    refine ⟨Cache.locations_ingest.trans (by rw [hc]), fun id hid => ?_, fun id hid => ?_, hreads⟩
    · change (q'.cache.ingest s.location a.job).holds id ↔ _
      rw [hc]
      exact hholds id hid
    · change id ∈ q'.created ++ [a.job] ↔ _
      rw [hcr, List.mem_append, List.mem_singleton, or_iff_left hid]
  | refused _ _ _ run =>
    obtain ⟨hc, hcr, hreads⟩ := hingest run
    exact ⟨by rw [hc], fun id _ => by rw [hc], fun id _ => by rw [hcr], hreads⟩
  | broken _ _ _ run =>
    obtain ⟨hc, hcr, hreads⟩ := hingest run
    exact ⟨by rw [hc], fun id _ => by rw [hc], fun id _ => by rw [hcr], hreads⟩

theorem accounts_step {D : Prop} {K : String → Prop} {phase : Phase}
    (hn : p.cache.locations.Nodup) (hl : ∀ s ∈ f.sources, s.location ∈ p.cache.locations)
    (hK : ∀ id, K id → id ≠ job) (h : Step f D K phase p q) : SameAccounts (· = job) p q := by
  have hother {id : String} (known : K id) (hs : SameAccounts (· ≠ id) p q) :
      SameAccounts (· = job) p q := by
    have hne : job ≠ id := (hK id known).symm
    refine ⟨hs.locations, ?_, ?_, ?_⟩ <;> rintro _ rfl
    · exact hs.holds _ hne
    · exact hs.created _ hne
    · exact hs.reads _ hne
  cases h with
  | noted h =>
    exact ⟨by rw [h.cache], fun _ _ => by rw [h.cache], fun _ _ => by rw [h.created],
      fun _ _ => by rw [h.trace]⟩
  | visited hs _ known h => exact hother known (accounts_visited hn (hl _ hs) h)
  | evicted known h => exact hother known (accounts_evicted hn h)
  | listed => exact sameAccounts_asked _ _ _ p fun _ _ => rfl
  | removed => exact sameAccounts_asked _ _ _ p fun _ _ => rfl
  | republished => exact sameAccounts_asked _ _ _ p fun _ _ => rfl
  | delivered => exact sameAccounts_asked _ _ _ p fun _ _ => rfl

end Accounts

section Cycle

variable (keeps : Keeps inner V) (stands : f.StandsOn part inner V)
  (hn : (f.sources.map (·.location)).Nodup)

include keeps stands hn

theorem upkept_evicted {location : String} {r : Except Failure (Option Event)}
    (hj : Job.isId job) (h : Evicted f location job p r q) (hp : Upkept f (V.zoom part) c w p) :
    Upkept f (V.zoom part) c w q := by
  have hn' : p.cache.locations.Nodup := hp.locations ▸ hn
  have hdelete (ha : ¬ (p.cache.evict location job).heldElsewhere location job)
      (accounts : SameAccounts (· ≠ job) p ((p.withCache (p.cache.evict location job)).asked
        (.delete job) (f.store.delete job))) :
      Upkept f (V.zoom part) c w ((p.withCache (p.cache.evict location job)).asked (.delete job)
        (f.store.delete job)) := by
    refine hp.spare (P := (· ≠ job)) accounts (spares_delete keeps stands hj p.world)
      fun id hid he => ?_
    obtain rfl : id = job := not_not.mp he
    have hgone : ¬ (p.cache.evict location id).holds id := Cache.not_holds_evict hn' ha
    exact ⟨fun _ => (deleted_delete keeps stands hj hp.ready).2, fun h => absurd h hgone,
      fun h => absurd h hgone⟩
  have accounts := accounts_evicted hn' h
  cases h with
  | kept he l =>
    refine hp.same ⟨Cache.locations_evict, fun id _ => ?_, fun _ _ => Iff.rfl, fun _ _ => rfl⟩
      (.refl _ p.world)
    exact Cache.holds_evict_of_heldElsewhere hn' he
  | dropped ha _ => exact hdelete ha accounts
  | stuck ha _ => exact hdelete ha accounts

theorem upkept_visited {s : Source σ} {before : List String} {position : Nat} {a : Archive}
    {r : Except Failure Bool} (hs : s ∈ f.sources) (hj : Job.isId a.job)
    (free : a.job ∉ before → a.job ∉ p.cache.ids s.location)
    (h : Visited f s before position a p r q) (hp : Upkept f (V.zoom part) c w p) :
    Upkept f (V.zoom part) c w q := by
  have hn' : p.cache.locations.Nodup := hp.locations ▸ hn
  have hl : s.location ∈ p.cache.locations := hp.locations ▸ List.mem_map_of_mem hs
  have hspare {r q'} (run : go (f.ingest s a) (p.taken s.location position a) = (r, q')) :
      (V.zoom part).Spares (· ≠ a.job) p.world q'.world :=
    (spares_ingest keeps stands hs hj).of_go (p := p.taken s.location position a) run
  have hfresh (new : a.job ∉ before) (alone : ¬ p.cache.heldElsewhere s.location a.job) :
      ¬ p.cache.holds a.job :=
    Cache.not_holds_of_alone hn' (free new) alone
  have hready : (V.zoom part).ready (p.taken s.location position a).world := hp.ready
  have hsame : SameAccounts (fun _ => True) p (p.taken s.location position a) :=
    ⟨rfl, fun _ _ => Iff.rfl, fun _ _ => Iff.rfl, fun id _ => reads_taken id⟩
  have accounts := accounts_visited hn' hl h
  cases h with
  | beyond => exact hp.same hsame (.refl _ p.world)
  | known _ _ l =>
    have hsaid : SameAccounts (fun _ => True) p ((p.taken s.location position a).said l) :=
      ⟨rfl, hsame.holds, hsame.created, hsame.reads⟩
    exact hp.same hsaid (.refl _ p.world)
  | shared _ _ elsewhere l =>
    have hheld : p.cache.holds a.job := Cache.holds_of_heldElsewhere hn' elsewhere
    exact hp.same ⟨Cache.locations_ingest, fun id _ => Cache.holds_ingest_of_holds hn' hl hheld,
      fun _ _ => Iff.rfl, fun id _ => reads_taken id⟩ (.refl _ p.world)
  | @created _ new alone q' run =>
    have hc : q'.cache = p.cache := (ingest_books run).1
    have hw := hspare run
    have hbare := (hp.tended a.job hj).bare (hfresh new alone)
    have hlast := reads_ingest run
    obtain ⟨docs, ds, hr, hds, hshelf⟩ := shelf_of_ingest keeps stands hs hj hready hbare run
    refine hp.spare (P := (· ≠ a.job)) accounts hw fun id _ he => ?_
    obtain rfl : id = a.job := not_not.mp he
    have hheld : (q'.cache.ingest s.location a.job).holds a.job := by
      rw [hc]
      exact (Cache.holds_ingest hn' hl).mpr (.inr rfl)
    have hcreated : a.job ∈ q'.created ++ [a.job] := by simp
    exact ⟨fun h => absurd hheld h, fun _ h => absurd hcreated h,
      fun _ _ => ⟨docs, ds, hlast.trans (congrArg some hr), hds, hshelf⟩⟩
  | @refused _ new alone q' run =>
    have hc : q'.cache = p.cache := (ingest_books run).1
    have hw := hspare run
    obtain ⟨-, hbare⟩ := bare_of_ingest keeps stands hs hj hready run (by simp)
    refine hp.spare (P := (· ≠ a.job)) accounts hw fun id _ he => ?_
    obtain rfl : id = a.job := not_not.mp he
    have hgone : ¬ q'.cache.holds a.job := hc ▸ hfresh new alone
    exact ⟨fun _ => hbare, fun h => absurd h hgone, fun h => absurd h hgone⟩
  | broken _ new alone run =>
    obtain ⟨he, -⟩ := bare_of_ingest keeps stands hs hj hready run (by simp)
    cases he

theorem upkept_step {phase : Phase} (h : Step f True (fun job => Job.isId job) phase p q)
    (hp : Upkept f (V.zoom part) c w p) : Upkept f (V.zoom part) c w q := by
  cases h with
  | noted h =>
    exact hp.same ⟨by rw [h.cache], fun _ _ => by rw [h.cache], fun _ _ => by rw [h.created],
      fun _ _ => by rw [h.trace]⟩ (by rw [h.world]; exact .refl _ _)
  | listed hs =>
    exact hp.same (sameAccounts_asked _ _ _ p fun _ _ => rfl)
      (keeps.untouched _ _ (stands.list _ hs p.world))
  | visited hs free hj h => exact upkept_visited keeps stands hn hs hj (free trivial) h hp
  | removed a hs =>
    exact hp.same (sameAccounts_asked _ _ _ p fun _ _ => rfl)
      (keeps.untouched _ _ (stands.remove _ hs a p.world))
  | evicted hj h => exact upkept_evicted keeps stands hn hj h hp
  | republished =>
    exact hp.same (sameAccounts_asked _ _ _ p fun _ _ => rfl) (spares_republish keeps stands p.world)
  | delivered hl events =>
    exact hp.same (sameAccounts_asked _ _ _ p fun _ _ => rfl)
      (spares_deliverAll keeps stands hl events p.world)

omit hn keeps stands in
theorem upkept_begin (hl : c.locations = f.sources.map (·.location)) (hw : V.ready (part w))
    (hb : ∀ job, Job.isId job → ¬ c.holds job → V.bare job (part w)) :
    Upkept f (V.zoom part) c w (begin_ c w) :=
  ⟨hl, hw, fun job hj => ⟨hb job hj, fun h _ => ⟨h, rfl⟩, fun _ h => absurd h List.not_mem_nil⟩⟩

theorem upkept_cycle (hl : c.locations = f.sources.map (·.location))
    (hids : ∀ location, ∀ id ∈ c.ids location, Job.isId id)
    (hd : (f.cycle c w).2.DistinctListings) (hv : (f.cycle c w).2.ValidListings)
    (hw : V.ready (part w)) (hb : ∀ job, Job.isId job → ¬ c.holds job → V.bare job (part w)) :
    Upkept f (V.zoom part) c w (f.cycle c w).2 :=
  cycle_induction (K := fun id => Job.isId id) hn hl ⟨fun _ => hd, hv⟩ hids
    (upkept_begin hl hw hb) fun _ _ _ h => upkept_step keeps stands hn h

end Cycle

theorem created_cycle (f : Fetcher σ) (c : Cache) (w : σ) :
    (f.cycle c w).1.created = (f.cycle c w).2.created := by
  unfold cycle
  split <;> rfl

/-- The bundle that was read last of a job in the last cycle that created it. -/
def origin? (job : String) (history : List (Result × Progress σ)) : Option (List Document) :=
  match history.reverse.find? fun x => decide (job ∈ x.1.created) with
  | none => none
  | some x =>
    match (readsOf job x.2.trace).getLast? with
    | some (.ok docs) => some docs
    | _ => none

theorem origin?_concat (x : Result × Progress σ) :
    origin? job (history ++ [x]) = if job ∈ x.1.created then
      match (readsOf job x.2.trace).getLast? with
      | some (.ok docs) => some docs
      | _ => none
    else origin? job history := by
  unfold origin?
  rw [List.reverse_append, List.reverse_singleton, List.singleton_append, List.find?_cons]
  by_cases h : job ∈ x.1.created <;> simp only [h, decide_true, decide_false, if_true, if_false]

/-- There is nothing of the jobs that are not held, and of those that are held what they brought. -/
structure Mirrored (V : View σ) (history : List (Result × Progress σ)) (c : Cache) (w : σ) :
    Prop where
  ready : V.ready w
  bare : ∀ job, Job.isId job → ¬ c.holds job → V.bare job w
  filed : ∀ job, Job.isId job → c.holds job → ∃ docs ds, origin? job history = some docs ∧
    docs.mapM (stored job) = .ok ds ∧ V.shelf job w = Shelf.ofDocuments ds

theorem Mirrored.of_spares (h : Mirrored U history c w) {w' : σ}
    (hw : U.Spares (fun _ => True) w w') : Mirrored U history c w' := by
  obtain ⟨hready, hsame⟩ := hw h.ready
  refine ⟨hready, fun job hj hc => (hsame job hj trivial).2 (h.bare job hj hc), fun job hj hc => ?_⟩
  rw [(hsame job hj trivial).1]
  exact h.filed job hj hc

theorem mirrored_prepare (keeps : Keeps inner V) (stands : f.StandsOn part inner V)
    (hs : V.sound (part w₀)) {log : List Log.Record} (h : f.prepare w₀ = (⟨.ok (), log⟩, w)) :
    Mirrored (V.zoom part) history f.emptyCache w := by
  have hempty (job : String) : ¬ f.emptyCache.holds job := by
    simp [emptyCache, Cache.holds, Cache.ofLocations]
  obtain ⟨hready, hbare⟩ := bare_prepare keeps stands.wavers hs h
  exact ⟨hready, fun job hj _ => hbare job hj, fun job _ h => absurd h (hempty job)⟩

/-- Where the store mirrors the cache, the next cycle of a run leaves it in keeping with that. -/
theorem Run.upkept (keeps : Keeps inner V) (stands : f.StandsOn part inner V)
    (run : f.Run drift w₀ history c w) (mirrored : Mirrored (V.zoom part) history c w)
    (hd : ∀ x ∈ history ++ [f.cycle c w], x.2.DistinctListings)
    (hv : ∀ x ∈ history ++ [f.cycle c w], x.2.ValidListings) :
    Upkept f (V.zoom part) c w (f.cycle c w).2 := by
  have hlast : f.cycle c w ∈ history ++ [f.cycle c w] := by simp
  exact upkept_cycle keeps stands run.accepted.nodup run.locations
    (run.isId_of_held fun x hx => hv x (List.mem_append_left _ hx)) (hd _ hlast) (hv _ hlast)
    mirrored.ready mirrored.bare

theorem Run.mirrored (keeps : Keeps inner V) (stands : f.StandsOn part inner V)
    (hs : V.sound (part w₀)) (hdrift : ∀ w w', drift w w' → V.untouched (part w) (part w'))
    (run : f.Run drift w₀ history c w) (hd : ∀ x ∈ history, x.2.DistinctListings)
    (hv : ∀ x ∈ history, x.2.ValidListings) : Mirrored (V.zoom part) history c w := by
  induction run with
  | prepared accepted hprep => exact mirrored_prepare keeps stands hs hprep
  | drifted _ drifts ih => exact (ih hd hv).of_spares (keeps.untouched _ _ (hdrift _ _ drifts))
  | @cycled history c w run ih =>
    have ih := ih (fun x hx => hd x (List.mem_append_left _ hx))
      fun x hx => hv x (List.mem_append_left _ hx)
    have hup := run.upkept keeps stands ih hd hv
    refine ⟨hup.ready, fun job hj => (hup.tended job hj).bare, fun job hj hheld => ?_⟩
    rw [origin?_concat, created_cycle]
    by_cases hnew : job ∈ (f.cycle c w).2.created
    · obtain ⟨docs, ds, hread, hds, hshelf⟩ := (hup.tended job hj).new hheld hnew
      exact ⟨docs, ds, by rw [if_pos hnew, hread], hds, hshelf⟩
    · obtain ⟨hbefore, hshelf⟩ := (hup.tended job hj).old hheld hnew
      rw [if_neg hnew, hshelf]
      exact ih.filed job hj hbefore

end Fetcher

end ArchiveKeeper.Fetch
