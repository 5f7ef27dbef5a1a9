import ArchiveKeeper.Proofs.Fetch.Announcements

namespace ArchiveKeeper.Fetch

open Act Progress

variable {σ : Type} {f : Fetcher σ} {drift : σ → σ → Prop} {w₀ w : σ} {c : Cache} {id : String}
  {history : List (Result × Progress σ)} {listings : List (String × Except Failure (List Archive))}
  {x : String × String}

/-- Whether a listing has an archive of a job beyond the limit. -/
def Policy.exceeds (policy : Policy) (id : String) :
    String × Except Failure (List Archive) → Bool
  | (_, .ok as) => (policy.surplus 0 as).any (·.job = id)
  | (_, .error _) => false

namespace Fetcher

theorem mem_overflow : x ∈ f.overflow listings ↔
    ∃ as, (x.1, .ok as) ∈ listings ∧ ∃ a ∈ f.policy.surplus 0 as, a.job = x.2 := by
  simp only [overflow, List.mem_map, List.mem_flatMap]
  constructor
  · rintro ⟨⟨l, a⟩, ⟨⟨l', answer⟩, hx, hy⟩, rfl⟩
    cases answer with
    | error e => simp [surplusOf] at hy
    | ok as =>
      obtain ⟨a', ha, he⟩ := List.mem_map.mp hy
      cases he
      exact ⟨as, hx, a, ha, rfl⟩
  · rintro ⟨as, hx, a, ha, he⟩
    exact ⟨(x.1, a), ⟨_, hx, List.mem_map_of_mem ha⟩, by rw [he]⟩

theorem mem_lapse (h : x ∈ f.lapse c listings) :
    ∃ as, (x.1, .ok as) ∈ listings ∧ x.2 ∈ c.ids x.1 ∧ ∀ a ∈ as, a.job ≠ x.2 := by
  unfold lapse at h
  obtain ⟨g, hg, hx⟩ := List.mem_flatMap.mp h
  split at hg
  · obtain ⟨⟨l, answer⟩, hl, hy⟩ := List.mem_filterMap.mp hg
    cases answer with
    | error e => cases hy
    | ok as =>
      cases hy
      obtain ⟨job, hj, rfl⟩ := List.mem_map.mp hx
      obtain ⟨hid, hgone⟩ := List.mem_filter.mp hj
      exact ⟨as, hl, hid, by simpa using hgone⟩
  · cases hg

/-- Lists of pairs are joined without repetition if they are told apart by what their pairs have in
front. -/
theorem nodup_flatMap_of_fst {α β γ : Type} {xs : List α} {k : α → β} {g : α → List (β × γ)}
    (hn : (xs.map k).Nodup) (hg : ∀ x ∈ xs, (g x).Nodup)
    (hk : ∀ x ∈ xs, ∀ y ∈ g x, y.1 = k x) : (xs.flatMap g).Nodup := by
  refine List.nodup_flatMap.mpr ⟨hg, ?_⟩
  refine (List.pairwise_map.mp hn).imp_of_mem fun {x x'} hx hx' hne y hy hy' => ?_
  exact hne ((hk x hx y hy).symm.trans (hk x' hx' y hy'))

theorem goneOf_eq_some {l : String × Except Failure (List Archive)} {g : String × List String}
    (h : goneOf c l = some g) : g.1 = l.1 ∧ g.2.Sublist (c.ids l.1) := by
  obtain ⟨location, e | as⟩ := l
  · cases h
  · cases h
    exact ⟨rfl, List.filter_sublist⟩

theorem nodup_lapse (hn : (listings.map Prod.fst).Nodup)
    (hids : ∀ location, (c.ids location).Nodup) : (f.lapse c listings).Nodup := by
  unfold lapse
  split
  · refine nodup_flatMap_of_fst (k := Prod.fst) ?_ (fun g hg => ?_) fun g _ y hy => ?_
    · refine List.pairwise_map.mpr (List.pairwise_filterMap.mpr ?_)
      refine (List.pairwise_map.mp hn).imp fun {l l'} hne g hg g' hg' => ?_
      rwa [(goneOf_eq_some hg).1, (goneOf_eq_some hg').1]
    · obtain ⟨l, -, hg⟩ := List.mem_filterMap.mp hg
      have hjobs := (hids l.1).sublist (goneOf_eq_some hg).2
      exact hjobs.map fun _ _ he => (Prod.mk.inj he).2
    · obtain ⟨job, -, rfl⟩ := List.mem_map.mp hy
      rfl
  · exact List.nodup_nil

section Listings

variable (hd : ∀ location as, (location, .ok as) ∈ listings → (as.map (·.job)).Nodup)

include hd

theorem nodup_surplus {location : String} {as : List Archive} (h : (location, .ok as) ∈ listings) :
    ((f.policy.surplus 0 as).map (·.job)).Nodup :=
  (hd location as h).sublist ((Policy.surplus_sublist f.policy).map _)

/-- A job is found beyond the limits once for every listing that has it there. -/
theorem count_overflow (id : String) :
    ((f.overflow listings).map Prod.snd).count id ≤ listings.countP (f.policy.exceeds id) := by
  induction listings with
  | nil => simp [overflow]
  | cons l listings ih =>
    have hrest := ih fun location as h => hd location as (List.mem_cons_of_mem _ h)
    have hfirst : (((f.surplusOf l).map fun x => (x.1, x.2.job)).map Prod.snd).count id ≤
        if f.policy.exceeds id l then 1 else 0 := by
      obtain ⟨location, e | as⟩ := l
      · simp [surplusOf]
      · -- no listing names a job twice
        have hn := nodup_surplus (f := f) hd (List.mem_cons_self ..)
        have he : ((f.surplusOf (location, .ok as)).map fun x => (x.1, x.2.job)).map Prod.snd =
            (f.policy.surplus 0 as).map (·.job) := by
          simp [surplusOf, Function.comp_def]
        rw [he, hn.count]
        simp [Policy.exceeds]
    rw [overflow, List.flatMap_cons, List.map_append, List.map_append, List.count_append,
      List.countP_cons, ← overflow]
    omega

theorem nodup_overflow (hn : (listings.map Prod.fst).Nodup) : (f.overflow listings).Nodup := by
  rw [overflow, List.map_flatMap]
  refine nodup_flatMap_of_fst hn (fun l hl => ?_) fun l _ y hy => ?_
  · obtain ⟨location, e | as⟩ := l
    · exact List.nodup_nil
    · have hj := nodup_surplus (f := f) hd hl
      refine List.Nodup.of_map Prod.snd ?_
      simpa [surplusOf, Function.comp_def] using hj
  · obtain ⟨location, e | as⟩ := l
    · cases hy
    · simp only [surplusOf, List.map_map, List.mem_map] at hy
      obtain ⟨a, -, rfl⟩ := hy
      rfl

theorem nodup_evictions (hn : (listings.map Prod.fst).Nodup)
    (hids : ∀ location, (c.ids location).Nodup) : (f.evictions c listings).Nodup := by
  rw [evictions_eq_append, List.nodup_append]
  refine ⟨nodup_overflow hd hn, nodup_lapse hn hids, ?_⟩
  rintro x hx y hy rfl
  obtain ⟨as, hl, a, ha, hj⟩ := mem_overflow.mp hx
  obtain ⟨as', hl', -, hgone⟩ := mem_lapse hy
  cases eq_of_mem_listings hn hl hl'
  exact hgone a ((Policy.surplus_sublist f.policy).subset ha) hj

end Listings

/-- How often jobs are announced as deleted in a cycle that began with a cache and was given some
listings. -/
structure Repeats (f : Fetcher σ) (c : Cache)
    (listings : List (String × Except Failure (List Archive))) (deleted : List String) : Prop where
  limited : ∀ id, deleted.count id ≤ max 1 (listings.countP (f.policy.exceeds id))
  once : ∀ id, (∀ l ∈ listings, f.policy.exceeds id l → id ∈ c.ids l.1) → deleted.count id ≤ 1

theorem Through.repeats {p₀ p₁ p₂ p₃ : Progress σ} {left : Leftover σ} {beyond gone : List Event}
    (h : Through f c w p₀ p₁ p₂ p₃ left beyond gone) (hn : (f.sources.map (·.location)).Nodup)
    (hl : c.locations = f.sources.map (·.location)) (hids : ∀ location, (c.ids location).Nodup)
    (hd : (f.cycle c w).2.DistinctListings) :
    f.Repeats c (listingsOf (f.cycle c w).2.trace) (f.cycle c w).1.deleted := by
  have hnc : c.locations.Nodup := hl ▸ hn
  obtain ⟨ms, hms⟩ := h.surveyed hn hl
  obtain ⟨hbeyond, hgone⟩ := h.cleared hnc hms
  have hlist : listingsOf (f.cycle c w).2.trace = listingsOf ms := by
    rw [← listingsOf_landmarks, (hbeyond.append hgone).landmarks, hms.landmarks]
    rfl
  have hd' : ∀ location as, (location, .ok as) ∈ listingsOf ms → (as.map (·.job)).Nodup :=
    fun location as hm => hd location as (hlist ▸ hm)
  have hnl : ((listingsOf ms).map Prod.fst).Nodup := hms.listed ▸ hn
  have hpairs := nodup_evictions (f := f) hd' hnl hids
  rw [evictions_eq_append] at hpairs
  -- what is gone was held at the start, and a survey only adds to what is held
  have hheld : ∀ x ∈ f.lapse c (listingsOf ms), x.2 ∈ p₁.cache.ids x.1 := fun x hx =>
    have ⟨_, _, hid, _⟩ := mem_lapse hx
    hms.mem_ids_of_mem hid
  rw [h.deleted_eq hnc hms, hlist]
  constructor
  · intro id
    have hfirst := (hbeyond.jobs.count_le id).trans (count_overflow hd' id)
    have hlast := hgone.count_of_held (nodup_lapse hnl hids) id fun x hx he =>
      he ▸ (hbeyond.mem_ids_iff hpairs hx).mpr (hheld x hx)
    rw [List.map_append, List.count_append]
    by_cases hid : p₂.cache.holds id
    · -- what is still held after the first round was not announced in it
      have hnone := List.count_eq_zero_of_not_mem ((hbeyond.held id).mp hid).2
      split at hlast <;> omega
    · rw [if_neg fun hc => hid hc.1] at hlast
      omega
  · intro id hall
    have hcount := (hbeyond.append hgone).count_of_held hpairs id fun x hx he => by
      subst he
      rcases List.mem_append.mp hx with hx | hx
      · obtain ⟨as, has, a, ha, hj⟩ := mem_overflow.mp hx
        refine hms.mem_ids_of_mem (hall _ has ?_)
        simpa [Policy.exceeds] using ⟨a, ha, hj⟩
      · exact hheld x hx
    split at hcount <;> omega

/-- A cycle that comes to its end announces no job as created twice. It announces a job as deleted
once at most, unless several locations list the job beyond their limits and one of them did not hold
it; and then as often at most as there are locations that list it so. -/
theorem announcements_bounded (run : f.Run drift w₀ history c w)
    (completed : (f.cycle c w).1.completed) (distinct : (f.cycle c w).2.DistinctListings) :
    (f.cycle c w).1.created.Nodup ∧
      f.Repeats c (listingsOf (f.cycle c w).2.trace) (f.cycle c w).1.deleted ∧
      (f.listener.isSome → f.Hears (f.cycle c w).2.trace (f.cycle c w).2.world
        ((f.cycle c w).1.created.map (⟨.created, ·⟩) ++
          (f.cycle c w).1.deleted.map (⟨.deleted, ·⟩))) := by
  have hn := run.accepted.nodup
  obtain ⟨middle, left, ms, deletions, h⟩ := cycle_completed hn run.locations completed
  obtain ⟨p₀, p₁, p₂, p₃, left', beyond, gone, hthrough⟩ := cycle_through completed
  refine ⟨(h.mirrors hn run.locations distinct).once,
    hthrough.repeats hn run.locations run.nodup_ids distinct, fun hl => ?_⟩
  have hevents : deletions = (f.cycle c w).1.deleted.map (⟨.deleted, ·⟩) := by
    rw [h.deleted, List.map_map]
    conv_lhs => rw [← List.map_id deletions]
    refine List.map_congr_left fun e he => ?_
    have hk := h.clearance.kinds e he
    obtain ⟨kind, job⟩ := e
    cases hk
    rfl
  have hhears := hears_cycle (w := w) hn run.locations distinct
  rwa [h.delivered hl, ← h.created, hevents] at hhears

end Fetcher

section Crowded

def crowdedArchive (location job : String) : Archive :=
  ⟨job, location, location ++ "/" ++ job, .zero⟩

/-- Two locations that each offer a job of their own, and then the same one beyond the limit. -/
def crowded : Fetcher (Site Bool) where
  sources := [
    offering "first" (fun _ => false)
      [("00000000000000000000000000000001", sampleBundle),
        ("00000000000000000000000000000003", [])],
    offering "second" (fun _ => false)
      [("00000000000000000000000000000002", sampleBundle),
        ("00000000000000000000000000000003", [])]]
  store := Site.store [] sampleConfig
  listener := some fun _ => Operation.answer ()
  policy := ⟨.atMost 1, true, true⟩
  cycleBindings := []
  overviewBindings := []

def crowdedSite : Site Bool := (crowded.prepare blankSite).2

def crowdedCycle : Result × Progress (Site Bool) := crowded.cycle crowded.emptyCache crowdedSite

theorem run_crowded : crowded.Run (fun _ _ => False) blankSite [] crowded.emptyCache crowdedSite :=
  .prepared ⟨.ofInt 1, by decide⟩ rfl

theorem listingsOf_crowdedCycle : listingsOf crowdedCycle.2.trace =
    [("first", .ok [crowdedArchive "first" "00000000000000000000000000000001",
        crowdedArchive "first" "00000000000000000000000000000003"]),
      ("second", .ok [crowdedArchive "second" "00000000000000000000000000000002",
        crowdedArchive "second" "00000000000000000000000000000003"])] := by
  decide +kernel

theorem distinct_crowdedCycle : crowdedCycle.2.DistinctListings := by
  intro location as h
  rw [listingsOf_crowdedCycle] at h
  simp only [List.mem_cons, Prod.mk.injEq, Except.ok.injEq, List.not_mem_nil, or_false] at h
  rcases h with ⟨-, rfl⟩ | ⟨-, rfl⟩ <;> decide

theorem completed_crowdedCycle : crowdedCycle.1.completed := by
  decide +kernel

/-- A job that was never held, and that both locations list beyond the limit, is announced as
deleted twice. -/
theorem crowdedCycle_announces_twice :
    crowded.Run (fun _ _ => False) blankSite [] crowded.emptyCache crowdedSite ∧
      crowdedCycle.1.completed ∧ crowdedCycle.2.DistinctListings ∧
      ¬ crowdedCycle.1.deleted.Nodup := by
  refine ⟨run_crowded, completed_crowdedCycle, distinct_crowdedCycle, ?_⟩
  decide +kernel

theorem announced_crowdedCycle :
    crowdedCycle.1.created.Nodup ∧
      crowdedCycle.1.deleted.count "00000000000000000000000000000001" ≤ 1 ∧
      crowdedCycle.1.deleted.count "00000000000000000000000000000003" ≤ 2 := by
  have completed := completed_crowdedCycle
  have distinct := distinct_crowdedCycle
  have hlist := listingsOf_crowdedCycle
  unfold crowdedCycle at completed distinct hlist ⊢
  obtain ⟨hcreated, hrepeats, -⟩ := Fetcher.announcements_bounded run_crowded completed distinct
  rw [hlist] at hrepeats
  exact ⟨hcreated, (hrepeats.limited _).trans (by decide +kernel),
    (hrepeats.limited _).trans (by decide +kernel)⟩

end Crowded

end ArchiveKeeper.Fetch
