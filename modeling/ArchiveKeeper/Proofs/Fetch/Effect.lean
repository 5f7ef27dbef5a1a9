import ArchiveKeeper.Proofs.Fetch.Run

namespace ArchiveKeeper.Fetch

open Act Progress

variable {σ : Type} {f : Fetcher σ} {s : Source σ} {a : Archive} {as : List Archive}
  {drift : σ → σ → Prop} {w₀ w : σ} {c : Cache} {position : Nat} {id location : String}
  {history : List (Result × Progress σ)}

namespace Policy

def kept (policy : Policy) (as : List Archive) : List Archive :=
  match policy.evictBeyondLimit, policy.limit with
  | true, .atMost n => as.take n
  | _, _ => as

variable {policy : Policy}

theorem getElem?_kept :
    (policy.kept as)[position]? = some a ↔
      as[position]? = some a ∧ ¬ policy.isBeyond position := by
  unfold kept isBeyond
  split
  · rename_i n hb hl
    simp only [hb, hl, Bool.true_and, decide_eq_true_eq, Nat.not_le, List.getElem?_take]
    split
    · rename_i h
      simp [h]
    · rename_i h
      simp [h]
  · rename_i h
    cases hb : policy.evictBeyondLimit with
    | false => simp
    | true =>
      cases hl : policy.limit with
      | unbounded => simp
      | atMost n => exact absurd hl (h n hb)

end Policy

namespace Fetcher

theorem position_unique {a' : Archive} {position' : Nat} (hd : (as.map (·.job)).Nodup)
    (h : as[position]? = some a) (h' : as[position']? = some a') (hj : a.job = a'.job) :
    position = position' := by
  have hlt : position < (as.map (·.job)).length := by
    rw [List.length_map]
    exact (List.getElem?_eq_some_iff.mp h).1
  exact (List.getElem?_inj hlt hd).mp (by simp [h, h', hj])

/-- A location is to hold a job of its listing: it held it before, or when the archive was taken up
another location held it, or else the archive could be loaded. -/
def Retains (f : Fetcher σ) (s : Source σ) (c : Cache) (as : List Archive) (ms : List (Moment σ))
    (id : String) : Prop :=
  ∃ position a, (f.policy.kept as)[position]? = some a ∧ a.job = id ∧
    (id ∈ c.ids s.location ∨ ∃ m ∈ ms, m.deed = .visit s.location position a ∧
      (m.cache.heldElsewhere s.location id ∨ f.Loads s a m.world))

section Evictions

variable {listings : List (String × Except Failure (List Archive))}
  (hn : (listings.map Prod.fst).Nodup)

include hn

theorem eq_of_mem_listings {answer answer' : Except Failure (List Archive)}
    (h : (location, answer) ∈ listings) (h' : (location, answer') ∈ listings) :
    answer' = answer :=
  (Prod.mk.inj (List.inj_on_of_nodup_map hn h' h rfl)).2

theorem mem_evictions (h : (location, .ok as) ∈ listings) :
    (location, id) ∈ f.evictions c listings ↔
      (∃ position a, as[position]? = some a ∧ a.job = id ∧ f.policy.isBeyond position) ∨
        f.policy.evictExpired ∧ id ∈ c.ids location ∧ ∀ a ∈ as, a.job ≠ id := by
  rw [evictions, List.mem_append]
  -- a location is listed once, so what is evicted from it comes of this listing
  refine or_congr ?_ ?_
  · simp only [List.mem_map, List.mem_flatMap, Prod.mk.injEq]
    constructor
    · rintro ⟨⟨l, a⟩, ⟨⟨l', answer⟩, hx, hy⟩, rfl, rfl⟩
      cases answer with
      | error e => simp [surplusOf] at hy
      | ok as' =>
        simp only [surplusOf, List.mem_map, Prod.mk.injEq] at hy
        obtain ⟨a', ha, rfl, rfl⟩ := hy
        cases eq_of_mem_listings hn h hx
        obtain ⟨position, hp, hb⟩ := Policy.mem_surplus.mp ha
        exact ⟨position, a', hp, rfl, hb⟩
    · rintro ⟨position, a, hp, rfl, hb⟩
      refine ⟨(location, a), ⟨_, h, ?_⟩, rfl, rfl⟩
      exact List.mem_map_of_mem (Policy.mem_surplus.mpr ⟨position, hp, hb⟩)
  · by_cases he : f.policy.evictExpired
    · simp only [he, if_true, List.mem_flatMap, List.mem_filterMap, List.mem_map, Prod.mk.injEq,
        true_and]
      constructor
      · rintro ⟨g, ⟨⟨l, answer⟩, hx, hy⟩, job, hj, rfl, rfl⟩
        cases answer with
        | error e => cases hy
        | ok as' =>
          cases hy
          cases eq_of_mem_listings hn h hx
          simpa [List.mem_filter] using hj
      · rintro ⟨hid, hgone⟩
        exact ⟨_, ⟨_, h, rfl⟩, id, by simpa [List.mem_filter] using ⟨hid, hgone⟩, rfl, rfl⟩
    · simp [he]

theorem not_mem_evictions {e : Failure} (h : (location, .error e) ∈ listings) :
    location ∉ (f.evictions c listings).map Prod.fst := by
  rw [List.mem_map]
  rintro ⟨⟨l, job⟩, hm, rfl⟩
  rw [evictions, List.mem_append] at hm
  rcases hm with hm | hm
  · obtain ⟨⟨l', a⟩, hm, he⟩ := List.mem_map.mp hm
    obtain ⟨⟨l'', answer⟩, hx, hy⟩ := List.mem_flatMap.mp hm
    cases answer with
    | error e => simp [surplusOf] at hy
    | ok as =>
      obtain ⟨a', -, hy⟩ := List.mem_map.mp hy
      cases hy
      cases he
      cases eq_of_mem_listings hn h hx
  · obtain ⟨g, hg, hm⟩ := List.mem_flatMap.mp hm
    obtain ⟨j, -, he⟩ := List.mem_map.mp hm
    cases he
    split at hg
    · obtain ⟨⟨l', answer⟩, hx, hy⟩ := List.mem_filterMap.mp hg
      cases answer with
      | error e => cases hy
      | ok as =>
        cases hy
        cases eq_of_mem_listings hn h hx
    · cases hg

end Evictions

namespace Completed

variable {middle : Progress σ} {left : Leftover σ} {ms : List (Moment σ)} {deletions : List Event}

theorem landmarks (h : Completed f c w middle left ms deletions) :
    (f.cycle c w).2.landmarks = ms := h.clearance.landmarks.trans h.survey.landmarks

theorem listings (h : Completed f c w middle left ms deletions) :
    listingsOf (f.cycle c w).2.trace = listingsOf ms := by
  rw [← listingsOf_landmarks, h.landmarks]

theorem retains_of_acquires (h : Completed f c w middle left ms deletions) (hs : s ∈ f.sources)
    (hlist : (s.location, .ok as) ∈ listingsOf ms) {m : Moment σ} (hm : m ∈ ms)
    (ha : f.Acquires s (c.ids s.location) id m) : f.Retains s c as ms id := by
  obtain ⟨position, a, hdeed, rfl, hw, -, hgot⟩ := ha
  have hv : (a, position) ∈ as.zipIdx := by
    rw [← h.survey.visits s hs as hlist]
    exact mem_visitsAt.mpr ⟨m, hm, hdeed⟩
  have hp := List.mem_zipIdx_iff_getElem?.mp hv
  exact ⟨position, a, Policy.getElem?_kept.mpr ⟨hp, hw⟩, rfl, .inr ⟨m, hm, hdeed, hgot⟩⟩

theorem mem_ids (h : Completed f c w middle left ms deletions)
    (hn : (f.sources.map (·.location)).Nodup) (hs : s ∈ f.sources)
    (hlist : (s.location, .ok as) ∈ listingsOf ms) (hd : (as.map (·.job)).Nodup) :
    id ∈ (f.cycle c w).2.cache.ids s.location ↔ f.Retains s c as ms id ∨
      f.policy.evictExpired = false ∧ id ∈ c.ids s.location ∧ ∀ a ∈ as, a.job ≠ id := by
  have hev : (s.location, id) ∈ f.evictions c (listingsOf ms) ↔ _ :=
    mem_evictions (h.survey.listed ▸ hn) hlist
  have hmid := h.survey.ids s hs as hlist id
  rw [h.clearance.ids, hev, not_or, not_exists, hmid]
  constructor
  · rintro ⟨hid | ⟨m, hm, ha⟩, hb, he⟩
    · -- what was held stays for being listed, or as nothing is evicted for being gone
      by_cases hex : ∃ a ∈ as, a.job = id
      · obtain ⟨a, ha, rfl⟩ := hex
        obtain ⟨position, hp⟩ := List.getElem?_of_mem ha
        have hw : ¬ f.policy.isBeyond position := fun hbeyond => hb position ⟨a, hp, rfl, hbeyond⟩
        exact .inl ⟨position, a, Policy.getElem?_kept.mpr ⟨hp, hw⟩, rfl, .inl hid⟩
      · have hgone : ∀ a ∈ as, a.job ≠ id := fun a ha hj => hex ⟨a, ha, hj⟩
        refine .inr ⟨?_, hid, hgone⟩
        by_contra hexp
        exact he ⟨by simpa using hexp, hid, hgone⟩
    · exact .inl (h.retains_of_acquires hs hlist hm ha)
  · rintro (⟨position, a, hk, rfl, hgot⟩ | ⟨hexp, hid, hgone⟩)
    · obtain ⟨hp, hw⟩ := Policy.getElem?_kept.mp hk
      refine ⟨?_, ?_, fun he => he.2.2 a (List.mem_of_getElem? hp) rfl⟩
      · by_cases hid : a.job ∈ c.ids s.location
        · exact .inl hid
        · rcases hgot with hid' | ⟨m, hm, hdeed, hgot⟩
          · exact absurd hid' hid
          · exact .inr ⟨m, hm, position, a, hdeed, rfl, hw, hid, hgot⟩
      · rintro position' ⟨a', hp', hj, hb⟩
        exact hw (position_unique hd hp' hp hj ▸ hb)
    · refine ⟨.inl hid, ?_, fun he => by simp [hexp] at he⟩
      rintro position ⟨a, hp, hj, -⟩
      exact hgone a (List.mem_of_getElem? hp) hj

theorem ids_of_failed (h : Completed f c w middle left ms deletions)
    (hn : (f.sources.map (·.location)).Nodup) (hs : s ∈ f.sources) {e : Failure}
    (hlist : (s.location, .error e) ∈ listingsOf ms) :
    (f.cycle c w).2.cache.ids s.location = c.ids s.location :=
  (h.clearance.others _ (not_mem_evictions (h.survey.listed ▸ hn) hlist)).trans
    (h.survey.failed s hs e hlist)

end Completed

theorem retains_landmarks {p : Progress σ} :
    f.Retains s c as p.landmarks id ↔ f.Retains s c as p.trace id := by
  unfold Retains
  simp only [landmarks, List.mem_filter]
  refine exists_congr fun position => exists_congr fun a => and_congr_right fun _ =>
    and_congr_right fun _ => or_congr_right (exists_congr fun m => ?_)
  constructor
  · rintro ⟨⟨hm, -⟩, h⟩
    exact ⟨hm, h⟩
  · rintro ⟨hm, hd, h⟩
    exact ⟨⟨hm, by simp [hd, Deed.isLandmark]⟩, hd, h⟩

/-- A cycle whose listings are distinct and whose jobs can be deleted lists every source once, in
their order, and takes the archives of a listing up in theirs. A location that cannot be listed
holds what it held. Any other one holds the jobs that it is to hold of its listing, and, unless they
expire, those that it held and that are no longer listed. -/
theorem ids_cycle (run : f.Run drift w₀ history c w)
    (distinct : (f.cycle c w).2.DistinctListings) (deletes : (f.cycle c w).2.DeletesAll) :
    (f.cycle c w).1.completed ∧
      (listingsOf (f.cycle c w).2.trace).map Prod.fst = f.sources.map (·.location) ∧
      ∀ s ∈ f.sources,
        (∀ e, (s.location, .error e) ∈ listingsOf (f.cycle c w).2.trace →
          (f.cycle c w).2.cache.ids s.location = c.ids s.location) ∧
        ∀ as, (s.location, .ok as) ∈ listingsOf (f.cycle c w).2.trace →
          visitsAt s.location (f.cycle c w).2.trace = as.zipIdx ∧
          ∀ id, id ∈ (f.cycle c w).2.cache.ids s.location ↔
            f.Retains s c as (f.cycle c w).2.trace id ∨
            f.policy.evictExpired = false ∧ id ∈ c.ids s.location ∧ ∀ a ∈ as, a.job ≠ id := by
  have hn := run.accepted.nodup
  have hc := completed_of_deletesAll deletes
  obtain ⟨middle, left, ms, deletions, h⟩ := cycle_completed hn run.locations hc
  refine ⟨hc, h.listings ▸ h.survey.listed, fun s hs => ⟨fun e he => ?_, fun as has => ?_⟩⟩
  · exact h.ids_of_failed hn hs (h.listings ▸ he)
  · have hlist := h.listings ▸ has
    refine ⟨?_, fun id => ?_⟩
    · rw [← visitsAt_landmarks, h.landmarks]
      exact h.survey.visits s hs as hlist
    · rw [← retains_landmarks, h.landmarks]
      exact h.mem_ids hn hs hlist (distinct _ as has)

theorem deletesAll_sampleCycle : sampleCycle.2.DeletesAll := by
  have hall : (sampleCycle.2.trace.all fun m => !m.deed.isFailedDeletion) := by decide +kernel
  intro m hm
  simpa using List.all_eq_true.mp hall m hm

theorem ids_sampleCycle : sampleCycle.1.completed ∧
    ∀ id, id ∈ sampleCycle.2.cache.ids "first" ↔
      sample.Retains sampleSource sample.emptyCache [sampleArchive] sampleCycle.2.trace id ∨
        sample.policy.evictExpired = false ∧ id ∈ sample.emptyCache.ids "first" ∧
          ∀ a ∈ [sampleArchive], a.job ≠ id := by
  have distinct := distinct_sampleCycle
  have deletes := deletesAll_sampleCycle
  have hlist : (sampleSource.location, .ok [sampleArchive]) ∈ listingsOf sampleCycle.2.trace :=
    listingsOf_sampleCycle ▸ List.mem_cons_self
  have hs : sampleSource ∈ sample.sources := List.mem_cons_self
  unfold sampleCycle at distinct deletes hlist ⊢
  have run : sample.Run (fun _ _ => False) blankSite [] sample.emptyCache preparedSite :=
    run_prepared
  obtain ⟨hend, -, hids⟩ := ids_cycle run distinct deletes
  exact ⟨hend, ((hids sampleSource hs).2 [sampleArchive] hlist).2⟩

end Fetcher

end ArchiveKeeper.Fetch
