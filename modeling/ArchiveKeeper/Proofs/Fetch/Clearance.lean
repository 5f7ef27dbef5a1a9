import ArchiveKeeper.Proofs.Fetch.Survey

namespace ArchiveKeeper.Fetch.Fetcher

open Act Progress

variable {σ : Type} {f : Fetcher σ} {location job other id : String} {p q : Progress σ}

theorem evict_cons {rest : Act σ (List Event)} {r : Except Failure (List Event)}
    (h : go (do
      let event ← f.evict location job
      let more ← rest
      return event.toList ++ more) p = (r, q)) :
    (∃ e, Evicted f location job p (.error e) q ∧ r = .error e) ∨
      ∃ event p' t, Evicted f location job p (.ok event) p' ∧ go rest p' = (t, q) ∧
        r = t.map (event.toList ++ ·) := by
  obtain ⟨e, he, hr⟩ | ⟨event, p', he, h⟩ := go_bind_cases h
  · exact .inl ⟨e, evicted he, hr⟩
  · obtain ⟨e, hm, hr⟩ | ⟨more, q', hm, h⟩ := go_bind_cases h
    · exact .inr ⟨event, p', _, evicted he, hm, hr⟩
    · cases h
      exact .inr ⟨event, p', _, evicted he, hm, rfl⟩

theorem evictSurplus_cons {s : Surplus σ} {ss : List (Surplus σ)} {r : Except Failure (List Event)}
    (h : go (f.evictSurplus (s :: ss)) p = (r, q)) :
    ∃ p₁ p', p.Noted p₁ ∧ (p₁.asked (.remove s.source.location s.archive)
        (s.source.remove s.archive)).Noted p' ∧
      ((∃ e, Evicted f s.source.location s.archive.job p' (.error e) q ∧ r = .error e) ∨
        ∃ event p'' t, Evicted f s.source.location s.archive.job p' (.ok event) p'' ∧
          go (f.evictSurplus ss) p'' = (t, q) ∧ r = t.map (event.toList ++ ·)) := by
  rw [evictSurplus, go_bind, go_say] at h
  dsimp only at h
  rw [go_bind, go_ask] at h
  dsimp only at h
  split at h
  · exact ⟨_, _, noted_said p _, .refl _, evict_cons h⟩
  · rw [go_bind, go_say] at h
    exact ⟨_, _, noted_said p _, noted_said _ _, evict_cons h⟩

theorem evictSurplus_cons_ok {s : Surplus σ} {ss : List (Surplus σ)} {events : List Event}
    (h : go (f.evictSurplus (s :: ss)) p = (.ok events, q)) :
    ∃ p₁ p' event p'' more, p.Noted p₁ ∧
      (p₁.asked (.remove s.source.location s.archive) (s.source.remove s.archive)).Noted p' ∧
      Evicted f s.source.location s.archive.job p' (.ok event) p'' ∧
      go (f.evictSurplus ss) p'' = (.ok more, q) ∧ events = event.toList ++ more := by
  obtain ⟨p₁, p', hp₁, hp', ⟨e, -, hr⟩ | ⟨event, p'', t, he, hgo, hr⟩⟩ := evictSurplus_cons h
  · cases hr
  cases t with
  | error e => cases hr
  | ok more =>
    cases hr
    exact ⟨p₁, p', event, p'', more, hp₁, hp', he, hgo, rfl⟩

theorem evictExpiredOf_cons {jobs : List String} {r : Except Failure (List Event)}
    (h : go (f.evictExpiredOf location (job :: jobs)) p = (r, q)) :
    ∃ p', p.Noted p' ∧
      ((∃ e, Evicted f location job p' (.error e) q ∧ r = .error e) ∨
        ∃ event p'' t, Evicted f location job p' (.ok event) p'' ∧
          go (f.evictExpiredOf location jobs) p'' = (t, q) ∧ r = t.map (event.toList ++ ·)) := by
  rw [evictExpiredOf, go_bind, go_say] at h
  exact ⟨_, noted_said p _, evict_cons h⟩

theorem evictExpiredOf_cons_ok {jobs : List String} {events : List Event}
    (h : go (f.evictExpiredOf location (job :: jobs)) p = (.ok events, q)) :
    ∃ p' event p'' more, p.Noted p' ∧ Evicted f location job p' (.ok event) p'' ∧
      go (f.evictExpiredOf location jobs) p'' = (.ok more, q) ∧ events = event.toList ++ more := by
  obtain ⟨p', hp', ⟨e, -, hr⟩ | ⟨event, p'', t, he, hgo, hr⟩⟩ := evictExpiredOf_cons h
  · cases hr
  cases t with
  | error e => cases hr
  | ok more =>
    cases hr
    exact ⟨p', event, p'', more, hp', he, hgo, rfl⟩

theorem evictExpired_cons {jobs : List String} {rest : List (String × List String)}
    {r : Except Failure (List Event)}
    (h : go (f.evictExpired ((location, jobs) :: rest)) p = (r, q)) :
    (∃ e, go (f.evictExpiredOf location jobs) p = (.error e, q) ∧ r = .error e) ∨
      ∃ first p' t, go (f.evictExpiredOf location jobs) p = (.ok first, p') ∧
        go (f.evictExpired rest) p' = (t, q) ∧ r = t.map (first ++ ·) := by
  rw [evictExpired] at h
  obtain ⟨e, he, hr⟩ | ⟨first, p', he, h⟩ := go_bind_cases h
  · exact .inl ⟨e, he, hr⟩
  · obtain ⟨e, hm, hr⟩ | ⟨more, q', hm, h⟩ := go_bind_cases h
    · exact .inr ⟨first, p', _, he, hm, hr⟩
    · cases h
      exact .inr ⟨first, p', _, he, hm, rfl⟩

theorem evictExpired_cons_ok {jobs : List String} {rest : List (String × List String)}
    {events : List Event} (h : go (f.evictExpired ((location, jobs) :: rest)) p = (.ok events, q)) :
    ∃ first p' more, go (f.evictExpiredOf location jobs) p = (.ok first, p') ∧
      go (f.evictExpired rest) p' = (.ok more, q) ∧ events = first ++ more := by
  obtain ⟨e, -, hr⟩ | ⟨first, p', t, hfirst, hgo, hr⟩ := evictExpired_cons h
  · cases hr
  cases t with
  | error e => cases hr
  | ok more =>
    cases hr
    exact ⟨first, p', more, hfirst, hgo, rfl⟩

/-- Jobs were evicted from locations, and the ones of some events are held nowhere any more. A job
comes up in these again only as it is evicted from locations that do not hold it. -/
structure Cleared (pairs : List (String × String)) (events : List Event) (p q : Progress σ) :
    Prop where
  landmarks : q.landmarks = p.landmarks
  created : q.created = p.created
  cache : q.cache = p.cache.evictAll pairs
  lost : events = (p.cache.lost pairs).map (⟨.deleted, ·⟩)
  locations : q.cache.locations = p.cache.locations
  ids : ∀ location id, id ∈ q.cache.ids location ↔
    id ∈ p.cache.ids location ∧ (location, id) ∉ pairs
  others : ∀ location, location ∉ pairs.map Prod.fst →
    q.cache.ids location = p.cache.ids location
  kinds : ∀ e ∈ events, e.kind = .deleted
  held : ∀ id, q.cache.holds id ↔ p.cache.holds id ∧ id ∉ events.map Event.job
  jobs : (events.map Event.job).Sublist (pairs.map Prod.snd)
  count : pairs.Nodup → ∀ id, (events.map Event.job).count id ≤
    pairs.countP (fun x => x.2 = id ∧ id ∉ p.cache.ids x.1) +
      if p.cache.holds id ∧ ¬ q.cache.holds id then 1 else 0

namespace Cleared

variable {pairs pairs' : List (String × String)} {events events' : List Event} {p' : Progress σ}

theorem of_noted (h : p.Noted q) : Cleared [] [] p q where
  landmarks := by rw [Progress.landmarks, h.trace, Progress.landmarks]
  created := h.created
  cache := h.cache
  lost := rfl
  locations := by rw [h.cache]
  ids := by simp [h.cache]
  others _ _ := by rw [h.cache]
  kinds := by simp
  held := by simp [h.cache]
  jobs := .refl _
  count := by simp

/-- What is still to be evicted is held as it was before the evictions so far. -/
theorem mem_ids_iff (h : Cleared pairs events p p') (hn : (pairs ++ pairs').Nodup)
    {x : String × String} (hx : x ∈ pairs') : x.2 ∈ p'.cache.ids x.1 ↔ x.2 ∈ p.cache.ids x.1 := by
  rw [h.ids]
  exact and_iff_left fun hm => (List.nodup_append.mp hn).2.2 x hm x hx rfl

/-- A job is announced once at most if it is only evicted from where it is held. -/
theorem count_of_held (h : Cleared pairs events p q) (hn : pairs.Nodup) (id : String)
    (hheld : ∀ x ∈ pairs, x.2 = id → id ∈ p.cache.ids x.1) : (events.map Event.job).count id ≤
      if p.cache.holds id ∧ ¬ q.cache.holds id then 1 else 0 := by
  have hcount := h.count hn id
  have hzero : pairs.countP (fun x => x.2 = id ∧ id ∉ p.cache.ids x.1) = 0 := by
    rw [List.countP_eq_zero]
    intro x hx hnot
    obtain ⟨he, hnot⟩ := of_decide_eq_true hnot
    exact hnot (hheld x hx he)
  rwa [hzero, Nat.zero_add] at hcount

theorem append (h : Cleared pairs events p p') (h' : Cleared pairs' events' p' q) :
    Cleared (pairs ++ pairs') (events ++ events') p q where
  landmarks := h'.landmarks.trans h.landmarks
  created := h'.created.trans h.created
  cache := by rw [h'.cache, h.cache, Cache.evictAll_append]
  lost := by rw [h'.lost, h.lost, h.cache, Cache.lost_append, List.map_append]
  locations := h'.locations.trans h.locations
  ids location id := by rw [h'.ids, h.ids, List.mem_append, not_or, and_assoc]
  others location hl := by
    rw [List.map_append, List.mem_append, not_or] at hl
    exact (h'.others location hl.2).trans (h.others location hl.1)
  kinds e he := (List.mem_append.mp he).elim (h.kinds e) (h'.kinds e)
  held id := by rw [h'.held, h.held, List.map_append, List.mem_append, not_or, and_assoc]
  jobs := by
    rw [List.map_append, List.map_append]
    exact h.jobs.append h'.jobs
  count hn id := by
    have hfirst := h.count (List.nodup_append.mp hn).1 id
    have hrest := h'.count (List.nodup_append.mp hn).2.1 id
    have hsame : pairs'.countP (fun x => x.2 = id ∧ id ∉ p'.cache.ids x.1) =
        pairs'.countP (fun x => x.2 = id ∧ id ∉ p.cache.ids x.1) := by
      refine List.countP_congr fun x hx => ?_
      have hx := h.mem_ids_iff hn hx
      simp only [decide_eq_true_eq]
      refine and_congr_right fun he => not_congr ?_
      rwa [he] at hx
    have hmid : p'.cache.holds id → p.cache.holds id := fun hm => ((h.held id).mp hm).1
    have hlast : q.cache.holds id → p'.cache.holds id := fun hm => ((h'.held id).mp hm).1
    rw [List.map_append, List.count_append, List.countP_append]
    rw [hsame] at hrest
    -- a job ceases to be held in one of the two stretches
    split at hfirst <;> split at hrest <;> split <;> first | omega | tauto

theorem of_asked {α : Type} (deed : Except Failure α → Deed) (o : Operation σ α)
    (hd : (deed (o p.world).1.outcome).isLandmark = false) : Cleared [] [] p (p.asked deed o) where
  landmarks := by simp [Progress.landmarks, hd]
  created := rfl
  cache := rfl
  lost := rfl
  locations := rfl
  ids := by simp
  others _ _ := rfl
  kinds := by simp
  held := by simp
  jobs := .refl _
  count := by simp

theorem of_evicted {event : Option Event} (hn : p.cache.locations.Nodup)
    (h : Evicted f location job p (.ok event) q) :
    Cleared [(location, job)] event.toList p q := by
  have hids : ∀ location' id, id ∈ (p.cache.evict location job).ids location' ↔
      id ∈ p.cache.ids location' ∧ (location', id) ∉ [(location, job)] := by
    intro location' id
    rw [Cache.mem_ids_evict]
    simp
  have hothers : ∀ location', location' ∉ [(location, job)].map Prod.fst →
      (p.cache.evict location job).ids location' = p.cache.ids location' := by
    intro location' hl
    exact Cache.ids_update_of_ne (by simpa using hl) _
  -- whether another location holds the job is the same before the eviction as after it
  have hsame : (p.cache.evict location job).heldElsewhere location job =
      p.cache.heldElsewhere location job := Cache.heldElsewhere_evict hn
  cases h with
  | kept he l =>
    have hlost : p.cache.lost [(location, job)] = [] := by
      rw [Cache.lost, if_pos (hsame ▸ he), Cache.lost, List.append_nil]
    refine ⟨rfl, rfl, rfl, by rw [hlost]; rfl, Cache.locations_evict, hids, hothers, by simp,
      fun id => ?_, List.nil_sublist _, by simp⟩
    change (p.cache.evict location job).holds id ↔ _
    simp [Cache.holds_evict_of_heldElsewhere hn he]
  | dropped ha hd =>
    have hgone := Cache.not_holds_evict hn ha
    have hlost : p.cache.lost [(location, job)] = [job] := by
      rw [Cache.lost, if_neg (hsame ▸ ha), Cache.lost, List.append_nil]
    refine ⟨?_, rfl, rfl, by rw [hlost]; rfl, Cache.locations_evict, hids, hothers, by simp,
      fun id => ?_, .refl _, fun _ id => ?_⟩
    · simp [Progress.landmarks, Deed.isLandmark, withCache]
    · change (p.cache.evict location job).holds id ↔ _
      by_cases hj : id = job
      · subst hj
        simp [hgone]
      · simp [Cache.holds_evict_of_ne hn hj, hj]
    · change [job].count id ≤ _ +
        if p.cache.holds id ∧ ¬ (p.cache.evict location job).holds id then 1 else 0
      by_cases hj : job = id
      · subst hj
        by_cases hheld : job ∈ p.cache.ids location
        · have hbefore := (Cache.holds_iff_or location hn).mpr (.inl hheld)
          simp [hbefore, hgone]
        · simp [hheld]
      · simp [hj]

end Cleared

theorem evictSurplus_cleared {ss : List (Surplus σ)} {events : List Event}
    (hn : p.cache.locations.Nodup) (h : go (f.evictSurplus ss) p = (.ok events, q)) :
    Cleared (ss.map fun s => (s.source.location, s.archive.job)) events p q := by
  induction ss generalizing p events with
  | nil =>
    cases h
    exact .of_noted (.refl _)
  | cons s ss ih =>
    obtain ⟨p₁, p', event, p'', more, hp₁, hp', he, hgo, rfl⟩ := evictSurplus_cons_ok h
    have hc : Cleared [] [] p p' :=
      ((Cleared.of_noted hp₁).append (.of_asked _ _ rfl)).append (.of_noted hp')
    have hc' := hc.append (.of_evicted (hc.locations ▸ hn) he)
    exact hc'.append (ih (hc'.locations ▸ hn) hgo)

theorem evictExpiredOf_cleared {jobs : List String} {events : List Event}
    (hn : p.cache.locations.Nodup)
    (h : go (f.evictExpiredOf location jobs) p = (.ok events, q)) :
    Cleared (jobs.map (location, ·)) events p q := by
  induction jobs generalizing p events with
  | nil =>
    cases h
    exact .of_noted (.refl _)
  | cons job jobs ih =>
    obtain ⟨p', event, p'', more, hp', he, hgo, rfl⟩ := evictExpiredOf_cons_ok h
    have hc := (Cleared.of_noted hp').append (.of_evicted (hp'.cache ▸ hn) he)
    exact hc.append (ih (hc.locations ▸ hn) hgo)

theorem evictExpired_cleared {gone : List (String × List String)} {events : List Event}
    (hn : p.cache.locations.Nodup) (h : go (f.evictExpired gone) p = (.ok events, q)) :
    Cleared (gone.flatMap fun g => g.2.map (g.1, ·)) events p q := by
  induction gone generalizing p events with
  | nil =>
    cases h
    exact .of_noted (.refl _)
  | cons g gone ih =>
    obtain ⟨first, p', more, hfirst, hgo, rfl⟩ := evictExpired_cons_ok h
    have hc := evictExpiredOf_cleared hn hfirst
    exact hc.append (ih (hc.locations ▸ hn) hgo)

end ArchiveKeeper.Fetch.Fetcher
