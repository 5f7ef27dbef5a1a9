import ArchiveKeeper.Proofs.Fetch.Effect

namespace ArchiveKeeper.Fetch

open Act Progress

variable {σ : Type} {f : Fetcher σ} {s : Source σ} {a : Archive} {as : List Archive}
  {before : List String} {start c : Cache} {position : Nat} {p q : Progress σ} {D : Prop}
  {K : String → Prop} {phase : Phase} {w w₀ : σ} {drift : σ → σ → Prop}
  {history : List (Result × Progress σ)}

namespace Fetcher

theorem failedJobs_ingest {r : Except Failure Bool} (h : go (f.ingest s a) p = (r, q)) :
    q.failedJobs = p.failedJobs := by
  have hsame : Respects (Same Progress.failedJobs) (f.ingest s a) :=
    respects_ingest (fun _ _ => rfl) (fun _ _ _ => rfl) (fun _ => rfl) (fun _ => rfl)
  have hsame := hsame p
  rw [h] at hsame
  exact hsame

theorem Visited.failedJobs {r : Except Failure Bool} (h : Visited f s before position a p r q) :
    p.failedJobs <+: q.failedJobs := by
  cases h with
  | beyond => exact List.prefix_rfl
  | known => exact List.prefix_rfl
  | shared => exact List.prefix_rfl
  | created _ _ _ run =>
    show p.failedJobs <+: Progress.failedJobs _
    rw [failedJobs_ingest run]
    exact List.prefix_rfl
  | refused _ _ _ run =>
    rw [failedJobs_ingest run]
    exact List.prefix_append _ _
  | broken _ _ _ run =>
    rw [failedJobs_ingest run]
    exact List.prefix_rfl

theorem Step.failedJobs (h : Step f D K phase p q) : p.failedJobs <+: q.failedJobs := by
  cases h with
  | noted h => exact h.failedJobs ▸ List.prefix_rfl
  | listed => exact List.prefix_rfl
  | visited _ _ _ h => exact h.failedJobs
  | removed => exact List.prefix_rfl
  | evicted _ h => cases h <;> exact List.prefix_rfl
  | republished => exact List.prefix_rfl
  | delivered => exact List.prefix_rfl

theorem Steps.failedJobs (h : Steps f D K phase p q) : p.failedJobs <+: q.failedJobs := by
  induction h with
  | refl => exact List.prefix_rfl
  | tail _ h ih => exact ih.trans h.failedJobs

theorem failedJobs_cycle (f : Fetcher σ) (c : Cache) (w : σ) :
    (f.cycle c w).1.failedJobs = (f.cycle c w).2.failedJobs := by
  unfold cycle
  rcases f.course.run.run (begin_ c w) with ⟨_ | _, _⟩ <;> rfl

/-- Of a part of a listing that begins at a position, what is within the limit was known, or is held
now, or has failed. -/
def Accounted (f : Fetcher σ) (s : Source σ) (before : List String) (position : Nat)
    (as : List Archive) (q : Progress σ) : Prop :=
  ∀ x ∈ as.zipIdx position, ¬ f.policy.isBeyond x.2 →
    x.1.job ∈ before ∨ x.1.job ∈ q.cache.ids s.location ∨ x.1.job ∈ q.failedJobs

theorem Accounted.mono (h : f.Accounted s before position as p)
    (hids : ∀ id ∈ p.cache.ids s.location, id ∈ q.cache.ids s.location)
    (hfailed : p.failedJobs <+: q.failedJobs) : f.Accounted s before position as q := by
  intro x hx hw
  exact (h x hx hw).imp_right (Or.imp (hids _) (hfailed.subset ·))

theorem Visited.accounted {b : Bool} (h : Visited f s before position a p (.ok b) q)
    (hl : s.location ∈ p.cache.locations) (hw : ¬ f.policy.isBeyond position) :
    a.job ∈ before ∨ a.job ∈ q.cache.ids s.location ∨ a.job ∈ q.failedJobs := by
  cases h with
  | beyond hb => exact absurd hb hw
  | known _ hk => exact .inl hk
  | shared => exact .inr (.inl ((Cache.mem_ids_ingest hl).mpr (.inr ⟨rfl, rfl⟩)))
  | @created _ _ _ q' run =>
    have hc : q'.cache = p.cache := (ingest_books run).1
    refine .inr (.inl ?_)
    show a.job ∈ (q'.cache.ingest s.location a.job).ids s.location
    rw [hc]
    exact (Cache.mem_ids_ingest hl).mpr (.inr ⟨rfl, rfl⟩)
  | refused => exact .inr (.inr (by simp))

theorem accounted_visitAll {surplus : List (Surplus σ)} (hs : s ∈ f.sources)
    (hl : s.location ∈ p.cache.locations)
    (h : go (f.visitAll s before position as) p = (.ok surplus, q)) :
    f.Accounted s before position as q := by
  induction as generalizing position p surplus with
  | nil => simp [Accounted]
  | cons a as ih =>
    obtain ⟨b, p', more, hv, hgo, -⟩ := visitAll_cons_ok h
    have hl' : s.location ∈ p'.cache.locations := hv.locations ▸ hl
    obtain ⟨-, ms, hms⟩ := visitAll_surveyed hgo hl'
    have hsteps : PlainSteps f .survey p' q :=
      (steps_visitAll hs hl' False.elim (fun _ _ => trivial) hgo).1
    have hhead : f.Accounted s before position [a] p' := by
      intro x hx hw
      obtain rfl := List.mem_singleton.mp hx
      exact hv.accounted hl hw
    have hhead : f.Accounted s before position [a] q :=
      hhead.mono (fun id hid => (hms.ids id).mpr (.inl hid)) hsteps.failedJobs
    intro x hx hw
    rw [List.zipIdx_cons] at hx
    rcases List.mem_cons.mp hx with rfl | hx
    · exact hhead _ (List.mem_singleton.mpr rfl) hw
    · exact ih hl' hgo x hx hw

/-- Of every listing that a survey was given, what is within the limit is accounted for. -/
theorem accounted_visitSources {ss : List (Source σ)} {left : Leftover σ}
    (ahead : f.Ahead start ss p) (once : ((listingsOf q.trace).map Prod.fst).Nodup)
    (h : go (f.visitSources start ss) p = (.ok left, q)) :
    ∀ s ∈ ss, ∀ as, (s.location, .ok as) ∈ listingsOf q.trace →
      f.Accounted s (start.ids s.location) 0 as q := by
  induction ss generalizing p left with
  | nil => simp
  | cons s ss ih =>
    -- a location is listed once, so at the end its answer is the one that its source gave here
    have hmem {answer : Except Failure (List Archive)} {p' : Progress σ}
        (hp' : (s.location, answer) ∈ listingsOf p'.trace)
        (hsteps : PlainSteps f .survey p' q) {as : List Archive}
        (has : (s.location, .ok as) ∈ listingsOf q.trace) : answer = .ok as :=
      eq_of_mem_listings once has (hsteps.mem_listings hp')
    cases ho : (s.list p.world).1.outcome with
    | error e =>
      have hfirst : (s.location, .error e) ∈ listingsOf (f.missed s e p).trace := by
        rw [listings_missed ho]
        simp
      rw [go_visitSources_of_missed ho] at h
      have hsteps : PlainSteps f .survey (f.missed s e p) q :=
        steps_visitSources (ahead.missed e) (heard_true q) h
      intro s' hs' as has
      rcases List.mem_cons.mp hs' with rfl | hs'
      · cases hmem hfirst hsteps has
      · exact ih (ahead.missed e) h s' hs' as has
    | ok as =>
      obtain ⟨surplus, p', rest, hp, ahead', -⟩ := passed ahead (heard_true q) ho h
      have hfirst : (s.location, .ok as) ∈ listingsOf p'.trace := by
        rw [hp.listings]
        simp
      have hnot : s.location ∉ ss.map (·.location) := (List.nodup_cons.mp ahead.distinct).1
      intro s' hs' as' has
      rcases List.mem_cons.mp hs' with rfl | hs'
      · cases hmem hfirst hp.after has
        obtain ⟨ms, hms⟩ := visitSources_surveyed ahead'.distinct ahead'.locations hp.rest
        have hown : f.Accounted s' (start.ids s'.location) 0 as p' :=
          accounted_visitAll ahead.mem_sources ahead.listed.mem_locations hp.through
        exact hown.mono (fun id hid => hms.others _ hnot ▸ hid) hp.after.failedJobs
      · exact ih ahead' hp.rest s' hs' as' has

/-- What is found beyond the limits or gone is evicted, but not what may be kept. -/
theorem Completed.mem_ids_of_kept {middle : Progress σ} {left : Leftover σ} {ms : List (Moment σ)}
    {deletions : List Event} (h : Completed f c w middle left ms deletions)
    (hn : (f.sources.map (·.location)).Nodup) (hlist : (s.location, .ok as) ∈ listingsOf ms)
    (hd : (as.map (·.job)).Nodup) (ha : (f.policy.kept as)[position]? = some a)
    (hmiddle : a.job ∈ middle.cache.ids s.location) :
    a.job ∈ (f.cycle c w).2.cache.ids s.location := by
  obtain ⟨hp, hw⟩ := Policy.getElem?_kept.mp ha
  rw [h.clearance.ids]
  refine ⟨hmiddle, fun hev => ?_⟩
  rcases (mem_evictions (h.survey.listed ▸ hn) hlist).mp hev with ⟨position', a', hp', hj, hb⟩ | hgone
  · exact hw (position_unique hd hp' hp hj ▸ hb)
  · exact hgone.2.2 a (List.mem_of_getElem? hp) rfl

/-- After a cycle in which no job failed, a location that could be listed holds all that it may keep
of its listing. If jobs expire, then it holds nothing else. -/
theorem ids_of_unfailed (hn : (f.sources.map (·.location)).Nodup)
    (hl : c.locations = f.sources.map (·.location)) (completed : (f.cycle c w).1.completed)
    (distinct : (f.cycle c w).2.DistinctListings) (unfailed : (f.cycle c w).1.failedJobs = [])
    (hs : s ∈ f.sources) (has : (s.location, .ok as) ∈ listingsOf (f.cycle c w).2.trace) :
    (∀ a ∈ f.policy.kept as, a.job ∈ (f.cycle c w).2.cache.ids s.location) ∧
      (f.policy.evictExpired → ∀ id ∈ (f.cycle c w).2.cache.ids s.location,
        ∃ a ∈ f.policy.kept as, a.job = id) := by
  obtain ⟨p₀, p₁, p₂, p₃, left, beyond, gone, through⟩ := cycle_through completed
  obtain ⟨ms, h⟩ := through.completed hn hl
  have hlist : (s.location, .ok as) ∈ listingsOf ms := h.listings ▸ has
  have hd := distinct _ as has
  constructor
  · intro a ha
    obtain ⟨position, hk⟩ := List.getElem?_of_mem ha
    obtain ⟨hp, hw⟩ := Policy.getElem?_kept.mp hk
    have hlists : listingsOf p₁.trace = listingsOf ms := h.survey.listings
    have haccount := accounted_visitSources (through.ahead hn hl)
      (hlists ▸ h.survey.listed ▸ hn) through.survey s hs as (hlists ▸ hlist)
    have hclear : PlainSteps f .clearance p₁ p₃ :=
      through.steps_clearance hn hl (heard_true p₁) fun _ _ _ => trivial
    have hclose : PlainSteps f .close p₃ (f.cycle c w).2 := through.steps_close
    have hend : p₁.failedJobs <+: (f.cycle c w).2.failedJobs :=
      hclear.failedJobs.trans hclose.failedJobs
    -- a job that had failed by the end of the survey would be among those of the result
    refine h.mem_ids_of_kept hn hlist hd hk ?_
    rcases haccount (a, position) (List.mem_zipIdx_iff_getElem?.mpr hp) hw with hid | hid | hid
    · exact h.survey.mem_ids_of_mem hid
    · exact hid
    · rw [failedJobs_cycle] at unfailed
      rw [unfailed, List.prefix_nil] at hend
      rw [hend] at hid
      cases hid
  · intro hexp id hid
    rcases (h.mem_ids hn hs hlist hd).mp hid with ⟨position, a, hk, hj, -⟩ | ⟨hnot, -⟩
    · exact ⟨a, List.mem_of_getElem? hk, hj⟩
    · simp [hexp] at hnot

end Fetcher

end ArchiveKeeper.Fetch
