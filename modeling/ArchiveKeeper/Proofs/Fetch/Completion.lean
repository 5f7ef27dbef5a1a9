import ArchiveKeeper.Proofs.Fetch.Ending
import ArchiveKeeper.Proofs.Fetch.Steps

namespace ArchiveKeeper.Fetch

open Act

variable {σ α β : Type} {f : Fetcher σ} {s : Source σ} {a : Archive} {p q : Progress σ}

def Deed.isClosing : Deed → Bool
  | .republish .. | .deliver .. => true
  | _ => false

namespace Fetcher

/-- A cycle comes to its end unless the store fails to delete a job. -/
theorem completed_of_deletesAll {c : Cache} {w : σ} (h : (f.cycle c w).2.DeletesAll) :
    (f.cycle c w).1.completed := by
  obtain ⟨hdone, -⟩ | ⟨-, -, earlier, m, e, htrace, hfatal, -⟩ := ended_cycle f c w
  · exact hdone
  · exact absurd (hfatal.isFailedDeletion nofun) (h m (by simp [htrace]))

/-- The locations and jobs that are evicted after a survey with some listings. -/
def evictions (f : Fetcher σ) (start : Cache)
    (listings : List (String × Except Failure (List Archive))) : List (String × String) :=
  (listings.flatMap f.surplusOf).map (fun x => (x.1, x.2.job)) ++
    (if f.policy.evictExpired then listings.filterMap (goneOf start) else []).flatMap
      fun g => g.2.map (g.1, ·)

/-- The evictions from what was found beyond the limits. -/
def overflow (f : Fetcher σ) (listings : List (String × Except Failure (List Archive))) :
    List (String × String) :=
  (listings.flatMap f.surplusOf).map fun x => (x.1, x.2.job)

/-- The evictions of what is gone. -/
def lapse (f : Fetcher σ) (start : Cache)
    (listings : List (String × Except Failure (List Archive))) : List (String × String) :=
  (if f.policy.evictExpired then listings.filterMap (goneOf start) else []).flatMap
    fun g => g.2.map (g.1, ·)

theorem evictions_eq_append (start : Cache)
    (listings : List (String × Except Failure (List Archive))) :
    f.evictions start listings = f.overflow listings ++ f.lapse start listings := rfl

def deliveriesOf (ms : List (Moment σ)) : List Event :=
  ms.flatMap fun m => match m.deed with
    | .deliver events => events
    | _ => []

@[simp] theorem deliveriesOf_append (ms ms' : List (Moment σ)) :
    deliveriesOf (ms ++ ms') = deliveriesOf ms ++ deliveriesOf ms' := List.flatMap_append

theorem deliveriesOf_eq_nil {ms : List (Moment σ)} (h : ∀ m ∈ ms, ¬ m.deed.isClosing) :
    deliveriesOf ms = [] := by
  rw [deliveriesOf, List.flatMap_eq_nil_iff]
  intro m hm
  have hm := h m hm
  cases hd : m.deed <;> simp_all [Deed.isClosing]

theorem Steps.unclosed {D : Prop} {K : String → Prop} {phase : Phase} (hphase : phase ≠ .close)
    (h : Steps f D K phase p q) : Doing (fun d => !d.isClosing) p q := by
  obtain ⟨ms, ht, hms⟩ := h.does
  refine ⟨ms, ht, fun m hm => ?_⟩
  cases hms m hm with
  | transfer hd => cases hc : m.deed <;> simp_all [Deed.isTransfer, Deed.isClosing]
  | republish => exact absurd rfl hphase
  | deliver => exact absurd rfl hphase
  | _ => rfl

/-- A cycle came to its end by a survey of all sources up to a point, and evictions. -/
structure Completed (f : Fetcher σ) (c : Cache) (w : σ) (middle : Progress σ)
    (left : Leftover σ) (ms : List (Moment σ)) (deletions : List Event) : Prop where
  survey : SurveyedAll f c f.sources (begin_ c w) middle left ms
  steps : ∀ D K, middle.Heard D K → Steps f D K .survey (begin_ c w) middle
  clearance : Cleared (f.evictions c (listingsOf ms)) deletions middle (f.cycle c w).2
  created : (f.cycle c w).1.created = middle.created
  deleted : (f.cycle c w).1.deleted = deletions.map (·.job)
  delivered : f.listener.isSome → deliveriesOf (f.cycle c w).2.trace =
    middle.created.map (⟨.created, ·⟩) ++ deletions

theorem deletedOf_eventsOf {created : List String} {beyond gone : List Event}
    (hk : ∀ e ∈ beyond ++ gone, e.kind = .deleted) :
    deletedOf (eventsOf created beyond gone) = (beyond ++ gone).map (·.job) := by
  have hc : (created.map fun job => (⟨.created, job⟩ : Event)).filter (·.kind = .deleted) = [] := by
    simp
  have hb : (beyond ++ gone).filter (·.kind = .deleted) = beyond ++ gone := by
    rw [List.filter_eq_self]
    simpa using hk
  rw [deletedOf, eventsOf, List.append_assoc, List.filter_append, hc, hb, List.nil_append]

namespace SurveyedAll

variable {start : Cache} {ss : List (Source σ)} {left : Leftover σ} {ms : List (Moment σ)}
  {D : Prop} {K : String → Prop}

/-- What a survey left to be removed is what its listings name beyond the limits. -/
theorem overflow_eq (h : SurveyedAll f start ss p q left ms) :
    f.overflow (listingsOf ms) = left.surplus.map fun s => (s.source.location, s.archive.job) := by
  rw [overflow, ← h.surplus, List.map_map]
  rfl

theorem lapse_eq (h : SurveyedAll f start ss p q left ms) :
    f.lapse start (listingsOf ms) = (f.toExpire left).flatMap fun g => g.2.map (g.1, ·) := by
  rw [lapse, ← h.expired]
  rfl

theorem known_overflow (h : SurveyedAll f start ss p q left ms) (hq : q.Heard D K) :
    ∀ x ∈ f.overflow (listingsOf ms), K x.2 := by
  rw [h.overflow_eq]
  exact List.forall_mem_map.mpr (h.known_surplus hq)

theorem known_lapse (h : SurveyedAll f start ss p q left ms)
    (hheld : ∀ location, ∀ id ∈ start.ids location, K id) :
    ∀ x ∈ f.lapse start (listingsOf ms), K x.2 := by
  rw [h.lapse_eq]
  intro x hx
  obtain ⟨g, hg, hx⟩ := List.mem_flatMap.mp hx
  obtain ⟨id, hid, rfl⟩ := List.mem_map.mp hx
  exact h.known_expired hheld g hg id hid

end SurveyedAll

theorem cleared_closed (f : Fetcher σ) (events : List Event) (p : Progress σ) :
    Cleared [] [] p (f.closed events p) := by
  have hp : Cleared [] [] p (f.afterPublication events p) := by
    unfold afterPublication
    split
    · exact .of_asked _ _ rfl
    · exact .of_noted (.refl _)
  have hd : Cleared [] [] (f.afterPublication events p) (f.closed events p) := by
    unfold closed afterDelivery
    split
    · exact .of_noted (.refl _)
    · exact .of_asked _ _ rfl
  exact hp.append hd

theorem deliveriesOf_closed (f : Fetcher σ) (events : List Event) (p : Progress σ)
    (hl : f.listener.isSome) :
    deliveriesOf (f.closed events p).trace = deliveriesOf p.trace ++ events := by
  have hp : deliveriesOf (f.afterPublication events p).trace = deliveriesOf p.trace := by
    unfold afterPublication
    split
    · simp [deliveriesOf]
    · rfl
  obtain ⟨listener, hl⟩ := Option.isSome_iff_exists.mp hl
  rw [closed, afterDelivery, hl, Progress.trace_asked, deliveriesOf_append, hp]
  simp [deliveriesOf]

/-- The points through which a cycle came to its end. -/
structure Through (f : Fetcher σ) (c : Cache) (w : σ) (p₀ p₁ p₂ p₃ : Progress σ)
    (left : Leftover σ) (beyond gone : List Event) : Prop where
  start : (begin_ c w).Noted p₀
  survey : go (f.visitSources c f.sources) p₀ = (.ok left, p₁)
  surplus : go (f.evictSurplus left.surplus) p₁ = (.ok beyond, p₂)
  expired : go (f.evictExpired (f.toExpire left)) p₂ = (.ok gone, p₃)
  close : (f.closed (eventsOf p₁.created beyond gone) p₃).Noted (f.cycle c w).2
  created : (f.cycle c w).1.created = (f.cycle c w).2.created
  deleted : (f.cycle c w).1.deleted = deletedOf (eventsOf p₁.created beyond gone)

theorem cycle_through {c : Cache} {w : σ} (h : (f.cycle c w).1.completed) :
    ∃ p₀ p₁ p₂ p₃ left beyond gone, Through f c w p₀ p₁ p₂ p₃ left beyond gone := by
  rcases hr : f.course.run.run (begin_ c w) with ⟨e | deleted, q⟩
  · simp [cycle, hr] at h
  have hc : f.cycle c w =
      (⟨q.created, deleted, q.failedLocations, q.failedJobs, true⟩, q) := by
    simp [cycle, hr]
  cases coursed (show go f.course (begin_ c w) = (.ok deleted, q) from hr) with
  | @through p₀ p₁ p₂ p₃ q left beyond gone start survey surplus expired close =>
    exact ⟨p₀, p₁, p₂, p₃, left, beyond, gone, start, survey, surplus, expired, by rwa [hc],
      by rw [hc], by rw [hc]⟩

namespace Through

variable {c : Cache} {w : σ} {p₀ p₁ p₂ p₃ : Progress σ} {left : Leftover σ}
  {beyond gone : List Event}

theorem surveyed (h : Through f c w p₀ p₁ p₂ p₃ left beyond gone)
    (hn : (f.sources.map (·.location)).Nodup) (hl : c.locations = f.sources.map (·.location)) :
    ∃ ms, SurveyedAll f c f.sources (begin_ c w) p₁ left ms := by
  obtain ⟨ms, hms⟩ := visitSources_surveyed hn
    (h.start.cache ▸ fun s hs => hl ▸ List.mem_map_of_mem hs) h.survey
  exact ⟨ms, hms.of_noted h.start⟩

theorem ahead (h : Through f c w p₀ p₁ p₂ p₃ left beyond gone)
    (hn : (f.sources.map (·.location)).Nodup) (hl : c.locations = f.sources.map (·.location)) :
    f.Ahead c f.sources p₀ :=
  .whole hn (fun _ hs => hl ▸ List.mem_map_of_mem hs) h.start.cache

theorem steps (h : Through f c w p₀ p₁ p₂ p₃ left beyond gone)
    (hn : (f.sources.map (·.location)).Nodup) (hl : c.locations = f.sources.map (·.location))
    (D : Prop) (K : String → Prop) (h₁ : p₁.Heard D K) :
    Steps f D K .survey (begin_ c w) p₁ :=
  steps_survey hn (fun _ hs => hl ▸ List.mem_map_of_mem hs) h.start h₁ h.survey

theorem cleared (h : Through f c w p₀ p₁ p₂ p₃ left beyond gone) (hn : c.locations.Nodup)
    {ms : List (Moment σ)} (hms : SurveyedAll f c f.sources (begin_ c w) p₁ left ms) :
    Cleared (f.overflow (listingsOf ms)) beyond p₁ p₂ ∧
      Cleared (f.lapse c (listingsOf ms)) gone p₂ (f.cycle c w).2 := by
  have hn₁ : p₁.cache.locations.Nodup := by
    rw [hms.locations]
    exact hn
  have hbeyond := evictSurplus_cleared hn₁ h.surplus
  have hgone := evictExpired_cleared (hbeyond.locations ▸ hn₁) h.expired
  have hclose := (cleared_closed f (eventsOf p₁.created beyond gone) p₃).append (.of_noted h.close)
  rw [hms.overflow_eq, hms.lapse_eq]
  exact ⟨hbeyond, by simpa using hgone.append hclose⟩

theorem deleted_eq (h : Through f c w p₀ p₁ p₂ p₃ left beyond gone) (hn : c.locations.Nodup)
    {ms : List (Moment σ)} (hms : SurveyedAll f c f.sources (begin_ c w) p₁ left ms) :
    (f.cycle c w).1.deleted = (beyond ++ gone).map Event.job := by
  obtain ⟨hbeyond, hgone⟩ := h.cleared hn hms
  rw [h.deleted, deletedOf_eventsOf (hbeyond.append hgone).kinds]

theorem steps_surplus (h : Through f c w p₀ p₁ p₂ p₃ left beyond gone)
    (hn : (f.sources.map (·.location)).Nodup) (hl : c.locations = f.sources.map (·.location))
    {D : Prop} {K : String → Prop} (h₁ : p₁.Heard D K) : Steps f D K .clearance p₁ p₂ := by
  obtain ⟨ms, hms⟩ := h.surveyed hn hl
  exact steps_evictSurplus (source_of_visitSources h.survey) (hms.known_surplus h₁) h.surplus

theorem steps_expired (h : Through f c w p₀ p₁ p₂ p₃ left beyond gone)
    (hn : (f.sources.map (·.location)).Nodup) (hl : c.locations = f.sources.map (·.location))
    {D : Prop} {K : String → Prop} (hheld : ∀ location, ∀ id ∈ c.ids location, K id) :
    Steps f D K .clearance p₂ p₃ := by
  obtain ⟨ms, hms⟩ := h.surveyed hn hl
  exact steps_evictExpired (hms.known_expired hheld) h.expired

theorem steps_clearance (h : Through f c w p₀ p₁ p₂ p₃ left beyond gone)
    (hn : (f.sources.map (·.location)).Nodup) (hl : c.locations = f.sources.map (·.location))
    {D : Prop} {K : String → Prop} (h₁ : p₁.Heard D K)
    (hheld : ∀ location, ∀ id ∈ c.ids location, K id) : Steps f D K .clearance p₁ p₃ :=
  (h.steps_surplus hn hl h₁).trans (h.steps_expired hn hl hheld)

theorem steps_close {D : Prop} {K : String → Prop}
    (h : Through f c w p₀ p₁ p₂ p₃ left beyond gone) : Steps f D K .close p₃ (f.cycle c w).2 :=
  Fetcher.steps_close h.close

theorem unclosed (h : Through f c w p₀ p₁ p₂ p₃ left beyond gone)
    (hn : (f.sources.map (·.location)).Nodup) (hl : c.locations = f.sources.map (·.location)) :
    ∀ m ∈ p₃.trace, ¬ m.deed.isClosing := by
  have hsurvey := h.steps hn hl False (fun _ => True) (Progress.heard_true _)
  have hclear := h.steps_clearance hn hl (Progress.heard_true p₁) fun _ _ _ => trivial
  obtain ⟨ms, ht, hms⟩ :=
    trans_of (Doing _) (hsurvey.unclosed (by simp)) (hclear.unclosed (by simp))
  rw [ht]
  simpa [begin_] using hms

theorem delivered (h : Through f c w p₀ p₁ p₂ p₃ left beyond gone)
    (hn : (f.sources.map (·.location)).Nodup) (hl : c.locations = f.sources.map (·.location))
    (hlis : f.listener.isSome) : deliveriesOf (f.cycle c w).2.trace =
      p₁.created.map (⟨.created, ·⟩) ++ (beyond ++ gone) := by
  have hquiet : deliveriesOf p₃.trace = [] := deliveriesOf_eq_nil (h.unclosed hn hl)
  rw [h.close.trace, deliveriesOf_closed f _ _ hlis, hquiet, eventsOf]
  simp

theorem completed (h : Through f c w p₀ p₁ p₂ p₃ left beyond gone)
    (hn : (f.sources.map (·.location)).Nodup) (hl : c.locations = f.sources.map (·.location)) :
    ∃ ms, Completed f c w p₁ left ms (beyond ++ gone) := by
  obtain ⟨ms, hms⟩ := h.surveyed hn hl
  have hnc : c.locations.Nodup := hl ▸ hn
  obtain ⟨hbeyond, hgone⟩ := h.cleared hnc hms
  have hcleared := hbeyond.append hgone
  exact ⟨ms, hms, h.steps hn hl, hcleared, h.created.trans hcleared.created, h.deleted_eq hnc hms,
    h.delivered hn hl⟩

end Through

theorem cycle_completed {c : Cache} {w : σ} (hn : (f.sources.map (·.location)).Nodup)
    (hl : c.locations = f.sources.map (·.location)) (h : (f.cycle c w).1.completed) :
    ∃ middle left ms deletions, Completed f c w middle left ms deletions := by
  obtain ⟨p₀, p₁, p₂, p₃, left, beyond, gone, through⟩ := cycle_through h
  obtain ⟨ms, hms⟩ := through.completed hn hl
  exact ⟨p₁, left, ms, beyond ++ gone, hms⟩

end Fetcher

end ArchiveKeeper.Fetch
