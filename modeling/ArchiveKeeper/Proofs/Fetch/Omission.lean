import ArchiveKeeper.Proofs.Fetch.Remnants

namespace ArchiveKeeper.Fetch

open Act Progress

variable {σ : Type} {f : Fetcher σ} {p q : Progress σ} {c : Cache} {w w₀ : σ}
  {drift : σ → σ → Prop} {history : List (Result × Progress σ)} {x : Result × Progress σ}
  {job : String}

namespace Fetcher

theorem unclosed_course {e : Failure} (hn : (f.sources.map (·.location)).Nodup)
    (hl : ∀ s ∈ f.sources, s.location ∈ p.cache.locations) (h : go f.course p = (.error e, q)) :
    Doing (fun d => !d.isClosing) p q := by
  have hsurvey {p₀ p₁ : Progress σ} {t} (start : p.Noted p₀)
      (survey : go (f.visitSources p.cache f.sources) p₀ = (t, p₁)) : PlainSteps f .survey p p₁ :=
    steps_survey hn hl start p₁.heard_true survey
  have hunclosed {p₁ : Progress σ} (survey : PlainSteps f .survey p p₁)
      (clearance : PlainSteps f .clearance p₁ q) : Doing (fun d => !d.isClosing) p q :=
    trans_of (Doing _) (survey.unclosed (by simp)) (clearance.unclosed (by simp))
  cases coursed h with
  | unsurveyed start survey => exact hunclosed (hsurvey start survey) .refl
  | surplusKept start survey surplus =>
    exact hunclosed (hsurvey start survey) (plainSteps_evictSurplus (fun _ h => h) survey surplus)
  | expiredKept start survey surplus expired =>
    exact hunclosed (hsurvey start survey) <|
      (plainSteps_evictSurplus (fun _ h => h) survey surplus).trans (plainSteps_evictExpired expired)

theorem unclosed_of_stopped (hn : (f.sources.map (·.location)).Nodup)
    (hl : c.locations = f.sources.map (·.location)) (h : (f.cycle c w).1.completed = false) :
    (f.cycle c w).1.deleted = [] ∧ ∀ m ∈ (f.cycle c w).2.trace, ¬ m.deed.isClosing := by
  rcases hr : go f.course (begin_ c w) with ⟨e | deleted, q⟩
  · have hcycle : (f.cycle c w).1.deleted = [] ∧ (f.cycle c w).2.trace = q.trace := by
      simp [cycle, show f.course.run.run (begin_ c w) = (.error e, q) from hr]
    obtain ⟨ms, ht, hms⟩ := unclosed_course (p := begin_ c w) hn
      (fun s hs => hl ▸ List.mem_map_of_mem hs) hr
    rw [hcycle.2, ht]
    exact ⟨hcycle.1, fun m hm => by simpa using hms m (by simpa [begin_] using hm)⟩
  · simp [cycle, show f.course.run.run (begin_ c w) = (.ok deleted, q) from hr] at h

theorem deliveriesOf_of_stopped (hn : (f.sources.map (·.location)).Nodup)
    (hl : c.locations = f.sources.map (·.location)) (h : (f.cycle c w).1.completed = false) :
    deliveriesOf (f.cycle c w).2.trace = [] :=
  deliveriesOf_eq_nil (unclosed_of_stopped hn hl h).2

def cacheAfter (f : Fetcher σ) (history : List (Result × Progress σ)) : Cache :=
  match history.getLast? with
  | none => f.emptyCache
  | some x => x.2.cache

theorem Run.cacheAfter (run : f.Run drift w₀ history c w) : f.cacheAfter history = c := by
  induction run with
  | prepared => rfl
  | drifted _ _ ih => exact ih
  | cycled => simp [Fetcher.cacheAfter]

def Announced (x : Result × Progress σ) (job : String) : Prop :=
  x.1.completed ∧ (job ∈ x.1.created ∨ job ∈ x.1.deleted)

/-- A cycle stopped early after it had changed whether a job is held, and no cycle has announced the
job since. -/
def Omitted (f : Fetcher σ) (history : List (Result × Progress σ)) (job : String) : Prop :=
  ∃ earlier x later, history = earlier ++ x :: later ∧ x.1.completed = false ∧
    x.2.cache.holds job ≠ (f.cacheAfter earlier).holds job ∧ ∀ y ∈ later, ¬ Announced y job

theorem Omitted.concat (h : f.Omitted history job) (hx : ¬ Announced x job) :
    f.Omitted (history ++ [x]) job := by
  obtain ⟨earlier, y, later, rfl, hstop, hchanged, hlater⟩ := h
  refine ⟨earlier, y, later ++ [x], by simp, hstop, hchanged, ?_⟩
  exact List.forall_mem_append.mpr ⟨hlater, List.forall_mem_singleton.mpr hx⟩

theorem omitted_of_stopped (hstop : x.1.completed = false)
    (hchanged : x.2.cache.holds job ≠ (f.cacheAfter history).holds job) :
    f.Omitted (history ++ [x]) job :=
  ⟨history, x, [], rfl, hstop, hchanged, by simp⟩

theorem Announced.not_omitted (h : Announced x job) : ¬ f.Omitted (history ++ [x]) job := by
  rintro ⟨earlier, y, later, he, hstop, -, hlater⟩
  -- the cycle that stopped early would be this one, or this one is among those that came later
  rcases List.eq_nil_or_concat later with rfl | ⟨later', z, rfl⟩
  · obtain ⟨-, hxy⟩ := List.append_inj' he rfl
    cases hxy
    simp [h.1] at hstop
  · rw [List.concat_eq_append, ← List.cons_append, ← List.append_assoc] at he
    obtain ⟨-, hxz⟩ := List.append_inj' he rfl
    cases hxz
    exact hlater x (by simp) h

/-- In cycles that stop early the listener hears nothing. One who follows what it hears in a run knows
of every job whether it is held, unless a cycle that stopped early changed that and no cycle has
announced the job since. -/
theorem announcements_omit (run : f.Run drift w₀ history c w)
    (distinct : ∀ x ∈ history, x.2.DistinctListings) (hl : f.listener.isSome) :
    (∀ x ∈ history, x.1.completed = false → f.Hears x.2.trace x.2.world []) ∧
      ∃ events, f.HearsAll history events ∧ ∀ job, ¬ f.Omitted history job →
        (job ∈ events.foldl Event.follow ∅ ↔ c.holds job) := by
  have hn := run.accepted.nodup
  constructor
  · intro x hx hstop
    obtain ⟨before, c', w', hrun, -, rfl⟩ := run.cycle_mem hx
    have hhears := hears_cycle hn hrun.locations (distinct _ hx)
    rwa [deliveriesOf_of_stopped hn hrun.locations hstop] at hhears
  refine ⟨_, run.hearsAll distinct, fun job => ?_⟩
  induction run with
  | prepared => simp [deliveries, emptyCache, Cache.holds, Cache.ofLocations]
  | drifted _ _ ih => exact ih distinct
  | @cycled history c w run ih =>
    intro homitted
    have hd : (f.cycle c w).2.DistinctListings :=
      distinct _ (List.mem_append_right _ (List.mem_singleton.mpr rfl))
    have hih := ih fun x hx => distinct x (List.mem_append_left _ hx)
    rw [deliveries_concat, List.foldl_append]
    cases hend : (f.cycle c w).1.completed with
    | false =>
      have hsame : (f.cycle c w).2.cache.holds job = c.holds job := by
        by_contra hchanged
        exact homitted (omitted_of_stopped hend (run.cacheAfter ▸ hchanged))
      have hnot : ¬ Announced (f.cycle c w) job := fun h => by simp [h.1] at hend
      rw [deliveriesOf_of_stopped hn run.locations hend, List.foldl_nil, hsame]
      exact hih fun h => homitted (h.concat hnot)
    | true =>
      obtain ⟨middle, left, ms, deletions, h⟩ := cycle_completed hn run.locations hend
      have hm := h.mirrors hn run.locations hd
      rw [h.mem_foldl hl]
      by_cases hcreated : job ∈ (f.cycle c w).1.created
      · simp [hcreated, hm.disjoint job hcreated, ((hm.created job).mp hcreated).2]
      by_cases hdeleted : job ∈ (f.cycle c w).1.deleted
      · simp [hdeleted, hm.gone job hdeleted]
      -- the cycle leaves the job as it was, and announces nothing of it
      have hknown := hih fun h => homitted (h.concat fun ha => ha.2.elim hcreated hdeleted)
      rw [iff_true_intro hdeleted, and_true, or_iff_left hcreated, hknown]
      constructor
      · intro hheld
        by_contra hq
        exact hdeleted (hm.deleted job hheld hq)
      · intro hq
        by_contra hheld
        exact hcreated ((hm.created job).mpr ⟨hheld, hq⟩)

end Fetcher

section Interrupted

def brokenArchive : Archive :=
  ⟨"00000000000000000000000000000002", "first", "first/00000000000000000000000000000002", .zero⟩

/-- A location that offers two jobs at first, of which one cannot be read, then the other one alone,
and in the end none. -/
def dwindlingSource : Source (Site (Nat × List Event)) where
  location := "first"
  list w := Operation.answer
    (match w.objects.1 with
      | 0 => [sampleArchive, brokenArchive]
      | 1 => [sampleArchive]
      | _ => []) w
  read a := if a = sampleArchive then Operation.answer sampleBundle
    else Operation.fail (.ingestion a.job (.unread a.path))
  remove _ := Operation.answer ()

/-- At first the store cannot delete anything. The listener takes down what it is told. -/
def interrupted : Fetcher (Site (Nat × List Event)) where
  sources := [dwindlingSource]
  store := { (Site.store [] sampleConfig : Store (Site (Nat × List Event))) with
    delete := fun job w =>
      if w.objects.1 = 0 then Operation.fail (.plain "delete failed") w
      else (Site.store [] sampleConfig).delete job w }
  listener := some fun e w =>
    (⟨.ok (), []⟩, w.withObjects (w.objects.1, w.objects.2 ++ [e]))
  policy := ⟨.unbounded, true, true⟩
  cycleBindings := []
  overviewBindings := []

def firstSite : Site (Nat × List Event) := ⟨.empty, .closed, (0, [])⟩

def aged (w : Site (Nat × List Event)) : Site (Nat × List Event) :=
  w.withObjects (w.objects.1 + 1, w.objects.2)

/-- The cycle that takes up both jobs, and stops at the second one. -/
def interruptedCycle : Result × Progress (Site (Nat × List Event)) :=
  interrupted.cycle interrupted.emptyCache (interrupted.prepare firstSite).2

def quietCycle : Result × Progress (Site (Nat × List Event)) :=
  interrupted.cycle interruptedCycle.2.cache (aged interruptedCycle.2.world)

def lastCycle : Result × Progress (Site (Nat × List Event)) :=
  interrupted.cycle quietCycle.2.cache (aged quietCycle.2.world)

theorem run_interrupted :
    interrupted.Run (fun w w' => w' = aged w) firstSite [interruptedCycle, quietCycle]
        quietCycle.2.cache quietCycle.2.world ∧
      interrupted.Run (fun w w' => w' = aged w) firstSite [interruptedCycle, quietCycle, lastCycle]
        lastCycle.2.cache lastCycle.2.world := by
  have accepted : Fetcher.accept (.ofInt (-1)) ["first"] = .ok .unbounded := by decide
  have start : interrupted.Run (fun w w' => w' = aged w) firstSite [] interrupted.emptyCache
      (interrupted.prepare firstSite).2 := .prepared ⟨.ofInt (-1), accepted⟩ rfl
  have first : interrupted.Run (fun w w' => w' = aged w) firstSite [interruptedCycle]
      interruptedCycle.2.cache interruptedCycle.2.world := by
    have first := start.cycled
    rw [List.nil_append] at first
    unfold interruptedCycle
    exact first
  have second : interrupted.Run (fun w w' => w' = aged w) firstSite [interruptedCycle, quietCycle]
      quietCycle.2.cache quietCycle.2.world := by
    unfold quietCycle
    exact (first.drifted rfl).cycled
  refine ⟨second, ?_⟩
  unfold lastCycle
  exact (second.drifted rfl).cycled

theorem listingsOf_interrupted :
    listingsOf interruptedCycle.2.trace = [("first", .ok [sampleArchive, brokenArchive])] ∧
      listingsOf quietCycle.2.trace = [("first", .ok [sampleArchive])] ∧
      listingsOf lastCycle.2.trace = [("first", .ok [])] := by
  refine ⟨?_, ?_, ?_⟩ <;> decide +kernel

theorem distinct_interrupted :
    ∀ x ∈ [interruptedCycle, quietCycle, lastCycle], x.2.DistinctListings := by
  obtain ⟨hfirst, hquiet, hlast⟩ := listingsOf_interrupted
  have hone {x : Result × Progress (Site (Nat × List Event))} {as : List Archive}
      (hd : (as.map (·.job)).Nodup) (hx : listingsOf x.2.trace = [("first", .ok as)]) :
      x.2.DistinctListings := by
    intro location as' h
    rw [hx] at h
    cases List.mem_singleton.mp h
    exact hd
  exact List.forall_mem_cons.mpr ⟨hone (by decide) hfirst, List.forall_mem_cons.mpr
    ⟨hone (by decide) hquiet, List.forall_mem_singleton.mpr (hone (by decide) hlast)⟩⟩

/-- A job was stored by a cycle that was stopped by another job. In the next cycle nothing fails, and
the job is held, but the listener has heard of nothing. -/
theorem unannounced_quietCycle :
    interrupted.Run (fun w w' => w' = aged w) firstSite [interruptedCycle, quietCycle]
        quietCycle.2.cache quietCycle.2.world ∧
      (∀ x ∈ [interruptedCycle, quietCycle], x.2.DistinctListings) ∧
      interruptedCycle.1.completed = false ∧ quietCycle.1.completed ∧
      (∀ m ∈ quietCycle.2.trace, ¬ m.deed.fails) ∧
      quietCycle.2.cache.holds sampleArchive.job ∧ quietCycle.2.world.objects.2 = [] ∧
      ∀ events, interrupted.HearsAll [interruptedCycle, quietCycle] events →
        sampleArchive.job ∉ events.foldl Event.follow ∅ := by
  have hnone : Fetcher.deliveries [interruptedCycle, quietCycle] = [] := by decide +kernel
  refine ⟨run_interrupted.1, fun x hx => distinct_interrupted x (List.mem_append_left [lastCycle] hx),
    ?_, ?_, ?_, ?_, ?_, fun events hhears => ?_⟩
  · decide +kernel
  · decide +kernel
  · decide +kernel
  · decide +kernel
  · decide +kernel
  · rw [hhears.eq, hnone]
    exact Set.notMem_empty _

/-- Once the job is gone, the listener hears that, and what it has heard is right about the job
again. -/
theorem announced_lastCycle :
    lastCycle.2.world.objects.2 = [⟨.deleted, sampleArchive.job⟩] ∧
      Fetcher.Announced lastCycle sampleArchive.job ∧
      ∃ events, interrupted.HearsAll [interruptedCycle, quietCycle, lastCycle] events ∧
        (sampleArchive.job ∈ events.foldl Event.follow ∅ ↔
          lastCycle.2.cache.holds sampleArchive.job) := by
  have hannounced : Fetcher.Announced lastCycle sampleArchive.job :=
    ⟨by decide +kernel, .inr (by decide +kernel)⟩
  have homitted : ¬ interrupted.Omitted ([interruptedCycle, quietCycle] ++ [lastCycle])
      sampleArchive.job := hannounced.not_omitted
  obtain ⟨-, events, hhears, hknows⟩ :=
    Fetcher.announcements_omit run_interrupted.2 distinct_interrupted rfl
  exact ⟨by decide +kernel, hannounced, events, hhears, hknows _ homitted⟩

end Interrupted

end ArchiveKeeper.Fetch
