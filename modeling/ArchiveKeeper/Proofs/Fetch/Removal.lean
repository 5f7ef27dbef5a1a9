import ArchiveKeeper.Proofs.Fetch.Repetition
import ArchiveKeeper.Proofs.Source

namespace ArchiveKeeper.Fetch

open Act Progress

variable {σ : Type} {f : Fetcher σ} {s : Source σ} {a : Archive} {as : List Archive}
  {position : Nat} {location : String} {p q : Progress σ} {D : Prop} {K : String → Prop}
  {phase : Phase} {c : Cache} {w w₀ : σ} {drift : σ → σ → Prop}
  {history : List (Result × Progress σ)}

def Deed.removal? : Deed → Option (String × Archive)
  | .remove location a _ => some (location, a)
  | _ => none

/-- The archives that were to be removed at some moments, in their order. -/
def removalsOf (ms : List (Moment σ)) : List (String × Archive) := ms.filterMap (·.deed.removal?)

@[simp] theorem removalsOf_append (ms ms' : List (Moment σ)) :
    removalsOf (ms ++ ms') = removalsOf ms ++ removalsOf ms' := List.filterMap_append

theorem mem_removalsOf {ms : List (Moment σ)} :
    (location, a) ∈ removalsOf ms ↔ ∃ m ∈ ms, ∃ answer, m.deed = .remove location a answer := by
  rw [removalsOf, List.mem_filterMap]
  refine exists_congr fun m => and_congr_right fun _ => ?_
  cases m.deed <;> simp [Deed.removal?]

theorem Policy.isBeyond_iff {policy : Policy} : policy.isBeyond position ↔
    policy.evictBeyondLimit ∧ ∃ n, policy.limit = .atMost n ∧ n ≤ position := by
  unfold isBeyond
  cases policy.limit <;> simp

namespace Fetcher

theorem Evicted.removals {job : String} {r : Except Failure (Option Event)}
    (h : Evicted f location job p r q) : removalsOf q.trace = removalsOf p.trace := by
  cases h <;> simp [removalsOf, Deed.removal?, withCache]

theorem Steps.removals (hphase : phase ≠ .clearance) (h : Steps f D K phase p q) :
    removalsOf q.trace = removalsOf p.trace := by
  obtain ⟨ms, ht, hms⟩ := h.does
  rw [ht, removalsOf_append, List.append_right_eq_self, removalsOf, List.filterMap_eq_nil_iff]
  intro m hm
  cases hms m hm with
  | transfer hd => cases hr : m.deed <;> simp_all [Deed.isTransfer, Deed.removal?]
  | remove => exact absurd rfl hphase
  | delete => exact absurd rfl hphase
  | _ => rfl

/-- What is found beyond the limits is removed in its order, as far as the evictions come. -/
theorem removals_evictSurplus {ss : List (Surplus σ)} {r : Except Failure (List Event)}
    (h : go (f.evictSurplus ss) p = (r, q)) :
    ∃ done, removalsOf q.trace = removalsOf p.trace ++ done ∧
      done <+: ss.map (fun s => (s.source.location, s.archive)) ∧
      ∀ events, r = .ok events → done = ss.map (fun s => (s.source.location, s.archive)) := by
  induction ss generalizing p r with
  | nil =>
    cases h
    exact ⟨[], by simp, List.prefix_refl _, by simp⟩
  | cons s ss ih =>
    obtain ⟨p₁, p', hp₁, hp', he⟩ := evictSurplus_cons h
    have hfirst : removalsOf p'.trace =
        removalsOf p.trace ++ [(s.source.location, s.archive)] := by
      rw [hp'.trace, trace_asked, removalsOf_append, hp₁.trace]
      rfl
    rcases he with ⟨e, he, rfl⟩ | ⟨event, p'', t, he, hgo, rfl⟩
    · -- the eviction has failed, but the archive was removed before that
      exact ⟨_, he.removals.trans hfirst, List.prefix_append _ _, by simp⟩
    · obtain ⟨done, hdone, hpre, hall⟩ := ih hgo
      refine ⟨(s.source.location, s.archive) :: done, ?_, by simpa using hpre, ?_⟩
      · rw [hdone, he.removals, hfirst, List.append_assoc, List.singleton_append]
      · intro events hr
        cases t with
        | error e => cases hr
        | ok more => rw [hall more rfl, List.map_cons]

theorem removals_evictExpired (gone : List (String × List String)) :
    Respects (Same fun p => removalsOf p.trace) (f.evictExpired gone) := by
  have hone (location job : String) :
      Respects (Same fun p => removalsOf p.trace) (f.evict location job) := fun p =>
    (evicted (Prod.eta (go (f.evict location job) p)).symm).removals
  have hjobs (location : String) (jobs : List String) :
      Respects (Same fun p => removalsOf p.trace) (f.evictExpiredOf location jobs) := by
    induction jobs with
    | nil => exact respects_pure _
    | cons job jobs ih =>
      exact (respects_say (fun _ _ => rfl) _).bind fun _ => (hone location job).bind fun _ =>
        ih.bind fun _ => respects_pure _
  induction gone with
  | nil => exact respects_pure _
  | cons g gone ih => exact (hjobs g.1 g.2).bind fun _ => ih.bind fun _ => respects_pure _

/-- All sources were listed, and what was found beyond the limits is removed in its order, as far as
the removals come. -/
structure Withdraws (f : Fetcher σ) (p : Progress σ) : Prop where
  listed : (listingsOf p.trace).map Prod.fst = f.sources.map (·.location)
  order : removalsOf p.trace <+: (listingsOf p.trace).flatMap f.surplusOf

theorem Withdraws.of_eq (h : f.Withdraws p) (hl : listingsOf q.trace = listingsOf p.trace)
    (hr : removalsOf q.trace = removalsOf p.trace) : f.Withdraws q :=
  ⟨hl ▸ h.listed, hl ▸ hr ▸ h.order⟩

section Course

variable {p₀ p₁ p₂ p₃ : Progress σ} {left : Leftover σ}
  (hn : (f.sources.map (·.location)).Nodup) (hl : c.locations = f.sources.map (·.location))
  (start : (begin_ c w).Noted p₀)

include hn hl start

theorem removals_visitSources {r : Except Failure (Leftover σ)}
    (h : go (f.visitSources c f.sources) p₀ = (r, q)) : removalsOf q.trace = [] := by
  have hsteps : PlainSteps f .survey (begin_ c w) q :=
    steps_survey hn (fun _ hs => hl ▸ List.mem_map_of_mem hs) start q.heard_true h
  rw [hsteps.removals (by simp)]
  rfl

theorem withdraws_evictSurplus {r : Except Failure (List Event)}
    (survey : go (f.visitSources c f.sources) p₀ = (.ok left, p₁))
    (h : go (f.evictSurplus left.surplus) p₁ = (r, q)) :
    f.Withdraws q ∧ ∀ events, r = .ok events →
      removalsOf q.trace = (listingsOf q.trace).flatMap f.surplusOf := by
  obtain ⟨ms, hms⟩ := visitSources_surveyed hn
    (start.cache ▸ fun s hs => hl ▸ List.mem_map_of_mem hs) survey
  have hlist : listingsOf q.trace = listingsOf ms := by
    have hsteps : PlainSteps f .clearance p₁ q := plainSteps_evictSurplus (fun _ h => h) survey h
    rw [hsteps.listings_eq (by simp), hms.listings, start.trace]
    rfl
  obtain ⟨done, hdone, hpre, hall⟩ := removals_evictSurplus h
  rw [removals_visitSources hn hl start survey, List.nil_append] at hdone
  rw [hms.surplus] at hpre hall
  refine ⟨⟨hlist ▸ hms.listed, ?_⟩, fun events hr => ?_⟩
  · rwa [hdone, hlist]
  · rw [hdone, hlist]
    exact hall events hr

end Course

/-- A cycle either is not through with its survey and has removed nothing, or it removes what it
found beyond the limits, all of it if it comes to its end. -/
theorem removals_cycle (hn : (f.sources.map (·.location)).Nodup)
    (hl : c.locations = f.sources.map (·.location)) :
    (removalsOf (f.cycle c w).2.trace = [] ∧ ¬ (f.cycle c w).1.completed) ∨
      f.Withdraws (f.cycle c w).2 ∧ ((f.cycle c w).1.completed → removalsOf (f.cycle c w).2.trace =
        (listingsOf (f.cycle c w).2.trace).flatMap f.surplusOf) := by
  obtain ⟨r, q, hr, hcycle, hend⟩ := cycle_noted f c w
  rw [hcycle.trace]
  have hwithdraws (h : f.Withdraws q) : f.Withdraws (f.cycle c w).2 :=
    h.of_eq (by rw [hcycle.trace]) (by rw [hcycle.trace])
  have hexpired {gone : List (String × List String)} {p₂ p₃ : Progress σ} {t}
      (h : go (f.evictExpired gone) p₂ = (t, p₃)) :
      listingsOf p₃.trace = listingsOf p₂.trace ∧ removalsOf p₃.trace = removalsOf p₂.trace := by
    have hsteps : PlainSteps f .clearance p₂ p₃ := plainSteps_evictExpired h
    have hsame := removals_evictExpired (f := f) gone p₂
    rw [h] at hsame
    exact ⟨hsteps.listings_eq (by simp), hsame⟩
  -- whatever comes after the removals, it neither lists nor removes anything
  cases coursed hr with
  | unsurveyed start survey =>
    exact .inl ⟨removals_visitSources hn hl start survey, fun hc => by simpa using hend hc⟩
  | surplusKept start survey surplus =>
    obtain ⟨h, -⟩ := withdraws_evictSurplus hn hl start survey surplus
    exact .inr ⟨hwithdraws h, fun hc => by simpa using hend hc⟩
  | expiredKept start survey surplus expired =>
    obtain ⟨h, -⟩ := withdraws_evictSurplus hn hl start survey surplus
    obtain ⟨hlist, hrem⟩ := hexpired expired
    exact .inr ⟨hwithdraws (h.of_eq hlist hrem), fun hc => by simpa using hend hc⟩
  | @through p₀ p₁ p₂ p₃ q left beyond gone start survey surplus expired close =>
    obtain ⟨h, hall⟩ := withdraws_evictSurplus hn hl start survey surplus
    obtain ⟨hlist, hrem⟩ := hexpired expired
    have hsteps : PlainSteps f .close p₃ q := steps_close close
    have hlist' := (hsteps.listings_eq (by simp)).trans hlist
    have hrem' := (hsteps.removals (by simp)).trans hrem
    refine .inr ⟨hwithdraws (h.of_eq hlist' hrem'), fun _ => ?_⟩
    rw [hlist', hrem']
    exact hall beyond rfl

section Cycle

variable (hn : (f.sources.map (·.location)).Nodup) (hl : c.locations = f.sources.map (·.location))

include hn hl

theorem order_removals : removalsOf (f.cycle c w).2.trace <+:
    (listingsOf (f.cycle c w).2.trace).flatMap f.surplusOf := by
  rcases removals_cycle (w := w) hn hl with ⟨hnone, -⟩ | ⟨h, -⟩
  · rw [hnone]
    exact List.nil_prefix
  · exact h.order

theorem nodup_listings (h : removalsOf (f.cycle c w).2.trace ≠ []) :
    ((listingsOf (f.cycle c w).2.trace).map Prod.fst).Nodup := by
  rcases removals_cycle (w := w) hn hl with ⟨hnone, -⟩ | ⟨h', -⟩
  · exact absurd hnone h
  · exact h'.listed ▸ hn

theorem listed_of_removal (h : (location, a) ∈ removalsOf (f.cycle c w).2.trace) :
    ∃ as, (location, .ok as) ∈ listingsOf (f.cycle c w).2.trace ∧
      ∃ position, as[position]? = some a ∧ f.policy.isBeyond position := by
  obtain ⟨⟨l, answer⟩, hlist, hx⟩ := List.mem_flatMap.mp ((order_removals hn hl).subset h)
  cases answer with
  | error e => cases hx
  | ok as =>
    obtain ⟨a', ha, he⟩ := List.mem_map.mp hx
    cases he
    exact ⟨as, hlist, Policy.mem_surplus.mp ha⟩

/-- Where an archive is removed, any listing of that location has it beyond the limit. -/
theorem answer_of_removal {answer : Except Failure (List Archive)}
    (h : (location, a) ∈ removalsOf (f.cycle c w).2.trace)
    (hm : (location, answer) ∈ listingsOf (f.cycle c w).2.trace) :
    ∃ as position, answer = .ok as ∧ as[position]? = some a ∧ f.policy.isBeyond position := by
  obtain ⟨as, hlist, position, hp, hb⟩ := listed_of_removal hn hl h
  have honce := nodup_listings hn hl (List.ne_nil_of_mem h)
  exact ⟨as, position, eq_of_mem_listings honce hlist hm, hp, hb⟩

theorem source_of_removal {m : Moment σ} {answer : Except Failure Unit}
    (hm : m ∈ (f.cycle c w).2.trace) (hd : m.deed = .remove location a answer) :
    ∃ s ∈ f.sources, s.location = location ∧ answer = (s.remove a m.world).1.outcome := by
  obtain ⟨phase, hdoes⟩ := does_cycle hn hl m hm
  cases hdoes with
  | remove hs =>
    cases hd
    exact ⟨_, hs, rfl, rfl⟩
  | transfer ht => simp [hd, Deed.isTransfer] at ht
  | _ => cases hd

/-- What is removed was listed by the same source, at a position that the limit leaves out. -/
theorem removal_asked {m : Moment σ} {answer : Except Failure Unit}
    (hm : m ∈ (f.cycle c w).2.trace) (hd : m.deed = .remove location a answer) :
    ∃ s ∈ f.sources, s.location = location ∧ answer = (s.remove a m.world).1.outcome ∧
      ∃ m' ∈ (f.cycle c w).2.trace, ∃ as, m'.deed = .list location (.ok as) ∧
        (s.list m'.world).1.outcome = .ok as ∧ f.policy.evictBeyondLimit ∧
        ∃ n position, f.policy.limit = .atMost n ∧ n ≤ position ∧ as[position]? = some a := by
  obtain ⟨as, hlist, position, hp, hb⟩ :=
    listed_of_removal hn hl (mem_removalsOf.mpr ⟨m, hm, answer, hd⟩)
  obtain ⟨m', hm', hd'⟩ := mem_listingsOf.mp hlist
  obtain ⟨hon, n, hlim, hle⟩ := Policy.isBeyond_iff.mp hb
  obtain ⟨s, hs, hloc, hanswer⟩ := source_of_removal hn hl hm hd
  obtain ⟨s', hs', hloc', hlisted⟩ := source_of_listing hn hl hm' hd'
  obtain rfl : s' = s := List.inj_on_of_nodup_map hn hs' hs (hloc'.trans hloc.symm)
  exact ⟨s', hs, hloc, hanswer, m', hm', as, hd', hlisted.symm, hon, n, position, hlim, hle, hp⟩

end Cycle

/-- What a cycle asks its sources to remove, and what becomes of that. -/
structure Removals (f : Fetcher σ) (x : Result × Progress σ) : Prop where
  /-- An archive is removed by the source that listed it in the same cycle, and beyond the limit. -/
  asked : ∀ m ∈ x.2.trace, ∀ location a answer, m.deed = .remove location a answer →
    ∃ s ∈ f.sources, s.location = location ∧ answer = (s.remove a m.world).1.outcome ∧
      ∃ m' ∈ x.2.trace, ∃ as, m'.deed = .list location (.ok as) ∧
        (s.list m'.world).1.outcome = .ok as ∧ f.policy.evictBeyondLimit ∧
        ∃ n position, f.policy.limit = .atMost n ∧ n ≤ position ∧ as[position]? = some a
  /-- Where the source is the one of a location, it removes what stands right there under the id of
  the job. -/
  paths : ∀ m ∈ x.2.trace, ∀ location a answer, m.deed = .remove location a answer →
    ∀ s ∈ f.sources, s.location = location →
    ∀ (τ : Type) (part : σ → Site τ) base objects text l,
      Source.Falters part (Site.source base objects text l) s →
      l.Offers a ∧ Site.Lost base objects a.path l (part m.world) (part (s.remove a m.world).2)
  order : removalsOf x.2.trace <+: (listingsOf x.2.trace).flatMap f.surplusOf
  all : x.1.completed →
    (listingsOf x.2.trace).map Prod.fst = f.sources.map (·.location) ∧
      removalsOf x.2.trace = (listingsOf x.2.trace).flatMap f.surplusOf
  once : ((removalsOf x.2.trace).map fun y => (y.1, y.2.job)).Nodup
  kept : ∀ location as, (location, .ok as) ∈ listingsOf x.2.trace →
    ∀ a ∈ f.policy.kept as, (location, a) ∉ removalsOf x.2.trace
  failed : ∀ location e, (location, .error e) ∈ listingsOf x.2.trace →
    ∀ a, (location, a) ∉ removalsOf x.2.trace
  expired : ∀ location as, (location, .ok as) ∈ listingsOf x.2.trace →
    ∀ job, (∀ a ∈ as, a.job ≠ job) → ∀ a, a.job = job → (location, a) ∉ removalsOf x.2.trace

/-- Archives are removed by retention alone, whatever the sources and the store do. -/
theorem removals_by_retention (run : f.Run drift w₀ history c w)
    (distinct : (f.cycle c w).2.DistinctListings) : f.Removals (f.cycle c w) := by
  have hn := run.accepted.nodup
  have hl := run.locations
  constructor
  case asked => exact fun m hm location a answer hd => removal_asked hn hl hm hd
  case paths =>
    intro m hm location a answer hd s hs hloc τ part base objects text l hf
    obtain ⟨s', hs', hloc', -, m', -, as, -, hout, -, n, position, -, -, hp⟩ :=
      removal_asked hn hl hm hd
    obtain rfl : s' = s := List.inj_on_of_nodup_map hn hs' hs (hloc'.trans hloc.symm)
    exact ⟨Site.offers_of_falters hf hout (List.mem_of_getElem? hp),
      Site.lost_of_falters hf a m.world⟩
  case order => exact order_removals hn hl
  case all =>
    intro hc
    rcases removals_cycle hn hl with ⟨-, hnot⟩ | ⟨h, hall⟩
    · exact absurd hc hnot
    · exact ⟨h.listed, hall hc⟩
  case once =>
    by_cases hx : removalsOf (f.cycle c w).2.trace = []
    · simp [hx]
    · have hnodup := nodup_overflow (f := f) distinct (nodup_listings hn hl hx)
      exact hnodup.sublist ((order_removals hn hl).sublist.map _)
  case kept =>
    intro location as hm a ha hx
    obtain ⟨as', position, he, hp, hb⟩ := answer_of_removal hn hl hx hm
    cases he
    obtain ⟨position', hk⟩ := List.getElem?_of_mem ha
    obtain ⟨hp', hw⟩ := Policy.getElem?_kept.mp hk
    exact hw (position_unique (distinct location _ hm) hp hp' rfl ▸ hb)
  case failed =>
    intro location e hm a hx
    obtain ⟨as, position, he, -⟩ := answer_of_removal hn hl hx hm
    cases he
  case expired =>
    rintro location as hm _ hgone a rfl hx
    obtain ⟨as', position, he, hp, -⟩ := answer_of_removal hn hl hx hm
    cases he
    exact hgone a (List.mem_of_getElem? hp) rfl

end Fetcher

section Shelved

def shelvedArchive (job : String) : Archive := ⟨job, "s3://shelf/a", "a/" ++ job, .zero⟩

def shelf : ObjectStore Bool where
  list _ _ := Operation.answer [⟨"a/00000000000000000000000000000001", .zero⟩, ⟨"a/readme", .zero⟩,
    ⟨"a/00000000000000000000000000000002", .zero⟩]
  read _ _ := Operation.answer "\x7b\"archive\":[]\x7d"
  delete _ _ := fun _ => (⟨.ok (), []⟩, true)

def shelved : Fetcher (Site Bool) where
  sources := [Site.source [] shelf "s3://shelf/a" (.bucket ⟨"shelf", "a/"⟩)]
  store := Site.store [] sampleConfig
  listener := none
  policy := ⟨.atMost 1, true, true⟩
  cycleBindings := []
  overviewBindings := []

def shelvedSite : Site Bool := (shelved.prepare blankSite).2

def shelvedCycle : Result × Progress (Site Bool) := shelved.cycle shelved.emptyCache shelvedSite

theorem run_shelved : shelved.Run (fun _ _ => False) blankSite [] shelved.emptyCache shelvedSite :=
  .prepared ⟨.ofInt 1, by decide⟩ rfl

theorem listingsOf_shelvedCycle : listingsOf shelvedCycle.2.trace =
    [("s3://shelf/a", .ok [shelvedArchive "00000000000000000000000000000001",
      shelvedArchive "00000000000000000000000000000002"])] := by
  decide +kernel

theorem distinct_shelvedCycle : shelvedCycle.2.DistinctListings := by
  intro location as h
  rw [listingsOf_shelvedCycle] at h
  simp only [List.mem_singleton, Prod.mk.injEq, Except.ok.injEq] at h
  rw [h.2]
  decide

theorem completed_shelvedCycle : shelvedCycle.1.completed := by
  decide +kernel

theorem removals_shelvedCycle :
    removalsOf shelvedCycle.2.trace =
        [("s3://shelf/a", shelvedArchive "00000000000000000000000000000002")] ∧
      ∀ m ∈ shelvedCycle.2.trace, ∀ location a answer, m.deed = .remove location a answer →
        (Location.bucket ⟨"shelf", "a/"⟩).Offers a := by
  have completed := completed_shelvedCycle
  have distinct := distinct_shelvedCycle
  have hlist := listingsOf_shelvedCycle
  unfold shelvedCycle at completed distinct hlist ⊢
  have removals := Fetcher.removals_by_retention run_shelved distinct
  constructor
  · rw [(removals.all completed).2, hlist]
    decide +kernel
  · intro m hm location a answer hd
    obtain ⟨s, hs, hloc, -⟩ := removals.asked m hm location a answer hd
    obtain rfl := List.mem_singleton.mp hs
    exact (removals.paths m hm location a answer hd _ hs hloc Bool id [] shelf _ _ (.refl _)).1

end Shelved

end ArchiveKeeper.Fetch
