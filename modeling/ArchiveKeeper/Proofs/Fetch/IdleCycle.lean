import ArchiveKeeper.ObjectStore.Memory
import ArchiveKeeper.Proofs.Fetch.Removal
import ArchiveKeeper.Proofs.Fetch.Account

namespace ArchiveKeeper.Fetch

open Act Progress

variable {σ : Type} {f : Fetcher σ} {s : Source σ} {a : Archive} {as : List Archive}
  {before : List String} {start c : Cache} {position : Nat} {p q : Progress σ} {w w₀ : σ}
  {drift : σ → σ → Prop} {history : List (Result × Progress σ)}

/-- The archives that a location may keep, if those beyond the limit can be told apart. -/
theorem Policy.filter_eq_kept {policy : Policy} {keep : Archive → Bool}
    (h : ∀ position a, as[position]? = some a → (keep a ↔ ¬ policy.isBeyond position)) :
    as.filter keep = policy.kept as := by
  unfold kept
  split
  · rename_i n hb hl
    have hbeyond {position : Nat} : policy.isBeyond position ↔ n ≤ position := by
      simp [isBeyond, hb, hl]
    have hfirst : (as.take n).filter keep = as.take n := by
      rw [List.filter_eq_self]
      intro a ha
      obtain ⟨position, hp⟩ := List.getElem?_of_mem ha
      rw [List.getElem?_take] at hp
      split at hp
      · rename_i hlt
        exact (h position a hp).mpr fun hw => absurd (hbeyond.mp hw) (Nat.not_le.mpr hlt)
      · cases hp
    have hrest : (as.drop n).filter keep = [] := by
      rw [List.filter_eq_nil_iff]
      intro a ha hkeep
      obtain ⟨position, hp⟩ := List.getElem?_of_mem ha
      rw [List.getElem?_drop] at hp
      exact (h _ a hp).mp hkeep (hbeyond.mpr (Nat.le_add_right n position))
    calc as.filter keep = (as.take n ++ as.drop n).filter keep := by rw [List.take_append_drop]
      _ = as.take n := by rw [List.filter_append, hfirst, hrest, List.append_nil]
  · rename_i hnone
    rw [List.filter_eq_self]
    intro a ha
    obtain ⟨position, hp⟩ := List.getElem?_of_mem ha
    refine (h position a hp).mpr fun hw => ?_
    obtain ⟨hb, n, hl, -⟩ := isBeyond_iff.mp hw
    exact hnone n hb hl

/-- The answers of the sources follow those of an earlier cycle: what that cycle removed is listed no
more, and nothing else has changed. -/
structure Progress.Follows (p q : Progress σ) : Prop where
  listed : ∀ location as, (location, .ok as) ∈ listingsOf p.trace →
    ∀ answer, (location, answer) ∈ listingsOf q.trace →
      answer = .ok (as.filter fun a => (location, a) ∉ removalsOf p.trace)
  failed : ∀ location e, (location, .error e) ∈ listingsOf p.trace →
    ∀ answer, (location, answer) ∈ listingsOf q.trace → ∃ e', answer = .error e'

/-- Between two points sources were listed and archives taken up, and nothing came of it. -/
structure Progress.Idle (p q : Progress σ) : Prop where
  cache : q.cache = p.cache
  created : q.created = p.created
  failedJobs : q.failedJobs = p.failedJobs
  deeds : Fetcher.Doing Deed.isLandmark p q

theorem Progress.Idle.trans {r : Progress σ} (h : p.Idle q) (h' : q.Idle r) : p.Idle r where
  cache := h'.cache.trans h.cache
  created := h'.created.trans h.created
  failedJobs := h'.failedJobs.trans h.failedJobs
  deeds := trans_of (Fetcher.Doing _) h.deeds h'.deeds

namespace Fetcher

/-- A cycle that does nothing but listing the sources and taking up their archives. -/
structure Idles (c : Cache) (x : Result × Progress σ) : Prop where
  completed : x.1.completed
  created : x.1.created = []
  deleted : x.1.deleted = []
  failedJobs : x.1.failedJobs = []
  deeds : ∀ m ∈ x.2.trace, m.deed.isLandmark ∨ m.deed = .deliver []
  cache : x.2.cache = c

/-- Nothing is to be done with a part of a listing that begins at a position: all that it names is
within the limit and known. -/
def Familiar (f : Fetcher σ) (before : List String) (position : Nat) (as : List Archive) : Prop :=
  ∀ x ∈ as.zipIdx position, ¬ f.policy.isBeyond x.2 ∧ x.1.job ∈ before

theorem Visited.idle {r : Except Failure Bool} (hw : ¬ f.policy.isBeyond position)
    (hk : a.job ∈ before) (h : Visited f s before position a p r q) :
    (∃ b, r = .ok b) ∧ p.Idle q := by
  cases h with
  | beyond hb => exact absurd hb hw
  | known => exact ⟨⟨_, rfl⟩, rfl, rfl, rfl, [_], rfl, by simp [Deed.isLandmark]⟩
  | shared _ hn => exact absurd hk hn
  | created _ hn => exact absurd hk hn
  | refused _ hn => exact absurd hk hn
  | broken _ hn => exact absurd hk hn

theorem idle_visitAll {r : Except Failure (List (Surplus σ))} (hf : f.Familiar before position as)
    (h : go (f.visitAll s before position as) p = (r, q)) : r = .ok [] ∧ p.Idle q := by
  induction as generalizing p position r with
  | nil =>
    cases h
    exact ⟨rfl, rfl, rfl, rfl, [], by simp, by simp⟩
  | cons a as ih =>
    obtain ⟨hw, hk⟩ := hf (a, position) (by simp)
    have hf' : f.Familiar before (position + 1) as := fun x hx => hf x (by simp [hx])
    obtain ⟨e, hv, -⟩ | ⟨b, p', t, hv, hgo, hr⟩ := visitAll_cons h
    · obtain ⟨⟨b, hb⟩, -⟩ := hv.idle hw hk
      cases hb
    · obtain ⟨rfl, hidle⟩ := ih hf' hgo
      refine ⟨?_, (hv.idle hw hk).2.trans hidle⟩
      show r = .ok []
      rw [hr]
      simp [Except.map, hw]

/-- Nothing is to be done at a source, whatever it answers among the listings at some point. -/
structure Dull (f : Fetcher σ) (start : Cache) (q : Progress σ) (s : Source σ) : Prop where
  familiar : ∀ as, (s.location, .ok as) ∈ listingsOf q.trace →
    f.Familiar (start.ids s.location) 0 as
  lasting : f.policy.evictExpired → ∀ as, (s.location, .ok as) ∈ listingsOf q.trace →
    ∀ id ∈ start.ids s.location, ∃ a ∈ as, a.job = id

theorem idle_listed (f : Fetcher σ) (s : Source σ) (p : Progress σ) : p.Idle (f.listed s p) :=
  ⟨rfl, rfl, rfl, [_], trace_asked _ _, by simp [Deed.isLandmark]⟩

theorem idle_missed (f : Fetcher σ) (s : Source σ) (e : Failure) (p : Progress σ) :
    p.Idle (f.missed s e p) :=
  ⟨rfl, rfl, rfl, (idle_listed f s p).deeds⟩

theorem Dull.expired_eq_nil (h : f.Dull start q s) (hexp : f.policy.evictExpired)
    (has : (s.location, .ok as) ∈ listingsOf q.trace) :
    ((start.ids s.location).filter fun job => as.all fun a => a.job ≠ job) = [] := by
  rw [List.filter_eq_nil_iff]
  intro id hid hall
  obtain ⟨a, ha, hj⟩ := h.lasting hexp as has id hid
  exact of_decide_eq_true (List.all_eq_true.mp hall a ha) hj

theorem idle_visitSources {ss : List (Source σ)} {r : Except Failure (Leftover σ)}
    (ahead : f.Ahead start ss p) (hd : ∀ s ∈ ss, f.Dull start q s)
    (h : go (f.visitSources start ss) p = (r, q)) :
    (∃ left, r = .ok left ∧ left.surplus = [] ∧
      (f.policy.evictExpired → ∀ g ∈ left.expired, g.2 = [])) ∧ p.Idle q := by
  induction ss generalizing p r with
  | nil =>
    cases h
    exact ⟨⟨_, rfl, rfl, fun _ => by simp⟩, rfl, rfl, rfl, [], by simp, by simp⟩
  | cons s ss ih =>
    obtain ⟨dull, hd'⟩ := List.forall_mem_cons.mp hd
    cases ho : (s.list p.world).1.outcome with
    | error e =>
      rw [go_visitSources_of_missed ho] at h
      obtain ⟨hleft, hidle⟩ := ih (ahead.missed e) hd' h
      exact ⟨hleft, (idle_missed f s e p).trans hidle⟩
    | ok as =>
      have hlisted : (s.location, .ok as) ∈ listingsOf (f.listed s p).trace := by
        rw [listings_listed ho]
        simp
      have hvisits {r p'}
          (hv : go (f.visitAll s (start.ids s.location) 0 as) (f.listed s p) = (r, p')) :
          PlainSteps f .survey (f.listed s p) p' ∧
            ∀ other, other ≠ s.location → p'.cache.ids other = (f.listed s p).cache.ids other :=
        steps_visitAll ahead.mem_sources ahead.listed.mem_locations False.elim
          (fun _ _ => trivial) hv
      -- the answer of this source is still known at the end, so nothing comes of its archives
      have hnone {r p'} (hv : go (f.visitAll s (start.ids s.location) 0 as) (f.listed s p) = (r, p'))
          (has : (s.location, .ok as) ∈ listingsOf q.trace) : r = .ok [] ∧ (f.listed s p).Idle p' :=
        idle_visitAll (dull.familiar as has) hv
      obtain ⟨e, hv, -⟩ | ⟨surplus, p', t, hv, hrest, hr⟩ := visitSources_of_listed ho h
      · cases (hnone hv ((hvisits hv).1.mem_listings hlisted)).1
      obtain ⟨hsteps, hothers⟩ := hvisits hv
      have ahead' : f.Ahead start ss p' := ahead.listed.after (Steps.locations hsteps) hothers
      have hafter : PlainSteps f .survey p' q := steps_visitSources ahead' (heard_true q) hrest
      have has : (s.location, .ok as) ∈ listingsOf q.trace :=
        hafter.mem_listings (Steps.mem_listings hsteps hlisted)
      obtain ⟨hsurplus, hidle⟩ := hnone hv has
      cases hsurplus
      obtain ⟨⟨left, rfl, hnil, hgone⟩, hidle'⟩ := ih ahead' hd' hrest
      refine ⟨⟨_, hr, hnil, fun hexp => ?_⟩, ((idle_listed f s p).trans hidle).trans hidle'⟩
      exact List.forall_mem_cons.mpr ⟨dull.expired_eq_nil hexp has, hgone hexp⟩

theorem toExpire_nothing {left : Leftover σ}
    (h : f.policy.evictExpired → ∀ g ∈ left.expired, g.2 = []) : ∀ g ∈ f.toExpire left, g.2 = [] := by
  unfold toExpire
  split
  · exact h ‹_›
  · simp

theorem go_evictExpired_of_nothing {gone : List (String × List String)} (h : ∀ g ∈ gone, g.2 = []) :
    go (f.evictExpired gone) p = (.ok [], p) := by
  induction gone with
  | nil => rfl
  | cons g gone ih =>
    obtain ⟨location, jobs⟩ := g
    obtain rfl : jobs = [] := h _ List.mem_cons_self
    rw [evictExpired, go_bind, show go (f.evictExpiredOf location []) p = (.ok [], p) from rfl]
    dsimp only
    rw [go_bind, ih fun g hg => h g (List.mem_cons_of_mem _ hg)]
    rfl

/-- The close of a cycle without events tells the listener so, if there is one. -/
theorem closed_nil (f : Fetcher σ) (p : Progress σ) :
    (f.closed [] p).cache = p.cache ∧ ∀ m ∈ (f.closed [] p).trace,
      m ∈ p.trace ∨ m.deed = .deliver [] := by
  unfold closed afterDelivery afterPublication
  split
  · exact ⟨rfl, fun m hm => .inl hm⟩
  · refine ⟨rfl, fun m hm => ?_⟩
    rw [trace_asked] at hm
    refine (List.mem_append.mp hm).imp_right fun hm => ?_
    rw [List.mem_singleton.mp hm]

theorem Dull.of_listings {q' : Progress σ}
    (hsub : ∀ l ∈ listingsOf q.trace, l ∈ listingsOf q'.trace) (h : f.Dull start q' s) :
    f.Dull start q s :=
  ⟨fun as has => h.familiar as (hsub _ has), fun hexp as has => h.lasting hexp as (hsub _ has)⟩

/-- A course in which nothing is to be done at any source goes from its survey to its close. -/
theorem idle_course {r : Except Failure (List String)} (hn : (f.sources.map (·.location)).Nodup)
    (hl : ∀ s ∈ f.sources, s.location ∈ p.cache.locations)
    (hd : ∀ s ∈ f.sources, f.Dull p.cache q s) (hnew : p.created = [])
    (h : go f.course p = (r, q)) : r = .ok [] ∧ ∃ q', p.Idle q' ∧ (f.closed [] q').Noted q := by
  -- however far the course comes, the listings of the survey are still known at its end
  have hsurvey {p₀ p₁ : Progress σ} {t} (start : p.Noted p₀)
      (survey : go (f.visitSources p.cache f.sources) p₀ = (t, p₁))
      (hsub : ∀ l ∈ listingsOf p₁.trace, l ∈ listingsOf q.trace) :
      (∃ left, t = .ok left ∧ left.surplus = [] ∧ ∀ g ∈ f.toExpire left, g.2 = []) ∧
        p.Idle p₁ := by
    obtain ⟨⟨left, hr, hnil, hgone⟩, hidle⟩ := idle_visitSources (.whole hn hl start.cache)
      (fun s hs => (hd s hs).of_listings hsub) survey
    have hstart : p.Idle p₀ := ⟨start.cache, start.created, start.failedJobs, [], by
      simp [start.trace], by simp⟩
    exact ⟨⟨left, hr, hnil, toExpire_nothing hgone⟩, hstart.trans hidle⟩
  cases coursed h with
  | unsurveyed start survey =>
    obtain ⟨⟨left, hleft, -⟩, -⟩ := hsurvey start survey fun _ h => h
    cases hleft
  | surplusKept start survey surplus =>
    have hsurplus := plainSteps_evictSurplus (fun _ h => h) survey surplus
    obtain ⟨⟨left, hleft, hnil, -⟩, -⟩ :=
      hsurvey start survey fun _ h => hsurplus.mem_listings h
    cases hleft
    rw [hnil] at surplus
    cases surplus
  | expiredKept start survey surplus expired =>
    have hclear := (plainSteps_evictSurplus (fun _ h => h) survey surplus).trans
      (plainSteps_evictExpired expired)
    obtain ⟨⟨left, hleft, -, hgone⟩, -⟩ :=
      hsurvey start survey fun _ h => Steps.mem_listings hclear h
    cases hleft
    rw [go_evictExpired_of_nothing hgone] at expired
    cases expired
  | @through p₀ p₁ p₂ p₃ q left beyond gone start survey surplus expired close =>
    have hclear := (plainSteps_evictSurplus (fun _ h => h) survey surplus).trans
      (plainSteps_evictExpired expired)
    have hclose : PlainSteps f .close p₃ q := steps_close close
    obtain ⟨⟨left', hleft, hnil, hgone⟩, hidle⟩ := hsurvey start survey fun _ h =>
      hclose.mem_listings (Steps.mem_listings hclear h)
    cases hleft
    rw [hnil] at surplus
    cases surplus
    rw [go_evictExpired_of_nothing hgone] at expired
    cases expired
    have hevents : eventsOf p₁.created [] [] = [] := by rw [hidle.created, hnew]; rfl
    rw [hevents] at close ⊢
    exact ⟨rfl, p₁, hidle, close⟩

/-- A cycle idles if nothing is to be done at any of its sources. -/
theorem idles_of_dull (hn : (f.sources.map (·.location)).Nodup)
    (hl : c.locations = f.sources.map (·.location))
    (hd : ∀ s ∈ f.sources, f.Dull c (f.cycle c w).2 s) : Idles c (f.cycle c w) := by
  obtain ⟨r, q, hr, hcycle, -⟩ := cycle_noted f c w
  have hd' : ∀ s ∈ f.sources, f.Dull c q s := fun s hs =>
    (hd s hs).of_listings fun _ h => hcycle.trace ▸ h
  obtain ⟨rfl, q', hidle, hclose⟩ := idle_course (p := begin_ c w) hn
    (fun s hs => hl ▸ List.mem_map_of_mem hs) hd' rfl hr
  have he : f.cycle c w = (⟨q.created, [], q.failedLocations, q.failedJobs, true⟩, q) := by
    simp [cycle, show f.course.run.run (begin_ c w) = (.ok [], q) from hr]
  obtain ⟨ms, ht, hms⟩ := hidle.deeds
  obtain ⟨hcache, hdeeds⟩ := closed_nil f q'
  -- without events the close publishes nothing and leaves the books alone
  have hbooks : (f.closed [] q').created = q'.created ∧
      (f.closed [] q').failedJobs = q'.failedJobs := by
    unfold closed afterDelivery afterPublication
    split <;> exact ⟨rfl, rfl⟩
  rw [he]
  constructor
  case completed => rfl
  case created => exact hclose.created.trans (hbooks.1.trans hidle.created)
  case deleted => rfl
  case failedJobs => exact hclose.failedJobs.trans (hbooks.2.trans hidle.failedJobs)
  case deeds =>
    intro m hm
    refine (hdeeds m (hclose.trace ▸ hm)).imp_left fun hm => ?_
    rw [ht] at hm
    exact hms m (by simpa [begin_] using hm)
  case cache => exact hclose.cache.trans (hcache.trans hidle.cache)

/-- After a cycle that comes to its end and in which no job fails, the next one idles, if it is given
the same listings without what was removed. -/
theorem next_cycle_idles (run : f.Run drift w₀ history c w)
    (distinct : (f.cycle c w).2.DistinctListings) (completed : (f.cycle c w).1.completed)
    (unfailed : (f.cycle c w).1.failedJobs = []) {w' : σ}
    (follows : (f.cycle c w).2.Follows (f.cycle (f.cycle c w).2.cache w').2) :
    Idles (f.cycle c w).2.cache (f.cycle (f.cycle c w).2.cache w') := by
  have hn := run.accepted.nodup
  have hl := run.locations
  have hl' : (f.cycle c w).2.cache.locations = f.sources.map (·.location) := run.cycled.locations
  obtain ⟨-, hnot⟩ | ⟨hw, hremoved⟩ := removals_cycle (w := w) hn hl
  · exact absurd completed hnot
  have hremoved := hremoved completed
  refine idles_of_dull hn hl' fun s hs => ?_
  have hmem : s.location ∈ (listingsOf (f.cycle c w).2.trace).map Prod.fst :=
    hw.listed ▸ List.mem_map_of_mem hs
  obtain ⟨⟨location, answer⟩, hlist, hloc⟩ := List.mem_map.mp hmem
  obtain rfl : location = s.location := hloc
  cases answer with
  | error e =>
    have hnone {as} (has : (s.location, .ok as) ∈
        listingsOf (f.cycle (f.cycle c w).2.cache w').2.trace) : False := by
      obtain ⟨e', he⟩ := follows.failed _ e hlist _ has
      cases he
    exact ⟨fun as has => (hnone has).elim, fun _ as has => (hnone has).elim⟩
  | ok as =>
    obtain ⟨hkept, honly⟩ := ids_of_unfailed hn hl completed distinct unfailed hs hlist
    -- removed was just what is beyond the limit, so that listed next is what may be kept
    have hfilter : (as.filter fun a =>
        (s.location, a) ∉ removalsOf (f.cycle c w).2.trace) = f.policy.kept as := by
      refine Policy.filter_eq_kept fun position a hp => ?_
      rw [decide_eq_true_eq, not_iff_not]
      constructor
      · intro hx
        obtain ⟨as', position', he, hp', hb⟩ := answer_of_removal hn hl hx hlist
        cases he
        exact position_unique (distinct _ as hlist) hp' hp rfl ▸ hb
      · intro hb
        rw [hremoved, List.mem_flatMap]
        exact ⟨_, hlist, List.mem_map_of_mem (Policy.mem_surplus.mpr ⟨position, hp, hb⟩)⟩
    have hsecond {bs} (has : (s.location, .ok bs) ∈
        listingsOf (f.cycle (f.cycle c w).2.cache w').2.trace) : bs = f.policy.kept as :=
      (Except.ok.inj (follows.listed _ as hlist _ has)).trans hfilter
    constructor
    case familiar =>
      intro bs has x hx
      rw [hsecond has] at hx
      have hp := List.mem_zipIdx_iff_getElem?.mp hx
      exact ⟨(Policy.getElem?_kept.mp hp).2, hkept _ (List.mem_of_getElem? hp)⟩
    case lasting =>
      intro hexp bs has id hid
      rw [hsecond has]
      exact honly hexp id hid

end Fetcher

section Turnover

def turnoverArchive (shelf job : String) : Archive :=
  ⟨job, "s3://shelf/" ++ shelf, shelf ++ "/" ++ job, .zero⟩

/-- Two shelves that share a job, and a location that is always down. -/
def turnover : Fetcher (Site ObjectStore.Memory) where
  sources := [Site.source [] ObjectStore.memory "s3://shelf/a" (.bucket ⟨"shelf", "a/"⟩),
    Site.source [] ObjectStore.memory "s3://shelf/b" (.bucket ⟨"shelf", "b/"⟩),
    offering "away" (fun _ => true) []]
  store := Site.store [] sampleConfig
  listener := some fun _ => Operation.answer ()
  policy := ⟨.atMost 1, true, true⟩
  cycleBindings := []
  overviewBindings := []

def turnoverObjects : ObjectStore.Memory :=
  [("a/", "00000000000000000000000000000001"), ("a/", "00000000000000000000000000000002"),
    ("b/", "00000000000000000000000000000001")].map fun x =>
      ⟨"shelf", x.1 ++ x.2, "\x7b\"archive\":[]\x7d", .zero⟩

def stockedSite : Site ObjectStore.Memory := ⟨.empty, .closed, turnoverObjects⟩

def turnoverSite : Site ObjectStore.Memory := (turnover.prepare stockedSite).2

def turnoverCycle : Result × Progress (Site ObjectStore.Memory) :=
  turnover.cycle turnover.emptyCache turnoverSite

def restingCycle : Result × Progress (Site ObjectStore.Memory) :=
  turnover.cycle turnoverCycle.2.cache turnoverCycle.2.world

theorem listingsOf_turnoverCycle : listingsOf turnoverCycle.2.trace =
    [("s3://shelf/a", .ok [turnoverArchive "a" "00000000000000000000000000000001",
        turnoverArchive "a" "00000000000000000000000000000002"]),
      ("s3://shelf/b", .ok [turnoverArchive "b" "00000000000000000000000000000001"]),
      ("away", .error (.listing "away"))] := by
  decide +kernel

theorem listingsOf_restingCycle : listingsOf restingCycle.2.trace =
    [("s3://shelf/a", .ok [turnoverArchive "a" "00000000000000000000000000000001"]),
      ("s3://shelf/b", .ok [turnoverArchive "b" "00000000000000000000000000000001"]),
      ("away", .error (.listing "away"))] := by
  decide +kernel

theorem removalsOf_turnoverCycle : removalsOf turnoverCycle.2.trace =
    [("s3://shelf/a", turnoverArchive "a" "00000000000000000000000000000002")] := by
  decide +kernel

theorem follows_restingCycle : turnoverCycle.2.Follows restingCycle.2 := by
  constructor
  case listed =>
    intro location as has answer hanswer
    rw [listingsOf_turnoverCycle] at has
    rw [listingsOf_restingCycle] at hanswer
    rw [removalsOf_turnoverCycle]
    simp only [List.mem_cons, Prod.mk.injEq, Except.ok.injEq, List.not_mem_nil, or_false,
      reduceCtorEq, and_false] at has
    rcases has with ⟨rfl, rfl⟩ | ⟨rfl, rfl⟩ <;>
      simp only [List.mem_cons, Prod.mk.injEq, true_and, String.reduceEq, false_and,
        List.not_mem_nil, or_false, false_or] at hanswer <;>
      rw [hanswer] <;> decide +kernel
  case failed =>
    intro location e has answer hanswer
    rw [listingsOf_turnoverCycle] at has
    rw [listingsOf_restingCycle] at hanswer
    simp only [List.mem_cons, Prod.mk.injEq, reduceCtorEq, and_false, List.not_mem_nil, or_false,
      false_or] at has
    rw [has.1] at hanswer
    simp only [List.mem_cons, Prod.mk.injEq, String.reduceEq, false_and, true_and, List.not_mem_nil,
      or_false, false_or] at hanswer
    exact ⟨_, hanswer⟩

theorem idles_restingCycle :
    turnoverCycle.1.created = ["00000000000000000000000000000001"] ∧
      Fetcher.Idles turnoverCycle.2.cache restingCycle := by
  have hlist := listingsOf_turnoverCycle
  have completed : turnoverCycle.1.completed := by decide +kernel
  have unfailed : turnoverCycle.1.failedJobs = [] := by decide +kernel
  have created : turnoverCycle.1.created = ["00000000000000000000000000000001"] := by decide +kernel
  have distinct : turnoverCycle.2.DistinctListings := by
    intro location as has
    rw [listingsOf_turnoverCycle] at has
    simp only [List.mem_cons, Prod.mk.injEq, Except.ok.injEq, List.not_mem_nil, or_false,
      reduceCtorEq, and_false] at has
    rcases has with ⟨-, rfl⟩ | ⟨-, rfl⟩ <;> decide
  have run : turnover.Run (fun _ _ => False) stockedSite [] turnover.emptyCache turnoverSite :=
    .prepared ⟨.ofInt 1, by decide⟩ rfl
  have follows := follows_restingCycle
  refine ⟨created, ?_⟩
  unfold restingCycle turnoverCycle at *
  exact Fetcher.next_cycle_idles run distinct completed unfailed follows

end Turnover

end ArchiveKeeper.Fetch
