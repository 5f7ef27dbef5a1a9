import ArchiveKeeper.Proofs.Fetch.Visit

namespace ArchiveKeeper.Fetch

open Act

variable {σ : Type} {f : Fetcher σ} {s : Source σ} {a : Archive} {as : List Archive}
  {before : List String} {start : Cache} {position : Nat} {other id : String} {p q : Progress σ}

def Deed.isLandmark : Deed → Bool
  | .visit .. | .list .. => true
  | _ => false

def Deed.listing? : Deed → Option (String × Except Failure (List Archive))
  | .list location answer => some (location, answer)
  | _ => none

/-- The answers of the sources that were listed at some moments, in their order. -/
def listingsOf (ms : List (Moment σ)) : List (String × Except Failure (List Archive)) :=
  ms.filterMap (·.deed.listing?)

/-- The archive of a location that is taken up, and its position. -/
def Deed.visit? (location : String) : Deed → Option (Archive × Nat)
  | .visit l position a => if l = location then some (a, position) else none
  | _ => none

/-- The archives of a location that were taken up at some moments, with their positions. -/
def visitsAt (location : String) (ms : List (Moment σ)) : List (Archive × Nat) :=
  ms.filterMap (·.deed.visit? location)

@[simp] theorem listingsOf_append (ms ms' : List (Moment σ)) :
    listingsOf (ms ++ ms') = listingsOf ms ++ listingsOf ms' := List.filterMap_append

theorem mem_listingsOf {ms : List (Moment σ)} {location : String}
    {answer : Except Failure (List Archive)} :
    (location, answer) ∈ listingsOf ms ↔ ∃ m ∈ ms, m.deed = .list location answer := by
  rw [listingsOf, List.mem_filterMap]
  refine exists_congr fun m => and_congr_right fun _ => ?_
  cases m.deed <;> simp [Deed.listing?]

@[simp] theorem listingsOf_cons_list (location : String) (answer : Except Failure (List Archive))
    (c : Cache) (w : σ) (ms : List (Moment σ)) :
    listingsOf (⟨.list location answer, c, w⟩ :: ms) = (location, answer) :: listingsOf ms := rfl

@[simp] theorem visitsAt_append (location : String) (ms ms' : List (Moment σ)) :
    visitsAt location (ms ++ ms') = visitsAt location ms ++ visitsAt location ms' :=
  List.filterMap_append

theorem mem_visitsAt {location : String} {ms : List (Moment σ)} :
    (a, position) ∈ visitsAt location ms ↔ ∃ m ∈ ms, m.deed = .visit location position a := by
  rw [visitsAt, List.mem_filterMap]
  refine exists_congr fun m => and_congr_right fun _ => ?_
  cases m.deed <;> simp [Deed.visit?]
  tauto

theorem visitsAt_eq_nil {location : String} {ms : List (Moment σ)}
    (h : ∀ m ∈ ms, ∀ position a, m.deed ≠ .visit location position a) :
    visitsAt location ms = [] := by
  rw [List.eq_nil_iff_forall_not_mem]
  rintro ⟨a, position⟩ hm
  obtain ⟨m, hm, hd⟩ := mem_visitsAt.mp hm
  exact h m hm position a hd

/-- The moments at which a listing is gone through are of its archives in their order. -/
theorem visitsAt_of_deeds {location : String} {ms : List (Moment σ)} {xs : List (Archive × Nat)}
    (h : ms.map Moment.deed = xs.map fun x => .visit location x.2 x.1) :
    visitsAt location ms = xs := by
  have hd : visitsAt location ms = (ms.map Moment.deed).filterMap (Deed.visit? location) := by
    rw [List.filterMap_map]
    rfl
  rw [hd, h, List.filterMap_map]
  simp [Function.comp_def, Deed.visit?]

namespace Progress

def landmarks (p : Progress σ) : List (Moment σ) := p.trace.filter (·.deed.isLandmark)

theorem listingsOf_landmarks (p : Progress σ) : listingsOf p.landmarks = listingsOf p.trace := by
  rw [listingsOf, landmarks, listingsOf, List.filterMap_filter]
  congr 1
  funext m
  cases m.deed <;> rfl

theorem visitsAt_landmarks (location : String) (p : Progress σ) :
    visitsAt location p.landmarks = visitsAt location p.trace := by
  rw [visitsAt, landmarks, visitsAt, List.filterMap_filter]
  congr 1
  funext m
  cases m.deed <;> rfl

end Progress

/-- The archives beyond the limit in a part of a listing that begins at a position. -/
def Policy.surplus (policy : Policy) (position : Nat) (as : List Archive) : List Archive :=
  ((as.zipIdx position).filter fun x => policy.isBeyond x.2).map Prod.fst

@[simp] theorem Policy.surplus_nil (policy : Policy) : policy.surplus position [] = [] := rfl

theorem Policy.surplus_cons (policy : Policy) :
    policy.surplus position (a :: as) =
      if policy.isBeyond position then a :: policy.surplus (position + 1) as
      else policy.surplus (position + 1) as := by
  simp only [surplus, List.zipIdx_cons, List.filter_cons]
  split <;> rfl

theorem Policy.mem_surplus {policy : Policy} :
    a ∈ policy.surplus 0 as ↔ ∃ position, as[position]? = some a ∧ policy.isBeyond position := by
  simp [surplus, List.mem_zipIdx_iff_getElem?]

theorem Policy.surplus_sublist (policy : Policy) : (policy.surplus position as).Sublist as := by
  induction as generalizing position with
  | nil => exact .refl _
  | cons a as ih =>
    rw [surplus_cons]
    split
    · exact ih.cons_cons a
    · exact ih.cons a

namespace Fetcher

theorem Visited.landmarks {r : Except Failure Bool} (h : Visited f s before position a p r q) :
    q.landmarks = p.landmarks ++ [⟨.visit s.location position a, p.cache, p.world⟩] := by
  obtain ⟨ms, ht, hms⟩ := h.trace
  have hquiet : ms.filter (·.deed.isLandmark) = [] := by
    rw [List.filter_eq_nil_iff]
    intro m hm
    have hm := hms m hm
    cases hd : m.deed <;> simp_all [Deed.isTransfer, Deed.isLandmark]
  rw [Progress.landmarks, ht, List.filter_append, List.filter_cons_of_pos rfl, hquiet]
  rfl

theorem Visited.beyond_eq {b : Bool} (h : Visited f s before position a p (.ok b) q) :
    b = f.policy.isBeyond position := by
  cases h with
  | beyond hb => exact hb.symm
  | known hw => simpa using hw
  | shared hw => simpa using hw
  | created hw => simpa using hw
  | refused hw => simpa using hw

theorem visitAll_cons {r : Except Failure (List (Surplus σ))}
    (h : go (f.visitAll s before position (a :: as)) p = (r, q)) :
    (∃ e, Visited f s before position a p (.error e) q ∧ r = .error e) ∨
      ∃ b p' t, Visited f s before position a p (.ok b) p' ∧
        go (f.visitAll s before (position + 1) as) p' = (t, q) ∧
        r = t.map fun more => if f.policy.isBeyond position then ⟨s, a⟩ :: more else more := by
  rw [visitAll] at h
  obtain ⟨e, hv, hr⟩ | ⟨b, p', hv, h⟩ := go_bind_cases h
  · exact .inl ⟨e, visited hv, hr⟩
  · have hb := (visited hv).beyond_eq
    obtain ⟨e, hm, hr⟩ | ⟨more, p'', hm, h⟩ := go_bind_cases h
    · exact .inr ⟨b, p', _, visited hv, hm, hr⟩
    · cases h
      exact .inr ⟨b, p', _, visited hv, hm, by rw [hb]; rfl⟩

theorem visitAll_cons_ok {surplus : List (Surplus σ)}
    (h : go (f.visitAll s before position (a :: as)) p = (.ok surplus, q)) :
    ∃ b p' more, Visited f s before position a p (.ok b) p' ∧
      go (f.visitAll s before (position + 1) as) p' = (.ok more, q) ∧
      surplus = if f.policy.isBeyond position then ⟨s, a⟩ :: more else more := by
  obtain ⟨e, -, hr⟩ | ⟨b, p', t, hv, hgo, hr⟩ := visitAll_cons h
  · cases hr
  cases t with
  | error e => cases hr
  | ok more =>
    cases hr
    exact ⟨b, p', more, hv, hgo, rfl⟩

/-- At a moment of a survey an archive is taken up by which a location comes to hold a job. -/
def Acquires (f : Fetcher σ) (s : Source σ) (before : List String) (id : String) (m : Moment σ) :
    Prop :=
  ∃ position a, m.deed = .visit s.location position a ∧ a.job = id ∧
    ¬ f.policy.isBeyond position ∧ id ∉ before ∧
    (m.cache.heldElsewhere s.location id ∨ f.Loads s a m.world)

theorem not_acquires_list {location : String} {answer : Except Failure (List Archive)} {c : Cache}
    {w : σ} : ¬ f.Acquires s before id ⟨.list location answer, c, w⟩ := by
  rintro ⟨position, a, hd, -⟩
  cases hd

/-- The archives of a listing, from a position on, were taken up at some moments. -/
structure Surveyed (f : Fetcher σ) (s : Source σ) (before : List String) (position : Nat)
    (as : List Archive) (p q : Progress σ) (ms : List (Moment σ)) : Prop where
  landmarks : q.landmarks = p.landmarks ++ ms
  deeds : ms.map Moment.deed = (as.zipIdx position).map fun x => .visit s.location x.2 x.1
  locations : q.cache.locations = p.cache.locations
  others : ∀ other, other ≠ s.location → q.cache.ids other = p.cache.ids other
  ids : ∀ id, id ∈ q.cache.ids s.location ↔
    id ∈ p.cache.ids s.location ∨ ∃ m ∈ ms, f.Acquires s before id m

theorem visitAll_surveyed {surplus : List (Surplus σ)}
    (h : go (f.visitAll s before position as) p = (.ok surplus, q))
    (hl : s.location ∈ p.cache.locations) :
    surplus = (f.policy.surplus position as).map (⟨s, ·⟩) ∧
      ∃ ms, Surveyed f s before position as p q ms := by
  induction as generalizing position p surplus with
  | nil =>
    cases h
    exact ⟨rfl, [], by simp, rfl, rfl, fun _ _ => rfl, by simp⟩
  | cons a as ih =>
    obtain ⟨b, p', more, hv, hgo, rfl⟩ := visitAll_cons_ok h
    obtain ⟨hmore, ms, hms⟩ := ih hgo (hv.locations ▸ hl)
    refine ⟨?_, ⟨.visit s.location position a, p.cache, p.world⟩ :: ms, ?_⟩
    · rw [Policy.surplus_cons, hmore]
      split <;> rfl
    constructor
    · rw [hms.landmarks, hv.landmarks, List.append_assoc, List.singleton_append]
    · rw [List.map_cons, hms.deeds, List.zipIdx_cons, List.map_cons]
    · exact hms.locations.trans hv.locations
    · intro other ho
      exact (hms.others other ho).trans (hv.ids_of_ne ho)
    · intro id
      rw [hms.ids, hv.mem_ids hl, or_assoc, List.exists_mem_cons_iff]
      refine or_congr_right (or_congr_left ?_)
      constructor
      · rintro ⟨rfl, hw, hn, h⟩
        exact ⟨position, a, rfl, rfl, hw, hn, h⟩
      · rintro ⟨position', a', hd, rfl, hw, hn, h⟩
        cases hd
        exact ⟨rfl, hw, hn, h⟩

def listed (f : Fetcher σ) (s : Source σ) (p : Progress σ) : Progress σ :=
  (p.said ((Log.debug "Checking archive directory"
    [("location", .str s.location)]).bind f.cycleBindings)).asked (.list s.location) s.list

def missed (f : Fetcher σ) (s : Source σ) (e : Failure) (p : Progress σ) : Progress σ :=
  { (f.listed s p).said ((Log.error "Failed to access job archive location"
      [("location", .str s.location), ("err", .str e.message)]).bind f.cycleBindings) with
    failedLocations := p.failedLocations ++ [s.location] }

theorem landmarks_listed (f : Fetcher σ) (s : Source σ) (p : Progress σ) :
    (f.listed s p).landmarks =
      p.landmarks ++ [⟨.list s.location (s.list p.world).1.outcome, p.cache, p.world⟩] := by
  simp [listed, Progress.landmarks, Deed.isLandmark]

theorem landmarks_missed (f : Fetcher σ) (s : Source σ) (e : Failure) (p : Progress σ) :
    (f.missed s e p).landmarks =
      p.landmarks ++ [⟨.list s.location (s.list p.world).1.outcome, p.cache, p.world⟩] :=
  landmarks_listed f s p

theorem go_visitSources_of_missed {ss : List (Source σ)} {e : Failure}
    (h : (s.list p.world).1.outcome = .error e) :
    go (f.visitSources start (s :: ss)) p = go (f.visitSources start ss) (f.missed s e p) := by
  rw [visitSources, go_bind, go_say]
  dsimp only
  rw [go_bind, go_ask]
  simp only [Progress.world_said, h, go_bind, go_say, go_modify]
  rfl

theorem visitSources_of_listed {ss : List (Source σ)} {r : Except Failure (Leftover σ)}
    (hl : (s.list p.world).1.outcome = .ok as)
    (h : go (f.visitSources start (s :: ss)) p = (r, q)) :
    (∃ e, go (f.visitAll s (start.ids s.location) 0 as) (f.listed s p) = (.error e, q) ∧
        r = .error e) ∨
      ∃ surplus p' t,
        go (f.visitAll s (start.ids s.location) 0 as) (f.listed s p) = (.ok surplus, p') ∧
        go (f.visitSources start ss) p' = (t, q) ∧
        r = t.map fun left => ⟨surplus ++ left.surplus, (s.location,
          (start.ids s.location).filter fun job => as.all fun a => a.job ≠ job) :: left.expired⟩ := by
  rw [visitSources, go_bind, go_say] at h
  dsimp only at h
  rw [go_bind, go_ask] at h
  simp only [Progress.world_said, hl] at h
  obtain ⟨e, hv, hr⟩ | ⟨surplus, p', hv, h⟩ := go_bind_cases h
  · exact .inl ⟨e, hv, hr⟩
  · obtain ⟨e, hm, hr⟩ | ⟨left, q', hm, h⟩ := go_bind_cases h
    · exact .inr ⟨surplus, p', _, hv, hm, hr⟩
    · cases h
      exact .inr ⟨surplus, p', _, hv, hm, rfl⟩

theorem visitSources_of_listed_ok {ss : List (Source σ)} {left : Leftover σ}
    (hl : (s.list p.world).1.outcome = .ok as)
    (h : go (f.visitSources start (s :: ss)) p = (.ok left, q)) :
    ∃ surplus p' rest,
      go (f.visitAll s (start.ids s.location) 0 as) (f.listed s p) = (.ok surplus, p') ∧
      go (f.visitSources start ss) p' = (.ok rest, q) ∧
      left = ⟨surplus ++ rest.surplus, (s.location,
        (start.ids s.location).filter fun job => as.all fun a => a.job ≠ job) :: rest.expired⟩ := by
  obtain ⟨e, -, hr⟩ | ⟨surplus, p', t, hv, hrest, hr⟩ := visitSources_of_listed hl h
  · cases hr
  cases t with
  | error e => cases hr
  | ok rest =>
    cases hr
    exact ⟨surplus, p', rest, hv, hrest, rfl⟩

def surplusOf (f : Fetcher σ) : String × Except Failure (List Archive) → List (String × Archive)
  | (location, .ok as) => (f.policy.surplus 0 as).map (location, ·)
  | (_, .error _) => []

def goneOf (start : Cache) :
    String × Except Failure (List Archive) → Option (String × List String)
  | (location, .ok as) =>
    some (location, (start.ids location).filter fun job => as.all fun a => a.job ≠ job)
  | (_, .error _) => none

def place? : Deed → Option String
  | .visit location .. | .list location _ => some location
  | _ => none

/-- The sources were surveyed at some moments, which left something to be done. -/
structure SurveyedAll (f : Fetcher σ) (start : Cache) (ss : List (Source σ)) (p q : Progress σ)
    (left : Leftover σ) (ms : List (Moment σ)) : Prop where
  landmarks : q.landmarks = p.landmarks ++ ms
  places : ∀ m ∈ ms, ∃ s ∈ ss, place? m.deed = some s.location
  listed : (listingsOf ms).map Prod.fst = ss.map (·.location)
  surplus : left.surplus.map (fun x => (x.source.location, x.archive)) =
    (listingsOf ms).flatMap f.surplusOf
  expired : left.expired = (listingsOf ms).filterMap (goneOf start)
  locations : q.cache.locations = p.cache.locations
  others : ∀ other, other ∉ ss.map (·.location) → q.cache.ids other = p.cache.ids other
  failed : ∀ s ∈ ss, ∀ e, (s.location, .error e) ∈ listingsOf ms →
    q.cache.ids s.location = p.cache.ids s.location
  visits : ∀ s ∈ ss, ∀ as, (s.location, .ok as) ∈ listingsOf ms →
    visitsAt s.location ms = as.zipIdx
  ids : ∀ s ∈ ss, ∀ as, (s.location, .ok as) ∈ listingsOf ms →
    ∀ id, id ∈ q.cache.ids s.location ↔
      id ∈ p.cache.ids s.location ∨ ∃ m ∈ ms, f.Acquires s (start.ids s.location) id m

theorem Surveyed.visit_of_mem {ms : List (Moment σ)} (h : Surveyed f s before position as p q ms)
    {m : Moment σ} (hm : m ∈ ms) :
    ∃ x ∈ as.zipIdx position, m.deed = .visit s.location x.2 x.1 := by
  have hd : m.deed ∈ ms.map Moment.deed := List.mem_map_of_mem hm
  rw [h.deeds] at hd
  obtain ⟨x, hx, he⟩ := List.mem_map.mp hd
  exact ⟨x, hx, he.symm⟩

/-- The archives that are taken up are those of the location whose listing is gone through. -/
theorem Surveyed.location_of_visit {ms : List (Moment σ)} {location : String} {position' : Nat}
    (h : Surveyed f s before position as p q ms) {m : Moment σ} (hm : m ∈ ms)
    (hd : m.deed = .visit location position' a) : location = s.location := by
  obtain ⟨x, -, he⟩ := h.visit_of_mem hm
  rw [hd] at he
  exact (Deed.visit.inj he).1

theorem Surveyed.not_acquires {ms : List (Moment σ)} {s' : Source σ} {before' : List String}
    (h : Surveyed f s before position as p q ms) (hne : s'.location ≠ s.location) :
    ¬ ∃ m ∈ ms, f.Acquires s' before' id m := by
  rintro ⟨m, hm, position', a, hd, -⟩
  exact hne (h.location_of_visit hm hd)

theorem Surveyed.listings {ms : List (Moment σ)} (h : Surveyed f s before position as p q ms) :
    listingsOf ms = [] := by
  rw [listingsOf, List.filterMap_eq_nil_iff]
  intro m hm
  obtain ⟨x, -, he⟩ := h.visit_of_mem hm
  rw [he]
  rfl

namespace SurveyedAll

variable {ss : List (Source σ)} {left : Leftover σ} {ms : List (Moment σ)}

theorem no_visit (h : SurveyedAll f start ss p q left ms) (hs : s.location ∉ ss.map (·.location))
    {m : Moment σ} (hm : m ∈ ms) : m.deed ≠ .visit s.location position a := by
  intro hd
  obtain ⟨s', hs', hp⟩ := h.places m hm
  rw [hd] at hp
  exact hs (Option.some.inj hp ▸ List.mem_map_of_mem hs')

theorem not_acquires (h : SurveyedAll f start ss p q left ms)
    (hs : s.location ∉ ss.map (·.location)) : ¬ ∃ m ∈ ms, f.Acquires s before id m := by
  rintro ⟨m, hm, position, a, hd, -⟩
  exact h.no_visit hs hm hd

theorem of_noted {p' : Progress σ} (hp : p.Noted p')
    (h : SurveyedAll f start ss p' q left ms) : SurveyedAll f start ss p q left ms where
  landmarks := by rw [h.landmarks, Progress.landmarks, hp.trace, Progress.landmarks]
  places := h.places
  listed := h.listed
  surplus := h.surplus
  expired := h.expired
  locations := h.locations.trans (by rw [hp.cache])
  others other ho := (h.others other ho).trans (by rw [hp.cache])
  failed s hs e he := (h.failed s hs e he).trans (by rw [hp.cache])
  visits := h.visits
  ids s hs as hm id := by rw [h.ids s hs as hm, hp.cache]

theorem mem_of_listing (h : SurveyedAll f start ss p q left ms) {location : String}
    {answer : Except Failure (List Archive)}
    (hm : (location, answer) ∈ listingsOf ms) :
    location ∈ ss.map (·.location) := h.listed ▸ List.mem_map_of_mem hm

/-- Where one more source is listed first, an answer is the one of that source, or one of the others
behind it. -/
theorem mem_cons_listing (h : SurveyedAll f start ss p q left ms)
    (hs : s.location ∉ ss.map (·.location)) {s' : Source σ} (hs' : s' ∈ s :: ss)
    {first answer : Except Failure (List Archive)}
    (hm : (s'.location, answer) ∈ (s.location, first) :: listingsOf ms) :
    s' = s ∧ answer = first ∨
      s' ∈ ss ∧ s'.location ≠ s.location ∧ (s'.location, answer) ∈ listingsOf ms := by
  rcases List.mem_cons.mp hs' with rfl | hs'
  · rcases List.mem_cons.mp hm with he | hm
    · exact .inl ⟨rfl, (Prod.mk.inj he).2⟩
    · exact absurd (h.mem_of_listing hm) hs
  · have hne : s'.location ≠ s.location := fun he => hs (he ▸ List.mem_map_of_mem hs')
    rcases List.mem_cons.mp hm with he | hm
    · exact absurd (Prod.mk.inj he).1 hne
    · exact .inr ⟨hs', hne, hm⟩

theorem nil : SurveyedAll f start [] p p ⟨[], []⟩ [] where
  landmarks := by simp
  places := by simp
  listed := rfl
  surplus := rfl
  expired := rfl
  locations := rfl
  others _ _ := rfl
  failed := by simp
  visits := by simp
  ids := by simp

theorem cons_missed {e : Failure} (hs : s.location ∉ ss.map (·.location))
    (hl : (s.list p.world).1.outcome = .error e)
    (h : SurveyedAll f start ss (f.missed s e p) q left ms) :
    SurveyedAll f start (s :: ss) p q left
      (⟨.list s.location (.error e), p.cache, p.world⟩ :: ms) := by
  -- a source that fails adds its answer to the listings, and nothing else
  constructor
  case landmarks => rw [h.landmarks, landmarks_missed, hl, List.append_assoc, List.singleton_append]
  case places =>
    intro m hmem
    rcases List.mem_cons.mp hmem with rfl | hmem
    · exact ⟨s, by simp, rfl⟩
    · obtain ⟨s', hs', hp⟩ := h.places m hmem
      exact ⟨s', by simp [hs'], hp⟩
  case listed => rw [listingsOf_cons_list, List.map_cons, List.map_cons, h.listed]
  case surplus =>
    rw [listingsOf_cons_list, List.flatMap_cons, h.surplus]
    rfl
  case expired => rw [listingsOf_cons_list, List.filterMap_cons_none rfl, h.expired]
  case locations => exact h.locations
  case others =>
    intro other ho
    exact h.others other fun hm => ho (by simp [hm])
  case failed =>
    intro s' hs' e' hmem
    obtain ⟨rfl, -⟩ | ⟨hs', -, hmem⟩ := h.mem_cons_listing hs hs' hmem
    · exact h.others _ hs
    · exact h.failed s' hs' e' hmem
  case visits =>
    intro s' hs' as hmem
    obtain ⟨-, he⟩ | ⟨hs', -, hmem⟩ := h.mem_cons_listing hs hs' hmem
    · cases he
    · rw [← h.visits s' hs' as hmem]
      rfl
  case ids =>
    intro s' hs' as hmem id
    obtain ⟨-, he⟩ | ⟨hs', -, hmem⟩ := h.mem_cons_listing hs hs' hmem
    · cases he
    · rw [h.ids s' hs' as hmem, List.exists_mem_cons_iff, or_iff_right not_acquires_list]
      rfl

theorem cons_listed {surplus : List (Surplus σ)} {vs : List (Moment σ)} {p' : Progress σ}
    (hs : s.location ∉ ss.map (·.location)) (hl : (s.list p.world).1.outcome = .ok as)
    (hsur : surplus = (f.policy.surplus 0 as).map (⟨s, ·⟩))
    (hv : Surveyed f s (start.ids s.location) 0 as (f.listed s p) p' vs)
    (h : SurveyedAll f start ss p' q left ms) :
    SurveyedAll f start (s :: ss) p q
      ⟨surplus ++ left.surplus, (s.location,
        (start.ids s.location).filter fun job => as.all fun a => a.job ≠ job) :: left.expired⟩
      (⟨.list s.location (.ok as), p.cache, p.world⟩ :: (vs ++ ms)) := by
  have hlist : listingsOf (⟨.list s.location (.ok as), p.cache, p.world⟩ :: (vs ++ ms)) =
      (s.location, .ok as) :: listingsOf ms := by
    rw [listingsOf_cons_list, listingsOf_append, hv.listings, List.nil_append]
  have hcache : (f.listed s p).cache = p.cache := rfl
  -- listing acquires nothing: it is either from this listing or from one of the others
  have hacquired {s' : Source σ} {id : String} :
      (∃ m ∈ (⟨.list s.location (.ok as), p.cache, p.world⟩ : Moment σ) :: (vs ++ ms),
        f.Acquires s' (start.ids s'.location) id m) ↔
      (∃ m ∈ vs, f.Acquires s' (start.ids s'.location) id m) ∨
        ∃ m ∈ ms, f.Acquires s' (start.ids s'.location) id m := by
    rw [List.exists_mem_cons_iff, or_iff_right not_acquires_list]
    simp only [List.mem_append, or_and_right, exists_or]
  constructor
  case landmarks =>
    rw [h.landmarks, hv.landmarks, landmarks_listed, hl]
    simp only [List.append_assoc, List.cons_append, List.nil_append]
  case places =>
    intro m hmem
    simp only [List.mem_cons, List.mem_append] at hmem
    rcases hmem with rfl | hmem | hmem
    · exact ⟨s, by simp, rfl⟩
    · obtain ⟨x, -, he⟩ := hv.visit_of_mem hmem
      exact ⟨s, by simp, by rw [he]; rfl⟩
    · obtain ⟨s', hs', hp⟩ := h.places m hmem
      exact ⟨s', by simp [hs'], hp⟩
  case listed => rw [hlist, List.map_cons, List.map_cons, h.listed]
  case surplus =>
    rw [hlist, List.flatMap_cons, ← h.surplus, List.map_append, hsur, List.map_map]
    rfl
  case expired =>
    rw [hlist]
    exact congrArg (List.cons _) h.expired
  case locations => exact h.locations.trans hv.locations
  case others =>
    intro other ho
    rw [List.map_cons, List.mem_cons, not_or] at ho
    exact (h.others other ho.2).trans (hv.others other ho.1)
  case failed =>
    intro s' hs' e' hmem
    obtain ⟨-, he⟩ | ⟨hs', hne, hmem⟩ := h.mem_cons_listing hs hs' (hlist ▸ hmem)
    · cases he
    · exact (h.failed s' hs' e' hmem).trans (hv.others _ hne)
  case visits =>
    intro s' hs' as' hmem
    change visitsAt s'.location (vs ++ ms) = _
    rw [visitsAt_append]
    obtain ⟨rfl, he⟩ | ⟨hs', hne, hmem⟩ := h.mem_cons_listing hs hs' (hlist ▸ hmem)
    · cases he
      rw [visitsAt_of_deeds hv.deeds, visitsAt_eq_nil fun m hm _ _ => h.no_visit hs hm,
        List.append_nil]
    · rw [← h.visits s' hs' as' hmem, visitsAt_eq_nil, List.nil_append]
      exact fun m hm position a hd => hne (hv.location_of_visit hm hd)
  case ids =>
    intro s' hs' as' hmem id
    obtain ⟨rfl, -⟩ | ⟨hs', hne, hmem⟩ := h.mem_cons_listing hs hs' (hlist ▸ hmem)
    · rw [h.others _ hs, hv.ids, hcache, hacquired, or_iff_left (h.not_acquires hs)]
    · rw [h.ids s' hs' as' hmem, hv.others _ hne, hcache, hacquired,
        or_iff_right (hv.not_acquires hne)]

theorem listings (h : SurveyedAll f start ss p q left ms) :
    listingsOf q.trace = listingsOf p.trace ++ listingsOf ms := by
  rw [← Progress.listingsOf_landmarks, h.landmarks, listingsOf_append,
    Progress.listingsOf_landmarks]

theorem mem_listings (h : SurveyedAll f start ss p q left ms)
    {l : String × Except Failure (List Archive)} (hl : l ∈ listingsOf ms) :
    l ∈ listingsOf q.trace :=
  h.listings ▸ List.mem_append_right _ hl

theorem mem_listing_of_surplus (h : SurveyedAll f start ss p q left ms) {x : Surplus σ}
    (hx : x ∈ left.surplus) :
    ∃ as, (x.source.location, .ok as) ∈ listingsOf q.trace ∧ x.archive ∈ as := by
  have hm := List.mem_map_of_mem (f := fun x : Surplus σ => (x.source.location, x.archive)) hx
  rw [h.surplus] at hm
  obtain ⟨⟨l, answer⟩, hl, hm⟩ := List.mem_flatMap.mp hm
  cases answer with
  | error e => cases hm
  | ok as =>
    obtain ⟨a, ha, he⟩ := List.mem_map.mp hm
    cases he
    obtain ⟨position, hp, -⟩ := Policy.mem_surplus.mp ha
    exact ⟨as, h.mem_listings hl, List.mem_of_getElem? hp⟩

theorem mem_ids_of_expired (h : SurveyedAll f start ss p q left ms) {g : String × List String}
    (hg : g ∈ left.expired) {job : String} (hj : job ∈ g.2) : job ∈ start.ids g.1 := by
  rw [h.expired] at hg
  obtain ⟨⟨l, answer⟩, -, hg⟩ := List.mem_filterMap.mp hg
  cases answer with
  | error e => cases hg
  | ok as =>
    cases hg
    exact (List.mem_filter.mp hj).1

theorem mem_ids_of_mem (h : SurveyedAll f start ss p q left ms) {location : String}
    (hid : id ∈ p.cache.ids location) : id ∈ q.cache.ids location := by
  by_cases hl : location ∈ ss.map (·.location)
  · obtain ⟨s, hs, rfl⟩ := List.mem_map.mp hl
    obtain ⟨⟨l, answer⟩, hlist, rfl⟩ := List.mem_map.mp (h.listed ▸ hl)
    cases answer with
    | error e => rwa [h.failed s hs e hlist]
    | ok as => exact (h.ids s hs as hlist id).mpr (.inl hid)
  · rwa [h.others location hl]

end SurveyedAll

theorem visitSources_surveyed {ss : List (Source σ)} {left : Leftover σ}
    (hn : (ss.map (·.location)).Nodup) (hl : ∀ s ∈ ss, s.location ∈ p.cache.locations)
    (h : go (f.visitSources start ss) p = (.ok left, q)) :
    ∃ ms, SurveyedAll f start ss p q left ms := by
  induction ss generalizing p left with
  | nil =>
    cases h
    exact ⟨[], .nil⟩
  | cons s ss ih =>
    rw [List.map_cons, List.nodup_cons] at hn
    cases ho : (s.list p.world).1.outcome with
    | error e =>
      rw [go_visitSources_of_missed ho] at h
      obtain ⟨ms, hms⟩ := ih (p := f.missed s e p) hn.2 (fun s' hs' => hl s' (by simp [hs'])) h
      exact ⟨_, .cons_missed hn.1 ho hms⟩
    | ok as =>
      obtain ⟨surplus, p', rest, hgo, hrest, rfl⟩ := visitSources_of_listed_ok ho h
      obtain ⟨hsur, vs, hvs⟩ := visitAll_surveyed hgo (hl s (by simp))
      obtain ⟨ms, hms⟩ := ih hn.2 (fun s' hs' => hvs.locations ▸ hl s' (by simp [hs'])) hrest
      exact ⟨_, .cons_listed hn.1 ho hsur hvs hms⟩

end Fetcher

end ArchiveKeeper.Fetch
