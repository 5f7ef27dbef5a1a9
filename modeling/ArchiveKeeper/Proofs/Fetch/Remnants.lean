import ArchiveKeeper.Proofs.Fetch.Recovery

namespace ArchiveKeeper

open Files Store

variable {σ ρ τ : Type} {job : String}

/-- Whatever remains of a job that the store of a configuration fails to delete, the other jobs are
left as they are. -/
theorem Site.spares_of_remains {base : Path} {config : Config.Storage} {s s' : Site τ}
    (hj : Job.isId job) (h : Site.remains base config job s s') :
    (Site.view base config).Spares (· ≠ job) s s' := by
  unfold Site.remains at h
  unfold Site.view
  cases hb : config.backend with
  | files =>
    rw [hb] at h
    exact Directory.spares_of_area hj fun hready => ⟨hready.thin h, fun _ => h.same⟩
  | table =>
    rw [hb] at h
    rw [View.spares_zoom, show (s'.files, s'.connection) = (s.files, s.connection) from h]
    exact .refl _ _

namespace Fetch

open Act Progress Relation

variable {f : Fetcher σ} {s : Source σ} {a : Archive} {as : List Archive} {part : σ → ρ}
  {inner : Store ρ} {V : View ρ} {neat : ρ → Prop} {remains : String → ρ → ρ → Prop} {w w₀ : σ}
  {c start : Cache} {p q : Progress σ} {phase : Phase} {D : Prop} {before : List String}
  {position : Nat} {r : Except Failure Bool} {drift : σ → σ → Prop}
  {history : List (Result × Progress σ)}

def Progress.Lists (job : String) (p : Progress σ) : Prop :=
  ∃ location as, (location, .ok as) ∈ listingsOf p.trace ∧ job ∈ as.map (·.job)

/-- Whenever the store was asked to delete a job, nothing of it remained. -/
def Progress.Rids (f : Fetcher σ) (V : View σ) (job : String) (p : Progress σ) : Prop :=
  ∀ m ∈ p.trace, ∀ answer, m.deed = .delete job answer → V.bare job (f.store.delete job m.world).2

/-- A job is held, or else there is nothing of it. -/
def Progress.Settled (V : View σ) (job : String) (p : Progress σ) : Prop :=
  ¬ p.cache.holds job → V.bare job p.world

/-- At a point of a cycle the cache has the locations of the sources, each once, and the store is
ready. -/
structure Progress.Standing (f : Fetcher σ) (U : View σ) (p : Progress σ) : Prop where
  distinct : (f.sources.map (·.location)).Nodup
  locations : p.cache.locations = f.sources.map (·.location)
  ready : U.ready p.world

theorem Progress.Standing.nodup {U : View σ} (h : p.Standing f U) : p.cache.locations.Nodup :=
  h.locations ▸ h.distinct

theorem Progress.Standing.mem {U : View σ} (h : p.Standing f U) (hs : s ∈ f.sources) :
    s.location ∈ p.cache.locations := h.locations ▸ List.mem_map_of_mem hs

theorem Fetcher.Steps.rids {K : String → Prop} {U : View σ} (h : Fetcher.Steps f D K phase p q)
    (hq : q.Rids f U job) : p.Rids f U job := by
  obtain ⟨ms, ht, -⟩ := h.does
  exact fun m hm => hq m (ht ▸ List.mem_append_left _ hm)

namespace Fetcher

section Steps

variable (keeps : Keeps inner V) (leans : f.LeansOn part inner V remains)
  (thins : ∀ job r r', Job.isId job → remains job r r' → V.Spares (· ≠ job) r r')

include keeps leans thins

theorem sparing_ingest (hs : s ∈ f.sources) (hj : Job.isId a.job) :
    Respects (Sparing (V.zoom part) (· ≠ a.job)) (f.ingest s a) :=
  respects_ingest (fun p _ => .refl _ p.world)
    (fun p path json => leans.store.spares_put keeps hj path json p.world)
    (fun p => (keeps.untouched _ _ (leans.read s hs a p.world)).mono fun _ _ => trivial)
    (fun p => leans.store.spares_delete keeps thins hj p.world)

theorem sparing_visited (hs : s ∈ f.sources) (hj : Job.isId a.job)
    (h : Visited f s before position a p r q) : Sparing (V.zoom part) (· ≠ a.job) p q :=
  h.worlds (R := (V.zoom part).Spares (· ≠ a.job)) (fun w => .refl _ w)
    (sparing_ingest keeps leans thins hs hj)

theorem sparing_evicted {location : String} {r : Except Failure (Option Event)}
    (hj : Job.isId job) (h : Evicted f location job p r q) :
    Sparing (V.zoom part) (· ≠ job) p q := by
  cases h with
  | kept => exact .refl _ p.world
  | dropped => exact leans.store.spares_delete keeps thins hj p.world
  | stuck => exact leans.store.spares_delete keeps thins hj p.world

theorem sparing_step {K P : String → Prop} (hK : ∀ id, K id → Job.isId id ∧ ¬ P id)
    (h : Step f D K phase p q) : Sparing (V.zoom part) P p q := by
  have hother {id : String} (known : K id) (job : String) (hp : P job) : job ≠ id :=
    fun he => (hK id known).2 (he ▸ hp)
  cases h with
  | noted h =>
    rw [Sparing, h.world]
    exact .refl _ p.world
  | listed hs => exact (keeps.untouched _ _ (leans.list _ hs p.world)).mono fun _ _ => trivial
  | visited hs _ known h =>
    exact (sparing_visited keeps leans thins hs (hK _ known).1 h).mono (hother known)
  | removed a hs => exact (keeps.untouched _ _ (leans.remove _ hs a p.world)).mono fun _ _ => trivial
  | evicted known h =>
    exact (sparing_evicted keeps leans thins (hK _ known).1 h).mono (hother known)
  | republished => exact (leans.store.spares_republish keeps p.world).mono fun _ _ => trivial
  | delivered hl events =>
    exact (spares_told keeps (leans.tell _ hl) events p.world).mono fun _ _ => trivial

theorem sparing_steps {K P : String → Prop} (hK : ∀ id, K id → Job.isId id ∧ ¬ P id)
    (h : Steps f D K phase p q) : Sparing (V.zoom part) P p q := by
  induction h with
  | refl => exact .refl _ p.world
  | tail _ h ih => exact trans_of (Sparing _ _) ih (sparing_step keeps leans thins hK h)

end Steps

section Settled

variable {U : View σ}

/-- Nothing remains of an archive that is not ingested, if its job can be deleted. -/
theorem bare_of_unloaded {r : Except Failure Bool} (run : go (f.ingest s a) p = (r, q))
    (hr : r ≠ .ok true) (rids : q.Rids f U a.job) : U.bare a.job q.world := by
  obtain ⟨ht, -⟩ | ⟨-, t, p', l, l', -, rfl, -⟩ := ingest_cases run
  · exact absurd ht hr
  · exact rids _ (List.mem_append_right _ (List.mem_singleton.mpr rfl)) _ rfl

/-- Once an archive within the limit was visited, its job is held, or there is nothing of it. -/
theorem settled_visited (hn : p.cache.locations.Nodup) (hl : s.location ∈ p.cache.locations)
    (rids : q.Rids f U a.job) (h : Visited f s before position a p r q)
    (within : ¬ f.policy.isBeyond position) (new : a.job ∉ before) : q.Settled U a.job := by
  intro hno
  have hheld : (p.cache.ingest s.location a.job).holds a.job :=
    (Cache.holds_ingest hn hl).mpr (.inr rfl)
  cases h with
  | beyond hb => exact absurd hb within
  | known _ hk => exact absurd hk new
  | shared => exact absurd hheld hno
  | created _ _ _ run =>
    have hsame := (ingest_books run).1
    change ¬ Cache.holds (Cache.ingest _ s.location a.job) a.job at hno
    rw [hsame] at hno
    exact absurd hheld hno
  | @refused _ _ _ q' run =>
    have hbare := bare_of_unloaded run (by simp) (show q'.Rids f U a.job from rids)
    exact hbare
  | broken _ _ _ run => exact bare_of_unloaded run (by simp) rids

/-- A job that is evicted is held elsewhere, or there is nothing of it. -/
theorem settled_evicted {location : String} {r : Except Failure (Option Event)}
    (hn : p.cache.locations.Nodup) (rids : q.Rids f U job) (h : Evicted f location job p r q) :
    q.Settled U job := by
  intro hno
  cases h with
  | kept elsewhere l =>
    have hheld : (p.cache.evict location job).holds job :=
      Cache.holds_of_heldElsewhere (by simpa using hn) elsewhere
    exact absurd hheld hno
  | dropped => exact rids _ (List.mem_append_right _ (List.mem_singleton.mpr rfl)) _ rfl
  | stuck => exact rids _ (List.mem_append_right _ (List.mem_singleton.mpr rfl)) _ rfl

end Settled

section Settling

variable (keeps : Keeps inner V) (leans : f.LeansOn part inner V remains)
  (thins : ∀ job r r', Job.isId job → remains job r r' → V.Spares (· ≠ job) r r')

include keeps leans thins

theorem standing_steps (h : Steps f D (fun id => Job.isId id) phase p q)
    (hp : p.Standing f (V.zoom part)) : q.Standing f (V.zoom part) :=
  ⟨hp.distinct, (Steps.locations h).trans hp.locations,
    (sparing_steps keeps leans thins (P := fun _ => False) (fun _ h => ⟨h, id⟩) h hp.ready).1⟩

/-- A job that is settled stays so, as long as it can be deleted. -/
theorem settled_step (hstands : p.Standing f (V.zoom part)) (hj : Job.isId job)
    (rids : q.Rids f (V.zoom part) job) (h : Step f D (fun id => Job.isId id) phase p q)
    (hp : p.Settled (V.zoom part) job) : q.Settled (V.zoom part) job := by
  obtain ⟨s, before, position, a, r, hs, rfl, -, -, hv⟩ | ⟨location, r, -, hevicted⟩ | hother :=
    h.own_or_other job
  · by_cases hnew : f.policy.isBeyond position ∨ a.job ∈ before
    · -- then it is not taken up, and nothing has changed
      cases hv with
      | beyond => exact hp
      | known => exact hp
      | shared hw hn => exact absurd hnew (not_or.mpr ⟨hw, hn⟩)
      | created hw hn => exact absurd hnew (not_or.mpr ⟨hw, hn⟩)
      | refused hw hn => exact absurd hnew (not_or.mpr ⟨hw, hn⟩)
      | broken hw hn => exact absurd hnew (not_or.mpr ⟨hw, hn⟩)
    · obtain ⟨hwithin, hnew⟩ := not_or.mp hnew
      exact settled_visited hstands.nodup (hstands.mem hs) rids hv hwithin hnew
  · exact settled_evicted hstands.nodup rids hevicted
  · -- of what comes of other jobs, this one notices nothing
    have accounts := accounts_step hstands.nodup (fun _ hs => hstands.mem hs)
      (fun _ known => known.2) hother
    have hspared := sparing_step keeps leans thins (P := (· = job)) (fun _ known => known) hother
    intro hno
    refine ((hspared hstands.ready).2 job hj rfl).2 (hp fun hheld => hno ?_)
    exact (accounts.holds job rfl).mpr hheld

variable (hstands : p.Standing f (V.zoom part)) (hj : Job.isId job)
  (rids : q.Rids f (V.zoom part) job)

include hstands hj rids

theorem settled_steps (h : Steps f D (fun id => Job.isId id) phase p q)
    (hp : p.Settled (V.zoom part) job) : q.Settled (V.zoom part) job := by
  induction h with
  | refl => exact hp
  | tail hsteps hstep ih =>
    have hready := standing_steps keeps leans thins hsteps hstands
    exact settled_step keeps leans thins hready hj rids hstep (ih (Steps.rids (.single hstep) rids))

/-- Once a listing was gone through, a job that it names and that was new is settled, or is left to
be removed. -/
theorem settled_visitAll {surplus : List (Surplus σ)} (hs : s ∈ f.sources)
    (hv : ∀ a ∈ as, Job.isId a.job) (new : job ∉ before) (hlisted : job ∈ as.map (·.job))
    (h : go (f.visitAll s before position as) p = (.ok surplus, q)) :
    q.Settled (V.zoom part) job ∨ ∃ x ∈ surplus, x.archive.job = job := by
  induction as generalizing p position surplus with
  | nil => cases hlisted
  | cons a as ih =>
    obtain ⟨b, p', more, hvisit, hgo, rfl⟩ := visitAll_cons_ok h
    obtain ⟨hid, hv'⟩ := List.forall_mem_cons.mp hv
    have hstands' : p'.Standing f (V.zoom part) := standing_steps keeps leans thins
      (.single (.visited hs False.elim hid hvisit)) hstands
    have hsteps : Steps f False (fun id => Job.isId id) .survey p' q :=
      (steps_visitAll hs (hstands'.mem hs) False.elim hv' hgo).1
    by_cases he : a.job = job
    · subst he
      by_cases hb : f.policy.isBeyond position
      · exact .inr ⟨⟨s, a⟩, by simp [hb], rfl⟩
      · have hsettled : p'.Settled (V.zoom part) a.job := settled_visited hstands.nodup
          (hstands.mem hs) (Steps.rids hsteps rids) hvisit hb new
        exact .inl (settled_steps keeps leans thins hstands' hj rids hsteps hsettled)
    · have hrest : job ∈ as.map (·.job) := by simpa [Ne.symm he] using hlisted
      refine (ih hstands' hv' hrest hgo).imp_right ?_
      rintro ⟨x, hx, hjob⟩
      refine ⟨x, ?_, hjob⟩
      split
      · exact List.mem_cons_of_mem _ hx
      · exact hx

/-- Once the sources were surveyed, a job that was held nowhere and that some listing names is
settled, or is left to be removed. -/
theorem settled_visitSources {ss : List (Source σ)} {left : Leftover σ}
    (ahead : f.Ahead start ss p) (hv : q.Heard False fun id => Job.isId id)
    (new : ∀ location, job ∉ start.ids location)
    (h : go (f.visitSources start ss) p = (.ok left, q)) :
    ∃ ls, listingsOf q.trace = listingsOf p.trace ++ ls ∧
      ∀ location as, (location, .ok as) ∈ ls → job ∈ as.map (·.job) →
        q.Settled (V.zoom part) job ∨ ∃ x ∈ left.surplus, x.archive.job = job := by
  induction ss generalizing p left with
  | nil =>
    cases h
    exact ⟨[], by simp, by simp⟩
  | cons s ss ih =>
    have hs := ahead.mem_sources
    have hstands₁ : (f.listed s p).Standing f (V.zoom part) :=
      standing_steps keeps leans thins (steps_listed (D := False) f hs p) hstands
    cases ho : (s.list p.world).1.outcome with
    | error e =>
      rw [go_visitSources_of_missed ho] at h
      have hstands' : (f.missed s e p).Standing f (V.zoom part) :=
        standing_steps keeps leans thins (steps_missed (D := False) f hs e p) hstands
      obtain ⟨ls, hls, hsettled⟩ := ih hstands' (ahead.missed e) h
      refine ⟨(s.location, .error e) :: ls, ?_, fun location as hm => hsettled location as ?_⟩
      · rw [hls, listings_missed ho, List.append_assoc, List.singleton_append]
      · simpa using hm
    | ok as =>
      obtain ⟨surplus, p', rest, hpassed, ahead', hleft⟩ := passed ahead hv ho h
      have hstands' := standing_steps keeps leans thins hpassed.steps hstands₁
      obtain ⟨ls, hls, hsettled⟩ := ih hstands' ahead' hpassed.rest
      refine ⟨(s.location, .ok as) :: ls, ?_, fun location as' hm hlisted => ?_⟩
      · rw [hls, hpassed.listings, List.append_assoc, List.singleton_append]
      rw [hleft]
      rcases List.mem_cons.mp hm with he | hm
      · cases he
        obtain hp' | ⟨x, hx, hjob⟩ := settled_visitAll keeps leans thins hstands₁ hj
          (Steps.rids hpassed.after rids) hs hpassed.known (new _) hlisted hpassed.through
        · exact .inl (settled_steps keeps leans thins hstands' hj rids hpassed.after hp')
        · exact .inr ⟨x, List.mem_append_left _ hx, hjob⟩
      · refine (hsettled location as' hm hlisted).imp_right ?_
        rintro ⟨x, hx, hjob⟩
        exact ⟨x, List.mem_append_right _ hx, hjob⟩

theorem settled_evictSurplus {ss : List (Surplus σ)} {events : List Event}
    (hss : ∀ s ∈ ss, s.source ∈ f.sources) (hv : ∀ s ∈ ss, Job.isId s.archive.job)
    (hleft : ∃ s ∈ ss, s.archive.job = job) (h : go (f.evictSurplus ss) p = (.ok events, q)) :
    q.Settled (V.zoom part) job := by
  induction ss generalizing p events with
  | nil =>
    obtain ⟨s, hs, -⟩ := hleft
    cases hs
  | cons s ss ih =>
    obtain ⟨p₁, p', event, p'', more, hp₁, hp', he, hgo, -⟩ := evictSurplus_cons_ok h
    obtain ⟨hs, hss'⟩ := List.forall_mem_cons.mp hss
    obtain ⟨hid, hv'⟩ := List.forall_mem_cons.mp hv
    have hfirst : Steps f False (fun id => Job.isId id) .clearance p p' :=
      ((ReflTransGen.single (.noted hp₁)).tail (.removed _ hs)).tail (.noted hp')
    have hrest : Steps f False (fun id => Job.isId id) .clearance p'' q :=
      steps_evictSurplus hss' hv' hgo
    have hstands' := standing_steps keeps leans thins hfirst hstands
    have hstands'' := standing_steps keeps leans thins (hfirst.tail (.evicted hid he)) hstands
    by_cases hhead : s.archive.job = job
    · subst hhead
      have hsettled : p''.Settled (V.zoom part) s.archive.job :=
        settled_evicted hstands'.nodup (Steps.rids hrest rids) he
      exact settled_steps keeps leans thins hstands'' hj rids hrest hsettled
    · refine ih hstands'' hss' hv' ?_ hgo
      obtain ⟨s', hs', hjob⟩ := hleft
      rcases List.mem_cons.mp hs' with rfl | hs'
      · exact absurd hjob hhead
      · exact ⟨s', hs', hjob⟩

end Settling

section Cycle

variable (keeps : Keeps inner V) (leans : f.LeansOn part inner V remains)
  (thins : ∀ job r r', Job.isId job → remains job r r' → V.Spares (· ≠ job) r r')
  (hstands : (begin_ c w).Standing f (V.zoom part))
  (hids : ∀ location, ∀ id ∈ c.ids location, Job.isId id)
  (hv : (f.cycle c w).2.ValidListings) (hj : Job.isId job)

include keeps leans thins hstands hids hv hj

/-- A job that is settled before a cycle is settled after it, if the store deletes it. -/
theorem settled_cycle (hstart : (begin_ c w).Settled (V.zoom part) job)
    (rids : (f.cycle c w).2.Rids f (V.zoom part) job) :
    (f.cycle c w).2.Settled (V.zoom part) job := by
  obtain ⟨-, hsettled⟩ := cycle_induction (D := False) (K := fun id => Job.isId id)
    (I := fun p => p.Standing f (V.zoom part) ∧
      (p.Rids f (V.zoom part) job → p.Settled (V.zoom part) job))
    hstands.distinct hstands.locations ⟨False.elim, hv⟩ hids ⟨hstands, fun _ => hstart⟩ (by
      rintro phase p q hstep ⟨hp, hsettled⟩
      exact ⟨standing_steps keeps leans thins (.single hstep) hp, fun hq =>
        settled_step keeps leans thins hp hj hq hstep (hsettled (Steps.rids (.single hstep) hq))⟩)
  exact hsettled rids

/-- A job that is held nowhere, but is listed, is settled after a cycle that comes to its end. -/
theorem settled_of_listed (completed : (f.cycle c w).1.completed) (hno : ¬ c.holds job)
    (lists : (f.cycle c w).2.Lists job) (rids : (f.cycle c w).2.Rids f (V.zoom part) job) :
    (f.cycle c w).2.Settled (V.zoom part) job := by
  have hn := hstands.distinct
  have hl : c.locations = f.sources.map (·.location) := hstands.locations
  obtain ⟨p₀, p₁, p₂, p₃, left, beyond, gone, through⟩ := cycle_through completed
  have heard : p₁.Heard False fun id => Job.isId id := through.heard hn hl ⟨False.elim, hv⟩
  obtain ⟨ms, hms⟩ := through.surveyed hn hl
  have hstart : Steps f False (fun id => Job.isId id) .survey (begin_ c w) p₀ :=
    .single (.noted through.start)
  have hsurvey := through.steps hn hl False _ heard
  have hsurplus : Steps f False (fun id => Job.isId id) .clearance p₁ p₂ :=
    through.steps_surplus hn hl heard
  have hexpired : Steps f False (fun id => Job.isId id) .clearance p₂ p₃ :=
    through.steps_expired hn hl hids
  have hclose : Steps f False (fun id => Job.isId id) .close p₃ (f.cycle c w).2 :=
    through.steps_close
  have hstands₁ := standing_steps keeps leans thins hsurvey hstands
  have hstands₂ := standing_steps keeps leans thins hsurplus hstands₁
  have hstands₃ := standing_steps keeps leans thins hexpired hstands₂
  have rids₃ := Steps.rids hclose rids
  have rids₂ := Steps.rids hexpired rids₃
  have hnone : ∀ location, job ∉ c.ids location := fun location hid =>
    hno ((Cache.holds_iff hstands.nodup).mpr ⟨location, hid⟩)
  obtain ⟨ls, hls, hsettled⟩ := settled_visitSources keeps leans thins
    (standing_steps keeps leans thins hstart hstands) hj (Steps.rids hsurplus rids₂)
    (through.ahead hn hl) heard hnone through.survey
  have hlistings : listingsOf (f.cycle c w).2.trace = ls := by
    rw [Steps.listings_eq (by simp) hclose, Steps.listings_eq (by simp) hexpired,
      Steps.listings_eq (by simp) hsurplus, hls, through.start.trace]
    rfl
  obtain ⟨location, as, hlisted, hjob⟩ := lists
  have hsettled₂ : p₂.Settled (V.zoom part) job := by
    rcases hsettled location as (hlistings ▸ hlisted) hjob with h | hleft
    · exact settled_steps keeps leans thins hstands₁ hj rids₂ hsurplus h
    · exact settled_evictSurplus keeps leans thins hstands₁ hj rids₂
        (source_of_visitSources through.survey) (hms.known_surplus heard) hleft through.surplus
  have hsettled₃ := settled_steps keeps leans thins hstands₂ hj rids₃ hexpired hsettled₂
  exact settled_steps keeps leans thins hstands₃ hj rids hclose hsettled₃

/-- A job that is held nowhere and is not listed is left as it is. -/
theorem spared_of_unlisted (hno : ¬ c.holds job) (unlisted : ¬ (f.cycle c w).2.Lists job) :
    ¬ (f.cycle c w).2.cache.holds job ∧
      V.shelf job (part (f.cycle c w).2.world) = V.shelf job (part w) := by
  have hnone (location : String) (id : String) (hid : id ∈ c.ids location) : id ≠ job := by
    rintro rfl
    exact hno ((Cache.holds_iff hstands.nodup).mpr ⟨location, hid⟩)
  have heard : (f.cycle c w).2.Heard False fun id => Job.isId id ∧ id ≠ job :=
    ⟨False.elim, fun location as hlist a ha => ⟨hv location as hlist a ha, fun he =>
      unlisted ⟨location, as, hlist, List.mem_map.mpr ⟨a, ha, he⟩⟩⟩⟩
  obtain ⟨hp, hknown, hspared⟩ := cycle_induction
    (I := fun p => p.Standing f (V.zoom part) ∧
      (∀ location, ∀ id ∈ p.cache.ids location, Job.isId id ∧ id ≠ job) ∧
      Sparing (V.zoom part) (· = job) (begin_ c w) p)
    hstands.distinct hstands.locations heard
    (fun location id hid => ⟨hids location id hid, hnone location id hid⟩)
    ⟨hstands, fun location id hid => ⟨hids location id hid, hnone location id hid⟩, .refl _ w⟩ (by
      rintro phase p q hstep ⟨hp, hknown, hspared⟩
      have hspared' := trans_of (Sparing _ _) hspared
        (sparing_step keeps leans thins (fun _ h => h) hstep)
      exact ⟨⟨hp.distinct, hstep.locations.trans hp.locations, (hspared' hstands.ready).1⟩,
        hstep.known (fun s hs => hp.mem hs) hknown, hspared'⟩)
  refine ⟨fun hheld => ?_, ((hspared hstands.ready).2 job hj rfl).1⟩
  obtain ⟨location, hid⟩ := (Cache.holds_iff hp.nodup).mp hheld
  exact (hknown location job hid).2 rfl

end Cycle

section Runs

variable (keeps : Keeps inner V) (publishes : Publishes inner V neat remains)
  (leans : f.LeansOn part inner V remains)
  (thins : ∀ job r r', Job.isId job → remains job r r' → V.Spares (· ≠ job) r r')
  (hs : V.sound (part w₀)) (hdrift : ∀ w w', drift w w' → V.untouched (part w) (part w'))

include keeps publishes leans hs hdrift

theorem Run.standing (run : f.Run drift w₀ history c w) (hv : ∀ x ∈ history, x.2.ValidListings) :
    (begin_ c w).Standing f (V.zoom part) :=
  ⟨run.accepted.nodup, run.locations,
    publishes.ready _ (run.stays_neat publishes leans keeps hs hdrift hv)⟩

include thins

theorem Run.settled (run : f.Run drift w₀ history c w) (hv : ∀ x ∈ history, x.2.ValidListings)
    (hj : Job.isId job) (rids : ∀ x ∈ history, x.2.Rids f (V.zoom part) job) :
    (begin_ c w).Settled (V.zoom part) job := by
  -- the reset leaves nothing of the job, and after that every cycle leaves it settled
  induction run with
  | prepared _ hprepare => exact fun _ => (bare_prepare keeps leans.store hs hprepare).2 job hj
  | @drifted history c w w' run drifts ih =>
    have hready := (run.standing keeps publishes leans hs hdrift hv).ready
    have hspares := keeps.untouched _ _ (hdrift _ _ drifts) hready
    exact fun hno => (hspares.2 job hj trivial).2 (ih hv rids hno)
  | @cycled history c w run ih =>
    have hv' x (hx : x ∈ history) := hv x (List.mem_append_left _ hx)
    have hlast : f.cycle c w ∈ history ++ [f.cycle c w] := by simp
    exact settled_cycle keeps leans thins (run.standing keeps publishes leans hs hdrift hv')
      (run.isId_of_held hv') (hv _ hlast) hj (ih hv' fun x hx => rids x (List.mem_append_left _ hx)) (rids _ hlast)

end Runs

variable {base : Path} {config : Config.Storage} {site : σ → Site τ}

/-- In every run, whatever has failed before, take a cycle that comes to its end, and a job that the
store deletes whenever this cycle asks for it. If the job was held before, or is listed in this
cycle, or if the store never failed to delete it, then after the cycle it is held, or there is
nothing of it. But what remains of a job that is neither held nor listed is left as it is. -/
theorem deletions_made_good (rooted : f.Rooted base config site drift w₀)
    (run : f.Run drift w₀ history c w)
    (valid : ∀ x ∈ history ++ [f.cycle c w], x.2.ValidListings)
    (completed : (f.cycle c w).1.completed) (hj : Job.isId job) :
    ((f.cycle c w).2.Rids f ((Site.view base config).zoom site) job →
        c.holds job ∨ (f.cycle c w).2.Lists job ∨
          (∀ x ∈ history, x.2.Rids f ((Site.view base config).zoom site) job) →
        ¬ (f.cycle c w).2.cache.holds job →
        Lacks (Site.store base config) (Site.view base config) job (site (f.cycle c w).2.world)) ∧
      (¬ c.holds job → ¬ (f.cycle c w).2.Lists job →
        ¬ (f.cycle c w).2.cache.holds job ∧
          (Site.view base config).shelf job (site (f.cycle c w).2.world) =
            (Site.view base config).shelf job (site w)) := by
  have keeps : Keeps (Site.store base config : Store (Site τ)) (Site.view base config) :=
    Site.store_keeps rooted.plain config
  have publishes : Publishes (Site.store base config : Store (Site τ)) (Site.view base config)
      (Site.neat base config) (Site.remains base config) := Site.store_publishes rooted.plain config
  have thins (id : String) (s s' : Site τ) (hid : Job.isId id)
      (h : Site.remains base config id s s') : (Site.view base config).Spares (· ≠ id) s s' :=
    Site.spares_of_remains hid h
  have hv x (hx : x ∈ history) := valid x (List.mem_append_left _ hx)
  have hlast := valid _ (List.mem_append_right _ (List.mem_singleton.mpr rfl))
  have hids := run.known (K := fun id => Job.isId id) fun x hx => ⟨False.elim, hv x hx⟩
  have hstands := run.standing keeps publishes rooted.leans rooted.sound rooted.drift hv
  constructor
  · intro rids hknown hno
    have hready := (run.cycled.standing keeps publishes rooted.leans rooted.sound rooted.drift
      valid).ready
    refine keeps.lacks hj hready ?_
    by_cases hheld : c.holds job
    · exact settled_cycle keeps rooted.leans thins hstands hids hlast hj
        (fun hnot => absurd hheld hnot) rids hno
    rcases hknown with hheld' | hlists | hrids
    · exact absurd hheld' hheld
    · exact settled_of_listed keeps rooted.leans thins hstands hids hlast hj completed hheld hlists
        rids hno
    · have hstart := run.settled keeps publishes rooted.leans thins rooted.sound rooted.drift hv hj
        hrids
      exact settled_cycle keeps rooted.leans thins hstands hids hlast hj hstart rids hno
  · intro hno unlisted
    exact spared_of_unlisted keeps rooted.leans thins hstands hids hlast hj hno unlisted

end Fetcher

section Vanishing

/-- A request was answered with a failure, or the combined overview was not published. -/
def Deed.fails : Deed → Bool
  | .list _ (.error _) | .read _ _ (.error _) | .remove _ _ (.error _) | .put _ _ _ (.error _)
  | .delete _ (.error _) | .republish (.error _) | .republish (.ok none) => true
  | _ => false

/-- A location that offers a job at first, and then no more. In the end it may offer it once again,
but then it cannot be read. -/
def vanishingSource (back : Bool) : Source (Site Nat) where
  location := "first"
  list w := Operation.answer
    (if w.objects = 0 ∨ back ∧ w.objects = 2 then [sampleArchive] else []) w
  read a w :=
    if w.objects = 0 then Operation.answer sampleBundle w
    else Operation.fail (.ingestion a.job (.unread a.path)) w
  remove _ := Operation.answer ()

/-- When the job is no longer offered, the store cannot delete anything for a while. -/
def vanishing (back : Bool) : Fetcher (Site Nat) where
  sources := [vanishingSource back]
  store := { (Site.store [] sampleConfig : Store (Site Nat)) with
    delete := fun job w =>
      if w.objects = 1 then Operation.fail (.plain "delete failed") w
      else (Site.store [] sampleConfig).delete job w }
  listener := none
  policy := ⟨.unbounded, true, true⟩
  cycleBindings := []
  overviewBindings := []

def later (w w' : Site Nat) : Prop := w' = { w with objects := w.objects + 1 }

def newSite : Site Nat := ⟨.empty, .closed, 0⟩

variable {back : Bool}

def foundCycle (back : Bool) : Result × Progress (Site Nat) :=
  (vanishing back).cycle (vanishing back).emptyCache ((vanishing back).prepare newSite).2

def stuckSite (back : Bool) : Site Nat :=
  { (foundCycle back).2.world with objects := (foundCycle back).2.world.objects + 1 }

def stuckCycle (back : Bool) : Result × Progress (Site Nat) :=
  (vanishing back).cycle (foundCycle back).2.cache (stuckSite back)

def freeSite (back : Bool) : Site Nat :=
  { (stuckCycle back).2.world with objects := (stuckCycle back).2.world.objects + 1 }

def freeCycle (back : Bool) : Result × Progress (Site Nat) :=
  (vanishing back).cycle (stuckCycle back).2.cache (freeSite back)

theorem rooted_vanishing : (vanishing back).Rooted [] sampleConfig id later newSite where
  plain := by simp
  leans := by
    have htouch {w w' : Site Nat} (h : w' = w) :
        (Site.view [] sampleConfig).untouched (id w) (id w') :=
      h ▸ Site.untouched_refl [] sampleConfig w
    have hsource (s : Source (Site Nat)) (hs : s ∈ (vanishing back).sources) :
        s = vanishingSource back := List.mem_singleton.mp hs
    refine ⟨⟨fun _ _ => ⟨rfl, rfl⟩, fun _ _ _ _ => .inl ⟨rfl, rfl⟩, fun job w => ?_,
      fun _ => .inl ⟨rfl, rfl⟩, fun _ _ => .inl ⟨rfl, rfl⟩⟩, fun s hs w => ?_, fun s hs a w => ?_,
      fun s hs a w => ?_, by simp [vanishing]⟩
    · by_cases hw : w.objects = 1
      · right
        simp only [vanishing, hw, if_true]
        rfl
      · left
        simp only [vanishing, hw, if_false]
        rfl
    · rw [hsource s hs]
      exact htouch rfl
    · rw [hsource s hs]
      apply htouch
      simp only [vanishingSource]
      split <;> rfl
    · rw [hsource s hs]
      exact htouch rfl
  sound := trivial
  drift := by
    rintro w _ rfl
    rfl

theorem run_vanishing : (vanishing back).Run later newSite [foundCycle back, stuckCycle back]
    (stuckCycle back).2.cache (freeSite back) := by
  have accepted : Fetcher.accept (.ofInt (-1)) ["first"] = .ok .unbounded := by decide
  have start : (vanishing back).Run later newSite [] (vanishing back).emptyCache
      ((vanishing back).prepare newSite).2 := .prepared ⟨.ofInt (-1), accepted⟩ rfl
  have found : (vanishing back).Run later newSite [foundCycle back] (foundCycle back).2.cache
      (foundCycle back).2.world := by
    have found := start.cycled
    rw [List.nil_append] at found
    unfold foundCycle
    exact found
  have stuck : (vanishing back).Run later newSite [foundCycle back, stuckCycle back]
      (stuckCycle back).2.cache (stuckCycle back).2.world := by
    unfold stuckCycle stuckSite
    exact (found.drifted rfl).cycled
  unfold freeSite
  exact stuck.drifted rfl

theorem listingsOf_vanishing (back : Bool) :
    listingsOf (foundCycle back).2.trace = [("first", .ok [sampleArchive])] ∧
      listingsOf (stuckCycle back).2.trace = [("first", .ok [])] ∧
      listingsOf (freeCycle back).2.trace = [("first", .ok (if back then [sampleArchive] else []))] := by
  cases back <;> refine ⟨?_, ?_, ?_⟩ <;> decide +kernel

theorem valid_vanishing (back : Bool) : ∀ x ∈ [foundCycle back, stuckCycle back] ++ [freeCycle back],
    x.2.ValidListings := by
  obtain ⟨hfound, hstuck, hfree⟩ := listingsOf_vanishing back
  have hone {x : Result × Progress (Site Nat)} {as : List Archive} (hids : ∀ a ∈ as, Job.isId a.job)
      (hx : listingsOf x.2.trace = [("first", .ok as)]) : x.2.ValidListings := by
    intro location as' h
    rw [hx] at h
    cases List.mem_singleton.mp h
    exact hids
  refine List.forall_mem_cons.mpr ⟨hone (by decide) hfound, List.forall_mem_cons.mpr
    ⟨hone (by decide) hstuck, List.forall_mem_singleton.mpr (hone ?_ hfree)⟩⟩
  cases back <;> decide

/-- A job is gone from its location while the store cannot delete it. After the next cycle, in which
nothing fails, the store still has it, though no location holds it. -/
theorem remains_freeCycle :
    (vanishing false).Rooted [] sampleConfig id later newSite ∧
      (vanishing false).Run later newSite [foundCycle false, stuckCycle false]
        (stuckCycle false).2.cache (freeSite false) ∧
      (∀ x ∈ [foundCycle false, stuckCycle false] ++ [freeCycle false], x.2.ValidListings) ∧
      (stuckCycle false).1.completed = false ∧
      (freeCycle false).1.completed ∧
      (∀ m ∈ (freeCycle false).2.trace, ¬ m.deed.fails) ∧
      ¬ (freeCycle false).2.cache.holds sampleArchive.job ∧
      ((Site.store [] sampleConfig).holds sampleArchive.job
        (freeCycle false).2.world).1.outcome = .ok true := by
  refine ⟨rooted_vanishing, run_vanishing, valid_vanishing false, ?_, ?_, ?_, ?_, ?_⟩ <;> decide +kernel

def rowsOf : Database.Connection → Table
  | .opened t => t
  | _ => []

theorem rids_freeCycle : (freeCycle true).2.Rids (vanishing true)
    ((Site.view [] sampleConfig).zoom id) sampleArchive.job := by
  have hgone : ∀ m ∈ (freeCycle true).2.trace, ¬ (rowsOf ((vanishing true).store.delete
      sampleArchive.job m.world).2.connection).hasOwned sampleArchive.job := by
    decide +kernel
  intro m hm answer _ t ht
  have hrows : rowsOf ((vanishing true).store.delete sampleArchive.job m.world).2.connection = t :=
    congrArg rowsOf ht
  exact hrows ▸ hgone m hm

/-- A job that is offered once again is made good, though it cannot be read; one that is not offered
stays. -/
theorem made_good_freeCycle :
    Lacks (Site.store [] sampleConfig) (Site.view [] sampleConfig) sampleArchive.job
        (freeCycle true).2.world ∧
      (Site.view [] sampleConfig).shelf sampleArchive.job (freeCycle false).2.world =
        (Site.view [] sampleConfig).shelf sampleArchive.job (freeSite false) := by
  have hvalid := valid_vanishing
  have hdone (back : Bool) : (freeCycle back).1.completed := by cases back <;> decide +kernel
  have hlists : (freeCycle true).2.Lists sampleArchive.job :=
    ⟨"first", [sampleArchive], by rw [(listingsOf_vanishing _).2.2]; exact List.mem_cons_self, by decide⟩
  have hunlisted : ¬ (freeCycle false).2.Lists sampleArchive.job := by
    rintro ⟨location, as, h, hjob⟩
    rw [(listingsOf_vanishing _).2.2] at h
    cases List.mem_singleton.mp h
    cases hjob
  have hforgotten : ¬ (stuckCycle false).2.cache.holds sampleArchive.job := by decide +kernel
  have hno : ¬ (freeCycle true).2.cache.holds sampleArchive.job := by decide +kernel
  have hrids := rids_freeCycle
  unfold freeCycle at hvalid hdone hlists hunlisted hno hrids ⊢
  constructor
  · exact (Fetcher.deletions_made_good rooted_vanishing run_vanishing (hvalid true) (hdone true)
      (by decide)).1 hrids (.inr (.inl hlists)) hno
  · have hsame := ((Fetcher.deletions_made_good rooted_vanishing run_vanishing (hvalid false)
      (hdone false) (by decide)).2 hforgotten hunlisted).2
    simp only [id_eq] at hsame
    exact hsame

end Vanishing

end Fetch

end ArchiveKeeper
