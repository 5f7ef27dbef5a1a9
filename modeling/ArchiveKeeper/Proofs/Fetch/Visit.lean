import ArchiveKeeper.Proofs.Cache
import ArchiveKeeper.Proofs.Fetch.Ingestion

namespace ArchiveKeeper.Fetch

open Act Progress

variable {σ ε : Type} {f : Fetcher σ ε} {s : Source σ} {a : Archive} {before : List String}
  {position : Nat} {location other job id : String} {p q : Progress σ}

def Progress.withCache (c : Cache) (p : Progress σ) : Progress σ := { p with cache := c }

/-- The deeds by which an archive is transferred, or by which that is undone. -/
def Deed.isTransfer : Deed → Bool
  | .read .. | .put .. | .delete .. => true
  | _ => false

namespace Fetcher

/-- What becomes of an archive that is taken up at a position of its listing. -/
inductive Visited (f : Fetcher σ ε) (s : Source σ) (before : List String) (position : Nat)
    (a : Archive) (p : Progress σ) : Except Failure Bool → Progress σ → Prop
  | beyond (beyond : f.policy.isBeyond position) :
    Visited f s before position a p (.ok true) (p.taken s.location position a)
  | known (within : ¬ f.policy.isBeyond position) (known : a.job ∈ before) (l : Log.Record) :
    Visited f s before position a p (.ok false) ((p.taken s.location position a).said l)
  | shared (within : ¬ f.policy.isBeyond position) (new : a.job ∉ before)
    (elsewhere : p.cache.heldElsewhere s.location a.job) (l : Log.Record) :
    Visited f s before position a p (.ok false)
      (((p.taken s.location position a).said l).withCache (p.cache.ingest s.location a.job))
  | created (within : ¬ f.policy.isBeyond position) (new : a.job ∉ before)
    (alone : ¬ p.cache.heldElsewhere s.location a.job) {q : Progress σ}
    (run : go (f.ingest s a) (p.taken s.location position a) = (.ok true, q)) :
    Visited f s before position a p (.ok false)
      { q with cache := q.cache.ingest s.location a.job, created := q.created ++ [a.job] }
  | refused (within : ¬ f.policy.isBeyond position) (new : a.job ∉ before)
    (alone : ¬ p.cache.heldElsewhere s.location a.job) {q : Progress σ}
    (run : go (f.ingest s a) (p.taken s.location position a) = (.ok false, q)) :
    Visited f s before position a p (.ok false) { q with failedJobs := q.failedJobs ++ [a.job] }
  | broken (within : ¬ f.policy.isBeyond position) (new : a.job ∉ before)
    (alone : ¬ p.cache.heldElsewhere s.location a.job) {e : Failure} {q : Progress σ}
    (run : go (f.ingest s a) (p.taken s.location position a) = (.error e, q)) :
    Visited f s before position a p (.error e) q

theorem visited {r : Except Failure Bool} (h : go (f.visit s before position a) p = (r, q)) :
    Visited f s before position a p r q := by
  rw [visit, go_bind, go_takeUp] at h
  dsimp only at h
  -- the branches are those of a visit, in the order in which it decides
  split at h
  · rename_i hb
    cases h
    exact .beyond hb
  rename_i hw
  split at h
  · rename_i hk
    cases h
    exact .known hw hk _
  rename_i hn
  rw [go_bind, go_get] at h
  dsimp only at h
  split at h
  · rename_i he
    cases h
    exact Visited.shared (p := p) hw hn he _
  rename_i he
  rw [go_bind] at h
  rcases hi : go (f.ingest s a) (p.taken s.location position a) with ⟨e | b, q'⟩
  · rw [hi] at h
    cases h
    exact Visited.broken (p := p) hw hn he hi
  · rw [hi] at h
    cases b with
    | true =>
      cases h
      exact Visited.created (p := p) hw hn he hi
    | false =>
      cases h
      exact Visited.refused (p := p) hw hn he hi

/-- What becomes of a job that is evicted from a location. -/
inductive Evicted (f : Fetcher σ ε) (location job : String) (p : Progress σ) :
    Except Failure (Option Event) → Progress σ → Prop
  | kept (elsewhere : (p.cache.evict location job).heldElsewhere location job) (l : Log.Record) :
    Evicted f location job p (.ok none) ((p.withCache (p.cache.evict location job)).said l)
  | dropped (alone : ¬ (p.cache.evict location job).heldElsewhere location job)
    (deleted : (f.store.delete job p.world).1.outcome = .ok ()) :
    Evicted f location job p (.ok (some ⟨.deleted, job⟩))
      ((p.withCache (p.cache.evict location job)).asked (.delete job) (f.store.delete job))
  | stuck (alone : ¬ (p.cache.evict location job).heldElsewhere location job) {e : Failure}
    (undeleted : (f.store.delete job p.world).1.outcome = .error e) :
    Evicted f location job p (.error e)
      ((p.withCache (p.cache.evict location job)).asked (.delete job) (f.store.delete job))

theorem evicted {r : Except Failure (Option Event)}
    (h : go (f.evict location job) p = (r, q)) : Evicted f location job p r q := by
  rw [evict, go_bind, go_modify] at h
  dsimp only at h
  rw [go_bind, go_get] at h
  dsimp only at h
  split at h
  · rename_i he
    cases h
    exact .kept he _
  rename_i he
  rw [go_bind, go_deleteJob] at h
  dsimp only at h
  cases hd : (f.store.delete job p.world).1.outcome with
  | ok u =>
    rw [hd] at h
    cases h
    exact .dropped he hd
  | error e =>
    rw [hd] at h
    cases h
    exact .stuck he hd

def Doing (kind : Deed → Bool) (p q : Progress σ) : Prop :=
  ∃ ms, q.trace = p.trace ++ ms ∧ ∀ m ∈ ms, kind m.deed

instance (kind : Deed → Bool) : IsPreorder (Progress σ) (Doing kind) where
  refl p := ⟨[], by simp, by simp⟩
  trans p q r h h' := by
    obtain ⟨ms, ht, hk⟩ := h
    obtain ⟨ms', ht', hk'⟩ := h'
    exact ⟨ms ++ ms', by rw [ht', ht, List.append_assoc],
      fun m hm => (List.mem_append.mp hm).elim (hk m) (hk' m)⟩

theorem doing_asked {α : Type} {kind : Deed → Bool} (deed : Except Failure α → Deed)
    (o : Operation σ α) (h : ∀ answer, kind (deed answer)) : Doing kind p (p.asked deed o) :=
  ⟨_, trace_asked deed o, by simp [h]⟩

theorem doing_ingest : Respects (Doing Deed.isTransfer) (f.ingest s a) :=
  respects_ingest (fun p _ => refl_of (Doing Deed.isTransfer) p)
    (fun _ _ _ => doing_asked _ _ fun _ => rfl) (fun _ => doing_asked _ _ fun _ => rfl)
    (fun _ => doing_asked _ _ fun _ => rfl)

theorem ingest_books {r : Except Failure Bool} (h : go (f.ingest s a) p = (r, q)) :
    q.cache = p.cache ∧ q.created = p.created := by
  have hr : Respects (Same fun p => (p.cache, p.created)) (f.ingest s a) :=
    respects_ingest (fun _ _ => rfl) (fun _ _ _ => rfl) (fun _ => rfl) (fun _ => rfl)
  have hr := hr p
  rw [h] at hr
  exact Prod.mk.inj hr

namespace Visited

variable {r : Except Failure Bool}

/-- What is taken up does to the world what its ingestion does, if anything. -/
theorem worlds {R : σ → σ → Prop} (refl : ∀ w, R w w)
    (ingest : Respects (fun p q => R p.world q.world) (f.ingest s a))
    (h : Visited f s before position a p r q) : R p.world q.world := by
  have hi {r q'} (run : go (f.ingest s a) (p.taken s.location position a) = (r, q')) :
      R p.world q'.world := by
    have hr := ingest.of_go run
    exact hr
  -- only the books differ from where the ingestion ended
  cases h with
  | beyond => exact refl p.world
  | known => exact refl p.world
  | shared => exact refl p.world
  | created _ _ _ run =>
    have hr := hi run
    exact hr
  | refused _ _ _ run =>
    have hr := hi run
    exact hr
  | broken _ _ _ run => exact hi run

/-- When an archive is taken up, there is nothing to be done but its transfer. -/
theorem trace (h : Visited f s before position a p r q) :
    ∃ ms, q.trace = p.trace ++ ⟨.visit s.location position a, p.cache, p.world⟩ :: ms ∧
      ∀ m ∈ ms, m.deed.isTransfer := by
  have hi {r q'} (run : go (f.ingest s a) (p.taken s.location position a) = (r, q')) :
      ∃ ms, q'.trace = p.trace ++ ⟨.visit s.location position a, p.cache, p.world⟩ :: ms ∧
        ∀ m ∈ ms, m.deed.isTransfer := by
    obtain ⟨ms, ht, hms⟩ := doing_ingest.of_go run
    exact ⟨ms, by simpa using ht, hms⟩
  cases h with
  | beyond => exact ⟨[], rfl, by simp⟩
  | known => exact ⟨[], rfl, by simp⟩
  | shared => exact ⟨[], rfl, by simp⟩
  | created _ _ _ run =>
    obtain ⟨ms, hms⟩ := hi run
    exact ⟨ms, hms⟩
  | refused _ _ _ run =>
    obtain ⟨ms, hms⟩ := hi run
    exact ⟨ms, hms⟩
  | broken _ _ _ run => exact hi run

theorem locations (h : Visited f s before position a p r q) :
    q.cache.locations = p.cache.locations := by
  cases h with
  | beyond => rfl
  | known => rfl
  | shared => exact Cache.locations_ingest
  | created _ _ _ run => exact Cache.locations_ingest.trans (by rw [(ingest_books run).1]; rfl)
  | refused _ _ _ run => rw [(ingest_books run).1]; rfl
  | broken _ _ _ run => rw [(ingest_books run).1]; rfl

theorem ids_of_ne (h : Visited f s before position a p r q) (ho : other ≠ s.location) :
    q.cache.ids other = p.cache.ids other := by
  cases h with
  | beyond => rfl
  | known => rfl
  | shared => exact Cache.ids_update_of_ne ho _
  | created _ _ _ run =>
    exact (Cache.ids_update_of_ne ho _).trans (by rw [(ingest_books run).1]; rfl)
  | refused _ _ _ run => rw [(ingest_books run).1]; rfl
  | broken _ _ _ run => rw [(ingest_books run).1]; rfl

/-- A location comes to hold an archive that is new and within the limit if another location holds
it, or else if it loads. -/
theorem mem_ids (h : Visited f s before position a p r q) (hl : s.location ∈ p.cache.locations) :
    id ∈ q.cache.ids s.location ↔ id ∈ p.cache.ids s.location ∨ id = a.job ∧
      ¬ f.policy.isBeyond position ∧ a.job ∉ before ∧
        (p.cache.heldElsewhere s.location a.job ∨ f.Loads s a p.world) := by
  cases h with
  | beyond hb => simp [hb]
  | known _ hk => simp [hk]
  | shared hw hn he =>
    refine (Cache.mem_ids_ingest hl).trans ?_
    simp [hw, hn, he]
  | @created hw hn ha q run =>
    have hc := (ingest_books run).1
    obtain ⟨-, docs, hread, hstores⟩ := ingest_true run
    have hload : f.Loads s a p.world := ⟨docs, _, hread, hstores⟩
    rw [show ({ q with cache := q.cache.ingest s.location a.job, created := q.created ++ [a.job] }
      : Progress σ).cache = p.cache.ingest s.location a.job by simp [hc], Cache.mem_ids_ingest hl]
    simp [hw, hn, hload]
  | @refused hw hn ha q run =>
    have hc := (ingest_books run).1
    obtain ⟨hr, -⟩ | ⟨hload, -⟩ := ingest_cases run
    · cases hr
    · rw [show ({ q with failedJobs := q.failedJobs ++ [a.job] } : Progress σ).cache = p.cache by
        simp [hc]]
      simp [ha, show ¬ f.Loads s a p.world from hload]
  | broken hw hn ha run =>
    have hc := (ingest_books run).1
    obtain ⟨hr, -⟩ | ⟨hload, -⟩ := ingest_cases run
    · cases hr
    · rw [hc]
      simp [ha, show ¬ f.Loads s a p.world from hload]

end Visited

end Fetcher

end ArchiveKeeper.Fetch
