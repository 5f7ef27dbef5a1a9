import ArchiveKeeper.Proofs.Fetch.Run

namespace ArchiveKeeper.Fetch

open Act Progress

variable {σ : Type} {f : Fetcher σ} {s : Source σ} {a : Archive} {p q : Progress σ} {c : Cache}
  {w : σ} {m : Moment σ} {ms ms' : List (Moment σ)} {K : String → Prop} {phase : Phase}

/-- The world that the first of some deeds finds, or else the one that is left in the end. -/
def worldAt : List (Moment σ) → σ → σ
  | [], w => w
  | m :: _, _ => m.world

/-- Every deed is related to the world after it. -/
def Linked (R : Moment σ → σ → Prop) : List (Moment σ) → σ → Prop
  | [], _ => True
  | m :: ms, w => R m (worldAt ms w) ∧ Linked R ms w

section Linked

variable {R : Moment σ → σ → Prop}

theorem worldAt_append : worldAt (ms ++ ms') w = worldAt ms (worldAt ms' w) := by
  cases ms <;> rfl

theorem linked_append :
    Linked R (ms ++ ms') w ↔ Linked R ms (worldAt ms' w) ∧ Linked R ms' w := by
  induction ms with
  | nil => simp [Linked]
  | cons m ms ih => rw [List.cons_append, Linked, Linked, ih, worldAt_append, and_assoc]

theorem linked_concat : Linked R (ms ++ [m]) w ↔ Linked R ms m.world ∧ R m w := by
  rw [linked_append]
  simp [Linked, worldAt]

theorem Linked.of_mem (h : Linked R ms w) (hm : m ∈ ms) : ∃ w', R m w' := by
  induction ms with
  | nil => cases hm
  | cons m' ms ih =>
    rcases List.mem_cons.mp hm with rfl | hm
    · exact ⟨_, h.1⟩
    · exact ih h.2 hm

end Linked

/-- A request for a document or for the deletion of a job. -/
def Deed.Touches (job : String) : Deed → Prop
  | .put job' _ _ _ => job' = job
  | .delete job' _ => job' = job
  | _ => False

/-- A deed of a cycle and the world that it leaves. What is put and deleted is of jobs that are
known and that no location holds. -/
inductive Done (f : Fetcher σ) (K : String → Prop) : Moment σ → σ → Prop
  | visit (location : String) (position : Nat) (a : Archive) (c : Cache) (w : σ) :
    Done f K ⟨.visit location position a, c, w⟩ w
  | list {s : Source σ} (hs : s ∈ f.sources) (c : Cache) (w : σ) :
    Done f K ⟨.list s.location (s.list w).1.outcome, c, w⟩ (s.list w).2
  | read {s : Source σ} (hs : s ∈ f.sources) (a : Archive) (c : Cache) (w : σ) :
    Done f K ⟨.read s.location a (s.read a w).1.outcome, c, w⟩ (s.read a w).2
  | remove {s : Source σ} (hs : s ∈ f.sources) (a : Archive) (c : Cache) (w : σ) :
    Done f K ⟨.remove s.location a (s.remove a w).1.outcome, c, w⟩ (s.remove a w).2
  | put {c : Cache} {job : String} (known : K job) (free : ¬ c.holds job) (path json : String)
    (w : σ) :
    Done f K ⟨.put job path json (f.store.put job path json w).1.outcome, c, w⟩
      (f.store.put job path json w).2
  | delete {c : Cache} {job : String} (known : K job) (free : ¬ c.holds job) (w : σ) :
    Done f K ⟨.delete job (f.store.delete job w).1.outcome, c, w⟩ (f.store.delete job w).2
  | republish (c : Cache) (w : σ) : Done f K
    ⟨.republish ((Overview.republish f.store).bind f.overviewBindings w).1.outcome, c, w⟩
      ((Overview.republish f.store).bind f.overviewBindings w).2
  | deliver {listener : Listener σ} (hl : f.listener = some listener) (events : List Event)
    (c : Cache) (w : σ) : Done f K ⟨.deliver events, c, w⟩ (Event.deliverAll listener events w).2

theorem Done.not_holds {job : String} (h : Done f K m w) (ht : m.deed.Touches job) :
    ¬ m.cache.holds job := by
  cases h with
  | put known free => exact ht ▸ free
  | delete known free => exact ht ▸ free
  | visit => exact ht.elim
  | list => exact ht.elim
  | read => exact ht.elim
  | remove => exact ht.elim
  | republish => exact ht.elim
  | deliver => exact ht.elim

/-- All deeds so far were done, the first one on a given world. -/
def Progress.Deeds (f : Fetcher σ) (K : String → Prop) (start : σ) (p : Progress σ) : Prop :=
  worldAt p.trace p.world = start ∧ Linked (Done f K) p.trace p.world

theorem Progress.Deeds.concat {start : σ} (hp : p.Deeds f K start)
    (ht : q.trace = p.trace ++ [m]) (hm : m.world = p.world) (h : Done f K m q.world) :
    q.Deeds f K start := by
  rw [Progress.Deeds, ht, worldAt_append, worldAt, linked_concat, hm]
  exact ⟨hp.1, hp.2, h⟩

namespace Fetcher

/-- Between two points with the same cache the deeds were done, if a job was not held. -/
def Deeding (f : Fetcher σ) (K : String → Prop) (start : σ) (job : String) (p q : Progress σ) :
    Prop :=
  q.cache = p.cache ∧ (¬ p.cache.holds job → p.Deeds f K start → q.Deeds f K start)

instance (start : σ) (job : String) : IsPreorder (Progress σ) (Deeding f K start job) where
  refl _ := ⟨rfl, fun _ h => h⟩
  trans _ _ _ h h' := ⟨h'.1.trans h.1, fun hj hp => h'.2 (h.1 ▸ hj) (h.2 hj hp)⟩

theorem deeding_ingest {start : σ} (hs : s ∈ f.sources) (hk : K a.job) :
    Respects (Deeding f K start a.job) (f.ingest s a) :=
  respects_ingest (fun _ _ => ⟨rfl, fun _ hp => hp⟩)
    (fun p path json => ⟨rfl, fun hj hp => hp.concat rfl rfl (.put hk hj path json p.world)⟩)
    (fun p => ⟨rfl, fun _ hp => hp.concat rfl rfl (.read hs a p.cache p.world)⟩)
    (fun p => ⟨rfl, fun hj hp => hp.concat rfl rfl (.delete hk hj p.world)⟩)

section Start

variable {start : σ}

theorem deeds_visited {before : List String} {position : Nat} {r : Except Failure Bool}
    (hn : p.cache.locations.Nodup) (hs : s ∈ f.sources) (hk : K a.job)
    (free : a.job ∉ before → a.job ∉ p.cache.ids s.location)
    (h : Visited f s before position a p r q) (hp : p.Deeds f K start) :
    q.Deeds f K start := by
  have htaken : (p.taken s.location position a).Deeds f K start :=
    hp.concat rfl rfl (.visit s.location position a p.cache p.world)
  have hingest {r q'} (new : a.job ∉ before) (alone : ¬ p.cache.heldElsewhere s.location a.job)
      (run : go (f.ingest s a) (p.taken s.location position a) = (r, q')) :
      q'.Deeds f K start := by
    have hnot : ¬ p.cache.holds a.job := Cache.not_holds_of_alone hn (free new) alone
    exact ((deeding_ingest hs hk).of_go run).2 hnot htaken
  cases h with
  | beyond => exact htaken
  | known => exact htaken
  | shared => exact htaken
  | created _ new alone run =>
    have hdone := hingest new alone run
    exact hdone
  | refused _ new alone run =>
    have hdone := hingest new alone run
    exact hdone
  | broken _ new alone run => exact hingest new alone run

theorem deeds_evicted {location job : String} {r : Except Failure (Option Event)}
    (hn : p.cache.locations.Nodup) (hk : K job) (h : Evicted f location job p r q)
    (hp : p.Deeds f K start) : q.Deeds f K start := by
  have hdelete (ha : ¬ (p.cache.evict location job).heldElsewhere location job) :
      ((p.withCache (p.cache.evict location job)).asked (.delete job)
        (f.store.delete job)).Deeds f K start :=
    hp.concat rfl rfl (.delete hk (Cache.not_holds_evict hn ha) p.world)
  cases h with
  | kept => exact hp
  | dropped ha => exact hdelete ha
  | stuck ha => exact hdelete ha

theorem deeds_step (hn : p.cache.locations.Nodup) (h : Step f True K phase p q)
    (hp : p.Deeds f K start) : q.Deeds f K start := by
  cases h with
  | noted h =>
    rw [Progress.Deeds, h.trace, h.world]
    exact hp
  | listed hs => exact hp.concat rfl rfl (.list hs p.cache p.world)
  | visited hs free hk h => exact deeds_visited hn hs hk (free trivial) h hp
  | removed a hs => exact hp.concat rfl rfl (.remove hs a p.cache p.world)
  | evicted hk h => exact deeds_evicted hn hk h hp
  | republished => exact hp.concat rfl rfl (.republish p.cache p.world)
  | delivered hl events => exact hp.concat rfl rfl (.deliver hl events p.cache p.world)

end Start

/-- All that a cycle does is done on the world and the cache that are there. -/
theorem deeds_cycle (hn : (f.sources.map (·.location)).Nodup)
    (hl : c.locations = f.sources.map (·.location)) (hq : (f.cycle c w).2.Heard True K)
    (hheld : ∀ location, ∀ id ∈ c.ids location, K id) : (f.cycle c w).2.Deeds f K w := by
  refine (cycle_induction (I := fun p => p.cache.locations = f.sources.map (·.location) ∧
    p.Deeds f K w) hn hl hq hheld ⟨hl, rfl, trivial⟩ ?_).2
  intro phase p q h hp
  exact ⟨h.locations.trans hp.1, deeds_step (hp.1 ▸ hn) h hp.2⟩

/-- What the listener hears of some deeds, which leave a world behind. Where events are delivered it
is called with each of them in its turn, on the world that the call before left. All other deeds only
make their requests of the sources and the store. -/
inductive Hears (f : Fetcher σ) : List (Moment σ) → σ → List Event → Prop
  | nothing (w : σ) : Hears f [] w []
  | requested {m : Moment σ} {ms : List (Moment σ)} {w : σ} {heard : List Event}
    (done : Done f (fun _ => True) m (worldAt ms w)) (other : ∀ events, m.deed ≠ .deliver events)
    (rest : Hears f ms w heard) : Hears f (m :: ms) w heard
  | called {listener : Listener σ} (hl : f.listener = some listener) {events heard : List Event}
    {c : Cache} {found w : σ} {ms : List (Moment σ)}
    (calls : worldAt ms w = events.foldl (fun w e => (listener e w).2) found)
    (rest : Hears f ms w heard) : Hears f (⟨.deliver events, c, found⟩ :: ms) w (events ++ heard)

theorem hears_of_linked (h : Linked (Done f fun _ => True) ms w) :
    f.Hears ms w (deliveriesOf ms) := by
  induction ms with
  | nil => exact .nothing w
  | cons m ms ih =>
    obtain ⟨hdone, hrest⟩ := h
    have hrequested (other : ∀ events, m.deed ≠ .deliver events) :
        f.Hears (m :: ms) w (deliveriesOf (m :: ms)) := by
      have hsame : deliveriesOf (m :: ms) = deliveriesOf ms := by
        cases hd : m.deed <;> simp_all [deliveriesOf]
      rw [hsame]
      exact .requested hdone other (ih hrest)
    cases hd : m.deed with
    | deliver events =>
      obtain ⟨deed, c, found⟩ := m
      cases hd
      generalize hw : worldAt ms w = w' at hdone
      cases hdone with
      | deliver hl =>
        exact .called hl (hw.trans (Event.deliverAll_eq_foldl _ events found).2) (ih hrest)
    | _ => exact hrequested fun events h => by cases hd.symm.trans h

theorem Hears.eq {heard : List Event} (h : f.Hears ms w heard) : heard = deliveriesOf ms := by
  induction h with
  | nothing => rfl
  | @requested m _ _ _ _ other _ ih =>
    rw [ih]
    cases hd : m.deed <;> simp_all [deliveriesOf]
  | called _ _ _ ih =>
    rw [ih]
    rfl

inductive HearsAll (f : Fetcher σ) : List (Result × Progress σ) → List Event → Prop
  | nothing : HearsAll f [] []
  | more {history : List (Result × Progress σ)} {x : Result × Progress σ} {heard told : List Event}
    (before : HearsAll f history heard) (last : f.Hears x.2.trace x.2.world told) :
    HearsAll f (history ++ [x]) (heard ++ told)

def deliveries (history : List (Result × Progress σ)) : List Event :=
  history.flatMap fun x => deliveriesOf x.2.trace

theorem deliveries_concat (history : List (Result × Progress σ)) (x : Result × Progress σ) :
    deliveries (history ++ [x]) = deliveries history ++ deliveriesOf x.2.trace := by
  simp [deliveries]

theorem HearsAll.eq {history : List (Result × Progress σ)} {heard : List Event}
    (h : f.HearsAll history heard) : heard = deliveries history := by
  induction h with
  | nothing => rfl
  | more _ last ih => rw [ih, last.eq, deliveries_concat]

theorem hears_cycle (hn : (f.sources.map (·.location)).Nodup)
    (hl : c.locations = f.sources.map (·.location)) (distinct : (f.cycle c w).2.DistinctListings) :
    f.Hears (f.cycle c w).2.trace (f.cycle c w).2.world (deliveriesOf (f.cycle c w).2.trace) :=
  hears_of_linked (deeds_cycle hn hl ⟨fun _ => distinct, fun _ _ _ _ _ => trivial⟩
    fun _ _ _ => trivial).2

theorem Run.hearsAll {drift : σ → σ → Prop} {w₀ : σ} {history : List (Result × Progress σ)}
    (run : f.Run drift w₀ history c w) (distinct : ∀ x ∈ history, x.2.DistinctListings) :
    f.HearsAll history (deliveries history) := by
  induction run with
  | prepared => exact .nothing
  | drifted _ _ ih => exact ih distinct
  | cycled run ih =>
    rw [deliveries_concat]
    exact .more (ih fun x hx => distinct x (List.mem_append_left _ hx))
      (hears_cycle run.accepted.nodup run.locations (distinct _ (by simp)))

end Fetcher

end ArchiveKeeper.Fetch
