import ArchiveKeeper.Proofs.Fetch.Announcements
import ArchiveKeeper.Proofs.Fetch.ConfiguredStore
import ArchiveKeeper.Proofs.Store.Publication

namespace ArchiveKeeper

open Files Store

namespace Site

variable {τ : Type}

/-- There are no overviews in the store of a configuration but those of jobs, and a combined one. -/
def neat (base : Path) (c : Config.Storage) : Site τ → Prop :=
  match c.backend with
  | .files => fun s => Directory.Neat (Path.resolve base c.directory) s.files
  | .table => fun s => Database.view.ready (s.files, s.connection)

/-- What a deletion that fails may leave of a job. In a table it leaves all of it. -/
def remains (base : Path) (c : Config.Storage) : String → Site τ → Site τ → Prop :=
  match c.backend with
  | .files => fun job s s' =>
    Directory.Thinned (Path.resolve base c.directory) job s.files s'.files
  | .table => fun _ s s' => (s'.files, s'.connection) = (s.files, s.connection)

theorem store_publishes {base : Path} (hbase : ∀ s ∈ base, Path.IsPlain s) (c : Config.Storage) :
    Publishes (Site.store base c : Store (Site τ)) (Site.view base c) (Site.neat base c)
      (Site.remains base c) := by
  unfold Site.store Site.view Site.neat Site.remains
  refine Publishes.bindBackend ?_
  cases c.backend with
  | files =>
    refine (directory_publishes (Path.plain_resolve hbase _)).zoom ?_
    exact fun _ _ => rfl
  | table =>
    refine (database_publishes _).zoom ?_
    exact fun _ _ => rfl

end Site

namespace Fetch

open Act Progress

variable {σ ρ τ : Type} {f : Fetcher σ} {s : Source σ} {a : Archive} {part : σ → ρ}
  {inner : Store ρ} {V : View ρ} {neat : ρ → Prop} {remains : String → ρ → ρ → Prop} {w w₀ : σ}
  {c : Cache} {p q : Progress σ} {phase : Phase} {D : Prop} {drift : σ → σ → Prop}
  {history : List (Result × Progress σ)}

def Deed.isFailedPublication : Deed → Bool
  | .republish (.ok (some _)) => false
  | .republish _ => true
  | _ => false

/-- Whenever the combined overview was to be published, it was. -/
def Progress.PublishesAll (p : Progress σ) : Prop :=
  ∀ m ∈ p.trace, ¬ m.deed.isFailedPublication

namespace Fetcher

/-- A fetcher stands on a store in a part of its world, as in `StandsOn`, but its own store may fail
in all that it does. -/
structure LeansOn (f : Fetcher σ) (part : σ → ρ) (inner : Store ρ) (V : View ρ)
    (remains : String → ρ → ρ → Prop) : Prop where
  store : Wavers part inner remains f.store
  list : ∀ s ∈ f.sources, ∀ w, V.untouched (part w) (part (s.list w).2)
  read : ∀ s ∈ f.sources, ∀ a w, V.untouched (part w) (part (s.read a w).2)
  remove : ∀ s ∈ f.sources, ∀ a w, V.untouched (part w) (part (s.remove a w).2)
  tell : ∀ l, f.listener = some l → ∀ e w, V.untouched (part w) (part (l e w).2)

theorem StandsOn.leansOn (h : f.StandsOn part inner V) : f.LeansOn part inner V remains :=
  ⟨h.store.wavers, h.list, h.read, h.remove, h.tell⟩

def Leaving (inner : Store ρ) (neat : ρ → Prop) (part : σ → ρ) (p q : Progress σ) : Prop :=
  inner.Leaves neat (part p.world) (part q.world)

instance : IsPreorder (Progress σ) (Leaving inner neat part) where
  refl p := .refl inner neat (part p.world)
  trans _ _ _ h h' := Leaves.trans h h'

section Steps

variable (publishes : Publishes inner V neat remains) (leans : f.LeansOn part inner V remains)

include publishes leans

theorem leaving_ingest (hs : s ∈ f.sources) (hj : Job.isId a.job) :
    Respects (Leaving inner neat part) (f.ingest s a) :=
  respects_ingest (fun p _ => .refl inner neat (part p.world))
    (fun p path json => leaves_put publishes leans.store hj path json p.world)
    (fun p => publishes.untouched _ _ (leans.read s hs a p.world))
    (fun p => leaves_delete publishes leans.store hj p.world)

theorem leaving_visited {before : List String} {position : Nat} {r : Except Failure Bool}
    (hs : s ∈ f.sources) (hj : Job.isId a.job) (h : Visited f s before position a p r q) :
    Leaving inner neat part p q :=
  h.worlds (R := fun w w' => inner.Leaves neat (part w) (part w'))
    (fun w => .refl inner neat (part w)) (leaving_ingest publishes leans hs hj)

theorem leaving_step (hphase : phase ≠ .close) (h : Step f D (fun job => Job.isId job) phase p q) :
    Leaving inner neat part p q := by
  cases h with
  | noted h =>
    rw [Leaving, h.world]
    exact .refl inner neat (part p.world)
  | listed hs => exact publishes.untouched _ _ (leans.list _ hs p.world)
  | visited hs _ hj h => exact leaving_visited publishes leans hs hj h
  | removed a hs => exact publishes.untouched _ _ (leans.remove _ hs a p.world)
  | evicted hj h =>
    cases h with
    | kept => exact .refl inner neat (part p.world)
    | dropped => exact leaves_delete publishes leans.store hj p.world
    | stuck => exact leaves_delete publishes leans.store hj p.world
  | republished => exact absurd rfl hphase
  | delivered => exact absurd rfl hphase

theorem leaving_steps (hphase : phase ≠ .close)
    (h : Steps f D (fun job => Job.isId job) phase p q) : Leaving inner neat part p q := by
  induction h with
  | refl => exact refl_of (Leaving inner neat part) p
  | tail _ h ih =>
    exact trans_of (Leaving inner neat part) ih (leaving_step publishes leans hphase h)

theorem leaves_deliverAll {listener : Listener σ} (hl : f.listener = some listener)
    (events : List Event) (w : σ) :
    inner.Leaves neat (part w) (part (Event.deliverAll listener events w).2) := by
  rw [(Event.deliverAll_eq_foldl listener events w).2]
  induction events generalizing w with
  | nil => exact .refl inner neat (part w)
  | cons e es ih => exact (publishes.untouched _ _ (leans.tell listener hl e w)).trans (ih _)

variable (keeps : Keeps inner V)

include keeps

theorem neat_step (h : Step f D (fun job => Job.isId job) phase p q) (hp : neat (part p.world)) :
    neat (part q.world) := by
  cases phase with
  | survey => exact (leaving_step publishes leans (by simp) h hp).1
  | clearance => exact (leaving_step publishes leans (by simp) h hp).1
  | close =>
    cases h with
    | noted h => rwa [h.world]
    | republished => exact (current_republish keeps publishes leans.store p.world hp).1
    | delivered hl events => exact (leaves_deliverAll publishes leans hl events p.world hp).1

/-- A listener that is told finds the combined overview current, and leaves it so. -/
theorem current_deliverAll {listener : Listener σ} (hl : f.listener = some listener)
    (events : List Event) (hw : neat (part w)) (h : inner.Current (part w)) :
    inner.Current (part (Event.deliverAll listener events w).2) := by
  rw [(Event.deliverAll_eq_foldl listener events w).2]
  induction events generalizing w with
  | nil => exact h
  | cons e es ih =>
    have ht := leans.tell listener hl e w
    exact ih (publishes.untouched _ _ ht hw).1 (h.of_untouched keeps publishes hw ht)

theorem current_afterPublication {events : List Event} (hne : events ≠ [])
    (hw : neat (part p.world)) (hp : (f.afterPublication events p).PublishesAll) :
    neat (part (f.afterPublication events p).world) ∧
      inner.Current (part (f.afterPublication events p).world) := by
  rw [afterPublication, if_pos hne] at hp ⊢
  obtain ⟨hneat, hcurrent⟩ := current_republish keeps publishes leans.store p.world hw
  refine ⟨hneat, ?_⟩
  have hlast := hp _ (List.mem_append_right _ (List.mem_singleton.mpr rfl))
  change ¬ Deed.isFailedPublication
    (.republish (Overview.republish f.store p.world).1.outcome) = true at hlast
  -- only a publication that went through leaves this last deed a success
  rcases ho : (Overview.republish f.store p.world).1.outcome with e | _ | n
  · simp [ho, Deed.isFailedPublication] at hlast
  · simp [ho, Deed.isFailedPublication] at hlast
  · exact hcurrent n ho

theorem current_prepare (hs : V.sound (part w₀)) {log : List Log.Record}
    (h : f.prepare w₀ = (⟨.ok (), log⟩, w)) : neat (part w) ∧
      ((∃ n, (Overview.republish f.store (f.store.reset w₀).2).1.outcome = .ok (some n)) →
        inner.Current (part w)) := by
  obtain ⟨e, -, hprepare⟩ | ⟨hr, log', hprepare⟩ := prepare_cases f w₀
  · cases h.symm.trans hprepare
  cases h.symm.trans hprepare
  obtain ⟨ho, hp⟩ := leans.store.reset w₀ hr
  have hreset := publishes.reset (part w₀) hs (ho.symm.trans hr)
  rw [← hp] at hreset
  obtain ⟨hneat, hcurrent⟩ := current_republish keeps publishes leans.store _ hreset
  exact ⟨hneat, fun ⟨n, hn⟩ => hcurrent n hn⟩

theorem Run.stays_neat (hs : V.sound (part w₀))
    (hdrift : ∀ w w', drift w w' → V.untouched (part w) (part w'))
    (run : f.Run drift w₀ history c w) (hv : ∀ x ∈ history, x.2.ValidListings) :
    neat (part w) := by
  -- the reset makes the store neat, and no step of a cycle undoes that, also where it fails
  induction run with
  | prepared _ hprepare => exact (current_prepare publishes leans keeps hs hprepare).1
  | drifted _ drifts ih => exact (publishes.untouched _ _ (hdrift _ _ drifts) (ih hv)).1
  | @cycled history c w run ih =>
    have hv' x (hx : x ∈ history) := hv x (List.mem_append_left _ hx)
    have hlast := hv (f.cycle c w) (List.mem_append_right _ (List.mem_singleton.mpr rfl))
    exact cycle_induction (D := False) (K := fun id => Job.isId id)
      (I := fun p => neat (part p.world)) run.accepted.nodup run.locations ⟨False.elim, hlast⟩
      (run.isId_of_held hv') (ih hv') fun _ _ _ h => neat_step publishes leans keeps h

end Steps

section Close

variable {events : List Event}

theorem world_closed_nil (f : Fetcher σ) (p : Progress σ) : (f.closed [] p).world = p.world := by
  unfold closed afterDelivery afterPublication
  split <;> rfl

theorem trace_closed (f : Fetcher σ) (events : List Event) (p : Progress σ) :
    ∃ ms, (f.closed events p).trace = (f.afterPublication events p).trace ++ ms ∧
      ∀ m ∈ ms, m.deed = .deliver events ∧ m.world = (f.afterPublication events p).world := by
  unfold closed afterDelivery
  split
  · exact ⟨[], by simp, by simp⟩
  · exact ⟨_, trace_asked _ _, by simp⟩

/-- Once a cycle has closed with something to announce, the combined overview is current, and so it
is whenever the listener is told. -/
theorem current_closed (publishes : Publishes inner V neat remains)
    (leans : f.LeansOn part inner V remains) (keeps : Keeps inner V) (hne : events ≠ [])
    (hw : neat (part p.world)) (hp : (f.closed events p).PublishesAll) :
    inner.Current (part (f.closed events p).world) ∧ ∀ listener, f.listener = some listener →
      ∀ told, inner.Current
        (part (Event.deliverAll listener told (f.afterPublication events p).world).2) := by
  obtain ⟨ms, ht, -⟩ := trace_closed f events p
  rw [PublishesAll, ht] at hp
  obtain ⟨hneat, hcurrent⟩ := current_afterPublication publishes leans keeps hne hw
    fun m hm => hp m (List.mem_append_left _ hm)
  have htold (listener : Listener σ) (hl : f.listener = some listener) (told : List Event) :=
    current_deliverAll publishes leans keeps hl told hneat hcurrent
  refine ⟨?_, htold⟩
  unfold closed afterDelivery
  split
  · exact hcurrent
  · rename_i listener hl
    exact htold listener hl events

end Close

namespace Through

variable {p₀ p₁ p₂ p₃ : Progress σ} {left : Leftover σ} {beyond gone : List Event}
  (h : Through f c w p₀ p₁ p₂ p₃ left beyond gone) (hn : (f.sources.map (·.location)).Nodup)
  (hl : c.locations = f.sources.map (·.location))

include h hn hl

theorem events_eq_nil_iff : eventsOf p₁.created beyond gone = [] ↔
    (f.cycle c w).1.created = [] ∧ (f.cycle c w).1.deleted = [] := by
  obtain ⟨ms, hms⟩ := h.surveyed hn hl
  obtain ⟨hbeyond, hgone⟩ := h.cleared (hl ▸ hn) hms
  rw [h.created, hgone.created, hbeyond.created, h.deleted_eq (hl ▸ hn) hms, eventsOf]
  simp only [List.append_eq_nil_iff, List.map_eq_nil_iff, and_assoc]

theorem heard {K : String → Prop} (hq : (f.cycle c w).2.Heard D K) : p₁.Heard D K := by
  -- whatever is evicted, no listing is forgotten
  have hclear := h.steps_clearance hn hl p₁.heard_true fun _ _ _ => trivial
  have hclose : PlainSteps f .close p₃ (f.cycle c w).2 := h.steps_close
  exact hclear.heard (hclose.heard hq)

/-- What closes a cycle: the combined overview is published if there is anything to announce, and
then the listener is told. -/
theorem closing {m : Moment σ} (hm : m ∈ (f.cycle c w).2.trace) (hc : m.deed.isClosing) :
    (∃ answer, m.deed = .republish answer) ∧ eventsOf p₁.created beyond gone ≠ [] ∨
      m.deed = .deliver (eventsOf p₁.created beyond gone) ∧
        m.world = (f.afterPublication (eventsOf p₁.created beyond gone) p₃).world := by
  obtain ⟨ms, ht, hms⟩ := trace_closed f (eventsOf p₁.created beyond gone) p₃
  rw [h.close.trace, ht] at hm
  rcases List.mem_append.mp hm with hm | hm
  · left
    unfold afterPublication at hm
    split at hm
    · rename_i hne
      rw [trace_asked] at hm
      rcases List.mem_append.mp hm with hm | hm
      · exact absurd hc (h.unclosed hn hl m hm)
      · rw [List.mem_singleton.mp hm]
        exact ⟨⟨_, rfl⟩, hne⟩
    · exact absurd hc (h.unclosed hn hl m hm)
  · exact .inr (hms m hm)

theorem leaves (publishes : Publishes inner V neat remains)
    (leans : f.LeansOn part inner V remains) (hids : ∀ location, ∀ id ∈ c.ids location, Job.isId id)
    (hv : (f.cycle c w).2.ValidListings) : inner.Leaves neat (part w) (part p₃.world) := by
  have heard : p₁.Heard False fun id => Job.isId id := h.heard hn hl ⟨False.elim, hv⟩
  have hsurvey := leaving_steps publishes leans (by simp) (h.steps hn hl _ _ heard)
  have hclear := leaving_steps publishes leans (by simp) (h.steps_clearance hn hl heard hids)
  exact hsurvey.trans hclear

/-- A cycle with something to announce leaves the combined overview current, and shows it so to the
listener. -/
theorem current (publishes : Publishes inner V neat remains)
    (leans : f.LeansOn part inner V remains) (keeps : Keeps inner V)
    (hids : ∀ location, ∀ id ∈ c.ids location, Job.isId id)
    (hv : (f.cycle c w).2.ValidListings) (hw : neat (part w))
    (hpub : (f.cycle c w).2.PublishesAll) (hne : eventsOf p₁.created beyond gone ≠ []) :
    inner.Current (part (f.cycle c w).2.world) ∧ ∀ listener, f.listener = some listener →
      ∀ told, inner.Current (part (Event.deliverAll listener told
        (f.afterPublication (eventsOf p₁.created beyond gone) p₃).world).2) := by
  have hclose := h.close
  rw [PublishesAll, hclose.trace] at hpub
  rw [hclose.world]
  exact current_closed publishes leans keeps hne (h.leaves hn hl publishes leans hids hv hw).1 hpub

theorem leaves_of_quiet (publishes : Publishes inner V neat remains)
    (leans : f.LeansOn part inner V remains) (hids : ∀ location, ∀ id ∈ c.ids location, Job.isId id)
    (hv : (f.cycle c w).2.ValidListings) (hquiet : eventsOf p₁.created beyond gone = []) :
    inner.Leaves neat (part w) (part (f.cycle c w).2.world) := by
  have hclose := h.close
  rw [hquiet] at hclose
  rw [hclose.world, world_closed_nil]
  exact h.leaves hn hl publishes leans hids hv

end Through

end Fetcher

end Fetch

end ArchiveKeeper
