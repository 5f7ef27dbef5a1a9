import ArchiveKeeper.Proofs.Fetch.Run
import ArchiveKeeper.Proofs.Store.Combined

namespace ArchiveKeeper.Fetch

open Act Progress Store

variable {σ ρ : Type} {f : Fetcher σ} {s : Source σ} {a : Archive} {part : σ → ρ} {inner : Store ρ}
  {V : View ρ} {w : σ} {c : Cache} {job : String} {p q : Progress σ}

/-- The answers to the requests to read an archive of a job. -/
def readsOf (job : String) (ms : List (Moment σ)) : List (Except Failure (List Document)) :=
  ms.filterMap fun m => match m.deed with
    | .read _ a answer => if a.job = job then some answer else none
    | _ => none

@[simp] theorem readsOf_append (ms ms' : List (Moment σ)) :
    readsOf job (ms ++ ms') = readsOf job ms ++ readsOf job ms' := List.filterMap_append

/-- A listener that does not meddle with the store leaves all jobs as they are. -/
theorem spares_told (keeps : Keeps inner V) {listener : Listener σ}
    (told : ∀ e w, V.untouched (part w) (part (listener e w).2)) (events : List Event) (w : σ) :
    (V.zoom part).Spares (fun _ => True) w (Event.deliverAll listener events w).2 := by
  rw [(Event.deliverAll_eq_foldl listener events w).2]
  induction events generalizing w with
  | nil => exact .refl _ w
  | cons e es ih => exact .trans (keeps.untouched _ _ (told e w)) (ih _)

namespace Fetcher

/-- A fetcher stands on a store in a part of its world: its own store may falter, and its sources
and its listener do not meddle with that one. -/
structure StandsOn (f : Fetcher σ) (part : σ → ρ) (inner : Store ρ) (V : View ρ) : Prop where
  store : Falters part inner f.store
  list : ∀ s ∈ f.sources, ∀ w, V.untouched (part w) (part (s.list w).2)
  read : ∀ s ∈ f.sources, ∀ a w, V.untouched (part w) (part (s.read a w).2)
  remove : ∀ s ∈ f.sources, ∀ a w, V.untouched (part w) (part (s.remove a w).2)
  tell : ∀ l, f.listener = some l → ∀ e w, V.untouched (part w) (part (l e w).2)

theorem StandsOn.wavers (h : f.StandsOn part inner V) :
    Wavers part inner (fun _ _ _ => False) f.store := h.store.wavers

theorem StandsOn.refl {V : View σ} (hV : ∀ w, V.untouched w w)
    (hl : ∀ l, f.listener = some l → ∀ e w, (l e w).2 = w)
    (hs : ∀ s ∈ f.sources, ∀ a w, (s.list w).2 = w ∧ (s.read a w).2 = w ∧ (s.remove a w).2 = w) :
    f.StandsOn id f.store V where
  store := .refl f.store
  list s h w := by
    rw [(hs s h default w).1]
    exact hV w
  read s h a w := by
    rw [(hs s h a w).2.1]
    exact hV w
  remove s h a w := by
    rw [(hs s h a w).2.2]
    exact hV w
  tell l h e w := by
    rw [hl l h e w]
    exact hV w

section Requests

variable (keeps : Keeps inner V) (stands : f.StandsOn part inner V)

include keeps stands

theorem spares_put (hj : Job.isId job) (path json : String) (w : σ) :
    (V.zoom part).Spares (· ≠ job) w (f.store.put job path json w).2 :=
  stands.wavers.spares_put keeps hj path json w

theorem filed_put (hj : Job.isId job) {path json : String} (hw : (V.zoom part).ready w)
    (h : (f.store.put job path json w).1.outcome = .ok ()) :
    (V.zoom part).shelf job (f.store.put job path json w).2 =
      ((V.zoom part).shelf job w).file ⟨path, json⟩ := by
  rcases stands.store.put job path json w with ⟨ho, hp⟩ | ⟨⟨e, he⟩, -⟩
  · rw [View.shelf_zoom, hp]
    exact keeps.filed job path json (part w) hj hw (ho ▸ h)
  · rw [h] at he
    cases he

theorem spares_delete (hj : Job.isId job) (w : σ) :
    (V.zoom part).Spares (· ≠ job) w (f.store.delete job w).2 :=
  stands.wavers.spares_delete keeps (fun _ _ _ _ h => h.elim) hj w

theorem deleted_delete (hj : Job.isId job) (hw : (V.zoom part).ready w) :
    (f.store.delete job w).1.outcome = .ok () ∧
      (V.zoom part).bare job (f.store.delete job w).2 := by
  obtain ⟨ho, hp⟩ := stands.store.delete job w
  obtain ⟨hok, hb⟩ := keeps.deleted job (part w) hj hw
  rw [View.bare_zoom, hp]
  exact ⟨ho.trans hok, hb⟩

theorem spares_republish (w : σ) : (V.zoom part).Spares (fun _ => True) w
    ((Overview.republish f.store).bind f.overviewBindings w).2 :=
  stands.wavers.spares_republish keeps w

theorem spares_deliverAll {listener : Listener σ} (hl : f.listener = some listener)
    (events : List Event) (w : σ) :
    (V.zoom part).Spares (fun _ => True) w (Event.deliverAll listener events w).2 :=
  spares_told keeps (stands.tell listener hl) events w

end Requests

/-- A store that was prepared is ready, and there is nothing of any job in it. -/
theorem bare_prepare {remains : String → ρ → ρ → Prop} {w₀ : σ} (keeps : Keeps inner V)
    (wavers : Wavers part inner remains f.store) (hs : V.sound (part w₀)) {log : List Log.Record}
    (h : f.prepare w₀ = (⟨.ok (), log⟩, w)) :
    (V.zoom part).ready w ∧ ∀ job, Job.isId job → (V.zoom part).bare job w := by
  obtain ⟨e, -, hprepare⟩ | ⟨hr, log', hprepare⟩ := prepare_cases f w₀
  · cases h.symm.trans hprepare
  cases h.symm.trans hprepare
  obtain ⟨ho, hp⟩ := wavers.reset w₀ hr
  obtain ⟨hready, hbare⟩ := keeps.reset (part w₀) hs (ho.symm.trans hr)
  rw [← hp] at hready hbare
  obtain ⟨hready', hsame⟩ := wavers.spares_republish keeps _ hready
  exact ⟨hready', fun job hj => (hsame job hj trivial).2 (hbare job hj)⟩

def Sparing (V : View σ) (P : String → Prop) (p q : Progress σ) : Prop :=
  V.Spares P p.world q.world

instance (V : View σ) (P : String → Prop) : IsPreorder (Progress σ) (Sparing V P) where
  refl p := .refl P p.world
  trans _ _ _ h h' := View.Spares.trans h h'

section Ingestion

variable (keeps : Keeps inner V) (stands : f.StandsOn part inner V) (hs : s ∈ f.sources)
  (hj : Job.isId a.job)

include keeps stands

theorem shelf_of_stores {docs : List Document} {w' : σ} (hj : Job.isId job)
    (h : f.Stores job docs w w') (hw : (V.zoom part).ready w) :
    ∃ ds, docs.mapM (stored job) = .ok ds ∧
      (V.zoom part).shelf job w' = ds.foldl Shelf.file ((V.zoom part).shelf job w) := by
  induction h with
  | nil => exact ⟨[], rfl, rfl⟩
  | @cons d d' ds w w' converted put rest ih =>
    obtain ⟨ds', hds, hshelf⟩ := ih (spares_put keeps stands hj d'.path d'.json w hw).1
    rw [filed_put keeps stands hj hw put] at hshelf
    exact ⟨d' :: ds', by simp [List.mapM_cons, converted, hds, bind, Except.bind, pure, Except.pure],
      hshelf⟩

include hs

theorem spares_read (a : Archive) (w : σ) :
    (V.zoom part).Spares (fun _ => True) w (s.read a w).2 :=
  keeps.untouched _ _ (stands.read s hs a w)

include hj

theorem spares_transfer :
    Respects (Sparing (V.zoom part) (· ≠ a.job)) (f.transfer s a) :=
  respects_transfer (fun p _ => .refl _ p.world)
    (fun p path json => spares_put keeps stands hj path json p.world)
    (fun p => (spares_read keeps stands hs a p.world).mono fun _ _ => trivial)

theorem spares_ingest : Respects (Sparing (V.zoom part) (· ≠ a.job)) (f.ingest s a) :=
  respects_ingest (fun p _ => .refl _ p.world)
    (fun p path json => spares_put keeps stands hj path json p.world)
    (fun p => (spares_read keeps stands hs a p.world).mono fun _ _ => trivial)
    (fun p => spares_delete keeps stands hj p.world)

theorem shelf_of_ingest (hw : (V.zoom part).ready p.world) (hb : (V.zoom part).bare a.job p.world)
    (h : go (f.ingest s a) p = (.ok true, q)) :
    ∃ docs ds, (s.read a p.world).1.outcome = .ok docs ∧ docs.mapM (stored a.job) = .ok ds ∧
      (V.zoom part).shelf a.job q.world = Shelf.ofDocuments ds := by
  obtain ⟨-, docs, hr, hst⟩ := ingest_true h
  obtain ⟨hw', hread⟩ := spares_read keeps stands hs a p.world hw
  obtain ⟨-, hb'⟩ := hread a.job hj trivial
  obtain ⟨ds, hds, hshelf⟩ := shelf_of_stores keeps stands hj hst hw'
  refine ⟨docs, ds, hr, hds, hshelf.trans ?_⟩
  rw [View.shelf_zoom, keeps.empty a.job _ hj hw' (hb' hb)]
  rfl

theorem bare_of_ingest (hw : (V.zoom part).ready p.world) {r : Except Failure Bool}
    (h : go (f.ingest s a) p = (r, q)) (hr : r ≠ .ok true) :
    r = .ok false ∧ (V.zoom part).bare a.job q.world := by
  obtain ⟨ht, -⟩ | ⟨-, t, p', l, l', hgo, rfl, rfl⟩ := ingest_cases h
  · exact absurd ht hr
  · have hw' := (spares_transfer keeps stands hs hj).of_go hgo
    obtain ⟨hd, hb⟩ := deleted_delete keeps stands hj (hw' hw).1
    exact ⟨by rw [hd]; rfl, hb⟩

end Ingestion

theorem reads_ingest_of_ne (hj : a.job ≠ job) :
    Respects (Same fun p => readsOf job p.trace) (f.ingest s a) := by
  apply respects_ingest
  all_goals
    intros
    simp [Same, readsOf, hj]

theorem reads_ingest (h : go (f.ingest s a) p = (.ok true, q)) :
    (readsOf a.job q.trace).getLast? = some (s.read a p.world).1.outcome := by
  obtain ⟨⟨p', l, l', hgo, rfl⟩, -⟩ := ingest_true h
  rw [transfer, go_bind, go_ask] at hgo
  dsimp only at hgo
  split at hgo
  · cases hgo
  · rename_i docs hr
    have hst : Respects (Same fun p => readsOf a.job p.trace) (f.storeAll a docs) :=
      respects_storeAll (fun _ _ => rfl) (fun _ _ _ => by simp [Same, readsOf]) docs
    rw [trace_said, show readsOf a.job p'.trace = _ from hst.of_go hgo]
    simp [readsOf]

end Fetcher

end ArchiveKeeper.Fetch
