import ArchiveKeeper.Bundle
import ArchiveKeeper.Proofs.Job.Path
import ArchiveKeeper.Store.Basic
import Mathlib.Tactic.Common

namespace ArchiveKeeper.Store

variable {σ ρ α : Type} {job path json : String}

abbrev Shelf := String → Option String

namespace Shelf

def empty : Shelf := fun _ => none

/-- Files a document in place of the one that had its path. -/
def file (s : Shelf) (d : Document) : Shelf := fun path =>
  if path = d.path then some d.json else s path

def ofDocuments (docs : List Document) : Shelf := docs.foldl file empty

end Shelf

/-- What is seen of the state of a store. -/
structure View (ρ : Type) where
  /-- The store may be reset. -/
  sound : ρ → Prop
  /-- The store was reset, and nothing else has meddled with it. -/
  ready : ρ → Prop
  /-- There is nothing of a job. -/
  bare : String → ρ → Prop
  shelf : String → ρ → Shelf
  /-- Nothing that belongs to the store was changed. -/
  untouched : ρ → ρ → Prop
  /-- The system can tell whether there is something of a job. -/
  visible : String → Prop

namespace View

variable {V : View ρ} {w w' w'' : ρ} {P Q : String → Prop}

def Spares (V : View ρ) (P : String → Prop) (w w' : ρ) : Prop :=
  V.ready w → V.ready w' ∧ ∀ job, Job.isId job → P job →
    V.shelf job w' = V.shelf job w ∧ (V.bare job w → V.bare job w')

theorem Spares.refl (P : String → Prop) (w : ρ) : V.Spares P w w :=
  fun hw => ⟨hw, fun _ _ _ => ⟨rfl, fun h => h⟩⟩

theorem Spares.trans (h : V.Spares P w w') (h' : V.Spares P w' w'') : V.Spares P w w'' := by
  intro hw
  obtain ⟨hw', hs⟩ := h hw
  obtain ⟨hw'', hs'⟩ := h' hw'
  exact ⟨hw'', fun job hj hp => ⟨(hs' job hj hp).1.trans (hs job hj hp).1,
    (hs' job hj hp).2 ∘ (hs job hj hp).2⟩⟩

theorem Spares.mono (h : V.Spares P w w') (hq : ∀ job, Q job → P job) : V.Spares Q w w' := by
  intro hw
  obtain ⟨hw', hs⟩ := h hw
  exact ⟨hw', fun job hj hp => hs job hj (hq job hp)⟩

end View

/-- A store that keeps the documents of jobs. -/
structure Keeps (S : Store ρ) (V : View ρ) : Prop where
  reset : ∀ w, V.sound w → (S.reset w).1.outcome = .ok () →
    V.ready (S.reset w).2 ∧ ∀ job, Job.isId job → V.bare job (S.reset w).2
  untouched : ∀ w w', V.untouched w w' → V.Spares (fun _ => True) w w'
  put : ∀ job path json w, Job.isId job → V.Spares (· ≠ job) w (S.put job path json w).2
  filed : ∀ job path json w, Job.isId job → V.ready w →
    (S.put job path json w).1.outcome = .ok () →
    V.shelf job (S.put job path json w).2 = (V.shelf job w).file ⟨path, json⟩
  delete : ∀ job w, Job.isId job → V.Spares (· ≠ job) w (S.delete job w).2
  deleted : ∀ job w, Job.isId job → V.ready w →
    (S.delete job w).1.outcome = .ok () ∧ V.bare job (S.delete job w).2
  listing : ∀ w, V.Spares (fun _ => True) w (S.listOverviews w).2
  publish : ∀ json w, V.Spares (fun _ => True) w (S.publish json w).2
  empty : ∀ job w, Job.isId job → V.ready w → V.bare job w → V.shelf job w = Shelf.empty
  get : ∀ job path w, Job.isId job → V.ready w → Job.InTree job path →
    ∀ text, (S.get path w).1.outcome = .ok (some text) ↔ V.shelf job w path = some text
  overviews : ∀ w, V.ready w → ∃ os, (S.listOverviews w).1.outcome = .ok os ∧
    ∀ job, Job.isId job → ∀ json, ⟨job, json⟩ ∈ os ↔ V.shelf job w Job.overviewPath = some json
  absent : ∀ job w, Job.isId job → V.ready w → V.bare job w →
    (S.holds job w).1.outcome ≠ .ok true ∧ (V.visible job → (S.holds job w).1.outcome = .ok false)

def View.zoom (part : σ → ρ) (V : View ρ) : View σ where
  sound w := V.sound (part w)
  ready w := V.ready (part w)
  bare job w := V.bare job (part w)
  shelf job w := V.shelf job (part w)
  untouched w w' := V.untouched (part w) (part w')
  visible := V.visible

section Zoom

variable {V : View ρ} {part : σ → ρ} {w w' : σ}

@[simp] theorem View.ready_zoom : (V.zoom part).ready w ↔ V.ready (part w) := Iff.rfl

@[simp] theorem View.bare_zoom : (V.zoom part).bare job w ↔ V.bare job (part w) := Iff.rfl

@[simp] theorem View.shelf_zoom : (V.zoom part).shelf job w = V.shelf job (part w) := rfl

theorem View.spares_zoom {P : String → Prop} :
    (V.zoom part).Spares P w w' ↔ V.Spares P (part w) (part w') := Iff.rfl

end Zoom

theorem Keeps.zoom {S : Store ρ} {V : View ρ} (h : Keeps S V) {part : σ → ρ} {set : ρ → σ → σ}
    (lens : ∀ r w, part (set r w) = r) : Keeps (S.zoom part set) (V.zoom part) where
  reset w := by simpa [Store.zoom, Operation.zoom, View.zoom, lens] using h.reset (part w)
  untouched w w' := h.untouched (part w) (part w')
  put job path json w := by
    simpa [Store.zoom, Operation.zoom, View.zoom, View.Spares, lens] using
      h.put job path json (part w)
  filed job path json w := by
    simpa [Store.zoom, Operation.zoom, View.zoom, lens] using h.filed job path json (part w)
  delete job w := by
    simpa [Store.zoom, Operation.zoom, View.zoom, View.Spares, lens] using h.delete job (part w)
  deleted job w := by
    simpa [Store.zoom, Operation.zoom, View.zoom, lens] using h.deleted job (part w)
  listing w := by
    simpa [Store.zoom, Operation.zoom, View.zoom, View.Spares, lens] using h.listing (part w)
  publish json w := by
    simpa [Store.zoom, Operation.zoom, View.zoom, View.Spares, lens] using h.publish json (part w)
  empty job w := h.empty job (part w)
  get job path w := h.get job path (part w)
  overviews w := h.overviews (part w)
  absent job w := h.absent job (part w)

/-- What a store writes in its records is no matter of what it keeps. -/
theorem Keeps.bindBackend {S : Store ρ} {V : View ρ} (h : Keeps S V) : Keeps S.bindBackend V :=
  ⟨h.reset, h.untouched, h.put, h.filed, h.delete, h.deleted, h.listing, h.publish, h.empty, h.get,
    h.overviews, h.absent⟩

/-- A request is answered as by a store on a part of the world. -/
def Answers (part : σ → ρ) (inner : Operation ρ α) (outer : Operation σ α) (w : σ) : Prop :=
  (outer w).1.outcome = (inner (part w)).1.outcome ∧ part (outer w).2 = (inner (part w)).2

/-- A store that stands on another one, and may fail where that would not. A document that it fails
to store may be lost, or be there in full or in part; deleting a job always takes effect. -/
structure Falters (part : σ → ρ) (inner : Store ρ) (outer : Store σ) : Prop where
  reset : ∀ w, (outer.reset w).1.outcome = .ok () → Answers part inner.reset outer.reset w
  put : ∀ job path json w, Answers part (inner.put job path json) (outer.put job path json) w ∨
    (∃ e, (outer.put job path json w).1.outcome = .error e) ∧
      ∃ docs : List Document, part (outer.put job path json w).2 =
        docs.foldl (fun r d => (inner.put job d.path d.json r).2) (part w)
  delete : ∀ job w, Answers part (inner.delete job) (outer.delete job) w
  listing : ∀ w, Answers part inner.listOverviews outer.listOverviews w ∨
    (∃ e, (outer.listOverviews w).1.outcome = .error e) ∧ part (outer.listOverviews w).2 = part w
  publish : ∀ json w, Answers part (inner.publish json) (outer.publish json) w ∨
    (∃ e, (outer.publish json w).1.outcome = .error e) ∧
      ∃ jsons : List String, part (outer.publish json w).2 =
        jsons.foldl (fun r json => (inner.publish json r).2) (part w)

/-- A store that stands on another one, as one that falters does, but may also fail to delete a job.
Its answer does not tell what remains of the job. -/
structure Wavers (part : σ → ρ) (inner : Store ρ) (remains : String → ρ → ρ → Prop)
    (outer : Store σ) : Prop where
  reset : ∀ w, (outer.reset w).1.outcome = .ok () → Answers part inner.reset outer.reset w
  put : ∀ job path json w, Answers part (inner.put job path json) (outer.put job path json) w ∨
    (∃ e, (outer.put job path json w).1.outcome = .error e) ∧
      ∃ docs : List Document, part (outer.put job path json w).2 =
        docs.foldl (fun r d => (inner.put job d.path d.json r).2) (part w)
  delete : ∀ job w, part (outer.delete job w).2 = (inner.delete job (part w)).2 ∨
    remains job (part w) (part (outer.delete job w).2)
  listing : ∀ w, Answers part inner.listOverviews outer.listOverviews w ∨
    (∃ e, (outer.listOverviews w).1.outcome = .error e) ∧ part (outer.listOverviews w).2 = part w
  publish : ∀ json w, Answers part (inner.publish json) (outer.publish json) w ∨
    (∃ e, (outer.publish json w).1.outcome = .error e) ∧
      ∃ jsons : List String, part (outer.publish json w).2 =
        jsons.foldl (fun r json => (inner.publish json r).2) (part w)

theorem Falters.wavers {part : σ → ρ} {inner : Store ρ} {remains : String → ρ → ρ → Prop}
    {outer : Store σ} (h : Falters part inner outer) : Wavers part inner remains outer :=
  ⟨h.reset, h.put, fun job w => .inl (h.delete job w).2, h.listing, h.publish⟩

namespace Wavers

variable {V : View ρ} {inner : Store ρ} {outer : Store σ} {part : σ → ρ}
  {remains : String → ρ → ρ → Prop}

theorem spares_put (h : Wavers part inner remains outer) (keeps : Keeps inner V)
    (hj : Job.isId job) (path json : String) (w : σ) :
    (V.zoom part).Spares (· ≠ job) w (outer.put job path json w).2 := by
  have hdocs (docs : List Document) (r : ρ) :
      V.Spares (· ≠ job) r (docs.foldl (fun r d => (inner.put job d.path d.json r).2) r) := by
    induction docs generalizing r with
    | nil => exact .refl _ r
    | cons d ds ih => exact (keeps.put job d.path d.json r hj).trans (ih _)
  rw [View.spares_zoom]
  rcases h.put job path json w with ⟨-, hw⟩ | ⟨-, docs, hw⟩
  · rw [hw]
    exact keeps.put job path json (part w) hj
  · rw [hw]
    exact hdocs docs (part w)

/-- Whatever remains of a job that is deleted, the other jobs are left as they are. -/
theorem spares_delete (h : Wavers part inner remains outer) (keeps : Keeps inner V)
    (thins : ∀ job r r', Job.isId job → remains job r r' → V.Spares (· ≠ job) r r')
    (hj : Job.isId job) (w : σ) : (V.zoom part).Spares (· ≠ job) w (outer.delete job w).2 := by
  rw [View.spares_zoom]
  rcases h.delete job w with hw | hw
  · rw [hw]
    exact keeps.delete job (part w) hj
  · exact thins job _ _ hj hw

theorem spares_listing (h : Wavers part inner remains outer) (keeps : Keeps inner V) (w : σ) :
    (V.zoom part).Spares (fun _ => True) w (outer.listOverviews w).2 := by
  rw [View.spares_zoom]
  rcases h.listing w with ⟨-, hw⟩ | ⟨-, hw⟩
  · rw [hw]
    exact keeps.listing (part w)
  · rw [hw]
    exact .refl _ (part w)

theorem spares_publish (h : Wavers part inner remains outer) (keeps : Keeps inner V) (json : String)
    (w : σ) : (V.zoom part).Spares (fun _ => True) w (outer.publish json w).2 := by
  have hjsons (jsons : List String) (r : ρ) :
      V.Spares (fun _ => True) r (jsons.foldl (fun r json => (inner.publish json r).2) r) := by
    induction jsons generalizing r with
    | nil => exact .refl _ r
    | cons json jsons ih => exact (keeps.publish json r).trans (ih _)
  rw [View.spares_zoom]
  rcases h.publish json w with ⟨-, hw⟩ | ⟨-, jsons, hw⟩
  · rw [hw]
    exact keeps.publish json (part w)
  · rw [hw]
    exact hjsons jsons (part w)

end Wavers

theorem Falters.refl (S : Store σ) : Falters id S S where
  reset _ _ := ⟨rfl, rfl⟩
  put _ _ _ _ := .inl ⟨rfl, rfl⟩
  delete _ _ := ⟨rfl, rfl⟩
  listing _ := .inl ⟨rfl, rfl⟩
  publish _ _ := .inl ⟨rfl, rfl⟩

end ArchiveKeeper.Store
