import ArchiveKeeper.Fetch.Site
import ArchiveKeeper.Proofs.Store.Service

namespace ArchiveKeeper

namespace Store

variable {σ ρ : Type} {S : Store ρ} {part : σ → ρ} {inner : Store ρ} {outer : Store σ}

inductive Use where
  | ask (request : Request)
  | close
deriving DecidableEq, Repr

def Use.AboutJobs : Use → Prop
  | .ask request => request.AboutJobs
  | .close => True

def use (S : Store ρ) (w : ρ) : Use → ρ
  | .ask request => (S.ask w request).2
  | .close => (S.close w).2

def through (S : Store ρ) (w : ρ) (uses : List Use) : ρ := uses.foldl S.use w

theorem through_append (w : ρ) (uses uses' : List Use) :
    S.through w (uses ++ uses') = S.through (S.through w uses) uses' := List.foldl_append

/-- What is kept after a request, by its answer. A request that fails changes nothing of it. -/
def Contents.following (c : Contents) (request : Request) : Answer → Contents
  | .done (.error _) => c
  | _ => c.after request

/-- What a store is to keep after its uses, by the answers that it gave. What it has in memory is
gone when it is closed. -/
def kept (S : Store ρ) (lasting : Bool) (c : Contents) (w : ρ) : List Use → Contents
  | [] => c
  | .ask request :: uses =>
    S.kept lasting (c.following request (S.ask w request).1) (S.ask w request).2 uses
  | .close :: uses => S.kept lasting (if lasting then c else .empty) (S.close w).2 uses

def Use.tries (job : String) (paths : List String) : Use → List String
  | .ask (.put job' path _) => if job' = job then path :: paths else paths
  | .ask (.delete job') => if job' = job then [] else paths
  | .ask .reset => []
  | _ => paths

/-- The paths under which a job was to put documents since it was last deleted. -/
def tried (job : String) (uses : List Use) : List String := uses.foldl (Use.tries job) []

/-- A store acts on a part of its world as another one does. -/
structure Acts (part : σ → ρ) (inner : Store ρ) (outer : Store σ) : Prop where
  answer : ∀ w request, (outer.ask w request).1 = (inner.ask (part w) request).1
  next : ∀ w request, part (outer.ask w request).2 = (inner.ask (part w) request).2
  close : ∀ w, part (outer.close w).2 = (inner.close (part w)).2

namespace Acts

theorem zoom (S : Store ρ) {set : ρ → σ → σ} (lens : ∀ r w, part (set r w) = r) :
    Acts part S (S.zoom part set) where
  answer w request := by cases request <;> rfl
  next w request := by cases request <;> exact lens _ w
  close w := lens _ w

theorem bindBackend (h : Acts part inner outer) : Acts part inner outer.bindBackend where
  answer w request := by
    rw [← h.answer]
    cases request <;> rfl
  next w request := by
    rw [← h.next]
    cases request <;> rfl
  close w := h.close w

variable (h : Acts part inner outer)

include h

theorem through (w : σ) (uses : List Use) :
    part (outer.through w uses) = inner.through (part w) uses := by
  induction uses generalizing w with
  | nil => rfl
  | cons use uses ih =>
    have huse : part (outer.use w use) = inner.use (part w) use := by
      cases use with
      | ask request => exact h.next w request
      | close => exact h.close w
    show part (outer.through (outer.use w use) uses) = inner.through (inner.use (part w) use) uses
    rw [ih, huse]

theorem kept (lasting : Bool) (c : Contents) (w : σ) (uses : List Use) :
    outer.kept lasting c w uses = inner.kept lasting c (part w) uses := by
  induction uses generalizing c w with
  | nil => rfl
  | cons use uses ih =>
    cases use with
    | ask request => rw [Store.kept, Store.kept, h.answer, ih, h.next]
    | close => rw [Store.kept, Store.kept, ih, h.close]

theorem outcome_put (job path json : String) (w : σ) :
    (outer.put job path json w).1.outcome = (inner.put job path json (part w)).1.outcome :=
  Answer.done.inj (h.answer w (.put job path json))

theorem outcome_get (path : String) (w : σ) :
    (outer.get path w).1.outcome = (inner.get path (part w)).1.outcome :=
  Answer.document.inj (h.answer w (.get path))

theorem outcome_delete (job : String) (w : σ) :
    (outer.delete job w).1.outcome = (inner.delete job (part w)).1.outcome :=
  Answer.done.inj (h.answer w (.delete job))

theorem outcome_holds (job : String) (w : σ) :
    (outer.holds job w).1.outcome = (inner.holds job (part w)).1.outcome :=
  Answer.found.inj (h.answer w (.holds job))

theorem outcome_listOverviews (w : σ) :
    (outer.listOverviews w).1.outcome = (inner.listOverviews (part w)).1.outcome :=
  Answer.overviews.inj (h.answer w .listOverviews)

theorem outcome_reset (w : σ) :
    (outer.reset w).1.outcome = (inner.reset (part w)).1.outcome :=
  Answer.done.inj (h.answer w .reset)

theorem next_reset (w : σ) : part (outer.reset w).2 = (inner.reset (part w)).2 := h.next w .reset

theorem next_put (job path json : String) (w : σ) :
    part (outer.put job path json w).2 = (inner.put job path json (part w)).2 :=
  h.next w (.put job path json)

theorem next_delete (job : String) (w : σ) :
    part (outer.delete job w).2 = (inner.delete job (part w)).2 := h.next w (.delete job)

end Acts

end Store

namespace Site

open Store

variable {τ : Type} {config : Config.Storage}

def root (base : Files.Path) (c : Config.Storage) : Files.Path :=
  Files.Path.resolve base c.directory

/-- What the store of a configuration keeps outlasts its closing, unless it is in memory. -/
def lasting (base : Files.Path) (c : Config.Storage) : Bool :=
  match c.backend with
  | .files => true
  | .table => (Database.Place.ofText base c.database).file.isSome

theorem acts_directory (base : Files.Path) (h : config.backend = .files) :
    Acts Site.files (directory (root base config))
      (Site.store base config : Store (Site τ)) := by
  rw [Site.store, h, root]
  exact (Acts.zoom _ fun _ _ => rfl).bindBackend

theorem acts_database (base : Files.Path) (h : config.backend = .table) :
    Acts (fun s => (s.files, s.connection)) (database (.ofText base config.database))
      (Site.store base config : Store (Site τ)) := by
  rw [Site.store, h]
  exact (Acts.zoom _ fun _ _ => rfl).bindBackend

end Site

end ArchiveKeeper
