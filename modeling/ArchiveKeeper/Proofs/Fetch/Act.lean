import ArchiveKeeper.Fetch.Cycle
import ArchiveKeeper.Proofs.Event
import ArchiveKeeper.Proofs.Overview
import Mathlib.Tactic.Common

namespace ArchiveKeeper.Fetch

variable {σ ε α β : Type} {p q : Progress σ}

def Act.go (x : Act σ α) (p : Progress σ) : Except Failure α × Progress σ := x.run.run p

namespace Progress

def asked (p : Progress σ) (deed : Except Failure α → Deed) (o : Operation σ α) : Progress σ :=
  { p with
    world := (o p.world).2
    log := p.log ++ (o p.world).1.log
    trace := p.trace ++ [⟨deed (o p.world).1.outcome, p.cache, p.world⟩] }

def taken (p : Progress σ) (location : String) (position : Nat) (a : Archive) : Progress σ :=
  { p with trace := p.trace ++ [⟨.visit location position a, p.cache, p.world⟩] }

/-- Between two points only log records were left and sources that could not be listed were noted. -/
structure Noted (p q : Progress σ) : Prop where
  world : q.world = p.world
  cache : q.cache = p.cache
  trace : q.trace = p.trace
  created : q.created = p.created
  failedJobs : q.failedJobs = p.failedJobs

theorem Noted.refl (p : Progress σ) : p.Noted p := ⟨rfl, rfl, rfl, rfl, rfl⟩

def said (p : Progress σ) (r : Log.Record) : Progress σ := { p with log := p.log ++ [r] }

theorem noted_said (p : Progress σ) (r : Log.Record) : p.Noted (p.said r) :=
  ⟨rfl, rfl, rfl, rfl, rfl⟩

@[simp] theorem world_said (r : Log.Record) : (p.said r).world = p.world := rfl

@[simp] theorem cache_said (r : Log.Record) : (p.said r).cache = p.cache := rfl

@[simp] theorem trace_said (r : Log.Record) : (p.said r).trace = p.trace := rfl

@[simp] theorem created_said (r : Log.Record) : (p.said r).created = p.created := rfl

@[simp] theorem world_asked (deed : Except Failure α → Deed) (o : Operation σ α) :
    (p.asked deed o).world = (o p.world).2 := rfl

@[simp] theorem cache_asked (deed : Except Failure α → Deed) (o : Operation σ α) :
    (p.asked deed o).cache = p.cache := rfl

@[simp] theorem trace_asked (deed : Except Failure α → Deed) (o : Operation σ α) :
    (p.asked deed o).trace = p.trace ++ [⟨deed (o p.world).1.outcome, p.cache, p.world⟩] := rfl

@[simp] theorem created_asked (deed : Except Failure α → Deed) (o : Operation σ α) :
    (p.asked deed o).created = p.created := rfl

@[simp] theorem world_taken (location : String) (position : Nat) (a : Archive) :
    (p.taken location position a).world = p.world := rfl

@[simp] theorem cache_taken (location : String) (position : Nat) (a : Archive) :
    (p.taken location position a).cache = p.cache := rfl

@[simp] theorem trace_taken (location : String) (position : Nat) (a : Archive) :
    (p.taken location position a).trace =
      p.trace ++ [⟨.visit location position a, p.cache, p.world⟩] := rfl

@[simp] theorem created_taken (location : String) (position : Nat) (a : Archive) :
    (p.taken location position a).created = p.created := rfl

end Progress

namespace Act

theorem go_pure (a : α) : go (pure a : Act σ α) p = (.ok a, p) := rfl

theorem go_get : go (get : Act σ (Progress σ)) p = (.ok p, p) := rfl

theorem go_modify (g : Progress σ → Progress σ) :
    go (modify g : Act σ PUnit) p = (.ok ⟨⟩, g p) := rfl

theorem go_bind (x : Act σ α) (k : α → Act σ β) :
    go (x >>= k) p = match go x p with
      | (.ok a, q) => go (k a) q
      | (.error e, q) => (.error e, q) := by
  change (match go x p with
    | (r, q) => StateT.run (ExceptT.bindCont k r) q) = _
  rcases go x p with ⟨_ | _, _⟩ <;> rfl

theorem go_bind_cases {x : Act σ α} {k : α → Act σ β} {r : Except Failure β}
    (h : go (x >>= k) p = (r, q)) :
    (∃ e, go x p = (.error e, q) ∧ r = .error e) ∨
      ∃ a p', go x p = (.ok a, p') ∧ go (k a) p' = (r, q) := by
  rw [go_bind] at h
  rcases hx : go x p with ⟨e | a, p'⟩
  · rw [hx] at h
    cases h
    exact .inl ⟨e, rfl, rfl⟩
  · rw [hx] at h
    exact .inr ⟨a, p', rfl, h⟩

def Same (part : Progress σ → β) (p q : Progress σ) : Prop := part q = part p

instance (part : Progress σ → β) : IsPreorder (Progress σ) (Same part) where
  refl _ := rfl
  trans _ _ _ h h' := h'.trans h

/-- Wherever an act starts, it ends at a point that is related to its start. -/
def Respects (R : Progress σ → Progress σ → Prop) (x : Act σ α) : Prop := ∀ p, R p (go x p).2

theorem Respects.of_go {R : Progress σ → Progress σ → Prop} {x : Act σ α} {r : Except Failure α}
    {p q : Progress σ} (h : Respects R x) (run : go x p = (r, q)) : R p q := by
  have hp := h p
  rwa [run] at hp

section Respects

variable {R : Progress σ → Progress σ → Prop} [IsPreorder (Progress σ) R]

theorem respects_pure (a : α) : Respects R (pure a : Act σ α) := fun p => refl_of R p

theorem Respects.bind {x : Act σ α} {k : α → Act σ β} (hx : Respects R x)
    (hk : ∀ a, Respects R (k a)) : Respects R (x >>= k) := by
  intro p
  have h := hx p
  rw [go_bind]
  rcases he : go x p with ⟨e | a, q⟩
  · rw [he] at h
    exact h
  · rw [he] at h
    exact trans_of R h (hk a q)

omit [IsPreorder (Progress σ) R] in
theorem respects_say {f : Fetcher σ ε} (h : ∀ p r, R p (p.said r)) (r : Log.Record) :
    Respects R (f.say r) := fun p => h p (r.bind f.cycleBindings)

end Respects

end Act

namespace Fetcher

open Act

theorem go_say (f : Fetcher σ ε) (r : Log.Record) :
    go (f.say r) p = (.ok (), p.said (r.bind f.cycleBindings)) := rfl

theorem go_ask (deed : Except Failure α → Deed) (o : Operation σ α) :
    go (ask deed o) p = (.ok (o p.world).1.outcome, p.asked deed o) := rfl

theorem go_takeUp (location : String) (position : Nat) (a : Archive) :
    go (takeUp location position a) p = (.ok (), p.taken location position a) := rfl

theorem go_demand (deed : Except Failure α → Deed) (o : Operation σ α) :
    go (demand deed o) p = ((o p.world).1.outcome.map fun _ => (), p.asked deed o) := by
  rw [demand, go_bind, go_ask]
  cases (o p.world).1.outcome <;> rfl

theorem go_deleteJob (f : Fetcher σ ε) (job : String) :
    go (f.deleteJob job) p =
      ((f.store.delete job p.world).1.outcome, p.asked (.delete job) (f.store.delete job)) := by
  rw [deleteJob, go_demand]
  cases (f.store.delete job p.world).1.outcome <;> rfl

theorem prepare_cases (f : Fetcher σ) (w : σ) :
    (∃ e, (f.store.reset w).1.outcome = .error e ∧
        f.prepare w = (⟨.error e, (f.store.reset w).1.log⟩, (f.store.reset w).2)) ∨
      (f.store.reset w).1.outcome = .ok () ∧ ∃ log,
        f.prepare w = (⟨.ok (), log⟩, (Overview.republish f.store (f.store.reset w).2).2) := by
  unfold prepare
  rcases f.store.reset w with ⟨⟨e | u, log⟩, w'⟩
  · exact .inl ⟨e, rfl, rfl⟩
  · obtain ⟨n?, hn⟩ := Overview.republish_answers f.store w'
    refine .inr ⟨rfl, ?_⟩
    simp only [Operation.bind, hn]
    exact ⟨_, rfl⟩

end Fetcher

end ArchiveKeeper.Fetch
