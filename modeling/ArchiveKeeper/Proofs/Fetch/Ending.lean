import ArchiveKeeper.Proofs.Fetch.Visit

namespace ArchiveKeeper.Fetch

open Act

variable {σ ε α β : Type} {f : Fetcher σ ε} {s : Source σ} {a : Archive} {p q : Progress σ}

def Deed.isFailedDeletion : Deed → Bool
  | .delete _ (.error _) => true
  | _ => false

def Progress.DeletesAll (p : Progress σ) : Prop :=
  ∀ m ∈ p.trace, ¬ m.deed.isFailedDeletion

def Deed.isDemand : Deed → Bool
  | .delete .. | .republish .. | .deliver .. => true
  | _ => false

namespace Fetcher

section Fatal

variable [Throwable ε]

/-- What ends a cycle, and the failure that it ends with. The store refuses to delete a job; or the
store, while the overview is published, or the listener throws what no text can be made of. -/
inductive Fatal (f : Fetcher σ ε) : Moment σ → Failure → Prop
  | undeleted {job : String} {e : Failure} {c : Cache} {w : σ}
    (refused : (f.store.delete job w).1.outcome = .error e) :
    Fatal f ⟨.delete job (.error e), c, w⟩ e
  | unpublished {c : Cache} {w : σ} (breaks : Overview.BreaksOff f.store w) :
    Fatal f ⟨.republish (.error Throwable.textless), c, w⟩ Throwable.textless
  | unheard {listener : Listener σ ε} {events : List Event} {c : Cache} {w : σ}
    (hl : f.listener = some listener) (breaks : Event.BreaksOff listener events w) :
    Fatal f ⟨.deliver events, c, w⟩ Throwable.textless

theorem Fatal.isDemand {m : Moment σ} {e : Failure} (h : f.Fatal m e) : m.deed.isDemand := by
  cases h <;> rfl

/-- If a text can be made of all that is thrown, only a refused deletion ends a cycle. -/
theorem Fatal.isFailedDeletion {m : Moment σ} {e : Failure}
    (texts : ∀ x : ε, Throwable.text? x ≠ none) (h : f.Fatal m e) : m.deed.isFailedDeletion := by
  cases h with
  | undeleted => rfl
  | unpublished breaks =>
    obtain hlist | ⟨os, -, hpublish⟩ := breaks
    · exact absurd hlist (Reply.not_isTextless texts _)
    · exact absurd hpublish (Reply.not_isTextless texts _)
  | unheard _ breaks =>
    obtain ⟨told, e, later, -, hthrows⟩ := breaks
    exact absurd hthrows (Reply.not_isTextless texts _)

/-- At a moment no deletion fails, and nothing else ends the cycle. -/
def Safe (f : Fetcher σ ε) (m : Moment σ) : Prop :=
  ¬ m.deed.isFailedDeletion ∧ ∀ e, ¬ f.Fatal m e

theorem safe_of_not_isDemand {m : Moment σ} (h : ¬ m.deed.isDemand) : f.Safe m := by
  refine ⟨fun hfailed => h ?_, fun e hfatal => h hfatal.isDemand⟩
  unfold Deed.isFailedDeletion at hfailed
  split at hfailed
  · rename_i hdeed
    rw [hdeed]
    rfl
  · cases hfailed

def Harmless (f : Fetcher σ ε) (p q : Progress σ) : Prop :=
  ∃ ms, q.trace = p.trace ++ ms ∧ ∀ m ∈ ms, f.Safe m

instance (f : Fetcher σ ε) : IsPreorder (Progress σ) f.Harmless where
  refl p := ⟨[], by simp, by simp⟩
  trans p q r h h' := by
    obtain ⟨ms, ht, hms⟩ := h
    obtain ⟨ms', ht', hms'⟩ := h'
    exact ⟨ms ++ ms', by rw [ht', ht, List.append_assoc],
      fun m hm => (List.mem_append.mp hm).elim (hms m) (hms' m)⟩

theorem harmless_of_doing (h : Doing (fun d => !d.isDemand) p q) : f.Harmless p q := by
  obtain ⟨ms, ht, hms⟩ := h
  exact ⟨ms, ht, fun m hm => safe_of_not_isDemand (by simpa using hms m hm)⟩

/-- How an act comes out between two points: it answers, and nothing that ends a cycle was done; or
such a thing is done, and the act stops there with its failure. -/
inductive Ended (f : Fetcher σ ε) (p : Progress σ) : Except Failure α → Progress σ → Prop
  | answered {a : α} {q : Progress σ} (harmless : f.Harmless p q) : Ended f p (.ok a) q
  | stopped {m : Moment σ} {e : Failure} {p' q : Progress σ} (harmless : f.Harmless p p')
    (last : q.trace = p'.trace ++ [m]) (fatal : f.Fatal m e) : Ended f p (.error e) q

def Contained (f : Fetcher σ ε) (x : Act σ α) : Prop := ∀ p, Ended f p (go x p).1 (go x p).2

theorem contained_of_go {x : Act σ α} (h : ∀ p, ∃ a q, go x p = (.ok a, q) ∧ f.Harmless p q) :
    Contained f x := by
  intro p
  obtain ⟨a, q, hgo, hquiet⟩ := h p
  rw [hgo]
  exact .answered hquiet

theorem contained_pure (a : α) : Contained f (pure a : Act σ α) :=
  contained_of_go fun p => ⟨a, p, rfl, refl_of f.Harmless p⟩

theorem contained_get : Contained f (get : Act σ (Progress σ)) :=
  contained_of_go fun p => ⟨p, p, rfl, refl_of f.Harmless p⟩

theorem contained_modify (g : Progress σ → Progress σ)
    (h : ∀ p, (g p).trace = p.trace := by exact fun _ => rfl) :
    Contained f (modify g : Act σ PUnit) :=
  contained_of_go fun p => ⟨_, g p, rfl, [], by simp [h], by simp⟩

theorem Contained.bind {x : Act σ α} {k : α → Act σ β} (hx : Contained f x)
    (hk : ∀ a, Contained f (k a)) : Contained f (x >>= k) := by
  intro p
  have hfirst := hx p
  rw [go_bind]
  rcases hgo : go x p with ⟨e | a, q⟩ <;> rw [hgo] at hfirst
  · cases hfirst with
    | stopped harmless last fatal => exact .stopped harmless last fatal
  cases hfirst with
  | answered harmless =>
    have hrest := hk a q
    show Ended f p (go (k a) q).1 (go (k a) q).2
    generalize go (k a) q = x' at hrest
    rcases x' with ⟨e | b, q'⟩
    · cases hrest with
      | stopped harmless' last fatal =>
        exact .stopped (trans_of f.Harmless harmless harmless') last fatal
    · cases hrest with
      | answered harmless' => exact .answered (trans_of f.Harmless harmless harmless')

theorem contained_say (r : Log.Record) : Contained f (f.say r) :=
  contained_modify _

theorem contained_ask (deed : Except Failure α → Deed) (o : Operation σ α)
    (h : ∀ answer, ¬ (deed answer).isDemand) : Contained f (ask deed o) :=
  contained_of_go fun _ => ⟨_, _, rfl, harmless_of_doing (doing_asked deed o fun answer => by
    simp [h answer])⟩

theorem contained_takeUp (location : String) (position : Nat) (a : Archive) :
    Contained f (takeUp location position a : Act σ Unit) :=
  contained_of_go fun _ => ⟨_, _, rfl, harmless_of_doing
    ⟨_, Progress.trace_taken .., by simp [Deed.isDemand]⟩⟩

theorem contained_demand (deed : Except Failure α → Deed) (o : Operation σ α)
    (ok : ∀ c w a, (o w).1.outcome = .ok a → f.Safe ⟨deed (.ok a), c, w⟩)
    (fails : ∀ c w e, (o w).1.outcome = .error e → f.Fatal ⟨deed (.error e), c, w⟩ e) :
    Contained f (demand deed o) := by
  intro p
  have htrace : (p.asked deed o).trace =
      p.trace ++ [⟨deed (o p.world).1.outcome, p.cache, p.world⟩] := Progress.trace_asked deed o
  rw [go_demand]
  cases ho : (o p.world).1.outcome with
  | ok a =>
    rw [ho] at htrace
    exact .answered ⟨_, htrace, List.forall_mem_singleton.mpr (ok _ _ a ho)⟩
  | error e =>
    rw [ho] at htrace
    exact .stopped (refl_of f.Harmless p) htrace (fails _ _ e ho)

theorem contained_deleteJob (job : String) : Contained f (f.deleteJob job) := by
  refine contained_demand _ _ (fun c w a _ => ⟨Bool.false_ne_true, fun e h => ?_⟩)
    fun c w e he => .undeleted he
  cases h

theorem contained_transfer : Contained f (f.transfer s a) := by
  refine contained_of_go fun p => ?_
  obtain ⟨t, q, hgo, -⟩ := transfer_spec f s a p
  have hdoing : Respects (Doing fun d => !d.isDemand) (f.transfer s a) :=
    respects_transfer (fun p _ => ⟨[], by simp, by simp⟩) (fun _ _ _ => doing_asked _ _ fun _ => rfl)
      (fun _ => doing_asked _ _ fun _ => rfl)
  exact ⟨t, q, hgo, harmless_of_doing (hdoing.of_go hgo)⟩

theorem contained_ingest : Contained f (f.ingest s a) := by
  unfold ingest
  refine (contained_say _).bind fun _ => contained_transfer.bind fun t => ?_
  cases t with
  | ok u => exact (contained_say _).bind fun _ => contained_pure _
  | error e =>
    exact (contained_say _).bind fun _ => (contained_deleteJob _).bind fun _ => contained_pure _

theorem contained_visit (before : List String) (position : Nat) :
    Contained f (f.visit s before position a) := by
  unfold visit
  refine (contained_takeUp _ _ _).bind fun _ => ?_
  split
  · exact contained_pure _
  split
  · exact (contained_say _).bind fun _ => contained_pure _
  refine contained_get.bind fun p => ?_
  split
  · exact (contained_say _).bind fun _ =>
      (contained_modify _).bind fun _ => contained_pure _
  refine contained_ingest.bind fun b => ?_
  split <;> exact (contained_modify _).bind fun _ => contained_pure _

theorem contained_visitAll (before : List String) (position : Nat) (as : List Archive) :
    Contained f (f.visitAll s before position as) := by
  induction as generalizing position with
  | nil => exact contained_pure _
  | cons a as ih =>
    exact (contained_visit before position).bind fun _ =>
      (ih (position + 1)).bind fun _ => contained_pure _

theorem contained_visitSources (start : Cache) (ss : List (Source σ)) :
    Contained f (f.visitSources start ss) := by
  induction ss with
  | nil => exact contained_pure _
  | cons s ss ih =>
    refine (contained_say _).bind fun _ => (contained_ask _ _ (by simp [Deed.isDemand])).bind
      fun r => ?_
    cases r with
    | error e =>
      exact (contained_say _).bind fun _ => (contained_modify _).bind fun _ => ih
    | ok as =>
      exact (contained_visitAll _ _ _).bind fun _ => ih.bind fun _ => contained_pure _

theorem contained_evict (location job : String) : Contained f (f.evict location job) := by
  unfold evict
  refine (contained_modify _).bind fun _ => contained_get.bind fun p => ?_
  split
  · exact (contained_say _).bind fun _ => contained_pure _
  · exact (contained_deleteJob _).bind fun _ => contained_pure _

theorem contained_evictSurplus (ss : List (Surplus σ)) : Contained f (f.evictSurplus ss) := by
  induction ss with
  | nil => exact contained_pure _
  | cons s ss ih =>
    refine (contained_say _).bind fun _ => (contained_ask _ _ (by simp [Deed.isDemand])).bind
      fun r => ?_
    have hrest := (contained_evict (f := f) s.source.location s.archive.job).bind fun event =>
      ih.bind fun more => contained_pure (event.toList ++ more)
    cases r with
    | error e => exact (contained_say _).bind fun _ => hrest
    | ok u => exact hrest

theorem contained_evictExpiredOf (location : String) (jobs : List String) :
    Contained f (f.evictExpiredOf location jobs) := by
  induction jobs with
  | nil => exact contained_pure _
  | cons job jobs ih =>
    exact (contained_say _).bind fun _ => (contained_evict _ _).bind fun _ =>
      ih.bind fun _ => contained_pure _

theorem contained_evictExpired (gone : List (String × List String)) :
    Contained f (f.evictExpired gone) := by
  induction gone with
  | nil => exact contained_pure _
  | cons g gone ih =>
    exact (contained_evictExpiredOf _ _).bind fun _ => ih.bind fun _ => contained_pure _

theorem contained_republish : Contained f f.republish := by
  refine contained_demand _ _ (fun c w n? _ => ⟨Bool.false_ne_true, fun e h => ?_⟩)
    fun c w e he => ?_
  · cases h
  · obtain ⟨⟨n?, hok⟩, -⟩ | ⟨hfails, hbreaks⟩ := Overview.outcome_republish f.store w
    · cases hok.symm.trans he
    · cases hfails.symm.trans he
      exact .unpublished hbreaks

theorem contained_announce (events : List Event) : Contained f (f.announce events) := by
  unfold announce
  split
  · exact contained_pure _
  rename_i listener hl
  refine contained_demand _ _ (fun c w u hok => ⟨Bool.false_ne_true, fun e h => ?_⟩)
    fun c w e he => ?_
  · obtain ⟨-, hkeeps, -⟩ | ⟨hfails, -⟩ := Event.deliverAll_cases listener events w
    · cases h with
      | unheard hl' breaks =>
        cases hl.symm.trans hl'
        exact hkeeps breaks
    · cases hfails.symm.trans hok
  · obtain ⟨hok, -⟩ | ⟨hfails, hbreaks⟩ := Event.deliverAll_cases listener events w
    · cases hok.symm.trans he
    · cases hfails.symm.trans he
      exact .unheard hl hbreaks

theorem contained_course (f : Fetcher σ ε) : Contained f f.course := by
  refine (contained_say _).bind fun _ => contained_get.bind fun p => ?_
  refine (contained_visitSources _ _).bind fun left => contained_get.bind fun p' => ?_
  refine (contained_evictSurplus _).bind fun beyond => ?_
  have hclose (events : List Event) (r : Log.Record) (deleted : List String) :
      Contained f (do f.announce events; f.say r; return deleted) :=
    (contained_announce _).bind fun _ => (contained_say _).bind fun _ => contained_pure _
  split
  · refine (contained_evictExpired _).bind fun expired => ?_
    dsimp only
    split
    · exact contained_republish.bind fun _ => hclose _ _ _
    · exact hclose _ _ _
  · refine (contained_pure _).bind fun expired => ?_
    dsimp only
    split
    · exact contained_republish.bind fun _ => hclose _ _ _
    · exact hclose _ _ _

/-- A cycle stopped at the first thing that ends one, and reported its failure. -/
structure Stopped (f : Fetcher σ ε) (x : Result × Progress σ) : Prop where
  uncompleted : x.1.completed = false
  nothingDeleted : x.1.deleted = []
  last : ∃ earlier m e, x.2.trace = earlier ++ [m] ∧ f.Fatal m e ∧
    (∀ m ∈ earlier, f.Safe m) ∧ x.2.log.getLast? = some
      ((Log.error "Critical failure while fetching/processing job archives"
        [("err", .str e.message)]).bind f.cycleBindings)

/-- A cycle comes to its end, and has done nothing that ends one, or else it stops there. -/
theorem ended_cycle (f : Fetcher σ ε) (c : Cache) (w : σ) :
    (f.cycle c w).1.completed = true ∧ (∀ m ∈ (f.cycle c w).2.trace, f.Safe m) ∨
      Stopped f (f.cycle c w) := by
  have hended := contained_course f (begin_ c w)
  unfold cycle
  rcases hr : go f.course (begin_ c w) with ⟨r, q⟩
  rw [hr] at hended
  rw [show f.course.run.run (begin_ c w) = (r, q) from hr]
  -- at its beginning a cycle has done nothing yet
  have hquiet {p : Progress σ} (h : f.Harmless (begin_ c w) p) :
      ∀ m ∈ p.trace, f.Safe m := by
    obtain ⟨ms, ht, hms⟩ := h
    rw [ht]
    simpa [begin_] using hms
  cases hended with
  | answered harmless => exact .inl ⟨rfl, hquiet harmless⟩
  | stopped harmless last fatal =>
    exact .inr ⟨rfl, rfl, _, _, _, last, fatal, hquiet harmless, by simp⟩

end Fatal

end Fetcher

end ArchiveKeeper.Fetch
