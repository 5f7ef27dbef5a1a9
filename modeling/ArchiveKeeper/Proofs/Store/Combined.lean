import ArchiveKeeper.Overview.Publication
import ArchiveKeeper.Proofs.Overview
import ArchiveKeeper.Proofs.Store.Contract

namespace ArchiveKeeper.Store

variable {σ ρ : Type} {S : Store ρ} {V : View ρ} {neat : ρ → Prop}
  {remains : String → ρ → ρ → Prop} {w w' w'' : ρ} {text : String}

def Shows (S : Store ρ) (w : ρ) (text : String) : Prop :=
  (S.get Job.overviewPath w).1.outcome = .ok (some text)

/-- The text that the combined overview is to have, by the overviews that are listed. -/
def due (S : Store ρ) (w : ρ) : Except Failure String :=
  (S.listOverviews w).1.outcome.map fun os => Overview.write (Overview.merge os)

/-- The combined overview has the text that it is to have. -/
def Current (S : Store ρ) (w : ρ) : Prop := ∃ text, S.due w = .ok text ∧ S.Shows w text

/-- The combined overview was left as it is, in a store that stays neat. -/
def Leaves (S : Store ρ) (neat : ρ → Prop) (w w' : ρ) : Prop :=
  neat w → neat w' ∧ ∀ text, S.Shows w' text ↔ S.Shows w text

theorem Leaves.refl (S : Store ρ) (neat : ρ → Prop) (w : ρ) : S.Leaves neat w w :=
  fun hw => ⟨hw, fun _ => Iff.rfl⟩

theorem Leaves.trans (h : S.Leaves neat w w') (h' : S.Leaves neat w' w'') :
    S.Leaves neat w w'' := by
  intro hw
  obtain ⟨hw', hshows⟩ := h hw
  obtain ⟨hw'', hshows'⟩ := h' hw'
  exact ⟨hw'', fun text => (hshows' text).trans (hshows text)⟩

/-- A store with a combined overview. As long as it is neat, the overviews that it lists are those
of jobs, and stand in an order of these. Whatever remains of a job, it stays neat. -/
structure Publishes (S : Store ρ) (V : View ρ) (neat : ρ → Prop)
    (remains : String → ρ → ρ → Prop) : Prop where
  ready : ∀ w, neat w → V.ready w
  reset : ∀ w, V.sound w → (S.reset w).1.outcome = .ok () → neat (S.reset w).2
  untouched : ∀ w w', V.untouched w w' → S.Leaves neat w w'
  put : ∀ job path json w, Job.isId job → S.Leaves neat w (S.put job path json w).2
  delete : ∀ job w, Job.isId job → S.Leaves neat w (S.delete job w).2
  thinned : ∀ job w w', Job.isId job → remains job w w' → S.Leaves neat w w'
  listing : ∀ w, S.Leaves neat w (S.listOverviews w).2
  publish : ∀ json w, neat w → neat (S.publish json w).2 ∧
    ((S.publish json w).1.outcome = .ok () → S.Shows (S.publish json w).2 json)
  listed : ∃ le : String → String → Prop, (∀ job job', le job job' → le job' job → job = job') ∧
    ∀ w, neat w → ∃ os, (S.listOverviews w).1.outcome = .ok os ∧
      (∀ o ∈ os, Job.isId o.job) ∧ os.Pairwise fun o o' => le o.job o'.job

section Due

variable (keeps : Keeps S V) (publishes : Publishes S V neat remains)

include keeps publishes

/-- What is to be published depends on nothing but the overviews that the jobs have filed. -/
theorem due_eq (hw : neat w) (hw' : neat w') (h : ∀ job, Job.isId job →
    V.shelf job w' Job.overviewPath = V.shelf job w Job.overviewPath) : S.due w' = S.due w := by
  obtain ⟨le, hanti, hlisted⟩ := publishes.listed
  obtain ⟨os, hos, hids, hordered⟩ := hlisted w hw
  obtain ⟨os', hos', hids', hordered'⟩ := hlisted w' hw'
  have hmem {w os} (hw : neat w) (hos : (S.listOverviews w).1.outcome = .ok os)
      (job : String) (hj : Job.isId job) (json : String) :
      ⟨job, json⟩ ∈ os ↔ V.shelf job w Job.overviewPath = some json := by
    obtain ⟨os', hos', hmem⟩ := keeps.overviews w (publishes.ready w hw)
    obtain rfl : os = os' := Except.ok.inj (hos.symm.trans hos')
    exact hmem job hj json
  have hone (o) (ho : o ∈ os') (o') (ho' : o' ∈ os') (hle : le o.job o'.job)
      (hge : le o'.job o.job) : o = o' := by
    -- a job has one overview
    obtain ⟨job, json⟩ := o
    obtain ⟨job', json'⟩ := o'
    obtain rfl : job = job' := hanti job job' hle hge
    have hj : Job.isId job := hids' ⟨job, json⟩ ho
    have hjson := (hmem hw' hos' job hj json).mp ho
    have hjson' := (hmem hw' hos' job hj json').mp ho'
    rw [Option.some.inj (hjson.symm.trans hjson')]
  have hboth (o) : o ∈ os' ↔ o ∈ os := by
    constructor
    · intro ho
      have hj := hids' o ho
      rwa [hmem hw hos o.job hj, ← h o.job hj, ← hmem hw' hos' o.job hj]
    · intro ho
      have hj := hids o ho
      rwa [hmem hw' hos' o.job hj, h o.job hj, ← hmem hw hos o.job hj]
  -- lists with the same members in the same order may only differ in repetitions
  have hmerge : Overview.merge os' = Overview.merge os :=
    Overview.merge_eq hordered' hordered hone hboth
  rw [due, due, hos, hos', Except.map, Except.map, hmerge]

theorem Current.of_leaves (h : S.Current w) (hw : neat w) (hleaves : S.Leaves neat w w')
    (hsame : ∀ job, Job.isId job →
      V.shelf job w' Job.overviewPath = V.shelf job w Job.overviewPath) : S.Current w' := by
  obtain ⟨text, hdue, hshows⟩ := h
  obtain ⟨hw', hsame'⟩ := hleaves hw
  exact ⟨text, (due_eq keeps publishes hw hw' hsame).trans hdue, (hsame' text).mpr hshows⟩

theorem Current.of_untouched (h : S.Current w) (hw : neat w) (ht : V.untouched w w') :
    S.Current w' := by
  obtain ⟨-, hsame⟩ := keeps.untouched w w' ht (publishes.ready w hw)
  exact h.of_leaves keeps publishes hw (publishes.untouched w w' ht) fun job hj => by
    rw [(hsame job hj trivial).1]

theorem current_publish {os : List StoredOverview} (hw : neat w)
    (hl : (S.listOverviews w).1.outcome = .ok os)
    (hp : (S.publish (Overview.write (Overview.merge os)) (S.listOverviews w).2).1.outcome =
      .ok ()) :
    S.Current (S.publish (Overview.write (Overview.merge os)) (S.listOverviews w).2).2 := by
  obtain ⟨hlisted, -⟩ := publishes.listing w hw
  obtain ⟨hpublished, hshows⟩ :=
    publishes.publish (Overview.write (Overview.merge os)) _ hlisted
  obtain ⟨-, hsame⟩ := ((keeps.listing w).trans (keeps.publish _ _)) (publishes.ready w hw)
  refine ⟨_, ?_, hshows hp⟩
  rw [due_eq keeps publishes hw hpublished fun job hj => by rw [(hsame job hj trivial).1], due, hl]
  rfl

end Due

theorem Publishes.zoom (h : Publishes S V neat remains) {part : σ → ρ} {set : ρ → σ → σ}
    (lens : ∀ r w, part (set r w) = r) :
    Publishes (S.zoom part set) (V.zoom part) (fun w => neat (part w))
      fun job w w' => remains job (part w) (part w') where
  ready w := h.ready (part w)
  reset w := by simpa [Store.zoom, Operation.zoom, View.zoom, lens] using h.reset (part w)
  untouched w w' := h.untouched (part w) (part w')
  put job path json w := by
    simpa [Store.zoom, Operation.zoom, Leaves, Shows, lens] using h.put job path json (part w)
  delete job w := by
    simpa [Store.zoom, Operation.zoom, Leaves, Shows, lens] using h.delete job (part w)
  thinned job w w' := h.thinned job (part w) (part w')
  listing w := by
    simpa [Store.zoom, Operation.zoom, Leaves, Shows, lens] using h.listing (part w)
  publish json w := by
    simpa [Store.zoom, Operation.zoom, Shows, lens] using h.publish json (part w)
  listed := by
    obtain ⟨le, hanti, hlisted⟩ := h.listed
    exact ⟨le, hanti, fun w => hlisted (part w)⟩

theorem Publishes.bindBackend (h : Publishes S V neat remains) :
    Publishes S.bindBackend V neat remains :=
  ⟨h.ready, h.reset, h.untouched, h.put, h.delete, h.thinned, h.listing, h.publish, h.listed⟩

theorem Wavers.spares_republish {part : σ → ρ} {outer : Store σ} (h : Wavers part S remains outer)
    (keeps : Keeps S V) (w : σ) :
    (V.zoom part).Spares (fun _ => True) w (Overview.republish outer w).2 := by
  have hlisting := h.spares_listing keeps w
  obtain ⟨-, -, hw⟩ | ⟨os, -, hw, -⟩ := Overview.republish_cases outer w
  · rw [hw]
    exact hlisting
  · rw [hw]
    exact hlisting.trans (h.spares_publish keeps _ _)

section Wavering

variable {part : σ → ρ} {outer : Store σ} (keeps : Keeps S V)
  (publishes : Publishes S V neat remains) (wavers : Wavers part S remains outer)

include publishes wavers

theorem leaves_put {job : String} (hj : Job.isId job) (path json : String) (w : σ) :
    S.Leaves neat (part w) (part (outer.put job path json w).2) := by
  have hdocs (docs : List Document) (r : ρ) :
      S.Leaves neat r (docs.foldl (fun r d => (S.put job d.path d.json r).2) r) := by
    induction docs generalizing r with
    | nil => exact .refl S neat r
    | cons d ds ih => exact (publishes.put job d.path d.json r hj).trans (ih _)
  rcases wavers.put job path json w with ⟨-, hw⟩ | ⟨-, docs, hw⟩
  · rw [hw]
    exact publishes.put job path json (part w) hj
  · rw [hw]
    exact hdocs docs (part w)

theorem leaves_delete {job : String} (hj : Job.isId job) (w : σ) :
    S.Leaves neat (part w) (part (outer.delete job w).2) := by
  rcases wavers.delete job w with hw | hw
  · rw [hw]
    exact publishes.delete job (part w) hj
  · exact publishes.thinned job _ _ hj hw

theorem neat_publish (json : String) (w : σ) (hw : neat (part w)) :
    neat (part (outer.publish json w).2) := by
  have hjsons (jsons : List String) (r : ρ) (hr : neat r) :
      neat (jsons.foldl (fun r json => (S.publish json r).2) r) := by
    induction jsons generalizing r with
    | nil => exact hr
    | cons json jsons ih => exact ih _ (publishes.publish json r hr).1
  rcases wavers.publish json w with ⟨-, hp⟩ | ⟨-, jsons, hp⟩
  · rw [hp]
    exact (publishes.publish json (part w) hw).1
  · rw [hp]
    exact hjsons jsons (part w) hw

include keeps

theorem current_republish (w : σ) (hw : neat (part w)) :
    neat (part (Overview.republish outer w).2) ∧
      ∀ n, (Overview.republish outer w).1.outcome = .ok (some n) →
        S.Current (part (Overview.republish outer w).2) := by
  have hlisting := wavers.listing w
  obtain ⟨⟨e, he⟩, hnone, hpart⟩ | ⟨os, hos, hpart, hpublished⟩ :=
    Overview.republish_cases outer w
  · rw [hpart, hnone]
    refine ⟨?_, by simp⟩
    rcases hlisting with ⟨-, hp⟩ | ⟨-, hp⟩
    · exact hp ▸ (publishes.listing (part w) hw).1
    · exact hp ▸ hw
  -- the store below has given the same listing, since one that falters gives none
  obtain ⟨hos', hp₁⟩ : (S.listOverviews (part w)).1.outcome = .ok os ∧
      part (outer.listOverviews w).2 = (S.listOverviews (part w)).2 := by
    rcases hlisting with ⟨ho, hp⟩ | ⟨⟨e, he⟩, -⟩
    · exact ⟨ho.symm.trans hos, hp⟩
    · rw [hos] at he
      cases he
  have hw₁ : neat (part (outer.listOverviews w).2) := hp₁ ▸ (publishes.listing (part w) hw).1
  rw [hpart]
  refine ⟨neat_publish publishes wavers _ _ hw₁, fun n hn => ?_⟩
  have hok := hpublished.mp ⟨n, hn⟩
  rcases wavers.publish (Overview.write (Overview.merge os)) (outer.listOverviews w).2 with
    ⟨ho, hp₂⟩ | ⟨⟨e, he⟩, -⟩
  · rw [hp₁] at ho hp₂
    rw [hp₂]
    exact current_publish keeps publishes hw hos' (ho.symm.trans hok)
  · rw [hok] at he
    cases he

end Wavering

end ArchiveKeeper.Store
