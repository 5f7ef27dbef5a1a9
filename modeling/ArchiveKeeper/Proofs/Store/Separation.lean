import ArchiveKeeper.Proofs.Store.Database
import ArchiveKeeper.Proofs.Store.Placement

namespace ArchiveKeeper.Store

variable {σ ρ : Type} {job : String} {S : Store ρ} {V : View ρ} {alike : String → ρ → ρ → Prop}
  {r r' : ρ} {ds : List Document}

/-- States of a store can be alike for a job, as they are where there is nothing of it. What the job
can put in one of them it can put in the other, and they stay alike. -/
structure Separates (S : Store ρ) (V : View ρ) (alike : String → ρ → ρ → Prop) : Prop where
  bare : ∀ job r r', V.bare job r → V.bare job r' → alike job r r'
  put : ∀ job path json r r', Job.isId job → V.ready r → V.ready r' → alike job r r' →
    (S.put job path json r).1.outcome = .ok () →
    (S.put job path json r').1.outcome = .ok () ∧
      alike job (S.put job path json r).2 (S.put job path json r').2

def Takes (S : Store ρ) (job : String) : List Document → ρ → Prop
  | [], _ => True
  | d :: ds, r => (S.put job d.path d.json r).1.outcome = .ok () ∧
    Takes S job ds (S.put job d.path d.json r).2

/-- Where there is nothing of a job, its documents can be put. -/
def Admits (S : Store ρ) (V : View ρ) (job : String) (ds : List Document) : Prop :=
  ∃ r, V.ready r ∧ V.bare job r ∧ Takes S job ds r

namespace Separates

theorem takes (h : Separates S V alike) (keeps : Keeps S V) (hj : Job.isId job) (hr : V.ready r)
    (hr' : V.ready r') (halike : alike job r r') (ht : Takes S job ds r) : Takes S job ds r' := by
  induction ds generalizing r r' with
  | nil => trivial
  | cons d ds ih =>
    obtain ⟨hput, hrest⟩ := ht
    obtain ⟨hput', halike'⟩ := h.put job d.path d.json r r' hj hr hr' halike hput
    have hready := (keeps.put job d.path d.json r hj hr).1
    have hready' := (keeps.put job d.path d.json r' hj hr').1
    exact ⟨hput', ih hready hready' halike' hrest⟩

theorem takes_iff (h : Separates S V alike) (keeps : Keeps S V) (hj : Job.isId job)
    (hr : V.ready r) (hb : V.bare job r) : Takes S job ds r ↔ Admits S V job ds := by
  constructor
  · exact fun ht => ⟨r, hr, hb, ht⟩
  · rintro ⟨r₀, hr₀, hb₀, ht⟩
    exact h.takes keeps hj hr₀ hr (h.bare job r₀ r hb₀ hb) ht

theorem zoom (h : Separates S V alike) {part : σ → ρ} {set : ρ → σ → σ}
    (lens : ∀ r w, part (set r w) = r) :
    Separates (S.zoom part set) (V.zoom part) fun job w w' => alike job (part w) (part w') where
  bare job w w' := h.bare job (part w) (part w')
  put job path json w w' := by
    simpa [Store.zoom, Operation.zoom, View.zoom, lens] using
      h.put job path json (part w) (part w')

theorem bindBackend (h : Separates S V alike) : Separates S.bindBackend V alike := ⟨h.bare, h.put⟩

end Separates

theorem database_separates (place : Database.Place) :
    Separates (database place) Database.view fun _ _ _ => True where
  bare _ _ _ _ _ := trivial
  put job path json w w' _ hw hw' _ h := by
    obtain ⟨t, ht, -⟩ := hw'
    refine ⟨?_, trivial⟩
    by_cases ho : Job.owns job path
    · exact (Answer.done.inj (Database.answer_ask ht (.put job path json))).trans (if_pos ho)
    · simp [database, Database.operation, ho] at h

open Directory Files in
/-- In a directory it depends on the area of a job which documents it can put. -/
theorem directory_separates {root : Path} (hroot : ∀ s ∈ root, Path.IsPlain s) :
    Separates (directory root) (Directory.view root) fun job t t' =>
      ∀ q, Area root job q → t'.node? q = t.node? q where
  bare job t t' hb hb' q hq := (hb' q hq).trans (hb q hq).symm
  put job path json t t' hj hready hready' halike h := by
    rw [directory_put] at h ⊢
    obtain ⟨ho, q, htarget, hfits, habove, hd⟩ := (put_ok_iff hroot hj hready).mp h
    have hq := place_of_target hj ho htarget
    have hput : (Directory.put root job path json t').1 = .ok () := by
      apply (put_ok_iff hroot hj hready').mpr
      refine ⟨ho, q, htarget, hfits, fun r hr ha => ?_, ?_⟩
      · rw [halike r ha]
        exact habove r hr ha
      · rwa [halike q hq.area]
    rw [directory_put]
    refine ⟨hput, fun p hp => ?_⟩
    show (Directory.put root job path json t').2.node? p = (Directory.put root job path json t).2.node? p
    rw [node?_put hroot hj ho htarget hput, node?_put hroot hj ho htarget h, halike p hp]

end ArchiveKeeper.Store
