import ArchiveKeeper.Proofs.Fetch.Announcements
import ArchiveKeeper.Proofs.Fetch.ConfiguredStore
import ArchiveKeeper.Proofs.Fetch.Deeds
import ArchiveKeeper.Proofs.Fetch.Effect

namespace ArchiveKeeper.Fetch

open Act Progress Store

variable {σ ρ : Type} {f : Fetcher σ} {part : σ → ρ} {inner : Store ρ} {V : View ρ} {U : View σ}
  {c : Cache} {w w' : σ} {job : String} {m : Moment σ} {ms : List (Moment σ)}

section Deeds

variable (keeps : Keeps inner V) (stands : f.StandsOn part inner V)

include keeps stands

/-- No deed changes what the jobs have filed that are held at its moment. -/
theorem Done.spares (h : Done f (fun id => Job.isId id) m w') :
    (V.zoom part).Spares (fun job => m.cache.holds job) m.world w' := by
  have hfree {c : Cache} {job : String} (free : ¬ c.holds job) (id : String) (hid : c.holds id) :
      id ≠ job := fun he => free (he ▸ hid)
  cases h with
  | visit => exact .refl _ _
  | list hs c w => exact (keeps.untouched _ _ (stands.list _ hs w)).mono fun _ _ => trivial
  | read hs a c w => exact (keeps.untouched _ _ (stands.read _ hs a w)).mono fun _ _ => trivial
  | remove hs a c w => exact (keeps.untouched _ _ (stands.remove _ hs a w)).mono fun _ _ => trivial
  | put hj free path json w =>
    exact (Fetcher.spares_put keeps stands hj path json w).mono (hfree free)
  | delete hj free w => exact (Fetcher.spares_delete keeps stands hj w).mono (hfree free)
  | republish c w => exact (Fetcher.spares_republish keeps stands w).mono fun _ _ => trivial
  | deliver hl events c w =>
    exact (Fetcher.spares_deliverAll keeps stands hl events w).mono fun _ _ => trivial

theorem ready_of_linked (h : Linked (Done f fun id => Job.isId id) ms w)
    (hw : (V.zoom part).ready (worldAt ms w)) :
    (∀ m ∈ ms, (V.zoom part).ready m.world) ∧ (V.zoom part).ready w := by
  induction ms with
  | nil => exact ⟨by simp, hw⟩
  | cons m ms ih =>
    obtain ⟨hdone, hrest⟩ := h
    obtain ⟨hall, hend⟩ := ih hrest (hdone.spares keeps stands hw).1
    refine ⟨fun m' hm => ?_, hend⟩
    rcases List.mem_cons.mp hm with rfl | hm
    · exact hw
    · exact hall m' hm

theorem shelf_of_held (h : Linked (Done f fun id => Job.isId id) ms w)
    (hw : (V.zoom part).ready (worldAt ms w)) (hj : Job.isId job)
    (hheld : ∀ m ∈ ms, m.cache.holds job) :
    (V.zoom part).shelf job w = (V.zoom part).shelf job (worldAt ms w) := by
  induction ms with
  | nil => rfl
  | cons m ms ih =>
    obtain ⟨hdone, hrest⟩ := h
    obtain ⟨hready, hsame⟩ := hdone.spares keeps stands hw
    rw [ih hrest hready fun m' hm => hheld m' (List.mem_cons_of_mem _ hm)]
    exact (hsame job hj (hheld m (List.mem_cons_self ..))).1

theorem deletes_of_linked (h : Linked (Done f fun id => Job.isId id) ms w)
    (hw : ∀ m ∈ ms, (V.zoom part).ready m.world) : ∀ m ∈ ms, ¬ m.deed.isFailedDeletion := by
  intro m hm
  obtain ⟨w', hdone⟩ := h.of_mem hm
  have hready := hw m hm
  cases hdone with
  | delete hj free w =>
    have hok := (Fetcher.deleted_delete keeps stands hj hready).1
    dsimp only at hok
    simp [hok, Deed.isFailedDeletion]
  | _ => simp [Deed.isFailedDeletion]

end Deeds

namespace Fetcher

variable {τ : Type} {base : Files.Path} {config : Config.Storage} {site : σ → Site τ}
  {drift : σ → σ → Prop} {w₀ : σ} {history : List (Result × Progress σ)}

/-- Whenever a cycle puts a document of a job or deletes a job, no location holds that job. So what
a job has filed stays through any stretch of a cycle in which some location holds it, and in
particular it stays through a cycle if a location holds it that could not be listed. -/
theorem held_untouched (run : f.Run drift w₀ history c w)
    (distinct : ∀ x ∈ history ++ [f.cycle c w], x.2.DistinctListings) :
    (∀ m ∈ (f.cycle c w).2.trace, ∀ job, m.deed.Touches job → ¬ m.cache.holds job) ∧
      (f.Sited base config site drift w₀ →
        (∀ x ∈ history ++ [f.cycle c w], x.2.ValidListings) → ∀ job, Job.isId job →
        (∀ before ms after, (f.cycle c w).2.trace = before ++ ms ++ after →
          (∀ m ∈ ms, m.cache.holds job) →
          (Site.view base config).shelf job (site (worldAt after (f.cycle c w).2.world)) =
            (Site.view base config).shelf job
              (site (worldAt (ms ++ after) (f.cycle c w).2.world))) ∧
        ∀ location e, (location, .error e) ∈ listingsOf (f.cycle c w).2.trace →
          job ∈ c.ids location → job ∈ (f.cycle c w).2.cache.ids location ∧
            (Site.view base config).shelf job (site (f.cycle c w).2.world) =
              (Site.view base config).shelf job (site w)) := by
  have hlast : f.cycle c w ∈ history ++ [f.cycle c w] := by simp
  have hn := run.accepted.nodup
  constructor
  · have heard : (f.cycle c w).2.Heard True fun _ => True :=
      ⟨fun _ => distinct _ hlast, fun _ _ _ _ _ => trivial⟩
    intro m hm job ht
    obtain ⟨w', hdone⟩ := (deeds_cycle hn run.locations heard fun _ _ _ => trivial).2.of_mem hm
    exact hdone.not_holds ht
  intro sited valid job hj
  have keeps : Keeps (Site.store base config : Store (Site τ)) (Site.view base config) :=
    Site.store_keeps sited.plain config
  have mirrored := run.mirrored keeps sited.stands sited.sound sited.drift
    (fun x hx => distinct x (List.mem_append_left _ hx))
    (fun x hx => valid x (List.mem_append_left _ hx))
  have hknown := run.known (K := fun id => Job.isId id) fun x hx =>
    ⟨False.elim, valid x (List.mem_append_left _ hx)⟩
  have heard : (f.cycle c w).2.Heard True fun id => Job.isId id :=
    ⟨fun _ => distinct _ hlast, valid _ hlast⟩
  obtain ⟨hstart, hdeeds⟩ := deeds_cycle hn run.locations heard hknown
  have hready : ((Site.view base config).zoom site).ready
      (worldAt (f.cycle c w).2.trace (f.cycle c w).2.world) := by
    rw [hstart]
    exact mirrored.ready
  constructor
  · intro before ms after htrace hheld
    rw [htrace, List.append_assoc, worldAt_append] at hready
    rw [htrace, List.append_assoc, linked_append, linked_append] at hdeeds
    obtain ⟨hbefore, hms, -⟩ := hdeeds
    have hreached := (ready_of_linked keeps sited.stands hbefore hready).2
    rw [worldAt_append] at hreached ⊢
    exact shelf_of_held keeps sited.stands hms hreached hj hheld
  · intro location e he hmem
    have hdeletes : (f.cycle c w).2.DeletesAll := deletes_of_linked keeps sited.stands hdeeds
      (ready_of_linked keeps sited.stands hdeeds hready).1
    obtain ⟨middle, left, ms, deletions, h⟩ :=
      cycle_completed hn run.locations (completed_of_deletesAll hdeletes)
    have hlist : (location, .error e) ∈ listingsOf ms := h.listings ▸ he
    obtain ⟨s, hs, rfl⟩ : ∃ s ∈ f.sources, s.location = location := by
      rw [← List.mem_map, ← h.survey.listed]
      exact List.mem_map_of_mem hlist
    have hids := h.ids_of_failed hn hs hlist
    have hbefore : c.holds job := (Cache.holds_iff run.nodup).mpr ⟨_, hmem⟩
    have hup := upkept_cycle keeps sited.stands hn run.locations hknown (distinct _ hlast)
      (valid _ hlast) mirrored.ready mirrored.bare
    have hafter : (f.cycle c w).2.cache.holds job :=
      (Cache.holds_iff (hup.locations ▸ hn)).mpr ⟨_, hids.symm ▸ hmem⟩
    have hold : job ∉ (f.cycle c w).2.created := by
      rw [← created_cycle, (h.mirrors hn run.locations (distinct _ hlast)).created]
      exact fun hnew => hnew.1 hbefore
    exact ⟨hids.symm ▸ hmem, ((hup.tended job hj).old hafter hold).2⟩

def outage (w w' : Site Bool) : Prop := w' = { w with objects := true }

def outageSite : Site Bool := { sampleCycle.2.world with objects := true }

/-- The cycle after the first one of the sample, while the first location is down. -/
def outageCycle : Result × Progress (Site Bool) := sample.cycle sampleCycle.2.cache outageSite

theorem run_outage : sample.Run outage blankSite [sampleCycle] sampleCycle.2.cache outageSite :=
  .drifted run_sampleCycle rfl

theorem listingsOf_outageCycle : listingsOf outageCycle.2.trace =
    [("first", .error (.listing "first")), ("second", .ok [])] := by
  decide +kernel

theorem eq_nil_of_outageCycle {location : String} {as : List Archive}
    (h : (location, .ok as) ∈ listingsOf outageCycle.2.trace) : as = [] := by
  rw [listingsOf_outageCycle] at h
  simp only [List.mem_cons, Prod.mk.injEq, Except.ok.injEq, reduceCtorEq, and_false,
    List.not_mem_nil, or_false, false_or] at h
  exact h.2

theorem held_outageCycle : sampleArchive.job ∈ outageCycle.2.cache.ids "first" ∧
    (Site.view [] sampleConfig).shelf sampleArchive.job outageCycle.2.world =
      (Site.view [] sampleConfig).shelf sampleArchive.job outageSite := by
  have sited : sample.Sited [] sampleConfig id outage blankSite :=
    sited_sample fun w w' h => by rw [h]
  have hmem : sampleArchive.job ∈ sampleCycle.2.cache.ids "first" := by decide +kernel
  have he : ("first", .error (.listing "first")) ∈ listingsOf outageCycle.2.trace := by
    rw [listingsOf_outageCycle]
    exact List.mem_cons_self
  have distinct : ∀ x ∈ [sampleCycle] ++ [outageCycle], x.2.DistinctListings := by
    refine List.forall_mem_cons.mpr ⟨distinct_sampleCycle, List.forall_mem_singleton.mpr ?_⟩
    intro location as h
    rw [eq_nil_of_outageCycle h]
    exact List.nodup_nil
  have valid : ∀ x ∈ [sampleCycle] ++ [outageCycle], x.2.ValidListings := by
    refine List.forall_mem_cons.mpr ⟨valid_sampleCycle, List.forall_mem_singleton.mpr ?_⟩
    intro location as h
    rw [eq_nil_of_outageCycle h]
    simp
  unfold outageCycle at he distinct valid ⊢
  have hstay := (held_untouched run_outage distinct).2 sited valid sampleArchive.job (by decide)
  obtain ⟨hheld, hshelf⟩ := hstay.2 "first" (.listing "first") he hmem
  simp only [id_eq] at hshelf
  exact ⟨hheld, hshelf⟩

end Fetcher

end ArchiveKeeper.Fetch
