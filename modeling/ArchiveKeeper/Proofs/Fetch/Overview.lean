import ArchiveKeeper.Proofs.Fetch.HeldJobs
import ArchiveKeeper.Proofs.Fetch.Publication

namespace ArchiveKeeper.Fetch.Fetcher

open Act Progress Store

variable {σ ρ τ : Type} {f : Fetcher σ} {part : σ → ρ} {inner : Store ρ} {V : View ρ}
  {neat : ρ → Prop} {remains : String → ρ → ρ → Prop} {w w₀ : σ} {c : Cache} {job : String}
  {drift : σ → σ → Prop} {history : List (Result × Progress σ)}

section Cycle

variable (keeps : Keeps inner V) (stands : f.StandsOn part inner V) (hs : V.sound (part w₀))
  (hdrift : ∀ w w', drift w w' → V.untouched (part w) (part w'))
  (run : f.Run drift w₀ history c w)
  (distinct : ∀ x ∈ history ++ [f.cycle c w], x.2.DistinctListings)
  (valid : ∀ x ∈ history ++ [f.cycle c w], x.2.ValidListings)

include keeps stands hs hdrift run distinct valid

theorem Run.completes : (f.cycle c w).1.completed := by
  have hlast : f.cycle c w ∈ history ++ [f.cycle c w] := by simp
  have mirrored := run.mirrored keeps stands hs hdrift
    (fun x hx => distinct x (List.mem_append_left _ hx))
    (fun x hx => valid x (List.mem_append_left _ hx))
  have hknown := run.isId_of_held fun x hx => valid x (List.mem_append_left _ hx)
  obtain ⟨hstart, hdeeds⟩ := deeds_cycle run.accepted.nodup run.locations
    (K := fun id => Job.isId id) ⟨fun _ => distinct _ hlast, valid _ hlast⟩ hknown
  have hready : (V.zoom part).ready (worldAt (f.cycle c w).2.trace (f.cycle c w).2.world) := by
    rw [hstart]
    exact mirrored.ready
  exact completed_of_deletesAll
    (deletes_of_linked keeps stands hdeeds (ready_of_linked keeps stands hdeeds hready).1)

/-- A cycle that neither creates nor deletes a job leaves what the jobs have filed as it is. -/
theorem Run.shelf_of_quiet (hcreated : (f.cycle c w).1.created = [])
    (hdeleted : (f.cycle c w).1.deleted = []) (hj : Job.isId job) :
    V.shelf job (part (f.cycle c w).2.world) = V.shelf job (part w) := by
  have hlast : f.cycle c w ∈ history ++ [f.cycle c w] := by simp
  have hn := run.accepted.nodup
  have completed := run.completes keeps stands hs hdrift distinct valid
  have mirrored := run.mirrored keeps stands hs hdrift
    (fun x hx => distinct x (List.mem_append_left _ hx))
    (fun x hx => valid x (List.mem_append_left _ hx))
  have hup := run.upkept keeps stands mirrored distinct valid
  obtain ⟨middle, left, ms, deletions, h⟩ := cycle_completed hn run.locations completed
  have hmirrors := h.mirrors hn run.locations (distinct _ hlast)
  by_cases hheld : (f.cycle c w).2.cache.holds job
  · have hold : job ∉ (f.cycle c w).2.created := by
      rw [← created_cycle, hcreated]
      exact List.not_mem_nil
    exact ((hup.tended job hj).old hheld hold).2
  · -- nothing was held of the job before, either
    have hbefore : ¬ c.holds job := by
      intro hc
      have hdel := hmirrors.deleted job hc hheld
      rw [hdeleted] at hdel
      cases hdel
    have hempty : V.shelf job (part w) = Shelf.empty :=
      keeps.empty job _ hj mirrored.ready (mirrored.bare job hj hbefore)
    exact (keeps.empty job _ hj hup.ready ((hup.tended job hj).bare hheld)).trans hempty.symm

/-- A cycle that publishes what it has to leaves the combined overview current, and never tells the
listener of anything before it is. -/
theorem Run.current_cycle (publishes : Publishes inner V neat remains)
    (hpub : (f.cycle c w).2.PublishesAll) (hcurrent : inner.Current (part w)) :
    inner.Current (part (f.cycle c w).2.world) ∧
      ∀ m ∈ (f.cycle c w).2.trace, ∀ told e rest, m.deed = .deliver (told ++ e :: rest) →
        ∀ listener, f.listener = some listener →
          inner.Current (part (Event.deliverAll listener told m.world).2) := by
  have hlast : f.cycle c w ∈ history ++ [f.cycle c w] := by simp
  have hn := run.accepted.nodup
  have hv x (hx : x ∈ history) := valid x (List.mem_append_left _ hx)
  have hids := run.isId_of_held hv
  obtain ⟨p₀, p₁, p₂, p₃, left, beyond, gone, through⟩ :=
    cycle_through (run.completes keeps stands hs hdrift distinct valid)
  have hneat := run.stays_neat publishes stands.leansOn keeps hs hdrift hv
  have hdeliver {m} (hm : m ∈ (f.cycle c w).2.trace) {announced : List Event}
      (hd : m.deed = .deliver announced) : announced = eventsOf p₁.created beyond gone ∧
        m.world = (f.afterPublication (eventsOf p₁.created beyond gone) p₃).world := by
    rcases through.closing hn run.locations hm (by rw [hd]; rfl) with ⟨⟨answer, ha⟩, -⟩ | ⟨he, hw⟩
    · rw [hd] at ha
      cases ha
    · rw [hd] at he
      exact ⟨Deed.deliver.inj he, hw⟩
  by_cases he : eventsOf p₁.created beyond gone = []
  · -- nothing is published, but then no job has changed its overview, either
    obtain ⟨hcreated, hdeleted⟩ := (through.events_eq_nil_iff hn run.locations).mp he
    have hleaves := through.leaves_of_quiet hn run.locations publishes stands.leansOn hids
      (valid _ hlast) he
    refine ⟨hcurrent.of_leaves keeps publishes hneat hleaves fun job hj => ?_,
      fun m hm told e rest hd => ?_⟩
    · rw [run.shelf_of_quiet keeps stands hs hdrift distinct valid hcreated hdeleted hj]
    · exact absurd ((hdeliver hm hd).1.trans he) (by simp)
  · obtain ⟨hend, htold⟩ := through.current hn run.locations publishes stands.leansOn keeps hids
      (valid _ hlast) hneat hpub he
    refine ⟨hend, fun m hm told e rest hd listener hl => ?_⟩
    rw [(hdeliver hm hd).2]
    exact htold listener hl told

end Cycle

theorem Run.current (keeps : Keeps inner V) (publishes : Publishes inner V neat remains)
    (stands : f.StandsOn part inner V) (hs : V.sound (part w₀))
    (hdrift : ∀ w w', drift w w' → V.untouched (part w) (part w'))
    (first : ∃ n, (Overview.republish f.store (f.store.reset w₀).2).1.outcome = .ok (some n))
    (run : f.Run drift w₀ history c w) (distinct : ∀ x ∈ history, x.2.DistinctListings)
    (valid : ∀ x ∈ history, x.2.ValidListings) (published : ∀ x ∈ history, x.2.PublishesAll) :
    inner.Current (part w) := by
  induction run with
  | prepared _ hprepare =>
    exact (current_prepare publishes stands.leansOn keeps hs hprepare).2 first
  | drifted run drifts ih =>
    have hneat := run.stays_neat publishes stands.leansOn keeps hs hdrift valid
    exact (ih distinct valid published).of_untouched keeps publishes hneat (hdrift _ _ drifts)
  | @cycled history c w run ih =>
    have hcurrent := ih (fun x hx => distinct x (List.mem_append_left _ hx))
      (fun x hx => valid x (List.mem_append_left _ hx))
      (fun x hx => published x (List.mem_append_left _ hx))
    have hlast : f.cycle c w ∈ history ++ [f.cycle c w] := by simp
    exact (run.current_cycle keeps stands hs hdrift distinct valid publishes
      (published _ hlast) hcurrent).1

variable {base : Files.Path} {config : Config.Storage} {site : σ → Site τ}

/-- In a run in which the combined overview is published whenever it has to be, it always has the
text that would be published anew: after the store was prepared and after every cycle, whether or
not that had anything to publish, and also whenever the listener is told of an event. -/
theorem overview_follows_store (sited : f.Sited base config site drift w₀)
    (run : f.Run drift w₀ history c w) (distinct : ∀ x ∈ history, x.2.DistinctListings)
    (valid : ∀ x ∈ history, x.2.ValidListings)
    (first : ∃ n, (Overview.republish f.store (f.store.reset w₀).2).1.outcome = .ok (some n))
    (published : ∀ x ∈ history, x.2.PublishesAll) :
    (Site.store base config).Current (site w) ∧
      ∀ x ∈ history, (Site.store base config).Current (site x.2.world) ∧
        ∀ m ∈ x.2.trace, ∀ told e rest, m.deed = .deliver (told ++ e :: rest) →
          ∀ listener, f.listener = some listener →
            (Site.store base config).Current (site (Event.deliverAll listener told m.world).2) := by
  have keeps : Keeps (Site.store base config : Store (Site τ)) (Site.view base config) :=
    Site.store_keeps sited.plain config
  have publishes : Publishes (Site.store base config : Store (Site τ)) (Site.view base config)
      (Site.neat base config) (Site.remains base config) := Site.store_publishes sited.plain config
  have hcurrent {before c w} (run : f.Run drift w₀ before c w) (hpre : before <+: history) :
      (Site.store base config).Current (site w) :=
    run.current keeps publishes sited.stands sited.sound sited.drift first
      (fun x hx => distinct x (hpre.subset hx)) (fun x hx => valid x (hpre.subset hx))
      (fun x hx => published x (hpre.subset hx))
  refine ⟨hcurrent run (List.prefix_refl _), fun x hx => ?_⟩
  obtain ⟨before, c', w', run', hpre, rfl⟩ := run.cycle_mem hx
  exact run'.current_cycle keeps sited.stands sited.sound sited.drift
    (fun x hx => distinct x (hpre.subset hx)) (fun x hx => valid x (hpre.subset hx)) publishes
    (published _ hx) (hcurrent run' ((List.prefix_append _ _).trans hpre))

theorem overview_sampleCycle :
    (Site.store [] sampleConfig).Current sampleCycle.2.world ∧
      ∀ m ∈ sampleCycle.2.trace, ∀ e, m.deed = .deliver [e] →
        (Site.store [] sampleConfig).Current m.world := by
  have sited : sample.Sited [] sampleConfig id (fun _ _ => False) blankSite :=
    sited_sample fun _ _ h => h.elim
  have distinct : ∀ x ∈ [sampleCycle], x.2.DistinctListings :=
    List.forall_mem_singleton.mpr distinct_sampleCycle
  have valid : ∀ x ∈ [sampleCycle], x.2.ValidListings :=
    List.forall_mem_singleton.mpr valid_sampleCycle
  have first : ∃ n, (Overview.republish sample.store
      (sample.store.reset blankSite).2).1.outcome = .ok (some n) := ⟨0, by decide +kernel⟩
  have published : ∀ x ∈ [sampleCycle], x.2.PublishesAll := by
    refine List.forall_mem_singleton.mpr ?_
    unfold PublishesAll
    decide +kernel
  obtain ⟨hcurrent, hcycles⟩ :=
    overview_follows_store sited run_sampleCycle distinct valid first published
  refine ⟨hcurrent, fun m hm e hd => ?_⟩
  exact (hcycles _ (List.mem_singleton.mpr rfl)).2 m hm [] e [] hd _ rfl

end ArchiveKeeper.Fetch.Fetcher
