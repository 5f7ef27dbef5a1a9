import ArchiveKeeper.ObjectStore.Memory
import ArchiveKeeper.Proofs.Config.Valid
import ArchiveKeeper.Proofs.Fetch.Run
import ArchiveKeeper.Proofs.Location

namespace ArchiveKeeper

namespace Fetch

open Config

/-- The form of a configuration and the fetcher agree on the limit that a number sets. -/
theorem Limit.read_eq_ok_iff (x : Double) (l : Limit) : Limit.read x = .ok l ↔
    (retention (some (Json.Value.number x))).passed? = some l := by
  rw [passed?_retention, passed?_numberLike]
  change _ ↔ (((if x = .nan then none else some x).filter Double.isInteger).filter isLimit).map
    limitOf = some l
  unfold Limit.read
  -- both read a whole number or nothing, so all else is refused on either side
  cases hwhole : x.toInt? with
  | none =>
    have hnone : ((if x = .nan then none else some x).filter Double.isInteger) = none := by
      have hfraction : ¬ x.isInteger := by simp [Double.isInteger, hwhole]
      split
      · rfl
      · rw [Option.filter_some, if_neg hfraction]
    rw [hnone]
    exact iff_of_false (by rintro ⟨⟩) (by rintro ⟨⟩)
  | some n =>
    have hnan : x ≠ .nan := by
      rintro rfl
      cases hwhole
    have hinteger : x.isInteger := by rw [Double.isInteger, hwhole]; rfl
    have hlimit : isLimit x ↔ n = -1 ∨ 1 ≤ n := by
      rw [isLimit, Bool.or_eq_true, Double.atLeastOne_iff hwhole, hwhole, beq_iff_eq,
        Option.some.injEq]
    have hof : limitOf x = if 1 ≤ n then .atMost n.toNat else .unbounded := by
      rw [limitOf, hwhole]
    rw [if_neg hnan, Option.filter_some, if_pos hinteger, Option.filter_some]
    dsimp only
    by_cases hminus : n = -1
    · rw [if_pos hminus, if_pos (hlimit.mpr (.inl hminus)), Option.map_some, hof,
        if_neg (by omega), Except.ok.injEq, Option.some.injEq]
    · rw [if_neg hminus]
      by_cases hone : 1 ≤ n
      · rw [if_pos hone, if_pos (hlimit.mpr (.inr hone)), Option.map_some, hof, if_pos hone,
          Except.ok.injEq, Option.some.injEq]
      · rw [if_neg hone, if_neg (hlimit.not.mpr (not_or.mpr ⟨hminus, hone⟩))]
        exact iff_of_false (by rintro ⟨⟩) (by rintro ⟨⟩)

theorem Limit.read_setting {l : Limit} (h : l.Exact) : Limit.read l.setting = .ok l := by
  rw [Limit.read_eq_ok_iff]
  exact again_retention h

end Fetch

namespace Site

open Fetch

variable {τ : Type} {base : Files.Path} {objects : ObjectStore τ}
  {listener : Option (Listener (Site τ))} {c : Config}

theorem source_location (base : Files.Path) (objects : ObjectStore τ) (text : String)
    (place : Location) : (source base objects text place).location = text := by
  cases place <;> rfl

/-- Making a fetcher of a configuration fails exactly because of its locations. -/
structure Wired (base : Files.Path) (objects : ObjectStore τ)
    (listener : Option (Listener (Site τ))) (c : Config) : Prop where
  fails_iff : (∃ e, fetcher base objects listener c = .error e) ↔
    (∃ l ∈ c.archive.locations, Location.Misnamed l) ∨ ¬ c.archive.locations.Nodup
  blames : ∀ e, fetcher base objects listener c = .error e → ∃ l ∈ c.archive.locations,
    Location.Refuses l e ∨ e = .configuration (.locationTwice l)
  made : ∀ f, fetcher base objects listener c = .ok f →
    f.sources.map (·.location) = c.archive.locations ∧
      f.policy = ⟨c.archive.retained, c.archive.evictExpired, c.archive.evictBeyondLimit⟩

theorem wired_of_valid (h : c.Valid) : Wired base objects listener c := by
  have haccept : Fetcher.accept c.archive.retained.setting c.archive.locations =
      (Fetcher.admitLocations c.archive.locations).map fun () => c.archive.retained := by
    rw [Fetcher.accept, Limit.read_setting h.retained]
  -- locations are read before they are admitted, so a misnamed one is told of first
  obtain ⟨l, hl, hmis, e, he, hrefuses⟩ | ⟨hall, places, hplaces, hfst⟩ :=
    Location.readAll_cases c.archive.locations
  · have hfetcher : fetcher base objects listener c = .error e := by rw [fetcher, he]
    exact ⟨iff_of_true ⟨e, hfetcher⟩ (.inl ⟨l, hl, hmis⟩),
      fun e' he' => ⟨l, hl, .inl (Except.error.inj (hfetcher.symm.trans he') ▸ hrefuses)⟩,
      fun f hf => nomatch hfetcher.symm.trans hf⟩
  have hwell : ¬ ∃ l ∈ c.archive.locations, Location.Misnamed l := fun ⟨l, hl, hmis⟩ =>
    hall l hl hmis
  obtain ⟨hempty, -⟩ | ⟨hnodup, hadmits⟩ | ⟨hrepeated, l, hl, hadmits⟩ :=
    Fetcher.admitLocations_cases c.archive.locations
  · exact absurd hempty h.located
  · have hfetcher (e : Failure) : fetcher base objects listener c ≠ .error e := by
      rw [fetcher, hplaces, haccept, hadmits]
      nofun
    refine ⟨iff_of_false (fun ⟨e, he⟩ => hfetcher e he) (not_or.mpr ⟨hwell, not_not.mpr hnodup⟩),
      fun e he => absurd he (hfetcher e), fun f hf => ?_⟩
    rw [fetcher, hplaces, haccept, hadmits] at hf
    cases hf
    refine ⟨?_, rfl⟩
    dsimp only
    rw [List.map_map, ← hfst]
    exact List.map_congr_left fun l _ => source_location base objects l.1 l.2
  · have hfetcher :
        fetcher base objects listener c = .error (.configuration (.locationTwice l)) := by
      rw [fetcher, hplaces, haccept, hadmits]
      rfl
    exact ⟨iff_of_true ⟨_, hfetcher⟩ (.inr hrepeated),
      fun e' he' => ⟨l, hl, .inr (Except.error.inj (hfetcher.symm.trans he')).symm⟩,
      fun f hf => nomatch hfetcher.symm.trans hf⟩

/-- A configuration that passed its form gives a fetcher with its limit, unless a location is
misnamed or repeated; then the error says which. Each number that sets a limit for the fetcher passes
the form as that limit, and no other number passes. -/
theorem fetcher_of_passed {v : Json.Value} (hv : v.Admissible)
    (h : (Config.form (some v)).toExcept = .ok c) : Wired base objects listener c ∧
      ∀ x l, Limit.read x = .ok l ↔
        (Config.retention (some (Json.Value.number x))).passed? = some l :=
  ⟨wired_of_valid (Config.valid_of_passed hv (Check.Verdict.toExcept_eq_ok_iff.mp h)),
    Limit.read_eq_ok_iff⟩

def crossedSettings : Json.Value :=
  .record [("archive", .record [("dirs", .str "a, b ,a"), ("retainedJobs", .str "3.0")])]

def crossedConfig : Config where
  archive := ⟨["a", "b", "a"], Config.initialSchedule, .atMost 3, true, true⟩
  storage := Config.Storage.initial
  objects := Config.ObjectAccess.initial
  logging := Config.Logging.initial

theorem fetcher_of_crossedSettings : crossedSettings.Admissible ∧
    (Config.form (some crossedSettings)).toExcept = .ok crossedConfig ∧
    ∃ e, fetcher [] ObjectStore.memory none crossedConfig = .error e := by
  have hv : crossedSettings.Admissible := by
    refine .object ?_
    simp only [List.map_cons, List.map_nil, List.forall_mem_cons]
    refine ⟨.object ?_, List.forall_mem_nil _⟩
    simp only [List.map_cons, List.map_nil, List.forall_mem_cons]
    exact ⟨.string _, .string _, List.forall_mem_nil _⟩
  have h : (Config.form (some crossedSettings)).toExcept = .ok crossedConfig :=
    Check.Verdict.toExcept_eq_ok_iff.mpr (by decide +kernel)
  have hwired : Wired [] ObjectStore.memory none crossedConfig := (fetcher_of_passed hv h).1
  exact ⟨hv, h, hwired.fails_iff.mpr (.inr (by decide))⟩

end Site

end ArchiveKeeper
