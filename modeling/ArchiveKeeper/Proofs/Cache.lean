import ArchiveKeeper.Cache
import Mathlib.Data.List.Nodup
import Mathlib.Tactic.Common

namespace ArchiveKeeper.Cache

variable {c : Cache} {location other job id : String}

theorem find?_update (places : List (String × List String)) (f : List String → List String) :
    (places.map fun p => if p.1 = location then (p.1, f p.2) else p).find? (·.1 = other) =
      (places.find? (·.1 = other)).map fun p => if p.1 = location then (p.1, f p.2) else p := by
  induction places with
  | nil => rfl
  | cons p places ih =>
    have hp : (if p.1 = location then (p.1, f p.2) else p).1 = p.1 := by split <;> rfl
    rw [List.map_cons, List.find?_cons, List.find?_cons, hp]
    by_cases h : p.1 = other
    · simp only [h, decide_true, Option.map_some]
    · simp only [h, decide_false, ih]

@[simp] theorem locations_update (f : List String → List String) :
    (c.update location f).locations = c.locations := by
  simp only [locations, update, List.map_map]
  apply List.map_congr_left
  intro p _
  dsimp only [Function.comp]
  split <;> rfl

@[simp] theorem locations_ingest : (c.ingest location job).locations = c.locations :=
  locations_update _

@[simp] theorem locations_evict : (c.evict location job).locations = c.locations :=
  locations_update _

theorem mem_locations_of_mem_ids (h : job ∈ c.ids location) : location ∈ c.locations := by
  unfold ids ids? at h
  cases hf : c.places.find? (·.1 = location) with
  | none => simp [hf] at h
  | some p =>
    have hp : p.1 = location := by simpa using List.find?_some hf
    exact hp ▸ List.mem_map_of_mem (List.mem_of_find?_eq_some hf)

theorem ids_update_self (h : location ∈ c.locations) (f : List String → List String) :
    (c.update location f).ids location = f (c.ids location) := by
  obtain ⟨p, hp, hl⟩ := List.mem_map.mp h
  have hs : (c.places.find? (·.1 = location)).isSome := by
    rw [List.find?_isSome]
    exact ⟨p, hp, by simp [hl]⟩
  obtain ⟨q, hq⟩ := Option.isSome_iff_exists.mp hs
  have hql : q.1 = location := by simpa using List.find?_some hq
  simp only [ids, ids?, update, find?_update, hq, Option.map_some, if_pos hql, Option.getD_some]

theorem ids_update_of_ne (h : other ≠ location) (f : List String → List String) :
    (c.update location f).ids other = c.ids other := by
  simp only [ids, ids?, update, find?_update, Option.map_map]
  congr 1
  cases hf : c.places.find? (·.1 = other) with
  | none => rfl
  | some p =>
    have hp : p.1 = other := by simpa using List.find?_some hf
    simp [hp, h]

theorem mem_addId {ids : List String} : id ∈ addId job ids ↔ id ∈ ids ∨ id = job := by
  unfold addId
  split
  · rename_i h
    exact ⟨Or.inl, fun hi => hi.elim (fun h => h) (fun e => e ▸ h)⟩
  · simp

theorem mem_removeId {ids : List String} : id ∈ removeId job ids ↔ id ∈ ids ∧ id ≠ job := by
  simp [removeId]

theorem nodup_addId {ids : List String} (h : ids.Nodup) : (addId job ids).Nodup := by
  unfold addId
  split
  · exact h
  · rename_i hj
    rw [← List.concat_eq_append]
    exact h.concat hj

/-- No location holds an id twice, if that is kept at the one that is updated. -/
theorem nodup_ids_update {f : List String → List String} (hf : ∀ ids, ids.Nodup → (f ids).Nodup)
    (h : ∀ l, (c.ids l).Nodup) (other : String) : ((c.update location f).ids other).Nodup := by
  by_cases ho : other = location
  · by_cases hl : location ∈ c.locations
    · rw [ho, ids_update_self hl]
      exact hf _ (h location)
    · have hnone : (c.update location f).ids location = [] := by
        rw [List.eq_nil_iff_forall_not_mem]
        exact fun id hid => hl (locations_update (c := c) f ▸ mem_locations_of_mem_ids hid)
      rw [ho, hnone]
      exact List.nodup_nil
  · rw [ids_update_of_ne ho]
    exact h other

theorem nodup_ids_ingest (h : ∀ l, (c.ids l).Nodup) (other : String) :
    ((c.ingest location job).ids other).Nodup := nodup_ids_update (fun _ => nodup_addId) h other

theorem nodup_ids_evict (h : ∀ l, (c.ids l).Nodup) (other : String) :
    ((c.evict location job).ids other).Nodup :=
  nodup_ids_update (fun _ hids => hids.filter _) h other

theorem mem_ids_ingest (h : location ∈ c.locations) :
    id ∈ (c.ingest location job).ids other ↔
      id ∈ c.ids other ∨ other = location ∧ id = job := by
  by_cases ho : other = location
  · rw [ho, ingest, ids_update_self h, mem_addId]
    simp
  · rw [ingest, ids_update_of_ne ho]
    simp [ho]

theorem mem_ids_evict :
    id ∈ (c.evict location job).ids other ↔
      id ∈ c.ids other ∧ ¬ (other = location ∧ id = job) := by
  by_cases ho : other = location
  · by_cases h : location ∈ c.locations
    · rw [ho, evict, ids_update_self h, mem_removeId]
      simp
    · have hn : ∀ d : Cache, d.locations = c.locations → id ∉ d.ids other := fun d hd hi =>
        h (hd ▸ ho ▸ mem_locations_of_mem_ids hi)
      simp [hn _ locations_evict, hn c rfl]
  · rw [evict, ids_update_of_ne ho]
    simp [ho]

theorem mem_ids_iff (h : c.locations.Nodup) :
    id ∈ c.ids location ↔ ∃ p ∈ c.places, p.1 = location ∧ id ∈ p.2 := by
  constructor
  · intro hi
    unfold ids ids? at hi
    cases hf : c.places.find? (·.1 = location) with
    | none => simp [hf] at hi
    | some p =>
      refine ⟨p, List.mem_of_find?_eq_some hf, by simpa using List.find?_some hf, ?_⟩
      simpa [hf] using hi
  · rintro ⟨p, hp, hl, hi⟩
    have hs : (c.places.find? (·.1 = location)).isSome := by
      rw [List.find?_isSome]
      exact ⟨p, hp, by simp [hl]⟩
    obtain ⟨q, hq⟩ := Option.isSome_iff_exists.mp hs
    have hql : q.1 = location := by simpa using List.find?_some hq
    have he : q = p :=
      List.inj_on_of_nodup_map h (List.mem_of_find?_eq_some hq) hp (hql.trans hl.symm)
    simpa [ids, ids?, hq, he] using hi

theorem holds_iff (h : c.locations.Nodup) : c.holds job ↔ ∃ location, job ∈ c.ids location := by
  simp only [mem_ids_iff h, holds, List.any_eq_true, decide_eq_true_eq]
  exact ⟨fun ⟨p, hp, hj⟩ => ⟨p.1, p, hp, rfl, hj⟩, fun ⟨_, p, hp, _, hj⟩ => ⟨p, hp, hj⟩⟩

theorem heldElsewhere_iff (h : c.locations.Nodup) :
    c.heldElsewhere location job ↔ ∃ other, other ≠ location ∧ job ∈ c.ids other := by
  simp only [mem_ids_iff h, heldElsewhere, List.any_eq_true, Bool.and_eq_true, decide_eq_true_eq]
  constructor
  · rintro ⟨p, hp, hl, hj⟩
    exact ⟨p.1, hl, p, hp, rfl, hj⟩
  · rintro ⟨_, hl, p, hp, rfl, hj⟩
    exact ⟨p, hp, hl, hj⟩

theorem holds_iff_or (location : String) (h : c.locations.Nodup) :
    c.holds job ↔ job ∈ c.ids location ∨ c.heldElsewhere location job := by
  rw [holds_iff h, heldElsewhere_iff h]
  constructor
  · rintro ⟨l, hl⟩
    by_cases hc : l = location
    · exact .inl (hc ▸ hl)
    · exact .inr ⟨l, hc, hl⟩
  · rintro (hl | ⟨l, _, hl⟩)
    · exact ⟨location, hl⟩
    · exact ⟨l, hl⟩

theorem holds_of_heldElsewhere {location : String} (h : c.locations.Nodup)
    (elsewhere : c.heldElsewhere location job) : c.holds job :=
  (holds_iff_or location h).mpr (.inr elsewhere)

theorem not_holds_of_alone {location : String} (h : c.locations.Nodup)
    (hno : job ∉ c.ids location) (alone : ¬ c.heldElsewhere location job) : ¬ c.holds job := by
  rw [holds_iff_or location h, not_or]
  exact ⟨hno, alone⟩

theorem holds_ingest (hn : c.locations.Nodup) (h : location ∈ c.locations) :
    (c.ingest location job).holds id ↔ c.holds id ∨ id = job := by
  rw [holds_iff (by simpa using hn), holds_iff hn]
  simp only [mem_ids_ingest h]
  exact ⟨fun ⟨l, hl⟩ => hl.imp (⟨l, ·⟩) (·.2), fun hl => hl.elim (fun ⟨l, hl⟩ => ⟨l, .inl hl⟩)
    fun e => ⟨location, .inr ⟨rfl, e⟩⟩⟩

theorem holds_ingest_of_holds (hn : c.locations.Nodup) (h : location ∈ c.locations)
    (hj : c.holds job) : (c.ingest location job).holds id ↔ c.holds id := by
  rw [holds_ingest hn h]
  exact ⟨fun hi => hi.elim (fun hi => hi) fun e => e ▸ hj, .inl⟩

theorem holds_ingest_of_ne (hn : c.locations.Nodup) (h : location ∈ c.locations) (hj : id ≠ job) :
    (c.ingest location job).holds id ↔ c.holds id := by
  rw [holds_ingest hn h, or_iff_left hj]

theorem heldElsewhere_evict (hn : c.locations.Nodup) :
    (c.evict location job).heldElsewhere location id = c.heldElsewhere location id := by
  rw [Bool.eq_iff_iff, heldElsewhere_iff (by simpa using hn), heldElsewhere_iff hn]
  refine exists_congr fun l => and_congr_right fun hl => ?_
  simp [mem_ids_evict, hl]

theorem not_mem_ids_evict : job ∉ (c.evict location job).ids location := by
  simp [mem_ids_evict]

theorem holds_evict_of_ne (hn : c.locations.Nodup) (h : id ≠ job) :
    (c.evict location job).holds id ↔ c.holds id := by
  rw [holds_iff (by simpa using hn), holds_iff hn]
  simp [mem_ids_evict, h]

theorem holds_evict_of_heldElsewhere (hn : c.locations.Nodup)
    (h : (c.evict location job).heldElsewhere location job) :
    (c.evict location job).holds id ↔ c.holds id := by
  by_cases hj : id = job
  · subst hj
    have hbefore : c.heldElsewhere location id := by rwa [heldElsewhere_evict hn] at h
    exact iff_of_true (holds_of_heldElsewhere (by simpa using hn) h)
      (holds_of_heldElsewhere hn hbefore)
  · exact holds_evict_of_ne hn hj

/-- A job that no other location holds is held no more once it is evicted. -/
theorem not_holds_evict (hn : c.locations.Nodup)
    (h : ¬ (c.evict location job).heldElsewhere location job) :
    ¬ (c.evict location job).holds job :=
  not_holds_of_alone (by simpa using hn) not_mem_ids_evict h

/-- The cache after jobs were evicted from locations, one after the other. -/
def evictAll (c : Cache) (pairs : List (String × String)) : Cache :=
  pairs.foldl (fun c x => c.evict x.1 x.2) c

/-- The jobs that no other location holds as they are evicted, one after the other. -/
def lost (c : Cache) : List (String × String) → List String
  | [] => []
  | x :: rest => (if c.heldElsewhere x.1 x.2 then [] else [x.2]) ++ (c.evict x.1 x.2).lost rest

theorem evictAll_append (pairs pairs' : List (String × String)) :
    c.evictAll (pairs ++ pairs') = (c.evictAll pairs).evictAll pairs' := List.foldl_append

theorem lost_append (pairs pairs' : List (String × String)) :
    c.lost (pairs ++ pairs') = c.lost pairs ++ (c.evictAll pairs).lost pairs' := by
  induction pairs generalizing c with
  | nil => rfl
  | cons x pairs ih => rw [List.cons_append, lost, ih, lost, List.append_assoc]; rfl

theorem foldl_append_of_nodup (seen locations : List String) (h : (seen ++ locations).Nodup) :
    locations.foldl (fun seen l => if l ∈ seen then seen else seen ++ [l]) seen =
      seen ++ locations := by
  induction locations generalizing seen with
  | nil => simp
  | cons l ls ih =>
    have hl : l ∉ seen := fun hm => (List.nodup_append.mp h).2.2 l hm l (by simp) rfl
    rw [List.foldl_cons, if_neg hl, ih]
    · simp
    · simpa using h

@[simp] theorem locations_ofLocations {locations : List String} (h : locations.Nodup) :
    (ofLocations locations).locations = locations := by
  have he := foldl_append_of_nodup [] locations (by simpa using h)
  simp only [List.nil_append] at he
  simp [ofLocations, Cache.locations, he, Function.comp_def]

@[simp] theorem ids_ofLocations (locations : List String) :
    (ofLocations locations).ids location = [] := by
  unfold ids ids?
  cases hf : (ofLocations locations).places.find? (·.1 = location) with
  | none => rfl
  | some p =>
    have hp := List.mem_of_find?_eq_some hf
    simp only [ofLocations, List.mem_map] at hp
    obtain ⟨_, _, rfl⟩ := hp
    rfl

end ArchiveKeeper.Cache
