import ArchiveKeeper.Proofs.Fetch.Clearance

namespace ArchiveKeeper.Fetch.Fetcher

open Act Progress

variable {σ : Type} {f : Fetcher σ} {p q : Progress σ}

/-- The locations from which a cycle evicts what is gone from them, with what is gone. -/
def toExpire (f : Fetcher σ) (left : Leftover σ) : List (String × List String) :=
  if f.policy.evictExpired then left.expired else []

/-- The events of a cycle, in the order in which they are announced. -/
def eventsOf (created : List String) (beyond expired : List Event) : List Event :=
  created.map (⟨.created, ·⟩) ++ beyond ++ expired

def deletedOf (events : List Event) : List String :=
  (events.filter (·.kind = .deleted)).map (·.job)

/-- The point after the combined overview is published, if there is anything new. -/
def afterPublication (f : Fetcher σ) (events : List Event) (p : Progress σ) : Progress σ :=
  if events ≠ [] then
    p.asked .republish ((Overview.republish f.store).bind f.overviewBindings)
  else p

def afterDelivery (f : Fetcher σ) (events : List Event) (p : Progress σ) : Progress σ :=
  match f.listener with
  | none => p
  | some listener => p.asked (fun _ => .deliver events) (Event.deliverAll listener events)

def closed (f : Fetcher σ) (events : List Event) (p : Progress σ) : Progress σ :=
  f.afterDelivery events (f.afterPublication events p)

/-- How far the course of a cycle comes. -/
inductive Coursed (f : Fetcher σ) (p : Progress σ) :
    Except Failure (List String) → Progress σ → Prop
  | unsurveyed {p₀ q : Progress σ} {e : Failure} (start : p.Noted p₀)
    (survey : go (f.visitSources p.cache f.sources) p₀ = (.error e, q)) :
    Coursed f p (.error e) q
  | surplusKept {p₀ p₁ q : Progress σ} {left : Leftover σ} {e : Failure} (start : p.Noted p₀)
    (survey : go (f.visitSources p.cache f.sources) p₀ = (.ok left, p₁))
    (surplus : go (f.evictSurplus left.surplus) p₁ = (.error e, q)) :
    Coursed f p (.error e) q
  | expiredKept {p₀ p₁ p₂ q : Progress σ} {left : Leftover σ} {beyond : List Event} {e : Failure}
    (start : p.Noted p₀)
    (survey : go (f.visitSources p.cache f.sources) p₀ = (.ok left, p₁))
    (surplus : go (f.evictSurplus left.surplus) p₁ = (.ok beyond, p₂))
    (expired : go (f.evictExpired (f.toExpire left)) p₂ = (.error e, q)) :
    Coursed f p (.error e) q
  | through {p₀ p₁ p₂ p₃ q : Progress σ} {left : Leftover σ} {beyond gone : List Event}
    (start : p.Noted p₀)
    (survey : go (f.visitSources p.cache f.sources) p₀ = (.ok left, p₁))
    (surplus : go (f.evictSurplus left.surplus) p₁ = (.ok beyond, p₂))
    (expired : go (f.evictExpired (f.toExpire left)) p₂ = (.ok gone, p₃))
    (close : (f.closed (eventsOf p₁.created beyond gone) p₃).Noted q) :
    Coursed f p (.ok (deletedOf (eventsOf p₁.created beyond gone))) q

theorem go_republish : go f.republish p =
    (.ok (), p.asked .republish ((Overview.republish f.store).bind f.overviewBindings)) := by
  obtain ⟨n?, hn⟩ := Overview.republish_answers f.store p.world
  rw [republish, go_demand, Operation.bind]
  dsimp only
  rw [hn]
  rfl

theorem go_announce (events : List Event) :
    go (f.announce events) p = (.ok (), f.afterDelivery events p) := by
  rw [announce, afterDelivery]
  cases f.listener with
  | none => rfl
  | some listener =>
    dsimp only
    rw [go_demand, (Event.deliverAll_eq_foldl listener events p.world).1]
    rfl

theorem coursed {r : Except Failure (List String)} (h : go f.course p = (r, q)) :
    Coursed f p r q := by
  rw [course, go_bind, go_say] at h
  dsimp only at h
  rw [go_bind, go_get] at h
  dsimp only at h
  have hs := noted_said p ((Log.debug "Starting archive fetching" []).bind f.cycleBindings)
  obtain ⟨e, hv, rfl⟩ | ⟨left, p₁, hv, h⟩ := go_bind_cases h
  · exact .unsurveyed hs hv
  rw [go_bind, go_get] at h
  dsimp only at h
  obtain ⟨e, hb, rfl⟩ | ⟨beyond, p₂, hb, h⟩ := go_bind_cases h
  · exact .surplusKept hs hv hb
  -- both branches of the last decision end in the same close
  have hclose {gone p₃} (h : go (do
      if eventsOf p₁.created beyond gone ≠ [] then f.republish
      f.announce (eventsOf p₁.created beyond gone)
      f.say (Log.debug "Finished archive fetching" [("created", .nat p₁.created.length),
        ("deleted", .nat (deletedOf (eventsOf p₁.created beyond gone)).length)])
      return deletedOf (eventsOf p₁.created beyond gone)) p₃ = (r, q)) :
      r = .ok (deletedOf (eventsOf p₁.created beyond gone)) ∧
        (f.closed (eventsOf p₁.created beyond gone) p₃).Noted q := by
    rw [closed, afterPublication]
    split at h
    · rename_i he
      simp only [go_bind, go_republish, go_pure, go_announce, go_say] at h
      cases h
      rw [if_pos he]
      exact ⟨rfl, noted_said _ _⟩
    · rename_i he
      simp only [go_bind, go_announce, go_say, go_pure] at h
      cases h
      rw [if_neg he]
      exact ⟨rfl, noted_said _ _⟩
  split at h
  · rename_i hp
    obtain ⟨e, hg, rfl⟩ | ⟨gone, p₃, hg, h⟩ := go_bind_cases h
    · exact .expiredKept hs hv hb (by rwa [toExpire, if_pos hp])
    · obtain ⟨rfl, hc⟩ := hclose h
      exact .through hs hv hb (by rwa [toExpire, if_pos hp]) hc
  · rename_i hp
    obtain ⟨rfl, hc⟩ := hclose h
    exact .through hs hv hb (by rw [toExpire, if_neg hp]; rfl) hc

end ArchiveKeeper.Fetch.Fetcher
