import ArchiveKeeper.Event
import Mathlib.Tactic.Common

namespace ArchiveKeeper.Event

variable {σ ε : Type} [Throwable ε] {listener : Listener σ ε} {e : Event} {es : List Event} {w : σ}

/-- Telling a listener breaks off where the listener throws what no text can be made of. -/
def BreaksOff (listener : Listener σ ε) (events : List Event) (w : σ) : Prop :=
  ∃ told e later, events = told ++ e :: later ∧
    (listener e (told.foldl (fun w e => (listener e w).2) w)).1.IsTextless

theorem breaksOff_cons : BreaksOff listener (e :: es) w ↔
    (listener e w).1.IsTextless ∨ BreaksOff listener es (listener e w).2 := by
  constructor
  · rintro ⟨_ | ⟨e', told⟩, e'', later, he, hthrows⟩
    · cases he
      exact .inl hthrows
    · cases he
      exact .inr ⟨told, e'', later, rfl, hthrows⟩
  · rintro (hthrows | ⟨told, e', later, rfl, hthrows⟩)
    · exact ⟨[], e, es, rfl, hthrows⟩
    · exact ⟨e :: told, e', later, rfl, hthrows⟩

theorem deliver_cases (listener : Listener σ ε) (e : Event) (w : σ) :
    (deliver listener e w).2 = (listener e w).2 ∧
      ((deliver listener e w).1.outcome = .ok () ∧ ¬ (listener e w).1.IsTextless ∨
        (deliver listener e w).1.outcome = .error Throwable.textless ∧
          (listener e w).1.IsTextless) := by
  unfold deliver
  rcases listener e w with ⟨⟨x | u, log⟩, w'⟩
  · exact ⟨rfl, by simpa using Reply.outcome_despite x () e.failed⟩
  · exact ⟨rfl, .inl ⟨rfl, Reply.not_isTextless_ok u log⟩⟩

/-- Unless it breaks off, a listener is told of every event in its turn. -/
theorem deliverAll_cases (listener : Listener σ ε) (events : List Event) (w : σ) :
    (deliverAll listener events w).1.outcome = .ok () ∧ ¬ BreaksOff listener events w ∧
        (deliverAll listener events w).2 = events.foldl (fun w e => (listener e w).2) w ∨
      (deliverAll listener events w).1.outcome = .error Throwable.textless ∧
        BreaksOff listener events w := by
  induction events generalizing w with
  | nil => exact .inl ⟨rfl, fun ⟨told, _, _, he, _⟩ => by simp at he, rfl⟩
  | cons e es ih =>
    obtain ⟨hworld, hcases⟩ := deliver_cases listener e w
    rw [breaksOff_cons, List.foldl_cons, ← hworld]
    unfold deliverAll
    rcases hd : deliver listener e w with ⟨⟨failure | u, log⟩, w'⟩ <;> rw [hd] at hcases
    · obtain ⟨hok, -⟩ | ⟨hfails, hx⟩ := hcases
      · cases hok
      · exact .inr ⟨hfails, .inl hx⟩
    · obtain ⟨-, hx⟩ | ⟨hfails, -⟩ := hcases
      · exact (ih w').imp (fun ⟨hok, hrest, hw⟩ => ⟨hok, not_or.mpr ⟨hx, hrest⟩, hw⟩)
          fun ⟨hfails, hrest⟩ => ⟨hfails, .inr hrest⟩
      · cases hfails

/-- Every event is told to a listener that throws failures, in their order, whether or not it
fails. -/
theorem deliverAll_eq_foldl (listener : Listener σ) (events : List Event) (w : σ) :
    (deliverAll listener events w).1.outcome = .ok () ∧
      (deliverAll listener events w).2 = events.foldl (fun w e => (listener e w).2) w := by
  obtain ⟨hok, -, hworld⟩ | ⟨-, told, e, later, -, hthrows⟩ := deliverAll_cases listener events w
  · exact ⟨hok, hworld⟩
  · exact absurd hthrows (Reply.not_isTextless nofun _)

end ArchiveKeeper.Event
