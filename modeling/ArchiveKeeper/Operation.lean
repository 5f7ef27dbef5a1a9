import ArchiveKeeper.Failure
import ArchiveKeeper.Log

namespace ArchiveKeeper

structure Reply (α : Type) (ε : Type := Failure) where
  outcome : Except ε α
  log : List Log.Record

/-- An operation fails with a failure, unless it is said what else it may throw. -/
abbrev Operation (σ α : Type) (ε : Type := Failure) := σ → Reply α ε × σ

/-- Answers in spite of what was thrown, which is logged if a text can be made of it. -/
def Reply.despite [Throwable ε] (x : ε) (a : α) (record : String → Log.Record) : Reply α :=
  match Throwable.text x with
  | .ok text => ⟨.ok a, [record text]⟩
  | .error e => ⟨.error e, []⟩

/-- A reply that throws what no text can be made of. -/
def Reply.IsTextless [Throwable ε] (r : Reply α ε) : Prop :=
  ∃ x, r.outcome = .error x ∧ Throwable.text? x = none

section IsTextless

variable [Throwable ε]

theorem Reply.not_isTextless (texts : ∀ x : ε, Throwable.text? x ≠ none) (r : Reply α ε) :
    ¬ r.IsTextless :=
  fun ⟨x, _, hnone⟩ => texts x hnone

@[simp] theorem Reply.isTextless_error (x : ε) (log : List Log.Record) :
    (⟨.error x, log⟩ : Reply α ε).IsTextless ↔ Throwable.text? x = none := by
  simp [IsTextless]

@[simp] theorem Reply.not_isTextless_ok (a : α) (log : List Log.Record) :
    ¬ (⟨.ok a, log⟩ : Reply α ε).IsTextless :=
  fun ⟨_, hx, _⟩ => nomatch hx

theorem Reply.outcome_despite (x : ε) (a : α) (record : String → Log.Record) :
    (despite x a record).outcome = .ok a ∧ Throwable.text? x ≠ none ∨
      (despite x a record).outcome = .error Throwable.textless ∧ Throwable.text? x = none := by
  unfold despite Throwable.text
  cases Throwable.text? x <;> simp

end IsTextless

namespace Operation

def answer (a : α) : Operation σ α ε := fun s => (⟨.ok a, []⟩, s)

def fail (e : ε) : Operation σ α ε := fun s => (⟨.error e, []⟩, s)

def zoom (get : σ → τ) (set : τ → σ → σ) (p : Operation τ α ε) :
    Operation σ α ε := fun s =>
  let (reply, part) := p (get s)
  (reply, set part s)

def bind (bindings : List (String × Json.Value)) (p : Operation σ α ε) : Operation σ α ε := fun s =>
  let (reply, s) := p s
  (⟨reply.outcome, reply.log.map (Log.Record.bind bindings)⟩, s)

end Operation

end ArchiveKeeper
