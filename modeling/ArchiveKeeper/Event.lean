import ArchiveKeeper.Operation

namespace ArchiveKeeper

namespace Event

inductive Kind where
  | created
  | deleted
deriving DecidableEq, Repr, Inhabited

def Kind.name : Kind → String
  | .created => "CREATED"
  | .deleted => "DELETED"

end Event

structure Event where
  kind : Event.Kind
  job : String
deriving DecidableEq, Repr, Inhabited

abbrev Listener (σ : Type) (ε : Type := Failure) := Event → Operation σ Unit ε

namespace Event

variable {σ ε : Type} [Throwable ε]

def failed (e : Event) (text : String) : Log.Record :=
  Log.error "Archive event listener failed"
    [("jobId", .str e.job), ("type", .str e.kind.name), ("err", .str text)]

/-- Tells a listener; what it throws is logged and goes no further. -/
def deliver (listener : Listener σ ε) (e : Event) : Operation σ Unit := fun s =>
  match listener e s with
  | (⟨.ok (), log⟩, s) => (⟨.ok (), log⟩, s)
  | (⟨.error x, log⟩, s) =>
    let reply := Reply.despite x () e.failed
    (⟨reply.outcome, log ++ reply.log⟩, s)

/-- Tells a listener of events in their order, and stops where logging fails. -/
def deliverAll (listener : Listener σ ε) : List Event → Operation σ Unit
  | [] => Operation.answer ()
  | e :: es => fun s =>
    match deliver listener e s with
    | (⟨.error failure, log⟩, s) => (⟨.error failure, log⟩, s)
    | (⟨.ok (), log⟩, s) =>
      let (rest, s) := deliverAll listener es s
      (⟨rest.outcome, log ++ rest.log⟩, s)

end Event

end ArchiveKeeper
