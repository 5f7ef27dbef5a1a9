import ArchiveKeeper.ObjectStore.Basic

namespace ArchiveKeeper.ObjectStore

/-- A request for one page of the objects right below a beginning of their keys. -/
structure PageRequest where
  bucket : String
  /-- Nothing for all keys. -/
  start? : Option String
  token? : Option String
deriving DecidableEq, Repr, Inhabited

/-- An object as a page lists it; either part may be missing. -/
structure PageEntry where
  key? : Option String
  modified? : Option Double
deriving DecidableEq, Repr, Inhabited

structure Page where
  entries : List PageEntry
  next? : Option String
deriving DecidableEq, Repr, Inhabited

/-- A service that hands out the body of an object as a `β`, and reads the text of a body apart from
that. -/
structure Service (σ β : Type) where
  page : PageRequest → Operation σ Page
  body : String → String → Operation σ (Option β)
  text : β → Operation σ String
  delete : String → String → Operation σ Unit

namespace Page

/-- The object of an entry; an entry without a key, or with an empty one, stands for none. -/
def object? (e : PageEntry) : Option StoredObject :=
  match e.key? with
  | none => none
  | some key => if key = "" then none else some ⟨key, e.modified?.getD .zero⟩

def objects (p : Page) : List StoredObject := p.entries.filterMap object?

/-- The token of the page after this one; an empty token is none. -/
def token? (p : Page) : Option String := p.next?.filter (· ≠ "")

end Page

namespace Service

variable {σ β : Type}

def tooLong (bucket : String) : Failure := .plain ("Listing of " ++ bucket ++ " does not end")

/-- The objects of the pages from a token on, of which there are at most `most`. -/
def listFrom (service : Service σ β) (bucket : String) (start? : Option String) :
    Nat → Option String → Operation σ (List StoredObject)
  | 0, _ => Operation.fail (tooLong bucket)
  | most + 1, token? => fun s =>
    match service.page ⟨bucket, start?, token?⟩ s with
    | (⟨.error e, log⟩, s) => (⟨.error e, log⟩, s)
    | (⟨.ok page, log⟩, s) =>
      match page.token? with
      | none => (⟨.ok page.objects, log⟩, s)
      | some next =>
        let (rest, s) := service.listFrom bucket start? most (some next) s
        (⟨rest.outcome.map (page.objects ++ ·), log ++ rest.log⟩, s)

def noBody (bucket key : String) : Failure :=
  .plain ("No body for s3://" ++ bucket ++ "/" ++ key)

def read (service : Service σ β) (bucket key : String) : Operation σ String := fun s =>
  match service.body bucket key s with
  | (⟨.error e, log⟩, s) => (⟨.error e, log⟩, s)
  | (⟨.ok none, log⟩, s) => (⟨.error (noBody bucket key), log⟩, s)
  | (⟨.ok (some body), log⟩, s) =>
    let (reply, s) := service.text body s
    (⟨reply.outcome, log ++ reply.log⟩, s)

end Service

/-- The object store behind a service whose listings have at most `most` pages. -/
def paged (service : Service σ β) (most : Nat) : ObjectStore σ where
  list bucket start := service.listFrom bucket (if start = "" then none else some start) most none
  read := service.read
  delete := service.delete

end ArchiveKeeper.ObjectStore
