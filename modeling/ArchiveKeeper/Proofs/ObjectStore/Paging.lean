import ArchiveKeeper.ObjectStore.Paged
import ArchiveKeeper.Proofs.Source

namespace ArchiveKeeper

namespace ObjectStore

variable {σ β : Type} {service : Service σ β} {bucket : String} {start? token? : Option String}
  {pages : List Page} {fault? : Option Failure} {s s' : σ} {most : Nat}

namespace Service

/-- The pages that a service answers to the requests of a listing from a token on: each but the last
names the token of the next one. The listing may break off with a request that fails. -/
inductive Chain (service : Service σ β) (bucket : String) (start? : Option String) :
    Option String → σ → List Page → Option Failure → σ → Prop
  | last {token? : Option String} {p : Page} {log : List Log.Record} {s s' : σ}
    (answer : service.page ⟨bucket, start?, token?⟩ s = (⟨.ok p, log⟩, s'))
    (ends : p.token? = none) : Chain service bucket start? token? s [p] none s'
  | next {token? : Option String} {next : String} {p : Page} {ps : List Page}
    {fault? : Option Failure} {log : List Log.Record} {s s₁ s' : σ}
    (answer : service.page ⟨bucket, start?, token?⟩ s = (⟨.ok p, log⟩, s₁))
    (token : p.token? = some next) (rest : Chain service bucket start? (some next) s₁ ps fault? s') :
    Chain service bucket start? token? s (p :: ps) fault? s'
  | broken {token? : Option String} {e : Failure} {log : List Log.Record} {s s' : σ}
    (answer : service.page ⟨bucket, start?, token?⟩ s = (⟨.error e, log⟩, s')) :
    Chain service bucket start? token? s [] (some e) s'

/-- The requests of a listing from a token on: each one but the first names the token of the page
before it. -/
def requestsFrom (bucket : String) (start? token? : Option String) (pages : List Page) :
    List PageRequest :=
  (token? :: (pages.filterMap Page.token?).map some).map (⟨bucket, start?, ·⟩)

/-- What a listing gathers from its pages, if all of them come. -/
def gathered (pages : List Page) : Option Failure → Except Failure (List StoredObject)
  | none => .ok (pages.flatMap Page.objects)
  | some e => .error e

/-- The service, with a record of the pages it has been asked for. -/
def recorded (service : Service σ β) : Service (σ × List PageRequest) β where
  page request := fun (s, asked) =>
    let (reply, s) := service.page request s
    (reply, (s, asked ++ [request]))
  body bucket key := (service.body bucket key).zoom Prod.fst fun s w => (s, w.2)
  text body := (service.text body).zoom Prod.fst fun s w => (s, w.2)
  delete bucket key := (service.delete bucket key).zoom Prod.fst fun s w => (s, w.2)

theorem requestsFrom_last {p : Page} (h : p.token? = none) :
    requestsFrom bucket start? token? [p] = [⟨bucket, start?, token?⟩] := by
  unfold requestsFrom
  rw [List.filterMap_cons_none h]
  rfl

theorem requestsFrom_cons {p : Page} {next : String} (h : p.token? = some next) :
    requestsFrom bucket start? token? (p :: pages) =
      ⟨bucket, start?, token?⟩ :: requestsFrom bucket start? (some next) pages := by
  unfold requestsFrom
  rw [List.filterMap_cons_some h]
  rfl

/-- As many requests are made as there are pages, and one more if that one fails. -/
theorem Chain.length_requestsFrom (h : service.Chain bucket start? token? s pages fault? s') :
    (requestsFrom bucket start? token? pages).length = pages.length + fault?.toList.length := by
  induction h with
  | last _ ends =>
    rw [requestsFrom_last ends]
    rfl
  | next _ token _ ih =>
    rw [requestsFrom_cons token, List.length_cons, List.length_cons, ih]
    omega
  | broken => rfl

theorem Chain.listFrom_eq (h : service.Chain bucket start? token? s pages fault? s')
    (enough : pages.length + fault?.toList.length ≤ most) :
    ∃ log, service.listFrom bucket start? most token? s = (⟨gathered pages fault?, log⟩, s') := by
  induction h generalizing most with
  | @last token? p log s s' answer ends =>
    obtain ⟨most, rfl⟩ := Nat.exists_eq_add_one.mpr enough
    refine ⟨log, ?_⟩
    simp only [listFrom, answer, ends, gathered, List.flatMap_singleton]
  | @next token? next p ps fault? log s s₁ s' answer token _ ih =>
    rw [List.length_cons] at enough
    obtain ⟨most, rfl⟩ : ∃ n, most = n + 1 := Nat.exists_eq_add_one.mpr (by omega)
    obtain ⟨more, hrest⟩ := @ih most (by omega)
    refine ⟨log ++ more, ?_⟩
    simp only [listFrom, answer, token, hrest]
    cases fault? with
    | none => simp only [gathered, Except.map, List.flatMap_cons]
    | some e => rfl
  | @broken token? e log s s' answer =>
    obtain ⟨most, rfl⟩ := Nat.exists_eq_add_one.mpr enough
    refine ⟨log, ?_⟩
    simp only [listFrom, answer, gathered]

theorem recorded_page {request : PageRequest} {reply : Reply Page}
    (h : service.page request s = (reply, s')) (asked : List PageRequest) :
    service.recorded.page request (s, asked) = (reply, (s', asked ++ [request])) := by
  simp only [recorded, h]

theorem Chain.recorded (h : service.Chain bucket start? token? s pages fault? s')
    (asked : List PageRequest) :
    service.recorded.Chain bucket start? token? (s, asked) pages fault?
      (s', asked ++ requestsFrom bucket start? token? pages) := by
  induction h generalizing asked with
  | last answer ends =>
    rw [requestsFrom_last ends]
    exact .last (recorded_page answer asked) ends
  | next answer token _ ih =>
    rw [requestsFrom_cons token, List.append_cons]
    exact .next (recorded_page answer asked) token (ih _)
  | broken answer => exact .broken (recorded_page answer asked)

end Service

end ObjectStore

namespace Source.Bucket

open ObjectStore

variable {location start key job : String} {b : Location.Bucket}

section Entries

theorem job?_append (hid : Job.isId job) : job? start (start ++ job) = some job := by
  unfold job?
  rw [String.toList_append, Text.after?_eq_some_iff.mpr rfl]
  simp only [String.ofList_toList, hid, if_true]

def archive? (location start : String) (e : PageEntry) : Option Archive :=
  (Page.object? e).bind fun o => (job? start o.key).map (⟨·, location, o.key, o.modified⟩)

theorem archives_objects (location start : String) (pages : List Page) :
    archives location start (pages.flatMap Page.objects) =
      (pages.flatMap Page.entries).filterMap (archive? location start) := by
  unfold archives Page.objects archive?
  rw [← List.filterMap_flatMap, List.filterMap_filterMap]

/-- An entry is one of an archive, if its key is a job id behind the beginning of all keys. -/
def IsArchive (b : Location.Bucket) (e : PageEntry) : Prop :=
  ∃ job, Job.isId job ∧ e.key? = some (b.start ++ job)

/-- An archive is listed for an entry of a page. -/
structure ListedFor (location : String) (b : Location.Bucket) (e : PageEntry) (a : Archive) :
    Prop where
  offered : (Location.bucket b).Offers a
  key : e.key? = some a.path
  location : a.location = location
  modified : a.modified = e.modified?.getD .zero

theorem ListedFor.isArchive {e : PageEntry} {a : Archive} (h : ListedFor location b e a) :
    IsArchive b e := by
  obtain ⟨hid, hpath⟩ := h.offered
  exact ⟨a.job, hid, h.key.trans (congrArg some hpath)⟩

theorem listedFor_of_archive? {e : PageEntry} {a : Archive}
    (h : archive? location b.start e = some a) : ListedFor location b e a := by
  obtain ⟨o, ho, ha⟩ := Option.bind_eq_some_iff.mp h
  obtain ⟨job, hjob, rfl⟩ := Option.map_eq_some_iff.mp ha
  obtain ⟨hkey, hid⟩ := job?_eq_some hjob
  unfold Page.object? at ho
  split at ho
  · cases ho
  · rename_i key hkey?
    split at ho
    · cases ho
    · cases ho
      exact ⟨⟨hid, hkey⟩, hkey?, rfl, rfl⟩

theorem isSome_archive?_iff (location : String) {e : PageEntry} :
    (archive? location b.start e).isSome ↔ IsArchive b e := by
  constructor
  · intro h
    obtain ⟨a, ha⟩ := Option.isSome_iff_exists.mp h
    exact (listedFor_of_archive? ha).isArchive
  · rintro ⟨job, hid, hkey⟩
    have hne : b.start ++ job ≠ "" := by
      intro hempty
      have hlength : job.toList.length = 32 := by
        simp only [Job.isId, Bool.and_eq_true, beq_iff_eq] at hid
        exact hid.1
      have hnil := congrArg String.toList hempty
      rw [String.toList_append] at hnil
      rw [(List.append_eq_nil_iff.mp hnil).2] at hlength
      cases hlength
    unfold archive? Page.object?
    simp only [hkey, if_neg hne, Option.bind_some, job?_append hid]
    rfl

instance : DecidablePred (IsArchive b) := fun _ => decidable_of_iff _ (isSome_archive?_iff "")

/-- The archives among some entries are listed one by one, in the order of the entries. -/
theorem forall₂_archives (location : String) (b : Location.Bucket) (entries : List PageEntry) :
    List.Forall₂ (ListedFor location b) (entries.filter (IsArchive b))
      (entries.filterMap (archive? location b.start)) := by
  induction entries with
  | nil => exact .nil
  | cons e entries ih =>
    cases he : archive? location b.start e with
    | none =>
      have hnot : ¬ IsArchive b e := by
        rw [← isSome_archive?_iff location, he]
        exact Bool.false_ne_true
      rw [List.filterMap_cons_none he, List.filter_cons_of_neg (by simpa using hnot)]
      exact ih
    | some a =>
      have hlisted := listedFor_of_archive? he
      rw [List.filterMap_cons_some he, List.filter_cons_of_pos (by simpa using hlisted.isArchive)]
      exact .cons hlisted ih

end Entries

section Listing

variable {σ β : Type} {service : Service σ β} {pages : List Page} {fault? : Option Failure}
  {s s' : σ} {most : Nat}

def start? (b : Location.Bucket) : Option String := if b.start = "" then none else some b.start

/-- The listing of a location over a service that answers one page at a time. -/
def listing (location : String) (b : Location.Bucket) (service : Service σ β) (most : Nat) :
    Operation σ (List Archive) := (Source.bucket location b (paged service most)).list

def listed (location : String) (b : Location.Bucket) (pages : List Page) :
    Option Failure → Except Failure (List Archive)
  | none => .ok ((pages.flatMap Page.entries).filterMap (archive? location b.start))
  | some _ => .error (.listing location)

theorem listing_eq (location : String)
    (h : service.Chain b.name (start? b) none s pages fault? s')
    (enough : pages.length + fault?.toList.length ≤ most) :
    ∃ log, listing location b service most s = (⟨listed location b pages fault?, log⟩, s') := by
  obtain ⟨log, hlist⟩ := h.listFrom_eq enough
  have hpaged : (paged service most).list b.name b.start s =
      (⟨Service.gathered pages fault?, log⟩, s') := hlist
  unfold listing
  simp only [bucket, hpaged]
  cases fault? with
  | none =>
    refine ⟨log ++ ignoredObjects location b.start (pages.flatMap Page.objects), ?_⟩
    simp only [Service.gathered, listed, archives_objects]
  | some e => exact ⟨log, rfl⟩

/-- What the listing of a location comes to, over a service that answers with some pages. -/
structure ListsPages (location : String) (b : Location.Bucket) (service : Service σ β) (most : Nat)
    (s : σ) (pages : List Page) (fault? : Option Failure) : Prop where
  /-- Every page is asked for once, the first without a token and each later one with the token of
  the page before it. -/
  asked : ∃ s', (listing location b service.recorded most (s, [])).2 =
    (s', (none :: (pages.filterMap Page.token?).map some).map (⟨b.name, start? b, ·⟩))
  once : (pages.filterMap Page.token?).length + 1 = pages.length + fault?.toList.length
  found : fault? = none → ∃ as, (listing location b service most s).1.outcome = .ok as ∧
    List.Forall₂ (ListedFor location b) ((pages.flatMap Page.entries).filter (IsArchive b)) as
  /-- The same entries are found the same way, whichever pages they are cut into. -/
  uncut : fault? = none → ∀ {ρ γ : Type} {other : Service ρ γ} {r r' : ρ} {cut : List Page}
    {limit : Nat}, other.Chain b.name (start? b) none r cut none r' → cut.length ≤ limit →
    cut.flatMap Page.entries = pages.flatMap Page.entries →
    (listing location b other limit r).1.outcome = (listing location b service most s).1.outcome
  lost : ∀ e, fault? = some e →
    (listing location b service most s).1.outcome = .error (.listing location)

/-- A listing is of all pages or fails, and it does not matter into which pages the objects are
cut. -/
theorem listing_of_chain (location : String)
    (chain : service.Chain b.name (start? b) none s pages fault? s')
    (enough : pages.length + fault?.toList.length ≤ most) :
    ListsPages location b service most s pages fault? := by
  obtain ⟨log, hlisting⟩ := listing_eq location chain enough
  constructor
  case asked =>
    obtain ⟨_, hrecorded⟩ := listing_eq location (chain.recorded []) enough
    refine ⟨s', ?_⟩
    rw [hrecorded]
    rfl
  case once =>
    have hlength := chain.length_requestsFrom
    rwa [Service.requestsFrom, List.length_map, List.length_cons, List.length_map] at hlength
  case found =>
    rintro rfl
    rw [hlisting]
    exact ⟨_, rfl, forall₂_archives location b _⟩
  case uncut =>
    intro hnone ρ γ other r r' cut limit hcut hlimit hentries
    subst hnone
    obtain ⟨_, hother⟩ := listing_eq location hcut hlimit
    rw [hlisting, hother, listed, listed, hentries]
  case lost =>
    rintro e rfl
    rw [hlisting]
    rfl

/-- A service that hands out pages one after the other and fails when none is left. -/
def reciting : Service (List Page) Unit where
  page _
    | [] => (⟨.error (.plain "No page is left"), []⟩, [])
    | p :: ps => (⟨.ok p, []⟩, ps)
  body _ _ := Operation.answer none
  text _ := Operation.answer ""
  delete _ _ := Operation.answer ()

def emptyPage : Page := ⟨[], some "a"⟩

/-- A page with an archive, an object without a key and one below no job id. -/
def fullPage : Page :=
  ⟨[⟨some "jobs/0123456789abcdef0123456789ABCDEF", none⟩, ⟨none, none⟩, ⟨some "jobs/notes", none⟩],
    some ""⟩

theorem listsPages_emptyPage_fullPage :
    ListsPages "s3://bucket/jobs" ⟨"bucket", "jobs/"⟩ reciting 2 [emptyPage, fullPage]
      [emptyPage, fullPage] none ∧
    ListsPages "s3://bucket/jobs" ⟨"bucket", "jobs/"⟩ reciting 2 [emptyPage] [emptyPage]
      (some (.plain "No page is left")) :=
  ⟨listing_of_chain _ (.next rfl rfl (.last rfl (by decide))) (by decide),
    listing_of_chain _ (.next rfl rfl (.broken rfl)) (by decide)⟩

end Listing

end Source.Bucket

end ArchiveKeeper
