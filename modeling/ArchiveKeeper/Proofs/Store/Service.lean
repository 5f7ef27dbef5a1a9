import ArchiveKeeper.Proofs.Store.Contract
import Mathlib.Data.List.Nodup

namespace ArchiveKeeper.Store

variable {ρ ρ' : Type} {job job' path : String}

inductive Request where
  | reset
  | put (job path json : String)
  | get (path : String)
  | delete (job : String)
  | deleteOverview (job : String)
  | holds (job : String)
  | listOverviews
  | publish (json : String)
deriving DecidableEq, Repr

inductive Answer where
  | done (outcome : Except Failure Unit)
  | document (outcome : Except Failure (Option String))
  | found (outcome : Except Failure Bool)
  | overviews (outcome : Except Failure (List StoredOverview))

def ask (S : Store ρ) (w : ρ) : Request → Answer × ρ
  | .reset => (.done (S.reset w).1.outcome, (S.reset w).2)
  | .put job path json =>
    (.done (S.put job path json w).1.outcome, (S.put job path json w).2)
  | .get path => (.document (S.get path w).1.outcome, (S.get path w).2)
  | .delete job => (.done (S.delete job w).1.outcome, (S.delete job w).2)
  | .deleteOverview job =>
    (.done (S.deleteOverview job w).1.outcome, (S.deleteOverview job w).2)
  | .holds job => (.found (S.holds job w).1.outcome, (S.holds job w).2)
  | .listOverviews => (.overviews (S.listOverviews w).1.outcome, (S.listOverviews w).2)
  | .publish json => (.done (S.publish json w).1.outcome, (S.publish json w).2)

def answers (S : Store ρ) (w : ρ) : List Request → List Answer
  | [] => []
  | request :: requests => (S.ask w request).1 :: S.answers (S.ask w request).2 requests

/-- Requests are about jobs. Documents may be put under any path, but asked for are only those that
a job may own, and the combined overview. -/
def Request.Proper : Request → Prop
  | .put job _ _ | .delete job | .deleteOverview job | .holds job => Job.isId job
  | .get path => path = Job.overviewPath ∨ ∃ job, Job.isId job ∧ Job.owns job path
  | .reset | .listOverviews | .publish _ => True

/-- A request names jobs only. Documents may be put and asked for under any path. -/
def Request.AboutJobs : Request → Prop
  | .put job _ _ | .delete job | .deleteOverview job | .holds job => Job.isId job
  | .reset | .get _ | .listOverviews | .publish _ => True

theorem Request.Proper.aboutJobs {request : Request} (h : request.Proper) : request.AboutJobs := by
  cases request <;> first | exact h | trivial

theorem Request.Proper.get (h : (Request.get path).Proper) :
    path = Job.overviewPath ∨ ∃ job, Job.isId job ∧ Job.InTree job path := by
  rcases h with he | ⟨job, hj, ho⟩
  · exact .inl he
  · exact (Job.owns_iff.mp ho).imp_right fun hin => ⟨job, hj, hin⟩

def Shelf.drop (s : Shelf) (path : String) : Shelf := fun path' =>
  if path' = path then none else s path'

/-- What a store keeps, wherever it keeps it: the documents of the jobs, and the combined overview. -/
structure Contents where
  shelf : String → Shelf
  combined : Option String

namespace Contents

def empty : Contents := ⟨fun _ => Shelf.empty, none⟩

def stock (c : Contents) (job : String) (s : Shelf) : Contents :=
  { c with shelf := fun job' => if job' = job then s else c.shelf job' }

theorem shelf_stock {c : Contents} {s : Shelf} :
    (c.stock job s).shelf job' = if job' = job then s else c.shelf job' := rfl

def after (c : Contents) : Request → Contents
  | .reset => empty
  | .put job path json =>
    if Job.owns job path then c.stock job ((c.shelf job).file ⟨path, json⟩) else c
  | .delete job => c.stock job Shelf.empty
  | .deleteOverview job => c.stock job ((c.shelf job).drop Job.overviewPath)
  | .publish json => { c with combined := some json }
  | .get _ | .holds _ | .listOverviews => c

inductive Gives (c : Contents) : Request → Answer → Prop
  | reset : Gives c .reset (.done (.ok ()))
  | put {job path : String} (json : String) (owns : Job.owns job path) :
    Gives c (.put job path json) (.done (.ok ()))
  | refuse {job path : String} (json : String) (owns : ¬ Job.owns job path) :
    Gives c (.put job path json) (.done (.error (outsideTree job path)))
  | combined : Gives c (.get Job.overviewPath) (.document (.ok c.combined))
  | document {job path : String} (isId : Job.isId job) (inTree : Job.InTree job path) :
    Gives c (.get path) (.document (.ok (c.shelf job path)))
  | delete (job : String) : Gives c (.delete job) (.done (.ok ()))
  | deleteOverview (job : String) : Gives c (.deleteOverview job) (.done (.ok ()))
  | holds {job : String} {found : Bool} (any : found ↔ ∃ path, c.shelf job path ≠ none) :
    Gives c (.holds job) (.found (.ok found))
  | listOverviews {os : List StoredOverview} (ascending : os.Pairwise fun o o' => o.job < o'.job)
    (all : ∀ o, o ∈ os ↔ Job.isId o.job ∧ c.shelf o.job Job.overviewPath = some o.json) :
    Gives c .listOverviews (.overviews (.ok os))
  | publish (json : String) : Gives c (.publish json) (.done (.ok ()))

/-- Lists of overviews in the order of their jobs are told apart by their members. -/
theorem eq_of_ascending {os os' : List StoredOverview} (h : os.Pairwise fun o o' => o.job < o'.job)
    (h' : os'.Pairwise fun o o' => o.job < o'.job) (hmem : ∀ o, o ∈ os ↔ o ∈ os') : os = os' := by
  have hone {o o' : StoredOverview} (hlt : o.job < o'.job) : o ≠ o' := by
    rintro rfl
    exact String.lt_irrefl _ hlt
  have hperm : os.Perm os' := (List.perm_ext_iff_of_nodup (h.imp hone) (h'.imp hone)).mpr hmem
  exact hperm.eq_of_pairwise (fun _ _ _ _ hlt hgt => absurd hgt (String.lt_asymm hlt)) h h'

theorem Gives.unique {c : Contents} {request : Request} {a a' : Answer} (h : c.Gives request a)
    (h' : c.Gives request a') : a = a' := by
  cases h with
  | reset => cases h'; rfl
  | put _ owns =>
    cases h' with
    | put => rfl
    | refuse _ owns' => exact absurd owns owns'
  | refuse _ owns =>
    cases h' with
    | put _ owns' => exact absurd owns' owns
    | refuse => rfl
  | combined =>
    -- no case analysis takes the path for a variable, so it is kept in an equation
    generalize he : Request.get Job.overviewPath = request at h'
    cases h' with
    | combined => rfl
    | document _ inTree => exact absurd (Request.get.inj he).symm inTree.2
    | _ => cases he
  | document isId inTree =>
    cases h' with
    | combined => exact absurd rfl inTree.2
    | document isId' inTree' => rw [inTree.job_eq isId isId' inTree']
  | delete => cases h'; rfl
  | deleteOverview => cases h'; rfl
  | holds any =>
    cases h' with
    | holds any' => rw [Bool.eq_iff_iff.mpr (any.trans any'.symm)]
  | listOverviews ascending all =>
    cases h' with
    | listOverviews ascending' all' =>
      rw [eq_of_ascending ascending ascending' fun o => (all o).trans (all' o).symm]
  | publish => cases h'; rfl

/-- The same is kept of all jobs, and the same combined overview. -/
structure Alike (c c' : Contents) : Prop where
  shelf : ∀ job, Job.isId job → c'.shelf job = c.shelf job
  combined : c'.combined = c.combined

theorem Alike.stock {c d d' : Contents} {s : Shelf} (h : Alike c d) (hjob : d'.shelf job = s)
    (hothers : ∀ job', Job.isId job' → job' ≠ job → d'.shelf job' = d.shelf job')
    (hcombined : d'.combined = d.combined) : Alike (c.stock job s) d' where
  shelf job' hj' := by
    by_cases he : job' = job
    · rw [he, hjob, shelf_stock, if_pos rfl]
    · rw [hothers job' hj' he, h.shelf job' hj', shelf_stock, if_neg he]
  combined := hcombined.trans h.combined

end Contents

/-- A store serves its contents, as far as it allows for the requests. -/
structure Serves (S : Store ρ) (keeps : Contents → ρ → Prop) (allows : Request → Prop) :
    Prop where
  answer : ∀ c w request, keeps c w → request.Proper → allows request →
    c.Gives request (S.ask w request).1
  after : ∀ c w request, keeps c w → request.Proper → allows request →
    keeps (c.after request) (S.ask w request).2

theorem Serves.answers_eq {S : Store ρ} {S' : Store ρ'} {keeps : Contents → ρ → Prop}
    {keeps' : Contents → ρ' → Prop} {allows allows' : Request → Prop} (h : Serves S keeps allows)
    (h' : Serves S' keeps' allows') {c : Contents} {w : ρ} {w' : ρ'} {requests : List Request}
    (hw : keeps c w) (hw' : keeps' c w') (hproper : ∀ r ∈ requests, r.Proper)
    (hallows : ∀ r ∈ requests, allows r ∧ allows' r) :
    S.answers w requests = S'.answers w' requests := by
  induction requests generalizing c w w' with
  | nil => rfl
  | cons r requests ih =>
    obtain ⟨hr, hrest⟩ := List.forall_mem_cons.mp hproper
    obtain ⟨⟨ha, ha'⟩, hallows⟩ := List.forall_mem_cons.mp hallows
    have hanswer : (S.ask w r).1 = (S'.ask w' r).1 :=
      (h.answer c w r hw hr ha).unique (h'.answer c w' r hw' hr ha')
    -- from here on, both have the contents after the request
    have hnext := h.after c w r hw hr ha
    have hnext' := h'.after c w' r hw' hr ha'
    rw [answers, answers, hanswer, ih hnext hnext' hrest hallows]

end ArchiveKeeper.Store
