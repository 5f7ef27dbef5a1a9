import ArchiveKeeper.Proofs.Files.Frame
import ArchiveKeeper.Proofs.Store.DirectoryService
import ArchiveKeeper.Proofs.Store.Uses

namespace ArchiveKeeper.Store

def Request.Asks : Request → Prop
  | .get _ | .holds _ | .listOverviews => True
  | .reset | .put .. | .delete _ | .deleteOverview _ | .publish _ => False

namespace Directory

open Files Files.Tree

variable {root p q : Path} {job path json : String} {t t' : Tree} {request : Request}
  {answer : Answer}

def OnWay (root : Path) (job path : String) (p : Path) : Prop :=
  Job.owns job path ∧ ∃ q, target? root job path = some q ∧ p <+: q.dropLast

/-- What is at a path was left as it was, or it is a new directory on the way to a document. -/
def Paves (root : Path) (job path : String) (t t' : Tree) (p : Path) : Prop :=
  t'.node? p = t.node? p ∨
    t.node? p = none ∧ t'.node? p = some .directory ∧ OnWay root job path p

/-- What a request may do to a directory, by its answer. -/
inductive Step (root : Path) (t t' : Tree) : Request → Answer → Prop
  | asked {request : Request} {answer : Answer} (asks : request.Asks) (same : t' = t) :
    Step root t t' request answer
  /-- A document that is not stored may leave directories behind. -/
  | unfiled {job path json : String} {e : Failure} (way : ∀ p, Paves root job path t t' p) :
    Step root t t' (.put job path json) (.done (.error e))
  | filed {job path json : String} {q : Path} (owns : Job.owns job path)
    (target : target? root job path = some q) (file : t'.node? q = some (.file json 0))
    (way : ∀ p, p ≠ q → Paves root job path t t' p) :
    Step root t t' (.put job path json) (.done (.ok ()))
  | deleted {job : String} (gone : ∀ p, Area root job p → t'.node? p = none)
    (same : ∀ p, ¬ Area root job p → t'.node? p = t.node? p) :
    Step root t t' (.delete job) (.done (.ok ()))
  | overviewDeleted {job : String} (nodes : ∀ p, t'.node? p =
      if p = overviews root ++ [job ++ ending] then none else t.node? p) :
    Step root t t' (.deleteOverview job) (.done (.ok ()))
  | unpublished {json : String} {e : Failure} (same : ∀ p, t'.node? p = t.node? p) :
    Step root t t' (.publish json) (.done (.error e))
  | published {json : String} (nodes : ∀ p, t'.node? p =
      if p = combinedFile root then some (.file json 0) else t.node? p) :
    Step root t t' (.publish json) (.done (.ok ()))
  | reset (empty : ∀ p, Within root p → p ≠ jobs root → p ≠ overviews root → t'.node? p = none)
    (same : ∀ p, ¬ Within root p → t'.node? p = t.node? p) :
    Step root t t' .reset (.done (.ok ()))

/-- A reset makes the directories above the store where they are missing, and is no business of
anything else outside of it. -/
theorem reset_elsewhere (hroot : ∀ s ∈ root, Path.IsPlain s)
    (h : Directory.reset root t = (.ok (), t')) (hq : ¬ Within root q) :
    t'.node? q = t.node? q ∨ t.node? q = none ∧ t'.node? q = some .directory ∧ Above root q := by
  rw [Within, not_or] at hq
  obtain ⟨t₁, h₁, h⟩ := inTurn_cons h
  obtain ⟨t₂, h₂, h⟩ := inTurn_cons h
  obtain ⟨t₃, h₃, h⟩ := inTurn_cons h
  obtain ⟨t₄, h₄, h⟩ := inTurn_cons h
  cases h
  have hkept₁ : t₁.node? q = t.node? q := by
    have hremoved := node?_removeAll_of_not_below (t := t) hq.1
    rwa [show t.removeAll (jobs root) = _ from h₁] at hremoved
  have hkept₂ : t₂.node? q = t₁.node? q := by
    have hremoved := node?_removeAll_of_not_below (t := t₁) hq.2
    rwa [show t₁.removeAll (overviews root) = _ from h₂] at hremoved
  -- the removals are below the two directories, and what is made after them is above
  obtain ⟨hpaved₃, -⟩ := makeDirectories_spec (plain_jobs hroot) h₃
  obtain ⟨hpaved₄, -⟩ := makeDirectories_spec (plain_overviews hroot) h₄
  rw [← hkept₁, ← hkept₂]
  rcases hpaved₃ q with he₃ | ⟨hn, hd, hle, -⟩
  · rw [← he₃]
    rcases hpaved₄ q with he₄ | ⟨hn, hd, hle, -⟩
    · exact .inl he₄
    · exact .inr ⟨hn, hd, .inr hle⟩
  · exact .inr ⟨hn, hpaved₄.directory hd, .inl hle⟩

theorem step_put (hroot : ∀ s ∈ root, Path.IsPlain s) (hj : Job.isId job) (path json : String)
    (t : Tree) : Step root t (Directory.put root job path json t).2 (.put job path json)
      (.done (Directory.put root job path json t).1) := by
  by_cases ho : Job.owns job path
  · obtain ⟨q, htarget, hq, hput⟩ := put_of_owns root json t hj ho
    rcases hr : replaceFile t q json with ⟨r, t'⟩
    have hne : q ≠ [] := hq.area.ne_nil
    obtain ⟨t₁, hpaved, hend⟩ := replaceFile_spec hne (hq.plain hroot) hr
    have hway (p : Path) : Paves root job path t t₁ p :=
      (hpaved p).imp_right fun ⟨hn, hd, hle, _⟩ => ⟨hn, hd, ho, q, htarget, hle⟩
    rw [hput, hr]
    rcases hend with ⟨⟨e, rfl⟩, rfl⟩ | ⟨rfl, rfl, -⟩
    · exact .unfiled hway
    · refine .filed ho htarget ?_ fun p hp => ?_
      · rw [node?_insert hne, if_pos rfl]
      · rw [Paves, node?_insert hne, if_neg hp]
        exact hway p
  · rw [Directory.put, if_neg ho]
    exact .unfiled fun _ => .inl rfl

theorem step_publish (hroot : ∀ s ∈ root, Path.IsPlain s) (hready : Ready root t) (json : String) :
    Step root t (replaceFile t (combinedFile root) json).2 (.publish json)
      (.done (lift (replaceFile t (combinedFile root) json).1)) := by
  have hne : combinedFile root ≠ [] := by simp [combinedFile]
  rcases hr : replaceFile t (combinedFile root) json with ⟨r, t'⟩
  obtain ⟨t₁, hpaved, hend⟩ := replaceFile_spec hne (plain_combinedFile hroot) hr
  -- the directory is there already
  have hsame (p : Path) : t₁.node? p = t.node? p := by
    rcases hpaved p with he | ⟨hn, -, hle, -⟩
    · exact he
    · rw [combinedFile, List.dropLast_concat] at hle
      rw [hready.above (.inl hle)] at hn
      cases hn
  rcases hend with ⟨⟨e, rfl⟩, rfl⟩ | ⟨rfl, rfl, -⟩
  · exact .unpublished hsame
  · refine .published fun p => ?_
    rw [node?_insert hne, hsame]

theorem step_ask (hroot : ∀ s ∈ root, Path.IsPlain s) (hready : Ready root t)
    (about : request.AboutJobs) : Step root t ((directory root).ask t request).2 request
      ((directory root).ask t request).1 := by
  cases request with
  | reset =>
    obtain ⟨t', hreset, -, hempty⟩ := reset_of_ready hroot hready
    rw [ask, directory_reset, hreset]
    refine .reset hempty fun q hq => ?_
    rcases reset_elsewhere hroot hreset hq with he | ⟨hn, -, ha⟩
    · exact he
    · -- what is above the two directories was there before
      rw [hready.above ha] at hn
      cases hn
  | put job path json =>
    rw [ask, directory_put]
    exact step_put hroot about path json t
  | get path => exact .asked trivial rfl
  | delete job =>
    obtain ⟨-, hsame, hgone⟩ := ready_delete hroot about hready
    rw [ask, outcome_delete, directory_delete]
    exact .deleted hgone hsame
  | deleteOverview job =>
    rw [ask, outcome_deleteOverview, directory_deleteOverview]
    exact .overviewDeleted (node?_deleteOverview hroot about hready)
  | holds job => exact .asked trivial rfl
  | listOverviews => exact .asked trivial rfl
  | publish json =>
    rw [ask, directory_publish]
    exact step_publish hroot hready json

end Directory

end ArchiveKeeper.Store
