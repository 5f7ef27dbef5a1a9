import ArchiveKeeper.Proofs.Store.Acceptance
import ArchiveKeeper.Proofs.Store.Keys
import ArchiveKeeper.Proofs.Store.FailedPublication

namespace ArchiveKeeper

namespace Store

variable {σ ρ : Type} {S : Store ρ} {part : σ → ρ} {inner : Store ρ} {outer : Store σ} {w w' : σ}
  {job path json : String} {spares : List Use → Request → Prop} {use : Use} {uses : List Use}

def PutsNothing (job : String) (uses : List Use) : Prop :=
  ∀ path json, .ask (.put job path json) ∉ uses

theorem PutsNothing.of_cons (h : PutsNothing job (use :: uses)) : PutsNothing job uses :=
  fun path json hmem => h path json (List.mem_cons_of_mem _ hmem)

/-- A job and a pair of states: questions that are spared are answered in both alike, whatever is
done in between. As long as the job puts nothing, the same texts are read, and what was there of the
job is found still. -/
structure Unnoticed (S : Store ρ) (job : String) (spares : List Use → Request → Prop) (w w' : ρ) :
    Prop where
  later : ∀ uses request, (∀ use ∈ uses, use.AboutJobs) → request.Asks → request.AboutJobs →
    spares uses request →
    (S.ask (S.through w' uses) request).1 = (S.ask (S.through w uses) request).1
  read : ∀ uses, (∀ use ∈ uses, use.AboutJobs) → PutsNothing job uses → ∀ path text,
    (S.get path (S.through w' uses)).1.outcome = .ok (some text) ↔
      (S.get path (S.through w uses)).1.outcome = .ok (some text)
  held : ∀ uses, (∀ use ∈ uses, use.AboutJobs) → PutsNothing job uses →
    (S.holds job (S.through w uses)).1.outcome = .ok true →
      (S.holds job (S.through w' uses)).1.outcome = .ok true

theorem Unnoticed.refl (S : Store ρ) (job : String) (spares : List Use → Request → Prop) (w : ρ) :
    Unnoticed S job spares w w :=
  ⟨fun _ _ _ _ _ _ => rfl, fun _ _ _ _ _ => Iff.rfl, fun _ _ _ h => h⟩

theorem Acts.unnoticed (h : Acts part inner outer)
    (hpart : Unnoticed inner job spares (part w) (part w')) : Unnoticed outer job spares w w' where
  later uses request about asks names hspared := by
    rw [h.answer, h.answer, h.through, h.through]
    exact hpart.later uses request about asks names hspared
  read uses about hnone path text := by
    rw [h.outcome_get, h.outcome_get, h.through, h.through]
    exact hpart.read uses about hnone path text
  held uses about hnone := by
    rw [h.outcome_holds, h.outcome_holds, h.through, h.through]
    exact hpart.held uses about hnone

theorem Database.Retains.next_of_refused {place : Place} {c : Contents} {w : World} {e : Failure}
    (h : Retains place c w)
    (refused : ((database place).put job path json w).1.outcome = .error e) :
    ((database place).put job path json w).2 = w := by
  obtain ⟨t, hholds, -, -⟩ := h
  by_cases ho : Job.owns job path
  · have hanswer : ((database place).put job path json w).1.outcome = _ :=
      Answer.done.inj (answer_of_table hholds.table_eq (.put job path json))
    rw [refused, if_pos ho] at hanswer
    cases hanswer
  · simp only [database, operation, if_neg ho]

namespace Directory

open Files Files.Tree

variable {root p q r : Path} {job' : String} {t t' t₀ t₀' : Tree} {c c' : Contents}
  {tries tries' : String → List String} {request : Request}
  {D D' : Option Node → Option Node → Prop}

/-- Two trees differ below the directory of a job at most, and only as they may. -/
def Differs (root : Path) (job : String) (D : Option Node → Option Node → Prop) (t t' : Tree) :
    Prop :=
  ∀ q, t'.node? q = t.node? q ∨ jobs root ++ [job] <+: q ∧ D (t.node? q) (t'.node? q)

def IsNew (n n' : Option Node) : Prop := n = none ∧ n' = some .directory

/-- A request is about what is below the directory of a job, or whether there is something of it. -/
def Concerns (root : Path) (job : String) : Request → Prop
  | .get path => ∃ q, documentFile? root path = some q ∧ jobs root ++ [job] <+: q
  | .holds job' => job' = job
  | _ => False

theorem area_of_below (h : jobs root ++ [job] <+: q) : Area root job q :=
  area_iff_below.mpr (.inr (.inr h))

namespace Differs

theorem refl (t : Tree) : Differs root job D t t := fun _ => .inl rfl

theorem mono (h : Differs root job D t t') (hD : ∀ n n', D n n' → D' n n') :
    Differs root job D' t t' := fun q => (h q).imp_right fun ⟨hq, hd⟩ => ⟨hq, hD _ _ hd⟩

theorem same (h : Differs root job D t t') (hq : ¬ jobs root ++ [job] <+: q) :
    t'.node? q = t.node? q := (h q).resolve_right fun hd => hq hd.1

theorem changed (h : Differs root job D t t') {t₁ t₁' : Tree} (hchange : ∀ q,
    t₁'.node? q = t₁.node? q ∨ t₁.node? q = t.node? q ∧ t₁'.node? q = t'.node? q) :
    Differs root job D t₁ t₁' := by
  intro q
  rcases hchange q with he | ⟨hold, hold'⟩
  · exact .inl he
  · rw [hold, hold']
    exact h q

end Differs

/-- Only what is on the way to a file may change when it is replaced. -/
theorem node?_replaceFile_elsewhere (hne : q ≠ []) (hq : ∀ s ∈ q, Path.IsPlain s)
    (hp : ¬ p <+: q) : (replaceFile t q json).2.node? p = t.node? p := by
  have hother : p ≠ q := by
    rintro rfl
    exact hp (List.prefix_refl _)
  refine (node?_replaceFile_of_ne hne hq hother).resolve_right ?_
  rintro ⟨-, -, hle⟩
  exact hp (hle.trans (List.dropLast_prefix q))

namespace Differs

/-- A file is replaced in both trees alike, if they are the same on the way to it. -/
theorem replaceFile (h : Differs root job D t t') (hne : q ≠ []) (hq : ∀ s ∈ q, Path.IsPlain s)
    (hway : ∀ r, r <+: q → t'.node? r = t.node? r) :
    (Directory.replaceFile t' q json).1 = (Directory.replaceFile t q json).1 ∧
      Differs root job D (Directory.replaceFile t q json).2 (Directory.replaceFile t' q json).2 := by
  obtain ⟨houtcome, hsame⟩ := replaceFile_congr json hne hway
  refine ⟨houtcome, h.changed fun p => ?_⟩
  by_cases hp : p <+: q
  · exact .inl (hsame p (hway p hp))
  · exact .inr ⟨node?_replaceFile_elsewhere hne hq hp, node?_replaceFile_elsewhere hne hq hp⟩

end Differs

theorem node?_replaceFile_of_below (hroot : ∀ s ∈ root, Path.IsPlain s) (hj : Job.isId job)
    (hready : Ready root t) (hq : Place root job q) (hbelow : jobs root ++ [job] <+: q)
    (hp : ¬ jobs root ++ [job] <+: p) : (replaceFile t q json).2.node? p = t.node? p := by
  by_cases hle : p <+: q
  · -- above the directory of the job there are directories, and they stay
    have habove : Above root p := by
      refine .inl ((List.prefix_or_prefix_of_prefix hle hbelow).elim (fun hle' => ?_) (absurd · hp))
      refine (List.prefix_concat_iff.mp hle').resolve_left ?_
      rintro rfl
      exact hp (List.prefix_refl _)
    obtain ⟨hready', -⟩ := place_replaceFile hroot hj hq hready (Prod.eta (replaceFile t q json)).symm
    rw [hready'.above habove, hready.above habove]
  · exact node?_replaceFile_elsewhere hq.area.ne_nil (hq.plain hroot) hle

namespace Differs

variable (hroot : ∀ s ∈ root, Path.IsPlain s) (hj : Job.isId job) (hready : Ready root t)
  (hready' : Ready root t')

include hroot hj hready hready'

/-- A document of another job is put in both trees alike, and so is any document of the job itself if
the trees may not differ at all; whatever the job puts, they do not differ elsewhere. -/
theorem put (h : Differs root job D t t') (hj' : Job.isId job')
    (hD : (∀ n n', ¬ D n n') ∨ job' ≠ job ∨ ∀ n n', D n n') (path json : String) :
    Differs root job D (Directory.put root job' path json t).2
      (Directory.put root job' path json t').2 := by
  by_cases ho : Job.owns job' path
  · obtain ⟨q, htarget, hplace, hput⟩ := put_of_owns root json t hj' ho
    rw [hput, put_of_target json t' ho htarget]
    by_cases hway : ∀ r, r <+: q → t'.node? r = t.node? r
    · exact (h.replaceFile hplace.area.ne_nil (hplace.plain hroot) hway).2
    · -- something below the directory of the job is on the way, so that the file is there, too
      obtain ⟨r, hr, hne⟩ : ∃ r, r <+: q ∧ t'.node? r ≠ t.node? r := by simpa using hway
      obtain ⟨hbelow, hd⟩ := (h r).resolve_left hne
      have harea : Area root job q := area_of_below (hbelow.trans hr)
      obtain rfl : job' = job := hplace.area.job_eq hj' hj harea
      have hany : ∀ n n', D n n' := (hD.resolve_left fun hno => hno _ _ hd).resolve_left (· rfl)
      intro p
      by_cases hp : jobs root ++ [job'] <+: p
      · exact .inr ⟨hp, hany _ _⟩
      · left
        show (Directory.replaceFile t' q json).2.node? p = (Directory.replaceFile t q json).2.node? p
        rw [node?_replaceFile_of_below hroot hj hready' hplace (hbelow.trans hr) hp,
          node?_replaceFile_of_below hroot hj hready hplace (hbelow.trans hr) hp]
        exact h.same hp
  · rw [Directory.put, Directory.put, if_neg ho, if_neg ho]
    exact h

omit hj

theorem delete (h : Differs root job D t t') (hj' : Job.isId job') :
    Differs root job D (Directory.delete root job' t).2 (Directory.delete root job' t').2 := by
  obtain ⟨-, hsame, hgone⟩ := ready_delete hroot hj' hready
  obtain ⟨-, hsame', hgone'⟩ := ready_delete hroot hj' hready'
  refine h.changed fun q => ?_
  by_cases hq : Area root job' q
  · exact .inl ((hgone' q hq).trans (hgone q hq).symm)
  · exact .inr ⟨hsame q hq, hsame' q hq⟩

theorem reset (h : Differs root job D t t') : ∃ t₁ t₁', Directory.reset root t = (.ok (), t₁) ∧
    Directory.reset root t' = (.ok (), t₁') ∧ ∀ q, t₁'.node? q = t₁.node? q := by
  obtain ⟨t₁, hreset, hready₁, hempty⟩ := reset_of_ready hroot hready
  obtain ⟨t₁', hreset', hready₁', hempty'⟩ := reset_of_ready hroot hready'
  refine ⟨t₁, t₁', hreset, hreset', fun q => ?_⟩
  by_cases habove : Above root q
  · rw [hready₁'.above habove, hready₁.above habove]
  by_cases hq : Within root q
  · have hne : q ≠ jobs root ∧ q ≠ overviews root := by
      constructor <;> rintro rfl
      · exact habove (.inl (List.prefix_refl _))
      · exact habove (.inr (List.prefix_refl _))
    rw [hempty q hq hne.1 hne.2, hempty' q hq hne.1 hne.2]
  · have hnot : ¬ jobs root ++ [job] <+: q := fun hle => hq (area_of_below hle).within
    rcases reset_elsewhere hroot hreset hq with he | ⟨-, -, ha⟩
    · rcases reset_elsewhere hroot hreset' hq with he' | ⟨-, -, ha'⟩
      · rw [he, he', h.same hnot]
      · exact absurd ha' habove
    · exact absurd ha habove

theorem deleteOverview (h : Differs root job D t t') (hj' : Job.isId job') :
    Differs root job D (Directory.deleteOverview root job' t).2
      (Directory.deleteOverview root job' t').2 := by
  refine h.changed fun q => ?_
  rw [node?_deleteOverview hroot hj' hready, node?_deleteOverview hroot hj' hready']
  split
  · exact .inl rfl
  · exact .inr ⟨rfl, rfl⟩

omit hready hready'

theorem publish (h : Differs root job D t t') (hj : Job.isId job) (json : String) :
    Differs root job D (Directory.replaceFile t (combinedFile root) json).2
      (Directory.replaceFile t' (combinedFile root) json).2 := by
  refine (h.replaceFile (by simp [combinedFile]) (plain_combinedFile hroot) fun r hr => ?_).2
  refine h.same fun hle => ?_
  have harea := area_of_below (hle.trans hr)
  exact not_area_combinedFile hj harea

omit hroot

theorem ask (h : Differs root job D t t') (hroot : ∀ s ∈ root, Path.IsPlain s) (hj : Job.isId job)
    (hready : Ready root t) (hready' : Ready root t') (about : request.AboutJobs)
    (hD : (∀ n n', ¬ D n n') ∨ (∀ path json, request ≠ .put job path json) ∨ ∀ n n', D n n') :
    Differs root job D ((directory root).ask t request).2 ((directory root).ask t' request).2 := by
  cases request with
  | reset =>
    obtain ⟨t₁, t₁', hreset, hreset', hsame⟩ := h.reset hroot hready hready'
    simp only [Store.ask, directory_reset, hreset, hreset']
    exact fun q => .inl (hsame q)
  | put job' path json =>
    simp only [Store.ask, directory_put]
    refine h.put hroot hj hready hready' about (hD.imp_right (Or.imp_left fun hne he => ?_)) path json
    exact hne path json (he ▸ rfl)
  | delete job' =>
    simp only [Store.ask, directory_delete]
    exact h.delete hroot hready hready' about
  | deleteOverview job' =>
    simp only [Store.ask, directory_deleteOverview]
    exact h.deleteOverview hroot hready hready' about
  | publish json =>
    simp only [Store.ask, directory_publish]
    exact h.publish hroot hj json
  | get | holds | listOverviews => exact h

/-- When the job was deleted or the store was reset, the trees do not differ any longer. -/
theorem cleared (h : Differs root job D t t') (hroot : ∀ s ∈ root, Path.IsPlain s)
    (hj : Job.isId job) (hready : Ready root t) (hready' : Ready root t')
    (hclears : request = .delete job ∨ request = .reset) : Differs root job (fun _ _ => False)
      ((directory root).ask t request).2 ((directory root).ask t' request).2 := by
  intro q
  rcases hclears with rfl | rfl
  · obtain ⟨-, hsame, hgone⟩ := ready_delete hroot hj hready
    obtain ⟨-, hsame', hgone'⟩ := ready_delete hroot hj hready'
    simp only [Store.ask, directory_delete]
    left
    by_cases hq : Area root job q
    · exact (hgone' q hq).trans (hgone q hq).symm
    · rw [hsame q hq, hsame' q hq]
      exact h.same fun hle => hq (area_of_below hle)
  · obtain ⟨t₁, t₁', hreset, hreset', hsame⟩ := h.reset hroot hready hready'
    simp only [Store.ask, directory_reset, hreset, hreset']
    exact .inl (hsame q)

theorem through (h : Differs root job D t t') (hroot : ∀ s ∈ root, Path.IsPlain s)
    (hj : Job.isId job) (o : Orderly root t₀ c tries t) (o' : Orderly root t₀' c' tries' t')
    (about : ∀ use ∈ uses, use.AboutJobs)
    (hD : (∀ n n', ¬ D n n') ∨ PutsNothing job uses ∨ ∀ n n', D n n') :
    Differs root job D ((directory root).through t uses) ((directory root).through t' uses) := by
  induction uses generalizing t t' c c' tries tries' with
  | nil => exact h
  | cons use uses ih =>
    obtain ⟨habout, hrest⟩ := List.forall_mem_cons.mp about
    have hlater := hD.imp_right (Or.imp_left PutsNothing.of_cons)
    cases use with
    | ask request =>
      refine ih (h.ask hroot hj o.ready o'.ready habout ?_) (o.ask hroot habout) (o'.ask hroot habout)
        hrest hlater
      refine hD.imp_right (Or.imp_left fun hnone path json he => hnone path json ?_)
      rw [he]
      exact List.mem_cons_self ..
    | close => exact ih h o o' hrest hlater

theorem find_eq (h : Differs root job D t t') (hplain : ∀ s ∈ q, Path.IsPlain s)
    (hq : (∀ n n', ¬ D n n') ∨ ¬ jobs root ++ [job] <+: q) : t'.find q = t.find q := by
  refine find_congr hplain fun r hr => ?_
  rcases h r with he | ⟨hle, hd⟩
  · exact he
  · exact (hq.elim (fun hno => hno _ _ hd) fun hno => hno (hle.trans hr)).elim

theorem answer (h : Differs root job D t t') (hroot : ∀ s ∈ root, Path.IsPlain s)
    (hj : Job.isId job) (o : Orderly root t₀ c tries t) (o' : Orderly root t₀' c' tries' t')
    (asks : request.Asks) (about : request.AboutJobs)
    (hD : (∀ n n', ¬ D n n') ∨ ¬ Concerns root job request) :
    ((directory root).ask t' request).1 = ((directory root).ask t request).1 := by
  cases request with
  | get path =>
    have hget : Directory.get root path t' = Directory.get root path t :=
      get_congr fun q hfile => h.find_eq (plain_documentFile? hroot hfile)
        (hD.imp_right fun hno hle => hno ⟨q, hfile, hle⟩)
    simp only [Store.ask, outcome_get, hget]
  | holds job' =>
    have hholds : Directory.holds root job' t' = Directory.holds root job' t :=
      holds_congr hroot about fun q hplain harea => h.find_eq hplain (hD.imp_right fun hno hle =>
        hno (harea.job_eq about hj (area_of_below hle)))
    simp only [Store.ask, outcome_holds, hholds]
  | listOverviews =>
    obtain ⟨os, hos, hascending, hmem⟩ := o.neat.ascending hroot o.distinct
    obtain ⟨os', hos', hascending', hmem'⟩ := o'.neat.ascending hroot o'.distinct
    have hshelf (job' : String) (hj' : Job.isId job') :
        shelf root job' t' Job.overviewPath = shelf root job' t Job.overviewPath := by
      have hnode : t'.node? (overviews root ++ [job' ++ ending]) =
          t.node? (overviews root ++ [job' ++ ending]) := by
        refine h.same ?_
        rintro ⟨r, he⟩
        rw [List.append_assoc] at he
        exact jobs_append_ne he
      rw [shelf, shelf, target?_overview hj']
      simp only [Option.bind_some, text?_congr hnode]
    have heq : os' = os := by
      refine Contents.eq_of_ascending hascending' hascending fun o => ?_
      rw [hmem, hmem']
      exact and_congr_right fun hj' => by rw [hshelf o.job hj']
    simp only [Store.ask, outcome_listOverviews, hos, hos', heq]
  | reset | put | delete | deleteOverview | publish => exact asks.elim

variable (h : Differs root job IsNew t t') (hready : Ready root t) (hready' : Ready root t')

include h hready hready'

theorem get_iff (hroot : ∀ s ∈ root, Path.IsPlain s) (path text : String) :
    Directory.get root path t' = .ok (some text) ↔ Directory.get root path t = .ok (some text) := by
  by_cases hconcerns : Concerns root job (.get path)
  · obtain ⟨q, hfile, hle⟩ := hconcerns
    have hq : Within root q := (area_of_below hle).within
    have hplain := plain_documentFile? hroot hfile
    have htext : text? t' q = text? t q := by
      rcases h q with he | ⟨-, hnone, hnew⟩
      · exact text?_congr he
      · rw [text?, text?, hnone, hnew]
    rw [get_of_file hready hplain hq hfile, get_of_file hready' hplain hq hfile, htext]
  · have hget : Directory.get root path t' = Directory.get root path t :=
      get_congr fun q hfile => h.find_eq (plain_documentFile? hroot hfile)
        (.inr fun hle => hconcerns ⟨q, hfile, hle⟩)
    rw [hget]

theorem holds_of (hj : Job.isId job) (hholds : Directory.holds root job t = .ok true) :
    Directory.holds root job t' = .ok true := by
  by_cases hacc : accept (Path.text (overviewFile root job)) = .ok ()
  · rw [holds_eq hj hready hacc, Except.ok.injEq, List.any_eq_true] at hholds
    obtain ⟨p, hp, hn⟩ := hholds
    rw [holds_eq hj hready' hacc, Except.ok.injEq, List.any_eq_true]
    refine ⟨p, hp, ?_⟩
    rcases h p with he | ⟨-, hnone, -⟩
    · rwa [he]
    · rw [hnone] at hn
      cases hn
  · obtain ⟨e, he⟩ := holds_of_refused (t := t) hacc
    rw [he] at hholds
    cases hholds

end Differs

/-- The directory of a file is there, if a job may put the document. -/
def Housed (root : Path) (job path : String) (t : Tree) : Prop :=
  Job.owns job path → ∀ q, target? root job path = some q → t.node? q.dropLast = some .directory

theorem put_eq_of_housed {e : Failure} (hj : Job.isId job) (hready : Ready root t)
    (hhoused : Housed root job path t)
    (refused : (Directory.put root job path json t).1 = .error e) :
    (Directory.put root job path json t).2 = t := by
  by_cases ho : Job.owns job path
  · obtain ⟨q, htarget, hq, hput⟩ := put_of_owns root json t hj ho
    have hthere := hhoused ho q htarget
    have hwithin : Within root q.dropLast :=
      hq.area.within.imp (Path.prefix_dropLast · hq.area.ne_directory.1.symm)
        (Path.prefix_dropLast · hq.area.ne_directory.2.symm)
    rw [hput] at refused ⊢
    cases hr : (replaceFile t q json).1 with
    | error fault =>
      exact replaceFile_of_there (hready.reaches _ hwithin (by simp [hthere])) hthere hr
    | ok u =>
      rw [hr] at refused
      cases refused
  · rw [Directory.put, if_neg ho]

theorem differs_put {e : Failure} (hroot : ∀ s ∈ root, Path.IsPlain s) (hj : Job.isId job)
    (hready : Ready root t) (refused : (Directory.put root job path json t).1 = .error e) :
    Differs root job IsNew t (Directory.put root job path json t).2 := by
  by_cases ho : Job.owns job path
  · obtain ⟨q, -, hq, hput⟩ := put_of_owns root json t hj ho
    rw [hput] at refused ⊢
    obtain ⟨t₁, hpaved, ⟨-, ht⟩ | ⟨hok, -⟩⟩ :=
      replaceFile_spec hq.area.ne_nil (hq.plain hroot) (Prod.eta (replaceFile t q json)).symm
    · intro p
      have habove (r : Path) (hr : r <+: q.dropLast) :
          Above root r ∨ ∃ r', r = jobs root ++ job :: r' :=
        (hq.above r hr).elim (.inl ∘ .inl) (Or.imp_left .inr)
      rw [ht]
      rcases hready.paved hpaved habove p with he | ⟨hnone, hnew, -, r, rfl⟩
      · exact .inl he
      · refine .inr ⟨?_, hnone, hnew⟩
        rw [List.prefix_append_right_inj]
        exact List.prefix_append [job] r
    · rw [hok] at refused
      cases refused
  · rw [Directory.put, if_neg ho]
    exact .refl t

/-- A question is spared if no directory had to be made for the document, or if it is not about what
is below the directory of the job, or if the job was deleted or the store reset before. -/
def Spares (root : Path) (job path : String) (t : Tree) (uses : List Use) (request : Request) :
    Prop :=
  Housed root job path t ∨ ¬ Concerns root job request ∨ .ask (.delete job) ∈ uses ∨
    .ask .reset ∈ uses

theorem Orderly.unnoticed {e : Failure} (o : Orderly root t₀ c tries t)
    (hroot : ∀ s ∈ root, Path.IsPlain s) (hj : Job.isId job)
    (refused : (Directory.put root job path json t).1 = .error e) :
    Unnoticed (directory root) job (Spares root job path t) t
      (Directory.put root job path json t).2 := by
  have hnew := differs_put hroot hj o.ready refused
  have hany : Differs root job (fun _ _ => True) t (Directory.put root job path json t).2 :=
    hnew.mono fun _ _ _ => trivial
  have hnames : (Request.put job path json).AboutJobs := hj
  have o' := o.ask hroot hnames
  rw [Store.ask, directory_put] at o'
  constructor
  case later =>
    intro uses request about asks names hspared
    rcases hspared with hhoused | hno | hcleared
    · rw [put_eq_of_housed hj o.ready hhoused refused]
    · have hlater := hany.through hroot hj o o' about (.inr (.inr fun _ _ => trivial))
      exact hlater.answer hroot hj (o.through hroot about) (o'.through hroot about) asks names
        (.inr hno)
    · -- up to the request that clears the job they may differ, and from then on they do not
      obtain ⟨request', hclears, hmem⟩ : ∃ request', (request' = .delete job ∨ request' = .reset) ∧
          .ask request' ∈ uses := by
        rcases hcleared with hdelete | hreset
        · exact ⟨_, .inl rfl, hdelete⟩
        · exact ⟨_, .inr rfl, hreset⟩
      obtain ⟨before, after, rfl⟩ := List.append_of_mem hmem
      obtain ⟨habout, hrest⟩ := List.forall_mem_append.mp about
      obtain ⟨habout', hafter⟩ := List.forall_mem_cons.mp hrest
      have hbefore := hany.through hroot hj o o' habout (.inr (.inr fun _ _ => trivial))
      have p := o.through hroot habout
      have p' := o'.through hroot habout
      have hsame := (hbefore.cleared hroot hj p.ready p'.ready hclears).through hroot hj
        (p.ask hroot habout') (p'.ask hroot habout') hafter (.inl fun _ _ => id)
      have hanswer := hsame.answer hroot hj ((p.ask hroot habout').through hroot hafter)
        ((p'.ask hroot habout').through hroot hafter) asks names (.inl fun _ _ => id)
      rw [Store.through_append, Store.through_append]
      exact hanswer
  case read =>
    intro uses about hnone path text
    have hlater := hnew.through hroot hj o o' about (.inr (.inl hnone))
    exact hlater.get_iff (o.through hroot about).ready (o'.through hroot about).ready hroot path text
  case held =>
    intro uses about hnone hheld
    have hlater := hnew.through hroot hj o o' about (.inr (.inl hnone))
    rw [outcome_holds, lift_eq_ok_iff] at hheld ⊢
    exact hlater.holds_of (o.through hroot about).ready (o'.through hroot about).ready hj hheld

end Directory

end Store

namespace Site

open Files Store

variable {τ : Type} {base : Path} {config : Config.Storage} {s : Site τ} {uses : List Use}
  {job path json : String} {e : Failure}

/-- In every state that a store of either kind can reach, a refused document is not noticed. In a
directory this is so as far as no directory had to be made for it, or as what is asked does not
concern what is below the directory of its job, or once the job was deleted or the store reset. -/
theorem refused_put_unnoticed (inUse : InUse base config s uses) (isId : Job.isId job)
    (refused : ((Site.store base config).put job path json
      (reached base config s uses)).1.outcome = .error e) :
    Unnoticed (Site.store base config) job
      (fun later request => config.backend = .files → Directory.Spares (root base config) job path
        (reached base config s uses).files later request)
      (reached base config s uses)
      ((Site.store base config).put job path json (reached base config s uses)).2 := by
  cases hbackend : config.backend with
  | files =>
    have hacts := acts_directory (τ := τ) base hbackend
    have ho := inUse.orderly hbackend
    rw [hacts.outcome_put, Directory.directory_put] at refused
    refine hacts.unnoticed ?_
    rw [hacts.next_put, Directory.directory_put]
    simpa using ho.unnoticed inUse.plainRoot isId refused
  | table =>
    have hacts := acts_database (τ := τ) base hbackend
    rw [hacts.outcome_put] at refused
    refine hacts.unnoticed ?_
    rw [hacts.next_put, (inUse.retains hbackend).next_of_refused refused]
    exact .refl _ _ _ _

def nulPath : String := somePath ++ ".json/\x00"

theorem refused_nulPath : ((Site.store [] inData).put firstJob nulPath "{}"
    (reached [] inData vacant [])).1.outcome = .error (.system .badName) := by
  decide +kernel

theorem unnoticed_nulPath : Unnoticed (Site.store [] inData) firstJob
    (fun later request => inData.backend = .files → Directory.Spares (root [] inData) firstJob
      nulPath (reached [] inData vacant []).files later request)
    (reached [] inData vacant [])
    ((Site.store [] inData).put firstJob nulPath "{}" (reached [] inData vacant [])).2 :=
  refused_put_unnoticed (inUse_vacant (by simp)) isId_firstJob refused_nulPath

/-- A document that was refused, and nothing else, makes a job be found, and another document of it
be refused instead of missing. -/
theorem refused_put_noticed : InUse [] inData vacant [] ∧ Job.isId firstJob ∧
    ((Site.store [] inData).put firstJob nulPath "{}"
      (reached [] inData vacant [])).1.outcome = .error (.system .badName) ∧
    ((Site.store [] inData).holds firstJob (reached [] inData vacant [])).1.outcome = .ok false ∧
    ((Site.store [] inData).holds firstJob ((Site.store [] inData).put firstJob nulPath "{}"
      (reached [] inData vacant [])).2).1.outcome = .ok true ∧
    ((Site.store [] inData).get somePath (reached [] inData vacant [])).1.outcome = .ok none ∧
    ((Site.store [] inData).get somePath ((Site.store [] inData).put firstJob nulPath "{}"
      (reached [] inData vacant [])).2).1.outcome = .error (.system .isDirectory) :=
  ⟨inUse_vacant (by simp), isId_firstJob, refused_nulPath, by decide +kernel, by decide +kernel,
    by decide +kernel, by decide +kernel⟩

end Site

end ArchiveKeeper
