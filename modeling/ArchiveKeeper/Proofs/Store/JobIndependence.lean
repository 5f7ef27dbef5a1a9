import ArchiveKeeper.Proofs.Files.Frame
import ArchiveKeeper.Proofs.Store.DirectoryInvariant

namespace ArchiveKeeper.Store.Directory

open Files Files.Tree

variable {root q r : Path} {job job' path : String} {t t' : Tree}

def Legible (root : Path) (path : String) : Prop := ∀ q, documentFile? root path = some q →
  accept (Path.text q) = .ok () ∧ ∀ s ∈ q, Text.byteCount s ≤ longestName

theorem get_congr (h : ∀ q, documentFile? root path = some q → t'.find q = t.find q) :
    Directory.get root path t' = Directory.get root path t := by
  rw [Directory.get, Directory.get]
  cases hfile : documentFile? root path with
  | none => rfl
  | some q => simp only [Tree.read, h q hfile]

theorem anyThere_congr {ps : List Path} (h : ∀ p ∈ ps, t'.find p = t.find p) :
    anyThere t' ps = anyThere t ps := by
  induction ps with
  | nil => rfl
  | cons p ps ih =>
    obtain ⟨hp, hps⟩ := List.forall_mem_cons.mp h
    rw [anyThere, anyThere, hp, ih hps]

theorem holds_congr (hroot : ∀ s ∈ root, Path.IsPlain s) (hj : Job.isId job)
    (h : ∀ q, (∀ s ∈ q, Path.IsPlain s) → Area root job q → t'.find q = t.find q) :
    Directory.holds root job t' = Directory.holds root job t := by
  rw [holds_eq_anyThere hj, holds_eq_anyThere hj]
  refine anyThere_congr fun p hp => ?_
  obtain ⟨hplain, harea⟩ := plain_area hroot hj hp
  exact h p hplain harea

/-- Where two trees are the same on the way to a file, it is replaced alike in both. -/
theorem replaceFile_congr (content : String) (hq : q ≠ [])
    (h : ∀ r, r <+: q → t'.node? r = t.node? r) :
    (replaceFile t' q content).1 = (replaceFile t q content).1 ∧
      ∀ p, t'.node? p = t.node? p →
        (replaceFile t' q content).2.node? p = (replaceFile t q content).2.node? p := by
  have habove : ∀ r, r <+: q.dropLast → t'.node? r = t.node? r :=
    fun r hr => h r (hr.trans (List.dropLast_prefix q))
  obtain ⟨houtcome, hsame⟩ := makeDirectories_congr habove
  rcases hm : t.makeDirectories q.dropLast with ⟨r, t₁⟩
  rcases hm' : t'.makeDirectories q.dropLast with ⟨r', t₁'⟩
  rw [hm, hm'] at houtcome hsame
  obtain rfl : r' = r := houtcome
  rw [replaceFile, replaceFile, hm, hm']
  cases r' with
  | error e => exact ⟨rfl, hsame⟩
  | ok u =>
    obtain ⟨hreplaced, hfile⟩ := replace_congr content hq (hsame q (h q (List.prefix_refl q)))
    exact ⟨hreplaced, fun p hp => hfile p (hsame p hp)⟩

/-- On the way to what there is of one job there is nothing of another. -/
theorem Area.not_area_of_prefix (h : Area root job' q) (hj : Job.isId job) (hj' : Job.isId job')
    (hne : job' ≠ job) (hr : r <+: q) : ¬ Area root job r := fun ha =>
  hne ((h.of_prefix hr ha).job_eq hj' hj ha)

section Others

variable (hj : Job.isId job) (h : ∀ q, ¬ Area root job q → t'.node? q = t.node? q)

include hj h

theorem find_of_area (hj' : Job.isId job') (hne : job' ≠ job) (hplain : ∀ s ∈ q, Path.IsPlain s)
    (hq : Area root job' q) : t'.find q = t.find q :=
  find_congr hplain fun r hr => h r (hq.not_area_of_prefix hj hj' hne hr)

variable (hroot : ∀ s ∈ root, Path.IsPlain s)

include hroot

theorem get_of_area (hj' : Job.isId job') (hne : job' ≠ job) (hin : Job.InTree job' path) :
    Directory.get root path t' = Directory.get root path t := by
  obtain ⟨q, htarget, hq⟩ := target?_of_owns hj' hin.1 root
  refine get_congr fun q' hfile => ?_
  rw [← target?_eq_documentFile? hin, htarget, Option.some.injEq] at hfile
  rw [← hfile]
  exact find_of_area hj h hj' hne (hq.plain hroot) hq.area

theorem get_overview_of_area :
    Directory.get root Job.overviewPath t' = Directory.get root Job.overviewPath t := by
  refine get_congr fun q hfile => ?_
  rw [documentFile?_overviewPath, Option.some.injEq] at hfile
  rw [← hfile]
  refine find_congr (plain_combinedFile hroot) fun r hr => h r fun ha => ?_
  by_cases hrq : r = combinedFile root
  · exact not_area_combinedFile hj (hrq ▸ ha)
  · exact Above.not_area (.inl ((List.prefix_concat_iff.mp hr).resolve_left hrq)) ha

theorem holds_of_area (hj' : Job.isId job') (hne : job' ≠ job) :
    Directory.holds root job' t' = Directory.holds root job' t :=
  holds_congr hroot hj' fun _ hplain ha => find_of_area hj h hj' hne hplain ha

end Others

end ArchiveKeeper.Store.Directory
