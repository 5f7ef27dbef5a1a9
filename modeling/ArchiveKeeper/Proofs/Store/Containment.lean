import ArchiveKeeper.Proofs.Store.JobIndependence
import ArchiveKeeper.Proofs.Store.Keys

namespace ArchiveKeeper

namespace Files.Path

variable {p q root : Path} {s text : String}

/-- The segments that lead from one path to another: up from where the two part, and then down. -/
def way : Path → Path → List String
  | a :: p, b :: q => if a = b then way p q else List.replicate (p.length + 1) ".." ++ b :: q
  | p, q => List.replicate p.length ".." ++ q

def relative (p q : Path) : String := "/".intercalate (way p q)

/-- A relative text starts by going up. -/
def LeadsOut (s : String) : Prop := s = ".." ∨ "../".toList <+: s.toList

theorem way_of_below (h : p <+: q) : way p q = q.drop p.length := by
  obtain ⟨rest, rfl⟩ := h
  rw [List.drop_left]
  induction p with
  | nil => cases rest <;> rfl
  | cons a p ih => rw [List.cons_append, way, if_pos rfl, ih]

theorem way_of_not_below (h : ¬ p <+: q) : ∃ rest, way p q = ".." :: rest := by
  induction p generalizing q with
  | nil => exact absurd List.nil_prefix h
  | cons a p ih =>
    cases q with
    | nil => exact ⟨_, rfl⟩
    | cons b q =>
      rw [way]
      split
      · rename_i he
        rw [he, List.prefix_cons_inj] at h
        exact ih h
      · exact ⟨_, rfl⟩

theorem leadsOut_intercalate_up (rest : List String) :
    LeadsOut ("/".intercalate (".." :: rest)) := by
  cases rest with
  | nil => exact .inl rfl
  | cons s rest =>
    refine .inr ⟨("/".intercalate (s :: rest)).toList, ?_⟩
    rw [String.intercalate_cons_cons, String.toList_append, String.toList_append]
    rfl

theorem LeadsOut.head? (h : LeadsOut s) :
    (Text.splitList '/' s.toList).head? = some "..".toList := by
  obtain rfl | ⟨rest, he⟩ := h
  · rfl
  · have hcut : "../".toList ++ rest = "..".toList ++ '/' :: rest := rfl
    rw [← he, hcut, Text.splitList_append_cons]
    rfl

theorem head?_splitList_intercalate (h : '/' ∉ s.toList) (ss : List String) :
    (Text.splitList '/' ("/".intercalate (s :: ss)).toList).head? = some s.toList := by
  cases ss with
  | nil =>
    rw [String.intercalate_singleton, Text.splitList_of_not_mem h]
    rfl
  | cons s' ss =>
    have hcut (rest : String) : (s ++ "/" ++ rest).toList = s.toList ++ '/' :: rest.toList := by
      simp [String.toList_append]
    rw [String.intercalate_cons_cons, hcut, Text.splitList_append_cons,
      Text.splitList_of_not_mem h]
    rfl

theorem not_leadsOut_intercalate {ss : List String} (h : ∀ s ∈ ss, IsProper s) :
    ¬ LeadsOut ("/".intercalate ss) := by
  intro hout
  have hhead := hout.head?
  cases ss with
  | nil => cases hhead
  | cons s ss =>
    have hs := h s (List.mem_cons_self ..)
    rw [head?_splitList_intercalate hs.whole, Option.some.injEq] at hhead
    exact hs.plain.2 (String.toList_injective hhead)

/-- The way to a path starts by going up if and only if the path is not below. -/
theorem leadsOut_relative_iff (hq : ∀ s ∈ q, IsProper s) :
    LeadsOut (relative p q) ↔ ¬ p <+: q := by
  unfold relative
  by_cases h : p <+: q
  · rw [way_of_below h]
    have hproper : ∀ s ∈ q.drop p.length, IsProper s := fun s hs => hq s (List.mem_of_mem_drop hs)
    simpa [h] using not_leadsOut_intercalate hproper
  · obtain ⟨rest, hway⟩ := way_of_not_below h
    rw [hway]
    simpa [h] using leadsOut_intercalate_up rest

theorem whole_of_mem_segments (h : s ∈ segments text) : s ≠ "" ∧ '/' ∉ s.toList := by
  obtain ⟨hs, hne⟩ := List.mem_filter.mp h
  obtain ⟨part, hpart, rfl⟩ := List.mem_map.mp hs
  rw [String.toList_ofList]
  exact ⟨of_decide_eq_true hne, Text.not_mem_of_mem_splitList hpart⟩

theorem proper_resolve (h : ∀ s ∈ p, IsProper s) (text : String) :
    ∀ s ∈ resolve p text, IsProper s := by
  refine forall_mem_resolve h fun s hs hplain => ?_
  obtain ⟨hne, hwhole⟩ := whole_of_mem_segments hs
  exact ⟨hplain, hne, hwhole⟩

end Files.Path

namespace Store.Directory

open Files Files.Path Files.Tree

variable {root file q : Path} {job path json : String} {t t' : Tree}

/-- What a path names, seen from the root: without slashes at its front, and with the ending. -/
def named (root : Path) (path : String) : Path :=
  resolve root (String.ofList (path.toList.dropWhile (· == '/')) ++ ending)

theorem documentFile?_eq_some_iff :
    documentFile? root path = some file ↔ named root path = file ∧ root <+: file := by
  have hbelow : root.isBelow (named root path) = true ↔ root <+: named root path :=
    List.isPrefixOf_iff_prefix
  change (if root.isBelow (named root path) = true then some (named root path) else none) =
    some file ↔ _
  rw [Option.ite_none_right_eq_some, hbelow, Option.some.injEq]
  constructor
  · rintro ⟨hle, rfl⟩
    exact ⟨rfl, hle⟩
  · rintro ⟨rfl, hle⟩
    exact ⟨hle, rfl⟩

theorem documentFile?_eq_none_iff : documentFile? root path = none ↔ ¬ root <+: named root path := by
  rw [Option.eq_none_iff_forall_ne_some]
  simp only [ne_eq, documentFile?_eq_some_iff, not_and, forall_eq']

/-- What is on the way to a path below the root is below the root or above it. -/
theorem comparable_on_way (hfile : root <+: file) (hq : q <+: file) : root <+: q ∨ q <+: root :=
  List.prefix_or_prefix_of_prefix hfile hq

/-- A file that is put below the root is all that comes to be, but for directories on its way. -/
theorem node?_replaceFile_of_outside (hne : file ≠ []) (hplain : ∀ s ∈ file, IsPlain s)
    (hfile : root <+: file) (hq : ¬ root <+: q) :
    (replaceFile t file json).2.node? q = t.node? q ∨
      t.node? q = none ∧ (replaceFile t file json).2.node? q = some .directory ∧ q <+: root := by
  have hother : q ≠ file := by
    rintro rfl
    exact hq hfile
  refine (node?_replaceFile_of_ne hne hplain hother).imp_right fun ⟨hnone, hdirectory, hle⟩ => ?_
  have hcomparable := comparable_on_way hfile (hle.trans (List.dropLast_prefix file))
  exact ⟨hnone, hdirectory, hcomparable.resolve_left hq⟩

/-- Where the texts of a job are put is below the root, unless the job goes out itself. -/
theorem target?_below (hroot : ∀ s ∈ root, IsPlain s)
    (hjob : path = Job.overviewPath → '/' ∉ job.toList) (h : target? root job path = some file) :
    root <+: file ∧ file ≠ [] ∧ ∀ s ∈ file, IsPlain s := by
  unfold target? at h
  split at h
  · rename_i hoverview
    have hname := isProper_append_ending (hjob hoverview)
    obtain rfl := Option.some.inj h
    rw [overviewFile, within_of_proper hname]
    refine ⟨?_, by simp, plain_concat (plain_overviews hroot) hname.plain⟩
    rw [overviews, List.append_assoc]
    exact List.prefix_append _ _
  · obtain ⟨above, name, rfl⟩ := ends_documentFile? h
    exact ⟨(documentFile?_eq_some_iff.mp h).2, by simp, plain_documentFile? hroot h⟩

theorem put_cases (root : Path) (job path json : String) :
    (∃ e, ∀ t, put root job path json t = (.error e, t)) ∨
      ∃ file, target? root job path = some file ∧ ∀ t, put root job path json t =
        (lift (replaceFile t file json).1, (replaceFile t file json).2) := by
  by_cases ho : Job.owns job path
  · cases htarget : target? root job path with
    | none =>
      unfold target? at htarget
      refine .inl ⟨.plain ("Document path " ++ path ++ " of job " ++ job ++
        " escapes the storage directory"), fun t => ?_⟩
      simp only [put, if_pos ho, htarget]
    | some file =>
      unfold target? at htarget
      refine .inr ⟨file, rfl, fun t => ?_⟩
      simp only [put, if_pos ho, htarget]
  · refine .inl ⟨outsideTree job path, fun t => ?_⟩
    rw [put, if_neg ho]

theorem Within.above (h : Within root q) : root <+: q.dropLast := by
  have hjobs : root <+: jobs root := List.prefix_append root ["jobs"]
  have hoverviews : root <+: overviews root := List.prefix_append root ["overviews"]
  apply prefix_dropLast
  · exact h.elim hjobs.trans hoverviews.trans
  · rintro rfl
    rcases h with h | h
    · exact absurd h.length_le (by simp [jobs])
    · exact absurd h.length_le (by simp [overviews])

/-- A path leads to no file outside the root, whatever is asked for or put. -/
structure Confined (root : Path) (path : String) : Prop where
  file : ∀ file, documentFile? root path = some file →
    file = named root path ∧ root <+: file ∧ ∀ s ∈ file, IsProper s
  refused : documentFile? root path = none ↔ ¬ root <+: named root path
  /-- The text of the way from the root tells as much. -/
  told : documentFile? root path = none ↔ LeadsOut (relative root (named root path))
  /-- What is outside the root, but for what is above it, plays no part in what is found. -/
  found : ∀ t t' : Tree, (∀ q, root <+: q ∨ q <+: root → t'.node? q = t.node? q) →
    Directory.get root path t' = Directory.get root path t
  /-- Nor does it in what comes of a text that is put. -/
  judged : ∀ job json (t t' : Tree), (path = Job.overviewPath → '/' ∉ job.toList) →
    (∀ q, root <+: q ∨ q <+: root → t'.node? q = t.node? q) →
    (put root job path json t').1 = (put root job path json t).1
  /-- Nothing outside the root is changed; if it is missing, directories come to be above it. -/
  spared : ∀ job json t q, (path = Job.overviewPath → '/' ∉ job.toList) → ¬ root <+: q →
    (put root job path json t).2.node? q = t.node? q ∨
      t.node? q = none ∧ (put root job path json t).2.node? q = some .directory ∧ q <+: root
  /-- A file is written in a directory below the root, and so is the temporary one beside it. -/
  written : ∀ job json t, Job.isId job → (put root job path json t).2 = t ∨
    ∃ file, root <+: file.dropLast ∧
      put root job path json t = (lift (replaceFile t file json).1, (replaceFile t file json).2)

theorem confined (hroot : ∀ s ∈ root, IsProper s) (path : String) : Confined root path := by
  have hplain : ∀ s ∈ root, IsPlain s := fun s hs => (hroot s hs).plain
  constructor
  case file =>
    intro file h
    obtain ⟨rfl, hle⟩ := documentFile?_eq_some_iff.mp h
    exact ⟨rfl, hle, proper_resolve hroot _⟩
  case refused => exact documentFile?_eq_none_iff
  case told =>
    rw [documentFile?_eq_none_iff, leadsOut_relative_iff]
    exact proper_resolve hroot _
  case found =>
    intro t t' hsame
    refine get_congr fun file h => find_congr (plain_documentFile? hplain h) fun q hq => ?_
    exact hsame q (comparable_on_way (documentFile?_eq_some_iff.mp h).2 hq)
  case judged =>
    intro job json t t' hjob hsame
    rcases put_cases root job path json with ⟨e, hput⟩ | ⟨file, htarget, hput⟩
    · rw [hput, hput]
    · obtain ⟨hle, hne, -⟩ := target?_below hplain hjob htarget
      have hway (q : Path) (hq : q <+: file) : t'.node? q = t.node? q :=
        hsame q (comparable_on_way hle hq)
      rw [hput, hput, (replaceFile_congr json hne hway).1]
  case spared =>
    intro job json t q hjob hq
    rcases put_cases root job path json with ⟨e, hput⟩ | ⟨file, htarget, hput⟩
    · exact .inl (by rw [hput])
    · obtain ⟨hle, hne, hfile⟩ := target?_below hplain hjob htarget
      rw [hput]
      exact node?_replaceFile_of_outside hne hfile hle hq
  case written =>
    intro job json t hj
    by_cases ho : Job.owns job path
    · obtain ⟨file, -, hplace, hput⟩ := put_of_owns root json t hj ho
      exact .inr ⟨file, hplace.area.within.above, hput⟩
    · left
      rw [put, if_neg ho]

/-- From `/srv/a.json` the path `/../a` leads to the root itself, `/..x` below it, and the last one
out of it. -/
theorem confined_srv : Confined ["srv", "a.json"] "/../a" ∧
    documentFile? ["srv", "a.json"] "/../a" = some ["srv", "a.json"] ∧
    documentFile? ["srv", "a.json"] "/..x" = some ["srv", "a.json", "..x.json"] ∧
    documentFile? ["srv", "a.json"] "//../../srv" = none := by
  refine ⟨confined (fun s hs => ?_) _, by decide +kernel, by decide +kernel, by decide +kernel⟩
  simp only [List.mem_cons, List.not_mem_nil, or_false] at hs
  rcases hs with rfl | rfl <;> exact ⟨⟨by decide, by decide⟩, by decide, by decide⟩

end Store.Directory

end ArchiveKeeper
