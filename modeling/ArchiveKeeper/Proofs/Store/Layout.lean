import ArchiveKeeper.Proofs.Files.Path
import ArchiveKeeper.Proofs.Job.Path
import ArchiveKeeper.Proofs.Text.Bytes
import ArchiveKeeper.Store.Directory

namespace ArchiveKeeper.Store.Directory

open Files Files.Path

variable {root q : Path} {job job' path path' name : String}

theorem append_ending_ne {s : String} (h : s.length < 5) : name ++ ending ≠ s := by
  rintro rfl
  rw [String.length_append] at h
  exact absurd (Nat.le_add_left 5 name.length) (Nat.not_le.mpr h)

theorem plain_append_ending (name : String) : IsPlain (name ++ ending) :=
  ⟨append_ending_ne (by decide), append_ending_ne (by decide)⟩

theorem isProper_append_ending (h : '/' ∉ name.toList) : IsProper (name ++ ending) := by
  refine ⟨plain_append_ending name, append_ending_ne (by decide), ?_⟩
  rw [String.toList_append, List.mem_append, not_or]
  exact ⟨h, by decide⟩

theorem isProper_of_isProperSegment {cs : List Char} (h : Job.isProperSegment cs) (hc : '/' ∉ cs) :
    IsProper (String.ofList cs) := by
  simp only [Job.isProperSegment, Bool.and_eq_true, decide_eq_true_eq, ne_eq] at h
  have hne {s : String} (hs : cs ≠ s.toList) : String.ofList cs ≠ s := fun he =>
    hs (he ▸ String.toList_ofList.symm)
  exact ⟨⟨hne h.1.2, hne h.2⟩, hne h.1.1, by rwa [String.toList_ofList]⟩

theorem isHexDigit_of_mem (hj : Job.isId job) {c : Char} (hc : c ∈ job.toList) :
    Job.isHexDigit c := by
  simp only [Job.isId, Bool.and_eq_true, List.all_eq_true] at hj
  exact hj.2 c hc

theorem slash_not_mem (hj : Job.isId job) : '/' ∉ job.toList := fun hc =>
  absurd (isHexDigit_of_mem hj hc) (by decide)

theorem isProper_id (hj : Job.isId job) : IsProper job := by
  have hlen := Job.length_of_isId hj
  refine ⟨⟨?_, ?_⟩, ?_, slash_not_mem hj⟩ <;> rintro rfl <;> exact absurd hlen (by decide)

theorem isProper_file (hj : Job.isId job) : IsProper (job ++ ending) :=
  isProper_append_ending (slash_not_mem hj)

/-- The names of a job are short enough for the entries of a directory. -/
theorem byteCount_id_le (hj : Job.isId job) : Text.byteCount job ≤ Tree.longestName ∧
    Text.byteCount (job ++ ending) ≤ Tree.longestName := by
  have hid : Text.byteCount job ≤ 4 * 32 := by
    have hle := Text.byteCount_ofList_le job.toList
    rwa [String.ofList_toList, Job.length_of_isId hj] at hle
  have hending : ending.utf8ByteSize = 5 := by decide
  have hlongest : Tree.longestName = 255 := rfl
  rw [Text.byteCount] at hid
  rw [Text.byteCount, Text.byteCount, String.utf8ByteSize_append]
  omega

theorem append_ending_inj {s s' : String} (h : s ++ ending = s' ++ ending) : s = s' := by
  have hl := congrArg String.toList h
  rw [String.toList_append, String.toList_append] at hl
  exact String.toList_injective (List.append_cancel_right hl)

theorem lt_of_append_ending_lt (hj : Job.isId job) (hj' : Job.isId job')
    (h : job ++ ending < job' ++ ending) : job < job' := by
  have hlen : job.toList.length = job'.toList.length := by
    rw [Job.length_of_isId hj, Job.length_of_isId hj']
  change (job ++ ending).toList < (job' ++ ending).toList at h
  rw [String.toList_append, String.toList_append] at h
  show job.toList < job'.toList
  generalize job.toList = cs at hlen h ⊢
  generalize job'.toList = cs' at hlen h ⊢
  induction cs generalizing cs' with
  | nil =>
    rw [List.length_eq_zero_iff.mp hlen.symm] at h
    exact absurd h (List.lt_irrefl _)
  | cons c cs ih =>
    cases cs' with
    | nil => cases hlen
    | cons c' cs' =>
      rw [List.cons_append, List.cons_append, List.cons_lt_cons_iff] at h
      rw [List.cons_lt_cons_iff]
      exact h.imp_right fun ⟨he, h⟩ => ⟨he, ih cs' (Nat.succ.inj hlen) h⟩

theorem append_ending_ne_id (hj : Job.isId job) (hj' : Job.isId job') : job ++ ending ≠ job' := by
  intro he
  have hl := congrArg (List.length ∘ String.toList) he
  simp only [Function.comp_apply, String.toList_append, List.length_append,
    Job.length_of_isId hj, Job.length_of_isId hj'] at hl
  exact absurd hl (by decide)

theorem within_of_proper {directory : Path} (h : IsProper name) :
    within directory name = directory ++ [name] := by
  rw [within, segments_of_proper h, foldl_go (by simpa using h.plain)]

theorem overviewFile_eq (hj : Job.isId job) :
    overviewFile root job = overviews root ++ [job ++ ending] :=
  within_of_proper (isProper_file hj)

theorem segments_of_inTree (hj : Job.isId job) (h : Job.InTree job path) : ∃ parts,
    path.toList = ("jobs" :: job :: parts).flatMap (fun s => '/' :: s.toList) ∧
      ∀ s ∈ job :: parts, IsProper s := by
  have hstart (rest : List Char) : "/jobs/".toList ++ job.toList ++ rest =
      ['/', 'j', 'o', 'b', 's'] ++ '/' :: job.toList ++ rest := rfl
  obtain ⟨rest, he, rfl | ⟨cs, rfl, hcs⟩⟩ := h.toList_eq
  · exact ⟨[], by rw [he, hstart]; simp, by simpa using isProper_id hj⟩
  · refine ⟨(Text.splitList '/' cs).map String.ofList, ?_, ?_⟩
    · have hrest := Text.flatMap_splitList '/' cs
      rw [he, hstart, List.flatMap_cons, List.flatMap_cons, List.flatMap_map]
      simp only [String.toList_ofList, hrest]
      simp
    · intro s hs
      rcases List.mem_cons.mp hs with rfl | hs
      · exact isProper_id hj
      · obtain ⟨part, hpart, rfl⟩ := List.mem_map.mp hs
        exact isProper_of_isProperSegment (List.all_eq_true.mp hcs part hpart)
          (Text.not_mem_of_mem_splitList hpart)

theorem documentFile?_of_proper {dirs : List String} (h : ∀ s ∈ dirs ++ [name], IsProper s)
    (hpath : path.toList = (dirs ++ [name]).flatMap fun s => '/' :: s.toList) :
    documentFile? root path = some (root ++ dirs ++ [name ++ ending]) := by
  have hsegs : ∀ s ∈ dirs ++ [name ++ ending], IsProper s := by
    intro s hs
    rcases List.mem_append.mp hs with hs | hs
    · exact h s (List.mem_append_left _ hs)
    · rw [List.mem_singleton.mp hs]
      exact isProper_append_ending (h name (by simp)).whole
  -- the path starts with one slash
  obtain ⟨c, cs, hcs, hc⟩ : ∃ c cs, path.toList = '/' :: c :: cs ∧ c ≠ '/' := by
    obtain ⟨s, ss, hss⟩ := List.exists_cons_of_ne_nil (List.append_ne_nil_of_right_ne_nil dirs
      (List.cons_ne_nil name []))
    have hs : IsProper s := h s (hss ▸ List.mem_cons_self ..)
    obtain ⟨c, cs, hscs⟩ := List.exists_cons_of_ne_nil fun hnil : s.toList = [] =>
      hs.nonempty (String.toList_injective hnil)
    refine ⟨c, cs ++ ss.flatMap fun s => '/' :: s.toList, ?_, fun he => hs.whole ?_⟩
    · rw [hpath, hss, List.flatMap_cons, hscs]
      rfl
    · rw [hscs, he]
      exact List.mem_cons_self ..
  have hdrop : path.toList.dropWhile (· == '/') = c :: cs := by
    rw [hcs, List.dropWhile_cons_of_pos (by simp), List.dropWhile_cons_of_neg (by simpa using hc)]
  have habs : isAbsolute (String.ofList (c :: cs) ++ ending) = false := by
    rw [isAbsolute, String.toList_append, String.toList_ofList]
    simpa using hc
  have hseg : segments (String.ofList (c :: cs) ++ ending) = dirs ++ [name ++ ending] := by
    refine segments_eq hsegs ?_
    rw [String.toList_append, String.toList_ofList, ← List.cons_append, ← hcs, hpath]
    simp
  have hfile : resolve root (String.ofList (c :: cs) ++ ending) =
      root ++ dirs ++ [name ++ ending] := by
    rw [resolve, habs, hseg, if_neg (by simp), foldl_go (fun s hs => (hsegs s hs).plain),
      List.append_assoc]
  have hbelow : root.isBelow (root ++ dirs ++ [name ++ ending]) = true := by
    rw [isBelow, List.isPrefixOf_iff_prefix, List.append_assoc]
    exact List.prefix_append _ _
  rw [documentFile?, hdrop, hfile, if_pos hbelow]

theorem documentFile?_eq {dirs : List String} (h : ∀ s ∈ dirs ++ [name], IsProper s)
    (hpath : path.toList = ("jobs" :: dirs ++ [name]).flatMap fun s => '/' :: s.toList) :
    documentFile? root path = some (jobs root ++ dirs ++ [name ++ ending]) := by
  have hsegs : ∀ s ∈ "jobs" :: dirs ++ [name], IsProper s :=
    List.forall_mem_cons.mpr ⟨⟨⟨by decide, by decide⟩, by decide, by decide⟩, h⟩
  rw [documentFile?_of_proper hsegs hpath]
  simp [jobs]

/-- Where there is something of a job: its overview, its own document, and what is below it. -/
inductive Area (root : Path) (job : String) : Path → Prop
  | overview : Area root job (overviews root ++ [job ++ ending])
  | document : Area root job (jobs root ++ [job ++ ending])
  | below (q : Path) : Area root job (jobs root ++ job :: q)

theorem area_iff : Area root job q ↔ q = overviews root ++ [job ++ ending] ∨
    q = jobs root ++ [job ++ ending] ∨ ∃ r, q = jobs root ++ job :: r := by
  constructor
  · rintro (_ | _ | ⟨r⟩)
    · exact .inl rfl
    · exact .inr (.inl rfl)
    · exact .inr (.inr ⟨r, rfl⟩)
  · rintro (rfl | rfl | ⟨r, rfl⟩)
    · exact .overview
    · exact .document
    · exact .below r

theorem area_iff_below : Area root job q ↔ q = overviews root ++ [job ++ ending] ∨
    q = jobs root ++ [job ++ ending] ∨ jobs root ++ [job] <+: q := by
  have hbelow : (∃ r, q = jobs root ++ job :: r) ↔ jobs root ++ [job] <+: q :=
    exists_congr fun r => by rw [List.append_assoc, List.singleton_append, eq_comm]
  rw [area_iff, hbelow]

theorem jobs_append_ne {r r' : Path} : jobs root ++ r ≠ overviews root ++ r' := by
  intro h
  rw [jobs, overviews, List.append_assoc, List.append_assoc, List.append_cancel_left_eq] at h
  exact absurd (List.cons.inj h).1 (by decide)

/-- What is above a path below the jobs is above the jobs, too, or is below them. -/
theorem prefix_jobs_append {p r : Path} (h : r <+: jobs root ++ p) :
    r <+: jobs root ∨ ∃ s r', r = jobs root ++ s :: r' ∧ s :: r' <+: p := by
  rcases List.prefix_or_prefix_of_prefix h (List.prefix_append (jobs root) p) with
    hle | ⟨r', rfl⟩
  · exact .inl hle
  rw [List.prefix_append_right_inj] at h
  cases r' with
  | nil => exact .inl (List.append_nil _ ▸ List.prefix_refl _)
  | cons s r' => exact .inr ⟨s, r', rfl, h⟩

/-- The areas of two jobs have nothing in common. -/
theorem Area.job_eq (hj : Job.isId job) (hj' : Job.isId job') (h : Area root job q)
    (h' : Area root job' q) : job = job' := by
  have hname {a b : String} {p : Path} (h : p ++ [a ++ ending] = p ++ [b ++ ending]) : a = b :=
    append_ending_inj (List.cons.inj (List.append_cancel_left h)).1
  rw [area_iff] at h h'
  rcases h with rfl | rfl | ⟨r, rfl⟩ <;> rcases h' with h' | h' | ⟨r', h'⟩
  · exact hname h'
  · exact absurd h'.symm jobs_append_ne
  · exact absurd h'.symm jobs_append_ne
  · exact absurd h' jobs_append_ne
  · exact hname h'
  · exact absurd (List.cons.inj (List.append_cancel_left h')).1 (append_ending_ne_id hj hj')
  · exact absurd h' jobs_append_ne
  · exact absurd (List.cons.inj (List.append_cancel_left h')).1.symm (append_ending_ne_id hj' hj)
  · exact (List.cons.inj (List.append_cancel_left h')).1

def target? (root : Path) (job path : String) : Option Path :=
  if path = Job.overviewPath then some (overviewFile root job) else documentFile? root path

/-- A file of a job, and the directories that it stands in. -/
structure Place (root : Path) (job : String) (q : Path) : Prop where
  area : Area root job q
  plain : (∀ s ∈ root, IsPlain s) → ∀ s ∈ q, IsPlain s
  above : ∀ r, r <+: q.dropLast → r <+: jobs root ∨ r <+: overviews root ∨
    ∃ r', r = jobs root ++ job :: r'

theorem plain_concat {p : Path} {s : String} (hp : ∀ s ∈ p, IsPlain s) (hs : IsPlain s) :
    ∀ s' ∈ p ++ [s], IsPlain s' :=
  List.forall_mem_append.mpr ⟨hp, List.forall_mem_singleton.mpr hs⟩

theorem plain_jobs (hr : ∀ s ∈ root, IsPlain s) : ∀ s ∈ jobs root, IsPlain s :=
  plain_concat hr ⟨by decide, by decide⟩

theorem plain_overviews (hr : ∀ s ∈ root, IsPlain s) : ∀ s ∈ overviews root, IsPlain s :=
  plain_concat hr ⟨by decide, by decide⟩

theorem place_overview (hj : Job.isId job) : Place root job (overviews root ++ [job ++ ending]) where
  area := .overview
  plain hr := plain_concat (plain_overviews hr) (isProper_file hj).plain
  above r hq := by
    rw [List.dropLast_concat] at hq
    exact .inr (.inl hq)

theorem target?_of_inTree (hj : Job.isId job) (h : Job.InTree job path) (root : Path) :
    ∃ dirs name parts, target? root job path = some (jobs root ++ dirs ++ [name ++ ending]) ∧
      path.toList = ("jobs" :: dirs ++ [name]).flatMap (fun s => '/' :: s.toList) ∧
      (∀ s ∈ dirs ++ [name], IsProper s) ∧ job :: parts = dirs ++ [name] := by
  obtain ⟨parts, hpath, hparts⟩ := segments_of_inTree hj h
  obtain ⟨dirs, name, hdn⟩ : ∃ dirs name, job :: parts = dirs ++ [name] :=
    ⟨_, _, (List.dropLast_concat_getLast (List.cons_ne_nil job parts)).symm⟩
  rw [hdn] at hpath hparts
  exact ⟨dirs, name, parts, by rw [target?, if_neg h.2, documentFile?_eq hparts hpath], hpath,
    hparts, hdn⟩

theorem target?_overview (hj : Job.isId job) (root : Path) :
    target? root job Job.overviewPath = some (overviews root ++ [job ++ ending]) := by
  rw [target?, if_pos rfl, overviewFile_eq hj]

theorem target?_of_owns (hj : Job.isId job) (ho : Job.owns job path) (root : Path) :
    ∃ q, target? root job path = some q ∧ Place root job q := by
  rcases Job.owns_iff.mp ho with rfl | ht
  · exact ⟨_, target?_overview hj root, place_overview hj⟩
  obtain ⟨dirs, name, parts, htarget, -, hparts, hdn⟩ := target?_of_inTree hj ht root
  -- the file stands below the job, unless it is the document of the job itself
  refine ⟨_, htarget, ?_, fun hr => ?_, fun r hr => ?_⟩
  · cases dirs with
    | nil =>
      rw [← (List.cons.inj hdn).1, List.append_nil]
      exact .document
    | cons d dirs =>
      rw [← (List.cons.inj hdn).1, List.append_assoc, List.cons_append]
      exact .below _
  · refine plain_concat (fun s hs => ?_) (isProper_append_ending (hparts name (by simp)).whole).plain
    rcases List.mem_append.mp hs with hs | hs
    · exact plain_jobs hr s hs
    · exact (hparts s (List.mem_append_left _ hs)).plain
  · rw [List.dropLast_concat] at hr
    rcases prefix_jobs_append hr with hr | ⟨s, r', rfl, hle⟩
    · exact .inl hr
    cases dirs with
    | nil => simp at hle
    | cons d dirs =>
      rw [(List.cons_prefix_cons.mp hle).1, ← (List.cons.inj hdn).1]
      exact .inr (.inr ⟨r', rfl⟩)

theorem place_of_target (hj : Job.isId job) (ho : Job.owns job path)
    (h : target? root job path = some q) : Place root job q := by
  obtain ⟨q', htarget, hplace⟩ := target?_of_owns hj ho root
  exact Option.some.inj (htarget.symm.trans h) ▸ hplace

theorem target?_inj (hj : Job.isId job) (ho : Job.owns job path) (ho' : Job.owns job path')
    (h : target? root job path = target? root job path') : path = path' := by
  rcases Job.owns_iff.mp ho with rfl | ht
  · rcases Job.owns_iff.mp ho' with rfl | ht'
    · rfl
    · obtain ⟨dirs, name, -, htarget, -⟩ := target?_of_inTree hj ht' root
      rw [target?_overview hj, htarget, List.append_assoc] at h
      exact absurd (Option.some.inj h).symm jobs_append_ne
  · obtain ⟨dirs, name, -, htarget, hpath, -⟩ := target?_of_inTree hj ht root
    rcases Job.owns_iff.mp ho' with rfl | ht'
    · rw [target?_overview hj, htarget, List.append_assoc] at h
      exact absurd (Option.some.inj h) jobs_append_ne
    · obtain ⟨dirs', name', -, htarget', hpath', -⟩ := target?_of_inTree hj ht' root
      rw [htarget, htarget', Option.some.injEq, List.append_assoc, List.append_assoc,
        List.append_cancel_left_eq] at h
      obtain ⟨rfl, hname⟩ := List.append_inj' h rfl
      rw [append_ending_inj (List.cons.inj hname).1] at hpath
      exact String.toList_injective (hpath.trans hpath'.symm)

theorem target?_eq_documentFile? (h : Job.InTree job path) :
    target? root job path = documentFile? root path := if_neg h.2

theorem not_area_combinedFile (hj : Job.isId job) : ¬ Area root job (combinedFile root) := by
  have hlen := Job.length_of_isId hj
  rw [area_iff, combinedFile]
  rintro (h | h | ⟨r, h⟩)
  · exact jobs_append_ne h
  · rw [← append_ending_inj (List.cons.inj (List.append_cancel_left h)).1] at hlen
    exact absurd hlen (by decide)
  · rw [← (List.cons.inj (List.append_cancel_left h)).1] at hlen
    exact absurd hlen (by decide)

end ArchiveKeeper.Store.Directory
