import ArchiveKeeper.Proofs.Store.Contract
import ArchiveKeeper.Proofs.Store.Ready

namespace ArchiveKeeper.Store.Directory

open Files Files.Tree

variable {root q : Path} {job job' path json : String} {t t' : Tree}

def text? (t : Tree) (q : Path) : Option String :=
  match t.node? q with
  | some (.file content _) => some content
  | _ => none

def shelf (root : Path) (job : String) (t : Tree) : Shelf := fun path =>
  if Job.owns job path then (target? root job path).bind (text? t) else none

def view (root : Path) : View Tree where
  sound := Sound
  ready := Ready root
  bare job t := ∀ q, Area root job q → t.node? q = none
  shelf := shelf root
  untouched t t' := ∀ q, Within root q ∨ Above root q → t'.node? q = t.node? q
  visible job := accept (Path.text (overviewFile root job)) = .ok ()

theorem text?_congr (h : t'.node? q = t.node? q) : text? t' q = text? t q := by
  rw [text?, text?, h]

theorem shelf_congr_text (hj : Job.isId job)
    (h : ∀ q, Area root job q → text? t' q = text? t q) :
    shelf root job t' = shelf root job t := by
  funext path
  unfold shelf
  split
  · rename_i ho
    obtain ⟨q, htarget, hq⟩ := target?_of_owns hj ho root
    rw [htarget, Option.bind_some, Option.bind_some, h q hq.area]
  · rfl

theorem shelf_congr (hj : Job.isId job)
    (h : ∀ q, Area root job q → t'.node? q = t.node? q) : shelf root job t' = shelf root job t :=
  shelf_congr_text hj fun q hq => text?_congr (h q hq)

/-- Where the areas of some jobs are as they were, these jobs are spared. -/
theorem spares_of_same {P : String → Prop} (h : Ready root t → Ready root t' ∧
    ∀ job, Job.isId job → P job → ∀ q, Area root job q → t'.node? q = t.node? q) :
    (view root).Spares P t t' := by
  intro hready
  obtain ⟨hready', hsame⟩ := h hready
  exact ⟨hready', fun job hj hP => ⟨shelf_congr hj (hsame job hj hP), fun hb q hq =>
    (hsame job hj hP q hq).trans (hb q hq)⟩⟩

/-- Where only the area of one job was changed, the others are spared. -/
theorem spares_of_area (hj : Job.isId job) (h : Ready root t → Ready root t' ∧
    ∀ q, ¬ Area root job q → t'.node? q = t.node? q) : (view root).Spares (· ≠ job) t t' := by
  refine spares_of_same fun hready => ⟨(h hready).1, fun job' hj' hne q hq => ?_⟩
  exact (h hready).2 q fun ha => hne (hq.job_eq hj' hj ha)

theorem replaceFile_spec {content : String} {r : Except SystemFault Unit} (hne : q ≠ [])
    (hp : ∀ s ∈ q, Path.IsPlain s) (h : replaceFile t q content = (r, t')) :
    ∃ t₁, Paved q.dropLast t t₁ ∧ ((∃ e, r = .error e) ∧ t' = t₁ ∨ r = .ok () ∧
      t' = t₁.insert q (.file content 0) ∧ Reaches t₁ q ∧ t₁.node? q ≠ some .directory) := by
  obtain ⟨p, s, rfl⟩ : ∃ p s, q = p ++ [s] := ⟨_, _, (List.dropLast_concat_getLast hne).symm⟩
  rw [List.dropLast_concat]
  unfold replaceFile at h
  rw [List.dropLast_concat] at h
  rcases hm : t.makeDirectories p with ⟨r₁, t₁⟩
  obtain ⟨hpaved, hok⟩ := makeDirectories_spec (fun s hs => hp s (List.mem_append_left _ hs)) hm
  rw [hm] at h
  cases r₁ with
  | error e =>
    cases h
    exact ⟨_, hpaved, .inl ⟨⟨e, rfl⟩, rfl⟩⟩
  | ok u =>
    obtain ⟨hreach, hdir⟩ := hok rfl
    rcases replace_spec h with ⟨he, ht⟩ | ⟨hr, ht, hd, hacc, hlen⟩
    · exact ⟨t₁, hpaved, .inl ⟨he, ht⟩⟩
    · have hplain : Path.IsPlain s := hp s (by simp)
      rw [List.getLast?_concat] at hlen
      exact ⟨t₁, hpaved, .inr ⟨hr, ht, reaches_concat hreach hdir hplain hlen hacc, hd⟩⟩

/-- Apart from a file that is replaced, at most directories on the way to it come to be. -/
theorem node?_replaceFile_of_ne {content : String} {p : Path} (hne : q ≠ [])
    (hq : ∀ s ∈ q, Path.IsPlain s) (hp : p ≠ q) :
    (replaceFile t q content).2.node? p = t.node? p ∨ t.node? p = none ∧
      (replaceFile t q content).2.node? p = some .directory ∧ p <+: q.dropLast := by
  obtain ⟨t₁, hpaved, hend⟩ := replaceFile_spec hne hq (Prod.eta (replaceFile t q content)).symm
  have hnode : (replaceFile t q content).2.node? p = t₁.node? p := by
    rcases hend with ⟨-, ht⟩ | ⟨-, ht, -⟩
    · rw [ht]
    · rw [ht, node?_insert hne, if_neg hp]
  rw [hnode]
  exact (hpaved p).imp_right fun ⟨hnone, hdirectory, hle, _⟩ => ⟨hnone, hdirectory, hle⟩

/-- A file is put into its place, if at all, and nothing else changes but for new directories. -/
theorem place_replaceFile {content : String} {r : Except SystemFault Unit}
    (hroot : ∀ s ∈ root, Path.IsPlain s) (hj : Job.isId job) (hq : Place root job q)
    (hready : Ready root t) (h : replaceFile t q content = (r, t')) :
    Ready root t' ∧ (∀ p, ¬ Area root job p → t'.node? p = t.node? p) ∧
      (r = .ok () → ∀ p, text? t' p = if p = q then some content else text? t p) := by
  have hne : q ≠ [] := hq.area.ne_nil
  obtain ⟨t₁, hpaved, hend⟩ := replaceFile_spec hne (hq.plain hroot) h
  -- on the way to the file, only directories of the job itself can be new
  have habove : ∀ r, r <+: q.dropLast → Above root r ∨ ∃ r', r = jobs root ++ job :: r' :=
    fun r hr => (hq.above r hr).elim (.inl ∘ .inl) (Or.imp_left .inr)
  have hready₁ := hready.of_paved hj hpaved habove
  have hnodes (p : Path) : t₁.node? p = t.node? p ∨ t.node? p = none ∧
      t₁.node? p = some .directory ∧ Reaches t₁ p ∧ ∃ r, p = jobs root ++ job :: r :=
    hready.paved hpaved habove p
  have hsame₁ (p : Path) (hp : ¬ Area root job p) : t₁.node? p = t.node? p := by
    rcases hnodes p with he | ⟨-, -, -, r, rfl⟩
    · exact he
    · exact absurd (.below r) hp
  have htext₁ (p : Path) : text? t₁ p = text? t p := by
    rcases hnodes p with he | ⟨hn, hd, -⟩
    · exact text?_congr he
    · rw [text?, text?, hn, hd]
  rcases hend with ⟨⟨e, rfl⟩, rfl⟩ | ⟨rfl, rfl, hreach, hd⟩
  · exact ⟨hready₁, hsame₁, by simp⟩
  · refine ⟨hready₁.insert hreach hd, fun p hp => ?_, fun _ p => ?_⟩
    · have hpq : p ≠ q := by
        rintro rfl
        exact hp hq.area
      rw [node?_insert hne, if_neg hpq, hsame₁ p hp]
    · by_cases hpq : p = q
      · rw [text?, node?_insert hne, if_pos hpq, if_pos hpq]
      · rw [if_neg hpq, ← htext₁ p]
        exact text?_congr (by rw [node?_insert hne, if_neg hpq])

theorem put_of_target (json : String) (t : Tree) (ho : Job.owns job path)
    (h : target? root job path = some q) : Directory.put root job path json t =
      (lift (replaceFile t q json).1, (replaceFile t q json).2) := by
  rw [Directory.put, if_pos ho]
  have htarget : (if path = Job.overviewPath then some (overviewFile root job)
      else documentFile? root path) = some q := h
  rw [htarget]

theorem put_of_owns (root : Path) (json : String) (t : Tree) (hj : Job.isId job)
    (ho : Job.owns job path) :
    ∃ q, target? root job path = some q ∧ Place root job q ∧
      Directory.put root job path json t =
        (lift (replaceFile t q json).1, (replaceFile t q json).2) := by
  obtain ⟨q, htarget, hq⟩ := target?_of_owns hj ho root
  exact ⟨q, htarget, hq, put_of_target json t ho htarget⟩

theorem ready_put (hroot : ∀ s ∈ root, Path.IsPlain s) (hj : Job.isId job) (path json : String)
    (hready : Ready root t) : Ready root (Directory.put root job path json t).2 ∧
      ∀ q, ¬ Area root job q → (Directory.put root job path json t).2.node? q = t.node? q := by
  by_cases ho : Job.owns job path
  · obtain ⟨q, -, hq, hput⟩ := put_of_owns root json t hj ho
    obtain ⟨hready', hsame, -⟩ := place_replaceFile hroot hj hq hready (Prod.eta _).symm
    rw [hput]
    exact ⟨hready', hsame⟩
  · rw [Directory.put, if_neg ho]
    exact ⟨hready, fun _ _ => rfl⟩

theorem lift_eq_ok_iff {α : Type} {r : Except SystemFault α} {a : α} :
    lift r = .ok a ↔ r = .ok a := by
  cases r <;> simp [lift]

theorem attempt_tree (message : String) (step : Tree → Except SystemFault Unit × Tree) (t : Tree) :
    (Directory.attempt message step t).2 = (step t).2 := by
  unfold Directory.attempt
  split <;> rename_i h <;> rw [h]

theorem delete_tree (hj : Job.isId job) : (Directory.delete root job t).2 =
    (((t.remove (overviews root ++ [job ++ ending])).2.removeAll (jobs root ++ [job])).2.remove
      (jobs root ++ [job ++ ending])).2 := by
  simp only [Directory.delete, deleteOverview, attempt_tree, overviewFile_eq hj,
    within_of_proper (isProper_id hj), within_of_proper (isProper_file hj)]

theorem reaches_child {s : String} (hready : Ready root t)
    (hsame : ∀ r, Above root r → t'.node? r = t.node? r) (hn : t.node? (jobs root ++ [s]) ≠ none) :
    Reaches t' (jobs root ++ [s]) := by
  have hreach := hready.reaches _ (.inl (List.prefix_append _ _)) hn
  refine ⟨hreach.plain, hreach.short, hreach.accepted, fun r hr hne => ?_⟩
  have habove : Above root r := .inl ((List.prefix_concat_iff.mp hr).resolve_left hne)
  exact (hsame r habove).trans (hready.above habove)

theorem node?_remove_overview (hroot : ∀ s ∈ root, Path.IsPlain s) (hj : Job.isId job)
    (hready : Ready root t) (q : Path) : (t.remove (overviews root ++ [job ++ ending])).2.node? q =
      if q = overviews root ++ [job ++ ending] then none else t.node? q := by
  have hplain := plain_concat (plain_overviews hroot) (isProper_file hj).plain
  have hwithin : Within root (overviews root ++ [job ++ ending]) := .inr (List.prefix_append _ _)
  exact node?_remove (by simp) hplain (hready.overview _) (hready.reaches _ hwithin)

theorem node?_delete (hroot : ∀ s ∈ root, Path.IsPlain s) (hj : Job.isId job)
    (hready : Ready root t) (q : Path) [Decidable (Area root job q)] :
    (Directory.delete root job t).2.node? q =
      if Area root job q then none else t.node? q := by
  have hjobs {s : String} : jobs root ++ [s] ≠ [] := by simp
  have hfile := (isProper_file hj).plain
  rw [delete_tree hj]
  -- three removals, each of which leaves the way to what the next one removes
  set t₁ := (t.remove (overviews root ++ [job ++ ending])).2
  have h₁ (p : Path) : t₁.node? p =
      if p = overviews root ++ [job ++ ending] then none else t.node? p :=
    node?_remove_overview hroot hj hready p
  have habove₁ (p : Path) (hp : Above root p) : t₁.node? p = t.node? p := by
    rw [h₁, if_neg]
    rintro rfl
    exact hp.not_area .overview
  have hjobs₁ (r : Path) : t₁.node? (jobs root ++ r) = t.node? (jobs root ++ r) := by
    rw [h₁, if_neg jobs_append_ne]
  set t₂ := (t₁.removeAll (jobs root ++ [job])).2
  have h₂ (p : Path) : t₂.node? p = if jobs root ++ [job] <+: p then none else t₁.node? p := by
    refine node?_removeAll hjobs (plain_concat (plain_jobs hroot) (isProper_id hj).plain)
      (fun hn => reaches_child hready habove₁ (hjobs₁ _ ▸ hn)) fun hn p hp => ?_
    obtain ⟨r, rfl⟩ : jobs root <+: p := (List.prefix_append _ _).trans hp
    rw [hjobs₁] at hn ⊢
    exact hready.none_below (.inl (List.prefix_append _ _)) hp (List.prefix_refl _) hn
  have habove₂ (p : Path) (hp : Above root p) : t₂.node? p = t.node? p := by
    rw [h₂, if_neg, habove₁ p hp]
    intro hpre
    exact hp.not_area (area_iff_below.mpr (.inr (.inr hpre)))
  have hd₂ : t₂.node? (jobs root ++ [job ++ ending]) = t.node? (jobs root ++ [job ++ ending]) := by
    rw [h₂, if_neg, hjobs₁]
    rw [List.prefix_append_right_inj, List.cons_prefix_cons]
    exact fun h => append_ending_ne_id hj hj h.1.symm
  rw [node?_remove hjobs (plain_concat (plain_jobs hroot) hfile) (hd₂ ▸ hready.document job hj)
    fun hn => reaches_child hready habove₂ (hd₂ ▸ hn), h₂, h₁]
  simp only [area_iff_below]
  grind

theorem ready_delete (hroot : ∀ s ∈ root, Path.IsPlain s) (hj : Job.isId job)
    (hready : Ready root t) : Ready root (Directory.delete root job t).2 ∧
      (∀ q, ¬ Area root job q → (Directory.delete root job t).2.node? q = t.node? q) ∧
      ∀ q, Area root job q → (Directory.delete root job t).2.node? q = none := by
  classical
  have hgone (q : Path) (hq : Area root job q) :
      (Directory.delete root job t).2.node? q = none := by
    rw [node?_delete hroot hj hready, if_pos hq]
  have hsame (q : Path) (hq : ¬ Area root job q) :
      (Directory.delete root job t).2.node? q = t.node? q := by
    rw [node?_delete hroot hj hready, if_neg hq]
  exact ⟨hready.thin (hready.thinned hj hgone hsame), hsame, hgone⟩

theorem inTurn_cons {step : Tree → Except SystemFault Unit × Tree}
    {steps : List (Tree → Except SystemFault Unit × Tree)}
    (h : inTurn t (step :: steps) = (.ok (), t')) :
    ∃ t₁, step t = (.ok (), t₁) ∧ inTurn t₁ steps = (.ok (), t') := by
  rw [inTurn] at h
  split at h
  · cases h
  · exact ⟨_, by assumption, h⟩

theorem ready_made {t₁ : Tree} (hroot : ∀ s ∈ root, Path.IsPlain s)
    (hempty : ∀ q, Within root q → t.node? q = none)
    (hjobs : t.makeDirectories (jobs root) = (.ok (), t₁))
    (hoverviews : t₁.makeDirectories (overviews root) = (.ok (), t')) :
    Ready root t' ∧
      ∀ q, Within root q → q ≠ jobs root → q ≠ overviews root → t'.node? q = none := by
  obtain ⟨hp₁, hok₁⟩ := makeDirectories_spec (plain_jobs hroot) hjobs
  obtain ⟨hp', hok'⟩ := makeDirectories_spec (plain_overviews hroot) hoverviews
  obtain ⟨hreach₁, hdir₁⟩ := hok₁ rfl
  obtain ⟨hreach', hdir'⟩ := hok' rfl
  have hnone (q : Path) (hq : Within root q) (hqj : q ≠ jobs root) (hqo : q ≠ overviews root) :
      t'.node? q = none := by
    have habove := hq.not_above hqj hqo
    rcases hp' q with he | ⟨-, -, hpre, -⟩
    · rcases hp₁ q with he' | ⟨-, -, hpre, -⟩
      · rw [he, he', hempty q hq]
      · exact absurd (.inl hpre) habove
    · exact absurd (.inr hpre) habove
  -- of what is within, there are just the two directories
  have hthere (q : Path) (hq : Within root q) (hn : t'.node? q ≠ none) :
      Reaches t' q ∧ t'.node? q = some .directory := by
    by_cases hqj : q = jobs root
    · rw [hqj]
      exact ⟨hp'.reaches hreach₁, hp'.directory hdir₁⟩
    by_cases hqo : q = overviews root
    · rw [hqo]
      exact ⟨hreach', hdir'⟩
    · exact absurd (hnone q hq hqj hqo) hn
  have hjobs' := hthere (jobs root) (.inl (List.prefix_refl _)) (by simp [hp'.directory hdir₁])
  refine ⟨⟨hjobs'.1, hjobs'.2, hreach', hdir', fun q hq hn => (hthere q hq hn).1,
    fun q hq table hn => ?_, fun name hn => ?_, fun job _ hn => ?_⟩, hnone⟩
  · rw [(hthere q hq (by simp [hn])).2] at hn
    cases hn
  · rw [hnone _ (.inr (List.prefix_append _ _))
      (fun he => jobs_append_ne ((List.append_nil _).trans he.symm)) (by simp)] at hn
    cases hn
  · have hdocument : Area root job (jobs root ++ [job ++ ending]) := .document
    rw [hnone _ hdocument.within hdocument.ne_directory.1 hdocument.ne_directory.2] at hn
    cases hn

theorem ready_reset (hroot : ∀ s ∈ root, Path.IsPlain s) (hs : Sound t)
    (h : Directory.reset root t = (.ok (), t')) :
    Ready root t' ∧
      ∀ q, Within root q → q ≠ jobs root → q ≠ overviews root → t'.node? q = none := by
  have hjobs : jobs root ≠ [] := by simp [jobs]
  have hoverviews : overviews root ≠ [] := by simp [overviews]
  obtain ⟨t₁, h₁, h⟩ := inTurn_cons h
  obtain ⟨t₂, h₂, h⟩ := inTurn_cons h
  obtain ⟨t₃, h₃, h⟩ := inTurn_cons h
  obtain ⟨t₄, h₄, h⟩ := inTurn_cons h
  cases h
  obtain ⟨hn₁, hs₁⟩ := removeAll_spec hs hjobs (plain_jobs hroot) h₁
  obtain ⟨hn₂, -⟩ := removeAll_spec hs₁ hoverviews (plain_overviews hroot) h₂
  refine ready_made hroot (fun q hq => ?_) h₃ h₄
  rw [hn₂, hn₁]
  split
  · rfl
  · rename_i hno
    rw [if_pos (hq.resolve_right hno)]

/-- The two directories can be made where only directories are on the way to them. -/
theorem exists_made (hroot : ∀ s ∈ root, Path.IsPlain s)
    (hshort : ∀ s ∈ jobs root ++ overviews root, Text.byteCount s ≤ longestName)
    (hjobs : accept (Path.text (jobs root)) = .ok ())
    (hoverviews : accept (Path.text (overviews root)) = .ok ())
    (habove : ∀ q, Above root q → t.node? q = none ∨ t.node? q = some .directory) :
    ∃ t₁ t₂, t.makeDirectories (jobs root) = (.ok (), t₁) ∧
      t₁.makeDirectories (overviews root) = (.ok (), t₂) := by
  obtain ⟨hshort₁, hshort₂⟩ := List.forall_mem_append.mp hshort
  have hmade₁ := makeDirectories_ok hshort₁ hjobs fun q hq => habove q (.inl hq)
  rcases h₁ : t.makeDirectories (jobs root) with ⟨r, t₁⟩
  obtain rfl : r = .ok () := by rwa [h₁] at hmade₁
  have hmade₂ : (t₁.makeDirectories (overviews root)).1 = .ok () := by
    refine makeDirectories_ok hshort₂ hoverviews fun q hq => ?_
    rcases (makeDirectories_spec (plain_jobs hroot) h₁).1 q with he | ⟨-, hd, -⟩
    · rw [he]
      exact habove q (.inr hq)
    · exact .inr hd
  rcases h₂ : t₁.makeDirectories (overviews root) with ⟨r, t₂⟩
  obtain rfl : r = .ok () := by rwa [h₂] at hmade₂
  exact ⟨t₁, t₂, rfl, h₂⟩

theorem reset_of_ready (hroot : ∀ s ∈ root, Path.IsPlain s) (hready : Ready root t) :
    ∃ t', Directory.reset root t = (.ok (), t') ∧ Ready root t' ∧
      ∀ q, Within root q → q ≠ jobs root → q ≠ overviews root → t'.node? q = none := by
  -- the first removal leaves the way to the second directory
  have hapart {r : Path} (hr : r <+: overviews root) : ¬ jobs root <+: r := by
    intro hle
    have hlen : (overviews root).length ≤ (jobs root).length := by simp [jobs, overviews]
    have he := (hle.trans hr).eq_of_length_le hlen
    exact jobs_append_ne (by rw [he] : jobs root ++ [] = overviews root ++ [])
  set t₁ := t.eraseBelow (jobs root)
  have h₁ : t.removeAll (jobs root) = (.ok (), t₁) := by
    rw [removeAll, hready.jobs.find, hready.jobsThere]
  have hn₁ (q : Path) (hq : ¬ jobs root <+: q) : t₁.node? q = t.node? q := by
    rw [node?_eraseBelow, if_neg fun h => hq h.2]
  have hreach₁ : Reaches t₁ (overviews root) :=
    ⟨hready.overviews.plain, hready.overviews.short, hready.overviews.accepted,
      fun r hr hne => (hn₁ r (hapart hr)).trans (hready.overviews.above r hr hne)⟩
  set t₂ := t₁.eraseBelow (overviews root)
  have h₂ : t₁.removeAll (overviews root) = (.ok (), t₂) := by
    rw [removeAll, hreach₁.find, hn₁ _ (hapart (List.prefix_refl _)), hready.overviewsThere]
  have hn₂ (q : Path) : t₂.node? q = none ∨ t₂.node? q = t.node? q := by
    rw [node?_eraseBelow, node?_eraseBelow]
    split
    · exact .inl rfl
    split
    · exact .inl rfl
    · exact .inr rfl
  have habove₂ (q : Path) (hq : Above root q) : t₂.node? q = none ∨ t₂.node? q = some .directory :=
    (hn₂ q).imp_right (·.trans (hready.above hq))
  obtain ⟨t₃, t₄, h₃, h₄⟩ := exists_made hroot
    (List.forall_mem_append.mpr ⟨hready.jobs.short, hready.overviews.short⟩) hready.jobs.accepted
    hready.overviews.accepted habove₂
  refine ⟨t₄, ?_, ready_made hroot (fun q hq => ?_) h₃ h₄⟩
  · simp only [Directory.reset, inTurn, h₁, h₂, h₃, h₄]
  · have hne : q ≠ [] := by
      rintro rfl
      rcases hq with hq | hq <;> simp [jobs, overviews] at hq
    rw [node?_eraseBelow]
    split
    · rfl
    · rename_i hno
      rw [node?_eraseBelow, if_pos ⟨hne, hq.resolve_right fun h => hno ⟨hne, h⟩⟩]

theorem reset_empty (hroot : ∀ s ∈ root, Path.IsPlain s ∧ Text.byteCount s ≤ longestName)
    (hjobs : accept (Path.text (jobs root)) = .ok ())
    (hoverviews : accept (Path.text (overviews root)) = .ok ()) :
    (Directory.reset root empty).1 = .ok () := by
  have hnames {name : String} (hn : Text.byteCount name ≤ longestName) :
      ∀ s ∈ root ++ [name], Text.byteCount s ≤ longestName := by
    intro s hs
    rcases List.mem_append.mp hs with hs | hs
    · exact (hroot s hs).2
    · rwa [List.mem_singleton.mp hs]
  -- where nothing is, there is nothing to remove, and that is no failure
  have hremove {name : String} (hplain : Path.IsPlain name) (hn : Text.byteCount name ≤ longestName)
      (hacc : accept (Path.text (root ++ [name])) = .ok ()) :
      empty.removeAll (root ++ [name]) = (.ok (), empty) := by
    cases root with
    | nil => exact removeAll_empty hplain hn hacc
    | cons s root =>
      obtain ⟨hs, hlen⟩ := hroot s (List.mem_cons_self ..)
      exact removeAll_empty hs hlen hacc
  have habove (q : Path) (_ : Above root q) :
      empty.node? q = none ∨ empty.node? q = some .directory := by
    by_cases hq : q = []
    · exact .inr (hq ▸ node?_nil)
    · exact .inl (by rw [node?_of_ne_nil hq]; rfl)
  obtain ⟨t₁, t₂, h₁, h₂⟩ := exists_made (fun s hs => (hroot s hs).1)
    (List.forall_mem_append.mpr ⟨hnames (by decide), hnames (by decide)⟩) hjobs hoverviews habove
  have hrj : empty.removeAll (jobs root) = (.ok (), empty) :=
    hremove ⟨by decide, by decide⟩ (by decide) hjobs
  have hro : empty.removeAll (overviews root) = (.ok (), empty) :=
    hremove ⟨by decide, by decide⟩ (by decide) hoverviews
  simp only [Directory.reset, inTurn, hrj, hro, h₁, h₂]

theorem text?_of_read (hready : Ready root t) (hp : ∀ s ∈ q, Path.IsPlain s) (hq : Within root q)
    (content : String) : t.read q = .ok content ↔ text? t q = some content := by
  unfold Tree.read text?
  cases hn : t.node? q with
  | none =>
    cases hf : t.find q with
    | error e => simp
    | ok n => exact absurd (node?_of_find hp hf) (by simp [hn])
  | some n =>
    rw [(hready.reaches q hq (by simp [hn])).find, hn]
    cases n with
    | directory => simp [Tree.content]
    | file => simp [Tree.content]
    | database table => exact absurd hn (hready.texts q hq table)

theorem withoutEnding?_eq_some_iff {name : String} :
    withoutEnding? name = some job ↔ name = job ++ ending := by
  rw [withoutEnding?, Option.map_eq_some_iff]
  simp only [Text.after?_eq_some_iff]
  constructor
  · rintro ⟨cs, hcs, rfl⟩
    refine String.toList_injective ?_
    rw [String.toList_append, String.toList_ofList, ← List.reverse_inj, hcs]
    simp
  · rintro rfl
    exact ⟨job.toList.reverse, by simp, by simp⟩

theorem readOverviews_spec {directory : Path} {names : List String}
    (h : ∀ name ∈ names, ∃ content, t.read (directory ++ [name]) = .ok content) :
    ∃ os, readOverviews t directory names = .ok os ∧
      (os.map fun o => o.job ++ ending).Sublist names ∧ ∀ job json, ⟨job, json⟩ ∈ os ↔
        job ++ ending ∈ names ∧ t.read (directory ++ [job ++ ending]) = .ok json := by
  induction names with
  | nil => exact ⟨[], rfl, by simp⟩
  | cons name names ih =>
    obtain ⟨os, hos, hsub, hmem⟩ := ih fun name' hm => h name' (List.mem_cons_of_mem _ hm)
    obtain ⟨content, hcontent⟩ := h name (List.mem_cons_self ..)
    rw [readOverviews]
    cases hw : withoutEnding? name with
    | none =>
      refine ⟨os, hos, hsub.cons name, fun job json => ?_⟩
      have hne : job ++ ending ≠ name := fun he => by
        rw [withoutEnding?_eq_some_iff.mpr he.symm] at hw
        cases hw
      rw [hmem, List.mem_cons, or_iff_right hne]
    | some owner =>
      have hname := withoutEnding?_eq_some_iff.mp hw
      rw [hname] at hcontent ⊢
      refine ⟨⟨owner, content⟩ :: os, by simp [hcontent, hos, Except.map],
        hsub.cons_cons (owner ++ ending), fun job json => ?_⟩
      rw [List.mem_cons, hmem, List.mem_cons]
      by_cases he : job = owner
      · subst he
        rw [hcontent]
        simp [eq_comm]
      · have hne : job ++ ending ≠ owner ++ ending := fun h => he (append_ending_inj h)
        simp [he, hne]

theorem plain_area (hroot : ∀ s ∈ root, Path.IsPlain s) (hj : Job.isId job) {p : Path}
    (hp : p ∈ [overviews root ++ [job ++ ending], jobs root ++ [job], jobs root ++ [job ++ ending]]) :
    (∀ s ∈ p, Path.IsPlain s) ∧ Area root job p := by
  simp only [List.mem_cons, List.not_mem_nil, or_false] at hp
  rcases hp with rfl | rfl | rfl
  · exact ⟨plain_concat (plain_overviews hroot) (isProper_file hj).plain, .overview⟩
  · exact ⟨plain_concat (plain_jobs hroot) (isProper_id hj).plain, .below []⟩
  · exact ⟨plain_concat (plain_jobs hroot) (isProper_file hj).plain, .document⟩

theorem listOverviews_spec (hroot : ∀ s ∈ root, Path.IsPlain s) (hready : Ready root t) :
    ∃ os, Directory.listOverviews root t = .ok os ∧
      (os.map fun o => o.job ++ ending).Sublist ((t.entries (overviews root)).map Prod.fst) ∧
      ∀ job, Job.isId job → ∀ json,
        ⟨job, json⟩ ∈ os ↔ shelf root job t Job.overviewPath = some json := by
  have hlist : t.list (overviews root) = .ok (t.entries (overviews root)) := by
    rw [Tree.list, hready.overviews.find, hready.overviewsThere]
  have hwithin (name : String) : Within root (overviews root ++ [name]) :=
    .inr (List.prefix_append _ _)
  have hread (name : String) (hn : t.node? (overviews root ++ [name]) ≠ none) :
      Reaches t (overviews root ++ [name]) := hready.reaches _ (hwithin name) hn
  have hreads : ∀ name ∈ (t.entries (overviews root)).map Prod.fst,
      ∃ content, t.read (overviews root ++ [name]) = .ok content := by
    intro name hname
    have hn := mem_entries.mp hname
    obtain ⟨n, hnode⟩ := Option.ne_none_iff_exists'.mp hn
    cases n with
    | directory => exact absurd hnode (hready.overview name)
    | file content modified =>
      refine ⟨content, (text?_of_read hready (hread name hn).plain (hwithin name) content).mpr ?_⟩
      rw [text?, hnode]
    | database table => exact absurd hnode (hready.texts _ (hwithin name) table)
  obtain ⟨os, hos, hsub, hmem⟩ := readOverviews_spec hreads
  have hanswer : Directory.listOverviews root t = .ok os := by
    rw [Directory.listOverviews, hlist]
    exact hos
  refine ⟨os, hanswer, hsub, fun job hj json => ?_⟩
  have hplain : ∀ s ∈ overviews root ++ [job ++ ending], Path.IsPlain s :=
    (plain_area hroot hj (List.mem_cons_self ..)).1
  rw [hmem, text?_of_read hready hplain (hwithin _), mem_entries, shelf,
    if_pos Job.owns_overviewPath, target?_overview hj, Option.bind_some,
    and_iff_right_iff_imp]
  intro ht hn
  rw [text?, hn] at ht
  cases ht

theorem anyThere_of_none {ps : List Path}
    (h : ∀ p ∈ ps, (∀ s ∈ p, Path.IsPlain s) ∧ t.node? p = none) :
    anyThere t ps ≠ .ok true := by
  induction ps with
  | nil => simp [anyThere]
  | cons p ps ih =>
    obtain ⟨hplain, hn⟩ := h p (List.mem_cons_self ..)
    have hno := ih fun p' hp' => h p' (List.mem_cons_of_mem _ hp')
    rw [anyThere]
    cases hf : t.find p with
    | error e => cases e <;> first | exact hno | simp
    | ok n => exact absurd (node?_of_find hplain hf) (by simp [hn])

theorem anyThere_of_reaches {ps : List Path} (h : ∀ p ∈ ps, Reaches t p) :
    anyThere t ps = .ok (ps.any fun p => (t.node? p).isSome) := by
  induction ps with
  | nil => rfl
  | cons p ps ih =>
    obtain ⟨hp, hps⟩ := List.forall_mem_cons.mp h
    rw [anyThere, hp.find, List.any_cons]
    cases t.node? p with
    | none => simpa using ih hps
    | some n => rfl

/-- The overview of a job has the longest path of those that tell whether there is something. -/
theorem accept_area {name : String} (h : accept (Path.text (overviews root ++ [job ++ ending])) = .ok ())
    (hname : name = job ∨ name = job ++ ending) :
    accept (Path.text (jobs root ++ [name])) = .ok () := by
  have hnul : ∀ s ∈ ["jobs", ending], '\x00' ∉ s.toList := by decide +kernel
  have hlong : Text.byteCount "jobs" ≤ Text.byteCount "overviews" := by decide
  have hsize : Text.byteCount (job ++ ending) = Text.byteCount job + Text.byteCount ending :=
    String.utf8ByteSize_append
  rw [accept_text_iff (by simp)] at h ⊢
  simp only [jobs, overviews, List.map_append, List.sum_append, List.map_cons, List.map_nil,
    List.sum_cons, List.sum_nil, List.mem_append, List.mem_singleton] at h ⊢
  obtain ⟨hchars, hlen⟩ := h
  have hfile : ∀ c ∈ (job ++ ending).toList, c ≠ '\x00' := hchars _ (.inr rfl)
  constructor
  · rintro s ((hs | rfl) | rfl)
    · exact hchars s (.inl (.inl hs))
    · exact List.forall_mem_ne'.mpr (hnul _ (by simp))
    · rcases hname with rfl | rfl
      · rw [String.toList_append] at hfile
        exact fun c hc => hfile c (List.mem_append_left _ hc)
      · exact hfile
  · rcases hname with rfl | rfl <;> omega

theorem holds_eq_anyThere (hj : Job.isId job) (t : Tree) :
    Directory.holds root job t = anyThere t
      [overviews root ++ [job ++ ending], jobs root ++ [job], jobs root ++ [job ++ ending]] := by
  rw [Directory.holds, overviewFile_eq hj, within_of_proper (isProper_id hj),
    within_of_proper (isProper_file hj)]

/-- Where the system takes the path of the overview, it can tell whether there is something of a
job. -/
theorem holds_eq (hj : Job.isId job) (hready : Ready root t)
    (hacc : accept (Path.text (overviewFile root job)) = .ok ()) :
    Directory.holds root job t =
      .ok ([overviews root ++ [job ++ ending], jobs root ++ [job], jobs root ++ [job ++ ending]].any
        fun p => (t.node? p).isSome) := by
  rw [overviewFile_eq hj] at hacc
  rw [holds_eq_anyThere hj]
  refine anyThere_of_reaches fun p hp => ?_
  have hshort := byteCount_id_le hj
  simp only [List.mem_cons, List.not_mem_nil, or_false] at hp
  rcases hp with rfl | rfl | rfl
  · exact reaches_concat hready.overviews hready.overviewsThere (isProper_file hj).plain hshort.2 hacc
  · exact reaches_concat hready.jobs hready.jobsThere (isProper_id hj).plain hshort.1
      (accept_area hacc (.inl rfl))
  · exact reaches_concat hready.jobs hready.jobsThere (isProper_file hj).plain hshort.2
      (accept_area hacc (.inr rfl))

/-- Of a job that has nothing, nothing is found, and where the system can look for it, this is the
answer. -/
theorem holds_of_bare (hroot : ∀ s ∈ root, Path.IsPlain s) (hj : Job.isId job)
    (hready : Ready root t) (hb : ∀ q, Area root job q → t.node? q = none) :
    Directory.holds root job t ≠ .ok true ∧
      (accept (Path.text (overviewFile root job)) = .ok () →
        Directory.holds root job t = .ok false) := by
  have hno : Directory.holds root job t ≠ .ok true := by
    rw [holds_eq_anyThere hj]
    exact anyThere_of_none fun p hp => ⟨(plain_area hroot hj hp).1, hb p (plain_area hroot hj hp).2⟩
  refine ⟨hno, fun hacc => ?_⟩
  have heq := holds_eq hj hready hacc
  rw [heq, Except.ok.injEq, ← Bool.not_eq_true]
  rw [heq] at hno
  exact fun htrue => hno (congrArg _ htrue)

/-- Where the system does not take the path of the overview, there is no telling. -/
theorem holds_of_refused (hacc : accept (Path.text (overviewFile root job)) ≠ .ok ()) :
    ∃ e, Directory.holds root job t = .error e := by
  cases hr : accept (Path.text (overviewFile root job)) with
  | ok u => exact absurd hr hacc
  | error e =>
    refine ⟨e, ?_⟩
    have hfind : t.find (overviewFile root job) = .error e := by rw [Tree.find, hr]
    have hne := ne_notFound_of_accept hr
    rw [Directory.holds, anyThere, hfind]
    cases e <;> first | rfl | exact absurd rfl hne

theorem ready_publish (hroot : ∀ s ∈ root, Path.IsPlain s) (hready : Ready root t)
    (content : String) : Ready root (replaceFile t (combinedFile root) content).2 ∧
      (∀ q, q ≠ combinedFile root →
        (replaceFile t (combinedFile root) content).2.node? q = t.node? q) ∧
      ((replaceFile t (combinedFile root) content).1 = .ok () →
        text? (replaceFile t (combinedFile root) content).2 (combinedFile root) =
          some content) := by
  have hplain : ∀ s ∈ combinedFile root, Path.IsPlain s :=
    plain_concat (plain_jobs hroot) ⟨by decide, by decide⟩
  have hne : combinedFile root ≠ [] := by simp [combinedFile]
  rcases hr : replaceFile t (combinedFile root) content with ⟨r, t'⟩
  obtain ⟨t₁, hpaved, hend⟩ := replaceFile_spec hne hplain hr
  -- the directory is there already
  have hsame (q : Path) : t₁.node? q = t.node? q := by
    rcases hpaved q with he | ⟨hn, -, hq, -⟩
    · exact he
    · rw [combinedFile, List.dropLast_concat] at hq
      rw [hready.above (.inl hq)] at hn
      cases hn
  have hready₁ : Ready root t₁ := hready.congr fun q _ => hsame q
  rcases hend with ⟨⟨e, rfl⟩, rfl⟩ | ⟨rfl, rfl, hreach, hd⟩
  · exact ⟨hready₁, fun q _ => hsame q, by simp⟩
  · refine ⟨hready₁.insert hreach hd, fun q hq => ?_, fun _ => ?_⟩
    · rw [node?_insert hne, if_neg hq, hsame q]
    · rw [text?, node?_insert hne, if_pos rfl]

theorem text?_file (hj : Job.isId job) (ho : Job.owns job path)
    (htarget : target? root job path = some q)
    (h : ∀ p, text? t' p = if p = q then some json else text? t p) :
    shelf root job t' = (shelf root job t).file ⟨path, json⟩ := by
  funext path'
  rw [Shelf.file, shelf, shelf]
  by_cases hp : path' = path
  · rw [if_pos hp, hp, if_pos ho, htarget, Option.bind_some, h, if_pos rfl]
  · rw [if_neg hp]
    split
    · rename_i ho'
      obtain ⟨q', htarget', -⟩ := target?_of_owns hj ho' root
      have hq : q' ≠ q := fun he => hp (target?_inj hj ho' ho (by rw [htarget, htarget', he]))
      rw [htarget', Option.bind_some, Option.bind_some, h, if_neg hq]
    · rfl

/-- When a document was put, its text is in its place, and the others have theirs. -/
theorem text?_put (hroot : ∀ s ∈ root, Path.IsPlain s) (hj : Job.isId job) (ho : Job.owns job path)
    (htarget : target? root job path = some q) (hready : Ready root t)
    (h : (Directory.put root job path json t).1 = .ok ()) (p : Path) :
    text? (Directory.put root job path json t).2 p = if p = q then some json else text? t p := by
  rw [put_of_target json t ho htarget] at h ⊢
  have hq := place_of_target hj ho htarget
  obtain ⟨-, -, htext⟩ := place_replaceFile hroot hj hq hready (Prod.eta _).symm
  exact htext (lift_eq_ok_iff.mp h) p

theorem shelf_of_bare (hj : Job.isId job) (hb : ∀ q, Area root job q → t.node? q = none) :
    shelf root job t = Shelf.empty := by
  funext path
  rw [shelf, Shelf.empty]
  split
  · rename_i ho
    obtain ⟨q, htarget, hq⟩ := target?_of_owns hj ho root
    rw [htarget, Option.bind_some, text?, hb q hq.area]
  · rfl

theorem get_of_file (hready : Ready root t) (hp : ∀ s ∈ q, Path.IsPlain s) (hq : Within root q)
    (hfile : documentFile? root path = some q) (text : String) :
    Directory.get root path t = .ok (some text) ↔ text? t q = some text := by
  rw [← text?_of_read hready hp hq text, Directory.get, hfile]
  cases hr : t.read q with
  | error e => cases e <;> simp [hr]
  | ok content => simp [hr]

theorem get_of_inTree (hroot : ∀ s ∈ root, Path.IsPlain s) (hj : Job.isId job)
    (hready : Ready root t) (h : Job.InTree job path) (text : String) :
    Directory.get root path t = .ok (some text) ↔ shelf root job t path = some text := by
  obtain ⟨q, htarget, hq⟩ := target?_of_owns hj h.1 root
  rw [shelf, if_pos h.1, htarget, Option.bind_some]
  exact get_of_file hready (hq.plain hroot) hq.area.within
    ((target?_eq_documentFile? h).symm.trans htarget) text

section Operations

variable (root t)

theorem directory_reset : (directory root).reset t =
    (⟨lift (Directory.reset root t).1, []⟩, (Directory.reset root t).2) := by
  simp only [directory]

theorem directory_put (job path json : String) : (directory root).put job path json t =
    (⟨(Directory.put root job path json t).1, []⟩, (Directory.put root job path json t).2) := by
  simp only [directory]

theorem directory_delete (job : String) :
    ((directory root).delete job t).2 = (Directory.delete root job t).2 := by
  simp only [directory]

theorem directory_deleteOverview (job : String) :
    ((directory root).deleteOverview job t).2 = (Directory.deleteOverview root job t).2 := by
  simp only [directory]

theorem outcome_delete (job : String) : ((directory root).delete job t).1.outcome = .ok () := by
  simp only [directory]

theorem outcome_deleteOverview (job : String) :
    ((directory root).deleteOverview job t).1.outcome = .ok () := by
  simp only [directory]

theorem directory_publish (json : String) : (directory root).publish json t =
    (⟨lift (replaceFile t (combinedFile root) json).1, []⟩,
      (replaceFile t (combinedFile root) json).2) := by
  simp only [directory]

theorem outcome_get (path : String) :
    ((directory root).get path t).1.outcome = Directory.get root path t := by
  simp only [directory]

theorem outcome_holds (job : String) :
    ((directory root).holds job t).1.outcome = lift (Directory.holds root job t) := by
  simp only [directory]

theorem outcome_listOverviews :
    ((directory root).listOverviews t).1.outcome = lift (Directory.listOverviews root t) := by
  simp only [directory]

end Operations

end ArchiveKeeper.Store.Directory

namespace ArchiveKeeper.Store

open Directory Files

theorem directory_keeps {root : Path} (hroot : ∀ s ∈ root, Path.IsPlain s) :
    Keeps (directory root) (Directory.view root) where
  reset t hs h := by
    rw [directory_reset] at h ⊢
    have hok : Directory.reset root t = (.ok (), (Directory.reset root t).2) :=
      Prod.ext (lift_eq_ok_iff.mp h) rfl
    obtain ⟨hready, hempty⟩ := ready_reset hroot hs hok
    exact ⟨hready, fun job _ q hq => hempty q hq.within hq.ne_directory.1 hq.ne_directory.2⟩
  untouched t t' h := spares_of_same fun hready =>
    ⟨hready.congr h, fun job _ _ q hq => h q (.inl hq.within)⟩
  put job path json t hj := by
    rw [directory_put]
    exact spares_of_area hj fun hready => ready_put hroot hj path json hready
  filed job path json t hj hready h := by
    rw [directory_put] at h ⊢
    by_cases ho : Job.owns job path
    · obtain ⟨q, htarget, -⟩ := target?_of_owns hj ho root
      exact text?_file hj ho htarget (text?_put hroot hj ho htarget hready h)
    · rw [Directory.put, if_neg ho] at h
      cases h
  delete job t hj := by
    rw [directory_delete]
    refine spares_of_area hj fun hready => ?_
    obtain ⟨hready', hsame, -⟩ := ready_delete hroot hj hready
    exact ⟨hready', hsame⟩
  deleted job t hj hready := by
    rw [directory_delete]
    exact ⟨outcome_delete root t job, (ready_delete hroot hj hready).2.2⟩
  listing t := .refl _ t
  publish json t := by
    rw [directory_publish]
    refine spares_of_same fun hready => ?_
    obtain ⟨hready', hsame, -⟩ := ready_publish hroot hready json
    refine ⟨hready', fun job hj _ q hq => hsame q ?_⟩
    rintro rfl
    exact not_area_combinedFile hj hq
  empty job t hj _ hb := shelf_of_bare hj hb
  get job path t hj hready hin text := get_of_inTree hroot hj hready hin text
  overviews t hready := by
    obtain ⟨os, hos, -, hmem⟩ := listOverviews_spec hroot hready
    exact ⟨os, lift_eq_ok_iff.mpr hos, hmem⟩
  absent job t hj hready hb := by
    obtain ⟨hno, hfalse⟩ := holds_of_bare hroot hj hready hb
    rw [outcome_holds, ne_eq, lift_eq_ok_iff, lift_eq_ok_iff]
    exact ⟨hno, hfalse⟩

end ArchiveKeeper.Store
