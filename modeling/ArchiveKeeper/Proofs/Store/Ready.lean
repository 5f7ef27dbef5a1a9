import ArchiveKeeper.Proofs.Files.Tree
import ArchiveKeeper.Proofs.Store.Layout

namespace ArchiveKeeper.Store.Directory

open Files Files.Tree

variable {root q r : Path} {job job' : String} {t t' : Tree}

def Within (root q : Path) : Prop := jobs root <+: q ∨ overviews root <+: q

def Above (root q : Path) : Prop := q <+: jobs root ∨ q <+: overviews root

/-- There are the two directories, and all in them can be reached. -/
structure Ready (root : Path) (t : Tree) : Prop where
  jobs : Reaches t (jobs root)
  jobsThere : t.node? (Directory.jobs root) = some .directory
  overviews : Reaches t (overviews root)
  overviewsThere : t.node? (Directory.overviews root) = some .directory
  reaches : ∀ q, Within root q → t.node? q ≠ none → Reaches t q
  texts : ∀ q, Within root q → ∀ table, t.node? q ≠ some (.database table)
  overview : ∀ name, t.node? (Directory.overviews root ++ [name]) ≠ some .directory
  document : ∀ job, Job.isId job →
    t.node? (Directory.jobs root ++ [job ++ ending]) ≠ some .directory

theorem Area.within (h : Area root job q) : Within root q := by
  cases h with
  | overview => exact .inr (List.prefix_append _ _)
  | document => exact .inl (List.prefix_append _ _)
  | below => exact .inl (List.prefix_append _ _)

/-- Below the two directories of a store, nothing is on the way to either of them. -/
theorem Within.not_above (hq : Within root q) (hqj : q ≠ jobs root) (hqo : q ≠ overviews root) :
    ¬ Above root q := by
  have hlen : (jobs root).length = (overviews root).length := by simp [jobs, overviews]
  have hnot (a b : Path) (ha : a <+: q) (hab : a.length = b.length) (hb : q ≠ b) : ¬ q <+: b :=
    fun hqb => hb (hqb.eq_of_length_le (hab ▸ ha.length_le))
  rw [Above, not_or]
  rcases hq with hq | hq
  · exact ⟨hnot _ _ hq rfl hqj, hnot _ _ hq hlen hqo⟩
  · exact ⟨hnot _ _ hq hlen.symm hqj, hnot _ _ hq rfl hqo⟩

theorem within_or_above (hq : Within root q) (hr : r <+: q) : Within root r ∨ Above root r := by
  rcases hq with hq | hq
  · exact (List.prefix_or_prefix_of_prefix hr hq).elim (.inr ∘ .inl) (.inl ∘ .inl)
  · exact (List.prefix_or_prefix_of_prefix hr hq).elim (.inr ∘ .inr) (.inl ∘ .inr)

theorem Above.not_area (h : Above root q) : ¬ Area root job q := by
  have hlen : q.length ≤ root.length + 1 := by
    rcases h with h | h
    · simpa [jobs] using h.length_le
    · simpa [overviews] using h.length_le
  intro ha
  cases ha <;> simp [jobs, overviews] at hlen

theorem Area.ne_nil (h : Area root job q) : q ≠ [] := by
  rintro rfl
  exact Above.not_area (.inl List.nil_prefix) h

theorem Area.ne_directory (h : Area root job q) : q ≠ jobs root ∧ q ≠ overviews root := by
  constructor <;> rintro rfl
  · exact Above.not_area (.inl (List.prefix_refl _)) h
  · exact Above.not_area (.inr (List.prefix_refl _)) h

/-- Some of what there is of a job was taken out, a directory only with all that is below it. -/
structure Thinned (root : Path) (job : String) (t t' : Tree) : Prop where
  kept : ∀ q, t'.node? q = t.node? q ∨ Area root job q ∧ t'.node? q = none
  deep : ∀ q r, q <+: r → t.node? q ≠ none → t'.node? q = none → t'.node? r = none

theorem Thinned.same (h : Thinned root job t t') (hq : ¬ Area root job q) :
    t'.node? q = t.node? q := (h.kept q).resolve_right fun ha => hq ha.1

namespace Ready

theorem above (h : Ready root t) (hq : Above root q) : t.node? q = some .directory := by
  rcases hq with hq | hq
  · exact h.jobs.directory_of_prefix h.jobsThere hq
  · exact h.overviews.directory_of_prefix h.overviewsThere hq

theorem none_below (h : Ready root t) {r' : Path} (hq : Within root q) (hr : r <+: r')
    (hr' : r' <+: q) (hn : t.node? r = none) : t.node? r' = none := by
  by_contra hsome
  by_cases he : r = r'
  · exact hsome (he ▸ hn)
  rcases within_or_above hq hr' with hwithin | habove
  · rw [(h.reaches r' hwithin hsome).above r hr he] at hn
    cases hn
  · rw [h.above (habove.imp hr.trans hr.trans)] at hn
    cases hn

theorem congr (h : Ready root t) (hsame : ∀ q, Within root q ∨ Above root q →
    t'.node? q = t.node? q) : Ready root t' := by
  have habove {p : Path} (hp : Reaches t p) (hours : ∀ q, q <+: p → Within root q ∨ Above root q) :
      Reaches t' p :=
    ⟨hp.plain, hp.short, hp.accepted, fun q hq hne =>
      (hsame q (hours q hq)).trans (hp.above q hq hne)⟩
  have hjobs := hsame (Directory.jobs root) (.inr (.inl (List.prefix_refl _)))
  have hoverviews := hsame (Directory.overviews root) (.inr (.inr (List.prefix_refl _)))
  refine ⟨habove h.jobs fun q hq => .inr (.inl hq), hjobs.trans h.jobsThere,
    habove h.overviews fun q hq => .inr (.inr hq), hoverviews.trans h.overviewsThere,
    fun q hq hn => ?_, fun q hq => ?_, fun name => ?_, fun job hj => ?_⟩
  · rw [hsame q (.inl hq)] at hn
    exact habove (h.reaches q hq hn) fun r hr => within_or_above hq hr
  · rw [hsame q (.inl hq)]
    exact h.texts q hq
  · rw [hsame _ (.inl (.inr (List.prefix_append _ _)))]
    exact h.overview name
  · rw [hsame _ (.inl (.inl (List.prefix_append _ _)))]
    exact h.document job hj

/-- On the way to the files of a job, only what is below the job is made. -/
theorem paved {p : Path} (h : Ready root t) (hpaved : Paved p t t')
    (hp : ∀ r, r <+: p → Above root r ∨ ∃ r', r = Directory.jobs root ++ job :: r') (q : Path) :
    t'.node? q = t.node? q ∨ t.node? q = none ∧ t'.node? q = some .directory ∧ Reaches t' q ∧
      ∃ r, q = Directory.jobs root ++ job :: r := by
  rcases hpaved q with he | ⟨hn, hd, hq, hr⟩
  · exact .inl he
  · rcases hp q hq with ha | hb
    · rw [h.above ha] at hn
      cases hn
    · exact .inr ⟨hn, hd, hr, hb⟩

theorem of_paved {p : Path} (h : Ready root t) (hj : Job.isId job) (hpaved : Paved p t t')
    (hp : ∀ r, r <+: p → Above root r ∨ ∃ r', r = Directory.jobs root ++ job :: r') :
    Ready root t' := by
  refine ⟨hpaved.reaches h.jobs, hpaved.directory h.jobsThere, hpaved.reaches h.overviews,
    hpaved.directory h.overviewsThere, fun q hq hn => ?_, fun q hq table => ?_, fun name => ?_,
    fun job' hj' => ?_⟩
  · rcases h.paved hpaved hp q with he | ⟨-, -, hr, -⟩
    · rw [he] at hn
      exact hpaved.reaches (h.reaches q hq hn)
    · exact hr
  · rcases h.paved hpaved hp q with he | ⟨-, hd, -⟩
    · rw [he]
      exact h.texts q hq table
    · rw [hd]
      simp
  · rcases h.paved hpaved hp (Directory.overviews root ++ [name]) with he | ⟨-, -, -, r, hb⟩
    · rw [he]
      exact h.overview name
    · exact absurd hb.symm jobs_append_ne
  · rcases h.paved hpaved hp (Directory.jobs root ++ [job' ++ ending]) with he | ⟨-, -, -, r, hb⟩
    · rw [he]
      exact h.document job' hj'
    · exact absurd (List.cons.inj (List.append_cancel_left hb)).1 (append_ending_ne_id hj' hj)

theorem insert {content : String} {modified : Int} (h : Ready root t) (hq : Reaches t q)
    (hd : t.node? q ≠ some .directory) : Ready root (t.insert q (.file content modified)) := by
  have hne : q ≠ [] := by
    rintro rfl
    exact hd node?_nil
  have hfile (p : Path) (hp : t.node? p ≠ some .directory) :
      (t.insert q (.file content modified)).node? p ≠ some .directory := by
    rw [node?_insert hne]
    split
    · simp
    · exact hp
  have hdir (p : Path) (hp : t.node? p = some .directory) :
      (t.insert q (.file content modified)).node? p = some .directory := by
    rw [node?_insert hne, if_neg, hp]
    rintro rfl
    exact hd hp
  refine ⟨h.jobs.mono hdir, hdir _ h.jobsThere, h.overviews.mono hdir, hdir _ h.overviewsThere,
    fun p hp hn => ?_, fun p hp table => ?_, fun name => hfile _ (h.overview name),
    fun job hj => hfile _ (h.document job hj)⟩
  · by_cases he : p = q
    · rw [he]
      exact hq.mono hdir
    · rw [node?_insert hne, if_neg he] at hn
      exact (h.reaches p hp hn).mono hdir
  · rw [node?_insert hne]
    split
    · simp
    · exact h.texts p hp table

theorem thin (h : Ready root t) (ht : Thinned root job t t') : Ready root t' := by
  have habove {q : Path} (hq : Above root q) : t'.node? q = some .directory :=
    (ht.same hq.not_area).trans (h.above hq)
  have hnode (q : Path) {n : Node} (hn : t'.node? q = some n) : t.node? q = some n := by
    rcases ht.kept q with he | ⟨-, hnone⟩
    · exact he.symm.trans hn
    · rw [hn] at hnone
      cases hnone
  have hkept {p : Path} (hp : Reaches t p) (hn : t'.node? p ≠ none) : Reaches t' p := by
    refine ⟨hp.plain, hp.short, hp.accepted, fun r hr hne => ?_⟩
    have hd := hp.above r hr hne
    rcases ht.kept r with he | ⟨-, hnone⟩
    · exact he.trans hd
    · exact absurd (ht.deep r p hr (by simp [hd]) hnone) hn
  have hjobs : t'.node? (Directory.jobs root) = some .directory :=
    habove (.inl (List.prefix_refl _))
  have hoverviews : t'.node? (Directory.overviews root) = some .directory :=
    habove (.inr (List.prefix_refl _))
  refine ⟨hkept h.jobs (by simp [hjobs]), hjobs, hkept h.overviews (by simp [hoverviews]),
    hoverviews, fun q hq hn => ?_, fun q hq table hn => h.texts q hq table (hnode q hn),
    fun name hn => h.overview name (hnode _ hn),
    fun job' hj' hn => h.document job' hj' (hnode _ hn)⟩
  obtain ⟨n, hn'⟩ := Option.ne_none_iff_exists'.mp hn
  exact hkept (h.reaches q hq (by simp [hnode q hn'])) hn

theorem thinned (h : Ready root t) (hj : Job.isId job) (hgone : ∀ q, Area root job q →
    t'.node? q = none) (hsame : ∀ q, ¬ Area root job q → t'.node? q = t.node? q) :
    Thinned root job t t' where
  kept q := by
    by_cases ha : Area root job q
    · exact .inr ⟨ha, hgone q ha⟩
    · exact .inl (hsame q ha)
  deep q r hr hn hnone := by
    by_cases hra : Area root job r
    · exact hgone r hra
    rw [hsame r hra]
    by_contra hsome
    have hqa : Area root job q := by
      by_contra hqa
      exact hn ((hsame q hqa).symm.trans hnone)
    have hwithin : Within root r := hqa.within.imp (·.trans hr) (·.trans hr)
    have hd := (h.reaches r hwithin hsome).above q hr fun he => hra (he ▸ hqa)
    -- only a directory of the area has anything below it, and that is of the area, too
    cases hqa with
    | overview => exact h.overview _ hd
    | document => exact h.document job hj hd
    | below q' =>
      obtain ⟨r', rfl⟩ := hr
      rw [List.append_assoc] at hra
      exact hra (.below _)

end Ready

end ArchiveKeeper.Store.Directory
