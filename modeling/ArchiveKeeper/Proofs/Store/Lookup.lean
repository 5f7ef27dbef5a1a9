import ArchiveKeeper.Proofs.Store.JobIndependence
import ArchiveKeeper.Proofs.Store.Keys
import ArchiveKeeper.Proofs.Store.Reached

namespace ArchiveKeeper

namespace Store

variable {σ ρ : Type} {part : σ → ρ} {inner : Store ρ} {outer : Store σ} {w w₀ : σ}
  {c : Contents} {path : String} {same : String → Prop} {ours free : Prop}

/-- What is read under a path, whatever it is: what is kept under a key that is the same to the store,
or what was there before the store was, if it is not a path of the store's. -/
structure LooksUp (S : Store ρ) (c : Contents) (path : String) (same : String → Prop)
    (ours free : Prop) (w₀ w : ρ) : Prop where
  read : ours → ∀ text, (S.get path w).1.outcome = .ok (some text) ↔
    ∃ key, same key ∧ c.Has key text
  /-- Under a key, nothing is read but what is kept under it. -/
  exact : IsKey (fun _ _ => True) path → ∀ text,
    (S.get path w).1.outcome = .ok (some text) ↔ c.Has path text
  answered : ours → free → ∃ found, (S.get path w).1.outcome = .ok found
  elsewhere : ¬ ours → free → (S.get path w).1.outcome = (S.get path w₀).1.outcome

theorem Acts.looksUp (h : Acts part inner outer)
    (hlooks : LooksUp inner c path same ours free (part w₀) (part w)) :
    LooksUp outer c path same ours free w₀ w := by
  obtain ⟨hread, hexact, hanswered, helsewhere⟩ := hlooks
  refine ⟨?_, ?_, ?_, ?_⟩
  · rwa [h.outcome_get]
  · rwa [h.outcome_get]
  · rwa [h.outcome_get]
  · rwa [h.outcome_get, h.outcome_get]

/-- A table finds a text under its key, and nothing under any other path. -/
theorem Database.Retains.looksUp {place : Database.Place} {w₀ w : Database.World}
    (h : Database.Retains place c w) (path : String) :
    LooksUp (database place) c path (· = path) True free w₀ w := by
  obtain ⟨t, hholds, hready, halike⟩ := h
  have hread (text : String) :
      ((database place).get path w).1.outcome = .ok (some text) ↔ c.Has path text := by
    rw [hholds.outcome_get, Except.ok.injEq, ← hready.has_iff, halike.has_iff]
  refine ⟨fun _ text => ?_, fun _ => hread, fun _ _ => ⟨_, hholds.outcome_get path⟩,
    fun hours => absurd trivial hours⟩
  rw [hread, exists_eq_left]

namespace Directory

open Files Files.Tree

variable {root p q : Path} {key : String} {t t₀ : Tree} {tries : String → List String}
  {known : String → Prop}

/-- The file of a path is not outside of the store, if there is one. -/
def Ours (root : Path) (path : String) : Prop :=
  ∀ q, documentFile? root path = some q → Within root q

/-- The system takes the names of the file of a path, and the file does not need as a directory what
is the file of a known key, nor the other way round. -/
structure Free (root : Path) (known : String → Prop) (path : String) : Prop where
  legible : Legible root path
  apart : ∀ key q p, known key → documentFile? root path = some q →
    documentFile? root key = some p → ¬ p <+: q.dropLast ∧ ¬ q <+: p.dropLast

/-- Where the combined overview is known, a file with nothing in its way does not stand above the
store. -/
theorem Free.not_above (h : Free root known path) (hknown : known Job.overviewPath)
    (hfile : documentFile? root path = some q) : ¬ Above root q := by
  intro habove
  obtain ⟨p, name, rfl⟩ := ends_documentFile? hfile
  have hnot := (h.apart _ _ _ hknown hfile documentFile?_overviewPath).2
  rw [combinedFile, List.dropLast_concat] at hnot
  rcases habove with hle | hle
  · exact hnot hle
  · rcases List.prefix_concat_iff.mp hle with he | hle
    · have hname : name ++ ending = "overviews" := (List.cons.inj (List.append_inj' he rfl).2).1
      have hnone : withoutEnding? "overviews" = none := by decide
      rw [withoutEnding?_eq_some_iff.mpr hname.symm] at hnone
      cases hnone
    · exact hnot (hle.trans (List.prefix_append _ _))

namespace Orderly

variable (h : Orderly root t₀ c tries t)

include h

theorem key_of_file (hq : Within root q) (hn : t.node? q ≠ none)
    (hd : t.node? q ≠ some .directory) :
    ∃ key, IsKey (fun job path => path ∈ tries job) key ∧ documentFile? root key = some q := by
  have hqj : q ≠ jobs root := by
    rintro rfl
    exact hd h.ready.jobsThere
  have hqo : q ≠ overviews root := by
    rintro rfl
    exact hd h.ready.overviewsThere
  by_cases hqc : q = combinedFile root
  · exact ⟨_, .combined, hqc ▸ documentFile?_overviewPath⟩
  obtain ⟨job, isId, path, hpath, ⟨-, hdir⟩ | ⟨owns, htarget, -⟩⟩ := h.traced q hq hqj hqo hqc hn
  · exact absurd hdir hd
  · exact ⟨_, .filed isId owns hpath, (documentFile?_keyOf isId owns root).trans htarget⟩

/-- A directory with the name of a file is on the way to that of a key. -/
theorem key_of_directory (hq : Within root q) (hnot : ¬ Above root q)
    (hd : t.node? q = some .directory) : ∃ key p,
    IsKey (fun job path => path ∈ tries job) key ∧ documentFile? root key = some p ∧
      q <+: p.dropLast := by
  have hqj : q ≠ jobs root := fun he => hnot (.inl (he ▸ List.prefix_refl _))
  have hqo : q ≠ overviews root := fun he => hnot (.inr (he ▸ List.prefix_refl _))
  have hqc : q ≠ combinedFile root := by
    rintro rfl
    exact h.combinedFree hd
  obtain ⟨job, isId, path, hpath, ⟨⟨owns, p, htarget, hle⟩, -⟩ | ⟨-, -, hno⟩⟩ :=
    h.traced q hq hqj hqo hqc (by simp [hd])
  · exact ⟨_, p, .filed isId owns hpath, (documentFile?_keyOf isId owns root).trans htarget, hle⟩
  · exact absurd hd hno

/-- Where nothing is in the way of a file of the store, the text in it is read, if there is any. -/
theorem get_of_free (hroot : ∀ s ∈ root, Path.IsPlain s) (hq : Within root q)
    (hfree : Free root (IsKey fun job path => path ∈ tries job) path)
    (hfile : documentFile? root path = some q) :
    Directory.get root path t = .ok (text? t q) := by
  obtain ⟨hacc, hshort⟩ := hfree.legible q hfile
  refine get_eq h.ready hq hfile (plain_documentFile? hroot hfile) hshort hacc (fun r hr hne => ?_)
    fun hd => ?_
  · rcases within_or_above hq hr with hwithin | habove
    · by_cases hn : t.node? r = none
      · exact .inl hn
      by_cases hd : t.node? r = some .directory
      · exact .inr hd
      obtain ⟨key, isKey, hkey⟩ := h.key_of_file hwithin hn hd
      exact absurd (Path.prefix_dropLast hr hne) (hfree.apart key q r isKey hfile hkey).1
    · exact .inr (h.ready.above habove)
  · obtain ⟨key, p, isKey, hkey, hle⟩ := h.key_of_directory hq (hfree.not_above .combined hfile) hd
    exact (hfree.apart key q p isKey hfile hkey).2 hle

theorem read_iff (hroot : ∀ s ∈ root, Path.IsPlain s) (hq : Within root q)
    (hfile : documentFile? root path = some q) (text : String) :
    Directory.get root path t = .ok (some text) ↔
      ∃ key, documentFile? root key = some q ∧ c.Has key text := by
  rw [get_of_file h.ready (plain_documentFile? hroot hfile) hq hfile]
  constructor
  · -- a file that has a text is that of a key, and so the text is kept under it
    intro htext
    obtain ⟨n, hn, hd⟩ : ∃ n, t.node? q = some n ∧ n ≠ .directory := by
      unfold text? at htext
      split at htext
      · exact ⟨_, by assumption, by simp⟩
      · cases htext
    obtain ⟨key, isKey, hkey⟩ := h.key_of_file hq (by simp [hn]) (by simpa [hn] using hd)
    exact ⟨key, hkey, h.alike.has_iff.mp (has_contents_iff.mpr ⟨isKey.any, q, hkey, htext⟩)⟩
  · rintro ⟨key, hkey, hhas⟩
    obtain ⟨-, q', hkey', htext⟩ := has_contents_iff.mp (h.alike.has_iff.mpr hhas)
    obtain rfl := Option.some.inj (hkey.symm.trans hkey')
    exact htext

theorem get_of_elsewhere (hroot : ∀ s ∈ root, Path.IsPlain s) (hs : Sound t₀)
    (hq : ¬ Within root q) (hnot : ¬ Above root q) (hlegible : Legible root path)
    (hfile : documentFile? root path = some q) :
    Directory.get root path t = Directory.get root path t₀ := by
  refine get_congr fun q' hfile' => ?_
  obtain rfl := Option.some.inj (hfile.symm.trans hfile')
  -- nothing but the directories above the store came to be on the way
  refine find_eq_of_paved (plain_documentFile? hroot hfile) (hlegible q hfile).2 (fun r hr => ?_)
    fun r r' hrr _ hn => hs.none_below hn hrr
  rcases h.elsewhere r fun hw => hq (hw.imp (·.trans hr) (·.trans hr)) with he | ⟨hn, hd, ha⟩
  · exact .inl he
  · refine .inr ⟨hn, hd, ?_⟩
    rintro rfl
    exact hnot ha

theorem looksUp (hroot : ∀ s ∈ root, Path.IsPlain s) (hs : Sound t₀) (path : String) :
    LooksUp (directory root) c path (fun key => documentFile? root key = documentFile? root path)
      (Ours root path) (Free root (IsKey fun job path => path ∈ tries job) path) t₀ t := by
  have hread (hours : Ours root path) (text : String) :
      Directory.get root path t = .ok (some text) ↔
        ∃ key, documentFile? root key = documentFile? root path ∧ c.Has key text := by
    cases hfile : documentFile? root path with
    | none =>
      -- every key has a file, so no key is the same as a path out of the root
      have hnone : ¬ ∃ key, documentFile? root key = none ∧ c.Has key text := by
        rintro ⟨key, hkey, hhas⟩
        obtain ⟨q, hq, -⟩ := file_of_isKey hhas.isKey root
        rw [hkey] at hq
        cases hq
      simp [Directory.get, hfile, hnone]
    | some q => exact h.read_iff hroot (hours q hfile) hfile text
  refine ⟨hread, fun isKey text => ?_, fun hours hfree => ?_, fun hours hfree => ?_⟩
  · obtain ⟨q, hfile, hq⟩ := file_of_isKey isKey root
    rw [outcome_get, h.read_iff hroot hq hfile]
    constructor
    · rintro ⟨key, hkey, hhas⟩
      rwa [eq_of_isKey isKey hhas.isKey (hfile.trans hkey.symm)]
    · exact fun hhas => ⟨path, hfile, hhas⟩
  · cases hfile : documentFile? root path with
    | none => exact ⟨none, by rw [outcome_get, Directory.get, hfile]⟩
    | some q => exact ⟨text? t q, h.get_of_free hroot (hours q hfile) hfree hfile⟩
  · simp only [Ours, not_forall] at hours
    obtain ⟨q, hfile, hq⟩ := hours
    exact h.get_of_elsewhere hroot hs hq (hfree.not_above .combined hfile) hfree.legible hfile

end Orderly

end Directory

end Store

namespace Site

open Files Store

variable {τ : Type} {base : Path} {config : Config.Storage} {s : Site τ} {uses : List Use}

/-- A key is the same to a store as a path. In files it is so if both name the same file. -/
def SameTo (base : Path) (config : Config.Storage) (path key : String) : Prop :=
  match config.backend with
  | .files => Directory.documentFile? (root base config) key =
    Directory.documentFile? (root base config) path
  | .table => key = path

/-- In every state that a store of either kind can reach, what is read under a path is what is kept
under the key that is the same to the store. In files this is so for all paths that do not lead out
of the store, and an answer is given where no document that was put is in the way. -/
theorem lookup_exact (inUse : InUse base config s uses) (path : String) :
    LooksUp (Site.store base config) (keptBy base config s uses) path (SameTo base config path)
      (config.backend = .files → Directory.Ours (root base config) path)
      (config.backend = .files → Directory.Free (root base config)
        (IsKey fun job path => path ∈ tried job uses) path)
      s (reached base config s uses) := by
  unfold SameTo
  cases hbackend : config.backend with
  | files =>
    refine (acts_directory base hbackend).looksUp ?_
    simpa [hbackend] using (inUse.orderly hbackend).looksUp inUse.plainRoot inUse.sound path
  | table =>
    refine (acts_database base hbackend).looksUp ?_
    simpa using (inUse.retains hbackend).looksUp path

/-- What is read under the key of a document without its slash. -/
theorem looksUp_jobs : LooksUp (Site.store [] inData)
    (keptBy [] inData vacant (putBefore (Job.root firstJob))) ("jobs/" ++ firstJob)
    (SameTo [] inData ("jobs/" ++ firstJob))
    (inData.backend = .files → Directory.Ours (root [] inData) ("jobs/" ++ firstJob))
    (inData.backend = .files → Directory.Free (root [] inData)
      (IsKey fun job path => path ∈ tried job (putBefore (Job.root firstJob))) ("jobs/" ++ firstJob))
    vacant (reached [] inData vacant (putBefore (Job.root firstJob))) :=
  lookup_exact (inUse_putBefore _) _

/-- A file that is none of the store's, beside where the store will be. -/
def noted : Site Unit :=
  ⟨(Tree.empty.insert ["data"] .directory).insert ["data", "notes.json"] (.file "{}" 0), .closed, ()⟩

theorem inUse_noted : InUse [] inData noted [] := by
  have hdata : (Tree.empty.insert ["data"] .directory).Sound :=
    Tree.sound_empty.insert_concat (p := []) rfl rfl _
  exact ⟨by simp, hdata.insert_concat (p := ["data"]) rfl rfl _, rfl, by decide +kernel, by simp⟩

/-- Texts are read under which nothing is kept: a document without the slash that its key starts with,
and a file beside the store. -/
theorem read_beside_keys :
    (InUse [] inData vacant (putBefore (Job.root firstJob)) ∧
      ((Site.store [] inData).get ("jobs/" ++ firstJob)
        (reached [] inData vacant (putBefore (Job.root firstJob)))).1.outcome = .ok (some "null") ∧
      ∀ text, ¬ (keptBy [] inData vacant (putBefore (Job.root firstJob))).Has
        ("jobs/" ++ firstJob) text) ∧
    InUse [] inData noted [] ∧
      ((Site.store [] inData).get "/notes" (reached [] inData noted [])).1.outcome =
        .ok (some "{}") ∧
      ∀ text, ¬ (keptBy [] inData noted []).Has "/notes" text := by
  refine ⟨⟨inUse_putBefore _, by decide +kernel, fun text hhas => ?_⟩, inUse_noted, by decide +kernel,
    fun text => Contents.not_has_empty⟩
  exact absurd hhas.isKey.absolute (by decide)

end Site

end ArchiveKeeper
