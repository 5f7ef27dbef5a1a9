import ArchiveKeeper.Fetch.Site
import ArchiveKeeper.Proofs.Files.Frame
import ArchiveKeeper.Proofs.Store.Publication

namespace ArchiveKeeper

namespace Store

open Files

variable {σ ρ : Type} {S : Store ρ} {w : ρ} {text json : String} {e : Failure}

/-- A text that is shown is shown until another one is published. -/
structure Steady (S : Store ρ) : Prop where
  listing : ∀ w text, S.Shows w text → S.Shows (S.listOverviews w).2 text
  publish : ∀ json w text e, S.Shows w text → (S.publish json w).1.outcome = .error e →
    S.Shows (S.publish json w).2 text

theorem Steady.zoom (h : Steady S) {part : σ → ρ} {set : ρ → σ → σ}
    (lens : ∀ r w, part (set r w) = r) : Steady (S.zoom part set) where
  listing w text := by
    simpa [Store.zoom, Operation.zoom, Shows, lens] using h.listing (part w) text
  publish json w text e := by
    simpa [Store.zoom, Operation.zoom, Shows, lens] using h.publish json (part w) text e

theorem Steady.bindBackend (h : Steady S) : Steady S.bindBackend := ⟨h.listing, h.publish⟩

theorem Steady.republish (h : Steady S) (hshows : S.Shows w text)
    (hnone : (Overview.republish S w).1.outcome = .ok none) :
    S.Shows (Overview.republish S w).2 text := by
  have hlisted := h.listing w text hshows
  obtain ⟨-, -, hw⟩ | ⟨os, -, hw, hpublished⟩ := Overview.republish_cases S w
  · rwa [hw]
  · rw [hw]
    cases hp : (S.publish (Overview.write (Overview.merge os))
        (S.listOverviews w).2).1.outcome with
    | error e => exact h.publish _ _ text e hlisted hp
    | ok u =>
      obtain ⟨n, hn⟩ := hpublished.mpr hp
      rw [hnone] at hn
      cases hn

namespace Database

variable {place : Place} {t : Table} {w : World}

theorem shows_of_table {w' : World} (h : table place w = (.ok t, w')) :
    (database place).Shows w text ↔ t.get? Job.overviewPath = some text := by
  have hanswer : ((database place).get Job.overviewPath w).1.outcome = _ :=
    Answer.document.inj (answer_of_table h (.get Job.overviewPath))
  rw [Shows, hanswer, Except.ok.injEq]

theorem table_of_shows (h : (database place).Shows w text) :
    ∃ t w', table place w = (.ok t, w') ∧ t.get? Job.overviewPath = some text := by
  rcases hw : table place w with ⟨e | t, w'⟩
  · simp [Shows, database, operation, withTable, hw] at h
  · exact ⟨t, w', rfl, (shows_of_table hw).mp h⟩

end Database

open Database in
theorem database_steady (place : Place) : Steady (database place) where
  listing w text h := by
    obtain ⟨t, w', hw, htext⟩ := table_of_shows h
    have hnext : ((database place).listOverviews w).2 = save place t w' :=
      congrArg Prod.snd (ask_eq hw .listOverviews)
    rw [hnext]
    exact (shows_iff connection_save).mpr htext
  publish json w text e h hfail := by
    -- where a text is shown, a publication does not fail
    obtain ⟨t, w', hw, -⟩ := table_of_shows h
    have hanswer : ((database place).publish json w).1.outcome = .ok () :=
      Answer.done.inj (answer_of_table hw (.publish json))
    rw [hanswer] at hfail
    cases hfail

namespace Directory

open Files.Tree

variable {root : Path} {t : Tree}

theorem read_of_shows (h : (directory root).Shows t text) :
    t.read (combinedFile root) = .ok text := by
  simp only [Shows, directory, Directory.get, documentFile?_overviewPath] at h
  cases hread : t.read (combinedFile root) with
  | error e => cases e <;> simp [hread] at h
  | ok content => simpa [hread] using h

/-- Where the directory of a file is there, a failure to replace the file changes nothing at all. -/
theorem replaceFile_of_there {p : Path} {content : String} {fault : SystemFault}
    (hreach : Reaches t p.dropLast) (hthere : t.node? p.dropLast = some .directory)
    (h : (replaceFile t p content).1 = .error fault) : (replaceFile t p content).2 = t := by
  unfold replaceFile at h ⊢
  rw [makeDirectories_of_there hreach hthere] at h ⊢
  dsimp only at h ⊢
  rcases hr : t.replace p content with ⟨r, t'⟩
  rw [hr] at h
  rcases replace_spec hr with ⟨-, rfl⟩ | ⟨rfl, -⟩
  · rfl
  · cases h

theorem replaceFile_of_error {p : Path} {content : String} {fault : SystemFault} (hne : p ≠ [])
    (hp : ∀ s ∈ p, Path.IsPlain s) (hread : t.read p = .ok text)
    (h : (replaceFile t p content).1 = .error fault) : (replaceFile t p content).2 = t := by
  obtain ⟨n, hfind⟩ : ∃ n, t.find p = .ok n := by
    unfold Tree.read at hread
    split at hread
    · cases hread
    · exact ⟨_, by assumption⟩
  have hreach := reaches_of_find hp hfind
  have habove : p.dropLast <+: p := List.dropLast_prefix p
  refine replaceFile_of_there (hreach.of_prefix habove) (hreach.above _ habove fun he => ?_) h
  have hlength := congrArg List.length he
  rw [List.length_dropLast] at hlength
  have hpos := List.length_pos_iff.mpr hne
  omega

end Directory

open Directory in
theorem directory_steady {root : Path} (hroot : ∀ s ∈ root, Path.IsPlain s) :
    Steady (directory root) where
  listing _ _ h := h
  publish json t text e h hfail := by
    rw [directory_publish] at hfail ⊢
    have hne : combinedFile root ≠ [] := by simp [combinedFile]
    cases hr : (replaceFile t (combinedFile root) json).1 with
    | ok u =>
      rw [hr] at hfail
      cases hfail
    | error fault =>
      dsimp only
      rwa [replaceFile_of_error hne (plain_combinedFile hroot) (read_of_shows h) hr]

end Store

theorem Site.store_steady {τ : Type} {base : Files.Path} (hbase : ∀ s ∈ base, Files.Path.IsPlain s)
    (c : Config.Storage) : (Site.store base c : Store (Site τ)).Steady := by
  unfold Site.store
  refine Store.Steady.bindBackend ?_
  cases c.backend with
  | files =>
    refine (Store.directory_steady (Files.Path.plain_resolve hbase _)).zoom ?_
    exact fun _ _ => rfl
  | table =>
    refine (Store.database_steady _).zoom ?_
    exact fun _ _ => rfl

end ArchiveKeeper
