import ArchiveKeeper.Config.Form
import ArchiveKeeper.Proofs.Check

namespace ArchiveKeeper.Config

open Check Verdict

variable {V : Type} [Visible V] {v : Option V}

theorem passed?_archive_iff {a : Archive} : (Archive.form v).passed? = some a ↔
    ∃ find, finder? v = some find ∧
      (locationList (find "dirs")).passed? = some a.locations ∧
      (withDefault initialSchedule filled (find "refreshCron")).passed? = some a.schedule ∧
      (withDefault .unbounded retention (find "retainedJobs")).passed? = some a.retained ∧
      (withDefault true switch (find "cleanupExpiredJobs")).passed? = some a.evictExpired ∧
      (withDefault true switch (find "cleanupBeyondLimit")).passed? = some a.evictBeyondLimit := by
  rw [Archive.form, passed?_record_finder, Option.bind_eq_some_iff]
  refine exists_congr fun find => and_congr_right fun _ => ?_
  simp only [passed?_seq_iff, passed?_fmap_iff, passed?_field]
  constructor
  · rintro ⟨_, _, ⟨_, _, ⟨_, _, ⟨_, _, ⟨_, h₁, rfl⟩, h₂, rfl⟩, h₃, rfl⟩, h₄, rfl⟩, h₅, rfl⟩
    exact ⟨h₁, h₂, h₃, h₄, h₅⟩
  · rintro ⟨h₁, h₂, h₃, h₄, h₅⟩
    exact ⟨_, _, ⟨_, _, ⟨_, _, ⟨_, _, ⟨_, h₁, rfl⟩, h₂, rfl⟩, h₃, rfl⟩, h₄, rfl⟩, h₅, rfl⟩

theorem passed?_storage_iff {s : Storage} : (Storage.form v).passed? = some s ↔
    ∃ find, finder? v = some find ∧
      (withDefault Storage.initial.backend (oneOf backends) (find "backend")).passed? =
        some s.backend ∧
      (withDefault Storage.initial.directory filled (find "dir")).passed? = some s.directory ∧
      (withDefault Storage.initial.database filled (find "kvPath")).passed? = some s.database := by
  rw [Storage.form, passed?_record_finder, Option.bind_eq_some_iff]
  refine exists_congr fun find => and_congr_right fun _ => ?_
  simp only [passed?_seq_iff, passed?_fmap_iff, passed?_field]
  constructor
  · rintro ⟨_, _, ⟨_, _, ⟨_, h₁, rfl⟩, h₂, rfl⟩, h₃, rfl⟩
    exact ⟨h₁, h₂, h₃⟩
  · rintro ⟨h₁, h₂, h₃⟩
    exact ⟨_, _, ⟨_, _, ⟨_, h₁, rfl⟩, h₂, rfl⟩, h₃, rfl⟩

theorem passed?_objects_iff {o : ObjectAccess} : (ObjectAccess.form v).passed? = some o ↔
    ∃ find, finder? v = some find ∧
      (withDefault ObjectAccess.initial.region filled (find "region")).passed? = some o.region ∧
      (optional (insist string Url.isUrl .url) (find "endpoint")).passed? = some o.endpoint ∧
      (withDefault ObjectAccess.initial.pathStyle switch (find "forcePathStyle")).passed? =
        some o.pathStyle := by
  rw [ObjectAccess.form, passed?_record_finder, Option.bind_eq_some_iff]
  refine exists_congr fun find => and_congr_right fun _ => ?_
  simp only [passed?_seq_iff, passed?_fmap_iff, passed?_field]
  constructor
  · rintro ⟨_, _, ⟨_, _, ⟨_, h₁, rfl⟩, h₂, rfl⟩, h₃, rfl⟩
    exact ⟨h₁, h₂, h₃⟩
  · rintro ⟨h₁, h₂, h₃⟩
    exact ⟨_, _, ⟨_, _, ⟨_, h₁, rfl⟩, h₂, rfl⟩, h₃, rfl⟩

theorem passed?_logging_iff {l : Logging} : (Logging.form v).passed? = some l ↔
    ∃ find, finder? v = some find ∧
      (withDefault Logging.initial.level (oneOf levels) (find "level")).passed? = some l.level ∧
      (withDefault Logging.initial.pretty switch (find "pretty")).passed? = some l.pretty := by
  rw [Logging.form, passed?_record_finder, Option.bind_eq_some_iff]
  refine exists_congr fun find => and_congr_right fun _ => ?_
  simp only [passed?_seq_iff, passed?_fmap_iff, passed?_field]
  constructor
  · rintro ⟨_, _, ⟨_, h₁, rfl⟩, h₂, rfl⟩
    exact ⟨h₁, h₂⟩
  · rintro ⟨h₁, h₂⟩
    exact ⟨_, _, ⟨_, h₁, rfl⟩, h₂, rfl⟩

theorem passed?_form_iff {c : Config} : (form v).passed? = some c ↔
    ∃ find, finder? v = some find ∧
      (Archive.form (find "archive")).passed? = some c.archive ∧
      (withDefault Storage.initial Storage.form (find "storage")).passed? = some c.storage ∧
      (withDefault ObjectAccess.initial ObjectAccess.form (find "s3")).passed? = some c.objects ∧
      (withDefault Logging.initial Logging.form (find "logging")).passed? = some c.logging := by
  rw [form, passed?_record_finder, Option.bind_eq_some_iff]
  refine exists_congr fun find => and_congr_right fun _ => ?_
  simp only [passed?_seq_iff, passed?_fmap_iff, passed?_field]
  constructor
  · rintro ⟨_, _, ⟨_, _, ⟨_, _, ⟨_, h₁, rfl⟩, h₂, rfl⟩, h₃, rfl⟩, h₄, rfl⟩
    exact ⟨h₁, h₂, h₃, h₄⟩
  · rintro ⟨h₁, h₂, h₃, h₄⟩
    exact ⟨_, _, ⟨_, _, ⟨_, _, ⟨_, h₁, rfl⟩, h₂, rfl⟩, h₃, rfl⟩, h₄, rfl⟩

end ArchiveKeeper.Config
