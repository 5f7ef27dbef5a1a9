import ArchiveKeeper.Proofs.Job.Conversion

namespace ArchiveKeeper.Job

open Json

variable {job raw text : String} {members : List (Text × Value)} {name : String} {x : Double}
  {o : LegacyOverview} {w : WaitingTasks}

section Form

def timeNames : List String := ["start-time", "end-time", "duration", "last-modification"]

def countNames : List String :=
  ["total", "created", "scheduled", "deploying", "running", "finished", "canceling", "canceled",
    "failed", "reconciling", "initializing"]

def IsNumber (members : List (Text × Value)) (name : String) : Prop :=
  ∃ x, member? members name = some (.number x)

/-- Some members have the types of a job in the present form. -/
structure IsDetails (members : List (Text × Value)) : Prop where
  jid : ∃ s, member? members "jid" = some (.string s)
  name : ∃ s, member? members "name" = some (.string s)
  state : ∃ s : Status, member? members "state" = some (.str s.name)
  times : ∀ name ∈ timeNames, IsNumber members name
  tasks : ∃ tasks, member? members "tasks" = some (.object tasks) ∧
    ∀ name ∈ countNames, IsNumber tasks name

/-- A member is a time, up to the sign of zero; it is null in place of a time that is no finite
number. -/
def HasTime (members : List (Text × Value)) (name : String) (x : Double) : Prop :=
  (x.isFinite → HasPlain members name x) ∧ (¬ x.isFinite → member? members name = some .null)

/-- Some members tell of a job in the present form, as far as its times can be written. -/
structure ToldJob (members : List (Text × Value)) (o : LegacyOverview) (w : WaitingTasks) :
    Prop where
  jid : member? members "jid" = some (.str o.jid)
  name : member? members "name" = some (.string o.name)
  state : member? members "state" = some (.str o.state.name)
  startTime : HasTime members "start-time" o.startTime
  endTime : HasTime members "end-time" o.endTime
  duration : HasTime members "duration" o.duration
  lastModification : HasTime members "last-modification" o.lastModification
  tasks : ∃ tasks, member? members "tasks" = some (.object tasks) ∧ PresentTasks tasks o.tasks w

end Form

section Types

theorem HasPlain.isNumber (h : HasPlain members name x) : IsNumber members name := ⟨_, h⟩

theorem HasTime.isNumber_iff (h : HasTime members name x) : IsNumber members name ↔ x.isFinite := by
  refine ⟨fun ⟨y, hy⟩ => ?_, fun hfinite => (h.1 hfinite).isNumber⟩
  by_contra hinfinite
  rw [h.2 hinfinite] at hy
  cases hy

theorem PresentTasks.isNumber {t : LegacyTasks} (h : PresentTasks members t w) :
    ∀ name ∈ countNames, IsNumber members name := by
  simp only [countNames, List.forall_mem_cons, List.not_mem_nil, false_imp_iff, implies_true,
    and_true]
  exact ⟨h.total.isNumber, h.created.isNumber, h.scheduled.isNumber, h.deploying.isNumber,
    h.running.isNumber, h.finished.isNumber, h.canceling.isNumber, h.canceled.isNumber,
    h.failed.isNumber, h.reconciling.isNumber, h.initializing.isNumber⟩

/-- A job has the types of the present form exactly if its times could be written. -/
theorem ToldJob.isDetails_iff (h : ToldJob members o w) : IsDetails members ↔ FiniteTimes o := by
  have htimes : (∀ name ∈ timeNames, IsNumber members name) ↔ FiniteTimes o := by
    simp only [timeNames, List.forall_mem_cons, List.not_mem_nil, false_imp_iff, implies_true,
      and_true, h.startTime.isNumber_iff, h.endTime.isNumber_iff, h.duration.isNumber_iff,
      h.lastModification.isNumber_iff]
    exact ⟨fun ⟨hs, he, hd, hl⟩ => ⟨hs, he, hd, hl⟩,
      fun hf => ⟨hf.startTime, hf.endTime, hf.duration, hf.lastModification⟩⟩
  refine ⟨fun hdetails => htimes.mp hdetails.times, fun hfinite => ?_⟩
  obtain ⟨tasks, htasks, hcounts⟩ := h.tasks
  exact {
    jid := ⟨_, h.jid⟩
    name := ⟨_, h.name⟩
    state := ⟨_, h.state⟩
    times := htimes.mpr hfinite
    tasks := ⟨tasks, htasks, hcounts.isNumber⟩ }

theorem hasTime_asWritten (h : member? members name = some (Value.number x).asWritten) :
    HasTime members name x := by
  rw [Value.asWritten] at h
  refine ⟨fun hfinite => ?_, fun hinfinite => ?_⟩
  · rwa [if_pos hfinite] at h
  · rwa [if_neg hinfinite] at h

theorem toldJob (h : ReadTasks o.tasks w) : ToldJob (readMembers (jobOf o w)) o w := by
  constructor
  case tasks =>
    refine ⟨_, ?_, presentTasks h⟩
    unfold jobOf
    simp only [member?_cons, if_true, String.reduceEq, if_false, asWritten_tasksOf]
  all_goals
    try apply hasTime_asWritten
    unfold jobOf
    simp only [member?_cons, if_true, String.reduceEq, if_false]
  all_goals rfl

/-- What a legacy overview is converted to is read as one job of which it tells. -/
theorem told_of_read (hread : LegacyOverview.read job raw = .ok o)
    (hw : o.tasks.waiting? = some w) : ∃ details, Describes raw o ∧ Waits o.tasks w ∧
      Value.read? (o.present w).text = some (.record [("jobs", .array [.object details])]) ∧
      ToldJob details o w := by
  obtain ⟨o', hread', hdescribes⟩ | ⟨⟨reason, hread'⟩, -⟩ := read_cases job raw
  · obtain rfl : o' = o := Except.ok.inj (hread'.symm.trans hread)
    have hwaits := waiting?_eq_some_iff.mp hw
    obtain ⟨hreadable, hcounts⟩ := hdescribes.read hwaits
    refine ⟨readMembers (jobOf o' w), hdescribes, hwaits, ?_, toldJob hcounts⟩
    rw [read?_present hreadable hcounts, asWritten_jobOf]
  · cases hread'.symm.trans hread

theorem convert_eq_ok_iff : LegacyOverview.convert job raw = .ok text ↔ ∃ o w,
    LegacyOverview.read job raw = .ok o ∧ o.tasks.waiting? = some w ∧
      text = (o.present w).text := by
  unfold LegacyOverview.convert
  cases LegacyOverview.read job raw with
  | error e => simp
  | ok o => cases hw : o.tasks.waiting? <;> simp [hw, eq_comm]

end Types

/-- What a text is converted to is read as one job. Its counts are numbers, and its times are those
of the text as far as these are finite numbers; so it has the types of the present form exactly if
all of them are. -/
theorem conversion_typed (job : String) (h : LegacyOverview.convert job raw = .ok text) :
    ∃ o w details, Describes raw o ∧ Waits o.tasks w ∧
      Value.read? text = some (.record [("jobs", .array [.object details])]) ∧
      ToldJob details o w ∧ (IsDetails details ↔ FiniteTimes o) := by
  obtain ⟨o, w, hread, hw, rfl⟩ := convert_eq_ok_iff.mp h
  obtain ⟨details, hdescribes, hwaits, hjob, htold⟩ := told_of_read hread hw
  exact ⟨o, w, details, hdescribes, hwaits, hjob, htold, htold.isDetails_iff⟩

def oldJob : String := "00000000000000000000000000000001"

/-- The characters of a text of a job that is all zeros but for the time at which it started. -/
def oldChars (startTime : String) : List Char :=
  List.flatMap String.toList ["\x7b\"finished\":[\x7b\"jid\":\"", oldJob, "\",\"name\":\"\",",
    "\"state\":\"FINISHED\",", "\"start-time\":", startTime, ",\"end-time\":-0,", "\"duration\":0,",
    "\"last-modification\":0,", "\"tasks\":\x7b", "\"total\":0,", "\"pending\":0,", "\"running\":0,",
    "\"finished\":0,", "\"canceling\":0,", "\"canceled\":0,", "\"failed\":0\x7d\x7d]\x7d"]

def oldText (startTime : String) : String := String.ofList (oldChars startTime)

/-- The start time of a text that is read with complete counts. -/
def startTime? (job raw : String) : Option Double :=
  (LegacyOverview.read job raw).toOption.bind fun o => o.tasks.waiting?.map fun _ => o.startTime

theorem read_of_startTime? (h : startTime? job raw = some x) :
    ∃ o w, LegacyOverview.read job raw = .ok o ∧ o.tasks.waiting? = some w ∧ o.startTime = x := by
  obtain ⟨o, ho, h⟩ := Option.bind_eq_some_iff.mp h
  obtain ⟨w, hw, hx⟩ := Option.map_eq_some_iff.mp h
  refine ⟨o, w, ?_, hw, hx⟩
  cases hread : LegacyOverview.read job raw with
  | error e =>
    rw [hread] at ho
    cases ho
  | ok o' =>
    rw [hread] at ho
    cases ho
    rfl

theorem typed_oldText : ∃ text, LegacyOverview.convert oldJob (oldText "0.1e+309") = .ok text ∧
    ∃ o w details, Describes (oldText "0.1e+309") o ∧ Waits o.tasks w ∧
      Value.read? text = some (.record [("jobs", .array [.object details])]) ∧
      ToldJob details o w ∧ (IsDetails details ↔ FiniteTimes o) := by
  -- the text is a variable here, so that its characters need not be computed from it
  have started (raw : String) (h : raw.toList = oldChars "0.1e+309") :
      startTime? oldJob raw = some (.ofNat (10 ^ 308)) := by
    unfold startTime? LegacyOverview.read Value.read?
    rw [h]
    decide +kernel
  obtain ⟨o, w, hread, hw, -⟩ := read_of_startTime? (started _ String.toList_ofList)
  have converted := convert_eq_ok_iff.mpr ⟨o, w, hread, hw, rfl⟩
  exact ⟨_, converted, conversion_typed oldJob converted⟩

/-- A time beyond the largest number is not refused, but lost. -/
theorem endless_time_lost : ∃ text details,
    LegacyOverview.convert oldJob (oldText "1e400") = .ok text ∧
      Value.read? text = some (.record [("jobs", .array [.object details])]) ∧
      member? details "start-time" = some .null ∧ ¬ IsDetails details := by
  have started (raw : String) (h : raw.toList = oldChars "1e400") :
      startTime? oldJob raw = some (.infinite false) := by
    unfold startTime? LegacyOverview.read Value.read?
    rw [h]
    decide +kernel
  obtain ⟨o, w, hread, hw, hinfinite⟩ := read_of_startTime? (started _ String.toList_ofList)
  have hnot : ¬ o.startTime.isFinite := by
    rw [hinfinite]
    decide
  obtain ⟨details, -, -, hjob, htold⟩ := told_of_read hread hw
  refine ⟨_, details, convert_eq_ok_iff.mpr ⟨o, w, hread, hw, rfl⟩, hjob, htold.startTime.2 hnot, ?_⟩
  rw [htold.isDetails_iff]
  exact fun hfinite => hnot hfinite.startTime

end ArchiveKeeper.Job
