import ArchiveKeeper.Proofs.Job.LegacyForm
import ArchiveKeeper.Proofs.Overview.Merge

namespace ArchiveKeeper.Job

open Json

variable {raw : String} {members : List (Text × Value)} {x : Double} {o : LegacyOverview}
  {w : WaitingTasks}

section Form

/-- A member is a number, up to the sign of zero. -/
def HasPlain (members : List (Text × Value)) (name : String) (x : Double) : Prop :=
  member? members name = some (.number x.plain)

/-- Some members tell the counts of a job's tasks in the present form. -/
structure PresentTasks (members : List (Text × Value)) (t : LegacyTasks) (w : WaitingTasks) :
    Prop where
  total : HasPlain members "total" t.total
  created : HasPlain members "created" w.created
  scheduled : HasPlain members "scheduled" w.scheduled
  deploying : HasPlain members "deploying" w.deploying
  running : HasPlain members "running" t.running
  finished : HasPlain members "finished" t.finished
  canceling : HasPlain members "canceling" t.canceling
  canceled : HasPlain members "canceled" t.canceled
  failed : HasPlain members "failed" t.failed
  reconciling : HasPlain members "reconciling" .zero
  initializing : HasPlain members "initializing" .zero

/-- Some members tell of a job in the present form. -/
structure PresentJob (members : List (Text × Value)) (o : LegacyOverview) (w : WaitingTasks) :
    Prop where
  jid : member? members "jid" = some (.str o.jid)
  name : member? members "name" = some (.string o.name)
  state : member? members "state" = some (.str o.state.name)
  startTime : HasPlain members "start-time" o.startTime
  endTime : HasPlain members "end-time" o.endTime
  duration : HasPlain members "duration" o.duration
  lastModification : HasPlain members "last-modification" o.lastModification
  tasks : ∃ tasks, member? members "tasks" = some (.object tasks) ∧ PresentTasks tasks o.tasks w

/-- A text is a jobs overview with one job, and tells of it in the present form. -/
def Presents (text : String) (o : LegacyOverview) (w : WaitingTasks) : Prop :=
  ∃ job, Value.read? text = some (.record [("jobs", .array [.object job])]) ∧ PresentJob job o w

/-- The times of a job can be written. -/
structure FiniteTimes (o : LegacyOverview) : Prop where
  startTime : o.startTime.isFinite
  endTime : o.endTime.isFinite
  duration : o.duration.isFinite
  lastModification : o.lastModification.isFinite

end Form

section Reading

/-- The parts of a job that was read. -/
structure Readable (o : LegacyOverview) : Prop where
  name : o.name.Joined
  startTime : o.startTime.Proper
  endTime : o.endTime.Proper
  duration : o.duration.Proper
  lastModification : o.lastModification.Proper

theorem proper_member (h : (Value.object members).Proper) {name : String} {v : Value}
    (hv : member? members name = some v) : v.Proper := by
  obtain ⟨hd, -, hvalues⟩ := h.of_object
  exact hvalues _ ((Value.find?_eq_some_iff hd).mp hv)

theorem HasNumber.proper {name : String} (h : HasNumber members name x)
    (hproper : (Value.object members).Proper) : x.Proper := (proper_member hproper h.1).of_number

/-- A count that was read is a finite number of the format. -/
structure ReadCount (x : Double) : Prop where
  proper : x.Proper
  finite : x.isFinite

theorem readCount_zero : ReadCount .zero := ⟨Double.inFormat_zero, rfl⟩

theorem HasCount.read {name : String} (h : HasCount members name x)
    (hproper : (Value.object members).Proper) : ReadCount x :=
  ⟨(proper_member hproper h.1).of_number, h.2.isFinite⟩

theorem MayCount.read {name : String} {c : Option Double} (h : MayCount members name c)
    (hproper : (Value.object members).Proper) (hx : c = some x) : ReadCount x := by
  subst hx
  exact ⟨(proper_member hproper h.1).of_number, (h.2 x rfl).isFinite⟩

/-- The counts of a job's tasks, as the present form has them. -/
structure ReadTasks (t : LegacyTasks) (w : WaitingTasks) : Prop where
  total : ReadCount t.total
  created : ReadCount w.created
  scheduled : ReadCount w.scheduled
  deploying : ReadCount w.deploying
  running : ReadCount t.running
  finished : ReadCount t.finished
  canceling : ReadCount t.canceling
  canceled : ReadCount t.canceled
  failed : ReadCount t.failed

theorem TellTasks.read {t : LegacyTasks} (h : TellTasks members t)
    (hproper : (Value.object members).Proper) (hw : Waits t w) : ReadTasks t w := by
  have hwaiting : ReadCount w.created ∧ ReadCount w.scheduled ∧ ReadCount w.deploying := by
    rcases hw with ⟨pending, hpending, rfl⟩ | ⟨-, hcreated, hscheduled, hdeploying⟩
    · exact ⟨readCount_zero, h.pending.read hproper hpending, readCount_zero⟩
    · exact ⟨h.created.read hproper hcreated, h.scheduled.read hproper hscheduled,
        h.deploying.read hproper hdeploying⟩
  exact {
    total := h.total.read hproper
    created := hwaiting.1
    scheduled := hwaiting.2.1
    deploying := hwaiting.2.2
    running := h.running.read hproper
    finished := h.finished.read hproper
    canceling := h.canceling.read hproper
    canceled := h.canceled.read hproper
    failed := h.failed.read hproper }

theorem Describes.read (h : Describes raw o) (hw : Waits o.tasks w) :
    Readable o ∧ ReadTasks o.tasks w := by
  obtain ⟨members, job, rest, hread, hfinished, htell⟩ := h
  have hlist := proper_member (Value.proper_of_read? hread) hfinished
  have hjob : (Value.object job).Proper := hlist.of_array _ (List.mem_cons_self ..)
  obtain ⟨tasks, htasks, hcounts⟩ := htell.tasks
  exact ⟨{
    name := (proper_member hjob htell.name).of_string
    startTime := htell.startTime.proper hjob
    endTime := htell.endTime.proper hjob
    duration := htell.duration.proper hjob
    lastModification := htell.lastModification.proper hjob },
    hcounts.read (proper_member hjob htasks) hw⟩

end Reading

section Writing

def tasksOf (t : LegacyTasks) (w : WaitingTasks) : List (String × Value) := [
  ("total", .number t.total),
  ("created", .number w.created),
  ("scheduled", .number w.scheduled),
  ("deploying", .number w.deploying),
  ("running", .number t.running),
  ("finished", .number t.finished),
  ("canceling", .number t.canceling),
  ("canceled", .number t.canceled),
  ("failed", .number t.failed),
  ("reconciling", .number .zero),
  ("initializing", .number .zero)]

def jobOf (o : LegacyOverview) (w : WaitingTasks) : List (String × Value) := [
  ("jid", .str o.jid),
  ("name", .string o.name),
  ("start-time", .number o.startTime),
  ("end-time", .number o.endTime),
  ("duration", .number o.duration),
  ("state", .str o.state.name),
  ("last-modification", .number o.lastModification),
  ("tasks", .record (tasksOf o.tasks w))]

theorem present_eq (o : LegacyOverview) (w : WaitingTasks) :
    o.present w = .record [("jobs", .array [.record (jobOf o w)])] := rfl

theorem proper_tasksOf {t : LegacyTasks} (h : ReadTasks t w) :
    (Value.record (tasksOf t w)).Proper := by
  apply Value.Proper.record
  · change ["total", "created", "scheduled", "deploying", "running", "finished", "canceling",
      "canceled", "failed", "reconciling", "initializing"].Nodup
    decide
  · simp only [tasksOf, List.forall_mem_cons, List.not_mem_nil, false_imp_iff, implies_true,
      and_true]
    exact ⟨.number h.total.proper, .number h.created.proper, .number h.scheduled.proper,
      .number h.deploying.proper, .number h.running.proper, .number h.finished.proper,
      .number h.canceling.proper, .number h.canceled.proper, .number h.failed.proper,
      .number readCount_zero.proper, .number readCount_zero.proper⟩

theorem proper_jobOf (h : Readable o) (ht : ReadTasks o.tasks w) :
    (Value.record (jobOf o w)).Proper := by
  apply Value.Proper.record
  · change ["jid", "name", "start-time", "end-time", "duration", "state", "last-modification",
      "tasks"].Nodup
    decide
  · simp only [jobOf, List.forall_mem_cons, List.not_mem_nil, false_imp_iff, implies_true,
      and_true]
    exact ⟨.string (Text.joined_ofString _), .string h.name, .number h.startTime,
      .number h.endTime, .number h.duration, .string (Text.joined_ofString _),
      .number h.lastModification, proper_tasksOf ht⟩

theorem read?_present (h : Readable o) (ht : ReadTasks o.tasks w) :
    Value.read? (o.present w).text =
      some (.record [("jobs", .array [(Value.record (jobOf o w)).asWritten])]) := by
  have hproper : (o.present w).Proper := by
    rw [present_eq]
    apply Value.Proper.record
    · exact List.nodup_singleton _
    · exact List.forall_mem_singleton.mpr
        (.array (List.forall_mem_singleton.mpr (proper_jobOf h ht)))
  rw [Value.read?_text hproper, present_eq, Overview.asWritten_jobs]
  rfl

/-- The members of a record as they are read from its text. -/
def readMembers (ms : List (String × Value)) : List (Text × Value) :=
  ms.map fun m => (Text.ofString m.1, m.2.asWritten)

theorem asWritten_record {ms : List (String × Value)}
    (hi : ∀ name ∈ ms.map Prod.fst, (Text.ofString name).index? = none) :
    (Value.record ms).asWritten = .object (readMembers ms) := by
  rw [Value.asWritten_record hi, Value.record, List.map_map]
  rfl

theorem asWritten_tasksOf {t : LegacyTasks} : (Value.record (tasksOf t w)).asWritten =
    .object (readMembers (tasksOf t w)) := by
  apply asWritten_record
  change ∀ name ∈ ["total", "created", "scheduled", "deploying", "running", "finished", "canceling",
    "canceled", "failed", "reconciling", "initializing"], (Text.ofString name).index? = none
  decide

theorem asWritten_jobOf : (Value.record (jobOf o w)).asWritten =
    .object (readMembers (jobOf o w)) := by
  apply asWritten_record
  change ∀ name ∈ ["jid", "name", "start-time", "end-time", "duration", "state",
    "last-modification", "tasks"], (Text.ofString name).index? = none
  decide

theorem member?_cons (key name : String) (v : Value) (ms : List (String × Value)) :
    member? (readMembers ((key, v) :: ms)) name =
      if key = name then some v.asWritten else member? (readMembers ms) name :=
  Value.find?_ofString_cons name key v.asWritten (readMembers ms)

theorem asWritten_number (h : x.isFinite) : (Value.number x).asWritten = .number x.plain := by
  rw [Value.asWritten, if_pos h]

theorem presentTasks {t : LegacyTasks} (h : ReadTasks t w) :
    PresentTasks (readMembers (tasksOf t w)) t w := by
  constructor
  all_goals
    unfold HasPlain tasksOf
    simp only [member?_cons, if_true, String.reduceEq, if_false, Option.some.injEq]
  · exact asWritten_number h.total.finite
  · exact asWritten_number h.created.finite
  · exact asWritten_number h.scheduled.finite
  · exact asWritten_number h.deploying.finite
  · exact asWritten_number h.running.finite
  · exact asWritten_number h.finished.finite
  · exact asWritten_number h.canceling.finite
  · exact asWritten_number h.canceled.finite
  · exact asWritten_number h.failed.finite
  · exact asWritten_number readCount_zero.finite
  · exact asWritten_number readCount_zero.finite

theorem presentJob (h : ReadTasks o.tasks w) (hfinite : FiniteTimes o) :
    PresentJob (readMembers (jobOf o w)) o w := by
  constructor
  all_goals
    try unfold HasPlain
    unfold jobOf
    simp only [member?_cons, if_true, String.reduceEq, if_false, Option.some.injEq]
  · rfl
  · rfl
  · rfl
  · exact asWritten_number hfinite.startTime
  · exact asWritten_number hfinite.endTime
  · exact asWritten_number hfinite.duration
  · exact asWritten_number hfinite.lastModification
  · exact ⟨_, asWritten_tasksOf, presentTasks h⟩

theorem presents_present (h : Readable o) (ht : ReadTasks o.tasks w) (hfinite : FiniteTimes o) :
    Presents (o.present w).text o w := by
  refine ⟨readMembers (jobOf o w), ?_, presentJob ht hfinite⟩
  rw [read?_present h ht, asWritten_jobOf]

end Writing

section Conversion

theorem read_present (h : Readable o) (ht : ReadTasks o.tasks w) :
    ∃ listed, Overview.read (o.present w).text = .ok [listed] ∧
      listed.id = Text.ofString o.jid := by
  obtain ⟨e, he⟩ : ∃ e, e = Overview.Entry.mk (Text.ofString o.jid) (readMembers (jobOf o w)) :=
    ⟨_, rfl⟩
  have hentry : Overview.Entry.ofValue? (Value.record (jobOf o w)).asWritten = some e := by
    have hjid : Value.find? Overview.idName (readMembers (jobOf o w)) = some (.str o.jid) := by
      change member? (readMembers (jobOf o w)) "jid" = _
      unfold jobOf
      rw [member?_cons, if_pos rfl]
      rfl
    rw [asWritten_jobOf, he]
    change (Value.find? Overview.idName (readMembers (jobOf o w))).bind _ = _
    rw [hjid]
    rfl
  have hentries : Overview.entries? (o.present w).text = some [e] := by
    rw [Overview.entries?, read?_present h ht, Option.bind_some, Overview.entriesOf?_jobs,
      List.mapM_cons, hentry]
    rfl
  refine ⟨e.listed, Overview.read_of_entries? hentries, ?_⟩
  rw [he]
  rfl

/-- A text is converted exactly if it describes a job whose tasks that wait are known, and is refused
as malformed otherwise. What it is converted to is an overview that the combined one takes over; if
its times can be written, it tells the same of the job, and of no other job. -/
theorem conversion_exact (job raw : String) :
    match LegacyOverview.convert job raw with
    | .ok text => ∃ o w, Describes raw o ∧ Waits o.tasks w ∧
        (FiniteTimes o → Presents text o w) ∧
        ∃ listed, Overview.read text = .ok [listed] ∧ listed.id = Text.ofString o.jid
    | .error e => (∃ reason, e = .malformed job reason) ∧
        ∀ o w, Describes raw o → ¬ Waits o.tasks w := by
  unfold LegacyOverview.convert
  rcases read_cases job raw with ⟨o, hread, hdescribes⟩ | ⟨⟨reason, hread⟩, hnone⟩
  · rw [hread]
    dsimp only
    cases hw : o.tasks.waiting? with
    | none =>
      refine ⟨⟨_, rfl⟩, fun o' w hdescribes' hwaits => ?_⟩
      rw [hdescribes'.unique hdescribes, ← waiting?_eq_some_iff, hw] at hwaits
      cases hwaits
    | some w =>
      have hwaits := waiting?_eq_some_iff.mp hw
      obtain ⟨hreadable, hcounts⟩ := hdescribes.read hwaits
      exact ⟨o, w, hdescribes, hwaits, presents_present hreadable hcounts,
        read_present hreadable hcounts⟩
  · rw [hread]
    exact ⟨⟨reason, rfl⟩, fun o w hdescribes _ => hnone o hdescribes⟩

end Conversion

end ArchiveKeeper.Job
