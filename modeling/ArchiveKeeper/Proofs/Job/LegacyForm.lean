import ArchiveKeeper.Job.LegacyOverview
import ArchiveKeeper.Proofs.Check
import ArchiveKeeper.Proofs.Number.Value

namespace ArchiveKeeper

namespace Json.Text

/-- Only half of a pair has the replacement character for its own. -/
theorem eq_ofString {t : Text} (h : ∀ c ∈ t.toString.toList, c ≠ '\uFFFD') :
    t = ofString t.toString := by
  unfold toString at h ⊢
  rw [String.toList_ofList] at h
  unfold ofString
  rw [String.toList_ofList, List.map_map]
  refine (List.map_id t).symm.trans (List.map_congr_left fun r hr => ?_)
  cases r with
  | char c => rfl
  | half offset => exact absurd rfl (h '\uFFFD' (List.mem_map_of_mem hr))

end Json.Text

namespace Job

open Json Check

variable {members : List (Text × Value)} {v : Option Value} {x : Double}

def member? (members : List (Text × Value)) (name : String) : Option Value :=
  Value.find? (Text.ofString name) members

section Form

def HasNumber (members : List (Text × Value)) (name : String) (x : Double) : Prop :=
  member? members name = some (.number x) ∧ x ≠ .nan

def HasCount (members : List (Text × Value)) (name : String) (x : Double) : Prop :=
  member? members name = some (.number x) ∧ x.Counts

def MayCount (members : List (Text × Value)) (name : String) (x : Option Double) : Prop :=
  member? members name = x.map .number ∧ ∀ c ∈ x, c.Counts

/-- Some members tell the counts of a job's tasks in the legacy form. -/
structure TellTasks (members : List (Text × Value)) (t : LegacyTasks) : Prop where
  total : HasCount members "total" t.total
  pending : MayCount members "pending" t.pending
  created : MayCount members "created" t.created
  scheduled : MayCount members "scheduled" t.scheduled
  deploying : MayCount members "deploying" t.deploying
  running : HasCount members "running" t.running
  finished : HasCount members "finished" t.finished
  canceling : HasCount members "canceling" t.canceling
  canceled : HasCount members "canceled" t.canceled
  failed : HasCount members "failed" t.failed

/-- Some members tell of a job in the legacy form. -/
structure TellJob (members : List (Text × Value)) (o : LegacyOverview) : Prop where
  jid : member? members "jid" = some (.str o.jid) ∧ isId o.jid
  name : member? members "name" = some (.string o.name)
  state : member? members "state" = some (.str o.state.name)
  startTime : HasNumber members "start-time" o.startTime
  endTime : HasNumber members "end-time" o.endTime
  duration : HasNumber members "duration" o.duration
  lastModification : HasNumber members "last-modification" o.lastModification
  tasks : ∃ tasks, member? members "tasks" = some (.object tasks) ∧ TellTasks tasks o.tasks

/-- A text describes a job: it is an object with a list of what is finished, and the first item of
this list tells of the job. -/
def Describes (raw : String) (o : LegacyOverview) : Prop :=
  ∃ members job rest, Value.read? raw = some (.object members) ∧
    member? members "finished" = some (.array (.object job :: rest)) ∧ TellJob job o

/-- The tasks that wait: all that were counted as pending are scheduled, else each kind has to be
counted. -/
def Waits (t : LegacyTasks) (w : WaitingTasks) : Prop :=
  (∃ pending, t.pending = some pending ∧ w = ⟨.zero, pending, .zero⟩) ∨
    t.pending = none ∧ t.created = some w.created ∧ t.scheduled = some w.scheduled ∧
      t.deploying = some w.deploying

theorem waiting?_eq_some_iff {t : LegacyTasks} {w : WaitingTasks} :
    t.waiting? = some w ↔ Waits t w := by
  obtain ⟨total, pending, created, scheduled, deploying, running, finished, canceling, canceled,
    failed⟩ := t
  obtain ⟨wcreated, wscheduled, wdeploying⟩ := w
  cases pending with
  | some pending => simp [LegacyTasks.waiting?, Waits, eq_comm]
  | none =>
    cases created <;> cases scheduled <;> cases deploying <;>
      simp [LegacyTasks.waiting?, Waits]

end Form

section Fields

theorem bind_number?_eq_some : v.bind Value.number? = some x ↔ v = some (.number x) := by
  simp only [Option.bind_eq_some_iff, Value.number?_eq_some_iff, exists_eq_right]

theorem bind_text?_eq_some {s : Text} : v.bind Value.text? = some s ↔ v = some (.string s) := by
  simp only [Option.bind_eq_some_iff, Value.text?_eq_some_iff, exists_eq_right]

theorem bind_items?_eq_some {items : List Value} :
    v.bind Value.items? = some items ↔ v = some (.array items) := by
  simp only [Option.bind_eq_some_iff, Value.items?_eq_some_iff, exists_eq_right]

theorem passed?_number_iff : (number v).passed? = some x ↔ v = some (.number x) ∧ x ≠ .nan := by
  rw [passed?_number, Option.filter_eq_some_iff, bind_number?_eq_some]
  simp

theorem passed?_count_iff : (count v).passed? = some x ↔ v = some (.number x) ∧ x.Counts := by
  have hnan : x.Counts → x ≠ .nan := by
    rintro h rfl
    cases h.isFinite
  unfold count
  rw [passed?_insist_check, Option.filter_eq_some_iff, passed?_insist_check,
    Option.filter_eq_some_iff, passed?_number_iff, Double.counts_iff] at *
  simp only [Bool.not_eq_true', and_assoc]
  tauto

theorem passed?_optional_iff {x : Option Double} : (optional count v).passed? = some x ↔
    v = x.map .number ∧ ∀ c ∈ x, c.Counts := by
  rw [passed?_optional]
  cases v with
  | none => cases x <;> simp
  | some v =>
    cases x with
    | none => simp
    | some x =>
      have h := passed?_count_iff (v := some v) (x := x)
      simpa using h

theorem passed?_text_iff {s : Text} : (text v).passed? = some s ↔ v = some (.string s) := by
  rw [passed?_text, bind_text?_eq_some]

theorem passed?_id_iff {jid : String} {cause : Cause} :
    (insist string isId cause v).passed? = some jid ↔ v = some (.str jid) ∧ isId jid := by
  rw [passed?_insist_check, Option.filter_eq_some_iff, passed?_string, Option.map_eq_some_iff]
  constructor
  · rintro ⟨⟨t, ht, rfl⟩, hid⟩
    have hdigits : t = Text.ofString t.toString := by
      apply Text.eq_ofString
      rintro c hc rfl
      simp only [isId, Bool.and_eq_true, List.all_eq_true] at hid
      exact absurd (hid.2 _ hc) (by decide)
    rw [bind_text?_eq_some.mp ht, Value.str, ← hdigits]
    exact ⟨rfl, hid⟩
  · rintro ⟨rfl, hid⟩
    exact ⟨⟨Text.ofString jid, rfl, Text.toString_ofString jid⟩, hid⟩

theorem Status.mem_all (s : Status) : s ∈ Status.all := by
  cases s <;> decide

theorem Status.name_injective {s s' : Status} (h : s.name = s'.name) : s = s' := by
  have hnodup : (Status.all.map Status.name).Nodup := by decide
  exact List.inj_on_of_nodup_map hnodup (mem_all s) (mem_all s') h

theorem passed?_state_iff {s : Status} :
    (oneOf (Status.all.map fun s => (s.name, s)) v).passed? = some s ↔ v = some (.str s.name) := by
  rcases v with _ | v
  · simp [oneOf]
  cases v with
  | string t =>
    simp only [oneOf, Visible.see, Value.str, Option.some.injEq, Value.string.injEq]
    have hmem (s : Status) : (s.name, s) ∈ Status.all.map fun s => (s.name, s) :=
      List.mem_map_of_mem (Status.mem_all s)
    cases hfind : (Status.all.map fun s => (s.name, s)).find? fun o => Text.ofString o.1 = t with
    | none =>
      have hnone := List.find?_eq_none.mp hfind (s.name, s) (hmem s)
      simp only [Verdict.passed?_refuse, reduceCtorEq, false_iff]
      simpa [eq_comm] using hnone
    | some o =>
      obtain ⟨s', -, rfl⟩ := List.mem_map.mp (List.mem_of_find?_eq_some hfind)
      have hname : Text.ofString s'.name = t := by simpa using List.find?_some hfind
      simp only [Verdict.passed?_pure, Option.some.injEq, ← hname]
      constructor
      · rintro rfl
        rfl
      · intro he
        exact Status.name_injective (Text.ofString_injective he)
  | _ => simp [oneOf, Visible.see, Value.str]

end Fields

section Checks

theorem passed?_hasCount {name : String} :
    (field name count (member? members)).passed? = some x ↔ HasCount members name x := by
  rw [passed?_field, passed?_count_iff]
  rfl

theorem passed?_mayCount {name : String} {x : Option Double} :
    (field name (optional count) (member? members)).passed? = some x ↔ MayCount members name x := by
  rw [passed?_field, passed?_optional_iff]
  rfl

theorem passed?_hasNumber {name : String} :
    (field name number (member? members)).passed? = some x ↔ HasNumber members name x := by
  rw [passed?_field, passed?_number_iff]
  rfl

theorem passed?_members {α : Type} (parts : (String → Option Value) → Verdict α) :
    (record parts (some (.object members))).passed? = (parts (member? members)).passed? := rfl

theorem passed?_tasks_iff {t : LegacyTasks} :
    (LegacyTasks.check (some (.object members))).passed? = some t ↔ TellTasks members t := by
  unfold LegacyTasks.check
  rw [passed?_members]
  constructor
  · intro h
    obtain ⟨_, _, h₁, hfailed, rfl⟩ := Verdict.passed?_seq_iff.mp h
    obtain ⟨_, _, h₂, hcanceled, rfl⟩ := Verdict.passed?_seq_iff.mp h₁
    obtain ⟨_, _, h₃, hcanceling, rfl⟩ := Verdict.passed?_seq_iff.mp h₂
    obtain ⟨_, _, h₄, hfinished, rfl⟩ := Verdict.passed?_seq_iff.mp h₃
    obtain ⟨_, _, h₅, hrunning, rfl⟩ := Verdict.passed?_seq_iff.mp h₄
    obtain ⟨_, _, h₆, hdeploying, rfl⟩ := Verdict.passed?_seq_iff.mp h₅
    obtain ⟨_, _, h₇, hscheduled, rfl⟩ := Verdict.passed?_seq_iff.mp h₆
    obtain ⟨_, _, h₈, hcreated, rfl⟩ := Verdict.passed?_seq_iff.mp h₇
    obtain ⟨_, _, h₉, hpending, rfl⟩ := Verdict.passed?_seq_iff.mp h₈
    obtain ⟨_, htotal, rfl⟩ := Verdict.passed?_fmap_iff.mp h₉
    exact {
      total := passed?_hasCount.mp htotal
      pending := passed?_mayCount.mp hpending
      created := passed?_mayCount.mp hcreated
      scheduled := passed?_mayCount.mp hscheduled
      deploying := passed?_mayCount.mp hdeploying
      running := passed?_hasCount.mp hrunning
      finished := passed?_hasCount.mp hfinished
      canceling := passed?_hasCount.mp hcanceling
      canceled := passed?_hasCount.mp hcanceled
      failed := passed?_hasCount.mp hfailed }
  · intro h
    simp only [Verdict.passed?_seq, Verdict.passed?_fmap, passed?_hasCount.mpr h.total,
      passed?_mayCount.mpr h.pending, passed?_mayCount.mpr h.created,
      passed?_mayCount.mpr h.scheduled, passed?_mayCount.mpr h.deploying,
      passed?_hasCount.mpr h.running, passed?_hasCount.mpr h.finished,
      passed?_hasCount.mpr h.canceling, passed?_hasCount.mpr h.canceled,
      passed?_hasCount.mpr h.failed]
    rfl

theorem passed?_tasks_member {t : LegacyTasks} :
    (field "tasks" LegacyTasks.check (member? members)).passed? = some t ↔
      ∃ tasks, member? members "tasks" = some (.object tasks) ∧ TellTasks tasks t := by
  rw [passed?_field]
  constructor
  · intro h
    obtain ⟨tasks, htasks⟩ : ∃ tasks, member? members "tasks" = some (.object tasks) := by
      unfold LegacyTasks.check at h
      rw [passed?_record] at h
      obtain ⟨tasks, htasks, -⟩ := Option.bind_eq_some_iff.mp h
      obtain ⟨v, hv, hmembers⟩ := Option.bind_eq_some_iff.mp htasks
      rw [Value.members?_eq_some_iff.mp hmembers] at hv
      exact ⟨tasks, hv⟩
    rw [htasks] at h
    exact ⟨tasks, htasks, passed?_tasks_iff.mp h⟩
  · rintro ⟨tasks, htasks, h⟩
    rw [htasks]
    exact passed?_tasks_iff.mpr h

theorem passed?_job_iff {o : LegacyOverview} :
    (LegacyOverview.check (some (.object members))).passed? = some o ↔ TellJob members o := by
  unfold LegacyOverview.check
  rw [passed?_members]
  constructor
  · intro h
    obtain ⟨_, _, h₁, htasks, rfl⟩ := Verdict.passed?_seq_iff.mp h
    obtain ⟨_, _, h₂, hlast, rfl⟩ := Verdict.passed?_seq_iff.mp h₁
    obtain ⟨_, _, h₃, hduration, rfl⟩ := Verdict.passed?_seq_iff.mp h₂
    obtain ⟨_, _, h₄, hend, rfl⟩ := Verdict.passed?_seq_iff.mp h₃
    obtain ⟨_, _, h₅, hstart, rfl⟩ := Verdict.passed?_seq_iff.mp h₄
    obtain ⟨_, _, h₆, hstate, rfl⟩ := Verdict.passed?_seq_iff.mp h₅
    obtain ⟨_, _, h₇, hname, rfl⟩ := Verdict.passed?_seq_iff.mp h₆
    obtain ⟨_, hjid, rfl⟩ := Verdict.passed?_fmap_iff.mp h₇
    rw [passed?_field] at hjid hname hstate
    exact {
      jid := passed?_id_iff.mp hjid
      name := passed?_text_iff.mp hname
      state := passed?_state_iff.mp hstate
      startTime := passed?_hasNumber.mp hstart
      endTime := passed?_hasNumber.mp hend
      duration := passed?_hasNumber.mp hduration
      lastModification := passed?_hasNumber.mp hlast
      tasks := passed?_tasks_member.mp htasks }
  · intro h
    have hjid := (@passed?_id_iff _ _ (.rule "not a valid job id")).mpr h.jid
    simp only [Verdict.passed?_seq, Verdict.passed?_fmap, passed?_field, hjid,
      passed?_text_iff.mpr h.name, passed?_state_iff.mpr h.state]
    simp only [← passed?_field, passed?_hasNumber.mpr h.startTime, passed?_hasNumber.mpr h.endTime,
      passed?_hasNumber.mpr h.duration, passed?_hasNumber.mpr h.lastModification,
      passed?_tasks_member.mpr h.tasks]
    rfl

theorem object_of_passed?_job {o : LegacyOverview}
    (h : (LegacyOverview.check v).passed? = some o) :
    ∃ job, v = some (.object job) ∧ TellJob job o := by
  have hrecord := h
  unfold LegacyOverview.check at hrecord
  rw [passed?_record] at hrecord
  obtain ⟨job, hjob, -⟩ := Option.bind_eq_some_iff.mp hrecord
  obtain ⟨w, rfl, hmembers⟩ := Option.bind_eq_some_iff.mp hjob
  obtain rfl := Value.members?_eq_some_iff.mp hmembers
  exact ⟨job, rfl, passed?_job_iff.mp h⟩

theorem mapM_anything (items : List Value) :
    (items.mapM fun v => (anything (some v) : Verdict Value).passed?) = some items := by
  induction items with
  | nil => rfl
  | cons v items ih =>
    rw [List.mapM_cons, ih]
    rfl

theorem passed?_listed_iff {v : Value} {items : List Value} :
    (LegacyOverview.listed (some v)).passed? = some items ↔ ∃ members, v = .object members ∧
      member? members "finished" = some (.array items) ∧ items ≠ [] := by
  unfold LegacyOverview.listed
  rw [passed?_record, Option.bind_some]
  cases v with
  | object members =>
    change (field "finished" _ (member? members)).passed? = _ ↔ _
    rw [passed?_field, passed?_insist_check, Option.filter_eq_some_iff, passed?_listOf]
    simp only [mapM_anything, Option.bind_fun_some, bind_items?_eq_some]
    simp
  | _ => simp [Value.members?]

end Checks

section Reading

variable {raw : String} {o o' : LegacyOverview}

/-- A text that describes no job is refused, as one of its job that is malformed. -/
theorem read_cases (job raw : String) :
    (∃ o, LegacyOverview.read job raw = .ok o ∧ Describes raw o) ∨
      (∃ reason, LegacyOverview.read job raw = .error (.malformed job reason)) ∧
        ∀ o, ¬ Describes raw o := by
  -- each check that refuses is an equivalence, so a job that the text described would have
  -- passed it
  unfold LegacyOverview.read
  cases hv : Value.read? raw with
  | none =>
    refine .inr ⟨⟨_, rfl⟩, fun o hdescribes => ?_⟩
    obtain ⟨members, first, rest, hread, -, -⟩ := hdescribes
    rw [hv] at hread
    cases hread
  | some v =>
    dsimp only
    cases hlisted : (LegacyOverview.listed (some v)).passed? with
    | none =>
      rw [Verdict.toExcept_eq_error hlisted]
      refine .inr ⟨⟨_, rfl⟩, fun o hdescribes => ?_⟩
      obtain ⟨members, first, rest, hread, hfinished, -⟩ := hdescribes
      rw [hv] at hread
      have hpassed := passed?_listed_iff.mpr
        ⟨members, Option.some.inj hread, hfinished, List.cons_ne_nil _ _⟩
      rw [hlisted] at hpassed
      cases hpassed
    | some jobs =>
      rw [Verdict.toExcept_eq_ok_iff.mpr hlisted]
      obtain ⟨members, rfl, hfinished, -⟩ := passed?_listed_iff.mp hlisted
      dsimp only
      cases hjob : (LegacyOverview.check jobs.head?).passed? with
      | none =>
        rw [Verdict.toExcept_eq_error hjob]
        refine .inr ⟨⟨_, rfl⟩, fun o hdescribes => ?_⟩
        obtain ⟨members', first, rest, hread, hfinished', htell⟩ := hdescribes
        rw [hv] at hread
        cases hread
        rw [hfinished] at hfinished'
        cases hfinished'
        have hpassed := passed?_job_iff.mpr htell
        rw [List.head?_cons, hpassed] at hjob
        cases hjob
      | some o =>
        rw [Verdict.toExcept_eq_ok_iff.mpr hjob]
        obtain ⟨first, hfirst, htell⟩ := object_of_passed?_job hjob
        obtain ⟨rest, rfl⟩ := List.head?_eq_some_iff.mp hfirst
        exact .inl ⟨o, rfl, members, first, rest, hv, hfinished, htell⟩

theorem Describes.unique (h : Describes raw o) (h' : Describes raw o') :
    o = o' := by
  obtain ⟨members, job, rest, hread, hfinished, htell⟩ := h
  obtain ⟨members', job', rest', hread', hfinished', htell'⟩ := h'
  rw [hread] at hread'
  cases hread'
  rw [hfinished] at hfinished'
  cases hfinished'
  have hpassed := passed?_job_iff.mpr htell
  rw [passed?_job_iff.mpr htell'] at hpassed
  exact (Option.some.inj hpassed).symm

end Reading

end Job

end ArchiveKeeper
