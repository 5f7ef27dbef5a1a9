import ArchiveKeeper.Proofs.Store.Reopening

namespace ArchiveKeeper.Store

variable {lasting : Bool} {job json : String} {c : Contents} {request : Request} {use : Use}
  {uses : List Use}

def Use.Drops (lasting : Bool) (job : String) : Use → Prop
  | .ask .reset => True
  | .ask (.delete job') | .ask (.deleteOverview job') => job' = job
  | .close => ¬ lasting
  | .ask (.put ..) | .ask (.get _) | .ask (.holds _) | .ask .listOverviews | .ask (.publish _) => False

/-- A use neither does away with the overview of a job nor puts another one in its place. -/
def Use.Leaves (lasting : Bool) (job : String) (use : Use) : Prop :=
  ¬ use.Drops lasting job ∧ ∀ json, use ≠ .ask (.put job Job.overviewPath json)

/-- A job has put an overview, and it was neither deleted nor put anew since. -/
def Stands (lasting : Bool) (job json : String) (uses : List Use) : Prop :=
  ∃ before after, uses = before ++ .ask (.put job Job.overviewPath json) :: after ∧
    ∀ use ∈ after, use.Leaves lasting job

theorem not_stands_nil : ¬ Stands lasting job json [] := by
  rintro ⟨before, after, huses, -⟩
  simp at huses

theorem stands_concat : Stands lasting job json (uses ++ [use]) ↔
    use = .ask (.put job Job.overviewPath json) ∨
      Stands lasting job json uses ∧ use.Leaves lasting job := by
  constructor
  · rintro ⟨before, after, huses, hafter⟩
    rcases List.eq_nil_or_concat after with rfl | ⟨after, last, rfl⟩
    · exact .inl (List.cons.inj (List.append_inj' huses rfl).2).1
    · rw [List.concat_eq_append, ← List.cons_append, ← List.append_assoc] at huses
      obtain ⟨rfl, hlast⟩ := List.append_inj' huses rfl
      obtain rfl := (List.cons.inj hlast).1
      exact .inr ⟨⟨before, after, rfl, fun use' h => hafter use' (by simp [h])⟩,
        hafter use (by simp)⟩
  · rintro (rfl | ⟨⟨before, after, rfl, hafter⟩, hleaves⟩)
    · exact ⟨uses, [], rfl, by simp⟩
    · refine ⟨before, after ++ [use], by simp, fun use' h => ?_⟩
      rcases List.mem_append.mp h with h | h
      · exact hafter use' h
      · exact List.mem_singleton.mp h ▸ hleaves

theorem Stands.isId (h : Stands lasting job json uses) (about : ∀ use ∈ uses, use.AboutJobs) :
    Job.isId job := by
  obtain ⟨before, after, rfl, -⟩ := h
  exact about (.ask (.put job Job.overviewPath json)) (by simp)

theorem shelf_after_put {job' path json' : String} :
    (c.after (.put job' path json')).shelf job Job.overviewPath =
      if job' = job ∧ path = Job.overviewPath then some json'
      else c.shelf job Job.overviewPath := by
  by_cases hput : job' = job ∧ path = Job.overviewPath
  · obtain ⟨rfl, rfl⟩ := hput
    rw [if_pos ⟨rfl, rfl⟩, Contents.after, if_pos Job.owns_overviewPath, Contents.shelf_stock,
      if_pos rfl, Shelf.file, if_pos rfl]
  · rw [if_neg hput, Contents.after]
    split
    · rw [Contents.shelf_stock]
      split
      · rename_i hjob
        subst hjob
        rw [Shelf.file, if_neg fun h => hput ⟨rfl, h.symm⟩]
      · rfl
    · rfl

theorem shelf_after_iff (lasting : Bool) :
    (c.after request).shelf job Job.overviewPath = some json ↔
      Use.ask request = .ask (.put job Job.overviewPath json) ∨
        c.shelf job Job.overviewPath = some json ∧ (Use.ask request).Leaves lasting job := by
  cases request with
  | reset => simp [Contents.after, Contents.empty, Shelf.empty, Use.Leaves, Use.Drops]
  | put job' path json' =>
    rw [shelf_after_put]
    by_cases hput : job' = job ∧ path = Job.overviewPath
    · obtain ⟨rfl, rfl⟩ := hput
      simp [Use.Leaves]
    · have hleaves : (Use.ask (.put job' path json')).Leaves lasting job := by
        refine ⟨id, fun json h => hput ?_⟩
        cases h
        exact ⟨rfl, rfl⟩
      have hne : Use.ask (.put job' path json') ≠ .ask (.put job Job.overviewPath json) :=
        hleaves.2 json
      simp [hput, hleaves, hne]
  | delete job' =>
    by_cases hjob : job' = job
    · simp [Contents.after, Contents.shelf_stock, Shelf.empty, Use.Leaves, Use.Drops, hjob]
    · simp [Contents.after, Contents.shelf_stock, Use.Leaves, Use.Drops, hjob, Ne.symm hjob]
  | deleteOverview job' =>
    by_cases hjob : job' = job
    · simp [Contents.after, Contents.shelf_stock, Shelf.drop, Use.Leaves, Use.Drops, hjob]
    · simp [Contents.after, Contents.shelf_stock, Use.Leaves, Use.Drops, hjob, Ne.symm hjob]
  | get | holds | listOverviews | publish => simp [Contents.after, Use.Leaves, Use.Drops]

namespace Database

open Files Keyed

variable {place : Place} {base : Path} {text : String} {files : Tree} {t t' : Table} {w : World}

def tableUsed (lasting : Bool) (t : Table) : Use → Table
  | .ask request => tableAfter t request
  | .close => if lasting then t else []

theorem Ready.used (h : Ready t) (about : use.AboutJobs) : Ready (tableUsed lasting t use) := by
  cases use with
  | ask request => exact h.after about
  | close =>
    rw [tableUsed]
    split
    · exact h
    · exact .nil

theorem Ready.shelf_used (h : Ready t) (about : use.AboutJobs) (hj : Job.isId job) :
    shelf job (tableUsed lasting t use) Job.overviewPath = some json ↔
      use = .ask (.put job Job.overviewPath json) ∨
        shelf job t Job.overviewPath = some json ∧ use.Leaves lasting job := by
  cases use with
  | ask request =>
    have hsame : (contents t).Alike (contents t) := ⟨fun _ _ => rfl, rfl⟩
    have hshelf := (alike_after h hsame about).shelf job hj
    change (contents (tableAfter t request)).shelf job Job.overviewPath = some json ↔ _
    rw [hshelf]
    exact shelf_after_iff lasting
  | close =>
    cases lasting with
    | true => simp [tableUsed, Use.Leaves, Use.Drops]
    | false => simp [tableUsed, shelf_nil, Shelf.empty, Use.Leaves, Use.Drops]

/-- With its next use a store is at work on a table, whether it was used before or not. -/
structure Finds (place : Place) (w : World) (t : Table) : Prop where
  table_eq : (table place w).1 = .ok t
  holds : Holds place (table place w).2 t

theorem Holds.finds (h : Holds place w t) : Finds place w t := by
  refine ⟨by rw [h.table_eq], ?_⟩
  rw [h.table_eq]
  exact .opened h.lasts

theorem finds_of_table (hsited : Sited place) (h : (table place (files, .closed)).1 = .ok t) :
    Finds place (files, .closed) t := by
  refine ⟨h, ?_⟩
  rcases htable : table place (files, .closed) with ⟨r, files', connection⟩
  rw [htable] at h
  obtain rfl : r = .ok t := h
  obtain ⟨hopen, hlasts⟩ := lasts_of_table hsited htable
  obtain rfl : connection = .opened t := hopen
  exact .opened hlasts

theorem eq_nil_of_table (hmemory : place.file = none)
    (h : (table place (files, .closed)).1 = .ok t) : t = [] := by
  have hopen (files : Tree) : (openAt place files).1 = .ok [] := by rw [openAt, hmemory]
  simp only [table] at h
  split at h
  · exact Except.ok.inj (h.symm.trans (hopen files))
  · split at h
    · cases h
    · exact Except.ok.inj (h.symm.trans (hopen _))

namespace Finds

theorem found (h : Finds place w t) : table place w = (.ok t, (table place w).2) :=
  Prod.ext h.table_eq rfl

theorem outcome_listOverviews (h : Finds place w t) :
    ((database place).listOverviews w).1.outcome = .ok (Keyed.listOverviews t) :=
  Answer.overviews.inj (answer_of_table h.found .listOverviews)

theorem ask (h : Finds place w t) (request : Request) :
    Finds place ((database place).ask w request).2 (tableAfter t request) := by
  rcases next_cases h.found request with hnext | ⟨hnext, htable⟩
  · rw [hnext]
    exact (h.holds.save _).finds
  · rw [hnext, htable]
    exact h

theorem close (h : Finds place w t) :
    Finds place ((database place).close w).2 (if place.file.isSome then t else []) := by
  obtain ⟨files, connection⟩ := w
  cases connection with
  | opened t' =>
    obtain rfl : t' = t := Except.ok.inj h.table_eq
    exact h.holds.close.finds
  | broken => cases h.table_eq
  | closed =>
    change Finds place (files, .closed) _
    split
    · exact h
    · rename_i hfile
      obtain rfl := eq_nil_of_table (by simpa using hfile) h.table_eq
      exact h

theorem used (h : Finds place w t) (use : Use) :
    Finds place ((database place).use w use) (tableUsed place.file.isSome t use) := by
  cases use with
  | ask request => exact h.ask request
  | close => exact h.close

theorem through (h : Finds place w t) (uses : List Use) :
    ∃ t', Finds place ((database place).through w uses) t' := by
  induction uses generalizing w t with
  | nil => exact ⟨t, h⟩
  | cons use uses ih => exact ih (h.used use)

end Finds

/-- A store finds a table in which the overviews of jobs are those that stand. -/
structure Follows (place : Place) (uses : List Use) (w : World) (t : Table) : Prop where
  finds : Finds place w t
  ready : Ready t
  stands : ∀ job, Job.isId job → ∀ json,
    shelf job t Job.overviewPath = some json ↔ Stands place.file.isSome job json uses

theorem Follows.of_nil (h : Finds place w [])
    (hnone : ∀ job json, ¬ Stands place.file.isSome job json uses) : Follows place uses w [] := by
  refine ⟨h, .nil, fun job _ json => ?_⟩
  simp [shelf_nil, Shelf.empty, hnone]

theorem Follows.used (h : Follows place uses w t) (about : use.AboutJobs) :
    Follows place (uses ++ [use]) ((database place).use w use)
      (tableUsed place.file.isSome t use) := by
  refine ⟨h.finds.used use, h.ready.used about, fun job hj json => ?_⟩
  rw [h.ready.shelf_used about hj, h.stands job hj, stands_concat]

theorem Follows.through {past : List Use} (h : Follows place past w t)
    (about : ∀ use ∈ uses, use.AboutJobs) :
    ∃ t', Follows place (past ++ uses) ((database place).through w uses) t' := by
  induction uses generalizing past w t with
  | nil => exact ⟨t, by rwa [List.append_nil]⟩
  | cons use uses ih =>
    obtain ⟨habout, hrest⟩ := List.forall_mem_cons.mp about
    have hnext := ih (h.used habout) hrest
    rwa [List.append_assoc, List.singleton_append] at hnext

def overviewRow (o : StoredOverview) : Row := ⟨overviewStart ++ o.job, some o.job, o.json⟩

theorem between_iff_bytes {key : String} :
    ¬ key < overviewStart ∧ key < overviewEnd ↔
      Text.bytes overviewStart ≤ Text.bytes key ∧ Text.bytes key < Text.bytes overviewEnd := by
  rw [Text.lt_iff_bytes_lt, Text.lt_iff_bytes_lt, List.not_lt]

theorem range_eq_filter (t : Table) : t.range overviewStart overviewEnd = t.filter fun r =>
    Text.bytes overviewStart ≤ Text.bytes r.key ∧ Text.bytes r.key < Text.bytes overviewEnd :=
  List.filter_congr fun _ _ => decide_eq_decide.mpr between_iff_bytes

namespace Ready

variable {r : Row}

/-- A row that is read is that of the overview for which it is listed. -/
theorem eq_overviewRow (h : Ready t) (hr : r ∈ t.range overviewStart overviewEnd) :
    overviewRow ⟨String.ofList (r.key.toList.drop overviewStart.length), r.value⟩ = r := by
  obtain ⟨job, hj, hk⟩ := h.key_of_mem_range hr
  have howner : r.owner = some job :=
    owner_eq (h.filed r (Table.mem_range.mp hr).1) hj Job.owns_overviewPath
      (hk.trans keyOf_overview.symm)
  obtain ⟨key, owner, value⟩ := r
  obtain rfl : key = overviewStart ++ job := hk
  obtain rfl : owner = some job := howner
  rw [overviewRow, drop_overviewKey]

theorem range_eq_map (h : Ready t) :
    t.range overviewStart overviewEnd = (Keyed.listOverviews t).map overviewRow := by
  rw [Keyed.listOverviews, List.map_map]
  calc t.range overviewStart overviewEnd
      = (t.range overviewStart overviewEnd).map id := (List.map_id _).symm
    _ = _ := List.map_congr_left fun r hr => (h.eq_overviewRow hr).symm

/-- The rows that are not read are the combined overview and the documents in the trees of jobs. -/
theorem not_mem_range_iff (h : Ready t) (hr : r ∈ t) : r ∉ t.range overviewStart overviewEnd ↔
    r.key = Job.overviewPath ∨ ∃ job, Job.isId job ∧ Job.InTree job r.key := by
  rw [Table.mem_range, between_overviews]
  constructor
  · intro hnot
    rcases h.filed r hr with ⟨-, hk⟩ | ⟨job, path, hj, ho, -, hk⟩
    · exact .inl hk
    · rcases Job.owns_iff.mp ho with rfl | hin
      · exact absurd ⟨hr, job, hk.trans keyOf_overview⟩ hnot
      · rw [keyOf_inTree hin] at hk
        exact .inr ⟨job, hj, hk ▸ hin⟩
  · rintro (hk | ⟨job, -, hin⟩) ⟨-, name, hname⟩
    · exact overviewKey_ne_overviewPath (hname.symm.trans hk)
    · exact inTree_ne_overviewKey hin hname

end Ready

/-- What a store answers when it is asked for the overviews, after some uses. -/
structure Lists (place : Place) (uses : List Use) (w : World) (t : Table)
    (os : List StoredOverview) : Prop where
  found : (table place w).1 = .ok t
  answer : ((database place).listOverviews w).1.outcome = .ok os
  /-- There is a record for each overview that stands, and no other one. -/
  stands : ∀ job json, ⟨job, json⟩ ∈ os ↔ Stands place.file.isSome job json uses
  ids : ∀ o ∈ os, Job.isId o.job
  ascending : os.Pairwise fun o o' => o.job < o'.job
  /-- Of the table, what is in the range are the rows of these overviews. -/
  rows : t.filter (fun r => Text.bytes overviewStart ≤ Text.bytes r.key ∧
    Text.bytes r.key < Text.bytes overviewEnd) = os.map overviewRow
  /-- What is not are the combined overview and the documents of jobs. -/
  others : ∀ r ∈ t, r ∉ os.map overviewRow ↔
    r.key = Job.overviewPath ∨ ∃ job, Job.isId job ∧ Job.InTree job r.key

theorem Follows.lists (h : Follows place uses w t) (about : ∀ use ∈ uses, use.AboutJobs) :
    Lists place uses w t (Keyed.listOverviews t) := by
  obtain ⟨hids, hascending⟩ := h.ready.listed
  refine ⟨h.finds.table_eq, h.finds.outcome_listOverviews, fun job json => ?_, hids, hascending,
    ?_, fun r hr => ?_⟩
  · rw [h.ready.mem_listOverviews]
    constructor
    · intro hshelf
      exact (h.stands job (hids _ (h.ready.mem_listOverviews.mpr hshelf)) json).mp hshelf
    · intro hstands
      exact (h.stands job (hstands.isId about) json).mpr hstands
  · rw [← range_eq_filter, h.ready.range_eq_map]
  · rw [← h.ready.range_eq_map, h.ready.not_mem_range_iff hr]

/-- What was in a table at first counts until the store is reset. -/
theorem Finds.exists_follows (h : Finds place w t) (cleared : t ≠ [] → .ask .reset ∈ uses)
    (about : ∀ use ∈ uses, use.AboutJobs) :
    ∃ t', Follows place uses ((database place).through w uses) t' := by
  by_cases hnil : t = []
  · subst hnil
    exact (Follows.of_nil h fun _ _ => not_stands_nil).through about
  · obtain ⟨before, after, rfl⟩ := List.append_of_mem (cleared hnil)
    obtain ⟨t', hbefore⟩ := h.through before
    have hnone (job json : String) :
        ¬ Stands place.file.isSome job json (before ++ [.ask .reset]) := by
      simp [stands_concat, Use.Leaves, Use.Drops]
    have hafter : ∀ use ∈ after, use.AboutJobs := fun use huse => about use (by simp [huse])
    have hthrough := (Follows.of_nil (hbefore.used (.ask .reset)) hnone).through hafter
    rw [List.append_assoc] at hthrough
    rw [through_append]
    exact hthrough

/-- Whatever a store is used for, from when its database is opened for the first time, it lists the
overviews that stand, each once and in the order of their jobs; if there was something in the table
then, this holds once the store was reset. The keys in the range that it reads are those that start
as the keys of overviews do. -/
theorem overviews_listed {t₀ : Table} (plain : ∀ name ∈ base, Path.IsPlain name)
    (opens : (table (.ofText base text) (files, .closed)).1 = .ok t₀)
    (cleared : t₀ ≠ [] → .ask .reset ∈ uses) (about : ∀ use ∈ uses, use.AboutJobs) :
    (∀ key, Text.bytes overviewStart ≤ Text.bytes key ∧ Text.bytes key < Text.bytes overviewEnd ↔
      ∃ job, key = overviewStart ++ job) ∧
    ∃ t os, Lists (.ofText base text) uses
      ((database (.ofText base text)).through (files, .closed) uses) t os := by
  have hstart := finds_of_table (sited_ofText plain text) opens
  obtain ⟨t, ht⟩ := hstart.exists_follows cleared about
  exact ⟨fun key => between_iff_bytes.symm.trans between_overviews, t, _, ht.lists about⟩

def jobInDigits : String := "00000000000000000000000000000000"

def jobInCapitals : String := "0000000000000000000000000000000A"

def jobInSmalls : String := "0000000000000000000000000000000a"

/-- A row that no job has put, with a key as an overview has it. -/
def strayRow : Row := ⟨overviewStart ++ "stray", none, "null"⟩

/-- The overview of one job is put anew after the database was closed, and that of another one before
the store was reset. -/
def someUses : List Use :=
  [.ask (.put jobInDigits Job.overviewPath "null"), .ask .reset,
    .ask (.put jobInSmalls Job.overviewPath "null"), .ask (.put jobInCapitals Job.overviewPath "{}"),
    .ask (.put jobInSmalls (Job.root jobInSmalls) "null"), .ask (.publish "null"), .close,
    .ask (.put jobInSmalls Job.overviewPath "{}")]

/-- What was in the file before is not listed. -/
theorem listed_someUses : ∃ t, Lists (.ofText [] "history.sqlite") someUses
    ((database (.ofText [] "history.sqlite")).through
      (Tree.empty.insert ["history.sqlite"] (.database [strayRow]), .closed) someUses) t
    [⟨jobInCapitals, "{}"⟩, ⟨jobInSmalls, "{}"⟩] := by
  have hdigits : Job.isId jobInDigits := by decide
  have hcapitals : Job.isId jobInCapitals := by decide
  have hsmalls : Job.isId jobInSmalls := by decide
  have hopens : (table (.ofText [] "history.sqlite")
      (Tree.empty.insert ["history.sqlite"] (.database [strayRow]), .closed)).1 =
        .ok [strayRow] := rfl
  have habout : ∀ use ∈ someUses, use.AboutJobs := by
    simp [someUses, Use.AboutJobs, Request.AboutJobs, hdigits, hcapitals, hsmalls]
  obtain ⟨-, t, os, hlists⟩ := overviews_listed (by simp) hopens (by simp [someUses]) habout
  have hanswer : ((database (.ofText [] "history.sqlite")).listOverviews
      ((database (.ofText [] "history.sqlite")).through
        (Tree.empty.insert ["history.sqlite"] (.database [strayRow]), .closed) someUses)).1.outcome =
          .ok [⟨jobInCapitals, "{}"⟩, ⟨jobInSmalls, "{}"⟩] := by decide +kernel
  obtain rfl := Except.ok.inj (hlists.answer.symm.trans hanswer)
  exact ⟨t, hlists⟩

end Database

end ArchiveKeeper.Store
