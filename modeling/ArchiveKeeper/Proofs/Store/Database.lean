import ArchiveKeeper.Proofs.Store.Service
import ArchiveKeeper.Proofs.Table
import ArchiveKeeper.Proofs.Text.Order
import ArchiveKeeper.Store.Database

namespace ArchiveKeeper.Store.Database

open Keyed

variable {job job' path path' json key : String} {t : Table} {w w' : World} {place : Place}
  {request : Request}

def keyOf (job path : String) : String :=
  if path = Job.overviewPath then overviewStart ++ job else path

theorem keyOf_overview : keyOf job Job.overviewPath = overviewStart ++ job := if_pos rfl

theorem keyOf_inTree (h : Job.InTree job path) : keyOf job path = path := if_neg h.2

theorem take_overviewKey (job : String) : (overviewStart ++ job).toList.take 6 = "/overv".toList := by
  rw [String.toList_append, List.take_append_of_le_length (by decide)]
  decide

theorem inTree_ne_overviewKey (h : Job.InTree job path) : path ≠ overviewStart ++ job' := by
  intro he
  have ht := h.take
  rw [he, take_overviewKey] at ht
  exact absurd ht (by decide)

theorem keyOf_inj (hj : Job.isId job) (hj' : Job.isId job') (ho : Job.owns job path)
    (ho' : Job.owns job' path') (h : keyOf job path = keyOf job' path') :
    job = job' ∧ path = path' := by
  rcases Job.owns_iff.mp ho with rfl | ht
  · rcases Job.owns_iff.mp ho' with rfl | ht'
    · rw [keyOf_overview, keyOf_overview] at h
      have hl := congrArg String.toList h
      rw [String.toList_append, String.toList_append] at hl
      exact ⟨String.toList_injective (List.append_cancel_left hl), rfl⟩
    · rw [keyOf_overview, keyOf_inTree ht'] at h
      exact absurd h.symm (inTree_ne_overviewKey ht')
  · rcases Job.owns_iff.mp ho' with rfl | ht'
    · rw [keyOf_overview, keyOf_inTree ht] at h
      exact absurd h (inTree_ne_overviewKey ht)
    · rw [keyOf_inTree ht, keyOf_inTree ht'] at h
      subst h
      exact ⟨ht.job_eq hj hj' ht', rfl⟩

theorem keyOf_ne_overviewPath (ho : Job.owns job path) : keyOf job path ≠ Job.overviewPath := by
  rcases Job.owns_iff.mp ho with rfl | ht
  · rw [keyOf_overview]
    intro he
    have ht := take_overviewKey job
    rw [he] at ht
    exact absurd ht (by decide)
  · rw [keyOf_inTree ht]
    exact ht.2

theorem eq_slash_iff {c : Char} : ¬ c < '/' ∧ c < '0' ↔ c = '/' := by
  constructor
  · rintro ⟨hlow, hhigh⟩
    have hlow : ¬ c.val.toNat < 47 := hlow
    have hhigh : c.val.toNat < 48 := hhigh
    have hval : c.val.toNat = '/'.val.toNat := by
      change _ = 47
      omega
    exact Char.ext (UInt32.toNat_inj.mp hval)
  · rintro rfl
    decide

/-- Between the two ends of the range are the keys that start as those of overviews do. -/
theorem between_overviews :
    ¬ key < overviewStart ∧ key < overviewEnd ↔ ∃ job, key = overviewStart ++ job := by
  change ¬ key.toList < "/overviews".toList ++ ['/'] ∧ key.toList < "/overviews".toList ++ ['0'] ↔ _
  rw [Text.between_iff fun c => eq_slash_iff]
  change overviewStart.toList <+: key.toList ↔ _
  constructor
  · rintro ⟨rest, hrest⟩
    refine ⟨String.ofList rest, String.toList_injective ?_⟩
    rw [String.toList_append, String.toList_ofList, hrest]
  · rintro ⟨job, rfl⟩
    rw [String.toList_append]
    exact List.prefix_append _ _

theorem overviewKey_ne_overviewPath : overviewStart ++ job ≠ Job.overviewPath :=
  keyOf_overview ▸ keyOf_ne_overviewPath Job.owns_overviewPath

/-- A row is the combined overview, or a document that a job has filed. -/
def Filed (r : Row) : Prop :=
  r.owner = none ∧ r.key = Job.overviewPath ∨ ∃ job path, Job.isId job ∧ Job.owns job path ∧
    r.owner = some job ∧ r.key = keyOf job path

structure Ready (t : Table) : Prop where
  sorted : t.Sorted
  filed : ∀ r ∈ t, Filed r

def shelf (job : String) (t : Table) : Shelf := fun path =>
  if Job.owns job path then t.get? (keyOf job path) else none

theorem shelf_nil : shelf job [] = Shelf.empty := by
  funext path
  exact ite_self none

theorem owner_eq {r : Row} (h : Filed r) (hj : Job.isId job) (ho : Job.owns job path)
    (hk : r.key = keyOf job path) : r.owner = some job := by
  rcases h with ⟨-, he⟩ | ⟨job', path', hj', ho', howner, he⟩
  · exact absurd (hk.symm.trans he) (keyOf_ne_overviewPath ho)
  · rw [howner, (keyOf_inj hj' hj ho' ho (he.symm.trans hk)).1]

namespace Ready

theorem nil : Ready [] := ⟨.nil, by simp⟩

theorem insert {row : Row} (h : Ready t) (hr : Filed row) : Ready (t.insert row) :=
  ⟨h.sorted.insert, fun r hm => (Table.mem_of_mem_insert hm).elim (fun e => e ▸ hr) (h.filed r)⟩

theorem eraseOwned (h : Ready t) (job : String) : Ready (t.eraseOwned job) :=
  ⟨h.sorted.eraseOwned job, fun r hm => h.filed r (Table.mem_eraseOwned.mp hm).1⟩

theorem shelf_eq_empty (h : Ready t) (hj : Job.isId job) (hb : ¬ t.hasOwned job) :
    shelf job t = Shelf.empty := by
  funext path
  unfold shelf Shelf.empty
  split
  · rename_i ho
    by_contra hv
    obtain ⟨value, hv⟩ := Option.ne_none_iff_exists'.mp hv
    obtain ⟨r, hr, hk, -⟩ := (Table.get?_eq_some_iff h.sorted).mp hv
    exact hb (Table.hasOwned_iff.mpr ⟨r, hr, owner_eq (h.filed r hr) hj ho hk⟩)
  · rfl

theorem shelf_insert (hj : Job.isId job) (ho : Job.owns job path) :
    shelf job (t.insert ⟨keyOf job path, some job, json⟩) = (shelf job t).file ⟨path, json⟩ := by
  funext path'
  simp only [shelf, Shelf.file, Table.get?_insert]
  by_cases hp : path' = path
  · simp [hp, ho]
  · rw [if_neg hp]
    by_cases ho' : Job.owns job path'
    · have hk : keyOf job path ≠ keyOf job path' := fun he =>
        hp (keyOf_inj hj hj ho ho' he).2.symm
      simp [ho', hk]
    · simp [ho']

theorem shelf_insert_of_ne {row : Row} (hk : ∀ path, Job.owns job path → row.key ≠ keyOf job path) :
    shelf job (t.insert row) = shelf job t := by
  funext path
  simp only [shelf, Table.get?_insert]
  by_cases ho : Job.owns job path
  · simp [ho, hk path ho]
  · simp [ho]

theorem shelf_eraseOwned (h : Ready t) (hj : Job.isId job) (hne : job ≠ job') :
    shelf job (t.eraseOwned job') = shelf job t := by
  funext path
  unfold shelf
  split
  · rename_i ho
    refine Table.get?_eraseOwned h.sorted fun r hr hk he => hne ?_
    exact Option.some.inj ((owner_eq (h.filed r hr) hj ho hk).symm.trans he)
  · rfl

theorem drop_overviewKey (job : String) :
    String.ofList ((overviewStart ++ job).toList.drop overviewStart.length) = job := by
  rw [String.toList_append, ← String.length_toList, List.drop_left, String.ofList_toList]

theorem lt_of_overviewKey_lt (h : overviewStart ++ job < overviewStart ++ job') : job < job' := by
  change (overviewStart ++ job).toList < (overviewStart ++ job').toList at h
  rw [String.toList_append, String.toList_append] at h
  exact (Text.append_lt_append_iff overviewStart.toList).mp h

theorem key_of_mem_range (h : Ready t) {r : Row} (hr : r ∈ t.range overviewStart overviewEnd) :
    ∃ job, Job.isId job ∧ r.key = overviewStart ++ job := by
  obtain ⟨hr, hbetween⟩ := Table.mem_range.mp hr
  obtain ⟨name, hname⟩ := between_overviews.mp hbetween
  rcases h.filed r hr with ⟨-, hk⟩ | ⟨job, path, hj, ho, -, hk⟩
  · exact absurd (hname.symm.trans hk) overviewKey_ne_overviewPath
  · rcases Job.owns_iff.mp ho with rfl | ht
    · exact ⟨job, hj, by rw [hk, keyOf_overview]⟩
    · rw [hk, keyOf_inTree ht] at hname
      exact absurd hname (inTree_ne_overviewKey ht)

theorem mem_listOverviews (h : Ready t) :
    ⟨job, json⟩ ∈ Keyed.listOverviews t ↔ shelf job t Job.overviewPath = some json := by
  rw [shelf, if_pos Job.owns_overviewPath, keyOf_overview, Table.get?_eq_some_iff h.sorted, Keyed.listOverviews,
    List.mem_map]
  refine exists_congr fun r => ?_
  rw [StoredOverview.mk.injEq]
  constructor
  · rintro ⟨hr, hjob, hv⟩
    obtain ⟨job', -, hk⟩ := h.key_of_mem_range hr
    rw [hk, drop_overviewKey] at hjob
    exact ⟨(Table.mem_range.mp hr).1, by rw [hk, hjob], hv⟩
  · rintro ⟨hr, hk, hv⟩
    rw [Table.mem_range, hk]
    exact ⟨⟨hr, between_overviews.mpr ⟨job, rfl⟩⟩, drop_overviewKey job, hv⟩

end Ready

def view : View World where
  sound _ := True
  ready w := ∃ t, w.2 = .opened t ∧ Ready t
  bare job w := ∀ t, w.2 = .opened t → ¬ t.hasOwned job
  shelf job w := match w.2 with
    | .opened t => shelf job t
    | _ => Shelf.empty
  untouched w w' := w'.2 = w.2
  visible _ := True

theorem shelf_view (h : w.2 = .opened t) : view.shelf job w = shelf job t := by
  simp [view, h]

theorem bare_view (h : w.2 = .opened t) : view.bare job w ↔ ¬ t.hasOwned job := by
  constructor
  · exact fun hb => hb t h
  · intro hb t' ht'
    cases h.symm.trans ht'
    exact hb

theorem spares_view {w' : World} {P : String → Prop}
    (h : ∀ t, w.2 = .opened t → Ready t → ∃ t', w'.2 = .opened t' ∧ Ready t' ∧
      ∀ job, Job.isId job → P job →
        shelf job t' = shelf job t ∧ (¬ t.hasOwned job → ¬ t'.hasOwned job)) :
    view.Spares P w w' := by
  rintro ⟨t, ht, hready⟩
  obtain ⟨t', ht', hready', hsame⟩ := h t ht hready
  refine ⟨⟨t', ht', hready'⟩, fun job hj hP => ?_⟩
  rw [shelf_view ht, shelf_view ht', bare_view ht, bare_view ht']
  exact hsame job hj hP

@[simp] theorem connection_save : (save place t w).2 = .opened t := by
  unfold save
  repeat' split
  all_goals rfl

theorem table_opened (h : w.2 = .opened t) : table place w = (.ok t, w) := by
  obtain ⟨files, connection⟩ := w
  cases h
  rfl

def tableAfter (t : Table) : Request → Table
  | .reset => []
  | .put job path json =>
    if Job.owns job path then t.insert ⟨keyOf job path, some job, json⟩ else t
  | .delete job => t.eraseOwned job
  | .deleteOverview job => t.erase (overviewStart ++ job)
  | .publish json => Keyed.publish json t
  | .get _ | .holds _ | .listOverviews => t

def answerFrom (t : Table) : Request → Answer
  | .put job path _ =>
    .done (if Job.owns job path then .ok () else .error (outsideTree job path))
  | .reset | .delete _ | .deleteOverview _ | .publish _ => .done (.ok ())
  | .get path => .document (.ok (t.get? path))
  | .holds job => .found (.ok (t.hasOwned job))
  | .listOverviews => .overviews (.ok (Keyed.listOverviews t))

/-- A document that its job does not own is refused, and the table is not looked for. -/
def refuses : Request → Bool
  | .put job path _ => !Job.owns job path
  | _ => false

theorem tableAfter_of_refuses (h : refuses request) : tableAfter t request = t := by
  cases request with
  | put job path json => exact if_neg (by simpa [refuses] using h)
  | _ => cases h

/-- Where the table is found, a request is one to the table, which is kept afterwards. -/
theorem ask_eq (h : table place w = (.ok t, w')) (request : Request) :
    (database place).ask w request = (answerFrom t request,
      if refuses request then w else save place (tableAfter t request) w') := by
  cases request with
  | put job path json =>
    by_cases ho : Job.owns job path
    · simp [ask, database, operation, withTable, h, Keyed.put, keyOf, answerFrom, refuses,
        tableAfter, ho]
    · simp [ask, database, operation, answerFrom, refuses, ho]
  | delete | deleteOverview =>
    simp [ask, database, attempt, withTable, h, answerFrom, refuses, tableAfter]
  | reset | get | holds | listOverviews | publish =>
    simp [ask, database, operation, withTable, h, answerFrom, refuses, tableAfter]

theorem answer_of_table (h : table place w = (.ok t, w')) (request : Request) :
    ((database place).ask w request).1 = answerFrom t request := by
  rw [ask_eq h]

theorem answer_ask (h : w.2 = .opened t) (request : Request) :
    ((database place).ask w request).1 = answerFrom t request :=
  answer_of_table (table_opened h) request

theorem next_cases (h : table place w = (.ok t, w')) (request : Request) :
    ((database place).ask w request).2 = save place (tableAfter t request) w' ∨
      ((database place).ask w request).2 = w ∧ tableAfter t request = t := by
  rw [ask_eq h]
  dsimp only
  split
  · exact .inr ⟨rfl, tableAfter_of_refuses (by assumption)⟩
  · exact .inl rfl

theorem opened_ask (h : w.2 = .opened t) (request : Request) :
    ((database place).ask w request).2.2 = .opened (tableAfter t request) := by
  rcases next_cases (table_opened h) request with hnext | ⟨hnext, htable⟩
  · rw [hnext]
    exact connection_save
  · rw [hnext, htable, h]

theorem reset_of_ok (h : ((database place).reset w).1.outcome = .ok ()) :
    ∃ t w', table place w = (.ok t, w') ∧ ((database place).reset w).2 = save place [] w' := by
  rcases htable : table place w with ⟨e | t, w'⟩
  · simp [database, operation, withTable, htable] at h
  · exact ⟨t, w', rfl, congrArg Prod.snd (ask_eq htable .reset)⟩

theorem opened_reset (h : ((database place).reset w).1.outcome = .ok ()) :
    ((database place).reset w).2.2 = .opened [] := by
  obtain ⟨t, w', -, hnext⟩ := reset_of_ok h
  rw [hnext]
  exact connection_save

theorem hasOwned_insert {row : Row} (hrow : row.owner ≠ some job) (h : ¬ t.hasOwned job) :
    ¬ (t.insert row).hasOwned job := by
  rw [Table.hasOwned_iff] at h ⊢
  rintro ⟨r, hr, ho⟩
  rcases Table.mem_of_mem_insert hr with rfl | hr
  · exact hrow ho
  · exact h ⟨r, hr, ho⟩

end ArchiveKeeper.Store.Database

namespace ArchiveKeeper.Store

open Database

theorem database_keeps (place : Place) : Keeps (database place) Database.view where
  reset w _ h := by
    have hopen := opened_reset h
    exact ⟨⟨[], hopen, .nil⟩, fun job _ => (bare_view hopen).mpr (by simp [Table.hasOwned])⟩
  untouched w w' h := spares_view fun t ht hready =>
    ⟨t, h.trans ht, hready, fun _ _ _ => ⟨rfl, fun hb => hb⟩⟩
  put job path json w hj := by
    refine spares_view fun t ht hready => ⟨_, opened_ask ht (.put job path json), ?_⟩
    rw [tableAfter]
    split
    · rename_i ho
      refine ⟨hready.insert (.inr ⟨job, path, hj, ho, rfl, rfl⟩), fun job' hj' hne => ⟨?_, ?_⟩⟩
      · exact Ready.shelf_insert_of_ne fun path' ho' he => hne (keyOf_inj hj hj' ho ho' he).1.symm
      · exact hasOwned_insert fun he => hne (Option.some.inj he).symm
    · exact ⟨hready, fun _ _ _ => ⟨rfl, fun hb => hb⟩⟩
  filed job path json w hj hw h := by
    obtain ⟨t, ht, hready⟩ := hw
    have hopen : ((database place).put job path json w).2.2 = _ :=
      opened_ask ht (.put job path json)
    have hanswer : ((database place).put job path json w).1.outcome = _ :=
      Answer.done.inj (answer_ask ht (.put job path json))
    by_cases ho : Job.owns job path
    · rw [shelf_view hopen, shelf_view ht, tableAfter, if_pos ho]
      exact Ready.shelf_insert hj ho
    · rw [h, if_neg ho] at hanswer
      cases hanswer
  delete job w hj := by
    refine spares_view fun t ht hready => ⟨_, opened_ask ht (.delete job), hready.eraseOwned job,
      fun job' hj' hne => ⟨hready.shelf_eraseOwned hj' hne, fun hb hown => ?_⟩⟩
    obtain ⟨r, hr, ho⟩ := Table.hasOwned_iff.mp hown
    exact hb (Table.hasOwned_iff.mpr ⟨r, (Table.mem_eraseOwned.mp hr).1, ho⟩)
  deleted job w hj hw := by
    obtain ⟨t, ht, hready⟩ := hw
    exact ⟨Answer.done.inj (answer_ask ht (.delete job)),
      (bare_view (opened_ask ht (.delete job))).mpr Table.not_hasOwned_eraseOwned⟩
  listing w := spares_view fun t ht hready =>
    ⟨t, opened_ask ht .listOverviews, hready, fun _ _ _ => ⟨rfl, fun hb => hb⟩⟩
  publish json w := spares_view fun t ht hready =>
    ⟨_, opened_ask ht (.publish json), hready.insert (.inl ⟨rfl, rfl⟩), fun job hj _ =>
      ⟨Ready.shelf_insert_of_ne fun path ho => (keyOf_ne_overviewPath ho).symm,
        hasOwned_insert (by simp)⟩⟩
  empty job w hj hw hb := by
    obtain ⟨t, ht, hready⟩ := hw
    rw [shelf_view ht]
    exact hready.shelf_eq_empty hj ((bare_view ht).mp hb)
  get job path w hj hw hin text := by
    obtain ⟨t, ht, hready⟩ := hw
    rw [Answer.document.inj (answer_ask ht (.get path)), shelf_view ht, shelf, if_pos hin.1,
      keyOf_inTree hin, Except.ok.injEq]
  overviews w hw := by
    obtain ⟨t, ht, hready⟩ := hw
    refine ⟨_, Answer.overviews.inj (answer_ask ht .listOverviews), fun job hj json => ?_⟩
    rw [shelf_view ht]
    exact hready.mem_listOverviews
  absent job w hj hw hb := by
    obtain ⟨t, ht, hready⟩ := hw
    have hno : t.hasOwned job = false := by simpa using (bare_view ht).mp hb
    rw [Answer.found.inj (answer_ask ht (.holds job)), hno]
    exact ⟨by simp, fun _ => rfl⟩

end ArchiveKeeper.Store
