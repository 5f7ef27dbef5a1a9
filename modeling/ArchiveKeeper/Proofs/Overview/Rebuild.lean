import ArchiveKeeper.Proofs.Overview.Merge
import ArchiveKeeper.Proofs.Store.FailedPublication

namespace ArchiveKeeper.Overview

open Json

variable {stored : List StoredOverview} {warnings : List Log.Record} {text : String} {n : Nat}
  {e : Entry} {es : List Entry} {members : List (Text × Value)}

/-- What is published from some stored overviews and what is answered and logged, whichever store
lists them. -/
def Rebuilds (stored : List StoredOverview) (warnings : List Log.Record) (text : String) (n : Nat) :
    Prop :=
  ∀ (σ : Type) (store : Store σ) (s : σ), (store.listOverviews s).1.outcome = .ok stored →
    let listing := store.listOverviews s
    let publication := store.publish text listing.2
    let log := listing.1.log ++ warnings ++ publication.1.log
    republish store s = match publication.1.outcome with
      | .ok () => (⟨.ok (some n), log ++ [published n]⟩, publication.2)
      | .error e => (⟨.ok none, log ++ [unpublished e.message]⟩, publication.2)

def warningsOf (stored : List StoredOverview) : List Log.Record :=
  (unreadable stored).map fun u => skipped u.1 u.2

theorem rebuilds (stored : List StoredOverview) :
    Rebuilds stored (warningsOf stored) (write (merge stored)) (merge stored).length := by
  intro σ store s h
  unfold republish
  rcases hl : store.listOverviews s with ⟨⟨outcome, log⟩, s'⟩
  rw [hl] at h
  cases h
  dsimp only
  rcases store.publish (write (merge stored)) s' with ⟨⟨e | u, log'⟩, s''⟩
  · rfl
  · rfl

section Unique

/-- A store that lists some overviews and keeps the text that is published. -/
def recorder (stored : List StoredOverview) : Store String where
  backend := .table
  reset := Operation.answer ()
  put _ _ _ := Operation.answer ()
  get _ := Operation.answer none
  delete _ := Operation.answer ()
  deleteOverview _ := Operation.answer ()
  listOverviews := Operation.answer stored
  holds _ := Operation.answer false
  publish json _ := (⟨.ok (), []⟩, json)
  close := Operation.answer ()

theorem Rebuilds.unique (h : Rebuilds stored warnings text n) :
    text = write (merge stored) ∧ n = (merge stored).length := by
  have he := h String (recorder stored) "" rfl
  rw [rebuilds stored String (recorder stored) "" rfl] at he
  obtain ⟨hreply, htext⟩ := Prod.mk.inj he
  have hcount := Except.ok.inj (congrArg Reply.outcome hreply)
  exact ⟨htext.symm, (Option.some.inj hcount).symm⟩

end Unique

section Warning

/-- The stored overviews that list no jobs, for they are not of the form to do so. -/
def illegible (stored : List StoredOverview) : List StoredOverview :=
  stored.filter fun o => (entries? o.json).isNone

def WarnsOf (o : StoredOverview) (record : Log.Record) : Prop :=
  ∃ fault, record = skipped o.job fault

theorem warningsOf_cons (o : StoredOverview) (stored : List StoredOverview) :
    warningsOf (o :: stored) = match read o.json with
      | .ok _ => warningsOf stored
      | .error fault => skipped o.job fault :: warningsOf stored := by
  unfold warningsOf unreadable
  rw [List.filterMap_cons]
  cases read o.json with
  | ok js => rfl
  | error fault => rfl

theorem warnsOf_each (stored : List StoredOverview) :
    List.Forall₂ WarnsOf (illegible stored) (warningsOf stored) := by
  induction stored with
  | nil => exact .nil
  | cons o stored ih =>
    rw [warningsOf_cons]
    cases h : entries? o.json with
    | none =>
      have hcons : illegible (o :: stored) = o :: illegible stored :=
        List.filter_cons_of_pos (by simp [h])
      obtain ⟨fault, hfault⟩ := read_of_no_entries h
      rw [hcons, hfault]
      exact .cons ⟨fault, rfl⟩ ih
    | some es =>
      have hcons : illegible (o :: stored) = illegible stored :=
        List.filter_cons_of_neg (by simp [h])
      rw [hcons, read_of_entries? h]
      exact ih

end Warning

/-- The combined overview lists, in the order of the stored ones, the jobs of all those that are a
JSON object with a list of jobs, and each job once, as it was listed first. Its parts are those of
the job it came from, but for the one member that is dropped and for what no text can say of a
number. There is one warning for each overview that is left out. A store that cannot list its
overviews is left alone, and one that does not take the text keeps the one before it. -/
theorem combined_overview_complete :
    (∀ stored, ∃ warnings text, Rebuilds stored warnings text (combined stored).length ∧
      Lists text (combined stored) ∧ List.Forall₂ WarnsOf (illegible stored) warnings) ∧
    (∀ (σ : Type) (store : Store σ) (s : σ) (e : Failure),
      (store.listOverviews s).1.outcome = .error e → republish store s =
        (⟨.ok none, (store.listOverviews s).1.log ++ [unpublished e.message]⟩,
          (store.listOverviews s).2)) ∧
    ∀ (τ : Type) (base : Files.Path), (∀ s ∈ base, Files.Path.IsPlain s) →
      ∀ (c : Config.Storage) (s : Site τ) (text : String), (Site.store base c).Shows s text →
        (republish (Site.store base c) s).1.outcome = .ok none →
        (Site.store base c).Shows (republish (Site.store base c) s).2 text := by
  refine ⟨fun stored => ?_, fun σ store s e h => ?_, fun τ base hbase c s text hshows hnone => ?_⟩
  · have hlength : (merge stored).length = (combined stored).length := by
      rw [merge_eq_combined, List.length_map]
    refine ⟨_, _, ?_, lists_merge stored, warnsOf_each stored⟩
    rw [← hlength]
    exact rebuilds stored
  · unfold republish
    rcases hl : store.listOverviews s with ⟨⟨outcome, log⟩, s'⟩
    rw [hl] at h
    cases h
    rfl
  · exact (Site.store_steady hbase c).republish hshows hnone

/-- One overview has an item without an id, and one lists a job that another one has listed. -/
def sampleOverviews : List StoredOverview :=
  [⟨"a", "\x7b\"jobs\":[\x7b\"jid\":\"x\",\"on\":true,\"__proto__\":1,\"7\":-0\x7d]\x7d"⟩,
    ⟨"b", "\x7b\"jobs\":[\x7b\"jid\":\"y\"\x7d,\x7b\"name\":\"y\"\x7d]\x7d"⟩,
    ⟨"c", "\x7b\"jobs\":[\x7b\"end\":1e999,\"jid\":\"z\"\x7d,\x7b\"jid\":\"x\"\x7d]\x7d"⟩]

example : (combined sampleOverviews).map Entry.id = [Text.ofString "x", Text.ofString "z"] ∧
    (illegible sampleOverviews).map StoredOverview.job = ["b"] := by decide +kernel

section Again

/-- A job as it stands in the text of the combined overview. -/
def Entry.again (e : Entry) : Entry :=
  ⟨e.id, (inWritingOrder e.listed.members).map fun m => (m.1, m.2.asWritten)⟩

theorem ofValue?_listed (h : e.Sound) :
    Entry.ofValue? (Value.object e.listed.members).asWritten = some e.again := by
  obtain ⟨hd, -, -⟩ := (proper_listed h).of_object
  have hid : (Value.find? idName e.listed.members) = some (.string e.id) := by
    simp [Value.find?, Entry.listed, ordered]
  have hfind : Value.find? idName e.again.members = some (.string e.id) := by
    rw [Entry.again, Value.find?_asWritten hd, hid]
    rfl
  rw [Value.asWritten_object]
  change (Value.find? idName e.again.members).bind _ = _
  rw [hfind]
  rfl

theorem entries?_write (h : ∀ e ∈ es, e.Sound) :
    entries? (write (es.map Entry.listed)) = some (es.map Entry.again) := by
  have hitems : (es.map fun e => (Value.object e.listed.members).asWritten).mapM Entry.ofValue? =
      some (es.map Entry.again) := by
    induction es with
    | nil => rfl
    | cons e es ih =>
      obtain ⟨he, hes⟩ := List.forall_mem_cons.mp h
      rw [List.map_cons, List.mapM_cons, ofValue?_listed he, ih hes]
      rfl
  rw [entries?, read?_write h, Option.bind_some, entriesOf?_jobs, hitems]

/-- Members in writing order have the same order after the id is put in front of them. -/
theorem inWritingOrder_ordered {id : Text} {rest : List (Text × Value)}
    (h : ∀ m ∈ rest, m.1 ≠ idName ∧ m.1 ≠ droppedName) :
    inWritingOrder (ordered id (inWritingOrder ((idName, .string id) :: rest))) =
      inWritingOrder ((idName, .string id) :: rest) := by
  have hid : idName.index? = none := by decide
  have hdropped : droppedName.index? = none := by decide
  obtain ⟨x, hx⟩ : ∃ x, x = inWritingOrder ((idName, Value.string id) :: rest) := ⟨_, rfl⟩
  have hself : inWritingOrder x = x := by rw [hx, Value.inWritingOrder_idem]
  have hnamed : Value.named x = (idName, .string id) :: Value.named rest := by
    rw [hx, Value.named_inWritingOrder]
    exact List.filter_cons_of_pos (by simp [hid])
  have hrest : (Value.named rest).filter (fun m => m.1 ≠ idName && m.1 ≠ droppedName) =
      Value.named rest := by
    rw [List.filter_eq_self]
    intro m hm
    simpa using h m (List.mem_of_mem_filter hm)
  rw [← hx]
  refine (Value.inWritingOrder_congr ?_ ?_).trans hself
  · -- neither the id nor what is dropped has an index
    rw [ordered, Value.indexed_cons_of_none hid]
    apply Value.indexed_filter
    intro m _ hm
    have hname : m.1 = idName ∨ m.1 = droppedName := by simpa [or_iff_not_imp_left] using hm
    rcases hname with hname | hname
    · rw [hname, hid]
    · rw [hname, hdropped]
  · have hcomm : Value.named (x.filter fun m => m.1 ≠ idName && m.1 ≠ droppedName) =
        (Value.named x).filter fun m => m.1 ≠ idName && m.1 ≠ droppedName := by
      unfold Value.named
      rw [List.filter_comm]
    have hcons : Value.named (ordered id x) =
        (idName, .string id) :: Value.named (x.filter fun m => m.1 ≠ idName && m.1 ≠ droppedName) :=
      List.filter_cons_of_pos (by simp [hid])
    rw [hcons, hcomm, hnamed, List.filter_cons_of_neg (by simp), hrest]

/-- A job that was read from the combined overview is written there as it was. -/
theorem chars_again (h : e.Sound) : (Value.object e.again.listed.members).chars =
    (Value.object e.listed.members).chars := by
  obtain ⟨hd, -, hv⟩ := (proper_listed h).of_object
  obtain ⟨rest, hrest, hnames⟩ : ∃ rest : List (Text × Value),
      (e.listed.members.map fun m => (m.1, m.2.asWritten)) = (idName, .string e.id) :: rest ∧
        ∀ m ∈ rest, m.1 ≠ idName ∧ m.1 ≠ droppedName := by
    refine ⟨_, rfl, fun m hm => ?_⟩
    obtain ⟨m', hm', rfl⟩ := List.mem_map.mp hm
    simpa using (List.mem_filter.mp hm').2
  have hmembers : e.again.members = inWritingOrder ((idName, .string e.id) :: rest) := by
    rw [← hrest, Value.inWritingOrder_map]
    rfl
  have horder : inWritingOrder e.again.listed.members = inWritingOrder e.again.members := by
    change inWritingOrder (ordered e.id e.again.members) = _
    rw [hmembers, inWritingOrder_ordered hnames, Value.inWritingOrder_idem]
  have hwritten : (Value.object e.listed.members).asWritten = .object e.again.members :=
    Value.asWritten_object _
  calc (Value.object e.again.listed.members).chars
      = (Value.object e.again.members).chars := by
        rw [Value.chars_object, Value.chars_object, horder]
    _ = (Value.object e.listed.members).chars := by
        rw [← hwritten, Value.chars_asWritten (proper_listed h)]

theorem write_again (h : ∀ e ∈ es, e.Sound) :
    write ((es.map Entry.again).map Entry.listed) = write (es.map Entry.listed) := by
  have hitems : (((es.map Entry.again).map Entry.listed).map fun j => Value.object j.members).map
      Value.chars = ((es.map Entry.listed).map fun j => Value.object j.members).map Value.chars := by
    simp only [List.map_map]
    exact List.map_congr_left fun e he => chars_again (h e he)
  have harray : (Value.array (((es.map Entry.again).map Entry.listed).map
        fun j => .object j.members)).chars =
      (Value.array ((es.map Entry.listed).map fun j => .object j.members)).chars := by
    rw [Value.chars, Value.chars, Value.itemChars_eq_map, Value.itemChars_eq_map, hitems]
  unfold write Value.text Value.record
  rw [List.map_singleton, List.map_singleton, Value.chars, Value.chars, Value.memberChars_eq_map,
    Value.memberChars_eq_map, List.map_singleton, List.map_singleton, harray]

theorem combined_write (stored : List StoredOverview) (job : String) :
    combined [⟨job, write (merge stored)⟩] = (combined stored).map Entry.again := by
  have hdistinct : ((combined stored).map Entry.again).Pairwise
      fun e e' => decide (e'.id = e.id) = false := by
    rw [List.pairwise_map]
    exact pairwise_eraseDupsBy _ _
  unfold combined at hdistinct ⊢
  rw [List.flatMap_singleton, merge_eq_combined, entries?_write sound_of_combined, Option.getD_some]
  exact eraseDupsBy_of_pairwise hdistinct

/-- The combined overview is a fixed point: where it alone is stored, the same text is published
with the same count, and without any warning. -/
theorem combined_overview_fixed (h : Rebuilds stored warnings text n) (job : String) :
    Rebuilds [⟨job, text⟩] [] text n := by
  obtain ⟨rfl, rfl⟩ := h.unique
  have hmerge : merge [⟨job, write (merge stored)⟩] =
      ((combined stored).map Entry.again).map Entry.listed := by
    rw [merge_eq_combined, combined_write]
  have htext : write (merge [⟨job, write (merge stored)⟩]) = write (merge stored) := by
    rw [hmerge, write_again sound_of_combined, ← merge_eq_combined]
  have hcount : (merge [⟨job, write (merge stored)⟩]).length = (merge stored).length := by
    rw [hmerge, List.length_map, List.length_map, merge_eq_combined, List.length_map]
  have hquiet : warningsOf [⟨job, write (merge stored)⟩] = [] := by
    have hread : entries? (write (merge stored)) = some ((combined stored).map Entry.again) := by
      rw [merge_eq_combined, entries?_write sound_of_combined]
    rw [warningsOf_cons, read_of_entries? hread]
    rfl
  have hagain := rebuilds [⟨job, write (merge stored)⟩]
  rwa [htext, hcount, hquiet] at hagain

end Again

def sampleCombined : String :=
  "\x7b\"jobs\":[\x7b\"7\":0,\"jid\":\"x\",\"on\":true\x7d,\x7b\"jid\":\"z\",\"end\":null\x7d]\x7d"

theorem fixed_sampleCombined :
    Rebuilds sampleOverviews (warningsOf sampleOverviews) sampleCombined 2 ∧
      Rebuilds [⟨"all", sampleCombined⟩] [] sampleCombined 2 := by
  have htext : write (merge sampleOverviews) = sampleCombined := by decide +kernel
  have hcount : (merge sampleOverviews).length = 2 := by decide +kernel
  have h : Rebuilds sampleOverviews (warningsOf sampleOverviews) sampleCombined 2 := by
    rw [← htext, ← hcount]
    exact rebuilds sampleOverviews
  exact ⟨h, combined_overview_fixed h "all"⟩

end ArchiveKeeper.Overview
