import ArchiveKeeper.Overview.Publication
import ArchiveKeeper.Proofs.Check
import ArchiveKeeper.Proofs.Json.Rewriting

namespace ArchiveKeeper.Overview

open Json

/-- A job as it stands in a stored overview. -/
structure Entry where
  id : Text
  members : List (Text × Value)

namespace Entry

/-- A job is an object whose id is a text. -/
def ofValue? (v : Value) : Option Entry := do
  let members ← v.members?
  let id ← (← Value.find? idName members).text?
  return ⟨id, members⟩

def kept (e : Entry) : Value := .object (e.members.filter fun m => m.1 ≠ droppedName)

def listed (e : Entry) : Listed := ⟨e.id, ordered e.id e.members⟩

end Entry

/-- The jobs in a value, which is an object whose `jobs` are a list of jobs and of nothing else. -/
def entriesOf? (v : Value) : Option (List Entry) := do
  let members ← v.members?
  let jobs ← Value.find? (Text.ofString "jobs") members
  let items ← jobs.items?
  items.mapM Entry.ofValue?

/-- The jobs in a text, which is the text of a value that has some. -/
def entries? (json : String) : Option (List Entry) := (Value.read? json).bind entriesOf?

/-- The jobs in all texts that have this form, one text after the other, and of those with the same
id the first. -/
def combined (stored : List StoredOverview) : List Entry :=
  (stored.flatMap fun o => (entries? o.json).getD []).eraseDupsBy fun e e' => e.id = e'.id

def Lists (text : String) (es : List Entry) : Prop :=
  ∃ items, Value.read? text = some (.record [("jobs", .array items)]) ∧
    List.Forall₂ (fun e item => Value.Alike e.kept item) es items

variable {json : String} {e : Entry} {es : List Entry} {id : Text} {v : Value}
  {members : List (Text × Value)}

section Reading

theorem mapM_map_result {α β γ : Type} (f : α → Option β) (g : β → γ) (xs : List α) :
    (xs.mapM fun x => (f x).map g) = (xs.mapM f).map (List.map g) := by
  induction xs with
  | nil => rfl
  | cons x xs ih =>
    rw [List.mapM_cons, List.mapM_cons, ih]
    cases f x with
    | none => rfl
    | some y => cases xs.mapM f <;> rfl

theorem passed?_listed (v : Value) :
    (listed (some v)).passed? = (Entry.ofValue? v).map Entry.listed := by
  unfold listed Entry.ofValue?
  rw [Check.Verdict.passed?_map, Check.passed?_record, Option.bind_some]
  cases v with
  | object members =>
    change ((Check.field "jid" Check.text _).passed?).map _ = _
    rw [Check.passed?_field, Check.passed?_text]
    change ((Value.find? idName members).bind Value.text?).map _ =
      Option.map _ ((Value.find? idName members).bind fun id => id.text?.bind fun id => _)
    cases Value.find? idName members with
    | none => rfl
    | some v => cases v <;> rfl
  | _ => rfl

theorem passed?_jobs (v : Value) :
    (jobs (some v)).passed? = (entriesOf? v).map (List.map Entry.listed) := by
  unfold jobs entriesOf?
  rw [Check.passed?_record, Option.bind_some]
  cases v.members? with
  | none => rfl
  | some members =>
    rw [Option.bind_some, Check.passed?_field, Check.passed?_listOf]
    change _ = Option.map _ ((Value.find? (Text.ofString "jobs") members).bind fun jobs =>
      jobs.items?.bind fun items => items.mapM Entry.ofValue?)
    cases Value.find? (Text.ofString "jobs") members with
    | none => rfl
    | some jobs =>
      rw [Option.bind_some, Option.bind_some]
      cases jobs.items? with
      | none => rfl
      | some items =>
        rw [Option.bind_some, Option.bind_some, ← mapM_map_result]
        exact congrArg (items.mapM ·) (funext passed?_listed)

theorem entriesOf?_jobs (items : List Value) :
    entriesOf? (.record [("jobs", .array items)]) = items.mapM Entry.ofValue? := by
  have hfind : Value.find? (Text.ofString "jobs") [(Text.ofString "jobs", Value.array items)] =
      some (.array items) := by simp [Value.find?]
  have hmembers : (Value.record [("jobs", .array items)]).members? =
      some [(Text.ofString "jobs", .array items)] := rfl
  simp only [entriesOf?, hmembers, hfind, Value.items?, Option.bind_eq_bind, Option.bind_some]

theorem read_of_entries? (h : entries? json = some es) :
    read json = .ok (es.map Entry.listed) := by
  obtain ⟨v, hv, hes⟩ := Option.bind_eq_some_iff.mp h
  have hpassed : (jobs (some v)).passed? = some (es.map Entry.listed) := by
    rw [passed?_jobs, hes, Option.map_some]
  unfold read
  rw [hv]
  dsimp only
  rw [Check.Verdict.toExcept_eq_ok_iff.mpr hpassed]

theorem read_of_no_entries (h : entries? json = none) : ∃ fault, read json = .error fault := by
  unfold read
  cases hv : Value.read? json with
  | none => exact ⟨_, rfl⟩
  | some v =>
    have hes : entriesOf? v = none := by
      rw [entries?, hv] at h
      exact h
    have hpassed : (jobs (some v)).passed? = none := by
      rw [passed?_jobs, hes, Option.map_none]
    dsimp only
    rw [Check.Verdict.toExcept_eq_error hpassed]
    exact ⟨_, rfl⟩

theorem Entry.of_ofValue? (h : ofValue? v = some e) :
    v = .object e.members ∧ Value.find? idName e.members = some (.string e.id) := by
  unfold ofValue? at h
  obtain ⟨members, hmembers, h⟩ := Option.bind_eq_some_iff.mp h
  obtain ⟨w, hw, h⟩ := Option.bind_eq_some_iff.mp h
  obtain ⟨id, hid, h⟩ := Option.bind_eq_some_iff.mp h
  cases h
  obtain rfl := Value.text?_eq_some_iff.mp hid
  exact ⟨Value.members?_eq_some_iff.mp hmembers, hw⟩

theorem mem_of_mapM {α β : Type} {f : α → Option β} {xs : List α} {ys : List β} {y : β}
    (h : xs.mapM f = some ys) (hy : y ∈ ys) : ∃ x ∈ xs, f x = some y := by
  induction xs generalizing ys with
  | nil =>
    cases h
    cases hy
  | cons x xs ih =>
    rw [List.mapM_cons] at h
    obtain ⟨z, hz, h⟩ := Option.bind_eq_some_iff.mp h
    obtain ⟨zs, hzs, h⟩ := Option.bind_eq_some_iff.mp h
    cases h
    rcases List.mem_cons.mp hy with rfl | hy
    · exact ⟨x, List.mem_cons_self .., hz⟩
    · obtain ⟨x', hx', hf⟩ := ih hzs hy
      exact ⟨x', List.mem_cons_of_mem _ hx', hf⟩

/-- A job as it was read: its parts are proper, and its id is found among them. -/
structure Entry.Sound (e : Entry) : Prop where
  proper : (Value.object e.members).Proper
  named : Value.find? idName e.members = some (.string e.id)

theorem sound_of_entries? (h : entries? json = some es) : ∀ e ∈ es, e.Sound := by
  obtain ⟨v, hv, h⟩ := Option.bind_eq_some_iff.mp h
  obtain ⟨members, hmembers, h⟩ := Option.bind_eq_some_iff.mp h
  obtain ⟨jobs, hjobs, h⟩ := Option.bind_eq_some_iff.mp h
  obtain ⟨items, hitems, h⟩ := Option.bind_eq_some_iff.mp h
  intro e he
  obtain ⟨item, hitem, hentry⟩ := mem_of_mapM h he
  obtain ⟨rfl, hid⟩ := Entry.of_ofValue? hentry
  refine ⟨?_, hid⟩
  -- an item of a member of a value that was read
  have hproper := Value.proper_of_read? hv
  obtain rfl := Value.members?_eq_some_iff.mp hmembers
  obtain rfl := Value.items?_eq_some_iff.mp hitems
  obtain ⟨hd, -, hvalues⟩ := hproper.of_object
  have hjobs := (Value.find?_eq_some_iff hd).mp hjobs
  exact (hvalues _ hjobs).of_array _ hitem

end Reading

section Merging

theorem firsts_listed (seen : List Text) (es : List Entry) : firsts seen (es.map Entry.listed) =
    ((es.filter fun e => e.id ∉ seen).eraseDupsBy fun e e' => e.id = e'.id).map Entry.listed := by
  induction es generalizing seen with
  | nil => rfl
  | cons e es ih =>
    rw [List.map_cons, firsts]
    change (if e.id ∈ seen then _ else _ :: firsts (e.id :: seen) _) = _
    by_cases he : e.id ∈ seen
    · rw [if_pos he, ih, List.filter_cons_of_neg (by simpa using he)]
    · -- behind a job come those that have neither its id nor one that was seen before
      have hrest : (es.filter fun e' => e'.id ∉ e.id :: seen) =
          (es.filter fun e' => e'.id ∉ seen).filter fun e' => decide (e'.id = e.id) = false := by
        rw [List.filter_filter]
        refine List.filter_congr fun e' _ => ?_
        simp
      rw [if_neg he, ih, List.filter_cons_of_pos (by simpa using he), List.eraseDupsBy_cons,
        List.map_cons, hrest]

theorem merge_eq_combined (stored : List StoredOverview) :
    merge stored = (combined stored).map Entry.listed := by
  have hoffered : (stored.flatMap fun o => (read o.json).toOption.getD []) =
      (stored.flatMap fun o => (entries? o.json).getD []).map Entry.listed := by
    rw [List.map_flatMap]
    refine List.flatMap_congr fun o _ => ?_
    cases h : entries? o.json with
    | none =>
      obtain ⟨fault, hfault⟩ := read_of_no_entries h
      rw [hfault]
      rfl
    | some es =>
      rw [read_of_entries? h]
      rfl
  unfold merge combined
  rw [hoffered, firsts_listed]
  congr 2
  simp

theorem eraseDupsBy_sublist {α : Type} (r : α → α → Bool) :
    ∀ xs : List α, (xs.eraseDupsBy r).Sublist xs
  | [] => .slnil
  | x :: xs => by
    rw [List.eraseDupsBy_cons]
    exact ((eraseDupsBy_sublist r _).trans List.filter_sublist).cons_cons x
termination_by xs => xs.length
decreasing_by exact Nat.lt_succ_of_le (List.length_filter_le _ _)

theorem pairwise_eraseDupsBy {α : Type} (r : α → α → Bool) :
    ∀ xs : List α, (xs.eraseDupsBy r).Pairwise fun x y => r y x = false
  | [] => .nil
  | x :: xs => by
    rw [List.eraseDupsBy_cons]
    refine .cons (fun y hy => ?_) (pairwise_eraseDupsBy r _)
    have hmem := (eraseDupsBy_sublist r _).subset hy
    simpa using (List.mem_filter.mp hmem).2
termination_by xs => xs.length
decreasing_by exact Nat.lt_succ_of_le (List.length_filter_le _ _)

theorem eraseDupsBy_of_pairwise {α : Type} {r : α → α → Bool} {xs : List α}
    (h : xs.Pairwise fun x y => r y x = false) : xs.eraseDupsBy r = xs := by
  induction xs with
  | nil => rfl
  | cons x xs ih =>
    obtain ⟨hx, hxs⟩ := List.pairwise_cons.mp h
    have hall : (xs.filter fun y => r y x = false) = xs := by
      rw [List.filter_eq_self]
      intro y hy
      simpa using hx y hy
    rw [List.eraseDupsBy_cons, hall, ih hxs]

theorem sound_of_combined {stored : List StoredOverview} : ∀ e ∈ combined stored, e.Sound := by
  intro e he
  obtain ⟨o, -, ho⟩ := List.mem_flatMap.mp ((eraseDupsBy_sublist _ _).subset he)
  cases h : entries? o.json with
  | none =>
    rw [h] at ho
    cases ho
  | some es =>
    rw [h] at ho
    exact sound_of_entries? h e ho

end Merging

section Writing

/-- The members of a listed job are those of the stored one in another order, less one. -/
theorem ordered_perm (h : e.Sound) : (ordered e.id e.members).Perm
    (e.members.filter fun m => m.1 ≠ droppedName) := by
  obtain ⟨hd, -, -⟩ := h.proper.of_object
  have hid : (idName, Value.string e.id) ∈ e.members := (Value.find?_eq_some_iff hd).mp h.named
  have hne : idName ≠ droppedName := by decide
  have hnodup : e.members.Nodup := .of_map _ hd
  have hordered : (ordered e.id e.members).Nodup := by
    refine List.nodup_cons.mpr ⟨fun hmem => ?_, hnodup.filter _⟩
    simp at hmem
  rw [List.perm_ext_iff_of_nodup hordered (hnodup.filter _)]
  intro m
  simp only [ordered, List.mem_cons, List.mem_filter, Bool.and_eq_true, decide_eq_true_eq]
  constructor
  · rintro (rfl | ⟨hm, -, hdropped⟩)
    · exact ⟨hid, hne⟩
    · exact ⟨hm, hdropped⟩
  · rintro ⟨hm, hdropped⟩
    by_cases hname : m.1 = idName
    · -- no two members have the name of the id
      have hsame := (Value.find?_eq_some_iff hd).mpr (hname ▸ hm : (idName, m.2) ∈ e.members)
      rw [h.named] at hsame
      exact .inl (Prod.ext hname (Option.some.inj hsame).symm)
    · exact .inr ⟨hm, hname, hdropped⟩

theorem proper_kept (h : e.Sound) : e.kept.Proper := by
  obtain ⟨hd, hn, hv⟩ := h.proper.of_object
  refine .object (hd.sublist (List.filter_sublist.map _)) (fun m hm => ?_) fun m hm => ?_
  · exact hn m (List.mem_of_mem_filter hm)
  · exact hv m (List.mem_of_mem_filter hm)

theorem proper_listed (h : e.Sound) : (Value.object e.listed.members).Proper :=
  (proper_kept h).perm (ordered_perm h)

/-- A listed job is read as the stored one, less the member that is not kept. -/
theorem alike_listed (h : e.Sound) :
    e.kept.Alike (Value.object e.listed.members).asWritten := by
  obtain ⟨-, -, hv⟩ := (proper_kept h).of_object
  rw [Value.asWritten_object]
  apply Value.alike_object ((Value.inWritingOrder_perm _).trans (ordered_perm h))
  intro m hm
  exact Value.alike_asWritten (hv m hm)

theorem asWritten_jobs (items : List Value) :
    (Value.record [("jobs", .array items)]).asWritten =
      .record [("jobs", .array (items.map Value.asWritten))] := by
  have hi : ∀ name ∈ [("jobs", Value.array items)].map Prod.fst,
      (Text.ofString name).index? = none := by
    change ∀ name ∈ ["jobs"], (Text.ofString name).index? = none
    decide
  rw [Value.asWritten_record hi, List.map_singleton, Value.asWritten_array]

theorem read?_write {es : List Entry} (h : ∀ e ∈ es, e.Sound) :
    Value.read? (write (es.map Entry.listed)) = some (.record [("jobs",
      .array (es.map fun e => (Value.object e.listed.members).asWritten))]) := by
  have hproper : ∀ v ∈ (es.map Entry.listed).map fun j => Value.object j.members, v.Proper := by
    intro v hv
    obtain ⟨j, hj, rfl⟩ := List.mem_map.mp hv
    obtain ⟨e, he, rfl⟩ := List.mem_map.mp hj
    exact proper_listed (h e he)
  unfold write
  have hrecord : (Value.record [("jobs", .array
      ((es.map Entry.listed).map fun j => .object j.members))]).Proper := by
    apply Value.Proper.record
    · exact List.nodup_singleton _
    · exact List.forall_mem_singleton.mpr (.array hproper)
  rw [Value.read?_text hrecord, asWritten_jobs, List.map_map, List.map_map]
  rfl

/-- The text of a merge lists the jobs that are to be combined. -/
theorem lists_merge (stored : List StoredOverview) :
    Lists (write (merge stored)) (combined stored) := by
  refine ⟨_, merge_eq_combined stored ▸ read?_write sound_of_combined, ?_⟩
  rw [List.forall₂_map_right_iff, List.forall₂_same]
  intro e he
  exact alike_listed (sound_of_combined e he)

end Writing

end ArchiveKeeper.Overview
