import ArchiveKeeper.Json.Printer
import Mathlib.Data.List.Induction
import Mathlib.Data.List.Nodup

namespace ArchiveKeeper.Json

theorem Text.ofString_eq_nil {s : String} : Text.ofString s = [] ↔ s = "" := by
  constructor
  · intro h
    exact ofString_injective (h.trans rfl)
  · rintro rfl
    rfl

namespace Value

theorem find?_ofString_cons (name key : String) (v : Value) (ms : List (Text × Value)) :
    find? (Text.ofString name) ((Text.ofString key, v) :: ms) =
      if key = name then some v else find? (Text.ofString name) ms := by
  by_cases h : key = name
  · simp [find?, h]
  · have hne : Text.ofString key ≠ Text.ofString name := fun he => h (Text.ofString_injective he)
    simp [find?, h, hne]

theorem put_of_not_mem {α : Type} {name : Text} {value : α} {members : List (Text × α)}
    (h : name ∉ members.map Prod.fst) : put name value members = members ++ [(name, value)] := by
  induction members with
  | nil => rfl
  | cons m members ih =>
    rw [List.map_cons, List.mem_cons, not_or] at h
    rw [put, if_neg (Ne.symm h.1), ih h.2, List.cons_append]

theorem settle_of_nodup {α : Type} {members : List (Text × α)}
    (h : (members.map Prod.fst).Nodup) : settle members = members := by
  have hgo (done rest : List (Text × α)) (h : ((done ++ rest).map Prod.fst).Nodup) :
      rest.foldl (fun members (n, v) => put n v members) done = done ++ rest := by
    induction rest generalizing done with
    | nil => simp
    | cons m rest ih =>
      have hnew : m.1 ∉ done.map Prod.fst := by
        rw [List.map_append, List.nodup_append] at h
        exact fun hm => h.2.2 _ hm _ (by simp) rfl
      -- no member before it has its name, so it comes last
      rw [List.foldl_cons]
      change rest.foldl _ (put m.1 m.2 done) = _
      rw [put_of_not_mem hnew, ih _ (by simpa using h)]
      simp
  exact hgo [] members h

section WritingOrder

variable {α β : Type} {members members' : List (Text × α)}

def indexed (members : List (Text × α)) : List (Nat × Text × α) :=
  members.filterMap fun m => m.1.index?.map (·, m)

def named (members : List (Text × α)) : List (Text × α) :=
  members.filter fun m => m.1.index?.isNone

theorem inWritingOrder_eq (members : List (Text × α)) : inWritingOrder members =
    ((indexed members).mergeSort fun a b => a.1 ≤ b.1).map Prod.snd ++ named members := rfl

theorem inWritingOrder_of_named (h : ∀ m ∈ members, m.1.index? = none) :
    inWritingOrder members = members := by
  have hindexed : indexed members = [] := by
    unfold indexed
    rw [List.filterMap_eq_nil_iff]
    intro m hm
    rw [h m hm, Option.map_none]
  have hnamed : named members = members := by
    unfold named
    rw [List.filter_eq_self]
    intro m hm
    rw [h m hm, Option.isNone_none]
  rw [inWritingOrder_eq, hindexed, hnamed]
  simp

theorem map_snd_indexed (members : List (Text × α)) :
    (indexed members).map Prod.snd = members.filter fun m => m.1.index?.isSome := by
  induction members with
  | nil => rfl
  | cons m members ih =>
    unfold indexed at ih ⊢
    cases h : m.1.index? with
    | none => simpa [h] using ih
    | some i => simpa [h] using ih

theorem inWritingOrder_perm (members : List (Text × α)) :
    (inWritingOrder members).Perm members := by
  have hsorted : (((indexed members).mergeSort fun a b => a.1 ≤ b.1).map Prod.snd).Perm
      (members.filter fun m => m.1.index?.isSome) := by
    rw [← map_snd_indexed]
    exact (List.mergeSort_perm _ _).map _
  have hparts : (named members ++ members.filter fun m => m.1.index?.isSome).Perm members := by
    unfold named
    simpa using List.filter_append_perm (fun m : Text × α => m.1.index?.isNone) members
  rw [inWritingOrder_eq]
  exact ((hsorted.append_right (named members)).trans List.perm_append_comm).trans hparts

theorem inWritingOrder_map (f : α → β) (members : List (Text × α)) :
    inWritingOrder (members.map fun m => (m.1, f m.2)) =
      (inWritingOrder members).map fun m => (m.1, f m.2) := by
  have hindexed : indexed (members.map fun m => (m.1, f m.2)) =
      (indexed members).map fun i => (i.1, i.2.1, f i.2.2) := by
    unfold indexed
    rw [List.filterMap_map, List.map_filterMap]
    refine List.filterMap_congr fun m _ => ?_
    simp only [Function.comp_apply, Option.map_map]
    rfl
  have hnamed : named (members.map fun m => (m.1, f m.2)) =
      (named members).map fun m => (m.1, f m.2) := by
    unfold named
    rw [List.filter_map]
    rfl
  -- the sort compares the indices only, which the map leaves alone
  have hsorted : (indexed (members.map fun m => (m.1, f m.2))).mergeSort
      (fun a b => decide (a.1 ≤ b.1)) =
      ((indexed members).mergeSort fun a b => decide (a.1 ≤ b.1)).map
        fun i => (i.1, i.2.1, f i.2.2) := by
    rw [hindexed]
    apply Eq.symm
    apply List.map_mergeSort
    intro _ _ _ _
    rfl
  rw [inWritingOrder_eq, inWritingOrder_eq, hsorted, hnamed, List.map_append, List.map_map,
    List.map_map]
  rfl

/-- The order depends on the indexes among the names, and on the others, one apart from the other.
-/
theorem inWritingOrder_congr (hi : indexed members = indexed members')
    (hn : named members = named members') : inWritingOrder members = inWritingOrder members' := by
  rw [inWritingOrder_eq, inWritingOrder_eq, hi, hn]

theorem indexed_append : indexed (members ++ members') = indexed members ++ indexed members' :=
  List.filterMap_append

theorem indexed_cons_of_none {m : Text × α} (h : m.1.index? = none) :
    indexed (m :: members) = indexed members := by
  unfold indexed
  rw [List.filterMap_cons, h]
  rfl

theorem indexed_filter {p : Text × α → Bool} (h : ∀ m ∈ members, p m = false → m.1.index? = none) :
    indexed (members.filter p) = indexed members := by
  induction members with
  | nil => rfl
  | cons m members ih =>
    obtain ⟨hm, hmembers⟩ := List.forall_mem_cons.mp h
    have ih := ih hmembers
    cases hp : p m with
    | true =>
      unfold indexed at ih ⊢
      rw [List.filter_cons_of_pos hp, List.filterMap_cons, List.filterMap_cons, ih]
    | false =>
      rw [List.filter_cons_of_neg (by simp [hp]), indexed_cons_of_none (hm hp), ih]

theorem named_append : named (members ++ members') = named members ++ named members' :=
  List.filter_append ..

theorem index?_of_mem_indexed {i : Nat × Text × α} (h : i ∈ indexed members) :
    i.2.1.index? = some i.1 := by
  obtain ⟨m, -, hm⟩ := List.mem_filterMap.mp h
  obtain ⟨n, hn, rfl⟩ := Option.map_eq_some_iff.mp hm
  exact hn

theorem indexed_map_snd {is : List (Nat × Text × α)} (h : ∀ i ∈ is, i.2.1.index? = some i.1) :
    indexed (is.map Prod.snd) = is := by
  unfold indexed
  rw [List.filterMap_map]
  have hsome : ∀ i ∈ is, ((fun m : Text × α => m.1.index?.map (·, m)) ∘ Prod.snd) i = some i := by
    intro i hi
    simp [h i hi]
  rw [List.filterMap_congr hsome, List.filterMap_some]

theorem named_map_snd {is : List (Nat × Text × α)} (h : ∀ i ∈ is, i.2.1.index? = some i.1) :
    named (is.map Prod.snd) = [] := by
  unfold named
  rw [List.filter_eq_nil_iff]
  intro m hm
  obtain ⟨i, hi, rfl⟩ := List.mem_map.mp hm
  simp [h i hi]

theorem indexed_named (members : List (Text × α)) : indexed (named members) = [] := by
  unfold indexed
  rw [List.filterMap_eq_nil_iff]
  intro m hm
  have hnone := (List.mem_filter.mp hm).2
  rw [Option.isNone_iff_eq_none.mp hnone, Option.map_none]

theorem indexed_inWritingOrder (members : List (Text × α)) : indexed (inWritingOrder members) =
    (indexed members).mergeSort fun a b => a.1 ≤ b.1 := by
  rw [inWritingOrder_eq, indexed_append, indexed_named, List.append_nil]
  apply indexed_map_snd
  intro i hi
  exact index?_of_mem_indexed (List.mem_mergeSort.mp hi)

theorem named_inWritingOrder (members : List (Text × α)) :
    named (inWritingOrder members) = named members := by
  rw [inWritingOrder_eq, named_append, named_map_snd, List.nil_append]
  · exact List.filter_filter.trans (by simp [named])
  · intro i hi
    exact index?_of_mem_indexed (List.mem_mergeSort.mp hi)

theorem inWritingOrder_idem (members : List (Text × α)) :
    inWritingOrder (inWritingOrder members) = inWritingOrder members := by
  have hsorted : ((indexed members).mergeSort fun a b => decide (a.1 ≤ b.1)).mergeSort
      (fun a b => decide (a.1 ≤ b.1)) =
      (indexed members).mergeSort fun a b => decide (a.1 ≤ b.1) := by
    apply List.mergeSort_of_pairwise
    apply List.pairwise_mergeSort
    · intro a b c hab hbc
      simp only [decide_eq_true_eq] at hab hbc ⊢
      omega
    · intro a b
      simp only [Bool.or_eq_true, decide_eq_true_eq]
      omega
  rw [inWritingOrder_eq (inWritingOrder members), indexed_inWritingOrder, named_inWritingOrder,
    hsorted, inWritingOrder_eq]

end WritingOrder

section Settling

variable {α : Type} {name : Text} {value : α} {members settings : List (Text × α)}

theorem mem_put {m : Text × α} (h : m ∈ put name value members) :
    m = (name, value) ∨ m ∈ members := by
  induction members with
  | nil => exact .inl (List.mem_singleton.mp h)
  | cons m' members ih =>
    rw [put] at h
    split at h
    · rename_i hname
      rcases List.mem_cons.mp h with rfl | hm
      · exact .inl (by rw [hname])
      · exact .inr (List.mem_cons_of_mem _ hm)
    · rcases List.mem_cons.mp h with rfl | hm
      · exact .inr (List.mem_cons_self ..)
      · exact (ih hm).imp_right (List.mem_cons_of_mem _)

theorem names_put_subset : (put name value members).map Prod.fst ⊆
    name :: members.map Prod.fst := by
  intro n hn
  obtain ⟨m, hm, rfl⟩ := List.mem_map.mp hn
  rcases mem_put hm with rfl | hm
  · exact List.mem_cons_self ..
  · exact List.mem_cons_of_mem _ (List.mem_map_of_mem hm)

theorem nodup_put (h : (members.map Prod.fst).Nodup) :
    ((put name value members).map Prod.fst).Nodup := by
  induction members with
  | nil => exact List.nodup_singleton _
  | cons m members ih =>
    obtain ⟨hm, hrest⟩ := List.nodup_cons.mp h
    rw [put]
    split
    · exact List.nodup_cons.mpr ⟨hm, hrest⟩
    · rename_i hname
      refine List.nodup_cons.mpr ⟨fun hmem => ?_, ih hrest⟩
      rcases List.mem_cons.mp (names_put_subset hmem) with he | he
      · exact hname he
      · exact hm he

theorem settle_spec (settings : List (Text × α)) :
    ((settle settings).map Prod.fst).Nodup ∧ ∀ m ∈ settle settings, m ∈ settings := by
  have hgo (done rest : List (Text × α)) (h : (done.map Prod.fst).Nodup) :
      ((rest.foldl (fun members (n, v) => put n v members) done).map Prod.fst).Nodup ∧
        ∀ m ∈ rest.foldl (fun members (n, v) => put n v members) done, m ∈ done ∨ m ∈ rest := by
    induction rest generalizing done with
    | nil => exact ⟨h, fun m hm => .inl hm⟩
    | cons m rest ih =>
      obtain ⟨hnodup, hmem⟩ := ih (put m.1 m.2 done) (nodup_put h)
      refine ⟨hnodup, fun m' hm' => ?_⟩
      rcases hmem m' hm' with hput | hrest
      · rcases mem_put hput with rfl | hdone
        · exact .inr (List.mem_cons_self ..)
        · exact .inl hdone
      · exact .inr (List.mem_cons_of_mem _ hrest)
  obtain ⟨hnodup, hmem⟩ := hgo [] settings List.nodup_nil
  exact ⟨hnodup, fun m hm => (hmem m hm).resolve_left List.not_mem_nil⟩

theorem find?_eq_some_iff (h : (members.map Prod.fst).Nodup) :
    find? name members = some value ↔ (name, value) ∈ members := by
  induction members with
  | nil => simp [find?]
  | cons m members ih =>
    obtain ⟨hm, hrest⟩ := List.nodup_cons.mp h
    have hrest := ih hrest
    by_cases hname : m.1 = name
    · have hfind : find? name (m :: members) = some m.2 := by simp [find?, hname]
      rw [hfind, List.mem_cons]
      refine ⟨fun hv => .inl ?_, fun hv => ?_⟩
      · rw [← hname, ← Option.some.inj hv]
      · rcases hv with rfl | hv
        · rfl
        · exact absurd (hname ▸ List.mem_map_of_mem hv) hm
    · have hfind : find? name (m :: members) = find? name members := by simp [find?, hname]
      rw [hfind, hrest, List.mem_cons]
      refine ⟨.inr, fun hv => hv.resolve_left ?_⟩
      rintro rfl
      exact hname rfl

theorem find?_put (name key : Text) (value : α) (members : List (Text × α)) :
    find? name (put key value members) = if key = name then some value else find? name members := by
  induction members with
  | nil => by_cases h : key = name <;> simp [put, find?, h]
  | cons m members ih =>
    by_cases hkey : m.1 = key
    · rw [put, if_pos hkey]
      by_cases h : key = name <;> simp [find?, hkey, h]
    · rw [put, if_neg hkey]
      by_cases h : m.1 = name
      · have hne : key ≠ name := fun he => hkey (h.trans he.symm)
        simp [find?, h, hne]
      · simpa [find?, h] using ih

theorem find?_perm {members' : List (Text × α)} (h : (members.map Prod.fst).Nodup)
    (hperm : members.Perm members') : find? name members = find? name members' := by
  have h' : (members'.map Prod.fst).Nodup := (hperm.map _).nodup_iff.mp h
  ext value
  rw [find?_eq_some_iff h, find?_eq_some_iff h']
  exact hperm.mem_iff

theorem find?_map {β : Type} (f : α → β) (name : Text) (members : List (Text × α)) :
    find? name (members.map fun m => (m.1, f m.2)) = (find? name members).map f := by
  unfold find?
  rw [List.find?_map, Option.map_map, Option.map_map]
  rfl

theorem settle_concat (settings : List (Text × α)) (m : Text × α) :
    settle (settings ++ [m]) = put m.1 m.2 (settle settings) := List.foldl_concat ..

/-- The last setting with a name is the one that counts. -/
theorem find?_settle (name : Text) (settings : List (Text × α)) :
    find? name (settle settings) = find? name settings.reverse := by
  induction settings using List.reverseRecOn with
  | nil => rfl
  | append_singleton settings m ih =>
    rw [settle_concat, find?_put, ih, List.reverse_concat]
    by_cases h : m.1 = name <;> simp [find?, h]

theorem names_put (name : Text) (value : α) (members : List (Text × α)) :
    (put name value members).map Prod.fst = members.map Prod.fst ++
      if name ∈ members.map Prod.fst then [] else [name] := by
  induction members with
  | nil => rfl
  | cons m members ih =>
    rw [put]
    by_cases h : m.1 = name
    · simp [h]
    · have hmem : name ∈ (m :: members).map Prod.fst ↔ name ∈ members.map Prod.fst := by
        rw [List.map_cons, List.mem_cons, or_iff_right (Ne.symm h)]
      rw [if_neg h, List.map_cons, ih, List.map_cons, List.cons_append]
      exact congrArg _ (congrArg _ (if_congr hmem rfl rfl).symm)

theorem names_settle (settings : List (Text × α)) :
    (settle settings).map Prod.fst = (settings.map Prod.fst).eraseDups := by
  induction settings using List.reverseRecOn with
  | nil => rfl
  | append_singleton settings m ih =>
    rw [settle_concat, names_put, ih, List.map_append, List.eraseDups_append]
    by_cases h : m.1 ∈ settings.map Prod.fst <;> simp [h, List.removeAll, List.eraseDups_cons]

theorem eq_filterMap_names (h : (members.map Prod.fst).Nodup) :
    members = (members.map Prod.fst).filterMap fun name =>
      (find? name members).map fun value => (name, value) := by
  have hsome : ∀ m ∈ members, ((fun name => (find? name members).map fun value => (name, value)) ∘
      Prod.fst) m = some m := by
    intro m hm
    rw [Function.comp_apply, (find?_eq_some_iff h).mpr hm]
    rfl
  rw [List.filterMap_map, List.filterMap_congr hsome, List.filterMap_some]

/-- Members with names of their own are told by the names and what is found under them. -/
theorem eq_of_find?_eq {members' : List (Text × α)} (hd : (members.map Prod.fst).Nodup)
    (hnames : members.map Prod.fst = members'.map Prod.fst)
    (hfind : ∀ name, find? name members = find? name members') : members = members' := by
  have hd' : (members'.map Prod.fst).Nodup := hnames ▸ hd
  calc members = (members.map Prod.fst).filterMap fun name =>
        (find? name members).map fun value => (name, value) := eq_filterMap_names hd
    _ = (members'.map Prod.fst).filterMap fun name =>
        (find? name members').map fun value => (name, value) := by simp only [hnames, hfind]
    _ = members' := (eq_filterMap_names hd').symm

end Settling

/-- The members that settings leave: each name has its last value, in the order of the first
settings. -/
structure Settles {α : Type} (settings members : List (Text × α)) : Prop where
  names : members.map Prod.fst = (settings.map Prod.fst).eraseDups
  last : ∀ name, find? name members = find? name settings.reverse

theorem settles_iff {α : Type} {settings members : List (Text × α)} :
    Settles settings members ↔ members = settle settings := by
  constructor
  · rintro ⟨hnames, hlast⟩
    refine (eq_of_find?_eq (settle_spec settings).1 ?_ fun name => ?_).symm
    · rw [names_settle, hnames]
    · rw [find?_settle, hlast]
  · rintro rfl
    exact ⟨names_settle settings, fun name => find?_settle name settings⟩

end Value

end ArchiveKeeper.Json
