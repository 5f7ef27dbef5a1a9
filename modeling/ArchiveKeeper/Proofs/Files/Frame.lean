import ArchiveKeeper.Proofs.Files.Tree

namespace ArchiveKeeper.Files.Tree

variable {t t' : Tree} {p q here : Path} {rest : List String} {n : Node}

theorem follow_congr (hp : ∀ s ∈ rest, Path.IsPlain s)
    (h : ∀ q, q <+: rest → t'.node? (here ++ q) = t.node? (here ++ q)) :
    t'.follow here rest = t.follow here rest := by
  have hh : t'.node? here = t.node? here := by simpa using h [] List.nil_prefix
  induction rest generalizing here with
  | nil => rw [follow, follow, hh]
  | cons s rest ih =>
    have hrest : ∀ q, q <+: rest → t'.node? (here ++ [s] ++ q) = t.node? (here ++ [s] ++ q) := by
      intro q hq
      simpa using h (s :: q) ((List.prefix_cons_inj s).mpr hq)
    have hnext : t'.follow (here ++ [s]) rest = t.follow (here ++ [s]) rest :=
      ih (fun s' hs' => hp s' (List.mem_cons_of_mem _ hs')) hrest
        (by simpa using hrest [] List.nil_prefix)
    obtain ⟨hdot, hdots⟩ := hp s (List.mem_cons_self ..)
    simp only [follow, hh, if_neg hdot, if_neg hdots, hnext]

/-- Where nothing was changed on the way to a path, the same is found at it. -/
theorem find_congr (hp : ∀ s ∈ p, Path.IsPlain s) (h : ∀ q, q <+: p → t'.node? q = t.node? q) :
    t'.find p = t.find p := by
  have hfollow : t'.follow [] p = t.follow [] p := follow_congr hp h
  rw [Tree.find, Tree.find, hfollow]

theorem follow_eq_of_paved (hp : ∀ s ∈ rest, Path.IsPlain s)
    (hs : ∀ s ∈ rest, Text.byteCount s ≤ longestName)
    (h : ∀ q, q <+: rest → t'.node? (here ++ q) = t.node? (here ++ q) ∨
      t.node? (here ++ q) = none ∧ t'.node? (here ++ q) = some .directory ∧ q ≠ rest)
    (hbelow : ∀ q r, q <+: r → r <+: rest → t.node? (here ++ q) = none →
      t.node? (here ++ r) = none) : t'.follow here rest = t.follow here rest := by
  -- down to the first path where a directory came to be, both follow the same way
  induction rest generalizing here with
  | nil =>
    have hh : t'.node? (here ++ []) = t.node? (here ++ []) :=
      (h [] List.nil_prefix).resolve_right fun hnew => hnew.2.2 rfl
    rw [List.append_nil] at hh
    rw [follow, follow, hh]
  | cons s rest ih =>
    have hlift {q : Path} (hq : q <+: rest) : s :: q <+: s :: rest := (List.prefix_cons_inj s).mpr hq
    rcases h [] List.nil_prefix with hh | ⟨hnone, -, -⟩
    · rw [List.append_nil] at hh
      have hnext : t'.follow (here ++ [s]) rest = t.follow (here ++ [s]) rest := by
        refine ih (fun s' hs' => hp s' (List.mem_cons_of_mem _ hs'))
          (fun s' hs' => hs s' (List.mem_cons_of_mem _ hs')) (fun q hq => ?_) fun q r hqr hr => ?_
        · simpa using h (s :: q) (hlift hq)
        · simpa using hbelow (s :: q) (s :: r) ((List.prefix_cons_inj s).mpr hqr) (hlift hr)
      obtain ⟨hdot, hdots⟩ := hp s (List.mem_cons_self ..)
      simp only [follow, hh, if_neg hdot, if_neg hdots, hnext]
    · -- from here on there was nothing, and there are no more than directories now
      have hgone (q : Path) (hq : q <+: s :: rest) : t.node? (here ++ q) = none :=
        hbelow [] q List.nil_prefix hq hnone
      have hmissing : t'.follow here (s :: rest) = .error .notFound := by
        refine follow_of_missing hp hs (fun q hq => ?_) ?_
        · rcases h q hq with he | ⟨-, hd, -⟩
          · exact .inl (he.trans (hgone q hq))
          · exact .inr hd
        · rcases h (s :: rest) (List.prefix_refl _) with he | ⟨-, -, hne⟩
          · exact he.trans (hgone _ (List.prefix_refl _))
          · exact absurd rfl hne
      rw [List.append_nil] at hnone
      rw [hmissing, follow, hnone]

/-- Where directories came to be on the way to a path at which there is nothing, there still is
nothing. -/
theorem find_eq_of_paved (hp : ∀ s ∈ p, Path.IsPlain s)
    (hs : ∀ s ∈ p, Text.byteCount s ≤ longestName)
    (h : ∀ q, q <+: p → t'.node? q = t.node? q ∨
      t.node? q = none ∧ t'.node? q = some .directory ∧ q ≠ p)
    (hbelow : ∀ q r, q <+: r → r <+: p → t.node? q = none → t.node? r = none) :
    t'.find p = t.find p := by
  have hfollow : t'.follow [] p = t.follow [] p := follow_eq_of_paved hp hs h hbelow
  rw [Tree.find, Tree.find, hfollow]

theorem above_of_follow {x : Path × Node} (hp : ∀ s ∈ rest, Path.IsPlain s)
    (h : t.follow here rest = .ok x) : (∀ s ∈ rest, Text.byteCount s ≤ longestName) ∧
      ∀ q, q <+: rest → q ≠ rest → t.node? (here ++ q) = some .directory := by
  induction rest generalizing here with
  | nil => exact ⟨by simp, fun q hq hne => absurd (List.prefix_nil.mp hq) hne⟩
  | cons s rest ih =>
    have hh : t.node? here = some .directory := by
      rw [follow] at h
      split at h
      · cases h
      · assumption
      · cases h
    rw [follow_cons (hp s (List.mem_cons_self ..)) hh] at h
    split at h
    · cases h
    rename_i hlen
    obtain ⟨hshort, habove⟩ := ih (fun s' hs' => hp s' (List.mem_cons_of_mem _ hs')) h
    refine ⟨List.forall_mem_cons.mpr ⟨Nat.not_lt.mp hlen, hshort⟩, fun q hq hne => ?_⟩
    cases q with
    | nil => simpa using hh
    | cons s' q =>
      obtain ⟨rfl, hrest⟩ := List.cons_prefix_cons.mp hq
      simpa using habove q hrest fun he => hne (by rw [he])

theorem reaches_of_find (hp : ∀ s ∈ p, Path.IsPlain s) (h : t.find p = .ok n) : Reaches t p := by
  unfold Tree.find at h
  split at h
  · cases h
  rename_i hacc
  cases hf : t.follow [] p with
  | error e => simp [hf, Except.map] at h
  | ok x =>
    obtain ⟨hshort, habove⟩ := above_of_follow hp hf
    exact ⟨hp, hshort, hacc, habove⟩

theorem Reaches.of_prefix (h : Reaches t p) (hq : q <+: p) : Reaches t q := by
  refine ⟨fun s hs => h.plain s (hq.subset hs), fun s hs => h.short s (hq.subset hs),
    accept_of_above hq h.accepted, fun r hr hne => h.above r (hr.trans hq) ?_⟩
  rintro rfl
  exact hne (hr.eq_of_length_le hq.length_le)

theorem find_ne_notFound_of_prefix (h : Reaches t p) (hn : t.node? p ≠ none) (hq : q <+: p) :
    t.find q ≠ .error .notFound := by
  rw [(h.of_prefix hq).find]
  by_cases he : q = p
  · obtain ⟨n, hn⟩ := Option.ne_none_iff_exists'.mp hn
    rw [he, hn]
    simp
  · rw [h.above q hq he]
    simp

theorem follow_append {more : List String} (hp : ∀ s ∈ rest, Path.IsPlain s)
    (hs : ∀ s ∈ rest, Text.byteCount s ≤ longestName)
    (ha : ∀ q, q <+: rest → q ≠ rest → t.node? (here ++ q) = some .directory) :
    t.follow here (rest ++ more) = t.follow (here ++ rest) more := by
  induction rest generalizing here with
  | nil => rw [List.nil_append, List.append_nil]
  | cons s rest ih =>
    have hh : t.node? here = some .directory := by
      simpa using ha [] List.nil_prefix (List.cons_ne_nil _ _).symm
    rw [List.cons_append, follow_cons (hp s (List.mem_cons_self ..)) hh,
      if_neg (Nat.not_lt.mpr (hs s (List.mem_cons_self ..))),
      ih (fun s' hs' => hp s' (List.mem_cons_of_mem _ hs'))
        (fun s' hs' => hs s' (List.mem_cons_of_mem _ hs')) fun q hq hne => ?_, List.append_assoc,
      List.singleton_append]
    simpa using ha (s :: q) ((List.prefix_cons_inj s).mpr hq) (by simpa using hne)

/-- What is missing in a place that can be reached could be reached itself. -/
theorem reaches_of_notFound {s : String} (h : Reaches t p) (hn : t.node? p ≠ none)
    (hs : Path.IsPlain s) (hf : t.find (p ++ [s]) = .error .notFound) :
    Reaches t (p ++ [s]) ∧ t.node? (p ++ [s]) = none := by
  unfold Tree.find at hf
  split at hf
  · rename_i e hacc
    exact absurd (Except.error.inj hf) (ne_notFound_of_accept hacc)
  rename_i hacc
  have hfollow : t.follow [] (p ++ [s]) = t.follow p [s] := follow_append h.plain h.short h.above
  rw [hfollow] at hf
  have hd : t.node? p = some .directory := by
    cases hp : t.node? p with
    | none => exact absurd hp hn
    | some m => cases m <;> first | rfl | simp [follow, hp, Except.map] at hf
  rw [follow_cons hs hd] at hf
  split at hf
  · cases hf
  rename_i hlen
  refine ⟨reaches_concat h hd hs (Nat.not_lt.mp hlen) hacc, ?_⟩
  by_contra hsome
  obtain ⟨m, hm⟩ := Option.ne_none_iff_exists'.mp hsome
  simp [follow, hm, Except.map] at hf

/-- A file that is put in place of another one is in nobody's way. -/
theorem Reaches.insert (h : Reaches t q) (hd : t.node? p ≠ some .directory) :
    Reaches (t.insert p n) q := by
  have hne : p ≠ [] := by
    rintro rfl
    exact hd node?_nil
  refine h.mono fun r hr => ?_
  rw [node?_insert hne, if_neg, hr]
  rintro rfl
  exact hd hr

theorem node?_removeAll_of_not_below (h : ¬ p <+: q) : (t.removeAll p).2.node? q = t.node? q := by
  unfold removeAll
  split
  · rfl
  · rfl
  · rw [node?_eraseBelow, if_neg fun hq => h hq.2]

theorem makeDirectoriesFrom_of_there (hs : ∀ s ∈ rest, Text.byteCount s ≤ longestName)
    (hd : ∀ q, q <+: rest → t.node? (here ++ q) = some .directory) :
    t.makeDirectoriesFrom here rest = (.ok (), t) := by
  induction rest generalizing here with
  | nil => rfl
  | cons s rest ih =>
    have hnext (q : Path) (hq : q <+: rest) : t.node? (here ++ [s] ++ q) = some .directory := by
      simpa using hd (s :: q) ((List.prefix_cons_inj s).mpr hq)
    have hthere : t.node? (here ++ [s]) = some .directory := by
      simpa using hnext [] List.nil_prefix
    rw [makeDirectoriesFrom, if_neg (Nat.not_lt.mpr (hs s (List.mem_cons_self ..)))]
    dsimp only
    rw [hthere]
    exact ih (fun s' hs' => hs s' (List.mem_cons_of_mem _ hs')) hnext

theorem makeDirectories_of_there (h : Reaches t p) (hd : t.node? p = some .directory) :
    t.makeDirectories p = (.ok (), t) := by
  rw [makeDirectories, h.accepted]
  exact makeDirectoriesFrom_of_there h.short fun q hq => h.directory_of_prefix hd hq

/-- Where two trees are the same on the way to a path, directories are made alike on it. -/
theorem makeDirectoriesFrom_congr
    (h : ∀ q, q <+: rest → t'.node? (here ++ q) = t.node? (here ++ q)) :
    (t'.makeDirectoriesFrom here rest).1 = (t.makeDirectoriesFrom here rest).1 ∧
      ∀ p, t'.node? p = t.node? p → (t'.makeDirectoriesFrom here rest).2.node? p =
        (t.makeDirectoriesFrom here rest).2.node? p := by
  induction rest generalizing t t' here with
  | nil => exact ⟨rfl, fun p hp => hp⟩
  | cons s rest ih =>
    have hbelow (q : Path) (hq : q <+: rest) :
        t'.node? (here ++ [s] ++ q) = t.node? (here ++ [s] ++ q) := by
      simpa using h (s :: q) ((List.prefix_cons_inj s).mpr hq)
    have hnext : t'.node? (here ++ [s]) = t.node? (here ++ [s]) := by
      simpa using hbelow [] List.nil_prefix
    rw [makeDirectoriesFrom, makeDirectoriesFrom]
    split
    · exact ⟨rfl, fun p hp => hp⟩
    dsimp only
    rw [hnext]
    split
    · exact ih hbelow
    · exact ⟨rfl, fun p hp => hp⟩
    · -- what was the same still is, with the new directory in both
      have hmade (p : Path) (hp : t'.node? p = t.node? p) :
          (t'.insert (here ++ [s]) .directory).node? p =
            (t.insert (here ++ [s]) .directory).node? p := by
        rw [node?_insert (by simp), node?_insert (by simp), hp]
      obtain ⟨houtcome, hsame⟩ := ih fun q hq => hmade _ (hbelow q hq)
      exact ⟨houtcome, fun p hp => hsame p (hmade p hp)⟩

theorem makeDirectories_congr (h : ∀ q, q <+: p → t'.node? q = t.node? q) :
    (t'.makeDirectories p).1 = (t.makeDirectories p).1 ∧
      ∀ q, t'.node? q = t.node? q →
        (t'.makeDirectories p).2.node? q = (t.makeDirectories p).2.node? q := by
  rw [makeDirectories, makeDirectories]
  split
  · exact ⟨rfl, fun q hq => hq⟩
  · exact makeDirectoriesFrom_congr h

theorem replace_congr (text : String) (hp : p ≠ []) (h : t'.node? p = t.node? p) :
    (t'.replace p text).1 = (t.replace p text).1 ∧
      ∀ q, t'.node? q = t.node? q →
        (t'.replace p text).2.node? q = (t.replace p text).2.node? q := by
  unfold replace
  dsimp only
  split
  · exact ⟨rfl, fun q hq => hq⟩
  split
  · exact ⟨rfl, fun q hq => hq⟩
  split
  · exact ⟨rfl, fun q hq => hq⟩
  rw [h]
  split
  · exact ⟨rfl, fun q hq => hq⟩
  · refine ⟨rfl, fun q hq => ?_⟩
    rw [node?_insert hp, node?_insert hp, hq]

end ArchiveKeeper.Files.Tree
