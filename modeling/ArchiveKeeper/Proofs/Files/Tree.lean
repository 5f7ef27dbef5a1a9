import ArchiveKeeper.Files.Tree
import ArchiveKeeper.Proofs.Files.Path
import Mathlib.Data.List.Basic

namespace ArchiveKeeper.Files

namespace Tree

variable {t : Tree} {p q : Path} {n : Node}

@[simp] theorem node?_nil : t.node? [] = some .directory := if_pos rfl

theorem node?_of_ne_nil (h : q ≠ []) :
    t.node? q = (t.nodes.find? fun n => n.1 = q).map Prod.snd := if_neg h

theorem node?_erase (h : p ≠ []) : (t.erase p).node? q = if q = p then none else t.node? q := by
  by_cases hq : q = []
  · subst hq
    simp [Ne.symm h]
  rw [node?_of_ne_nil hq, node?_of_ne_nil hq, erase, List.find?_filter]
  split
  · rename_i he
    subst he
    rw [Option.map_eq_none_iff, List.find?_eq_none]
    simp
  · rename_i hne
    congr 2
    funext m
    by_cases hm : m.1 = q
    · simp [hm, hne]
    · simp [hm]

theorem node?_insert (h : p ≠ []) :
    (t.insert p n).node? q = if q = p then some n else t.node? q := by
  by_cases hq : q = []
  · subst hq
    simp [Ne.symm h]
  rw [node?_of_ne_nil hq, insert, List.find?_cons]
  by_cases he : q = p
  · simp [he]
  · have hp : ¬ p = q := fun h => he h.symm
    have herase : (t.erase p).node? q = t.node? q := by rw [node?_erase h, if_neg he]
    rw [node?_of_ne_nil hq] at herase
    simpa [hp, he] using herase

theorem node?_eraseBelow :
    (t.eraseBelow p).node? q = if q ≠ [] ∧ p <+: q then none else t.node? q := by
  by_cases hq : q = []
  · simp [hq]
  rw [node?_of_ne_nil hq, node?_of_ne_nil hq, eraseBelow, List.find?_filter]
  have hbelow : p.isBelow q = true ↔ p <+: q := List.isPrefixOf_iff_prefix
  split
  · rename_i he
    have hp : p.isBelow q = true := hbelow.mpr he.2
    rw [Option.map_eq_none_iff, List.find?_eq_none]
    intro m hm hmq
    simp only [decide_eq_true_eq, Bool.not_eq_true'] at hmq
    obtain ⟨hm, rfl⟩ := hmq
    simp [hp] at hm
  · rename_i hne
    have hp : p.isBelow q = false := by
      rw [Bool.eq_false_iff]
      exact fun h => hne ⟨hq, hbelow.mp h⟩
    congr 2
    funext m
    by_cases hm : m.1 = q
    · simp [hm, hp]
    · simp [hm]

theorem accept_eq_ok_iff {s : String} :
    accept s = .ok () ↔ (∀ c ∈ s.toList, c ≠ '\x00') ∧ Text.byteCount s ≤ longestPath := by
  unfold accept
  split
  · rename_i h
    simp only [List.any_eq_true, beq_iff_eq] at h
    obtain ⟨c, hc, h0⟩ := h
    simp only [reduceCtorEq, false_iff, not_and]
    exact fun hall => absurd h0 (hall c hc)
  · rename_i h
    simp only [List.any_eq_true, beq_iff_eq, not_exists, not_and] at h
    split
    · rename_i hlen
      simp only [reduceCtorEq, false_iff, not_and, Nat.not_le]
      exact fun _ => hlen
    · rename_i hlen
      simp only [true_iff]
      exact ⟨h, Nat.not_lt.mp hlen⟩

theorem ne_notFound_of_accept {s : String} {e : SystemFault} (h : accept s = .error e) :
    e ≠ .notFound := by
  unfold accept at h
  split at h
  · cases h
    simp
  split at h
  · cases h
    simp
  · cases h

theorem accept_text_iff (hp : p ≠ []) : accept (Path.text p) = .ok () ↔
    (∀ s ∈ p, ∀ c ∈ s.toList, c ≠ '\x00') ∧
      (p.map fun s => Text.byteCount s + 1).sum ≤ longestPath := by
  have hslash : '/' ≠ '\x00' := by decide
  rw [accept_eq_ok_iff, Path.toList_text hp, Path.byteCount_text hp]
  refine and_congr_left fun _ => ?_
  simp only [List.mem_flatMap, List.mem_cons, forall_exists_index, and_imp]
  constructor
  · exact fun h s hs c hc => h c s hs (.inr hc)
  · rintro h c s hs (rfl | hc)
    · exact hslash
    · exact h s hs c hc

theorem accept_of_above (hq : q <+: p) (h : accept (Path.text p) = .ok ()) :
    accept (Path.text q) = .ok () := by
  by_cases hn : q = []
  · rw [hn]
    decide
  obtain ⟨r, rfl⟩ := hq
  rw [accept_text_iff (by simp [hn]), List.map_append, List.sum_append] at h
  rw [accept_text_iff hn]
  exact ⟨fun s hs => h.1 s (List.mem_append_left _ hs), Nat.le_trans (Nat.le_add_right _ _) h.2⟩

/-- What a call may follow: plain names that are not too long, and directories above. -/
structure Reaches (t : Tree) (p : Path) : Prop where
  plain : ∀ s ∈ p, Path.IsPlain s
  short : ∀ s ∈ p, Text.byteCount s ≤ longestName
  accepted : accept (Path.text p) = .ok ()
  above : ∀ q, q <+: p → q ≠ p → t.node? q = some .directory

theorem follow_cons {here : Path} {s : String} {rest : List String} (hs : Path.IsPlain s)
    (hh : t.node? here = some .directory) :
    t.follow here (s :: rest) = if longestName < Text.byteCount s then .error .nameTooLong
      else t.follow (here ++ [s]) rest := by
  rw [follow, hh]
  simp only [if_neg hs.1, if_neg hs.2]

/-- From the directory of a first name on, the directories above are the same. -/
theorem above_tail {here : Path} {s : String} {rest : List String} (ha : ∀ q, q <+: s :: rest →
      q ≠ s :: rest → t.node? (here ++ q) = some .directory) :
    t.node? here = some .directory ∧
      ∀ q, q <+: rest → q ≠ rest → t.node? (here ++ [s] ++ q) = some .directory := by
  refine ⟨by simpa using ha [] List.nil_prefix (by simp), fun q hq hne => ?_⟩
  rw [List.append_assoc]
  exact ha (s :: q) ((List.prefix_cons_inj s).mpr hq) (by simpa using hne)

theorem follow_of_above {here : Path} {rest : List String} (hp : ∀ s ∈ rest, Path.IsPlain s)
    (hs : ∀ s ∈ rest, Text.byteCount s ≤ longestName)
    (ha : ∀ q, q <+: rest → q ≠ rest → t.node? (here ++ q) = some .directory) :
    t.follow here rest = match t.node? (here ++ rest) with
      | some n => .ok (here ++ rest, n)
      | none => .error .notFound := by
  induction rest generalizing here with
  | nil =>
    rw [List.append_nil]
    unfold follow
    cases t.node? here <;> rfl
  | cons s rest ih =>
    obtain ⟨hh, ha'⟩ := above_tail ha
    obtain ⟨hps, hp'⟩ := List.forall_mem_cons.mp hp
    obtain ⟨hss, hs'⟩ := List.forall_mem_cons.mp hs
    rw [follow_cons hps hh, if_neg (Nat.not_lt.mpr hss), ih hp' hs' ha', List.append_assoc]
    rfl

theorem node?_of_follow {here q : Path} {rest : List String} (hp : ∀ s ∈ rest, Path.IsPlain s)
    (h : t.follow here rest = .ok (q, n)) : t.node? (here ++ rest) = some n := by
  induction rest generalizing here with
  | nil =>
    rw [follow] at h
    rw [List.append_nil]
    split at h
    · cases h
      assumption
    · cases h
  | cons s rest ih =>
    cases hh : t.node? here with
    | none => simp [follow, hh] at h
    | some m =>
      cases m with
      | directory =>
        rw [follow_cons (hp s (by simp)) hh] at h
        split at h
        · cases h
        · simpa using ih (fun s' hs' => hp s' (by simp [hs'])) h
      | file => simp [follow, hh] at h
      | database => simp [follow, hh] at h

theorem follow_ne_notFound {here : Path} {rest : List String} (hp : ∀ s ∈ rest, Path.IsPlain s)
    (ha : ∀ q, q <+: rest → q ≠ rest → t.node? (here ++ q) = some .directory)
    (hn : t.node? (here ++ rest) = some n) : t.follow here rest ≠ .error .notFound := by
  by_cases hs : ∀ s ∈ rest, Text.byteCount s ≤ longestName
  · rw [follow_of_above hp hs ha, hn]
    simp
  · induction rest generalizing here with
    | nil => simp at hs
    | cons s rest ih =>
      obtain ⟨hh, ha'⟩ := above_tail ha
      obtain ⟨hps, hp'⟩ := List.forall_mem_cons.mp hp
      rw [follow_cons hps hh]
      split
      · simp
      · rename_i hlen
        refine ih hp' ha' (by simpa using hn) fun hrest => hs ?_
        exact List.forall_mem_cons.mpr ⟨Nat.not_lt.mp hlen, hrest⟩

theorem Reaches.find (h : Reaches t p) :
    t.find p = match t.node? p with
      | some n => .ok n
      | none => .error .notFound := by
  have hf : t.follow [] p = _ := follow_of_above h.plain h.short h.above
  rw [Tree.find, h.accepted]
  simp only [hf, List.nil_append]
  cases t.node? p <;> rfl

theorem node?_of_find (hp : ∀ s ∈ p, Path.IsPlain s) (h : t.find p = .ok n) :
    t.node? p = some n := by
  unfold Tree.find at h
  split at h
  · cases h
  · cases hf : t.follow [] p with
    | error e => simp [hf, Except.map] at h
    | ok x =>
      have hx : x.2 = n := by simpa [hf, Except.map] using h
      have hf' : t.follow [] p = .ok (x.1, n) := hf.trans (by rw [← hx])
      exact node?_of_follow hp hf'

theorem find_ne_notFound (hp : ∀ s ∈ p, Path.IsPlain s)
    (ha : ∀ q, q <+: p → q ≠ p → t.node? q = some .directory) (hn : t.node? p = some n) :
    t.find p ≠ .error .notFound := by
  have hf : t.follow [] p ≠ _ := follow_ne_notFound hp ha hn
  unfold Tree.find
  split
  · rename_i e he
    simpa using ne_notFound_of_accept he
  · cases hr : t.follow [] p with
    | error e =>
      rw [hr] at hf
      simpa [Except.map] using hf
    | ok x => simp [Except.map]

theorem follow_of_missing {here : Path} {rest : List String} (hp : ∀ s ∈ rest, Path.IsPlain s)
    (hs : ∀ s ∈ rest, Text.byteCount s ≤ longestName) (ha : ∀ q, q <+: rest →
      t.node? (here ++ q) = none ∨ t.node? (here ++ q) = some .directory)
    (hn : t.node? (here ++ rest) = none) : t.follow here rest = .error .notFound := by
  induction rest generalizing here with
  | nil =>
    rw [List.append_nil] at hn
    rw [follow, hn]
  | cons s rest ih =>
    have hhere : t.node? here = none ∨ t.node? here = some .directory := by
      simpa using ha [] List.nil_prefix
    rcases hhere with hh | hh
    · rw [follow, hh]
    rw [follow_cons (hp s (by simp)) hh, if_neg (Nat.not_lt.mpr (hs s (by simp)))]
    apply ih (fun s' h => hp s' (by simp [h])) (fun s' h => hs s' (by simp [h]))
    · intro q hq
      simpa using ha (s :: q) ((List.prefix_cons_inj s).mpr hq)
    · simpa using hn

theorem find_of_missing (hp : ∀ s ∈ p, Path.IsPlain s) (hs : ∀ s ∈ p, Text.byteCount s ≤ longestName)
    (hacc : accept (Path.text p) = .ok ())
    (ha : ∀ q, q <+: p → t.node? q = none ∨ t.node? q = some .directory)
    (hn : t.node? p = none) : t.find p = .error .notFound := by
  have hf : t.follow [] p = .error .notFound := follow_of_missing hp hs ha hn
  rw [Tree.find, hacc]
  show (t.follow [] p).map Prod.snd = _
  rw [hf, Except.map]

theorem Reaches.mono {t' : Tree} (h : Reaches t p)
    (hd : ∀ q, t.node? q = some .directory → t'.node? q = some .directory) : Reaches t' p :=
  ⟨h.plain, h.short, h.accepted, fun q hq hne => hd q (h.above q hq hne)⟩

theorem Reaches.directory_of_prefix (h : Reaches t p) (hd : t.node? p = some .directory)
    (hq : q <+: p) : t.node? q = some .directory := by
  by_cases he : q = p
  · rw [he, hd]
  · exact h.above q hq he

/-- Between two trees, directories came to be on the way to a path. -/
def Paved (p : Path) (t t' : Tree) : Prop :=
  ∀ q, t'.node? q = t.node? q ∨
    t.node? q = none ∧ t'.node? q = some .directory ∧ q <+: p ∧ Reaches t' q

theorem Paved.refl (p : Path) (t : Tree) : Paved p t t := fun _ => .inl rfl

theorem Paved.directory {t' : Tree} (h : Paved p t t') (hq : t.node? q = some .directory) :
    t'.node? q = some .directory := by
  rcases h q with he | ⟨-, hd, -⟩
  · exact he.trans hq
  · exact hd

theorem Paved.reaches {t' : Tree} (h : Paved p t t') (hq : Reaches t q) : Reaches t' q :=
  hq.mono fun _ => h.directory

theorem reaches_concat {s : String} (h : Reaches t p) (hd : t.node? p = some .directory)
    (hs : Path.IsPlain s) (hlen : Text.byteCount s ≤ longestName)
    (hacc : accept (Path.text (p ++ [s])) = .ok ()) : Reaches t (p ++ [s]) where
  plain s' hm := (List.mem_append.mp hm).elim (h.plain s') fun hm => List.mem_singleton.mp hm ▸ hs
  short s' hm := (List.mem_append.mp hm).elim (h.short s') fun hm => List.mem_singleton.mp hm ▸ hlen
  accepted := hacc
  above q hq hne := by
    rcases List.prefix_concat_iff.mp hq with he | hq
    · exact absurd he hne
    · exact h.directory_of_prefix hd hq

theorem Reaches.insert_directory (hp : p ≠ []) (h : Reaches t q) :
    Reaches (t.insert p .directory) q := by
  refine h.mono fun r hr => ?_
  rw [node?_insert hp, hr]
  split <;> rfl

theorem makeDirectoriesFrom_spec {here : Path} {rest : List String} {t' : Tree}
    {r : Except SystemFault Unit} (hp : ∀ s ∈ rest, Path.IsPlain s)
    (hacc : accept (Path.text (here ++ rest)) = .ok ()) (hh : Reaches t here)
    (hd : t.node? here = some .directory) (h : t.makeDirectoriesFrom here rest = (r, t')) :
    Paved (here ++ rest) t t' ∧ (r = .ok () →
      Reaches t' (here ++ rest) ∧ t'.node? (here ++ rest) = some .directory) := by
  -- the induction is on what is still to be made; what leads to `here` is reached already
  induction rest generalizing t here with
  | nil =>
    cases h
    rw [List.append_nil]
    exact ⟨.refl _ _, fun _ => ⟨hh, hd⟩⟩
  | cons s rest ih =>
    rw [makeDirectoriesFrom] at h
    split at h
    · cases h
      exact ⟨.refl _ _, by simp⟩
    rename_i hlen
    have happ : here ++ s :: rest = here ++ [s] ++ rest := by simp
    rw [happ] at hacc ⊢
    have hnext : Reaches t (here ++ [s]) :=
      reaches_concat hh hd (hp s (by simp)) (Nat.not_lt.mp hlen)
        (accept_of_above (List.prefix_append _ _) hacc)
    have hrest : ∀ s' ∈ rest, Path.IsPlain s' := fun s' hs' => hp s' (List.mem_cons_of_mem _ hs')
    dsimp only at h
    split at h
    · rename_i hn
      exact ih hrest hacc hnext hn h
    · cases h
      exact ⟨.refl _ _, by simp⟩
    · rename_i hn
      have hne : here ++ [s] ≠ [] := by simp
      -- the directory is made, and the rest is made in a tree that has it: what the rest kept
      -- is compared with this tree, where that directory was not there before
      have hmade : (t.insert (here ++ [s]) .directory).node? (here ++ [s]) = some .directory := by
        rw [node?_insert hne, if_pos rfl]
      have hnext := hnext.insert_directory hne
      obtain ⟨hpaved, hok⟩ := ih hrest hacc hnext hmade h
      refine ⟨fun q => ?_, hok⟩
      rcases hpaved q with he | ⟨hq, hd, hrest⟩
      · rw [node?_insert hne] at he
        split at he
        · rename_i hqe
          subst hqe
          exact .inr ⟨hn, he, List.prefix_append _ _, hpaved.reaches hnext⟩
        · exact .inl he
      · rw [node?_insert hne] at hq
        split at hq
        · cases hq
        · exact .inr ⟨hq, hd, hrest⟩

theorem reaches_nil (t : Tree) : Reaches t [] where
  plain := by simp
  short := by simp
  accepted := by decide
  above _ hq hne := absurd (List.prefix_nil.mp hq) hne

theorem makeDirectories_spec {t' : Tree} {r : Except SystemFault Unit}
    (hp : ∀ s ∈ p, Path.IsPlain s) (h : t.makeDirectories p = (r, t')) :
    Paved p t t' ∧ (r = .ok () → Reaches t' p ∧ t'.node? p = some .directory) := by
  unfold makeDirectories at h
  split at h
  · cases h
    exact ⟨.refl _ _, by simp⟩
  · rename_i hacc
    rw [← List.nil_append p] at hacc
    simpa using makeDirectoriesFrom_spec hp hacc (reaches_nil t) node?_nil h

theorem replace_spec {t' : Tree} {r : Except SystemFault Unit} {text : String}
    (h : t.replace p text = (r, t')) :
    (∃ e, r = .error e) ∧ t' = t ∨ r = .ok () ∧ t' = t.insert p (.file text 0) ∧
      t.node? p ≠ some .directory ∧ accept (Path.text p) = .ok () ∧
        Text.byteCount (p.getLast?.getD "") ≤ longestName := by
  unfold replace at h
  dsimp only at h
  split at h
  · cases h
    exact .inl ⟨⟨_, rfl⟩, rfl⟩
  rename_i hacc
  split at h
  · cases h
    exact .inl ⟨⟨_, rfl⟩, rfl⟩
  rename_i hname
  split at h
  · cases h
    exact .inl ⟨⟨_, rfl⟩, rfl⟩
  split at h
  · cases h
    exact .inl ⟨⟨_, rfl⟩, rfl⟩
  · rename_i hdir
    cases h
    exact .inr ⟨rfl, rfl, hdir, hacc, by omega⟩

theorem makeDirectoriesFrom_ok {here : Path} {rest : List String}
    (hs : ∀ s ∈ rest, Text.byteCount s ≤ longestName)
    (hn : ∀ q, q <+: rest → q ≠ [] →
      t.node? (here ++ q) = none ∨ t.node? (here ++ q) = some .directory) :
    (t.makeDirectoriesFrom here rest).1 = .ok () := by
  induction rest generalizing t here with
  | nil => rfl
  | cons s rest ih =>
    have hshort : ∀ s ∈ rest, Text.byteCount s ≤ longestName := fun s' h => hs s' (by simp [h])
    have hrest {q : Path} (hq : q <+: rest) :
        t.node? (here ++ [s] ++ q) = none ∨ t.node? (here ++ [s] ++ q) = some .directory := by
      have happ : here ++ [s] ++ q = here ++ s :: q := by simp
      rw [happ]
      exact hn (s :: q) ((List.prefix_cons_inj s).mpr hq) (List.cons_ne_nil _ _)
    rw [makeDirectoriesFrom, if_neg (Nat.not_lt.mpr (hs s (by simp)))]
    dsimp only
    rcases hn [s] ((List.prefix_cons_inj s).mpr List.nil_prefix) (List.cons_ne_nil _ _) with h | h
    · rw [h]
      refine ih hshort fun q hq hne => ?_
      rw [node?_insert (by simp), if_neg (by simpa using hne)]
      exact hrest hq
    · rw [h]
      exact ih hshort fun q hq _ => hrest hq

theorem makeDirectories_ok (hs : ∀ s ∈ p, Text.byteCount s ≤ longestName)
    (hacc : accept (Path.text p) = .ok ())
    (hn : ∀ q, q <+: p → t.node? q = none ∨ t.node? q = some .directory) :
    (t.makeDirectories p).1 = .ok () := by
  rw [makeDirectories, hacc]
  exact makeDirectoriesFrom_ok hs fun q hq _ => hn q hq

theorem removeAll_empty {s : String} (hs : Path.IsPlain s) (hlen : Text.byteCount s ≤ longestName)
    (hacc : accept (Path.text (s :: p)) = .ok ()) : empty.removeAll (s :: p) = (.ok (), empty) := by
  have hfind : empty.find (s :: p) = .error .notFound := by
    rw [Tree.find, hacc]
    dsimp only
    rw [follow_cons hs node?_nil, if_neg (Nat.not_lt.mpr hlen)]
    cases p <;> rfl
  rw [removeAll, hfind]

theorem node?_remove (h : p ≠ []) (hp : ∀ s ∈ p, Path.IsPlain s)
    (hd : t.node? p ≠ some .directory) (hr : t.node? p ≠ none → Reaches t p) :
    (t.remove p).2.node? q = if q = p then none else t.node? q := by
  unfold remove
  cases hn : t.node? p with
  | none =>
    have hnone : t.node? q = if q = p then none else t.node? q := by
      split
      · rename_i he
        rw [he, hn]
      · rfl
    cases hf : t.find p with
    | error e => cases e <;> exact hnone
    | ok n => exact absurd (node?_of_find hp hf) (by simp [hn])
  | some n =>
    rw [(hr (by simp [hn])).find, hn]
    cases n with
    | directory => exact absurd hn hd
    | file => exact node?_erase h
    | database => exact node?_erase h

theorem node?_removeAll (h : p ≠ []) (hp : ∀ s ∈ p, Path.IsPlain s)
    (hr : t.node? p ≠ none → Reaches t p)
    (ha : t.node? p = none → ∀ q, p <+: q → t.node? q = none) :
    (t.removeAll p).2.node? q = if p <+: q then none else t.node? q := by
  unfold removeAll
  cases hn : t.node? p with
  | none =>
    -- nothing is at the path, so nothing is removed, and there was nothing below it to remove
    have hnone : t.node? q = if p <+: q then none else t.node? q := by
      split
      · rename_i hq
        exact ha hn q hq
      · rfl
    cases hf : t.find p with
    | error e => cases e <;> exact hnone
    | ok n => exact absurd (node?_of_find hp hf) (by simp [hn])
  | some n =>
    have hne (hq : p <+: q) : q ≠ [] := by
      rintro rfl
      exact h (List.prefix_nil.mp hq)
    rw [(hr (by simp [hn])).find, hn]
    change (t.eraseBelow p).node? q = _
    rw [node?_eraseBelow]
    by_cases hq : p <+: q
    · rw [if_pos ⟨hne hq, hq⟩, if_pos hq]
    · rw [if_neg (fun h => hq h.2), if_neg hq]

/-- Directories are above all that there is. -/
def Sound (t : Tree) : Prop :=
  ∀ q n, t.node? q = some n → ∀ r, r <+: q → r ≠ q → t.node? r = some .directory

theorem sound_empty : Sound empty := by
  intro q n hq r hr hne
  by_cases he : q = []
  · rw [he] at hr hne
    exact absurd (List.prefix_nil.mp hr) hne
  · rw [node?_of_ne_nil he] at hq
    cases hq

theorem Sound.none_below (h : Sound t) (hn : t.node? p = none) (hq : p <+: q) :
    t.node? q = none := by
  by_contra hsome
  obtain ⟨n, hsome⟩ := Option.ne_none_iff_exists'.mp hsome
  by_cases he : p = q
  · rw [← he, hn] at hsome
    cases hsome
  · rw [h q n hsome p hq he] at hn
    cases hn

theorem Sound.insert_concat {s : String} (h : Sound t) (hp : t.node? p = some .directory)
    (hnone : t.node? (p ++ [s]) = none) (n : Node) : Sound (t.insert (p ++ [s]) n) := by
  have hne : p ++ [s] ≠ [] := by simp
  intro q m hq r hr hrq
  have hdir : t.node? r = some .directory := by
    rw [node?_insert hne] at hq
    split at hq
    · rename_i he
      rw [he] at hr hrq
      by_cases hrp : r = p
      · rw [hrp, hp]
      · exact h p _ hp r ((List.prefix_concat_iff.mp hr).resolve_left hrq) hrp
    · exact h q m hq r hr hrq
  rw [node?_insert hne, if_neg, hdir]
  rintro rfl
  rw [hnone] at hdir
  cases hdir

theorem removeAll_spec {t' : Tree} (hs : Sound t) (hne : p ≠ []) (hp : ∀ s ∈ p, Path.IsPlain s)
    (h : t.removeAll p = (.ok (), t')) :
    (∀ q, t'.node? q = if p <+: q then none else t.node? q) ∧ Sound t' := by
  have hnodes : ∀ q, t'.node? q = if p <+: q then none else t.node? q := by
    intro q
    unfold removeAll at h
    split at h
    · rename_i hf
      cases h
      -- only a path with nothing at it is not found, and below such a path nothing stands
      have hn : t.node? p = none := by
        by_contra hn
        obtain ⟨n, hn⟩ := Option.ne_none_iff_exists'.mp hn
        exact find_ne_notFound hp (hs p n hn) hn hf
      split
      · rename_i hq
        exact hs.none_below hn hq
      · rfl
    · cases h
    · cases h
      rw [node?_eraseBelow]
      by_cases hq : p <+: q
      · have hq' : q ≠ [] := by
          rintro rfl
          exact hne (List.prefix_nil.mp hq)
        rw [if_pos ⟨hq', hq⟩, if_pos hq]
      · rw [if_neg (fun h => hq h.2), if_neg hq]
  refine ⟨hnodes, fun q n hq r hr hrq => ?_⟩
  rw [hnodes] at hq ⊢
  split at hq
  · cases hq
  · rename_i hpq
    rw [if_neg fun hpr => hpq (hpr.trans hr)]
    exact hs q n hq r hr hrq

theorem mem_entries {name : String} :
    name ∈ (t.entries p).map Prod.fst ↔ t.node? (p ++ [name]) ≠ none := by
  have hne : p ++ [name] ≠ [] := by simp
  rw [node?_of_ne_nil hne, ne_eq, Option.map_eq_none_iff, List.find?_eq_none, entries, List.mem_map]
  simp only [List.mem_mergeSort, List.mem_filterMap]
  constructor
  · rintro ⟨e, ⟨m, hm, he⟩, rfl⟩ hall
    refine hall m hm ?_
    split at he
    · rename_i last hlast
      split at he
      · rename_i hdrop
        cases he
        obtain ⟨init, hinit⟩ := List.getLast?_eq_some_iff.mp hlast
        rw [hinit, List.dropLast_concat] at hdrop
        simp [hinit, hdrop]
      · cases he
    · cases he
  · intro hall
    obtain ⟨m, hm, he⟩ : ∃ m ∈ t.nodes, decide (m.1 = p ++ [name]) = true := by
      simpa using hall
    refine ⟨(name, m.2), ⟨m, hm, ?_⟩, rfl⟩
    rw [of_decide_eq_true he]
    simp

theorem pairwise_entries : ((t.entries p).map Prod.fst).Pairwise (· ≤ ·) := by
  have hle {a b : String × Node} : (a.1 < b.1 || a.1 == b.1) = true ↔ a.1 ≤ b.1 := by
    simp [Std.le_iff_lt_or_eq]
  rw [List.pairwise_map]
  refine (List.pairwise_mergeSort (fun a b c => ?_) (fun a b => ?_) _).imp hle.mp
  · simp only [hle]
    exact String.le_trans
  · rw [Bool.or_eq_true, hle, hle]
    exact String.le_total _ _

end Tree

end ArchiveKeeper.Files
