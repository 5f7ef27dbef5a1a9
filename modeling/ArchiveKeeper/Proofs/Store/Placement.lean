import ArchiveKeeper.Proofs.Store.Directory

namespace ArchiveKeeper

namespace Files.Tree

variable {t : Tree} {p : Path}

/-- Directories are made exactly where no name is too long and nothing else is in the way. -/
theorem makeDirectoriesFrom_ok_iff {here : Path} {rest : List String} :
    (t.makeDirectoriesFrom here rest).1 = .ok () ↔
      (∀ s ∈ rest, Text.byteCount s ≤ longestName) ∧ ∀ q, q <+: rest → q ≠ [] →
        t.node? (here ++ q) = none ∨ t.node? (here ++ q) = some .directory := by
  refine ⟨fun h => ?_, fun h => makeDirectoriesFrom_ok h.1 h.2⟩
  induction rest generalizing t here with
  | nil => exact ⟨by simp, fun q hq hne => absurd (List.prefix_nil.mp hq) hne⟩
  | cons s rest ih =>
    rw [makeDirectoriesFrom] at h
    split at h
    · cases h
    rename_i hlen
    have hshort : Text.byteCount s ≤ longestName := Nat.not_lt.mp hlen
    -- below the first directory, the others are made from there on
    have hprefix {t' : Tree} (hsame : ∀ q, q ≠ here ++ [s] → t'.node? q = t.node? q)
        (hs : t.node? (here ++ [s]) = none ∨ t.node? (here ++ [s]) = some .directory)
        (h : ∀ q, q <+: rest → q ≠ [] → t'.node? (here ++ [s] ++ q) = none ∨
          t'.node? (here ++ [s] ++ q) = some .directory) (q : Path) (hq : q <+: s :: rest)
        (hne : q ≠ []) : t.node? (here ++ q) = none ∨ t.node? (here ++ q) = some .directory := by
      obtain ⟨s', q, rfl⟩ := List.exists_cons_of_ne_nil hne
      obtain ⟨rfl, hrest⟩ := List.cons_prefix_cons.mp hq
      by_cases hn : q = []
      · rw [hn]
        exact hs
      have hlong : here ++ [s'] ++ q ≠ here ++ [s'] := by simpa using hn
      have hbelow := h q hrest hn
      rw [hsame _ hlong, List.append_assoc, List.singleton_append] at hbelow
      exact hbelow
    dsimp only at h
    split at h
    · rename_i hd
      obtain ⟨hnames, hnodes⟩ := ih h
      exact ⟨List.forall_mem_cons.mpr ⟨hshort, hnames⟩, hprefix (fun _ _ => rfl) (.inr hd) hnodes⟩
    · cases h
    · rename_i hn
      obtain ⟨hnames, hnodes⟩ := ih h
      refine ⟨List.forall_mem_cons.mpr ⟨hshort, hnames⟩, hprefix (fun q hq => ?_) (.inl hn) hnodes⟩
      rw [node?_insert (by simp), if_neg hq]

theorem makeDirectories_ok_iff : (t.makeDirectories p).1 = .ok () ↔
    accept (Path.text p) = .ok () ∧ (∀ s ∈ p, Text.byteCount s ≤ longestName) ∧
      ∀ q, q <+: p → t.node? q = none ∨ t.node? q = some .directory := by
  refine ⟨fun h => ?_, fun h => makeDirectories_ok h.2.1 h.1 h.2.2⟩
  rw [makeDirectories] at h
  split at h
  · cases h
  · rename_i hacc
    obtain ⟨hnames, hnodes⟩ := makeDirectoriesFrom_ok_iff.mp h
    refine ⟨hacc, hnames, fun q hq => ?_⟩
    by_cases hne : q = []
    · exact .inr (hne ▸ node?_nil)
    · exact hnodes q hq hne

/-- A path is taken for a file that is to be replaced: also the name of the temporary file beside it
and the path of that are not too long. -/
structure Fits (p : Path) : Prop where
  accepted : accept (Path.text p) = .ok ()
  short : ∀ s ∈ p.dropLast, Text.byteCount s ≤ longestName
  name : Text.byteCount (p.getLast?.getD "") + temporarySuffixLength ≤ longestName
  path : Text.byteCount (Path.text p) + temporarySuffixLength ≤ longestPath

theorem replace_ok_iff {text : String} : (t.replace p text).1 = .ok () ↔
    accept (Path.text p) = .ok () ∧
      Text.byteCount (p.getLast?.getD "") + temporarySuffixLength ≤ longestName ∧
      Text.byteCount (Path.text p) + temporarySuffixLength ≤ longestPath ∧
      t.node? p ≠ some .directory := by
  unfold replace
  dsimp only
  split
  · rename_i hacc
    simp [hacc]
  rename_i hacc
  rw [hacc]
  split
  · simp only [reduceCtorEq, false_iff]
    omega
  split
  · simp only [reduceCtorEq, false_iff]
    omega
  rename_i hname hpath
  split
  · rename_i hd
    simp [hd]
  · rename_i hd
    simp only [true_and, true_iff]
    exact ⟨Nat.not_lt.mp hname, Nat.not_lt.mp hpath, hd⟩

end Files.Tree

namespace Store.Directory

open Files Files.Tree

variable {root q : Path} {job path json content : String} {t t' : Tree}

/-- A file can be put where its path fits, if only directories are above it and it is not one itself. -/
theorem replaceFile_ok_iff (hne : q ≠ []) (hp : ∀ s ∈ q, Path.IsPlain s) :
    (replaceFile t q content).1 = .ok () ↔ Fits q ∧
      (∀ r, r <+: q.dropLast → t.node? r = none ∨ t.node? r = some .directory) ∧
      t.node? q ≠ some .directory := by
  have hdirs : ∀ s ∈ q.dropLast, Path.IsPlain s := fun s hs => hp s (List.dropLast_subset q hs)
  have hnot : ¬ q <+: q.dropLast := by
    intro hle
    have hlen := hle.length_le
    have hpos := List.length_pos_iff.mpr hne
    rw [List.length_dropLast] at hlen
    omega
  unfold replaceFile
  rcases hm : t.makeDirectories q.dropLast with ⟨r, t₁⟩
  have hmade := makeDirectories_ok_iff (t := t) (p := q.dropLast)
  rw [hm] at hmade
  cases r with
  | error e =>
    simp only [reduceCtorEq, false_iff, not_and] at hmade ⊢
    intro hfits habove
    exact absurd habove (hmade (accept_of_above (List.dropLast_prefix q) hfits.accepted) hfits.short)
  | ok u =>
    obtain ⟨-, hnames, habove⟩ := hmade.mp rfl
    -- the file itself is not among the directories that were made
    have hsame : t₁.node? q = t.node? q := by
      rcases (makeDirectories_spec hdirs hm).1 q with he | ⟨-, -, hle, -⟩
      · exact he
      · exact absurd hle hnot
    show (t₁.replace q content).1 = .ok () ↔ _
    rw [replace_ok_iff, hsame]
    constructor
    · rintro ⟨hacc, hname, hpath, hd⟩
      exact ⟨⟨hacc, hnames, hname, hpath⟩, habove, hd⟩
    · rintro ⟨hfits, -, hd⟩
      exact ⟨hfits.accepted, hfits.name, hfits.path, hd⟩

/-- When a file was put, it is there, and directories above it; all else is as it was. -/
theorem node?_replaceFile (hne : q ≠ []) (hp : ∀ s ∈ q, Path.IsPlain s)
    (h : (replaceFile t q content).1 = .ok ()) (p : Path) :
    (replaceFile t q content).2.node? p = if p = q then some (.file content 0)
      else if p <+: q.dropLast then some .directory else t.node? p := by
  rcases hr : replaceFile t q content with ⟨r, t'⟩
  rw [hr] at h
  obtain ⟨t₁, hpaved, ⟨⟨e, he⟩, -⟩ | ⟨-, rfl, hreach, -⟩⟩ := replaceFile_spec hne hp hr
  · exact absurd (h.symm.trans he) (by simp)
  show (t₁.insert q (.file content 0)).node? p = _
  rw [node?_insert hne]
  by_cases hpq : p = q
  · rw [if_pos hpq, if_pos hpq]
  rw [if_neg hpq, if_neg hpq]
  split
  · rename_i hle
    exact hreach.above p (hle.trans (List.dropLast_prefix q)) hpq
  · rename_i hle
    rcases hpaved p with he | ⟨-, -, hle', -⟩
    · exact he
    · exact absurd hle' hle

/-- Whether a job can put a document depends on its own area alone. -/
theorem put_ok_iff (hroot : ∀ s ∈ root, Path.IsPlain s) (hj : Job.isId job) (hready : Ready root t) :
    (Directory.put root job path json t).1 = .ok () ↔ Job.owns job path ∧
      ∃ q, target? root job path = some q ∧ Fits q ∧
        (∀ r, r <+: q.dropLast → Area root job r →
          t.node? r = none ∨ t.node? r = some .directory) ∧ t.node? q ≠ some .directory := by
  by_cases ho : Job.owns job path
  · obtain ⟨q, htarget, hq, hput⟩ := put_of_owns root json t hj ho
    have hne : q ≠ [] := hq.area.ne_nil
    rw [hput, lift_eq_ok_iff, replaceFile_ok_iff hne (hq.plain hroot)]
    constructor
    · rintro ⟨hfits, habove, hd⟩
      exact ⟨ho, q, htarget, hfits, fun r hr _ => habove r hr, hd⟩
    · rintro ⟨-, q', htarget', hfits, habove, hd⟩
      obtain rfl := Option.some.inj (htarget.symm.trans htarget')
      refine ⟨hfits, fun r hr => ?_, hd⟩
      rcases hq.above r hr with ha | ha | ⟨r', rfl⟩
      · exact .inr (hready.above (.inl ha))
      · exact .inr (hready.above (.inr ha))
      · exact habove _ hr (.below r')
  · rw [Directory.put, if_neg ho]
    simp [ho]

theorem node?_put (hroot : ∀ s ∈ root, Path.IsPlain s) (hj : Job.isId job) (ho : Job.owns job path)
    (htarget : target? root job path = some q)
    (h : (Directory.put root job path json t).1 = .ok ()) (p : Path) :
    (Directory.put root job path json t).2.node? p = if p = q then some (.file json 0)
      else if p <+: q.dropLast then some .directory else t.node? p := by
  have hq := place_of_target hj ho htarget
  have hne : q ≠ [] := hq.area.ne_nil
  rw [put_of_target json t ho htarget] at h ⊢
  exact node?_replaceFile hne (hq.plain hroot) (lift_eq_ok_iff.mp h) p

end Store.Directory

end ArchiveKeeper
