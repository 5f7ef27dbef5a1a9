import ArchiveKeeper.Location.Basic
import ArchiveKeeper.Proofs.Text.Cut
import ArchiveKeeper.Proofs.Text.Margin

namespace ArchiveKeeper.Location

open Text

/-- A location as it is written: a scheme, the name of a bucket, and nothing more or a path behind a
slash. No line ends in the path. -/
structure Written (location name path : String) : Prop where
  parts : ∃ scheme ∈ ["s3://", "s3a://"],
    location = scheme ++ name ∧ path = "" ∨ location = scheme ++ name ++ "/" ++ path
  named : name ≠ ""
  whole : '/' ∉ name.toList
  line : ∀ c ∈ path.toList, c ∉ ['\n', '\r', '\u2028', '\u2029']

def Bare (s : String) : Prop := Free (· == '/') s.toList

def Framed (path core : String) : Prop :=
  ∃ m n, path.toList = List.replicate m '/' ++ core.toList ++ List.replicate n '/'

def below (core : String) : String := if core = "" then "" else core ++ "/"

section Path

variable {path core core' : String}

theorem isLineEnd_iff {c : Char} : isLineEnd c ↔ c ∈ ['\n', '\r', '\u2028', '\u2029'] := by
  have hchar (d : Char) : c.toNat = d.toNat ↔ c = d :=
    ⟨fun h => Char.ext (UInt32.toNat_inj.mp h), fun h => h ▸ rfl⟩
  have hn := hchar '\n'
  have hr := hchar '\r'
  have hl := hchar '\u2028'
  have hp := hchar '\u2029'
  simp only [isLineEnd, Bool.or_eq_true, beq_iff_eq, List.mem_cons, List.not_mem_nil, or_false]
  rw [← hn, ← hr, ← hl, ← hp, or_assoc, or_assoc]
  rfl

theorem stripSlashes_eq_middle (cs : List Char) : stripSlashes cs = middle (· == '/') cs := rfl

theorem eq_replicate_slash {cs : List Char} (h : ∀ c ∈ cs, c == '/') :
    cs = List.replicate cs.length '/' :=
  List.eq_replicate_iff.mpr ⟨rfl, fun c hc => beq_iff_eq.mp (h c hc)⟩

theorem stripSlashes_eq_iff : stripSlashes path.toList = core.toList ↔
    Framed path core ∧ Bare core := by
  rw [stripSlashes_eq_middle]
  constructor
  · intro h
    obtain ⟨pre, post, hpath, hpre, hpost⟩ := exists_margins (· == '/') path.toList
    rw [h, eq_replicate_slash hpre, eq_replicate_slash hpost] at hpath
    exact ⟨⟨_, _, hpath⟩, show Free _ _ from h ▸ free_middle _ _⟩
  · rintro ⟨⟨m, n, hpath⟩, hbare⟩
    have hslashes (k : Nat) : ∀ c ∈ List.replicate k '/', c == '/' := by
      intro c hc
      rw [List.eq_of_mem_replicate hc]
      rfl
    rw [hpath]
    exact middle_append (hslashes m) (hslashes n) hbare

/-- The path that a prefix is, frames the text that the prefix is made of. -/
theorem framed_below (core : String) : Framed (below core) core := by
  by_cases h : core = ""
  · exact ⟨0, 0, by simp [below, h]⟩
  · exact ⟨0, 1, by simp [below, h]⟩

end Path

namespace Bucket

variable {location name path core : String} {b : Bucket}

theorem afterScheme?_eq_some {cs rest : List Char} (h : afterScheme? cs = some rest) :
    ∃ scheme ∈ ["s3://", "s3a://"], cs = scheme.toList ++ rest := by
  unfold afterScheme? at h
  split at h
  · rename_i hafter
    cases h
    exact ⟨"s3://", by simp, after?_eq_some_iff.mp hafter⟩
  · exact ⟨"s3a://", by simp, after?_eq_some_iff.mp h⟩

theorem afterScheme?_append {scheme : String} (h : scheme ∈ ["s3://", "s3a://"])
    (rest : List Char) : afterScheme? (scheme.toList ++ rest) = some rest := by
  rw [List.mem_cons, List.mem_singleton] at h
  rcases h with rfl | rfl <;> rfl

/-- The text behind the scheme is a name and nothing more, or a path behind a slash. -/
def Cut (rest name path : List Char) : Prop :=
  '/' ∉ name ∧ (rest = name ∧ path = [] ∨ rest = name ++ '/' :: path)

theorem cut_iff {rest name path : List Char} : Cut rest name path ↔
    rest.takeWhile (· ≠ '/') = name ∧ (rest.dropWhile (· ≠ '/')).drop 1 = path := by
  constructor
  · rintro ⟨hslash, h⟩
    have hname : ∀ c ∈ name, decide (c ≠ '/') := by
      intro c hc
      rw [decide_eq_true_iff]
      rintro rfl
      exact hslash hc
    have htake : name.takeWhile (· ≠ '/') = name := List.takeWhile_eq_self_iff.mpr hname
    have hdrop : name.dropWhile (· ≠ '/') = [] := List.dropWhile_eq_nil_iff.mpr hname
    rcases h with ⟨rfl, rfl⟩ | rfl
    · exact ⟨htake, by rw [hdrop, List.drop_nil]⟩
    · rw [List.takeWhile_append_of_pos hname, List.dropWhile_append_of_pos hname]
      simp
  · rintro ⟨rfl, rfl⟩
    refine ⟨fun hslash => ?_, ?_⟩
    · have hne := List.mem_takeWhile_imp hslash
      simp at hne
    · -- behind the name is nothing, or the slash that ended it
      have hrest := List.takeWhile_append_dropWhile (p := (· ≠ '/')) (l := rest)
      cases hdrop : rest.dropWhile (· ≠ '/') with
      | nil =>
        rw [hdrop, List.append_nil] at hrest
        exact .inl ⟨hrest.symm, rfl⟩
      | cons c tail =>
        have hhead : ¬ decide (c ≠ '/') := head?_dropWhile_not rest c (by rw [hdrop]; rfl)
        rw [decide_eq_true_iff, not_not] at hhead
        rw [hdrop, hhead] at hrest
        exact .inr hrest.symm

theorem written_iff : Written location name path ↔ ∃ rest, afterScheme? location.toList = some rest ∧
    Cut rest name.toList path.toList ∧ name ≠ "" ∧ ¬ path.toList.any isLineEnd := by
  have hline : (∀ c ∈ path.toList, c ∉ ['\n', '\r', '\u2028', '\u2029']) ↔
      ¬ path.toList.any isLineEnd := by
    simp only [List.any_eq_true, isLineEnd_iff, not_exists, not_and]
  constructor
  · rintro ⟨⟨scheme, hscheme, h⟩, hne, hslash, hpath⟩
    rcases h with ⟨rfl, rfl⟩ | rfl
    · refine ⟨name.toList, ?_, ⟨hslash, .inl ⟨rfl, rfl⟩⟩, hne, hline.mp hpath⟩
      rw [String.toList_append, afterScheme?_append hscheme]
    · refine ⟨name.toList ++ '/' :: path.toList, ?_, ⟨hslash, .inr rfl⟩, hne, hline.mp hpath⟩
      have hlocation : (scheme ++ name ++ "/" ++ path).toList =
          scheme.toList ++ (name.toList ++ '/' :: path.toList) := by simp
      rw [hlocation, afterScheme?_append hscheme]
  · rintro ⟨rest, hafter, ⟨hslash, hrest⟩, hne, hpath⟩
    obtain ⟨scheme, hscheme, hlocation⟩ := afterScheme?_eq_some hafter
    refine ⟨⟨scheme, hscheme, ?_⟩, hne, hslash, hline.mpr hpath⟩
    rcases hrest with ⟨rfl, hempty⟩ | rfl
    · exact .inl ⟨String.toList_inj.mp (by simp [hlocation]), String.toList_eq_nil_iff.mp hempty⟩
    · exact .inr (String.toList_inj.mp (by simp [hlocation]))

theorem read?_eq_some_iff : read? location = some b ↔
    ∃ path, Written location b.name path ∧
      b.start = below (String.ofList (stripSlashes path.toList)) := by
  have hbelow (cs : List Char) : String.ofList (if cs = [] then [] else cs ++ ['/']) =
      below (String.ofList cs) := by
    by_cases h : cs = [] <;> simp [below, h, String.ofList_append]
  constructor
  · intro h
    unfold read? at h
    obtain ⟨rest, hafter, h⟩ := Option.bind_eq_some_iff.mp h
    dsimp only at h
    split at h
    · cases h
    · rename_i hwell
      rw [not_or] at hwell
      cases h
      refine ⟨String.ofList ((rest.dropWhile (· ≠ '/')).drop 1), written_iff.mpr ?_, ?_⟩
      · refine ⟨rest, hafter, ?_, ?_, ?_⟩
        · simpa only [String.toList_ofList] using cut_iff.mpr ⟨rfl, rfl⟩
        · simpa using hwell.1
        · simpa only [String.toList_ofList] using hwell.2
      · rw [String.toList_ofList]
        exact hbelow _
  · rintro ⟨path, hwritten, hstart⟩
    obtain ⟨rest, hafter, hcut, hne, hline⟩ := written_iff.mp hwritten
    obtain ⟨hname, hpath⟩ := cut_iff.mp hcut
    unfold read?
    rw [hafter, Option.bind_eq_bind, Option.bind_some]
    dsimp only
    rw [hname, hpath, if_neg, hbelow, ← hstart]
    · simp
    · rw [not_or]
      exact ⟨by simpa using hne, hline⟩

theorem read_eq_ok_iff : read location = .ok b ↔
    ∃ path core, Written location b.name path ∧ Framed path core ∧ Bare core ∧
      b.start = below core := by
  have hread : read location = .ok b ↔ read? location = some b := by
    unfold read
    cases read? location with
    | none => simp
    | some b' => simp
  rw [hread, read?_eq_some_iff]
  constructor
  · rintro ⟨path, hwritten, hstart⟩
    obtain ⟨hframed, hbare⟩ := stripSlashes_eq_iff.mp (String.toList_ofList ..).symm
    exact ⟨path, _, hwritten, hframed, hbare, hstart⟩
  · rintro ⟨path, core, hwritten, hframed, hbare, hstart⟩
    refine ⟨path, hwritten, ?_⟩
    rw [stripSlashes_eq_iff.mpr ⟨hframed, hbare⟩, String.ofList_toList, hstart]

theorem isBucket_of_written (h : Written location name path) : isBucket location := by
  obtain ⟨rest, hafter, -⟩ := written_iff.mp h
  rw [isBucket, hafter]
  rfl

theorem exists_read (h : Written location name path) : ∃ b, read location = .ok b := by
  obtain ⟨hframed, hbare⟩ := stripSlashes_eq_iff.mp
    (String.toList_ofList (l := stripSlashes path.toList)).symm
  exact ⟨⟨name, _⟩, read_eq_ok_iff.mpr ⟨path, _, h, hframed, hbare, rfl⟩⟩

theorem below_ends {core : String} (h : Bare core) : (below core).toList.head? ≠ some '/' ∧
    (below core = "" ∨ ∃ core', below core = core' ++ "/" ∧ core'.toList.getLast? ≠ some '/') := by
  by_cases hempty : core = ""
  · simp [below, hempty]
  · rw [below, if_neg hempty]
    have hne : core.toList ≠ [] := by simpa using hempty
    refine ⟨fun hhead => ?_, .inr ⟨core, rfl, fun hlast => h.last _ hlast rfl⟩⟩
    rw [String.toList_append, List.head?_append_of_ne_nil _ hne] at hhead
    exact h.head _ hhead rfl

/-- The text of a bucket and its prefix is written with the prefix for its path. -/
theorem written_text (h : Written location name path) (core : String)
    (hcore : Framed path core) :
    Written ("s3://" ++ name ++ "/" ++ below core) name (below core) := by
  refine ⟨⟨"s3://", by simp, .inr rfl⟩, h.named, h.whole, fun c hc => ?_⟩
  obtain ⟨m, n, hpath⟩ := hcore
  by_cases hempty : core = ""
  · rw [below, if_pos hempty] at hc
    cases hc
  · rw [below, if_neg hempty, String.toList_append, List.mem_append] at hc
    rcases hc with hc | hc
    · exact h.line c (by simp [hpath, hc])
    · rw [List.mem_singleton.mp hc]
      decide

/-- A location is read exactly where it is written as one, and every other text is refused. What is
read of it is the name of the bucket and the path without the slashes around it, as the beginning of
the keys below; this beginning is empty or ends in one slash, and does not begin with one. Put
together behind a scheme the two are read as what they are. -/
theorem location_grammar (location : String) :
    (∀ b, read location = .ok b ↔ ∃ path core, Written location b.name path ∧ Framed path core ∧
      Bare core ∧ b.start = below core) ∧
    ((∃ b, read location = .ok b) ↔ ∃ name path, Written location name path) ∧
    ((¬ ∃ name path, Written location name path) →
      read location = .error (.configuration (.notBucket location))) ∧
    ∀ b, read location = .ok b → isBucket location ∧ b.start.toList.head? ≠ some '/' ∧
      (b.start = "" ∨ ∃ core, b.start = core ++ "/" ∧ core.toList.getLast? ≠ some '/') ∧
      read ("s3://" ++ b.name ++ "/" ++ b.start) = .ok b := by
  refine ⟨fun b => read_eq_ok_iff, ⟨?_, ?_⟩, fun hnone => ?_, fun b hb => ?_⟩
  · rintro ⟨b, hb⟩
    obtain ⟨path, _, hwritten, -⟩ := read_eq_ok_iff.mp hb
    exact ⟨b.name, path, hwritten⟩
  · rintro ⟨name, path, hwritten⟩
    exact exists_read hwritten
  · unfold read
    split
    · rename_i b hb
      obtain ⟨path, hwritten, -⟩ := read?_eq_some_iff.mp hb
      exact absurd ⟨b.name, path, hwritten⟩ hnone
    · rfl
  · obtain ⟨path, core, hwritten, hframed, hbare, hstart⟩ := read_eq_ok_iff.mp hb
    have hends := below_ends hbare
    have hagain : read ("s3://" ++ b.name ++ "/" ++ below core) = .ok b :=
      read_eq_ok_iff.mpr
        ⟨below core, core, written_text hwritten core hframed, framed_below core, hbare, hstart⟩
    rw [← hstart] at hends hagain
    exact ⟨isBucket_of_written hwritten, hends.1, hends.2, hagain⟩

example : read "s3a://b\n//x//y//" = .ok ⟨"b\n", "x//y/"⟩ := by decide +kernel

end Bucket

end ArchiveKeeper.Location
