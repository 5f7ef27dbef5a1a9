import ArchiveKeeper.Check.Basic
import Mathlib.Data.List.Forall2
import Mathlib.Tactic.Common

namespace ArchiveKeeper

namespace Json.Value

def text? : Value → Option Text
  | .string s => some s
  | _ => none

def number? : Value → Option Double
  | .number x => some x
  | _ => none

def items? : Value → Option (List Value)
  | .array items => some items
  | _ => none

def members? : Value → Option (List (Text × Value))
  | .object members => some members
  | _ => none

section

variable {v : Value}

theorem text?_eq_some_iff {s : Text} : v.text? = some s ↔ v = .string s := by
  cases v <;> simp [text?]

theorem number?_eq_some_iff {x : Double} : v.number? = some x ↔ v = .number x := by
  cases v <;> simp [number?]

theorem items?_eq_some_iff {items : List Value} : v.items? = some items ↔ v = .array items := by
  cases v <;> simp [items?]

theorem members?_eq_some_iff {members : List (Text × Value)} :
    v.members? = some members ↔ v = .object members := by
  cases v <;> simp [members?]

end

end Json.Value

namespace Check

open Json

variable {V α β : Type}

namespace Verdict

variable {v : Verdict α} {a : α}

@[simp] theorem passed?_pure (a : α) : (Verdict.pure a).passed? = some a := rfl

@[simp] theorem passed?_refuse (cause : Cause) : (refuse cause : Verdict α).passed? = none := rfl

@[simp] theorem passed?_under (step : Step) (v : Verdict α) :
    (v.under step).passed? = v.passed? := by
  simp [passed?, under]

@[simp] theorem passed?_map (f : α → β) (v : Verdict α) : (v.map f).passed? = v.passed?.map f := by
  unfold passed? map
  split <;> rfl

theorem passed?_fmap (f : α → β) (v : Verdict α) : (f <$> v).passed? = f <$> v.passed? :=
  passed?_map f v

theorem passed?_fmap_iff {f : α → β} {b : β} :
    (f <$> v).passed? = some b ↔ ∃ a, v.passed? = some a ∧ f a = b := by
  rw [passed?_fmap]
  exact Option.map_eq_some_iff

theorem passed?_seq (v : Verdict (α → β)) (w : Verdict α) :
    (v <*> w).passed? = v.passed? <*> w.passed? := by
  change (v.both w).passed? = _
  obtain ⟨f, issues⟩ := v
  obtain ⟨a, issues'⟩ := w
  cases issues with
  | cons i is => cases f <;> rfl
  | nil =>
    cases issues' with
    | cons i is => cases f <;> rfl
    | nil => cases f <;> cases a <;> rfl

theorem passed?_seq_iff {w : Verdict (α → β)} {b : β} : (w <*> v).passed? = some b ↔
    ∃ f a, w.passed? = some f ∧ v.passed? = some a ∧ f a = b := by
  rw [passed?_seq]
  constructor
  · intro h
    cases hf : w.passed? with
    | none =>
      rw [hf] at h
      cases h
    | some f =>
      rw [hf] at h
      obtain ⟨a, ha, hb⟩ := Option.map_eq_some_iff.mp h
      exact ⟨f, a, rfl, ha, hb⟩
  · rintro ⟨f, a, hf, ha, rfl⟩
    rw [hf, ha]
    rfl

theorem passed?_insist (holds : α → Bool) (cause : Cause) (v : Verdict α) :
    (v.insist holds cause).passed? = v.passed?.filter holds := by
  obtain ⟨a, issues⟩ := v
  cases a with
  | none => cases issues <;> rfl
  | some a =>
    by_cases h : holds a
    · cases issues <;> simp [insist, passed?, Option.filter, h]
    · cases issues <;> simp [insist, passed?, Option.filter, h]

theorem toExcept_eq_ok_iff : v.toExcept = .ok a ↔ v.passed? = some a := by
  unfold toExcept
  cases v.passed? with
  | none => simp
  | some b => simp

theorem toExcept_eq_error (h : v.passed? = none) : v.toExcept = .error v.issues := by
  rw [toExcept, h]

end Verdict

open Verdict

theorem passed?_insist_check (c : Check V α) (holds : α → Bool) (cause : Cause)
    (v : Option V) : (insist c holds cause v).passed? = (c v).passed?.filter holds :=
  passed?_insist holds cause (c v)

theorem passed?_map_check (f : α → β) (c : Check V α) (v : Option V) :
    (map f c v).passed? = (c v).passed?.map f := passed?_map f (c v)

theorem passed?_field (name : String) (c : Check V α) (find : String → Option V) :
    (field name c find).passed? = (c (find name)).passed? := passed?_under _ _

theorem passed?_optional (c : Check V α) (v : Option V) :
    (optional c v).passed? = match v with
      | none => some none
      | some v => (c (some v)).passed?.map some := by
  cases v with
  | none => rfl
  | some v => exact passed?_map some _

theorem passed?_withDefault (a : α) (c : Check V α) (v : Option V) :
    (withDefault a c v).passed? = match v with
      | none => some a
      | some v => (c (some v)).passed? := by
  cases v <;> rfl

/-- A value passes one of two forms where it passes the first or else the second. -/
theorem passed?_either (c d : Check V α) (v : Option V) :
    (either c d v).passed? = (c v).passed?.or (d v).passed? := by
  unfold either
  cases hc : (c v).passed? with
  | some a => simp [hc]
  | none =>
    cases hd : (d v).passed? with
    | some a => simp [hc, hd]
    | none =>
      -- neither passes, whichever of them gives a result
      simp only [hc, hd, Option.isSome_none, Bool.false_eq_true, if_false, Option.or_none]
      split
      · exact hc
      · split
        · exact hd
        · rfl

section Seen

variable [Visible V]

/-- How the members of a value are found, if it has members. -/
def finder? (v : Option V) : Option (String → Option V) :=
  v.bind fun v => match Visible.see v with
    | .mapping find => some find
    | _ => none

theorem passed?_record_finder (parts : (String → Option V) → Verdict α) (v : Option V) :
    (record parts v).passed? = (finder? v).bind fun find => (parts find).passed? := by
  rcases v with _ | v
  · rfl
  · unfold record mapping finder?
    dsimp only [Option.bind_some, ofKind]
    cases Visible.see v <;> rfl

end Seen

theorem passed?_text (v : Option Value) : (text v).passed? = v.bind Value.text? := by
  rcases v with _ | v
  · rfl
  · cases v <;> rfl

theorem passed?_string (v : Option Value) :
    (string v).passed? = (v.bind Value.text?).map Text.toString := by
  rw [← passed?_text]
  exact passed?_map _ _

theorem passed?_number (v : Option Value) :
    (number v).passed? = (v.bind Value.number?).filter (· ≠ .nan) := by
  rcases v with _ | v
  · rfl
  · cases v with
    | number x => cases x <;> rfl
    | _ => rfl

theorem passed?_record (parts : (String → Option Value) → Verdict α) (v : Option Value) :
    (record parts v).passed? = (v.bind Value.members?).bind fun members =>
      (parts fun name => Value.find? (Text.ofString name) members).passed? := by
  rcases v with _ | v
  · rfl
  · cases v <;> rfl

theorem passed?_each (item : Check V α) (position : Nat) (vs : List V) :
    (each item position vs).passed? = vs.mapM fun v => (item (some v)).passed? := by
  induction vs generalizing position with
  | nil => rfl
  | cons v vs ih =>
    rw [each, passed?_seq, passed?_fmap, passed?_under, ih, List.mapM_cons]
    cases (item (some v)).passed? with
    | none => rfl
    | some a => cases vs.mapM fun v => (item (some v)).passed? <;> rfl

theorem mapM_eq_some_iff {f : α → Option β} {xs : List α} {ys : List β} :
    xs.mapM f = some ys ↔ List.Forall₂ (fun x y => f x = some y) xs ys := by
  induction xs generalizing ys with
  | nil => simp [eq_comm]
  | cons x xs ih =>
    rw [List.forall₂_cons_left_iff, List.mapM_cons]
    simp only [Option.bind_eq_bind, Option.pure_def, Option.bind_eq_some_iff, Option.some.injEq, ih]
    constructor
    · rintro ⟨y, hy, ys, hys, rfl⟩
      exact ⟨y, ys, hy, hys, rfl⟩
    · rintro ⟨y, ys, hy, hys, rfl⟩
      exact ⟨y, hy, ys, hys, rfl⟩

theorem passed?_listOf (item : Check Value α) (v : Option Value) :
    (listOf item v).passed? = (v.bind Value.items?).bind fun items =>
      items.mapM fun v => (item (some v)).passed? := by
  rcases v with _ | v
  · rfl
  · cases v with
    | array items => exact passed?_each item 0 items
    | _ => rfl

end Check

end ArchiveKeeper
