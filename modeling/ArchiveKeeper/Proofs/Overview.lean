import ArchiveKeeper.Overview.Publication
import Mathlib.Data.List.Dedup

namespace ArchiveKeeper.Overview

variable {seen seen' : List Json.Text} {js js' : List Listed} {o : StoredOverview}
  {os os' : List StoredOverview}

theorem firsts_congr (h : ∀ id, id ∈ seen ↔ id ∈ seen') : firsts seen js = firsts seen' js := by
  induction js generalizing seen seen' with
  | nil => rfl
  | cons j js ih =>
    have hcons (id : Json.Text) : id ∈ j.id :: seen ↔ id ∈ j.id :: seen' := by
      rw [List.mem_cons, List.mem_cons, h]
    rw [firsts, firsts, ih h, ih hcons]
    exact if_congr (h j.id) rfl rfl

theorem firsts_append : firsts seen (js ++ js') =
    firsts seen js ++ firsts (js.map (·.id) ++ seen) js' := by
  induction js generalizing seen with
  | nil => rfl
  | cons j js ih =>
    rw [List.cons_append, firsts, firsts, ih, ih]
    split
    · rename_i hj
      congr 1
      refine firsts_congr fun id => ?_
      simp only [List.map_cons, List.cons_append, List.mem_cons, List.mem_append]
      exact ⟨.inr, fun h => h.elim (fun he => .inr (he ▸ hj)) fun h => h⟩
    · rw [List.cons_append]
      congr 2
      refine firsts_congr fun id => ?_
      simp only [List.map_cons, List.cons_append, List.mem_cons, List.mem_append]
      tauto

theorem firsts_eq_nil (h : ∀ j ∈ js, j.id ∈ seen) : firsts seen js = [] := by
  induction js with
  | nil => rfl
  | cons j js ih =>
    rw [firsts, if_pos (h j (List.mem_cons_self ..))]
    exact ih fun j' hj' => h j' (List.mem_cons_of_mem _ hj')

theorem firsts_append_self : firsts seen (js ++ (js ++ js')) = firsts seen (js ++ js') := by
  have hseen : firsts (js.map (·.id) ++ seen) js = [] := firsts_eq_nil fun j hj =>
    List.mem_append_left _ (List.mem_map_of_mem hj)
  rw [firsts_append, firsts_append, hseen, List.nil_append, firsts_append]
  congr 1
  refine firsts_congr fun id => ?_
  simp only [List.mem_append]
  tauto

def offered (o : StoredOverview) : List Listed := (read o.json).toOption.getD []

section Sorted

variable {le : StoredOverview → StoredOverview → Prop}

/-- In an ordered list, an overview that is listed again is listed again right behind itself. -/
theorem exists_eq_cons (h : (o :: os).Pairwise le) (ho : o ∈ os)
    (hanti : ∀ a ∈ o :: os, ∀ b ∈ o :: os, le a b → le b a → a = b) : ∃ rest, os = o :: rest := by
  cases os with
  | nil => cases ho
  | cons o' rest =>
    obtain ⟨hfirst, hrest⟩ := List.pairwise_cons.mp h
    have hle : le o o' := hfirst o' (List.mem_cons_self ..)
    rcases List.mem_cons.mp ho with rfl | hmem
    · exact ⟨rest, rfl⟩
    · have he := hanti o (by simp) o' (by simp) hle (List.rel_of_pairwise_cons hrest hmem)
      exact ⟨rest, by rw [he]⟩

theorem firsts_dedup (h : os.Pairwise le)
    (hanti : ∀ a ∈ os, ∀ b ∈ os, le a b → le b a → a = b) :
    firsts seen (os.dedup.flatMap offered) = firsts seen (os.flatMap offered) := by
  induction os generalizing seen with
  | nil => rfl
  | cons o os ih =>
    have hos := (List.pairwise_cons.mp h).2
    have hrest (seen : List Json.Text) :
        firsts seen (os.dedup.flatMap offered) = firsts seen (os.flatMap offered) :=
      ih hos fun a ha b hb => hanti a (List.mem_cons_of_mem _ ha) b (List.mem_cons_of_mem _ hb)
    by_cases ho : o ∈ os
    · -- the copy that is left out is followed by another one right away
      rw [List.dedup_cons_of_mem ho, hrest]
      obtain ⟨rest, rfl⟩ := exists_eq_cons h ho hanti
      exact firsts_append_self.symm
    · rw [List.dedup_cons_of_notMem ho, List.flatMap_cons, List.flatMap_cons, firsts_append,
        firsts_append, hrest]

/-- Lists of the same overviews, in the same order, merge to the same. -/
theorem merge_eq (h : os.Pairwise le) (h' : os'.Pairwise le)
    (hanti : ∀ a ∈ os, ∀ b ∈ os, le a b → le b a → a = b) (hmem : ∀ o, o ∈ os ↔ o ∈ os') :
    merge os = merge os' := by
  have hanti' : ∀ a ∈ os', ∀ b ∈ os', le a b → le b a → a = b := fun a ha b hb =>
    hanti a ((hmem a).mpr ha) b ((hmem b).mpr hb)
  have hperm : os.dedup.Perm os'.dedup := by
    rw [List.perm_ext_iff_of_nodup os.nodup_dedup os'.nodup_dedup]
    simpa using hmem
  have he : os.dedup = os'.dedup := hperm.eq_of_pairwise
    (fun a b ha hb => hanti a (List.mem_dedup.mp ha) b ((hmem b).mpr (List.mem_dedup.mp hb)))
    (h.sublist (List.dedup_sublist os)) (h'.sublist (List.dedup_sublist os'))
  change firsts [] (os.flatMap offered) = firsts [] (os'.flatMap offered)
  rw [← firsts_dedup h hanti, he, firsts_dedup h' hanti']

end Sorted

section Publication

variable {σ ε : Type} [Throwable ε]

/-- Publishing breaks off where the store throws what no text can be made of. -/
def BreaksOff (store : Store σ ε) (w : σ) : Prop :=
  (store.listOverviews w).1.IsTextless ∨ ∃ os, (store.listOverviews w).1.outcome = .ok os ∧
    (store.publish (write (merge os)) (store.listOverviews w).2).1.IsTextless

theorem outcome_republish (store : Store σ ε) (w : σ) :
    (∃ n?, (republish store w).1.outcome = .ok n?) ∧ ¬ BreaksOff store w ∨
      (republish store w).1.outcome = .error Throwable.textless ∧ BreaksOff store w := by
  unfold republish BreaksOff
  rcases store.listOverviews w with ⟨⟨x | os, log⟩, w'⟩
  · obtain ⟨hok, hsome⟩ | ⟨hfails, hnone⟩ := Reply.outcome_despite x none unpublished
    · exact .inl ⟨⟨_, hok⟩, by simpa using hsome⟩
    · exact .inr ⟨hfails, .inl ⟨x, rfl, hnone⟩⟩
  dsimp only
  rcases hp : store.publish (write (merge os)) w' with ⟨⟨x | u, log'⟩, w''⟩
  · obtain ⟨hok, hsome⟩ | ⟨hfails, hnone⟩ := Reply.outcome_despite x none unpublished
    · exact .inl ⟨⟨_, hok⟩, by simpa [hp] using hsome⟩
    · exact .inr ⟨hfails, .inr ⟨os, rfl, by simpa [hp] using hnone⟩⟩
  · exact .inl ⟨⟨_, rfl⟩, by simp [hp]⟩

end Publication

theorem republish_answers {σ : Type} (store : Store σ) (w : σ) :
    ∃ n?, (republish store w).1.outcome = .ok n? := by
  obtain ⟨h, -⟩ | ⟨-, hlist | ⟨os, -, hpublish⟩⟩ := outcome_republish store w
  · exact h
  · exact absurd hlist (Reply.not_isTextless nofun _)
  · exact absurd hpublish (Reply.not_isTextless nofun _)

/-- The merge is published if the overviews can be listed, and succeeds if the store takes it. -/
theorem republish_cases {σ : Type} (store : Store σ) (w : σ) :
    ((∃ e, (store.listOverviews w).1.outcome = .error e) ∧
        (republish store w).1.outcome = .ok none ∧
        (republish store w).2 = (store.listOverviews w).2) ∨
      ∃ os, (store.listOverviews w).1.outcome = .ok os ∧
        (republish store w).2 = (store.publish (write (merge os)) (store.listOverviews w).2).2 ∧
        ((∃ n, (republish store w).1.outcome = .ok (some n)) ↔
          (store.publish (write (merge os)) (store.listOverviews w).2).1.outcome = .ok ()) := by
  unfold republish
  rcases store.listOverviews w with ⟨⟨e | os, log⟩, w'⟩
  · exact .inl ⟨⟨e, rfl⟩, rfl, rfl⟩
  · refine .inr ⟨os, rfl, ?_⟩
    dsimp only
    rcases store.publish (write (merge os)) w' with ⟨⟨e | u, log'⟩, w''⟩
    · exact ⟨rfl, iff_of_false nofun nofun⟩
    · exact ⟨rfl, by simp⟩

end ArchiveKeeper.Overview
