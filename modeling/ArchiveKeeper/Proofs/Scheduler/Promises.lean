import ArchiveKeeper.Proofs.Scheduler.Order
import ArchiveKeeper.Scheduler.Callers
import Mathlib.Data.List.Induction
import Mathlib.Data.List.Nodup

namespace ArchiveKeeper.Scheduler.Callers

inductive Move where
  | trigger
  /-- The cycle of the current run ends. -/
  | finish (outcome : Outcome)
  | start (expression : String) (runOnStart : Bool)
  | stop

variable {c : Callers} {ended : List Outcome} {moves : List Move}

def move (c : Callers) : Move → Callers
  | .trigger => c.trigger.2
  | .finish outcome => (c.finish fun _ => outcome).2
  | .start expression runOnStart => (c.start expression runOnStart).2
  | .stop => c.stop.2

def play (moves : List Move) : Callers := moves.foldl move .initial

def asks (c : Callers) : Move → Bool
  | .trigger => true
  | .start expression runOnStart => startsRun expression runOnStart c.scheduler
  | .finish _ | .stop => false

def ending (c : Callers) : Move → List Outcome
  | .finish outcome => if c.scheduler.isRunning then [outcome] else []
  | .trigger | .start _ _ | .stop => []

/-- The outcomes of the cycles that end in the course of moves, in their order. -/
def outcomes (c : Callers) : List Move → List Outcome
  | [] => []
  | m :: moves => c.ending m ++ (c.move m).outcomes moves

theorem play_concat (m : Move) : play (moves ++ [m]) = (play moves).move m := by
  rw [play, List.foldl_append]
  rfl

theorem outcomes_append (c : Callers) (moves moves' : List Move) :
    c.outcomes (moves ++ moves') = c.outcomes moves ++ (moves.foldl move c).outcomes moves' := by
  induction moves generalizing c with
  | nil => rfl
  | cons m moves ih => rw [List.cons_append, outcomes, ih, outcomes, List.append_assoc, List.foldl_cons]

theorem outcomes_concat (m : Move) :
    initial.outcomes (moves ++ [m]) = initial.outcomes moves ++ (play moves).ending m := by
  rw [outcomes_append, outcomes, outcomes, List.append_nil, play]

def handedOut (c : Callers) : List Nat := c.waiting.map Prod.fst ++ c.answered.map Prod.fst

/-- Promises are kept. Every run that a trigger has asked for has a ticket, which waits for the end of
the run, and is then answered with its result. -/
structure Kept (ended : List Outcome) (c : Callers) : Prop where
  paced : Paced ended.length c.scheduler
  known : ∀ ticket ∈ c.handedOut, ticket ≤ c.tickets
  once : c.handedOut.Nodup
  runs : ∀ p ∈ c.shared, 1 ≤ p.1 ∧ p.1 ≤ c.scheduler.asked
  shared : (c.shared.map Prod.fst).Nodup
  pending : ∀ p ∈ c.shared, ended.length < p.1 → (p.2, .result p.1) ∈ c.waiting
  settled : ∀ p ∈ c.shared, ∀ o, ended[p.1 - 1]? = some o → (p.2, .result (resultOf o)) ∈ c.answered

namespace Kept

theorem initial : Kept [] .initial where
  paced := .idle false
  known := by simp [handedOut, Callers.initial]
  once := by simp [handedOut, Callers.initial]
  runs := by simp [Callers.initial]
  shared := by simp [Callers.initial]
  pending := by simp [Callers.initial]
  settled := by simp [Callers.initial]

theorem reschedule (h : Kept ended c) {s : Scheduler} (log : List Log.Record)
    (hs : Paced ended.length s) (ha : c.scheduler.asked ≤ s.asked) :
    Kept ended { c with scheduler := s, log := c.log ++ log } where
  paced := hs
  known := h.known
  once := h.once
  runs p hp := ⟨(h.runs p hp).1, Nat.le_trans (h.runs p hp).2 ha⟩
  shared := h.shared
  pending := h.pending
  settled := h.settled

theorem fresh (h : Kept ended c) : c.tickets + 1 ∉ c.handedOut := fun hm =>
  Nat.not_succ_le_self _ (h.known _ hm)

theorem await (h : Kept ended c) (expectation : Expectation) :
    Kept ended (c.await expectation).2 := by
  have hperm : (c.await expectation).2.handedOut.Perm ((c.tickets + 1) :: c.handedOut) := by
    simp only [handedOut, Callers.await, List.map_append, List.map_cons, List.map_nil,
      List.append_assoc, List.singleton_append]
    exact List.perm_middle
  refine ⟨h.paced, fun ticket hm => ?_, hperm.nodup_iff.mpr (List.nodup_cons.mpr ⟨h.fresh, h.once⟩),
    h.runs, h.shared, fun p hp hn => List.mem_append_left _ (h.pending p hp hn), h.settled⟩
  rcases List.mem_cons.mp (hperm.mem_iff.mp hm) with rfl | hm
  · exact Nat.le_refl _
  · exact Nat.le_succ_of_le (h.known ticket hm)

theorem settle (h : Kept ended c) (a : Answer) : Kept ended (c.settle a).2 := by
  have hperm : (c.settle a).2.handedOut.Perm ((c.tickets + 1) :: c.handedOut) := by
    simp only [handedOut, Callers.settle, List.map_append, List.map_cons, List.map_nil,
      ← List.append_assoc]
    exact List.perm_append_singleton _ _
  refine ⟨h.paced, fun ticket hm => ?_, hperm.nodup_iff.mpr (List.nodup_cons.mpr ⟨h.fresh, h.once⟩),
    h.runs, h.shared, h.pending, fun p hp o ho => List.mem_append_left _ (h.settled p hp o ho)⟩
  rcases List.mem_cons.mp (hperm.mem_iff.mp hm) with rfl | hm
  · exact Nat.le_refl _
  · exact Nat.le_succ_of_le (h.known ticket hm)

theorem trigger (h : Kept ended c) : Kept ended c.trigger.2 ∧
    (c.scheduler.started + 1, c.trigger.1) ∈ c.trigger.2.shared ∧
    c.shared ⊆ c.trigger.2.shared ∧ c.trigger.2.scheduler = c.scheduler.trigger.2.2 := by
  have hrun := h.paced.run_trigger
  have hasked := h.paced.asked_trigger
  obtain ⟨hlow, -, -⟩ := h.paced.started_bounds
  have h₁ := h.reschedule c.scheduler.trigger.2.1 h.paced.trigger (by omega)
  unfold Callers.trigger
  rcases ht : c.scheduler.trigger with ⟨run, log, s⟩
  rw [ht] at hrun hasked h₁
  dsimp only at hrun hasked h₁ ⊢
  cases hf : c.shared.find? fun p => p.1 = run with
  | some p =>
    -- somebody has asked for this run before, and the ticket is shared
    have hp : p ∈ c.shared := List.mem_of_find?_eq_some hf
    obtain rfl : p.1 = run := by simpa using List.find?_some hf
    refine ⟨h₁, ?_, fun _ hm => hm, rfl⟩
    rw [← hrun]
    exact hp
  | none =>
    have hnew : run ∉ c.shared.map Prod.fst := by
      intro hm
      obtain ⟨p, hp, he⟩ := List.mem_map.mp hm
      exact List.find?_eq_none.mp hf p hp (decide_eq_true he)
    have h₂ := h₁.await (.result run)
    refine ⟨?_, by rw [← hrun]; exact List.mem_cons_self .., List.subset_cons_self _ _, rfl⟩
    refine ⟨h₂.paced, h₂.known, h₂.once, List.forall_mem_cons.mpr ⟨⟨?_, ?_⟩, h₂.runs⟩,
      List.nodup_cons.mpr ⟨hnew, h₂.shared⟩, List.forall_mem_cons.mpr ⟨fun _ => ?_, h₂.pending⟩,
      List.forall_mem_cons.mpr ⟨fun o ho => ?_, h₂.settled⟩⟩
    · exact hrun ▸ Nat.le_add_left 1 _
    · show run ≤ s.asked
      omega
    · exact List.mem_append_right _ (List.mem_singleton_self _)
    · -- the run has not even started
      obtain ⟨hlt, -⟩ := List.getElem?_eq_some_iff.mp ho
      change run - 1 < ended.length at hlt
      omega

end Kept

theorem perm_answered (f : Expectation → Option Answer) (waiting : List (Nat × Expectation)) :
    ((waiting.filter fun w => (f w.2).isNone).map Prod.fst ++
      (waiting.filterMap fun w => (f w.2).map (w.1, ·)).map Prod.fst).Perm
        (waiting.map Prod.fst) := by
  induction waiting with
  | nil => exact .refl _
  | cons w waiting ih =>
    cases hf : f w.2 with
    | none => simpa [List.filter_cons, List.filterMap_cons, hf] using ih.cons w.1
    | some a =>
      rw [List.filter_cons, List.filterMap_cons, hf]
      exact List.perm_middle.trans (ih.cons w.1)

theorem Kept.finish (h : Kept ended c) (hr : c.scheduler.isRunning) (outcome : Outcome) :
    Kept (ended ++ [outcome]) (c.finish fun _ => outcome).2 ∧
      (c.finish fun _ => outcome).2.shared = c.shared ∧
      (c.finish fun _ => outcome).2.scheduler = (c.scheduler.finish outcome).2.2 := by
  obtain ⟨hend, hpaced, -, hasked⟩ := h.paced.finish hr outcome
  unfold Callers.finish
  rcases hs : c.scheduler.finish outcome with ⟨answer, log, s⟩
  rw [hs] at hend hpaced hasked
  dsimp only at hend hpaced hasked ⊢
  subst hend
  dsimp only
  set now := answer? (ended.length + 1) (resultOf outcome) s.isIdle
  -- tickets only go over from those that wait to those that are answered
  have hperm := perm_answered now c.waiting
  have hout : ((c.waiting.filter fun w => (now w.2).isNone).map Prod.fst ++ (c.answered ++
      c.waiting.filterMap fun w => (now w.2).map (w.1, ·)).map Prod.fst).Perm c.handedOut := by
    rw [handedOut, List.map_append]
    refine ((List.perm_append_comm).append_left _).trans ?_
    rw [← List.append_assoc]
    exact hperm.append_right _
  refine ⟨⟨?_, ?_, hout.nodup_iff.mpr h.once, fun p hp => ?_, h.shared, fun p hp hn => ?_,
    fun p hp o ho => ?_⟩, rfl, rfl⟩
  · rw [List.length_append]
    exact hpaced
  · exact fun ticket hm => h.known ticket (hout.mem_iff.mp hm)
  · exact hasked ▸ h.runs p hp
  · rw [List.length_append, List.length_singleton] at hn
    refine List.mem_filter.mpr ⟨h.pending p hp (by omega), ?_⟩
    simp only [now, answer?]
    rw [if_neg (by omega)]
    rfl
  · obtain ⟨hpos, -⟩ := h.runs p hp
    by_cases hlt : p.1 - 1 < ended.length
    · rw [List.getElem?_append_left hlt] at ho
      exact List.mem_append_left _ (h.settled p hp o ho)
    · obtain ⟨hle, -⟩ := List.getElem?_eq_some_iff.mp ho
      rw [List.length_append, List.length_singleton] at hle
      -- this is the run that has just ended
      have hrun : p.1 = ended.length + 1 := by omega
      have ho' : o = outcome := by
        rw [hrun, Nat.add_sub_cancel, List.getElem?_concat_length] at ho
        exact (Option.some.inj ho).symm
      refine List.mem_append_right _ (List.mem_filterMap.mpr ⟨_, h.pending p hp (by omega), ?_⟩)
      simp only [now, answer?, hrun, ho', if_true, Option.map_some]

/-- Promises are kept whatever happens, and no ticket is taken back. -/
theorem Kept.move (h : Kept ended c) (m : Move) :
    Kept (ended ++ c.ending m) (c.move m) ∧ c.shared ⊆ (c.move m).shared := by
  cases m with
  | trigger =>
    obtain ⟨hkept, -, hsub, -⟩ := h.trigger
    rw [ending, List.append_nil]
    exact ⟨hkept, hsub⟩
  | finish outcome =>
    rw [ending, Callers.move]
    split
    · rename_i hr
      obtain ⟨hkept, hshared, -⟩ := h.finish hr outcome
      exact ⟨hkept, hshared ▸ List.Subset.refl _⟩
    · rename_i hr
      have hidle := h.paced.finish_idle hr outcome
      rw [List.append_nil, Callers.finish, hidle]
      exact ⟨h.reschedule [] h.paced (Nat.le_refl _), List.Subset.refl _⟩
  | start expression runOnStart =>
    rw [ending, List.append_nil, Callers.move, Callers.start]
    rcases hs : c.scheduler.start expression runOnStart with ⟨r, log, s⟩
    have hcases := start_cases c.scheduler expression runOnStart
    rw [hs] at hcases
    dsimp only at hcases ⊢
    -- a start triggers a run, or it does no more than arm the schedule
    have hpaced : Paced ended.length s ∧ c.scheduler.asked ≤ s.asked := by
      rcases hcases with ⟨-, -, rfl⟩ | ⟨-, -, armed, rfl⟩
      · have ha := (h.paced.arm true).asked_trigger
        exact ⟨(h.paced.arm true).trigger, ha ▸ Nat.le_max_left ..⟩
      · exact ⟨h.paced.arm armed, Nat.le_refl _⟩
    have h₁ := h.reschedule log hpaced.1 hpaced.2
    split
    · exact ⟨h₁.settle _, List.Subset.refl _⟩
    · exact ⟨h₁.settle _, List.Subset.refl _⟩
    · exact ⟨h₁.await _, List.Subset.refl _⟩
    · exact ⟨h₁.await _, List.Subset.refl _⟩
  | stop =>
    have h₁ := h.reschedule [] (h.paced.arm false) (Nat.le_refl _)
    rw [ending, List.append_nil, Callers.move, Callers.stop, Scheduler.stop]
    rw [List.append_nil] at h₁
    dsimp only
    split
    · exact ⟨h₁.settle _, List.Subset.refl _⟩
    · exact ⟨h₁.await _, List.Subset.refl _⟩
    · exact ⟨h₁.await _, List.Subset.refl _⟩

theorem kept_play (moves : List Move) : Kept (initial.outcomes moves) (play moves) := by
  induction moves using List.reverseRecOn with
  | nil => exact .initial
  | append_singleton moves m ih =>
    rw [play_concat, outcomes_concat]
    exact (ih.move m).1

/-- A run is asked for by a move that asks for one, and by nothing else. -/
theorem Kept.asked_move (h : Kept ended c) (m : Move) : (c.move m).scheduler.asked =
    if c.asks m then max c.scheduler.asked (c.scheduler.started + 1) else c.scheduler.asked := by
  cases m with
  | trigger =>
    obtain ⟨-, -, -, hs⟩ := h.trigger
    rw [Callers.move, hs, h.paced.asked_trigger]
    rfl
  | finish outcome =>
    rw [asks, if_neg Bool.false_ne_true, Callers.move]
    by_cases hr : c.scheduler.isRunning
    · obtain ⟨-, -, hs⟩ := h.finish hr outcome
      rw [hs, (h.paced.finish hr outcome).2.2.2]
    · rw [Callers.finish, h.paced.finish_idle hr outcome]
  | start expression runOnStart =>
    rw [asks, Callers.move, Callers.start]
    rcases hs : c.scheduler.start expression runOnStart with ⟨r, log, s⟩
    have hcases := start_cases c.scheduler expression runOnStart
    rw [hs] at hcases
    -- what the start answers does not matter to the count, only whether it triggers
    have hs' : s.asked = if startsRun expression runOnStart c.scheduler then
        max c.scheduler.asked (c.scheduler.started + 1) else c.scheduler.asked := by
      rcases hcases with ⟨hasks, -, rfl⟩ | ⟨hasks, -, armed, rfl⟩
      · rw [if_pos hasks, (h.paced.arm true).asked_trigger]
        rfl
      · rw [hasks, if_neg Bool.false_ne_true]
    rw [← hs']
    dsimp only
    split <;> rfl
  | stop =>
    rw [asks, if_neg Bool.false_ne_true, Callers.move, Callers.stop, Scheduler.stop]
    dsimp only
    split <;> rfl

/-- The ticket of a trigger is that of the first run that was not yet under way. -/
theorem mem_shared {before after : List Move} (h : moves = before ++ .trigger :: after) :
    ((play before).scheduler.started + 1, (play before).trigger.1) ∈ (play moves).shared := by
  induction after using List.reverseRecOn generalizing moves with
  | nil =>
    rw [h, play_concat]
    exact (kept_play before).trigger.2.1
  | append_singleton after m ih =>
    rw [← List.cons_append, ← List.append_assoc] at h
    rw [h, play_concat]
    exact ((kept_play _).move m).2 (ih rfl)

/-- What holds of a scheduler after triggers and ends of cycles in whatever order. Runs are numbered
in the order in which they start. -/
structure Protocol (moves : List Move) : Prop where
  /-- One cycle at most is under way. -/
  oneRuns : (initial.outcomes moves).length ≤ (play moves).scheduler.started ∧
    (play moves).scheduler.started ≤ (initial.outcomes moves).length + 1
  inOrder : ∀ n, (play moves).scheduler.running = some n →
    n = (play moves).scheduler.started ∧ n = (initial.outcomes moves).length + 1
  oneWaits : (play moves).scheduler.waiting.length ≤ 1
  /-- Whoever triggers while a run waits gets that run, and asks for no other. -/
  joins : ∀ n ∈ (play moves).scheduler.waiting, (play moves).scheduler.trigger.1 = n ∧
    (play moves).trigger.2.scheduler = (play moves).scheduler
  /-- When a cycle ends, with a result or a failure, the run that waits is started in the same step. -/
  next : ∀ outcome, (play moves).scheduler.isRunning →
    (play (moves ++ [.finish outcome])).scheduler.running = (play moves).scheduler.waiting.head?
  /-- Every run that was started was asked for before. -/
  asked : ∀ n, 0 < n → n ≤ (play moves).scheduler.started → ∃ before m after,
    moves = before ++ m :: after ∧ (play before).asks m ∧ (play before).scheduler.trigger.1 = n ∧
      (play before).scheduler.started < n
  /-- A trigger gets the first run that starts from then on, which is the next one to end or the one
  after that. -/
  soon : ∀ before after, moves = before ++ .trigger :: after →
    (play before).scheduler.trigger.1 = (play before).scheduler.started + 1 ∧
      (play before).scheduler.started + 1 ≤ (initial.outcomes before).length + 2
  /-- Its ticket is answered with the result of that run when it has ended, and not before. -/
  answered : ∀ before after, moves = before ++ .trigger :: after → ∀ answer,
    ((play before).trigger.1, answer) ∈ (play moves).answered ↔
      ∃ outcome, (initial.outcomes moves)[(play before).scheduler.started]? = some outcome ∧
        answer = .result (resultOf outcome)
  once : ((play moves).answered.map Prod.fst).Nodup
  /-- Until then a cycle is under way. -/
  unstuck : ∀ before after, moves = before ++ .trigger :: after →
    (initial.outcomes moves).length ≤ (play before).scheduler.started →
      (play moves).scheduler.isRunning
  /-- Triggers that get the same run have the same ticket. -/
  shared : ∀ before after before' after', moves = before ++ .trigger :: after →
    moves = before' ++ .trigger :: after' →
    (play before).scheduler.started = (play before').scheduler.started →
      (play before).trigger.1 = (play before').trigger.1

theorem asked_play (moves : List Move) (n : Nat) (hpos : 0 < n)
    (hn : n ≤ (play moves).scheduler.asked) : ∃ before m after, moves = before ++ m :: after ∧
      (play before).asks m ∧ n = (play before).scheduler.started + 1 := by
  induction moves using List.reverseRecOn with
  | nil => exact absurd hn (Nat.not_le.mpr hpos)
  | append_singleton moves m ih =>
    by_cases hold : n ≤ (play moves).scheduler.asked
    · obtain ⟨before, m', after, rfl, hasks⟩ := ih hold
      exact ⟨before, m', after ++ [m], by simp, hasks⟩
    · have hmove := (kept_play moves).asked_move m
      obtain ⟨-, -, hle⟩ := (kept_play moves).paced.started_bounds
      rw [play_concat, hmove] at hn
      split at hn
      · rename_i hasks
        exact ⟨moves, m, [], rfl, hasks, by omega⟩
      · exact absurd hn hold

/-- Whatever happens to a scheduler, and in whatever order, every trigger is answered with the result
of the first cycle that starts from then on. -/
theorem promises_kept (moves : List Move) : Protocol moves := by
  have h := kept_play moves
  obtain ⟨hlow, hhigh, hasked⟩ := h.paced.started_bounds
  obtain ⟨hone, hwaits⟩ := h.paced.waiting
  have hanswered : ((play moves).answered.map Prod.fst).Nodup := h.once.of_append_right
  refine ⟨⟨hlow, hhigh⟩, fun n hn => ?_, hone, fun n hn => ?_, fun outcome hr => ?_,
    fun n hpos hn => ?_, fun before after hm => ?_, fun before after hm answer => ?_, hanswered,
    fun before after hm hle => ?_, fun before after before' after' hm hm' he => ?_⟩
  · exact h.paced.running hn
  · obtain ⟨rfl, -⟩ := hwaits n hn
    refine ⟨h.paced.run_trigger, ?_⟩
    rw [h.trigger.2.2.2, Scheduler.trigger, if_pos (List.ne_nil_of_mem hn)]
  · rw [play_concat, Callers.move, (h.finish hr outcome).2.2]
    exact (h.paced.finish hr outcome).2.2.1
  · obtain ⟨before, m, after, hm, hasks, rfl⟩ := asked_play moves n hpos (Nat.le_trans hn hasked)
    exact ⟨before, m, after, hm, hasks, (kept_play before).paced.run_trigger, Nat.lt_succ_self _⟩
  · obtain ⟨-, hb, -⟩ := (kept_play before).paced.started_bounds
    exact ⟨(kept_play before).paced.run_trigger, Nat.succ_le_succ hb⟩
  · have hp := mem_shared hm
    set ticket := (play before).trigger.1
    set n := (play before).scheduler.started
    constructor
    · intro ha
      by_cases hn : n < (initial.outcomes moves).length
      · have ho := List.getElem?_eq_getElem hn
        have hs := h.settled _ hp _ ho
        refine ⟨_, ho, ?_⟩
        exact congrArg Prod.snd (List.inj_on_of_nodup_map hanswered ha hs rfl)
      · -- the ticket is still waiting
        have hw := h.pending _ hp (by dsimp only; omega)
        exact (List.disjoint_of_nodup_append h.once (List.mem_map_of_mem hw)
          (List.mem_map_of_mem ha)).elim
    · rintro ⟨outcome, ho, rfl⟩
      exact h.settled _ hp outcome ho
  · obtain ⟨-, hle'⟩ := h.runs _ (mem_shared hm)
    rw [h.paced.isRunning_iff]
    dsimp only at hle'
    omega
  · have hp := mem_shared hm
    have hp' := mem_shared hm'
    rw [he] at hp
    exact congrArg Prod.snd (List.inj_on_of_nodup_map h.shared hp hp' rfl)

end ArchiveKeeper.Scheduler.Callers
