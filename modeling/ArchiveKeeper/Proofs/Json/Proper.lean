import ArchiveKeeper.Proofs.Json.Escapes
import ArchiveKeeper.Proofs.Json.Members
import ArchiveKeeper.Proofs.Number.Decimal

namespace ArchiveKeeper.Json

open Token

inductive Value.Proper : Value → Prop
  | null : Proper .null
  | bool (b : Bool) : Proper (.bool b)
  | number {x : Double} : x.Proper → Proper (.number x)
  | string {s : Text} : s.Joined → Proper (.string s)
  | array {items : List Value} : (∀ v ∈ items, Proper v) → Proper (.array items)
  | object {members : List (Text × Value)} : (members.map Prod.fst).Nodup →
      (∀ m ∈ members, m.1.Joined) → (∀ m ∈ members, Proper m.2) → Proper (.object members)

namespace Value.Proper

variable {x : Double} {s : Text} {items : List Value} {members : List (Text × Value)}

theorem of_number (h : (Value.number x).Proper) : x.Proper := by
  cases h
  assumption

theorem of_string (h : (Value.string s).Proper) : s.Joined := by
  cases h
  assumption

theorem of_array (h : (Value.array items).Proper) : ∀ v ∈ items, v.Proper := by
  cases h
  assumption

theorem of_object (h : (Value.object members).Proper) : (members.map Prod.fst).Nodup ∧
    (∀ m ∈ members, m.1.Joined) ∧ ∀ m ∈ members, m.2.Proper := by
  cases h with
  | object hd hn hv => exact ⟨hd, hn, hv⟩

theorem record {ms : List (String × Value)} (hn : (ms.map Prod.fst).Nodup)
    (h : ∀ m ∈ ms, m.2.Proper) : (Value.record ms).Proper := by
  have hd : ((ms.map fun m => (Text.ofString m.1, m.2)).map Prod.fst).Nodup := by
    have h := hn.map fun _ _ => Text.ofString_injective
    rw [List.map_map] at h ⊢
    exact h
  apply Proper.object hd
  · intro m hm
    obtain ⟨m', -, rfl⟩ := List.mem_map.mp hm
    exact Text.joined_ofString _
  · intro m hm
    obtain ⟨m', hm', rfl⟩ := List.mem_map.mp hm
    exact h m' hm'

theorem perm {members' : List (Text × Value)} (h : (Value.object members).Proper)
    (hperm : members'.Perm members) : (Value.object members').Proper := by
  obtain ⟨hd, hn, hv⟩ := h.of_object
  refine .object ((hperm.map _).nodup_iff.mpr hd) (fun m hm => ?_) fun m hm => ?_
  · exact hn m (hperm.mem_iff.mp hm)
  · exact hv m (hperm.mem_iff.mp hm)

end Value.Proper

def Token.Proper : Token → Prop
  | .scalar v => v.Proper
  | .text s => s.Joined
  | _ => True

namespace Token

variable {cs rest : List Char} {t : Token} {before ts : List Token}

theorem proper_next? (h : next? cs = some (t, rest)) : t.Proper := by
  unfold next? at h
  split at h
  case h_7 => cases h; exact .null
  case h_8 => cases h; exact .bool true
  case h_9 => cases h; exact .bool false
  case h_10 =>
    obtain ⟨_, hs, hr⟩ := Option.map_eq_some_iff.mp h
    cases hr
    exact joined_string? hs List.isChain_nil
  case h_11 =>
    obtain ⟨_, hn, hr⟩ := Option.map_eq_some_iff.mp h
    cases hr
    exact .number (Decimal.proper_toDouble _)
  all_goals
    cases h
    trivial

theorem proper_scan (h : scan before cs = some ts) (hbefore : ∀ t ∈ before, t.Proper) :
    ∀ t ∈ ts, t.Proper := by
  fun_induction scan before cs with
  | case1 before =>
    cases h
    intro t ht
    exact hbefore t (List.mem_reverse.mp ht)
  | case2 before c rest hblank ih => exact ih h hbefore
  | case3 => cases h
  | case4 before c rest hblank t rest' hnext _ ih =>
    exact ih h (List.forall_mem_cons.mpr ⟨proper_next? hnext, hbefore⟩)

end Token

def ProperMembers (members : List (Text × Value)) : Prop :=
  ∀ m ∈ members, m.1.Joined ∧ m.2.Proper

def Frame.Proper : Frame → Prop
  | .array before => ∀ v ∈ before, v.Proper
  | .object before key => ProperMembers before ∧ key.Joined

def Reading.Proper : Reading → Prop
  | .value frames | .itemOrClose frames | .nameOrClose frames => ∀ f ∈ frames, f.Proper
  | .name before frames => ProperMembers before ∧ ∀ f ∈ frames, f.Proper
  | .colon before key frames => ProperMembers before ∧ key.Joined ∧ ∀ f ∈ frames, f.Proper
  | .done v frames => v.Proper ∧ ∀ f ∈ frames, f.Proper

theorem Value.proper_settled {settings : List (Text × Value)} (h : ProperMembers settings) :
    (Value.object (settle settings)).Proper := by
  obtain ⟨hnodup, hmem⟩ := settle_spec settings
  exact .object hnodup (fun m hm => (h m (hmem m hm)).1) fun m hm => (h m (hmem m hm)).2

namespace Reading

variable {frames : List Frame} {t : Token} {r r' : Reading}

theorem proper_start (h : start frames t = some r) (hframes : ∀ f ∈ frames, f.Proper)
    (ht : t.Proper) : r.Proper := by
  unfold start at h
  split at h
  case h_1 => cases h; exact ⟨ht, hframes⟩
  case h_2 => cases h; exact ⟨.string ht, hframes⟩
  case h_3 => cases h; exact hframes
  case h_4 => cases h; exact hframes
  case h_5 => cases h

theorem proper_next (h : r.next t = some r') (hr : r.Proper) (ht : t.Proper) : r'.Proper := by
  unfold next at h
  split at h
  case h_1 => exact proper_start h hr ht
  case h_2 => cases h; exact ⟨.array (List.forall_mem_nil _), hr⟩
  case h_3 =>
    have hempty : (Frame.array []).Proper := List.forall_mem_nil _
    exact proper_start h (List.forall_mem_cons.mpr ⟨hempty, hr⟩) ht
  case h_4 => cases h; exact ⟨Value.proper_settled (List.forall_mem_nil _), hr⟩
  case h_5 => cases h; exact ⟨List.forall_mem_nil _, ht, hr⟩
  case h_6 => cases h; exact ⟨hr.1, ht, hr.2⟩
  case h_7 => cases h; exact List.forall_mem_cons.mpr ⟨⟨hr.1, hr.2.1⟩, hr.2.2⟩
  -- a value is done, inside an array or an object
  case h_8 =>
    cases h
    obtain ⟨hbefore, hframes⟩ := List.forall_mem_cons.mp hr.2
    have hframe : (Frame.array _).Proper := List.forall_mem_cons.mpr ⟨hr.1, hbefore⟩
    exact List.forall_mem_cons.mpr ⟨hframe, hframes⟩
  case h_9 v before frames =>
    cases h
    obtain ⟨hbefore, hframes⟩ := List.forall_mem_cons.mp hr.2
    refine ⟨.array fun w hw => ?_, hframes⟩
    exact List.forall_mem_cons.mpr ⟨hr.1, hbefore⟩ w (List.mem_reverse.mp hw)
  case h_10 =>
    cases h
    obtain ⟨hframe, hframes⟩ := List.forall_mem_cons.mp hr.2
    exact ⟨List.forall_mem_cons.mpr ⟨⟨hframe.2, hr.1⟩, hframe.1⟩, hframes⟩
  case h_11 =>
    cases h
    obtain ⟨hframe, hframes⟩ := List.forall_mem_cons.mp hr.2
    refine ⟨Value.proper_settled fun m hm => ?_, hframes⟩
    exact List.forall_mem_cons.mpr ⟨⟨hframe.2, hr.1⟩, hframe.1⟩ m (List.mem_reverse.mp hm)
  case h_12 => cases h

theorem proper_run {ts : List Token} (h : r.run ts = some r') (hr : r.Proper)
    (hts : ∀ t ∈ ts, t.Proper) : r'.Proper := by
  induction ts generalizing r with
  | nil => cases h; exact hr
  | cons t ts ih =>
    obtain ⟨ht, hts⟩ := List.forall_mem_cons.mp hts
    rw [run] at h
    split at h
    · rename_i hnext
      exact ih h (proper_next hnext hr ht) hts
    · cases h

end Reading

/-- Every value that was read is proper. -/
theorem Value.proper_of_read? {s : String} {v : Value} (h : read? s = some v) : v.Proper := by
  unfold read? at h
  obtain ⟨tokens, hscan, h⟩ := Option.bind_eq_some_iff.mp h
  obtain ⟨r, hrun, h⟩ := Option.bind_eq_some_iff.mp h
  have hr : r.Proper := Reading.proper_run hrun (List.forall_mem_nil _)
    (Token.proper_scan hscan (List.forall_mem_nil _))
  split at h
  · cases h
    exact hr.1
  · cases h

end ArchiveKeeper.Json
