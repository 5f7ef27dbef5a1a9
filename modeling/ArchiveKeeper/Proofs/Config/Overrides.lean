import ArchiveKeeper.Config.File
import ArchiveKeeper.Proofs.Config.Form
import ArchiveKeeper.Proofs.Config.Setting

namespace ArchiveKeeper.Config

open Check Json Setting Verdict

/-- A single setting: the variable that sets it, its section and its name there, its form, and its
part of a configuration. -/
structure Entry where
  Kind : Type
  source : String
  group : String
  name : String
  form : Check Setting Kind
  get : Config → Kind
  put : Kind → Config → Config

def table : List Entry := [
  ⟨_, "ARCHIVE_DIRS", "archive", "dirs", locationList,
    (·.archive.locations), fun x c => { c with archive.locations := x }⟩,
  ⟨_, "REFRESH_CRON", "archive", "refreshCron", withDefault initialSchedule filled,
    (·.archive.schedule), fun x c => { c with archive.schedule := x }⟩,
  ⟨_, "RETAINED_JOBS", "archive", "retainedJobs", withDefault .unbounded retention,
    (·.archive.retained), fun x c => { c with archive.retained := x }⟩,
  ⟨_, "CLEANUP_EXPIRED_JOBS", "archive", "cleanupExpiredJobs", withDefault true switch,
    (·.archive.evictExpired), fun x c => { c with archive.evictExpired := x }⟩,
  ⟨_, "CLEANUP_BEYOND_LIMIT", "archive", "cleanupBeyondLimit", withDefault true switch,
    (·.archive.evictBeyondLimit), fun x c => { c with archive.evictBeyondLimit := x }⟩,
  ⟨_, "STORAGE_BACKEND", "storage", "backend", withDefault Storage.initial.backend (oneOf backends),
    (·.storage.backend), fun x c => { c with storage.backend := x }⟩,
  ⟨_, "STORAGE_DIR", "storage", "dir", withDefault Storage.initial.directory filled,
    (·.storage.directory), fun x c => { c with storage.directory := x }⟩,
  ⟨_, "STORAGE_KV_PATH", "storage", "kvPath", withDefault Storage.initial.database filled,
    (·.storage.database), fun x c => { c with storage.database := x }⟩,
  ⟨_, "AWS_REGION", "s3", "region", withDefault ObjectAccess.initial.region filled,
    (·.objects.region), fun x c => { c with objects.region := x }⟩,
  ⟨_, "S3_ENDPOINT", "s3", "endpoint", optional (insist string Url.isUrl .url),
    (·.objects.endpoint), fun x c => { c with objects.endpoint := x }⟩,
  ⟨_, "S3_FORCE_PATH_STYLE", "s3", "forcePathStyle",
    withDefault ObjectAccess.initial.pathStyle switch,
    (·.objects.pathStyle), fun x c => { c with objects.pathStyle := x }⟩,
  ⟨_, "LOG_LEVEL", "logging", "level", withDefault Logging.initial.level (oneOf levels),
    (·.logging.level), fun x c => { c with logging.level := x }⟩,
  ⟨_, "LOG_PRETTY", "logging", "pretty", withDefault Logging.initial.pretty switch,
    (·.logging.pretty), fun x c => { c with logging.pretty := x }⟩]

theorem overrides_eq_map : overrides = table.map fun o => (o.source, o.group, o.name) := rfl

/-- A configuration is told by its settings: where all of them but one agree, the whole does up to
this one. -/
theorem Entry.eq_put {o : Entry} (ho : o ∈ table) {c c' : Config}
    (h : ∀ p ∈ table, p.source ≠ o.source → p.get c = p.get c') : c' = o.put (o.get c') c := by
  obtain ⟨⟨_, _, _, _, _⟩, ⟨_, _, _⟩, ⟨_, _, _⟩, ⟨_, _⟩⟩ := c
  obtain ⟨⟨_, _, _, _, _⟩, ⟨_, _, _⟩, ⟨_, _, _⟩, ⟨_, _⟩⟩ := c'
  simp only [table, List.forall_mem_cons] at h
  simp only [table, List.mem_cons, List.not_mem_nil, or_false] at ho
  rcases ho with rfl | rfl | rfl | rfl | rfl | rfl | rfl | rfl | rfl | rfl | rfl | rfl | rfl
  all_goals simp_all

section Places

variable {e e' : Environment} {members : List (Text × Setting)} {group name value : String}

def inGroup (members : List (Text × Setting)) (group : String) : List (Text × Setting) :=
  ((Value.find? (Text.ofString group) members).map own).getD []

/-- A setting of a section, unless the section only falls back on it. -/
def own? (members : List (Text × Setting)) (group name : String) : Option Setting :=
  Value.find? (Text.ofString name) (inGroup members group)

/-- The part of a setting with a name, if it has one. -/
def part? (s : Option Setting) (name : String) : Option Setting :=
  (finder? s).bind fun find => find name

def found? (members : List (Text × Setting)) (group name : String) : Option Setting :=
  part? (Value.find? (Text.ofString group) members) name

theorem find?_override (group name value group' : String) (members : List (Text × Setting)) :
    Value.find? (Text.ofString group') (Setting.override group name value members) =
      if group = group' then
        some (.mapping (Value.put (Text.ofString name) (Setting.str value)
          (inGroup members group)) [])
      else Value.find? (Text.ofString group') members := by
  have hgroup : Setting.override group name value members = Value.put (Text.ofString group)
      (.mapping (Value.put (Text.ofString name) (Setting.str value) (inGroup members group)) [])
      members := by
    unfold Setting.override inGroup
    dsimp only
    cases Value.find? (Text.ofString group) members <;> rfl
  have hname : Text.ofString group = Text.ofString group' ↔ group = group' :=
    ⟨fun h => Text.ofString_injective h, fun h => h ▸ rfl⟩
  rw [hgroup, Value.find?_put]
  exact if_congr hname rfl rfl

theorem own?_override (group name value group' name' : String) (members : List (Text × Setting)) :
    own? (Setting.override group name value members) group' name' =
      if (group, name) = (group', name') then some (Setting.str value)
      else own? members group' name' := by
  unfold own?
  conv_lhs => rw [inGroup, find?_override]
  by_cases hgroup : group = group'
  · subst hgroup
    rw [if_pos rfl, Option.map_some, Option.getD_some, own, Value.find?_put]
    by_cases hname : name = name'
    · rw [if_pos (by rw [hname]), if_pos (by rw [hname])]
    · have htext : Text.ofString name ≠ Text.ofString name' := fun h =>
        hname (Text.ofString_injective h)
      rw [if_neg htext, if_neg (by simpa using hname)]
  · rw [if_neg hgroup, if_neg (by simp [hgroup]), inGroup]

theorem found?_eq_own? (h : ∀ s ∈ Value.find? (Text.ofString group) members, s.Unbacked) :
    found? members group name = own? members group name := by
  unfold found? part? own? inGroup
  cases hs : Value.find? (Text.ofString group) members with
  | none => rfl
  | some s =>
    have hs := h s hs
    cases s with
    | mapping ms fallback =>
      change Value.find? _ (ms ++ fallback) = Value.find? _ ms
      rw [show fallback = [] from hs, List.append_nil]
    | _ => rfl

theorem found?_of_own? {s : Setting} (h : own? members group name = some s) :
    found? members group name = some s := by
  unfold own? inGroup at h
  unfold found? part?
  cases hg : Value.find? (Text.ofString group) members with
  | none =>
    rw [hg] at h
    cases h
  | some g =>
    rw [hg] at h
    cases g with
    | mapping ms fallback =>
      change Value.find? (Text.ofString name) ms = some s at h
      change Value.find? (Text.ofString name) (ms ++ fallback) = some s
      unfold Value.find? at h ⊢
      obtain ⟨m, hm, rfl⟩ := Option.map_eq_some_iff.mp h
      rw [List.find?_append, hm]
      rfl
    | _ => cases h

end Places

section Fold

variable {e e' : Environment} {members : List (Text × Setting)} {group name : String}

def overriddenBy (e : Environment) (members : List (Text × Setting)) (o : String × String × String) :
    List (Text × Setting) :=
  match e.filled? o.1 with
  | some value => Setting.override o.2.1 o.2.2 value members
  | none => members

theorem withOverrides_eq_foldl (e : Environment) (members : List (Text × Setting)) :
    withOverrides e members = overrides.foldl (overriddenBy e) members := rfl

theorem own?_overriddenBy (o : String × String × String) : own? (overriddenBy e members o) group name =
    if o.2 = (group, name) then ((e.filled? o.1).map Setting.str).or (own? members group name)
    else own? members group name := by
  unfold overriddenBy
  cases e.filled? o.1 with
  | none => simp
  | some value =>
    dsimp only
    rw [own?_override]
    rfl

theorem own?_foldl_of_not_mem {os : List (String × String × String)}
    (h : (group, name) ∉ os.map Prod.snd) :
    own? (os.foldl (overriddenBy e) members) group name = own? members group name := by
  induction os generalizing members with
  | nil => rfl
  | cons o os ih =>
    rw [List.map_cons, List.mem_cons, not_or] at h
    rw [List.foldl_cons, ih h.2, own?_overriddenBy, if_neg (Ne.symm h.1)]

theorem own?_foldl_of_mem {os : List (String × String × String)} {o : String × String × String}
    (hd : (os.map Prod.snd).Nodup) (h : o ∈ os) :
    own? (os.foldl (overriddenBy e) members) o.2.1 o.2.2 =
      ((e.filled? o.1).map Setting.str).or (own? members o.2.1 o.2.2) := by
  induction os generalizing members with
  | nil => cases h
  | cons p os ih =>
    obtain ⟨hp, hd⟩ := List.nodup_cons.mp hd
    rw [List.foldl_cons]
    rcases List.mem_cons.mp h with rfl | h
    · rw [own?_foldl_of_not_mem hp, own?_overriddenBy, if_pos rfl]
    · have hne : p.2 ≠ o.2 := fun he => hp (he ▸ List.mem_map_of_mem h)
      rw [ih hd h, own?_overriddenBy, if_neg hne]

theorem unbacked_foldl {os : List (String × String × String)}
    (h : ∀ s ∈ Value.find? (Text.ofString group) members, s.Unbacked) :
    ∀ s ∈ Value.find? (Text.ofString group) (os.foldl (overriddenBy e) members), s.Unbacked := by
  induction os generalizing members with
  | nil => exact h
  | cons o os ih =>
    rw [List.foldl_cons]
    refine ih fun s hs => ?_
    unfold overriddenBy at hs
    split at hs
    · rw [find?_override] at hs
      split at hs
      · cases hs
        rfl
      · exact h s hs
    · exact h s hs

theorem find?_foldl_congr {os : List (String × String × String)}
    (h : ∀ o ∈ os, o.2.1 = group → e.filled? o.1 = e'.filled? o.1)
    {members' : List (Text × Setting)}
    (hm : Value.find? (Text.ofString group) members = Value.find? (Text.ofString group) members') :
    Value.find? (Text.ofString group) (os.foldl (overriddenBy e) members) =
      Value.find? (Text.ofString group) (os.foldl (overriddenBy e') members') := by
  induction os generalizing members members' with
  | nil => exact hm
  | cons o os ih =>
    obtain ⟨ho, hos⟩ := List.forall_mem_cons.mp h
    rw [List.foldl_cons, List.foldl_cons]
    refine ih hos ?_
    -- what sets another section leaves this one alone, whatever the environment
    by_cases hgroup : o.2.1 = group
    · unfold overriddenBy
      rw [← ho hgroup]
      cases e.filled? o.1 with
      | none => exact hm
      | some value =>
        dsimp only
        rw [find?_override, find?_override, if_pos hgroup, if_pos hgroup, inGroup, inGroup, hgroup,
          hm]
    · have hskip (e : Environment) (ms : List (Text × Setting)) :
          Value.find? (Text.ofString group) (overriddenBy e ms o) =
            Value.find? (Text.ofString group) ms := by
        unfold overriddenBy
        cases e.filled? o.1 with
        | none => rfl
        | some value => exact (find?_override ..).trans (if_neg hgroup)
      rw [hskip, hskip, hm]

end Fold

section Reading

variable {members : List (Text × Setting)} {c : Config}

theorem finder?_mapping (members : List (Text × Setting)) :
    finder? (some (Setting.mapping members [])) =
      some fun name => Value.find? (Text.ofString name) members := by
  change (some fun name => Value.find? (Text.ofString name) (members ++ [])) = _
  rw [List.append_nil]

theorem part?_of_finder? {s : Option Setting} {find : String → Option Setting}
    (h : finder? s = some find) (name : String) : part? s name = find name := by
  rw [part?, h, Option.bind_some]

section Sections

variable {v : Option Setting}

theorem told_archive {a : Archive} (h : (Archive.form v).passed? = some a) :
    (locationList (part? v "dirs")).passed? = some a.locations ∧
      (withDefault initialSchedule filled (part? v "refreshCron")).passed? = some a.schedule ∧
      (withDefault .unbounded retention (part? v "retainedJobs")).passed? = some a.retained ∧
      (withDefault true switch (part? v "cleanupExpiredJobs")).passed? = some a.evictExpired ∧
      (withDefault true switch (part? v "cleanupBeyondLimit")).passed? =
        some a.evictBeyondLimit := by
  obtain ⟨find, hfind, hparts⟩ := passed?_archive_iff.mp h
  simpa only [part?_of_finder? hfind] using hparts

theorem told_storage {s : Storage}
    (h : (withDefault Storage.initial Storage.form v).passed? = some s) :
    (withDefault Storage.initial.backend (oneOf backends) (part? v "backend")).passed? =
        some s.backend ∧
      (withDefault Storage.initial.directory filled (part? v "dir")).passed? = some s.directory ∧
      (withDefault Storage.initial.database filled (part? v "kvPath")).passed? =
        some s.database := by
  cases v with
  | none =>
    cases h
    exact ⟨rfl, rfl, rfl⟩
  | some v =>
    obtain ⟨find, hfind, hparts⟩ := passed?_storage_iff.mp h
    simpa only [part?_of_finder? hfind] using hparts

theorem told_objects {o : ObjectAccess}
    (h : (withDefault ObjectAccess.initial ObjectAccess.form v).passed? = some o) :
    (withDefault ObjectAccess.initial.region filled (part? v "region")).passed? = some o.region ∧
      (optional (insist string Url.isUrl .url) (part? v "endpoint")).passed? = some o.endpoint ∧
      (withDefault ObjectAccess.initial.pathStyle switch (part? v "forcePathStyle")).passed? =
        some o.pathStyle := by
  cases v with
  | none =>
    cases h
    exact ⟨rfl, rfl, rfl⟩
  | some v =>
    obtain ⟨find, hfind, hparts⟩ := passed?_objects_iff.mp h
    simpa only [part?_of_finder? hfind] using hparts

theorem told_logging {l : Logging}
    (h : (withDefault Logging.initial Logging.form v).passed? = some l) :
    (withDefault Logging.initial.level (oneOf levels) (part? v "level")).passed? = some l.level ∧
      (withDefault Logging.initial.pretty switch (part? v "pretty")).passed? = some l.pretty := by
  cases v with
  | none =>
    cases h
    exact ⟨rfl, rfl⟩
  | some v =>
    obtain ⟨find, hfind, hparts⟩ := passed?_logging_iff.mp h
    simpa only [part?_of_finder? hfind] using hparts

end Sections

/-- Each setting of a configuration is what its form makes of the setting as it is found. -/
theorem told (h : (form (some (Setting.mapping members []))).passed? = some c) :
    ∀ o ∈ table, (o.form (found? members o.group o.name)).passed? = some (o.get c) := by
  obtain ⟨find, hfind, harchive, hstorage, hobjects, hlogging⟩ := passed?_form_iff.mp h
  rw [finder?_mapping] at hfind
  cases hfind
  obtain ⟨ha₁, ha₂, ha₃, ha₄, ha₅⟩ := told_archive harchive
  obtain ⟨hs₁, hs₂, hs₃⟩ := told_storage hstorage
  obtain ⟨ho₁, ho₂, ho₃⟩ := told_objects hobjects
  obtain ⟨hl₁, hl₂⟩ := told_logging hlogging
  simp only [table, List.forall_mem_cons]
  exact ⟨ha₁, ha₂, ha₃, ha₄, ha₅, hs₁, hs₂, hs₃, ho₁, ho₂, ho₃, hl₁, hl₂, List.forall_mem_nil _⟩

end Reading

section Frame

variable {e e' : Environment} {members : List (Text × Value)} {settings : List (Text × Setting)}
  {o p : Entry} {path text : String} {c c' : Config}

/-- Two environments that differ in one variable at most. -/
def DifferAt (name : String) (e e' : Environment) : Prop :=
  ∀ other, other ≠ name → e.get? other = e'.get? other

/-- No text of a document refers to a variable. -/
def Unreferred (name : String) (members : List (Text × Value)) : Prop :=
  ∀ s, (Value.object members).Contains s → referred? s ≠ some name

/-- A section of a document that falls back on nothing. -/
def Plain (group : String) (members : List (Text × Value)) : Prop :=
  ∀ v ∈ Value.find? (Text.ofString group) members, LendsNothing v

theorem filled?_congr {name : String} (h : e.get? name = e'.get? name) :
    e.filled? name = e'.filled? name := by
  rw [Environment.filled?, Environment.filled?, h]

theorem ofValue_object_congr {name : String} (he : DifferAt name e e')
    (hm : Unreferred name members) : ofValue e (.object members) = ofValue e' (.object members) := by
  refine ofValue_congr _ fun s hs other hother => ?_
  have hne : other ≠ name := fun h => hm s hs (h ▸ hother)
  rw [ofVariable?, ofVariable?, he other hne]

theorem ofDocument_eq_ok_iff : ofDocument path e members = .ok c ↔
    (form (some (Setting.mapping
      (withOverrides e (ofValue e (.object members)).own) []))).passed? = some c := by
  rw [← toExcept_eq_ok_iff]
  unfold ofDocument
  dsimp only
  split
  · rename_i h
    rw [h]
    simp
  · rename_i h
    rw [h]
    simp

theorem mem_overrides (ho : o ∈ table) : (o.source, o.group, o.name) ∈ overrides := by
  rw [overrides_eq_map]
  exact List.mem_map_of_mem ho

theorem places_nodup : (overrides.map Prod.snd).Nodup := by decide

theorem sources_nodup : (overrides.map Prod.fst).Nodup := by decide

theorem own?_withOverrides (ho : o ∈ table) : own? (withOverrides e settings) o.group o.name =
    ((e.filled? o.source).map Setting.str).or (own? settings o.group o.name) := by
  rw [withOverrides_eq_foldl]
  exact own?_foldl_of_mem (o := (o.source, o.group, o.name)) places_nodup (mem_overrides ho)

/-- A setting is found in a variable that is set, whatever the document says. -/
theorem found?_of_filled (ho : o ∈ table) (h : e.filled? o.source = some text) :
    found? (withOverrides e settings) o.group o.name = some (Setting.str text) := by
  apply found?_of_own?
  rw [own?_withOverrides ho, h]
  rfl

/-- In the section of a variable the other settings are found as they are without it. -/
theorem found?_beside (hp : p ∈ table) (h : e.filled? p.source = e'.filled? p.source)
    (hs : ∀ s ∈ Value.find? (Text.ofString p.group) settings, s.Unbacked) :
    found? (withOverrides e settings) p.group p.name =
      found? (withOverrides e' settings) p.group p.name := by
  have hfound (e : Environment) : found? (withOverrides e settings) p.group p.name =
      own? (withOverrides e settings) p.group p.name := found?_eq_own? (unbacked_foldl hs)
  rw [hfound, hfound, own?_withOverrides hp, own?_withOverrides hp, h]

theorem found?_elsewhere (ho : o ∈ table) (he : DifferAt o.source e e')
    (hgroup : p.group ≠ o.group) : found? (withOverrides e settings) p.group p.name =
      found? (withOverrides e' settings) p.group p.name := by
  have hfilled : ∀ q ∈ overrides, q.2.1 = p.group → e.filled? q.1 = e'.filled? q.1 := by
    intro q hq hgroup'
    apply filled?_congr
    apply he
    intro hsource
    have heq := List.inj_on_of_nodup_map sources_nodup hq (mem_overrides ho) hsource
    rw [heq] at hgroup'
    exact hgroup hgroup'.symm
  have hsection : Value.find? (Text.ofString p.group) (withOverrides e settings) =
      Value.find? (Text.ofString p.group) (withOverrides e' settings) :=
    find?_foldl_congr hfilled rfl
  rw [found?, found?, hsection]

theorem unbacked_section (ho : o ∈ table) (h : Plain o.group members) :
    ∀ s ∈ Value.find? (Text.ofString o.group) (ofValue e (.object members)).own, s.Unbacked := by
  have hgroups : ∀ o ∈ table, Text.ofString o.group ≠ Text.ofString fallbackName := by
    simp only [table, List.forall_mem_cons]
    decide
  intro s hs
  rw [find?_own_ofValue (hgroups o ho)] at hs
  obtain ⟨v, hv, rfl⟩ := Option.map_eq_some_iff.mp hs
  exact unbacked_ofValue (h v hv)

theorem eq_put_of_ok (ho : o ∈ table) (he : DifferAt o.source e e')
    (hm : Unreferred o.source members) (hplain : Plain o.group members)
    (hc : ofDocument path e members = .ok c) (hc' : ofDocument path e' members = .ok c') :
    c' = o.put (o.get c') c := by
  have htold := told (ofDocument_eq_ok_iff.mp hc)
  have htold' := told (ofDocument_eq_ok_iff.mp hc')
  rw [← ofValue_object_congr he hm] at htold'
  refine o.eq_put ho fun p hp hne => ?_
  have hfound : found? (withOverrides e (ofValue e (.object members)).own) p.group p.name =
      found? (withOverrides e' (ofValue e (.object members)).own) p.group p.name := by
    by_cases hgroup : p.group = o.group
    · have hunbacked := unbacked_section (e := e) ho hplain
      rw [← hgroup] at hunbacked
      exact found?_beside hp (filled?_congr (he p.source hne)) hunbacked
    · exact found?_elsewhere ho he hgroup
  have hboth := htold p hp
  rw [hfound, htold' p hp] at hboth
  exact (Option.some.inj hboth).symm

theorem ofDocument_of_empty (he : DifferAt o.source e e') (hm : Unreferred o.source members)
    (hempty : e.get? o.source = some "") (hnone : e'.get? o.source = none) :
    ofDocument path e members = ofDocument path e' members := by
  have hfilled : ∀ name, e.filled? name = e'.filled? name := by
    intro name
    by_cases h : name = o.source
    · rw [h, Environment.filled?, Environment.filled?, hempty, hnone]
      rfl
    · exact filled?_congr (he name h)
  have hover (settings : List (Text × Setting)) :
      withOverrides e settings = withOverrides e' settings := by
    have hstep : overriddenBy e = overriddenBy e' := by
      funext ms q
      rw [overriddenBy, overriddenBy, hfilled]
    rw [withOverrides_eq_foldl, withOverrides_eq_foldl, hstep]
  rw [ofDocument, ofDocument, hover, ofValue_object_congr he hm]

/-- Two environments that differ in the variable of one setting, to which the document does not
refer, lead to configurations that differ in this setting at most, if both lead to one and the
section of the setting falls back on nothing. Where the variable is set, the setting is what its
form makes of the text of the variable, and a variable that is empty is as good as not set. -/
theorem override_framed (ho : o ∈ table) (he : DifferAt o.source e e')
    (hm : Unreferred o.source members) (path : String) :
    (∀ c c', ofDocument path e members = .ok c → ofDocument path e' members = .ok c' →
      Plain o.group members → c' = o.put (o.get c') c) ∧
    (∀ c text, ofDocument path e members = .ok c → e.filled? o.source = some text →
      (o.form (some (Setting.str text))).passed? = some (o.get c)) ∧
    (e.get? o.source = some "" → e'.get? o.source = none →
      ofDocument path e members = ofDocument path e' members) := by
  refine ⟨fun c c' hc hc' hplain => eq_put_of_ok ho he hm hplain hc hc', fun c text hc htext => ?_,
    ofDocument_of_empty he hm⟩
  have htold := told (ofDocument_eq_ok_iff.mp hc) o ho
  rwa [found?_of_filled ho htext] at htold

def directoryEntry : Entry :=
  ⟨_, "STORAGE_DIR", "storage", "dir", withDefault Storage.initial.directory filled,
    (·.storage.directory), fun x c => { c with storage.directory := x }⟩

def listedArchive : Value := .record [("dirs", .str "a")]

def besideDirectory : List (Text × Value) := [
  (Text.ofString "archive", listedArchive),
  (Text.ofString "storage", .record [("backend", .str "${BACKEND}"), ("dir", .str "old")])]

def tableConfig (directory : String) : Config where
  archive := ⟨["a"], initialSchedule, .unbounded, true, true⟩
  storage := { Storage.initial with backend := .table, directory := directory }
  objects := ObjectAccess.initial
  logging := Logging.initial

theorem override_framed_directory :
    directoryEntry ∈ table ∧
      DifferAt "STORAGE_DIR" [("BACKEND", "kvstore")]
        [("STORAGE_DIR", "new"), ("BACKEND", "kvstore")] ∧
      Unreferred "STORAGE_DIR" besideDirectory ∧ Plain "storage" besideDirectory ∧
      ofDocument "c.yaml" [("BACKEND", "kvstore")] besideDirectory = .ok (tableConfig "old") ∧
      ofDocument "c.yaml" [("STORAGE_DIR", "new"), ("BACKEND", "kvstore")] besideDirectory =
        .ok (tableConfig "new") ∧
      tableConfig "new" = directoryEntry.put "new" (tableConfig "old") := by
  have ho : directoryEntry ∈ table := by
    unfold table
    iterate 6 apply List.mem_cons_of_mem
    exact List.mem_cons_self
  have he : DifferAt "STORAGE_DIR" [("BACKEND", "kvstore")]
      [("STORAGE_DIR", "new"), ("BACKEND", "kvstore")] := by
    intro other hother
    simp [Environment.get?, Ne.symm hother]
  have hm : Unreferred "STORAGE_DIR" besideDirectory := by
    intro s hs
    have hs : s ∈ ["a", "${BACKEND}", "old"].map Text.ofString := by
      simpa [besideDirectory, listedArchive, Value.record, Value.str, Value.contains_object,
        Value.contains_string, eq_comm] using hs
    have hnone : ∀ t ∈ ["a", "${BACKEND}", "old"].map Text.ofString,
        referred? t ≠ some "STORAGE_DIR" := by decide
    exact hnone s hs
  have hplain : Plain "storage" besideDirectory := by
    intro v hv members hmembers
    cases hv
    cases hmembers
    simp only [List.map_cons, List.map_nil, List.forall_mem_cons]
    exact ⟨fun h => absurd h (by decide), fun h => absurd h (by decide), List.forall_mem_nil _⟩
  have hc : ofDocument "c.yaml" [("BACKEND", "kvstore")] besideDirectory =
      .ok (tableConfig "old") := ofDocument_eq_ok_iff.mpr (by decide +kernel)
  have hc' : ofDocument "c.yaml" [("STORAGE_DIR", "new"), ("BACKEND", "kvstore")] besideDirectory =
      .ok (tableConfig "new") := ofDocument_eq_ok_iff.mpr (by decide +kernel)
  exact ⟨ho, he, hm, hplain, hc, hc',
    (override_framed (o := directoryEntry) ho he hm "c.yaml").1 _ _ hc hc' hplain⟩

/-- A section that falls back on a mapping for what it does not have itself. -/
def fallingBack : List (Text × Value) := [
  (Text.ofString "archive", listedArchive),
  (Text.ofString "storage", .record [(fallbackName, .record [("backend", .str "kvstore")])])]

/-- A variable that sets a single setting of a section takes away what the section falls back on,
and with it another setting. -/
theorem override_unframed_fallingBack :
    DifferAt "STORAGE_DIR" [] [("STORAGE_DIR", "new")] ∧ Unreferred "STORAGE_DIR" fallingBack ∧
      ofDocument "c.yaml" [] fallingBack = .ok (tableConfig Storage.initial.directory) ∧
      ofDocument "c.yaml" [("STORAGE_DIR", "new")] fallingBack =
        .ok { tableConfig "new" with storage.backend := .files } ∧
      Backend.files ≠ (tableConfig Storage.initial.directory).storage.backend := by
  have hm : Unreferred "STORAGE_DIR" fallingBack := by
    intro s hs
    have hs : s ∈ ["a", "kvstore"].map Text.ofString := by
      simpa [fallingBack, listedArchive, Value.record, Value.str, Value.contains_object,
        Value.contains_string, eq_comm] using hs
    have hnone : ∀ t ∈ ["a", "kvstore"].map Text.ofString,
        referred? t ≠ some "STORAGE_DIR" := by decide
    exact hnone s hs
  refine ⟨fun other hother => by simp [Environment.get?, Ne.symm hother], hm,
    ofDocument_eq_ok_iff.mpr (by decide +kernel), ofDocument_eq_ok_iff.mpr (by decide +kernel),
    by decide⟩

end Frame

end ArchiveKeeper.Config
