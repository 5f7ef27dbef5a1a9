import ArchiveKeeper.Proofs.Fetch.Publication

namespace ArchiveKeeper.Fetch

open Act Progress Store

namespace Fetcher

variable {σ τ : Type} {f : Fetcher σ} {base : Files.Path} {config : Config.Storage}
  {site : σ → Site τ} {drift : σ → σ → Prop} {w₀ w : σ} {c : Cache}
  {history : List (Result × Progress σ)}

/-- A fetcher that uses the store of a configuration, as in `Sited`, but may fail in all that it
asks of it. -/
structure Rooted (f : Fetcher σ) (base : Files.Path) (config : Config.Storage) (site : σ → Site τ)
    (drift : σ → σ → Prop) (w₀ : σ) : Prop where
  plain : ∀ s ∈ base, Files.Path.IsPlain s
  leans : f.LeansOn site (Site.store base config) (Site.view base config) (Site.remains base config)
  sound : (Site.view base config).sound (site w₀)
  drift : ∀ w w', drift w w' → (Site.view base config).untouched (site w) (site w')

/-- Whatever has failed before, a cycle that comes to its end, creates or deletes a job, and can
publish the combined overview leaves it current. If it neither creates nor deletes a job, then it
publishes nothing, and leaves the combined overview as it is. -/
theorem publication_recovers (rooted : f.Rooted base config site drift w₀)
    (run : f.Run drift w₀ history c w)
    (valid : ∀ x ∈ history ++ [f.cycle c w], x.2.ValidListings)
    (completed : (f.cycle c w).1.completed) :
    ((f.cycle c w).1.created ≠ [] ∨ (f.cycle c w).1.deleted ≠ [] →
        (f.cycle c w).2.PublishesAll →
        (Site.store base config).Current (site (f.cycle c w).2.world)) ∧
      ((f.cycle c w).1.created = [] → (f.cycle c w).1.deleted = [] →
        (∀ m ∈ (f.cycle c w).2.trace, ∀ answer, m.deed ≠ .republish answer) ∧
          ∀ text, (Site.store base config).Shows (site (f.cycle c w).2.world) text ↔
            (Site.store base config).Shows (site w) text) := by
  have keeps : Keeps (Site.store base config : Store (Site τ)) (Site.view base config) :=
    Site.store_keeps rooted.plain config
  have publishes : Publishes (Site.store base config : Store (Site τ)) (Site.view base config)
      (Site.neat base config) (Site.remains base config) := Site.store_publishes rooted.plain config
  have hn := run.accepted.nodup
  have hv x (hx : x ∈ history) := valid x (List.mem_append_left _ hx)
  have hids := run.known (K := fun id => Job.isId id) fun x hx => ⟨False.elim, hv x hx⟩
  have hneat := run.stays_neat publishes rooted.leans keeps rooted.sound rooted.drift hv
  have hlast := valid _ (List.mem_append_right _ (List.mem_singleton.mpr rfl))
  obtain ⟨p₀, p₁, p₂, p₃, left, beyond, gone, through⟩ := cycle_through completed
  have hnil := through.events_eq_nil_iff hn run.locations
  constructor
  · intro hnew hpub
    have hne : eventsOf p₁.created beyond gone ≠ [] := by
      rw [ne_eq, hnil, not_and_or]
      exact hnew
    obtain ⟨hcurrent, -⟩ := through.current hn run.locations publishes rooted.leans keeps hids hlast
      hneat hpub hne
    exact hcurrent
  · intro hcreated hdeleted
    have hquiet := hnil.mpr ⟨hcreated, hdeleted⟩
    refine ⟨fun m hm answer hd => ?_, ?_⟩
    · rcases through.closing hn run.locations hm (by rw [hd]; rfl) with ⟨-, hne⟩ | ⟨hd', -⟩
      · exact hne hquiet
      · rw [hd] at hd'
        cases hd'
    · exact (through.leaves_of_quiet hn run.locations publishes rooted.leans hids hlast hquiet
        hneat).2

end Fetcher

section Flaky

def listedBundle (job : String) : List Document :=
  [⟨Job.overviewPath, "\x7b\"jobs\":[\x7b\"jid\":\"" ++ job ++ "\"\x7d]\x7d"⟩]

/-- A store in a table that cannot publish anything while it is locked. -/
def lockable : Store (Site Bool) :=
  { (Site.store [] sampleConfig : Store (Site Bool)) with
    publish := fun json w =>
      if w.objects then Operation.fail (.plain "database is locked") w
      else (Site.store [] sampleConfig).publish json w }

/-- One location that offers a job, and another one that is down while the store is locked. -/
def flaky (others : List String) : Fetcher (Site Bool) where
  sources := [offering "first" (fun _ => false)
      [("00000000000000000000000000000001", listedBundle "00000000000000000000000000000001")],
    offering "second" (·.objects) (others.map fun job => (job, listedBundle job))]
  store := lockable
  listener := some fun _ => Operation.answer ()
  policy := ⟨.unbounded, true, true⟩
  cycleBindings := []
  overviewBindings := []

def switched (w w' : Site Bool) : Prop := ∃ b, w' = { w with objects := b }

variable {others : List String}

def lockedSite (others : List String) : Site Bool :=
  { ((flaky others).prepare blankSite).2 with objects := true }

def lockedCycle (others : List String) : Result × Progress (Site Bool) :=
  (flaky others).cycle (flaky others).emptyCache (lockedSite others)

def unlockedSite (others : List String) : Site Bool :=
  { (lockedCycle others).2.world with objects := false }

def unlockedCycle (others : List String) : Result × Progress (Site Bool) :=
  (flaky others).cycle (lockedCycle others).2.cache (unlockedSite others)

theorem wavers_lockable :
    Wavers id (Site.store [] sampleConfig) (Site.remains [] sampleConfig) lockable where
  reset _ _ := ⟨rfl, rfl⟩
  put _ _ _ _ := .inl ⟨rfl, rfl⟩
  delete _ _ := .inl rfl
  listing _ := .inl ⟨rfl, rfl⟩
  publish json w := by
    by_cases h : w.objects
    · right
      simp only [lockable, h, if_true]
      exact ⟨⟨_, rfl⟩, [], rfl⟩
    · left
      simp only [lockable, Answers, h]
      exact ⟨rfl, rfl⟩

theorem rooted_flaky : (flaky others).Rooted [] sampleConfig id switched blankSite where
  plain := by simp
  leans := by
    have hsame (s : Source (Site Bool)) (hs : s ∈ (flaky others).sources) (a : Archive)
        (w : Site Bool) : (s.list w).2 = w ∧ (s.read a w).2 = w ∧ (s.remove a w).2 = w := by
      simp only [flaky, List.mem_cons, List.not_mem_nil, or_false] at hs
      rcases hs with rfl | rfl
      · exact offering_unchanged ..
      · exact offering_unchanged ..
    have htouch {w w' : Site Bool} (h : w' = w) :
        (Site.view [] sampleConfig).untouched (id w) (id w') :=
      h ▸ Site.untouched_refl [] sampleConfig w
    exact ⟨wavers_lockable, fun s hs w => htouch (hsame s hs default w).1,
      fun s hs a w => htouch (hsame s hs a w).2.1, fun s hs a w => htouch (hsame s hs a w).2.2,
      fun l hl e w => by obtain rfl := Option.some.inj hl; exact htouch rfl⟩
  sound := trivial
  drift := by
    rintro w _ ⟨b, rfl⟩
    rfl

theorem run_flaky : (flaky others).Run switched blankSite [lockedCycle others]
    (lockedCycle others).2.cache (unlockedSite others) := by
  have accepted : Fetcher.accept (.ofInt (-1)) ["first", "second"] = .ok .unbounded := by decide
  have start : (flaky others).Run switched blankSite [] (flaky others).emptyCache
      (lockedSite others) := .drifted (.prepared ⟨.ofInt (-1), accepted⟩ rfl) ⟨true, rfl⟩
  have locked := start.cycled
  rw [List.nil_append] at locked
  unfold unlockedSite lockedCycle
  exact locked.drifted ⟨false, rfl⟩

/-- A job that was created while the store was locked is not in the combined overview after a cycle
in which nothing fails, but nothing else happens, either. -/
theorem flaky_stays_behind :
    (flaky []).Rooted [] sampleConfig id switched blankSite ∧
      (flaky []).Run switched blankSite [lockedCycle []] (lockedCycle []).2.cache (unlockedSite []) ∧
      ¬ (lockedCycle []).2.PublishesAll ∧
      (unlockedCycle []).1.completed ∧
      (∀ m ∈ (unlockedCycle []).2.trace, ¬ m.deed.isTransfer ∧ ¬ m.deed.isFailedPublication) ∧
      ¬ (Site.store [] sampleConfig).Current (unlockedCycle []).2.world := by
  refine ⟨rooted_flaky, run_flaky, ?_, by decide +kernel, by decide +kernel, ?_⟩
  · unfold PublishesAll
    decide +kernel
  · rintro ⟨text, hdue, hshows⟩
    have hdue' : (Site.store [] sampleConfig).due (unlockedCycle []).2.world =
        .ok "\x7b\"jobs\":[\x7b\"jid\":\"00000000000000000000000000000001\"\x7d]\x7d" := by
      decide +kernel
    have hshows' : ((Site.store [] sampleConfig).get Job.overviewPath
        (unlockedCycle []).2.world).1.outcome = .ok (some "\x7b\"jobs\":[]\x7d") := by
      decide +kernel
    obtain rfl := Except.ok.inj (hdue.symm.trans hdue')
    exact absurd (hshows.symm.trans hshows') (by decide)

def listedArchive (location job : String) : Archive :=
  ⟨job, location, location ++ "/" ++ job, .zero⟩

theorem listingsOf_flaky :
    listingsOf (lockedCycle ["00000000000000000000000000000002"]).2.trace =
        [("first", .ok [listedArchive "first" "00000000000000000000000000000001"]),
          ("second", .error (.listing "second"))] ∧
      listingsOf (unlockedCycle ["00000000000000000000000000000002"]).2.trace =
        [("first", .ok [listedArchive "first" "00000000000000000000000000000001"]),
          ("second", .ok [listedArchive "second" "00000000000000000000000000000002"])] := by
  constructor <;> decide +kernel

theorem valid_flaky : ∀ x ∈ [lockedCycle ["00000000000000000000000000000002"]] ++
    [unlockedCycle ["00000000000000000000000000000002"]], x.2.ValidListings := by
  refine List.forall_mem_cons.mpr ⟨?_, List.forall_mem_singleton.mpr ?_⟩
  · intro location as h
    rw [listingsOf_flaky.1] at h
    simp only [List.mem_cons, Prod.mk.injEq, Except.ok.injEq, reduceCtorEq, and_false,
      List.not_mem_nil, or_false] at h
    rw [h.2]
    decide
  · intro location as h
    rw [listingsOf_flaky.2] at h
    simp only [List.mem_cons, Prod.mk.injEq, Except.ok.injEq, List.not_mem_nil, or_false] at h
    rcases h with ⟨-, rfl⟩ | ⟨-, rfl⟩ <;> decide

theorem recovered_unlockedCycle :
    ¬ (lockedCycle ["00000000000000000000000000000002"]).2.PublishesAll ∧
      (Site.store [] sampleConfig).Current
        (unlockedCycle ["00000000000000000000000000000002"]).2.world := by
  have valid := valid_flaky
  have completed : (unlockedCycle ["00000000000000000000000000000002"]).1.completed := by
    decide +kernel
  have created : (unlockedCycle ["00000000000000000000000000000002"]).1.created ≠ [] := by
    decide +kernel
  have published : (unlockedCycle ["00000000000000000000000000000002"]).2.PublishesAll := by
    unfold PublishesAll
    decide +kernel
  unfold unlockedCycle at valid completed created published ⊢
  refine ⟨?_, ?_⟩
  · unfold PublishesAll
    decide +kernel
  · exact (Fetcher.publication_recovers rooted_flaky run_flaky valid completed).1 (.inl created)
      published

end Flaky

end ArchiveKeeper.Fetch
