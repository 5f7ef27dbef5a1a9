import ArchiveKeeper.Fetch.Site
import Mathlib.Tactic.Common

namespace ArchiveKeeper

variable {σ τ α : Type}

def Failure.Unblamed (r : Except Failure α) : Prop := ∀ reason, r ≠ .error (.configuration reason)

theorem Failure.unblamed_ok (a : α) : Failure.Unblamed (.ok a) := by simp [Failure.Unblamed]

namespace Operation

def Unblaming (o : Operation σ α) : Prop := ∀ s, Failure.Unblamed (o s).1.outcome

theorem Unblaming.zoom {o : Operation τ α} (h : o.Unblaming) (get : σ → τ) (set : τ → σ → σ) :
    (o.zoom get set).Unblaming := fun s => h (get s)

theorem Unblaming.bind {o : Operation σ α} (h : o.Unblaming)
    (bindings : List (String × Json.Value)) : (o.bind bindings).Unblaming := fun s => h s

end Operation

namespace Store

/-- A store that is reset, read and closed without any blame on the configuration. -/
structure Unblaming (S : Store σ) : Prop where
  reset : S.reset.Unblaming
  get : ∀ path, (S.get path).Unblaming
  close : S.close.Unblaming

theorem Unblaming.zoom {S : Store τ} (h : S.Unblaming) (get : σ → τ) (set : τ → σ → σ) :
    (S.zoom get set).Unblaming :=
  ⟨h.reset.zoom get set, fun path => (h.get path).zoom get set, h.close.zoom get set⟩

theorem Unblaming.bindBackend {S : Store σ} (h : S.Unblaming) : S.bindBackend.Unblaming :=
  ⟨h.reset.bind _, fun path => (h.get path).bind _, h.close.bind _⟩

namespace Directory

theorem unblamed_lift (r : Except SystemFault α) : Failure.Unblamed (lift r) := by
  intro reason
  cases r <;> simp [lift]

theorem unblamed_get (root : Files.Path) (path : String) (t : Files.Tree) :
    Failure.Unblamed (get root path t) := by
  intro reason
  unfold get
  split
  · simp
  · split <;> simp

end Directory

theorem directory_unblaming (root : Files.Path) : (directory root).Unblaming where
  reset _ := Directory.unblamed_lift _
  get path t := Directory.unblamed_get root path t
  close _ := Failure.unblamed_ok ()

namespace Database

variable {place : Place}

theorem unblamed_openFile (p : Files.Path) (t : Files.Tree) : Failure.Unblamed (openFile p t).1 := by
  intro reason
  unfold openFile
  split
  · simp
  · split <;> simp
  · simp
  · simp
  · simp

theorem unblamed_openAt (t : Files.Tree) : Failure.Unblamed (openAt place t).1 := by
  unfold openAt
  split
  · exact Failure.unblamed_ok _
  · split
    · exact unblamed_openFile _ t
    · simp [Failure.Unblamed]

theorem unblamed_table (w : World) : Failure.Unblamed (table place w).1 := by
  unfold table
  split
  · exact Failure.unblamed_ok _
  · simp [Failure.Unblamed]
  · split
    · exact unblamed_openAt _
    · split
      · simp [Failure.Unblamed]
      · exact unblamed_openAt _

theorem unblamed_withTable {act : Table → Except Failure α × Table}
    (h : ∀ t, Failure.Unblamed (act t).1) (w : World) :
    Failure.Unblamed (withTable place act w).1 := by
  have htable : Failure.Unblamed (table place w).1 := unblamed_table w
  unfold withTable
  split
  · rename_i e w' heq
    rw [heq] at htable
    intro reason he
    exact htable reason (by rw [Except.error.inj he])
  · exact h _

end Database

theorem database_unblaming (place : Database.Place) : (database place).Unblaming where
  reset w := by
    show Failure.Unblamed (Database.withTable place (fun _ => (.ok (), [])) w).1
    exact Database.unblamed_withTable (fun _ => Failure.unblamed_ok _) w
  get path w := by
    show Failure.Unblamed (Database.withTable place (fun t => (.ok (t.get? path), t)) w).1
    exact Database.unblamed_withTable (fun _ => Failure.unblamed_ok _) w
  close _ := Failure.unblamed_ok ()

end Store

theorem Site.store_unblaming (base : Files.Path) (c : Config.Storage) :
    (Site.store base c : Store (Site τ)).Unblaming := by
  unfold Site.store
  apply Store.Unblaming.bindBackend
  cases c.backend with
  | files => exact (Store.directory_unblaming _).zoom _ _
  | table => exact (Store.database_unblaming _).zoom _ _

end ArchiveKeeper
