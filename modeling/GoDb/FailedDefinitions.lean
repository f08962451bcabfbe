import GoDb.BatchUndo
import GoDb.CatalogAgreement

/-! CREATE TABLE and DROP TABLE with a disk that may fail. The catalog changes its map before it saves it, and nothing
takes a change back that was not saved. -/
namespace GoDb
open Foundation Outcome

namespace Catalog

variable (disk : Option Error)

/-- `save` on a disk that works, or that fails with an error. The file is replaced or it stays. -/
def trySave (c : Catalog) : Except Error Unit × Catalog :=
  match disk with
  | none => (.ok (),c.save)
  | some err => (.error err,c)

def trySet (entry : CatalogEntry) (c : Catalog) : Except Error Unit × Catalog :=
  if entry.name = [] ∨ entry.path = [] then (.error .catalogRequired,c)
  else
    match entry.schema.validate with
    | .error e => (.error e,c)
    | .ok () => trySave disk {c with
        entries := c.entries.insert entry.name entry
        named := named_insert c.named entry}

def tryDelete (name : Bytes) (c : Catalog) : Except Error Unit × Catalog :=
  trySave disk {c with
    entries := c.entries.erase name
    named := named_erase c.named name}

variable {c c' : Catalog} {entry : CatalogEntry}

theorem trySet_refused (disk : Option Error) {e : Error} (refused : c.set entry = .error e) :
    trySet disk entry c = (.error e,c) := by
  unfold set at refused
  unfold trySet
  split_ifs at refused ⊢ with missing
  · rw [Except.error.inj refused]
  · cases valid : entry.schema.validate with
    | error e' =>
      rw [valid] at refused
      rw [Except.error.inj refused]
    | ok =>
      rw [valid] at refused
      cases refused

theorem trySet_accepted (accepted : c.set entry = .ok c') :
    ∃ entered : Catalog, entered.entries = c.entries.insert entry.name entry ∧ c' = entered.save ∧
      ∀ disk, trySet disk entry c = trySave disk entered := by
  unfold set at accepted
  unfold trySet
  split_ifs at accepted ⊢ with missing
  cases valid : entry.schema.validate with
  | error e' =>
    rw [valid] at accepted
    cases accepted
  | ok =>
    rw [valid] at accepted
    exact ⟨_,rfl,(Except.ok.inj accepted).symm,fun _ => rfl⟩

end Catalog

namespace CatalogExecutor

variable (disk : Option Error)

/-- A call that changes the catalog whether it succeeds or fails. -/
def onDisk (f : Catalog → Except Error Unit × Catalog) : CatalogM Unit := do
  let e ← get
  match e.catalog with
  | none => pure ()
  | some c =>
    modify fun e => {e with catalog := some (f c).2}
    Proc.of (f c).1

def tryDrop (q : DropTable) : CatalogM Result := do
  let e ← get
  let t ← Proc.of (e.executor.table q.table)
  onExecutor (unregister (toLower q.table))
  onDisk (Catalog.tryDelete disk (toLower q.table))
  onExecutor (Executor.onTable t Table.close)
  pure {Result.empty with affected := 1}

def newEntry (path : Bytes) (q : CreateTable) : CatalogEntry :=
  ⟨toLower q.table,path,⟨Executor.createColumns q.columns,q.constraints⟩⟩

def tryCreate (path : Bytes) (q : CreateTable) : CatalogM Result := do
  let e ← get
  let result ← onExecutor (Executor.create q)
  tryCatch (onDisk (Catalog.trySet disk (newEntry path q))) fun err => do
    onExecutor (unregister (toLower q.table))
    onExecutor (Executor.attempt (Executor.onTable e.executor.db.tables.length Table.close))
    throw err
  pure result

variable {disk} {e e' : CatalogExecutor} {c : Catalog}

theorem onDisk_exec (f : Catalog → Except Error Unit × Catalog) (x : Executor) (c : Catalog) :
    (onDisk f).exec ⟨x,some c⟩ = ((f c).1,⟨x,some (f c).2⟩) := rfl

theorem onDisk_set (entry : CatalogEntry) (e : CatalogExecutor) :
    (onDisk (Catalog.trySet none entry)).exec e = (onCatalog fun c => c.set entry).exec e := by
  rcases e with ⟨x,_ | c⟩
  · rfl
  · rw [onDisk_exec,onCatalog,exec_bind_ok (exec_get _)]
    dsimp only
    rw [exec_bind,exec_of]
    cases made : c.set entry with
    | error err =>
      rw [Catalog.trySet_refused none made]
    | ok c' =>
      obtain ⟨entered,-,rfl,tried⟩ := Catalog.trySet_accepted made
      rw [tried]
      rfl

theorem tryCreate_none (path : Bytes) (q : CreateTable) (e : CatalogExecutor) :
    (tryCreate none path q).exec e = (create path q).exec e := by
  rw [tryCreate,create,exec_bind_ok (exec_get e),exec_bind_ok (exec_get e),exec_bind,exec_bind]
  rcases (onExecutor (Executor.create q)).exec e with ⟨err | r,e'⟩
  · rfl
  · dsimp only
    rw [exec_bind,exec_bind,exec_tryCatch,exec_tryCatch,onDisk_set]
    rfl

theorem tryDrop_none (q : DropTable) (e : CatalogExecutor) : (tryDrop none q).exec e = (drop q).exec e := by
  rcases e with ⟨x,_ | c⟩
  · rfl
  · rfl

structure Kept (e e' : CatalogExecutor) : Prop where
  registry : e'.executor.db.registry = e.executor.db.registry
  entries : e'.catalog.map Catalog.entries = e.catalog.map Catalog.entries

theorem Kept.saved (kept : e.Kept e') : e'.catalog.map (fun c => c.save.file) = e.catalog.map fun c => c.save.file := by
  have file (c : Catalog) : c.save.file = some (some (c.entries.entries.map Prod.snd)) := rfl
  have both (o : Option Catalog) : o.map (fun c => c.save.file) =
      (o.map Catalog.entries).map fun entries => some (some (entries.entries.map Prod.snd)) := by
    rw [Option.map_map]
    rfl
  rw [both,both,kept.entries]

end CatalogExecutor

namespace Executor

variable {e e' : Executor} {q : CreateTable}

theorem create_failed {err : Error} (failed : (create q).exec e = (.error err,e')) : e' = e := by
  unfold create at failed
  rw [exec_bind_ok (exec_get e),exec_bind,exec_refuse] at failed
  split_ifs at failed
  · exact (Prod.mk.inj failed).2.symm
  · dsimp only at failed
    rw [exec_bind,exec_of] at failed
    cases opened : (Store.open ⟨[],[],none⟩).1 with
    | error =>
      rw [opened] at failed
      exact (Prod.mk.inj failed).2.symm
    | ok store =>
      rw [opened] at failed
      dsimp only at failed
      rw [exec_bind,exec_of] at failed
      cases made : Table.new store ⟨createColumns q.columns,q.constraints⟩ with
      | error =>
        rw [made] at failed
        exact (Prod.mk.inj failed).2.symm
      | ok table =>
        rw [made] at failed
        cases failed

theorem create_fresh {r : Result} (done : (create q).exec e = (.ok r,e')) :
    e.db.registry.lookup (toLower q.table) = none := by
  unfold create at done
  rw [exec_bind_ok (exec_get e),exec_bind,exec_refuse] at done
  by_cases there : (e.db.registry.lookup (toLower q.table)).isSome = true
  · rw [if_pos there] at done
    cases done
  · exact Option.not_isSome_iff_eq_none.mp there

end Executor

namespace CatalogExecutor

variable {disk : Option Error} {x : Executor} {c : Catalog} {e' : CatalogExecutor} {err : Error}

theorem undo_exec (x : Executor) (catalog : Option Catalog) (name : Bytes) (t : Nat) (err : Error) :
    ∃ y : Executor, (do
        onExecutor (unregister name)
        onExecutor (Executor.attempt (Executor.onTable t Table.close))
        throw err : CatalogM Unit).exec ⟨x,catalog⟩ = (.error err,⟨y,catalog⟩) ∧
          y.db.registry = x.db.registry.erase name := by
  have gone : (onExecutor (unregister name)).exec ⟨x,catalog⟩ = (.ok (),⟨{x with db := x.db.unregister name},catalog⟩) := rfl
  have closed := onExecutor_exec (Executor.attempt (Executor.onTable t Table.close))
    ⟨{x with db := x.db.unregister name},catalog⟩
  rw [Executor.attempt_exec] at closed
  rw [exec_bind_ok gone,exec_bind_ok closed]
  exact ⟨_,rfl,rfl⟩

section Create

variable {path : Bytes} {q : CreateTable} {x' : Executor} {c' : Catalog} {r : Result}

theorem tryCreate_refused (failed : (Executor.create q).exec x = (.error err,x')) :
    (tryCreate disk path q).exec ⟨x,some c⟩ = (.error err,⟨x,some c⟩) := by
  obtain rfl := Executor.create_failed failed
  rw [tryCreate,exec_bind_ok (exec_get _),exec_bind,onExecutor_exec,failed]

variable (created : (Executor.create q).exec x = (.ok r,x'))

include created

theorem tryCreate_entered (entered : Catalog.trySet disk (newEntry path q) c = (.ok (),c')) :
    (tryCreate disk path q).exec ⟨x,some c⟩ = (.ok r,⟨x',some c'⟩) := by
  rw [tryCreate,exec_bind_ok (exec_get _),exec_bind,onExecutor_exec,created]
  dsimp only
  rw [exec_bind,exec_tryCatch,onDisk_exec,entered]
  rfl

theorem tryCreate_undone (failed : Catalog.trySet disk (newEntry path q) c = (.error err,c')) :
    ∃ y : Executor, (tryCreate disk path q).exec ⟨x,some c⟩ = (.error err,⟨y,some c'⟩) ∧ y.db.registry = x.db.registry := by
  obtain ⟨y,undone,registry⟩ := undo_exec x' (some c') (toLower q.table) x.db.tables.length err
  refine ⟨y,?_,?_⟩
  · rw [tryCreate,exec_bind_ok (exec_get _),exec_bind,onExecutor_exec,created]
    dsimp only
    rw [exec_bind,exec_tryCatch,onDisk_exec,failed]
    dsimp only
    rw [undone]
  · -- The name was free, so taking the table out again leaves the registry of before.
    have fresh := Executor.create_fresh created
    obtain ⟨table,-,rfl⟩ := Executor.create_done created
    rw [registry]
    apply SortedMap.ext
    intro name
    change ((x.db.registry.insert _ _).erase _).lookup name = _
    rw [SortedMap.lookup_erase,SortedMap.lookup_insert]
    split_ifs with here
    · rw [here,fresh]
    · rfl

omit created in
theorem tryCreate_failed (failed : (tryCreate disk path q).exec ⟨x,some c⟩ = (.error err,e')) :
    Kept ⟨x,some c⟩ e' ↔
      (¬∃ r, ((create path q).exec ⟨x,some c⟩).1 = .ok r) ∨ c.entries.lookup (toLower q.table) = some (newEntry path q) := by
  rw [← tryCreate_none]
  rcases created : (Executor.create q).exec x with ⟨err' | r,x'⟩
  · rw [tryCreate_refused created] at failed ⊢
    obtain ⟨-,rfl⟩ := Prod.mk.inj failed
    apply iff_of_true ⟨rfl,rfl⟩
    refine .inl fun ⟨r,done⟩ => ?_
    cases done
  · cases made : c.set (newEntry path q) with
    | error e₀ =>
      obtain ⟨y,ran,registry⟩ := tryCreate_undone created (Catalog.trySet_refused disk made)
      obtain ⟨y',ran',-⟩ := tryCreate_undone created (Catalog.trySet_refused none made)
      rw [ran']
      obtain ⟨-,rfl⟩ := Prod.mk.inj (ran.symm.trans failed)
      apply iff_of_true ⟨registry,rfl⟩
      refine .inl fun ⟨r,done⟩ => ?_
      cases done
    | ok c' =>
      obtain ⟨entered,entries,rfl,tried⟩ := Catalog.trySet_accepted made
      rw [tryCreate_entered created (tried none)]
      cases disk with
      | none =>
        rw [tryCreate_entered created (tried none)] at failed
        cases failed
      | some err' =>
        obtain ⟨y,ran,registry⟩ := tryCreate_undone created (tried (some err'))
        obtain ⟨-,rfl⟩ := Prod.mk.inj (ran.symm.trans failed)
        have succeeds : ¬¬∃ r', (Except.ok r : Except Error Result) = .ok r' := not_not_intro ⟨r,rfl⟩
        rw [or_iff_right succeeds]
        constructor
        · intro kept
          rw [← Option.some.inj kept.entries,entries,SortedMap.lookup_insert]
          exact if_pos rfl
        · intro there
          refine ⟨registry,congrArg some ?_⟩
          rw [entries]
          apply SortedMap.ext
          intro name
          rw [SortedMap.lookup_insert]
          split_ifs with here
          · rw [here]
            exact there.symm
          · rfl

end Create

theorem tryDrop_registry (disk : Option Error) (c : Catalog) {q : DropTable} {t : Nat} (found : x.table q.table = .ok t) :
    ((tryDrop disk q).exec ⟨x,some c⟩).2.executor.db.registry = x.db.registry.erase (toLower q.table) := by
  have gone : (onExecutor (unregister (toLower q.table))).exec ⟨x,some c⟩ =
      (.ok (),⟨{x with db := x.db.unregister (toLower q.table)},some c⟩) := rfl
  rw [tryDrop,exec_bind_ok (exec_get _),exec_of_bind found,exec_bind_ok gone,exec_bind,onDisk_exec]
  rcases Catalog.tryDelete disk (toLower q.table) c with ⟨err | _,c'⟩
  · rfl
  · dsimp only
    rw [exec_bind_pure]
    rfl

theorem tryDrop_failed {q : DropTable} (failed : (tryDrop disk q).exec ⟨x,some c⟩ = (.error err,e')) :
    Kept ⟨x,some c⟩ e' ↔ ¬∃ t, x.table q.table = .ok t := by
  cases found : x.table q.table with
  | error err' =>
    rw [tryDrop,exec_bind_ok (exec_get _),exec_bind,exec_of,found] at failed
    obtain ⟨-,rfl⟩ := Prod.mk.inj failed
    apply iff_of_true ⟨rfl,rfl⟩
    intro ⟨t,there⟩
    cases there
  | ok t =>
    have registry := tryDrop_registry disk c found
    rw [failed] at registry
    refine iff_of_false (fun kept => ?_) (not_not_intro ⟨t,rfl⟩)
    have there := table_done found
    rw [← kept.registry,registry,SortedMap.lookup_erase,if_pos rfl] at there
    cases there

/-- A statement that fails keeps the registry and the catalog unless it fails at the save, or after it; then CREATE TABLE
leaves its entry, and DROP TABLE has dropped the table. -/
theorem failed_definition_iff (disk : Option Error) (x : Executor) (c : Catalog) :
    (∀ path q err e', (tryCreate disk path q).exec ⟨x,some c⟩ = (.error err,e') →
      (Kept ⟨x,some c⟩ e' ↔
        (¬∃ r, ((create path q).exec ⟨x,some c⟩).1 = .ok r) ∨ c.entries.lookup (toLower q.table) = some (newEntry path q))) ∧
    (∀ q err e', (tryDrop disk q).exec ⟨x,some c⟩ = (.error err,e') →
      (Kept ⟨x,some c⟩ e' ↔ ¬∃ t, x.table q.table = .ok t)) ∧
    (∀ e', Kept ⟨x,some c⟩ e' → e'.catalog.map (fun c => c.save.file) = some c.save.file) ∧
    (∀ path q, (tryCreate none path q).exec ⟨x,some c⟩ = (create path q).exec ⟨x,some c⟩) ∧
    ∀ q, (tryDrop none q).exec ⟨x,some c⟩ = (drop q).exec ⟨x,some c⟩ :=
  ⟨fun _ _ _ _ => tryCreate_failed,fun _ _ _ => tryDrop_failed,fun _ kept => kept.saved,
    fun path q => tryCreate_none path q _,fun q => tryDrop_none q _⟩

def beginning : CatalogExecutor := ⟨CatalogServer.started.server.executor 1,some CatalogServer.started.catalog⟩

theorem failed_definition_invalid :
    let q : CreateTable := ⟨ascii "t",[⟨ascii "a",.int⟩,⟨ascii "a",.int⟩],∅⟩
    Kept beginning ((tryCreate (some .noFile) (ascii "/tmp/go-db-table-1") q).exec beginning).2 := by
  apply ((failed_definition_iff (some .noFile) beginning.executor CatalogServer.started.catalog).1 _ _
    (.invalidColumn (ascii "a")) _
    (exec_of_error (by decide +kernel))).mpr
  refine .inl fun ⟨r,done⟩ => ?_
  have failed : ((create (ascii "/tmp/go-db-table-1") ⟨ascii "t",[⟨ascii "a",.int⟩,⟨ascii "a",.int⟩],∅⟩).exec beginning).1 =
      .error (.invalidColumn (ascii "a")) := by decide +kernel
  cases failed.symm.trans done

def createNamed (disk : Option Error) (name : String) : CatalogM Result :=
  tryCreate disk (ascii "/tmp/go-db-table-1") ⟨ascii name,[⟨ascii "a",.int⟩],∅⟩

def names (e : CatalogExecutor) : List Bytes × List Bytes × List Bytes :=
  let entries := e.catalog.elim [] Catalog.list
  let file := (e.catalog.bind fun c => c.file.join).getD []
  (e.executor.db.registry.entries.map Prod.fst,entries.map CatalogEntry.name,file.map CatalogEntry.name)

def unsavedCreate : Except Error Result × CatalogExecutor := (createNamed (some .noFile) "a").exec beginning

def savedCreate : Except Error Result × CatalogExecutor := (createNamed none "b").exec unsavedCreate.2

def unsavedDrop : Except Error Result × CatalogExecutor := (tryDrop (some .noFile) ⟨ascii "b"⟩).exec savedCreate.2

/-- The file that is saved with `b` has `a` as well, whose statement has failed. The statement that drops `b` fails, and `b` is
gone. -/
theorem failed_definition_saved :
    unsavedCreate.1.isOk = false ∧ names unsavedCreate.2 = ([],[ascii "a"],[]) ∧
      savedCreate.1.isOk = true ∧ names savedCreate.2 = ([ascii "b"],[ascii "a",ascii "b"],[ascii "a",ascii "b"]) ∧
      unsavedDrop.1.isOk = false ∧ names unsavedDrop.2 = ([],[ascii "a"],[ascii "a",ascii "b"]) :=
  ⟨by decide +kernel,by decide +kernel,by decide +kernel,by decide +kernel,by decide +kernel,by decide +kernel⟩

end CatalogExecutor
end GoDb
