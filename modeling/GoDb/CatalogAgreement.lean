import GoDb.DataDefinition
import GoDb.ExecutorInvariant

/-! Whether the catalog lists the tables that are registered. An executor with the catalog
keeps the two alike; over the connections of a server only the registry changes. -/
namespace GoDb
open Foundation Outcome Runs

def Db.schemas (db : Db) : GoMap Schema := db.registry.mapValues fun t => (db.table t).schema

def Catalog.schemas (c : Catalog) : GoMap Schema := c.entries.mapValues CatalogEntry.schema

namespace Db

variable {db : Db}

structure Registered (db : Db) : Prop where
  inside : ∀ name t, db.registry.lookup name = some t → t < db.tables.length
  once : ∀ name other t, db.registry.lookup name = some t → db.registry.lookup other = some t → name = other

def register (db : Db) (name : Bytes) (table : Table) : Db :=
  {db with
    tables := db.tables ++ [table]
    registry := db.registry.insert name db.tables.length}

def unregister (db : Db) (name : Bytes) : Db := {db with registry := db.registry.erase name}

theorem lookup_schemas (db : Db) (name : Bytes) :
    db.schemas.lookup name = (db.registry.lookup name).map fun t => (db.table t).schema :=
  SortedMap.lookup_mapValues _ _ _

theorem Registered.register (registered : db.Registered) (name : Bytes) (table : Table) :
    (db.register name table).Registered := by
  have length : (db.register name table).tables.length = db.tables.length + 1 := List.length_append
  constructor
  · intro k t found
    rw [length]
    unfold Db.register at found
    rw [SortedMap.lookup_insert] at found
    split_ifs at found
    · obtain rfl := Option.some.inj found
      exact Nat.lt_succ_self _
    · exact Nat.lt_succ_of_lt (registered.inside k t found)
  · intro k other t found again
    unfold Db.register at found again
    rw [SortedMap.lookup_insert] at found again
    split_ifs at found again with here there there
    · rw [here,there]
    · obtain rfl := Option.some.inj found
      exact absurd (registered.inside other _ again) (Nat.lt_irrefl _)
    · obtain rfl := Option.some.inj again
      exact absurd (registered.inside k _ found) (Nat.lt_irrefl _)
    · exact registered.once k other t found again

theorem Registered.unregister (registered : db.Registered) (name : Bytes) : (db.unregister name).Registered := by
  have still : ∀ k t, (db.unregister name).registry.lookup k = some t → db.registry.lookup k = some t := by
    intro k t found
    unfold Db.unregister at found
    rw [SortedMap.lookup_erase] at found
    split_ifs at found
    exact found
  constructor
  · intro k t found
    exact registered.inside k t (still k t found)
  · intro k other t found again
    exact registered.once k other t (still k t found) (still other t again)

theorem Registered.withTable (registered : db.Registered) (t : Nat) (table : Table) :
    (db.withTable t table).Registered := by
  constructor
  · intro k t' found
    exact (registered.inside k t' found).trans_eq List.length_set.symm
  · exact registered.once

theorem schemas_register (registered : db.Registered) (name : Bytes) (table : Table) :
    (db.register name table).schemas = db.schemas.insert name table.schema := by
  ext1 k
  rw [SortedMap.lookup_insert,lookup_schemas,lookup_schemas]
  unfold register
  rw [SortedMap.lookup_insert]
  split_ifs with here
  · simp [Db.table]
  · apply Option.map_congr
    intro t found
    have inside := registered.inside k t found
    simp [Db.table,List.getD_eq_getElem?_getD,List.getElem?_append_left inside]

theorem schemas_unregister (db : Db) (name : Bytes) : (db.unregister name).schemas = db.schemas.erase name := by
  ext1 k
  rw [SortedMap.lookup_erase,lookup_schemas,lookup_schemas]
  unfold unregister
  rw [SortedMap.lookup_erase]
  split_ifs
  · rfl
  · rfl

theorem schemas_withTable (registered : db.Registered) {name : Bytes} {t : Nat}
    (found : db.registry.lookup name = some t) (table : Table) :
    (db.withTable t table).schemas = db.schemas.insert name table.schema := by
  ext1 k
  rw [SortedMap.lookup_insert,lookup_schemas,lookup_schemas]
  split_ifs with here
  · subst here
    change Option.map _ (db.registry.lookup k) = _
    rw [found,Option.map_some,table_withTable,if_pos ⟨rfl,registered.inside k t found⟩]
  · apply Option.map_congr
    intro t' other
    rw [table_withTable,if_neg]
    rintro ⟨rfl,-⟩
    exact here (registered.once k name t other found)

theorem schemas_withTable_same {t : Nat} {table : Table} (same : table.schema = (db.table t).schema) :
    (db.withTable t table).schemas = db.schemas := by
  ext1 k
  rw [lookup_schemas,lookup_schemas]
  apply Option.map_congr
  intro t' _
  rw [table_withTable]
  split_ifs with changed
  · rw [same,changed.1]
  · rfl

end Db

namespace Catalog

variable {c c' : Catalog} {entry : CatalogEntry}

theorem schemas_set (done : c.set entry = .ok c') : c'.schemas = c.schemas.insert entry.name entry.schema := by
  unfold set at done
  split_ifs at done
  split at done
  · cases done
  · obtain rfl := Except.ok.inj done
    ext1 k
    rw [SortedMap.lookup_insert,schemas,schemas,SortedMap.lookup_mapValues,SortedMap.lookup_mapValues]
    change Option.map _ ((c.entries.insert entry.name entry).lookup k) = _
    rw [SortedMap.lookup_insert]
    split_ifs
    · rfl
    · rfl

theorem schemas_delete (c : Catalog) (name : Bytes) : (c.delete name).schemas = c.schemas.erase name := by
  ext1 k
  rw [SortedMap.lookup_erase,schemas,schemas,SortedMap.lookup_mapValues,SortedMap.lookup_mapValues]
  change Option.map _ ((c.entries.erase name).lookup k) = _
  rw [SortedMap.lookup_erase]
  split_ifs
  · rfl
  · rfl

end Catalog

namespace Table

def SameSchema (t t' : Table) : Prop := t'.schema = t.schema

theorem sameSchema : Frame SameSchema := ⟨fun _ => rfl,fun first second => second.trans first⟩

theorem rewrite_schema (rows : List Row) : Proc.Keeps SameSchema (rewrite rows) := by
  induction rows with
  | nil => exact Keeps.pure sameSchema ()
  | cons row rows ih =>
    apply Keeps.bind sameSchema (Keeps.get sameSchema)
    intro t
    apply Keeps.bind sameSchema (Keeps.of sameSchema _)
    intro b
    apply Keeps.bind sameSchema
    · intro t'
      rfl
    · intro _
      apply Keeps.bind sameSchema (Keeps.modify fun t' => indexRow_schema _ _ t')
      intro _
      exact ih

theorem close_schema : Proc.Keeps SameSchema close := fun _ => rfl

theorem alter_schema {schema : Schema} {t t' : Table} (done : (alter schema).exec t = (.ok (),t')) :
    t'.schema = schema := by
  unfold alter at done
  rw [exec_bind_ok (exec_get t)] at done
  obtain ⟨_,-,done⟩ := of_bind_success done
  obtain ⟨rows,-,done⟩ := of_bind_success done
  rw [exec_bind_ok (exec_modify _ _)] at done
  obtain ⟨_,mid,accepted,done⟩ := bind_success done
  rw [exec_refuse] at accepted
  obtain ⟨-,rfl⟩ := Prod.mk.inj accepted
  have kept := rewrite_schema (rows.map (t.schema.convertRow schema)) (unindexed t.store schema)
  rw [done] at kept
  exact kept

end Table

namespace Executor

theorem onTable_registered {α : Type} (t : Nat) (x : TableM α) (e : Executor) (registered : e.db.Registered) :
    ((onTable t x).exec e).2.db.Registered := registered.withTable t _

theorem onTable_schemas {α : Type} {x : TableM α} (keeps : Proc.Keeps Table.SameSchema x) (t : Nat) (e : Executor) :
    ((onTable t x).exec e).2.db.schemas = e.db.schemas := Db.schemas_withTable_same (keeps _)

theorem create_done {q : CreateTable} {e e' : Executor} {r : Result} (done : (create q).exec e = (.ok r,e')) :
    ∃ table, table.schema = ⟨createColumns q.columns,q.constraints⟩ ∧
      e' = {e with db := e.db.register (toLower q.table) table} := by
  unfold create at done
  rw [exec_bind_ok (exec_get e)] at done
  obtain ⟨_,mid,accepted,done⟩ := bind_success done
  rw [exec_refuse] at accepted
  obtain ⟨-,rfl⟩ := Prod.mk.inj accepted
  obtain ⟨store,-,done⟩ := of_bind_success done
  obtain ⟨table,made,done⟩ := of_bind_success done
  rw [exec_bind_ok (exec_modify _ _)] at done
  obtain ⟨-,rfl⟩ := Prod.mk.inj done
  exact ⟨table,(new_same made).2.2.2,rfl⟩

end Executor

namespace CatalogExecutor

variable {e e' : CatalogExecutor} {c : Catalog}

/-- The executor has a catalog, and the catalog lists what is registered. -/
structure Listed (e : CatalogExecutor) : Prop where
  registered : e.executor.db.Registered
  agrees : ∃ c, e.catalog = some c ∧ c.schemas = e.executor.db.schemas

theorem onExecutor_done {α : Type} {x : ExecutorM α} {a : α} {executor : Executor} {catalog : Option Catalog}
    (done : (onExecutor x).exec ⟨executor,catalog⟩ = (.ok a,e')) :
    ∃ executor', x.exec executor = (.ok a,executor') ∧ e' = ⟨executor',catalog⟩ := by
  obtain ⟨answer,rfl⟩ := Prod.mk.inj done
  exact ⟨(x.exec executor).2,Prod.ext answer rfl,rfl⟩

theorem onCatalog_done {f : Catalog → Except Error Catalog} {executor : Executor}
    (done : (onCatalog f).exec ⟨executor,some c⟩ = (.ok (),e')) : ∃ c', f c = .ok c' ∧ e' = ⟨executor,some c'⟩ := by
  unfold onCatalog at done
  rw [exec_bind_ok (exec_get _)] at done
  obtain ⟨c',made,done⟩ := of_bind_success done
  obtain ⟨-,rfl⟩ := Prod.mk.inj done
  exact ⟨c',made,rfl⟩

theorem table_done {e : Executor} {name : Bytes} {t : Nat} (found : e.table name = .ok t) :
    e.db.registry.lookup (toLower name) = some t := by
  unfold Executor.table at found
  split at found
  · cases found
  · rename_i there
    rw [there,Except.ok.inj found]

theorem drop_listed {q : DropTable} {r : Result} (listed : e.Listed) (done : (drop q).exec e = (.ok r,e')) :
    e'.Listed := by
  obtain ⟨registered,c,there,agrees⟩ := listed
  rcases e with ⟨executor,catalog⟩
  subst there
  unfold drop at done
  rw [exec_bind_ok (exec_get _)] at done
  obtain ⟨t,found,done⟩ := of_bind_success done
  obtain ⟨_,e₁,gone,done⟩ := bind_success done
  obtain ⟨_,erased,rfl⟩ := onExecutor_done gone
  obtain ⟨-,rfl⟩ := Prod.mk.inj erased
  obtain ⟨_,e₂,deleted,done⟩ := bind_success done
  obtain ⟨c',made,rfl⟩ := onCatalog_done deleted
  obtain rfl := Except.ok.inj made
  obtain ⟨_,e₃,closed,done⟩ := bind_success done
  obtain ⟨executor',shut,rfl⟩ := onExecutor_done closed
  obtain ⟨-,rfl⟩ := Prod.mk.inj done
  let removed : Executor := {executor with db := executor.db.unregister (toLower q.table)}
  change (Executor.onTable t Table.close).exec removed = _ at shut
  have inside := Executor.onTable_registered t Table.close removed (registered.unregister _)
  have same := Executor.onTable_schemas Table.close_schema t removed
  rw [shut] at inside same
  refine ⟨inside,c.delete (toLower q.table),rfl,?_⟩
  rw [Catalog.schemas_delete,agrees,same]
  exact (Db.schemas_unregister _ _).symm

theorem alter_listed {q : AlterTable} {r : Result} (listed : e.Listed) (done : (alter q).exec e = (.ok r,e')) :
    e'.Listed := by
  obtain ⟨registered,c,there,agrees⟩ := listed
  rcases e with ⟨executor,catalog⟩
  subst there
  unfold alter at done
  rw [exec_bind_ok (exec_get _)] at done
  obtain ⟨t,found,done⟩ := of_bind_success done
  obtain ⟨_,e₁,changed,done⟩ := bind_success done
  obtain ⟨_,altered,rfl⟩ := onExecutor_done changed
  rw [Executor.onTable_exec] at altered
  obtain ⟨answer,rfl⟩ := Prod.mk.inj altered
  obtain ⟨_,e₂,listed,done⟩ := bind_success done
  obtain ⟨c',set,rfl⟩ := onCatalog_done listed
  obtain ⟨-,rfl⟩ := Prod.mk.inj done
  refine ⟨registered.withTable t _,c',rfl,?_⟩
  rw [Catalog.schemas_set set,agrees]
  exact (Table.alter_schema (Prod.ext answer rfl) ▸ Db.schemas_withTable registered (table_done found) _).symm

theorem create_listed {path : Bytes} {q : CreateTable} {r : Result} (listed : e.Listed)
    (done : (create path q).exec e = (.ok r,e')) : e'.Listed := by
  obtain ⟨registered,c,there,agrees⟩ := listed
  rcases e with ⟨executor,catalog⟩
  subst there
  unfold create at done
  rw [exec_bind_ok (exec_get _)] at done
  obtain ⟨result,e₁,made,done⟩ := bind_success done
  obtain ⟨_,created,rfl⟩ := onExecutor_done made
  obtain ⟨table,schema,rfl⟩ := Executor.create_done created
  obtain ⟨_,e₂,entered,done⟩ := bind_success done
  obtain ⟨-,rfl⟩ := Prod.mk.inj done
  rw [exec_tryCatch] at entered
  split at entered
  · rename_i set
    obtain ⟨-,rfl⟩ := Prod.mk.inj entered
    obtain ⟨c',entry,rfl⟩ := onCatalog_done set
    refine ⟨registered.register _ _,c',rfl,?_⟩
    rw [Catalog.schemas_set entry,agrees]
    exact (schema ▸ Db.schemas_register registered (toLower q.table) table).symm
  · obtain ⟨_,_,-,entered⟩ := bind_success entered
    obtain ⟨_,_,-,entered⟩ := bind_success entered
    cases entered

theorem define_listed (d : Definition) {r : Result} (listed : e.Listed) (done : (define d).exec e = (.ok r,e')) :
    e'.Listed := by
  cases d with
  | create path q => exact create_listed listed done
  | alter q => exact alter_listed listed done
  | drop q => exact drop_listed listed done

theorem run_listed (definitions : List Definition) (listed : e.Listed)
    (done : ∀ answer ∈ (Runs.run (fun d => (define d).exec) definitions e).1, ∃ r, answer.2 = .ok r) :
    (after (fun d => (define d).exec) definitions e).Listed := by
  apply after_invariant Listed (fun answer => ∃ r, answer.2 = .ok r) ?_ definitions e listed done
  rintro e d listed ⟨r,answer⟩
  exact define_listed d listed (Prod.ext answer rfl)

end CatalogExecutor

namespace CatalogServer

def Agrees (s : CatalogServer) : Prop := s.catalog.schemas = s.server.db.schemas

theorem define_catalog (r : Nat × Definition) (s : CatalogServer) : (define r s).2.catalog = s.catalog := rfl

def started : CatalogServer := ⟨Server.start ⟨[],∅,0,0⟩,⟨∅,none,List.forall_mem_nil _⟩⟩

def createT : Definition := .create (ascii "/tmp/go-db-table-1") ⟨ascii "t",[⟨ascii "a",.int⟩],∅⟩

end CatalogServer

theorem CatalogExecutor.run_listed_dropped :
    (after (fun d => (define d).exec) [CatalogServer.createT,.drop ⟨ascii "T"⟩]
      ⟨⟨⟨[],∅,0,0⟩,none⟩,some ⟨∅,none,List.forall_mem_nil _⟩⟩).Listed := by
  refine run_listed _ ⟨⟨?_,?_⟩,_,rfl,rfl⟩ fun answer member => ?_
  · exact fun _ _ found => absurd found (Option.some_ne_none _).symm
  · exact fun _ _ _ found => absurd found (Option.some_ne_none _).symm
  · have all : (Runs.run (fun d => (define d).exec) [CatalogServer.createT,.drop ⟨ascii "T"⟩]
        ⟨⟨⟨[],∅,0,0⟩,none⟩,some ⟨∅,none,List.forall_mem_nil _⟩⟩).1.all (fun answer => answer.2.isOk) = true := by
      decide +kernel
    have ok := List.all_eq_true.mp all answer member
    rcases answer with ⟨d,err | r⟩
    · cases ok
    · exact ⟨r,rfl⟩

end GoDb
