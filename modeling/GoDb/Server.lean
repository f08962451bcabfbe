import GoDb.Executor
import GoDb.Foundation.Runs

/-! The server of `server/server.go`. Each connection has an executor of its own, and all
executors share the tables. A lock makes every request one step; requests of different
connections come in any order. -/
namespace GoDb
open Foundation Outcome

structure Server where
  db : Db
  txs : Nat → Option Transaction

/-- A request that was parsed, or the end of a connection. -/
inductive Body
  | execute (statements : List Statement)
  | disconnect

structure Request where
  client : Nat
  ord : Order
  body : Body

def Request.one (client : Nat) (ord : Order) (st : Statement) : Request := ⟨client,ord,.execute [st]⟩

namespace Server

def executor (s : Server) (client : Nat) : Executor := ⟨s.db,s.txs client⟩

def withExecutor (s : Server) (client : Nat) (e : Executor) : Server := ⟨e.db,Function.update s.txs client e.tx⟩

/-- One request under the lock. An executor goes away with its connection; a transaction that is
still open is rolled back before. -/
def handle (r : Request) (s : Server) : Except Error Result × Server :=
  match r.body with
  | .execute statements =>
    let (answer,e) := (Executor.execute r.ord statements).exec (s.executor r.client)
    (answer,s.withExecutor r.client e)
  | .disconnect =>
    if (s.txs r.client).isSome then
      let (_,e) := (Executor.execute r.ord [.rollback]).exec (s.executor r.client)
      (.ok .empty,s.withExecutor r.client {e with tx := none})
    else (.ok .empty,s)

/-- A server with these tables, and no connection yet. -/
def start (db : Db) : Server := ⟨db,fun _ => none⟩

end Server
end GoDb
