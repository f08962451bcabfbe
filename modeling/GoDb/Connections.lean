import GoDb.Isolation
import GoDb.Parser
import GoDb.Splitting

/-! The connections of `server/server.go`: a line of credentials, if the server asks for them, and then a request a line.
What the lines do is what the requests do that they stand for. -/
namespace GoDb
open Foundation Outcome

inductive RequestError
  | parsing (cause : SyntaxError)
  | failed (cause : Error)

def Parsed.statement : Parsed → Option Statement
  | .plain st => some st
  | _ => none

def parseAll (input : Bytes) : Except SyntaxError (List Parsed) := (splitStatements input).mapM Parser.parse

/-- `Execute`. Nothing is executed unless everything parses. Requests with EXPLAIN, SHOW TABLES, DROP or ALTER are left
to a parameter. -/
def Executor.executeInput (other : Order → List Parsed → ExecutorM Result) (ord : Order) (input : Bytes) (e : Executor) :
    Except RequestError Result × Executor :=
  match parseAll input with
  | .error err => (.error (.parsing err),e)
  | .ok parts =>
    let (answer,e) :=
      match parts.mapM Parsed.statement with
      | some statements => (execute ord statements).exec e
      | none => (other ord parts).exec e
    (answer.mapError .failed,e)

structure AuthRequest where
  username : Bytes
  password : Bytes

inductive Response
  -- "authentication failed"
  | authenticationFailed
  | authenticated
  -- What `json.Unmarshal` says, and "query is required"
  | malformed (cause : Bytes)
  | queryRequired
  | failed (cause : RequestError)
  | done (result : Result)

/-- A server, with what it takes from other packages. -/
structure Listener where
  username : Bytes
  passwordHash : Bytes
  sum256 : Bytes → Bytes
  unmarshalAuth : Bytes → Option AuthRequest
  unmarshalRequest : Bytes → Except Bytes Bytes
  other : Order → List Parsed → ExecutorM Result

inductive Phase
  | greeting
  | serving
  | closed
  deriving DecidableEq

structure Connections where
  server : Server
  phase : Nat → Phase

/-- A line that comes over a connection, or its end. -/
structure Event where
  client : Nat
  ord : Order
  line : Option Bytes

namespace Listener

variable (l : Listener)

def start (db : Db) : Connections := ⟨.start db,fun _ => if l.username = [] then .serving else .greeting⟩

def authenticates (text : Bytes) : Bool :=
  match l.unmarshalAuth (trimSpaceUtf8 text) with
  | none => false
  | some auth => auth.username = l.username ∧ l.sum256 auth.password = l.passwordHash

/-- The query of a line. A blank line is passed over, and some lines are answered at once. -/
def query (text : Bytes) : Option (Except Response Bytes) :=
  let line := trimSpaceUtf8 text
  if line = [] then none
  else
    match if line.head? = some 123 then l.unmarshalRequest line else .ok line with
    | .error err => some (.error (.malformed err))
    | .ok query => some (if trimSpaceUtf8 query = [] then .error .queryRequired else .ok query)

def next (ev : Event) : Phase → Phase
  | .closed => .closed
  | .greeting => if ev.line.any l.authenticates then .serving else .closed
  | .serving => if ev.line.isSome then .serving else .closed

def respond (ev : Event) (text : Bytes) (s : Server) : Option Response × Server :=
  match l.query text with
  | none => (none,s)
  | some (.error response) => (some response,s)
  | some (.ok query) =>
    let (answer,e) := Executor.executeInput l.other ev.ord query (s.executor ev.client)
    (some (match answer with
      | .ok result => .done result
      | .error err => .failed err),s.withExecutor ev.client e)

/-- One turn of `handle` for the connection of a client. -/
def handle (ev : Event) (s : Connections) : Option Response × Connections :=
  let (response,server) :=
    match s.phase ev.client,ev.line with
    | .closed,_ => (none,s.server)
    | _,none => (none,(Server.handle ⟨ev.client,ev.ord,.disconnect⟩ s.server).2)
    | .greeting,some text => (some (if l.authenticates text then .authenticated else .authenticationFailed),s.server)
    | .serving,some text => l.respond ev text s.server
  (response,⟨server,Function.update s.phase ev.client (l.next ev (s.phase ev.client))⟩)

/-- The request that a line stands for, or the end of a connection, as far as the executor gets one. -/
def body (ev : Event) : Phase → Option Body
  | .closed => none
  | .greeting => if ev.line.isNone then some .disconnect else none
  | .serving =>
    match ev.line with
    | none => some .disconnect
    | some text =>
      match l.query text with
      | some (.ok query) => (parseAll query).toOption.bind fun parts => (parts.mapM Parsed.statement).map .execute
      | _ => none

def requests : List Event → (Nat → Phase) → List Request
  | [],_ => []
  | ev::events,phase =>
    ((l.body ev (phase ev.client)).map fun body => ⟨ev.client,ev.ord,body⟩).toList ++
      requests events (Function.update phase ev.client (l.next ev (phase ev.client)))

/-- The statements of a line that can be parsed are all of those that `Statement` has. -/
def plain (ev : Event) : Bool :=
  ev.line.all fun text =>
    match l.query text with
    | some (.ok query) => (parseAll query).toOption.all fun parts => (parts.mapM Parsed.statement).isSome
    | _ => true

variable {l : Listener} {ev : Event} {s : Connections}

theorem respond_server (plain : l.plain ev) {text : Bytes} (line : ev.line = some text) (s : Server) :
    (l.respond ev text s).2 = ((l.body ev .serving).map fun body =>
      (Server.handle ⟨ev.client,ev.ord,body⟩ s).2).getD s := by
  simp only [body,respond,line]
  rcases asked : l.query text with _ | _ | query
  · rfl
  · rfl
  · simp only [Executor.executeInput]
    rcases parsed : parseAll query with err | parts
    · exact Server.withExecutor_executor s ev.client
    · have all : (parts.mapM Parsed.statement).isSome := by
        simpa [Listener.plain,line,asked,parsed,Except.toOption] using plain
      obtain ⟨statements,all⟩ := Option.isSome_iff_exists.mp all
      simp only [Except.toOption,Option.bind_some,all]
      rfl

theorem handle_server (plain : l.plain ev) (s : Connections) :
    (l.handle ev s).2.server = ((l.body ev (s.phase ev.client)).map fun body =>
      (Server.handle ⟨ev.client,ev.ord,body⟩ s.server).2).getD s.server := by
  unfold handle
  cases s.phase ev.client with
  | closed => rfl
  | greeting => cases line : ev.line <;> simp [body,line]
  | serving =>
    cases line : ev.line with
    | none => simp [body,line]
    | some text => exact respond_server plain line s.server

/-- A server whose credentials are one word. -/
def sample : Listener where
  username := ascii "admin"
  passwordHash := ascii "secret"
  sum256 := id
  unmarshalAuth line := some ⟨ascii "admin",line⟩
  unmarshalRequest _ := .error []
  other _ _ := throw .emptyRequest

/-- Client 1 does not know the word, and client 2 does. -/
def twoClients : List Event :=
  [(1,"guess"),(2,"secret"),(1,"DELETE FROM u"),(2,"CREATE TABLE u (a INT); SELECT * FROM u")].map fun (client,line) =>
    ⟨client,.stored,some (ascii line)⟩

theorem handle_tx {client : Nat} (apart : client ≠ ev.client) (s : Connections) :
    (l.handle ev s).2.server.txs client = s.server.txs client := by
  unfold handle
  cases s.phase ev.client with
  | closed => rfl
  | greeting =>
    cases ev.line with
    | none => exact Server.handle_tx apart s.server
    | some text => rfl
  | serving =>
    cases ev.line with
    | none => exact Server.handle_tx apart s.server
    | some text =>
      dsimp only [respond]
      rcases l.query text with _ | _ | query
      · rfl
      · rfl
      · exact (Server.withExecutor_tx s.server ev.client _ client).trans (if_neg apart)

/-- The same to everyone but a client who is not served, and has no transaction. -/
structure Alike (client : Nat) (s s' : Connections) : Prop where
  server : s.server = s'.server
  phase : ∀ other, other ≠ client → s.phase other = s'.phase other
  unserved : s.phase client ≠ .serving
  idle : s.server.txs client = none

theorem Alike.hides {client : Nat} {s' : Connections} (own : ev.client = client)
    (wrong : ev.line.any l.authenticates = false) (alike : Alike client s s') : Alike client (l.handle ev s).2 s' := by
  subst own
  have server : (l.handle ev s).2.server = s.server := by
    unfold handle
    cases now : s.phase ev.client with
    | closed => rfl
    | greeting => cases ev.line <;> simp [Server.handle,alike.idle]
    | serving => exact absurd now alike.unserved
  refine ⟨server.trans alike.server,fun other apart => ?_,?_,server ▸ alike.idle⟩
  · exact (Function.update_of_ne apart _ _).trans (alike.phase other apart)
  · intro served
    change Function.update s.phase ev.client (l.next ev (s.phase ev.client)) ev.client = .serving at served
    rw [Function.update_self] at served
    cases now : s.phase ev.client with
    | serving => exact alike.unserved now
    | _ => simp [now,Listener.next,wrong] at served

theorem Alike.shows {client : Nat} {s' : Connections} (apart : ev.client ≠ client) (alike : Alike client s s') :
    (l.handle ev s).1 = (l.handle ev s').1 ∧ Alike client (l.handle ev s).2 (l.handle ev s').2 := by
  have here := alike.phase ev.client apart
  refine ⟨?_,?_,fun other hidden => ?_,?_,(handle_tx apart.symm s).trans alike.idle⟩
  · simp only [handle,here,alike.server]
  · simp only [handle,here,alike.server]
  · simp only [handle,here,Function.update_apply,alike.phase other hidden]
  · exact fun served => alike.unserved ((Function.update_of_ne apart.symm _ _).symm.trans served)

/-- Without the right credentials a client gets nothing done: for all others, the run is the one without its lines. -/
theorem unauthenticated_hidden {client : Nat} (unserved : s.phase client ≠ .serving) (idle : s.server.txs client = none)
    (events : List Event) (wrong : ∀ ev ∈ events, ev.client = client → ev.line.any l.authenticates = false) :
    Runs.seen (fun ev => decide (ev.client = client)) (Runs.run l.handle events s).1 =
        (Runs.run l.handle (events.filter fun ev => ev.client ≠ client) s).1 ∧
      (Runs.after l.handle events s).server =
        (Runs.after l.handle (events.filter fun ev => ev.client ≠ client) s).server := by
  have each : ∀ ev ∈ events, Runs.Hides l.handle (fun ev => decide (ev.client = client)) (Alike client) ev := by
    refine fun ev member => ⟨fun own s s' alike => ?_,fun apart s s' alike => ?_⟩
    · exact alike.hides (of_decide_eq_true own) (wrong ev member (of_decide_eq_true own))
    · exact alike.shows (of_decide_eq_false apart)
  obtain ⟨answers,alike⟩ := Runs.run_hides each ⟨rfl,fun _ _ => rfl,unserved,idle⟩
  simp only [← decide_not] at answers alike
  exact ⟨answers,alike.server⟩

theorem unauthenticated_hidden_twoClients :
    (Runs.after sample.handle twoClients (sample.start .empty)).server =
      (Runs.after sample.handle (twoClients.filter fun ev => ev.client ≠ 1) (sample.start .empty)).server := by
  have unserved : (sample.start .empty).phase 1 ≠ .serving := by decide
  exact (unauthenticated_hidden unserved rfl twoClients (by decide +kernel)).2

end Listener
end GoDb
