import FlexQL.Lib.Runs
import FlexQL.Parser.Parser

/-!
# The two ends of a connection

`flexql_exec` sends a text and reads lines until the end marker; `handle_client` cuts what it
receives at semicolons and answers every statement. Both collect the bytes of the other side in an
accumulator of their own. The connection stays open, the bytes arrive in order, and `recv` may cut
them anywhere. The executor is a parameter.
-/

namespace FlexQL.Wire

open Text

/-! ## The server -/

/-- What the executor hands to the server for a statement: the arguments of the calls of the
callback, and `err`, which is empty when there is none. -/
structure Reply where
  rows : List (List Text) := []
  err : Text := []
  deriving DecidableEq, Repr

/-- `server_exec_callback`. -/
def serverExecCallback (argv : List Text) : Text :=
  str "ROW " ++ [ch '\t'].intercalate (argv.map cStr) ++ [ch '\n']

/-- What is sent for the reply to a statement. -/
def replyBytes (reply : Reply) : Text :=
  reply.rows.flatMap serverExecCallback ++
    (if reply.err = [] then [] else str "ERROR: " ++ reply.err ++ [ch '\n']) ++ str "END\n"

variable {σ : Type}

/-- One round of the inner loop of `handle_client`: the executor behind a statement, and the bytes
that are sent. -/
def respond (exec : σ → Statement → σ × Reply) (db : σ) (sql : Text) : σ × Text :=
  let stmt := Parser.parse sql
  let (db, reply) := if stmt.type = .none then (db, { err := str "Invalid SQL" }) else exec db stmt
  (db, replyBytes reply)

/-! ## The client -/

inductive Code
  | ok
  | error
  deriving DecidableEq, Repr

/-- A call of `flexql_exec`. -/
structure Call where
  errorSeen : Bool := false
  /-- The arguments of the calls of the callback. -/
  rows : List (List Text) := []
  errmsg : Option Text := none
  /-- The bytes that the call has erased from the accumulator. -/
  consumed : Text := []
  deriving DecidableEq, Repr

namespace Call

/-- What the call returns at the end marker. -/
def code (k : Call) : Code := if k.errorSeen then .error else .ok

/-- A line other than the end marker, without the white space around it. -/
def readLine (k : Call) (line : Text) : Call :=
  if (str "ERROR:").isPrefixOf line then
    { k with errorSeen := true, errmsg := some (cStr ((line.drop 6).dropWhile isSpace)) }
  else if (str "ROW ").isPrefixOf line then
    if k.errorSeen then k
    else { k with rows := k.rows ++ [(getLines (ch '\t') (line.drop 4)).map cStr] }
  else k

end Call

/-- The inner loop of `flexql_exec`: it takes lines from the accumulator until there is none, or
until the end marker, where the call returns. Every round takes a byte. -/
def readLines : ℕ → Text → Call → Text × Call × Bool
  | 0, accumulator, k => (accumulator, k, false)
  | fuel + 1, accumulator, k =>
    match cut (ch '\n') accumulator with
    | none => (accumulator, k, false)
    | some (line, accumulator) =>
      let k := { k with consumed := k.consumed ++ (line ++ [ch '\n']) }
      let line := trim isSpace line
      if line = str "END" then (accumulator, k, true)
      else readLines fuel accumulator (k.readLine line)

/-- What `flexql_exec` sends for a text, which is a C string. Nothing is sent for an empty one. -/
def request (sql : Text) : Text :=
  let q := cStr sql
  if q = [] ∨ q.getLast? = some (ch ';') then q else q ++ [ch ';']

/-! ## The connection -/

structure Conn (σ : Type) where
  /-- `db->accumulator` of the client. -/
  accumulator : Text := []
  /-- The call that is running. -/
  call : Option Call := none
  /-- The calls that have sent a request and have returned. -/
  returned : List Call := []
  /-- The bytes on their way to the server. -/
  up : Text := []
  /-- The bytes on their way to the client. -/
  down : Text := []
  /-- `accumulator` of `handle_client`. -/
  serverAccumulator : Text := []
  /-- The part of a response that is not sent yet. -/
  sending : Text := []
  db : σ

namespace Conn

def init (db : σ) : Conn σ := { db := db }

/-- The loop over the lines in the accumulator of the client. -/
def drain (c : Conn σ) (k : Call) : Conn σ :=
  match readLines c.accumulator.length c.accumulator k with
  | (accumulator, k, true) =>
    { c with accumulator := accumulator, call := none, returned := c.returned ++ [k] }
  | (accumulator, k, false) => { c with accumulator := accumulator, call := some k }

end Conn

inductive Event
  | call (sql : Text)
  | clientRecv (n : ℕ)
  | serverRecv (n : ℕ)
  /-- The server takes the next statement from its accumulator. -/
  | serverExec
  | serverSend (n : ℕ)
  deriving DecidableEq, Repr

/-- A step that cannot be taken now. -/
inductive Blocked
  | blocked
  deriving DecidableEq, Repr

/-- `sizeof(buffer) - 1`. -/
def bufferSize : ℕ := 8191

/-- `recv` may return any number of the bytes that are there, up to the size of the buffer. -/
def canRecv (n : ℕ) (bytes : Text) : Prop := 0 < n ∧ n ≤ bufferSize ∧ n ≤ bytes.length

instance (n : ℕ) (bytes : Text) : Decidable (canRecv n bytes) := inferInstanceAs (Decidable (_ ∧ _))

def step (exec : σ → Statement → σ × Reply) (c : Conn σ) : Event → Except Blocked (Conn σ)
  | .call sql =>
    if c.call.isSome then .error .blocked
    else if request sql = [] then .ok c
    else .ok ({ c with up := c.up ++ request sql }.drain {})
  | .clientRecv n =>
    match c.call with
    | none => .error .blocked
    | some k =>
      if canRecv n c.down then
        -- the buffer is appended as a C string
        .ok ({ c with
          accumulator := c.accumulator ++ cStr (c.down.take n), down := c.down.drop n }.drain k)
      else .error .blocked
  | .serverRecv n =>
    if c.sending = [] ∧ ch ';' ∉ c.serverAccumulator ∧ canRecv n c.up then
      .ok { c with
        serverAccumulator := c.serverAccumulator ++ cStr (c.up.take n), up := c.up.drop n }
    else .error .blocked
  | .serverExec =>
    match cut (ch ';') c.serverAccumulator with
    | none => .error .blocked
    | some (sql, rest) =>
      if c.sending = [] then
        .ok { c with
          serverAccumulator := rest
          db := (respond exec c.db sql).1
          sending := (respond exec c.db sql).2 }
      else .error .blocked
  | .serverSend n =>
    if 0 < n ∧ n ≤ c.sending.length then
      .ok { c with down := c.down ++ c.sending.take n, sending := c.sending.drop n }
    else .error .blocked

end FlexQL.Wire
