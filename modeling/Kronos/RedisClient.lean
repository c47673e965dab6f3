import Kronos.Effect
import Kronos.Resp

namespace Kronos.RedisClient
open ByteRange Utf8 Resp Effect

inductive ClientFault where
  | read (fault : ReadFault) | redis (message : Bytes) | version (n : Nat) | authResponse
  deriving DecidableEq, Repr

-- The other end: it answers the bytes of each command, from a state of its own.
structure Server (σ : Type) where
  reply : σ → Bytes → Reply × σ

-- What was sent by the server and not yet read, and the state of the server.
structure Conn (σ : Type) where
  unread : Bytes
  server : σ

section Client
variable {σ : Type} (server : Server σ)

-- Client.Do, for a call that reaches the wire.
def doCommand (args : List Bytes) : EStateM ClientFault (Conn σ) Value := fun conn =>
  let answer := server.reply conn.server (encodeCommand args)
  match readValue (conn.unread ++ encode answer.1) with
  | (.error fault,left) => .error (.read fault) ⟨left,answer.2⟩
  | (.ok value,left) =>
    if value.typ = .error then .error (.redis value.string) ⟨left,answer.2⟩ else .ok value ⟨left,answer.2⟩

def auth (username password : Bytes) : EStateM ClientFault (Conn σ) Unit := do
  if password = [] then pure ()
  else
    let value ← doCommand server
      (if username = [] then [ascii "AUTH",password] else [ascii "AUTH",username,password])
    if value.typ ≠ .simpleString ∨ value.string ≠ ascii "OK" then throw .authResponse

def hello (version : Nat) (username password : Bytes) : EStateM ClientFault (Conn σ) Value :=
  if version ≠ 2 ∧ version ≠ 3 then throw (.version version)
  else
    let login := if password = [] then []
      else [ascii "AUTH",if username = [] then ascii "default" else username,password]
    doCommand server ([ascii "HELLO",Decimal.decimal version] ++ login)

-- Driver.connect: a refused HELLO is followed by AUTH on the same connection.
def connect (username password : Bytes) : EStateM ClientFault (Conn σ) Unit := do
  match ← attempt (hello server 3 username password) with
  | .ok _ => pure ()
  | .error _ => auth server username password

end Client

def leaves (result : EStateM.Result ε σ α) : σ :=
  match result with
  | .ok _ s => s
  | .error _ s => s

section Alignment
variable {σ : Type} (server : Server σ)

inductive Reached (first : Conn σ) : Conn σ → Prop where
  | start : Reached first first | command {conn : Conn σ} (before : Reached first conn) (args : List Bytes) :
      Reached first (leaves (doCommand server args conn))

inductive Visited (first : σ) : σ → Prop where
  | start : Visited first first
  | command {s : σ} (before : Visited first s) (args : List Bytes) : Visited first (server.reply s (encodeCommand args)).2

def Aligned (first : σ) : Prop := ∀ conn, Reached server ⟨[],first⟩ conn → conn.unread = []

-- Every reply the server gives is made of the types ReadValue knows.
def Answers (first : σ) : Prop := ∀ s, Visited server first s → ∀ args, Supported (server.reply s (encodeCommand args)).1

end Alignment

variable {σ : Type} {server : Server σ} {first s : σ} {conn : Conn σ}

theorem doCommand_leaves (args : List Bytes) : leaves (doCommand server args conn) =
    ⟨(readValue (conn.unread ++ encode (server.reply conn.server (encodeCommand args)).1)).2,
      (server.reply conn.server (encodeCommand args)).2⟩ := by
  simp only [doCommand]
  cases ran : readValue (conn.unread ++ encode (server.reply conn.server (encodeCommand args)).1) with
  | mk result =>
    cases result with
    | error => rfl
    | ok =>
      simp only
      split <;> rfl

theorem reached_visited (reached : Reached server ⟨[],first⟩ conn) : Visited server first conn.server := by
  induction reached with
  | start => exact .start
  | command _ args ih =>
    rw [doCommand_leaves]
    exact .command ih args

theorem visited_reached (visited : Visited server first s) : ∃ conn, Reached server ⟨[],first⟩ conn ∧ conn.server = s := by
  induction visited with
  | start => exact ⟨_,.start,rfl⟩
  | command _ args ih =>
    obtain ⟨_,reached,same⟩ := ih
    refine ⟨_,.command reached args,?_⟩
    rw [doCommand_leaves,same]

theorem answers_aligned (formed : ∀ s bytes, WellFormed (server.reply s bytes).1) (answers : Answers server first) :
    Aligned server first := by
  intro conn reached
  induction reached with
  | start => rfl
  | @command conn before args ih =>
    have known := answers conn.server (reached_visited before) args
    have exact := readValue_exact (formed conn.server (encodeCommand args)) known []
    rw [List.append_nil] at exact
    rw [doCommand_leaves,ih,List.nil_append,exact]

theorem aligned_answers (formed : ∀ s bytes, WellFormed (server.reply s bytes).1) (aligned : Aligned server first) :
    Answers server first := by
  intro s visited args
  by_contra unknown
  obtain ⟨conn,reached,rfl⟩ := visited_reached visited
  have empty := aligned conn reached
  have after := aligned _ (.command reached args)
  obtain ⟨_,_,some,stalled⟩ := readValue_stalls (formed conn.server (encodeCommand args)) unknown []
  rw [List.append_nil,List.append_nil] at stalled
  rw [doCommand_leaves,empty,List.nil_append,stalled] at after
  exact some after

theorem reached_trans (one : Reached server conn second) (two : Reached server second third) :
    Reached server conn third := by
  induction two with
  | start => exact one
  | command _ args ih => exact .command ih args

theorem leaves_bind {ε τ α β : Type} (program : EStateM ε τ α) (next : α → EStateM ε τ β) (t : τ) :
    leaves ((program >>= next) t) = leaves (program t) ∨ ∃ a, leaves ((program >>= next) t) = leaves (next a (leaves (program t))) := by
  cases ran : program t with
  | ok a => exact .inr ⟨a,by simp [bind,EStateM.bind,ran,leaves]⟩
  | error => exact .inl (by simp [bind,EStateM.bind,ran,leaves])

theorem auth_reached (username password : Bytes) : Reached server conn (leaves (auth server username password conn)) := by
  unfold auth
  split
  · exact .start
  · rcases leaves_bind (doCommand server
        (if username = [] then [ascii "AUTH",password] else [ascii "AUTH",username,password])) _ conn with stopped | ⟨_,went⟩
    · exact stopped ▸ .command .start _
    · rw [went]
      split <;> exact .command .start _

theorem connect_reached (username password : Bytes) :
    Reached server conn (leaves (connect server username password conn)) := by
  have hello : Reached server conn (leaves (hello server 3 username password conn)) := .command .start _
  unfold connect
  cases ran : RedisClient.hello server 3 username password conn with
  | ok =>
    rw [ran] at hello
    simp only [bind,EStateM.bind,attempt,ran]
    exact hello
  | error =>
    rw [ran] at hello
    simp only [bind,EStateM.bind,attempt,ran]
    exact reached_trans hello (auth_reached username password)

-- Replies: every command reads its own reply and nothing else, exactly when the
-- server sends no type that ReadValue does not know; connect is made of such
-- commands.
theorem replies_aligned_exactly_when_known (server : Server σ) (first : σ)
    (formed : ∀ s bytes, WellFormed (server.reply s bytes).1) : (Aligned server first ↔ Answers server first) ∧
      ∀ username password conn, Reached server ⟨[],first⟩ conn →
        Reached server ⟨[],first⟩ (leaves (connect server username password conn)) :=
  ⟨⟨aligned_answers formed,answers_aligned formed⟩,
    fun username password _ reached => reached_trans reached (connect_reached username password)⟩

def listServer : Server Unit where
  reply _ _ := (.aggregate .array [.line .error (ascii "ERR"),.line .integer (ascii "7"),.nullBulk],())

theorem nested_errors_stay_aligned : Answers listServer () ∧ Aligned listServer () := by
  have formed : ∀ s bytes, WellFormed (listServer.reply s bytes).1 := by
    intro s bytes
    simp only [listServer,WellFormed,AllFormed,LineFormed]
    decide
  have answers : Answers listServer () := by
    intro s _ args
    simp [listServer,Supported,AllSupported]
  exact ⟨answers,(replies_aligned_exactly_when_known listServer () formed).1.mpr answers⟩

-- A server that answers HELLO 3 with a map, as servers of that version do, and
-- any later command with PONG.
def mapServer : Server Bool where
  reply greeted _ := if greeted then (.line .simpleString (ascii "PONG"),true)
    else (.aggregate .map [.blob .bulkString (ascii "proto"),.line .integer (ascii "3")],true)

-- connect keeps the connection, and the next command reads what HELLO left.
theorem hello_map_left_unread : ∃ conn after, connect mapServer [] [] ⟨[],false⟩ = .ok () conn ∧
    conn.unread = ascii "1\r\n$5\r\nproto\r\n:3\r\n" ∧
    doCommand mapServer [ascii "PING"] conn = .error (.read (.unsupported 49)) after := by
  exact ⟨⟨ascii "1\r\n$5\r\nproto\r\n:3\r\n",true⟩,⟨ascii "\r\n$5\r\nproto\r\n:3\r\n+PONG\r\n",true⟩,rfl,rfl,rfl⟩

end Kronos.RedisClient
