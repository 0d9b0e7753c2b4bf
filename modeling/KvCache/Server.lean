import Mathlib.Data.String.Basic
import KvCache.Interaction
import KvCache.PyText
import KvCache.RaftTypes

/-!
# The TCP server

`server/tcp_server.py`: what the thread of one client connection does with
the lines it reads. A thread is a `Served` program over its calls: lines
read and sent, writes and reads handed to the Raft engine, and questions
to the state machine. Who answers them is left open.

A handler gets the connection, what the clock shows and its method's own
arguments. The loops `_handle_auth` and `_dispatch` are one definition for
each round; `Phase` is the loop a connection is in, and `turn` a round of
it. Sockets, TLS and logging are left out.
-/

namespace KvCache

open Interaction

def maxKeyLength : Nat := 512
def maxTtlSeconds : Nat := 10 * 365 * 24 * 3600
def minUsernameLen : Nat := 3
def maxUsernameLen : Nat := 150
def minPasswordLen : Nat := 4

def noLeaderMessage : String := "ERROR: NO_LEADER election in progress, retry shortly"

/-! ## What a connection thread calls -/

/-- What `readline` finds: nothing more, a line over the limit, or a line,
decoded. -/
inductive RawLine where
  | closed
  | tooLong
  | line (text : String)

/-- An exception that a connection thread meets. -/
inductive ServerError where
  | notLeader (leaderId : Option NodeId)
  | proposal (message : String)
  | configChange (message : String)
  | other (message : String)

/-- `str(e)` -/
def ServerError.text : ServerError → String
  | .notLeader leaderId => leaderId.getD "None"
  | .proposal message => message
  | .configChange message => message
  | .other message => message

inductive ServerCall : Type → Type where
  | readline : ServerCall RawLine
  | send (message : String) : ServerCall Unit
  /-- `raft.submit` -/
  | submit (command username requestId : String) : ServerCall (Except ServerError Result)
  | readIndex : ServerCall (Except ServerError Unit)
  | addMember (member : Member) : ServerCall (Except ServerError Unit)
  | removeMember (nodeId : NodeId) : ServerCall (Except ServerError Unit)
  /-- `raft.status()` -/
  | status : ServerCall (List (String × String))
  | getLeader : ServerCall (Option NodeId)
  | members : ServerCall (List Member)
  | member (nodeId : NodeId) : ServerCall (Option Member)
  | userExists (username : String) : ServerCall (Except ServerError Bool)
  | verifyPassword (username password : String) : ServerCall (Except ServerError Bool)
  | sessionResult (requestId : String) : ServerCall (Except ServerError Result)
  | get (username key : String) : ServerCall (Except ServerError (Option String))
  | has (username key : String) : ServerCall (Except ServerError Bool)
  | ttl (username key : String) : ServerCall (Except ServerError Int)
  | keys (username : String) (pattern : Option String) :
      ServerCall (Except ServerError (List String))
  /-- Django's `make_password` -/
  | makePassword (password : String) : ServerCall String

abbrev Served := Prog ServerCall ServerError

/-- A connected client. Writes without a tag get a session of the
connection's own, whose name is the head of a random hexadecimal number. -/
structure ClientConnection where
  clientId : String
  /-- the next number of `_seq` -/
  seq : Nat
  hex : clientId.length = 16 ∧ ∀ c ∈ clientId.toList, c ∈ "0123456789abcdef".toList

/-- `str(n)`; a number that is too long for it raises. -/
def strOfInt (n : Int) : Served String :=
  if PyText.isPrintable n then pure n.repr
  else throw (.other (s!"Exceeds the limit ({PyText.maxStrDigits} digits) for integer string " ++
    "conversion; use sys.set_int_max_str_digits() to increase the limit"))

namespace ClientConnection

def nextRequestId (conn : ClientConnection) : Served String := do
  let seq ← strOfInt conn.seq
  pure (conn.clientId ++ ":" ++ seq)

end ClientConnection

def send (message : String) : Served Unit := Prog.ask (.send message)

/-- Read one line; none when the client is gone. -/
def recv : Served (Option String) := do
  match ← Prog.ask .readline with
  | .closed => pure none
  | .tooLong => do
    send "ERROR: Line too long"
    pure none
  | .line text => pure (some (String.ofList (PyText.strip text.toList)))

/-! ## Arguments -/

/-- `text.split()` -/
def splitWords (text : String) : List String := (PyText.words text.toList).map String.ofList

/-- `text.split(None, n)` -/
def splitUpTo (n : Nat) (text : String) : List String :=
  (PyText.wordsUpTo n text.toList).map String.ofList

/-- `[A-Za-z0-9_.-]` -/
def isIdChar (c : Char) : Bool := c.isAlphanum || c = '_' || c = '.' || c = '-'

/-- `$` of a regular expression: the end, perhaps after a line break. -/
def atEnd (rest : List Char) : Bool := rest = [] || rest = ['\n']

/-- `_TAG.match`: client id and sequence number of a request tag. -/
def matchTag (head : List Char) : Option (List Char × List Char) :=
  match head with
  | '@' :: rest =>
    let name := rest.takeWhile isIdChar
    match rest.dropWhile isIdChar with
    | ':' :: rest =>
      let seq := rest.takeWhile Char.isDigit
      if 1 ≤ name.length ∧ name.length ≤ 64 ∧ 1 ≤ seq.length ∧ seq.length ≤ 18 ∧
          atEnd (rest.dropWhile Char.isDigit) then some (name, seq)
      else none
    | _ => none
  | _ => none

/-- `_NODE_ID.match` -/
def isNodeId (text : String) : Bool :=
  let name := text.toList.takeWhile isIdChar
  1 ≤ name.length && name.length ≤ 64 && atEnd (text.toList.dropWhile isIdChar)

/-- The request tag of a line. -/
inductive Tag where
  | untagged
  | badTag
  | tagged (requestId : String)
deriving DecidableEq

/-- `"@client:seq REST"` is `("client:seq", "REST")`; a line without a tag
stays as it is. -/
def splitTag (line : String) : Tag × String :=
  match line.toList with
  | '@' :: _ =>
    let (head, rest) := PyText.partition ' ' line.toList
    let rest := String.ofList (PyText.strip rest)
    match matchTag head with
    | none => (.badTag, rest)
    | some (name, seq) => (.tagged (String.ofList name ++ ":" ++ String.ofList seq), rest)
  | _ => (.untagged, line)

/-- `int(text)` of a text of digits. It raises at the first character that
is a digit to `isdigit` only, unless too many digits stand before it. -/
def intOfDigits (text : String) : Served Int :=
  match PyText.toInt text.toList with
  | some n => pure n
  | none =>
    let read := text.toList.takeWhile fun c => (PyText.digit? c).isSome
    if PyText.maxStrDigits < read.length then
      throw (.other (s!"Exceeds the limit ({PyText.maxStrDigits} digits) for integer string " ++
        s!"conversion: value has {read.length} digits; use sys.set_int_max_str_digits() to " ++
        "increase the limit"))
    else
      -- the exception quotes the text, cut at 200 characters
      let quoted := String.ofList (('\'' :: text.toList ++ ['\'']).take 200)
      throw (.other s!"invalid literal for int() with base 10: {quoted}")

/-- A number of seconds from 1 to the longest allowed. -/
def seconds (text : String) : Served (Option Int) :=
  if PyText.isdigit text.toList then do
    let value ← intOfDigits text
    pure (if 1 ≤ value ∧ value ≤ maxTtlSeconds then some value else none)
  else pure none

def isAddress (text : String) : Served Bool :=
  let (host, port) := PyText.rpartition ':' text.toList
  if host ≠ [] ∧ PyText.isdigit port then do
    let value ← intOfDigits (String.ofList port)
    pure (0 < value ∧ value < 65536)
  else pure false

/-- What is wrong with a user name. -/
def validateUsername (username : String) : Option String :=
  if username.length < minUsernameLen then
    some s!"Username must be at least {minUsernameLen} characters"
  else if username.length > maxUsernameLen then
    some s!"Username must be at most {maxUsernameLen} characters"
  else if username.toList.any PyText.isSpace then some "Username cannot contain spaces"
  else none

def validKey (key : String) : Served Bool := do
  if key.length > maxKeyLength then
    send s!"ERROR: Key longer than {maxKeyLength} characters"
    pure false
  else pure true

/-! ## Raft glue -/

structure TCPServer where
  staleReads : Bool
  adminToken : Option String
  clientAddresses : Dict NodeId String

namespace TCPServer

variable (self : TCPServer) (conn : ClientConnection) (now : Int)

/-- `e` told to the client, if it says that a leader is missing or that the
request failed. -/
def tellFailure {α : Type} (answer : α) : ServerError → Served α
  | .notLeader _ => do
    send noLeaderMessage
    pure answer
  | .proposal message => do
    send s!"ERROR: {message}"
    pure answer
  | e => throw e

/-- Push one write through Raft; none after telling the client why it
failed. -/
def submit (username command : String) (tag : Option String) : Served (Option Result) := do
  let requestId ← match tag with
    | some requestId => pure requestId
    | none => conn.nextRequestId
  tryCatch (do
    let result ← Prog.askOrRaise (.submit command username requestId)
    pure (some result))
    (tellFailure none)

/-- Make the next local read linearizable, unless stale reads are allowed. -/
def readBarrier : Served Bool :=
  if self.staleReads then pure true
  else
    tryCatch (do
      Prog.askOrRaise .readIndex
      pure true)
      (tellFailure false)

def notLeaderMessage (leaderId : Option NodeId) : Served String :=
  match leaderId with
  | none => pure noLeaderMessage
  | some id => do
    let member ← if id = "" then pure none else Prog.ask (.member id)
    let known := (member.map (·.clientAddress)).filter (· ≠ "")
    match known.or (self.clientAddresses.get? id) with
    | some address =>
      pure (if address = "" then noLeaderMessage else s!"ERROR: NOT_LEADER {address}")
    | none => pure noLeaderMessage

/-! ## User commands -/

/-- `bool(result)` -/
def truthy : Result → Bool
  | .none => false
  | .bool b => b
  | .int n => n ≠ 0

def cmdSet (username args : String) (tag : Option String) : Served Unit := do
  match splitUpTo 1 args with
  | [key, value] =>
    if ← validKey key then
      match ← submit conn username s!"SET {key} {value}" tag with
      | some _ => send "OK"
      | none => pure ()
  | _ => send "ERROR: Usage: SET <key> <value>"

def cmdSetex (username args : String) (tag : Option String) : Served Unit := do
  let usage := s!"ERROR: Usage: SETEX <key> <seconds 1..{maxTtlSeconds}> <value>"
  match splitUpTo 2 args with
  | [key, secs, value] =>
    match ← seconds secs with
    | none => send usage
    | some secs =>
      if ← validKey key then
        let expireAt ← strOfInt (now + secs * 1000)
        match ← submit conn username s!"SETEX {key} {expireAt} {value}" tag with
        | some _ => send "OK"
        | none => pure ()
  | _ => send usage

def cmdGet (username args : String) (_tag : Option String) : Served Unit := do
  match splitWords args with
  | [key] =>
    if ← self.readBarrier then
      let value ← Prog.askOrRaise (.get username key)
      send (value.getD "NULL")
  | _ => send "ERROR: Usage: GET <key>"

def cmdHas (username args : String) (_tag : Option String) : Served Unit := do
  match splitWords args with
  | [key] =>
    if ← self.readBarrier then
      let held ← Prog.askOrRaise (.has username key)
      send (if held then "1" else "0")
  | _ => send "ERROR: Usage: HAS <key>"

def cmdDelete (username args : String) (tag : Option String) : Served Unit := do
  match splitWords args with
  | [key] =>
    let now ← strOfInt now
    match ← submit conn username s!"DELETE {key} {now}" tag with
    | some existed => send (if truthy existed then "OK" else "NULL")
    | none => pure ()
  | _ => send "ERROR: Usage: DELETE <key>"

def cmdExpire (username args : String) (tag : Option String) : Served Unit := do
  let usage := s!"ERROR: Usage: EXPIRE <key> <seconds 1..{maxTtlSeconds}>"
  match splitWords args with
  | [key, secs] =>
    match ← seconds secs with
    | none => send usage
    | some secs =>
      let expireAt ← strOfInt (now + secs * 1000)
      let now ← strOfInt now
      match ← submit conn username s!"EXPIREAT {key} {expireAt} {now}" tag with
      | some done => send (if truthy done then "1" else "0")
      | none => pure ()
  | _ => send usage

def cmdPersist (username args : String) (tag : Option String) : Served Unit := do
  match splitWords args with
  | [key] =>
    let now ← strOfInt now
    match ← submit conn username s!"PERSIST {key} {now}" tag with
    | some done => send (if truthy done then "1" else "0")
    | none => pure ()
  | _ => send "ERROR: Usage: PERSIST <key>"

def cmdTtl (username args : String) (_tag : Option String) : Served Unit := do
  match splitWords args with
  | [key] =>
    if ← self.readBarrier then
      let left ← Prog.askOrRaise (.ttl username key)
      let left ← strOfInt left
      send left
  | _ => send "ERROR: Usage: TTL <key>"

def cmdKeys (username args : String) (_tag : Option String) : Served Unit := do
  let parts := splitWords args
  if parts.length > 1 then send "ERROR: Usage: KEYS [pattern]"
  else if ← self.readBarrier then
    let keys ← Prog.askOrRaise (.keys username parts.head?)
    send (" ".intercalate (keys.length.repr :: keys))

def cmdInfo : Served Unit := do
  let status ← Prog.ask .status
  send (" ".intercalate (status.map fun item => s!"{item.1}={item.2}"))

/-- `text or '-'` -/
def orDash (text : String) : String := if text = "" then "-" else text

def cmdMembers : Served Unit := do
  let leader ← Prog.ask .getLeader
  let members ← Prog.ask .members
  let parts := members.map fun m =>
    let client := if m.clientAddress = "" then (self.clientAddresses.get? m.nodeId).getD ""
      else m.clientAddress
    s!"{m.nodeId}={orDash client}/{orDash m.raftAddress}"
  let leading := orDash (leader.getD "")
  send (" ".intercalate (s!"leader={leading}" :: parts))

/-! ## Admin commands -/

def membershipChange (change : ServerCall (Except ServerError Unit)) : Served Unit :=
  tryCatch (do
    Prog.askOrRaise change
    send "OK")
    fun
    | .notLeader leaderId => do
      let leader ← match leaderId.filter (· ≠ "") with
        | some id => pure (some id)
        | none => Prog.ask .getLeader
      let message ← self.notLeaderMessage leader
      send message
    | .configChange message => send s!"ERROR: {message}"
    | .proposal message => send s!"ERROR: {message}"
    | e => throw e

def adminAddNode (args : String) (_tag : Option String) : Served Unit := do
  let usage := "ERROR: Usage: ADDNODE <id> <client host:port> <raft host:port>"
  match splitWords args with
  | [nodeId, client, raftAddress] =>
    if !isNodeId nodeId then send usage
    else if !(← isAddress client) then send usage
    else if !(← isAddress raftAddress) then send usage
    else self.membershipChange (.addMember ⟨nodeId, raftAddress, client⟩)
  | _ => send usage

def adminRemoveNode (args : String) (_tag : Option String) : Served Unit := do
  match splitWords args with
  | [nodeId] => self.membershipChange (.removeMember nodeId)
  | _ => send "ERROR: Usage: REMOVENODE <id>"

def adminImportUser (args : String) (tag : Option String) : Served Unit := do
  let usage := "ERROR: Usage: IMPORTUSER <username> <password_hash>"
  match splitWords args with
  | [username, passwordHash] =>
    if (validateUsername username).isSome then send usage
    else
      match ← submit conn username s!"SIGNUP {passwordHash}" tag with
      | some created => send (if truthy created then "OK" else "EXISTS")
      | none => pure ()
  | _ => send usage

def adminImportSet (args : String) (tag : Option String) : Served Unit := do
  let usage := "ERROR: Usage: IMPORTSET <username> <key> <expire_at_ms or 0> <value>"
  match splitUpTo 3 args with
  | [username, key, expireAt, value] =>
    if !PyText.isdigit expireAt.toList then send usage
    else if ← validKey key then
      let expireAt ← intOfDigits expireAt
      if expireAt ≠ 0 ∧ expireAt ≤ now then send "EXPIRED"
      else
        -- `str` writes again what `int` has read
        let command := if expireAt ≠ 0 then s!"SETEX {key} {expireAt.repr} {value}"
          else s!"SET {key} {value}"
        match ← submit conn username command tag with
        | some stored => send (if truthy stored then "OK" else "ERROR: Unknown user")
        | none => pure ()
  | _ => send usage

/-! ## Sessions -/

/-- A command handler, given its arguments and the request tag. -/
abbrev Handler := String → Option String → Served Unit

def userHandlers (username : String) : List (String × Handler) :=
  [("SET", cmdSet conn username),
   ("SETEX", cmdSetex conn now username),
   ("GET", self.cmdGet username),
   ("HAS", self.cmdHas username),
   ("DELETE", cmdDelete conn now username),
   ("EXPIRE", cmdExpire conn now username),
   ("PERSIST", cmdPersist conn now username),
   ("TTL", self.cmdTtl username),
   ("KEYS", self.cmdKeys username),
   ("INFO", fun _ _ => cmdInfo),
   ("MEMBERS", fun _ _ => self.cmdMembers)]

def adminHandlers : List (String × Handler) :=
  [("ADDNODE", self.adminAddNode),
   ("REMOVENODE", self.adminRemoveNode),
   ("IMPORTUSER", adminImportUser conn),
   ("IMPORTSET", adminImportSet conn now),
   ("MEMBERS", fun _ _ => self.cmdMembers),
   ("INFO", fun _ _ => cmdInfo)]

def userUsage : String :=
  "Use SET/SETEX/GET/HAS/DELETE/EXPIRE/PERSIST/TTL/KEYS/INFO/MEMBERS/QUIT"

def adminUsage : String :=
  "Use ADDNODE/REMOVENODE/IMPORTUSER/IMPORTSET/MEMBERS/INFO/QUIT"

def badTagMessage : String := "ERROR: Bad request tag (use @client_id:seq)"

/-- The request id of a tag that is not bad. -/
def requestId? : Tag → Option String
  | .tagged requestId => some requestId
  | _ => none

/-- One command line of a session; does the session go on? -/
def dispatch (handlers : List (String × Handler)) (usage line : String) : Served Bool := do
  let (tag, raw) := splitTag line
  if tag = .badTag then
    send badTagMessage
    pure true
  else
    match splitUpTo 1 raw with
    | [] => pure true
    | first :: rest =>
      let command := String.ofList (PyText.upper first.toList)
      let args := rest.headD ""
      if command = "QUIT" then
        send "Bye!"
        pure false
      else
        match handlers.lookup command with
        | none =>
          send s!"ERROR: Unknown command. {usage}"
          pure true
        | some handler =>
          -- one bad command must not end the whole session
          tryCatch (handler args (requestId? tag))
            fun e => send s!"ERROR: {command} failed: {e.text}"
          pure true

/-- A user who is not found may just not have been applied here yet. -/
def catchUp (found : Bool) : Served Bool :=
  if !found && !self.staleReads then self.readBarrier else pure true

def doLogin : Served (Option String) := do
  send "Username:"
  match ← recv with
  | none => pure none
  | some username =>
    let found ← Prog.askOrRaise (.userExists username)
    let caughtUp ← self.catchUp found
    if !caughtUp then pure none
    else if !(← Prog.askOrRaise (.userExists username)) then
      send "ERROR: User not found. Try SIGNUP"
      pure none
    else
      send "Password:"
      match ← recv with
      | none => pure none
      | some password =>
        if ← Prog.askOrRaise (.verifyPassword username password) then pure (some username)
        else
          send "ERROR: Wrong password"
          pure none

/-- Did an earlier attempt of this request create the account? -/
def hasCreated (tag : Option String) : Served Bool :=
  match tag with
  | some requestId => do
    let result ← Prog.askOrRaise (.sessionResult requestId)
    pure (result = .bool true)
  | none => pure false

/-- A SIGNUP for a name that is taken: a retry of the request that took it
finishes the login. -/
def retrySignup (username : String) (tag : Option String) : Served (Option String) := do
  if ← hasCreated tag then
    send "Choose password:"
    match ← recv with
    | none =>
      send "ERROR: Wrong password"
      pure none
    | some password =>
      if ← Prog.askOrRaise (.verifyPassword username password) then pure (some username)
      else
        send "ERROR: Wrong password"
        pure none
  else
    send "ERROR: Username already taken"
    pure none

def doSignup (tag : Option String) : Served (Option String) := do
  send "Choose username:"
  match ← recv with
  | none => pure none
  | some username =>
    match validateUsername username with
    | some error =>
      send s!"ERROR: {error}"
      pure none
    | none =>
      if ← Prog.askOrRaise (.userExists username) then retrySignup username tag
      else
        send "Choose password:"
        match ← recv with
        | none => pure none
        | some password =>
          if password.length < minPasswordLen then
            send s!"ERROR: Password must be at least {minPasswordLen} characters"
            pure none
          else
            let passwordHash ← Prog.ask (.makePassword password)
            match ← submit conn username s!"SIGNUP {passwordHash}" tag with
            | none => pure none
            | some created =>
              if truthy created then pure (some username)
              else
                send "ERROR: Username already taken"
                pure none

def doAdmin : Served Bool := do
  send "Token:"
  match ← recv with
  | none => pure false
  | some token =>
    match self.adminToken.filter (· ≠ "") with
    | none =>
      send "ERROR: Admin access is disabled (set CACHE_ADMIN_TOKEN)"
      pure false
    | some adminToken =>
      if token ≠ adminToken then
        send "ERROR: Wrong token"
        pure false
      else pure true

/-- The loop a connection is in. -/
inductive Phase where
  /-- `_handle_auth` -/
  | auth
  /-- `_handle_commands` of a user -/
  | user (username : String)
  /-- `_handle_admin_commands` -/
  | admin
  | closed
deriving DecidableEq

/-- The session of a user who got through, if one did. -/
def enter (principal : Option String) : Served Phase :=
  match principal.filter (· ≠ "") with
  | none => pure .auth
  | some username => do
    send s!"READY:{username}"
    pure (.user username)

/-- A line before the login. -/
def handleAuth (line : String) : Served Phase := do
  let (tag, line) := splitTag line
  if tag = .badTag then
    send badTagMessage
    pure .auth
  else
    match String.ofList (PyText.upper line.toList) with
    | "LOGIN" => do
      let principal ← self.doLogin
      enter principal
    | "SIGNUP" => do
      let principal ← doSignup conn (requestId? tag)
      enter principal
    | "ADMIN" => do
      if ← self.doAdmin then
        send "READY:admin"
        pure .admin
      else pure .auth
    | "QUIT" => do
      send "Bye!"
      pure .closed
    | _ => do
      send "ERROR: Type LOGIN or SIGNUP"
      pure .auth

/-- What a connection does with a line. -/
def serve (phase : Phase) (line : String) : Served Phase :=
  match phase with
  | .auth => self.handleAuth conn line
  | .user username => do
    let goOn ← dispatch (self.userHandlers conn now username) userUsage line
    pure (if goOn then .user username else .closed)
  | .admin => do
    let goOn ← dispatch (self.adminHandlers conn now) adminUsage line
    pure (if goOn then .admin else .closed)
  | .closed => pure .closed

/-- One round of the loop; an exception that leaves it ends the connection. -/
def turn (phase : Phase) : Served Phase :=
  tryCatch (do
    match ← recv with
    | none => pure .closed
    | some line => self.serve conn now phase line)
    fun _ => pure .closed

end TCPServer

end KvCache
