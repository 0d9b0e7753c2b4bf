import KvCache.Requests

/-!
# The client

`client/cli.py`: the request lines of `CacheClient`, what it does with replies,
and what it makes of the one it accepts. What comes of an attempt, and whether
the deadline has passed, is left open (`Round`): an attempt is a connection to
some node, perhaps with a login first, and then one `_request` with the line.
That the line read there is the reply to this line, and not to an earlier one,
is the subject of `Lockstep`.

The loop of retries ends with the first reply that is neither a redirect nor
retryable (`reply_of_retry`, `retry_of_getsReply`). The line of a SET or a GET
is then followed to its handler on the server and the handler's reply: the tag
and the command come off as the client put them on, the key is a word, and what
is left of the value is `keptValue` (`always_turn_set`, `always_turn_get`).
-/

namespace KvCache

open Interaction

/-! ## Requests and replies -/

/-- `text.startswith(prefix)` -/
def startsWith (start text : String) : Bool := start.toList.isPrefixOf text.toList

def redirectPrefix : String := "ERROR: NOT_LEADER "

def retryablePrefixes : List String :=
  ["ERROR: NO_LEADER", "ERROR: timed out", "ERROR: write was replaced"]

/-- `ClientError`, or its subclass `AuthError`. -/
inductive ClientError where
  | client (message : String)
  | auth (message : String)
deriving DecidableEq

/-- What an attempt of a request comes to: the reply line, `_NotReplicatedYet`
or an `OSError` with the text of the problem, or an error that ends the
request. -/
inductive Attempt where
  | reply (text : String)
  | notReplicatedYet (problem : String)
  | unreachable (problem : String)
  | refused (error : ClientError)

/-- One round of the loop of `_with_retries`: is the deadline over before it,
and what comes of its attempt? -/
structure Round where
  late : Bool
  attempt : Attempt

inductive Mode where
  | login
  | admin
deriving DecidableEq

/-- The part of a client that its requests read and change. -/
structure CacheClient where
  nodes : List String
  retryFor : Nat := 10
  preferred : Option String := none
  /-- once authenticated -/
  mode : Option Mode := none
  clientId : String
  seq : Nat := 0
  hex : clientId.length = 16 ∧ ∀ c ∈ clientId.toList, c ∈ "0123456789abcdef".toList

/-- What a request has come to; none while it is being tried. -/
abbrev RequestOutcome (α : Type) := Option (Except ClientError α)

/-- `_read_line`: the first line of what was sent. -/
def readLine (message : String) : String :=
  String.ofList ((message.toList.takeWhile (· != '\n')).rdropWhile (· == '\r'))

/-- `reply.removeprefix("ERROR: ")` -/
def removeError (reply : String) : String :=
  if startsWith "ERROR: " reply then String.ofList (reply.toList.drop 7) else reply

namespace CacheClient

/-- `_request` on one connection, line after line: each line is sent, and the
next line of what the server has written is read, if there is one. An
`_auth_exchange` is up to three of these. -/
def requests : List String → List String → List (String × Option String)
  | [], _ => []
  | line :: lines, stream => (line, stream.head?.map readLine) :: requests lines stream.tail

variable (c : CacheClient)

/-- The leader that a node named, which is tried first from now on. -/
def redirect (reply : String) : CacheClient :=
  let leader := String.ofList (PyText.strip (reply.toList.drop redirectPrefix.length))
  { c with
    nodes := if leader ∈ c.nodes then c.nodes else c.nodes ++ [leader]
    preferred := some leader }

/-- The loop of `_with_retries`, after a `problem`; the first round ignores the
deadline. -/
def retry (first : Bool) (problem : String) : CacheClient → List Round → CacheClient × RequestOutcome String
  | c, [] => (c, none)
  | c, round :: rounds =>
    if !first && round.late then
      (c, some (.error (.client s!"gave up after {c.retryFor}s: {problem}")))
    else
      match round.attempt with
      | .notReplicatedYet problem => retry false problem c rounds
      | .unreachable problem => retry false problem c rounds
      | .refused error => (c, some (.error error))
      | .reply text =>
        if startsWith redirectPrefix text then retry false text (c.redirect text) rounds
        else if retryablePrefixes.any (startsWith · text) then retry false text c rounds
        else (c, some (.ok text))

def withRetries (rounds : List Round) : CacheClient × RequestOutcome String :=
  retry true "no node reachable" c rounds

/-- The tag of the next request. -/
def nextTag : String := s!"{c.clientId}:{c.seq + 1}"

/-- The line of the next request, the same on every retry. -/
def line (command : String) : String := s!"@{c.nextTag} {command}"

def hasLineBreak (text : String) : Bool := text.toList.contains '\n' || text.toList.contains '\r'

def execute (command : String) (rounds : List Round) : CacheClient × RequestOutcome String :=
  if c.mode.isNone then
    (c, some (.error (.client "log in first (login(), signup() or admin_login())")))
  else if hasLineBreak command then
    (c, some (.error (.client "commands cannot contain line breaks")))
  else withRetries { c with seq := c.seq + 1 } rounds

/-- A reply that is no error. -/
def accept (reply : String) : Except ClientError String :=
  if startsWith "ERROR" reply then .error (.client (removeError reply)) else .ok reply

def checked (command : String) (rounds : List Round) : CacheClient × RequestOutcome String :=
  let (c, outcome) := c.execute command rounds
  (c, outcome.map fun reply => reply >>= accept)

def expectOk (reply : String) : Except ClientError Unit :=
  if reply ≠ "OK" then .error (.client s!"unexpected reply: {reply}") else .ok ()

def set (key value : String) (rounds : List Round) : CacheClient × RequestOutcome Unit :=
  let (c, outcome) := c.checked s!"SET {key} {value}" rounds
  (c, outcome.map fun reply => reply >>= expectOk)

def get (key : String) (rounds : List Round) : CacheClient × RequestOutcome (Option String) :=
  let (c, outcome) := c.checked s!"GET {key}" rounds
  (c, outcome.map fun reply => reply.map fun reply => if reply = "NULL" then none else some reply)

end CacheClient

/-! ## The loop of retries -/

section Retries

variable {c : CacheClient} {first : Bool} {problem : String} {rounds : List Round} {text : String}

/-- A reply that ends the loop. -/
def Final (text : String) : Prop :=
  startsWith redirectPrefix text = false ∧ retryablePrefixes.any (startsWith · text) = false

/-- The reply a request returns is one of those it got, and final. -/
theorem reply_of_retry (h : (CacheClient.retry first problem c rounds).2 = some (.ok text)) :
    (∃ r ∈ rounds, r.attempt = .reply text) ∧ Final text := by
  induction rounds generalizing first problem c with
  | nil => cases h
  | cons r rounds ih =>
      have hlater : ∀ {first problem c}, (CacheClient.retry first problem c rounds).2 = some (.ok text) →
          (∃ r' ∈ r :: rounds, r'.attempt = .reply text) ∧ Final text := fun h => by
        obtain ⟨⟨r', hr', ha⟩, hf⟩ := ih h
        exact ⟨⟨r', List.mem_cons_of_mem _ hr', ha⟩, hf⟩
      unfold CacheClient.retry at h
      split at h
      · cases h
      · split at h
        · exact hlater h
        · exact hlater h
        · cases h
        · rename_i text' ha
          split at h
          · exact hlater h
          · rename_i hredirect
            split at h
            · exact hlater h
            · rename_i hretry
              obtain rfl : text' = text := by
                injection h with h
                injection h
              exact ⟨⟨r, List.mem_cons_self, ha⟩, Bool.eq_false_of_not_eq_true hredirect,
                Bool.eq_false_of_not_eq_true hretry⟩

/-- A round after which the loop goes on: no reply, or one that is no last word. -/
def Round.Passing (r : Round) : Prop :=
  (∃ p, r.attempt = .notReplicatedYet p ∨ r.attempt = .unreachable p) ∨
    ∃ t, r.attempt = .reply t ∧ ¬ Final t

/-- After rounds that let the loop go on comes a reply, before the deadline. -/
structure GetsReply (pre post : List Round) : Prop where
  inTime : ∀ i s, (pre ++ post.take 1)[i]? = some s → i = 0 ∨ s.late = false
  passing : ∀ s ∈ pre, s.Passing
  reply : ∃ r rest t, post = r :: rest ∧ r.attempt = .reply t

/-- The loop goes on after a passing round. -/
theorem retry_passing {r : Round} (hr : r.Passing) (hgo : first = true ∨ r.late = false) :
    ∃ problem' c', CacheClient.retry first problem c (r :: rounds)
      = CacheClient.retry false problem' c' rounds := by
  have hin : ¬ (!first && r.late) = true := by
    rcases hgo with h | h
    · simp [h]
    · simp [h]
  rw [CacheClient.retry, if_neg hin]
  rcases hr with ⟨p, hp | hp⟩ | ⟨t, ht, hf⟩
  · rw [hp]
    exact ⟨_, _, rfl⟩
  · rw [hp]
    exact ⟨_, _, rfl⟩
  · rw [ht]
    dsimp only
    split
    · exact ⟨_, _, rfl⟩
    · rename_i hredirect
      split
      · exact ⟨_, _, rfl⟩
      · rename_i hretry
        exact absurd ⟨Bool.eq_false_of_not_eq_true hredirect, Bool.eq_false_of_not_eq_true hretry⟩ hf

/-- Where every reply of the later rounds is the same and final, the request
returns it. -/
theorem retry_of_getsReply {pre post : List Round} (h : GetsReply pre post) (hf : Final text)
    (hall : ∀ r ∈ post, ∀ t, r.attempt = .reply t → t = text) :
    (c.withRetries (pre ++ post)).2 = some (.ok text) := by
  obtain ⟨hlate, hpre, r, rest, t, rfl, hr⟩ := h
  obtain rfl : t = text := hall r List.mem_cons_self t hr
  have hrun : ∀ (pre : List Round) first problem c, (∀ s ∈ pre, s.Passing) →
      (∀ i s, (pre ++ [r])[i]? = some s → (i = 0 ∧ first = true) ∨ s.late = false) →
      (CacheClient.retry first problem c (pre ++ r :: rest)).2 = some (.ok t) := by
    intro pre
    induction pre with
    | nil =>
        intro first problem c _ hlate
        have hin : ¬ (!first && r.late) = true := by
          rcases hlate 0 r rfl with h | h
          · simp [h.2]
          · simp [h]
        rw [List.nil_append, CacheClient.retry, if_neg hin, hr]
        dsimp only
        rw [if_neg (by rw [hf.1]; exact Bool.false_ne_true),
          if_neg (by rw [hf.2]; exact Bool.false_ne_true)]
    | cons s pre ih =>
        intro first problem c hpre hlate
        obtain ⟨problem', c', heq⟩ := retry_passing (hpre s List.mem_cons_self)
          ((hlate 0 s rfl).imp And.right id)
        rw [List.cons_append, heq]
        exact ih _ _ _ (fun s' hs => hpre s' (List.mem_cons_of_mem _ hs)) fun i s' h =>
          Or.inr ((hlate (i + 1) s' h).resolve_left fun h => by cases h.1)
  exact hrun pre true _ c hpre fun i s h => (hlate i s h).imp (fun h => ⟨h, rfl⟩) id

end Retries

/-! ## The line on the server -/

section Lines

variable {c : CacheClient}

theorem toList_nextTag (c : CacheClient) :
    c.nextTag.toList = c.clientId.toList ++ ':' :: (c.seq + 1).repr.toList := by
  have h : toString (c.seq + 1) = (c.seq + 1).repr := rfl
  unfold CacheClient.nextTag
  simp [toString_text, h]

theorem noSpace_of_all {l : List Char} (h : l.all (fun d => !PyText.isSpace d) = true) :
    ∀ d ∈ l, PyText.isSpace d = false := by
  intro d hd
  simpa using List.all_eq_true.mp h d hd

/-- The server's pattern lets a client's tag through. -/
theorem matchTag_nextTag (hseq : (c.seq + 1).repr.length ≤ 18) :
    matchTag ('@' :: c.nextTag.toList) = some (c.clientId.toList, (c.seq + 1).repr.toList) := by
  have hall : "0123456789abcdef".toList.all isIdChar = true := by decide
  have hid : ∀ d ∈ c.clientId.toList, isIdChar d = true := fun d hd =>
    List.all_eq_true.mp hall d (c.hex.2 d hd)
  have hdigits := PyText.isDigit_of_mem_repr (c.seq + 1)
  have hpos : 1 ≤ (c.seq + 1).repr.toList.length := by
    rw [Nat.toList_repr]
    exact List.length_pos_iff.mpr Nat.toDigits_ne_nil
  have hname : c.clientId.toList.length = 16 := c.hex.1
  have hlen : (c.seq + 1).repr.toList.length ≤ 18 := hseq
  rw [toList_nextTag]
  unfold matchTag
  split
  · rename_i rest heq
    obtain rfl := (List.cons.inj heq).2
    dsimp only
    rw [List.takeWhile_append_of_pos hid, List.dropWhile_append_of_pos hid,
      List.takeWhile_cons_of_neg (by decide), List.dropWhile_cons_of_neg (by decide), List.append_nil]
    split
    · rename_i seq heq'
      obtain rfl := (List.cons.inj heq').2
      rw [List.takeWhile_eq_self_iff.mpr hdigits, List.dropWhile_eq_nil_iff.mpr hdigits,
        if_pos ⟨by omega, by omega, hpos, hlen, rfl⟩]
    · rename_i hno
      exact absurd rfl (hno _)
  · rename_i hno
    exact absurd rfl (hno _)

theorem space_notMem_nextTag (c : CacheClient) : ' ' ∉ '@' :: c.nextTag.toList := by
  rw [toList_nextTag]
  intro h
  rcases List.mem_cons.mp h with h | h
  · cases h
  · rcases List.mem_append.mp h with h | h
    · exact absurd (c.hex.2 _ h) (by decide)
    · rcases List.mem_cons.mp h with h | h
      · cases h
      · exact absurd (PyText.isDigit_of_mem_repr _ _ h) (by decide)

/-- What the server reads from a request line: the tag, the verb, and the
arguments without the white space at their end. -/
theorem request_read {verb args : List Char} (hseq : (c.seq + 1).repr.length ≤ 18)
    (hv : verb ≠ []) (hverb : ∀ d ∈ verb, PyText.isSpace d = false)
    (ha : PyText.rstrip args ≠ []) (hargs : PyText.lstrip (PyText.rstrip args) = PyText.rstrip args)
    {text : String} (htext : text.toList = '@' :: c.nextTag.toList ++ ' ' :: (verb ++ ' ' :: (args ++ ['\n']))) :
    splitTag (String.ofList (PyText.strip text.toList))
        = (.tagged c.nextTag, String.ofList (verb ++ ' ' :: PyText.rstrip args)) ∧
      splitUpTo 1 (String.ofList (verb ++ ' ' :: PyText.rstrip args))
        = [String.ofList verb, String.ofList (PyText.rstrip args)] := by
  have hend : PyText.rstrip (args ++ ['\n']) = PyText.rstrip args :=
    PyText.rstrip_append_of_space (by decide)
  have hbody : ∀ l : List Char, PyText.rstrip (l ++ (args ++ ['\n'])) = l ++ PyText.rstrip args := by
    intro l
    rw [PyText.rstrip_append (by rw [hend]; exact ha), hend]
  have hstrip : PyText.strip text.toList
      = '@' :: c.nextTag.toList ++ ' ' :: (verb ++ ' ' :: PyText.rstrip args) := by
    unfold PyText.strip
    rw [htext, List.cons_append, PyText.lstrip_cons (by decide)]
    have := hbody ('@' :: c.nextTag.toList ++ ' ' :: verb ++ [' '])
    simpa using this
  have hrest : PyText.strip (verb ++ ' ' :: PyText.rstrip args) = verb ++ ' ' :: PyText.rstrip args := by
    have hl : PyText.lstrip (verb ++ ' ' :: PyText.rstrip args) = verb ++ ' ' :: PyText.rstrip args := by
      cases verb with
      | nil => exact absurd rfl hv
      | cons d verb => exact PyText.lstrip_cons (hverb d List.mem_cons_self)
    unfold PyText.strip
    rw [hl]
    have hne : PyText.rstrip (PyText.rstrip args) ≠ [] := by
      rw [PyText.rstrip_rstrip]
      exact ha
    have := PyText.rstrip_append (l := verb ++ [' ']) hne
    rw [PyText.rstrip_rstrip] at this
    simpa using this
  constructor
  · rw [hstrip]
    unfold splitTag
    rw [String.toList_ofList, List.cons_append]
    dsimp only
    rw [← List.cons_append, PyText.partition_append (space_notMem_nextTag c)]
    dsimp only
    rw [matchTag_nextTag hseq, hrest]
    dsimp only
    refine Prod.ext (congrArg Tag.tagged ?_) rfl
    refine String.ext ?_
    simp [toList_nextTag]
  · unfold splitUpTo
    rw [String.toList_ofList, PyText.wordsUpTo_word hv hverb (by decide),
      PyText.wordsUpTo_zero_cons (by decide) (by rw [hargs]; exact ha), hargs]
    rfl

end Lines

/-! ## SET and GET on the server -/

/-- The connection reads `text`. A submission that returns is one of `S`; a read
finds the cluster's answer, one of `V`. -/
def Conversing (text : String) (S : String → String → String → Result → Prop)
    (V : String → String → Option String → Prop) : ∀ {β : Type}, ServerCall β → β → Prop
  | _, .readline, answer => answer = .line text
  | _, .submit command username requestId, answer =>
    ∀ result, answer = .ok result → S command username requestId result
  | _, .readIndex, answer => answer = .ok ()
  | _, .get username key, answer => ∃ value, answer = .ok value ∧ V username key value
  | _, _, _ => True

/-- Every message sent is one of `M`. -/
def SendsOnly (M : String → Prop) : ∀ {β : Type}, ServerCall β → Prop
  | _, .send message => M message
  | _, _ => True

section Served

variable {c : CacheClient} {self : TCPServer} {conn : ClientConnection} {now : Int}
  {username key value text : String} {S : String → String → String → Result → Prop}
  {V : String → String → Option String → Prop} {M : String → Prop}

theorem always_sendsOnly {ok : ∀ {β : Type}, ServerCall β → β → Prop} {Q : Unit → Prop}
    {R : ServerError → Prop} {message : String} (h : M message) (hQ : Q ()) :
    (send message).Always ok (SendsOnly M) Q R := ⟨h, fun _ _ => hQ⟩

/-- A user's line runs its handler. -/
theorem always_turn {verb command args : String} {handler : TCPServer.Handler} {tag raw : String}
    (htag : splitTag (String.ofList (PyText.strip text.toList)) = (.tagged tag, raw))
    (hraw : splitUpTo 1 raw = [verb, args])
    (hcommand : String.ofList (PyText.upper verb.toList) = command) (hquit : command ≠ "QUIT")
    (hhandler : (self.userHandlers conn now username).lookup command = some handler)
    (h : (handler args (some tag)).Always (Conversing text S V) (SendsOnly M) (fun _ => True) fun e =>
      M s!"ERROR: {command} failed: {e.text}") :
    (self.turn conn now (.user username)).Always (Conversing text S V) (SendsOnly M) (fun _ => True)
      fun _ => True := by
  unfold TCPServer.turn recv TCPServer.serve TCPServer.dispatch
  simp only [Prog.always_tryCatch, Prog.always_bind, Prog.always_ask]
  refine ⟨trivial, fun answer hanswer => ?_⟩
  obtain rfl : answer = .line text := hanswer
  dsimp only
  rw [Prog.always_pure]
  dsimp only
  rw [htag, hraw]
  dsimp only
  rw [Prog.always_bind, if_neg (by simp), hcommand, if_neg hquit, hhandler]
  dsimp only [List.headD, TCPServer.requestId?]
  rw [Prog.always_bind, Prog.always_tryCatch]
  refine Prog.always_mono h (fun _ hc => hc) (fun _ _ => trivial) fun e he => ?_
  exact always_sendsOnly he trivial

theorem toList_line (c : CacheClient) (command : String) :
    (c.line command ++ "\n").toList = '@' :: c.nextTag.toList ++ ' ' :: (command.toList ++ ['\n']) := by
  unfold CacheClient.line
  simp [toString_text]

theorem head_word (hkey : Word key) : ∃ d l, key.toList = d :: l ∧ PyText.isSpace d = false := by
  cases hl : key.toList with
  | nil => exact absurd (String.ext (by rw [hl]; rfl)) hkey.ne
  | cons d l => exact ⟨d, l, rfl, hkey.noSpace d (hl ▸ List.mem_cons_self)⟩

theorem lstrip_word (hkey : Word key) (l : List Char) :
    PyText.lstrip (key.toList ++ l) = key.toList ++ l := by
  obtain ⟨d, r, hd, hspace⟩ := head_word hkey
  rw [hd, List.cons_append]
  exact PyText.lstrip_cons hspace

theorem rstrip_key (hkey : Word key) : PyText.rstrip key.toList = key.toList :=
  PyText.rstrip_word hkey.noSpace

theorem toList_ne_nil (hkey : Word key) : key.toList ≠ [] := by
  obtain ⟨d, l, hd, -⟩ := head_word hkey
  rw [hd]
  exact List.cons_ne_nil _ _

/-- The value that the server takes from a SET line. -/
def keptValue (value : String) : String :=
  String.ofList (PyText.lstrip (PyText.rstrip value.toList))

theorem toList_set (c : CacheClient) (key value : String) :
    (c.line s!"SET {key} {value}" ++ "\n").toList = '@' :: c.nextTag.toList
      ++ ' ' :: ("SET".toList ++ ' ' :: ((key.toList ++ ' ' :: value.toList) ++ ['\n'])) := by
  rw [toList_line]
  simp [toString_text]

/-- The arguments of a SET without the white space at their end. -/
theorem rstrip_args (hkey : Word key) (value : String) :
    PyText.rstrip (key.toList ++ ' ' :: value.toList) = key.toList ∧
        PyText.rstrip value.toList = [] ∨
      PyText.rstrip (key.toList ++ ' ' :: value.toList) = key.toList ++ ' ' :: PyText.rstrip value.toList ∧
        PyText.rstrip value.toList ≠ [] := by
  by_cases hv : PyText.rstrip value.toList = []
  · refine Or.inl ⟨?_, hv⟩
    have hspace : PyText.rstrip (' ' :: value.toList) = [] := by
      rw [show ' ' :: value.toList = [' '] ++ value.toList from rfl, PyText.rstrip_append_of_space hv]
      rfl
    rw [PyText.rstrip_append_of_space hspace, rstrip_key hkey]
  · refine Or.inr ⟨?_, hv⟩
    have := PyText.rstrip_append (l := key.toList ++ [' ']) hv
    simpa using this

theorem rstrip_args_head (hkey : Word key) (value : String) :
    PyText.rstrip (key.toList ++ ' ' :: value.toList) ≠ [] ∧
      PyText.lstrip (PyText.rstrip (key.toList ++ ' ' :: value.toList))
        = PyText.rstrip (key.toList ++ ' ' :: value.toList) := by
  rcases rstrip_args hkey value with ⟨h, -⟩ | ⟨h, -⟩
  · rw [h]
    have := lstrip_word hkey []
    rw [List.append_nil] at this
    exact ⟨toList_ne_nil hkey, this⟩
  · rw [h]
    exact ⟨List.append_ne_nil_of_left_ne_nil (toList_ne_nil hkey) _, lstrip_word hkey _⟩

theorem splitUpTo_key (hkey : Word key) : splitUpTo 1 key = [key] := by
  have hp : ∀ d ∈ key.toList, (decide ¬ PyText.isSpace d = true) = true := fun d hd => by
    rw [hkey.noSpace d hd]
    rfl
  have hl := lstrip_word hkey []
  rw [List.append_nil] at hl
  obtain ⟨d, l, hd, -⟩ := head_word hkey
  unfold splitUpTo
  rw [PyText.wordsUpTo, hl, hd]
  dsimp only
  rw [← hd, List.takeWhile_eq_self_iff.mpr hp, List.dropWhile_eq_nil_iff.mpr hp]
  simp [PyText.wordsUpTo, PyText.lstrip]

theorem lstrip_ne_nil {l : List Char} (h : PyText.rstrip l ≠ []) :
    PyText.lstrip (PyText.rstrip l) ≠ [] := by
  intro hnil
  have hall := List.dropWhile_eq_nil_iff.mp hnil
  obtain ⟨d, hd⟩ : ∃ d, (PyText.rstrip l).getLast? = some d := by
    cases hl : (PyText.rstrip l).getLast? with
    | none => exact absurd (List.getLast?_eq_none_iff.mp hl) h
    | some d => exact ⟨d, rfl⟩
  have hlast := List.rdropWhile_last_not PyText.isSpace l h
  exact hlast (hall _ (List.getLast_mem h))

theorem splitUpTo_keyValue (hkey : Word key) {value : List Char} (hv : PyText.lstrip value ≠ []) :
    splitUpTo 1 (String.ofList (key.toList ++ ' ' :: value)) = [key, String.ofList (PyText.lstrip value)] := by
  unfold splitUpTo
  rw [String.toList_ofList, PyText.wordsUpTo_word (toList_ne_nil hkey) hkey.noSpace (by decide),
    PyText.wordsUpTo_zero_cons (by decide) hv]
  simp

/-- A SET whose key is short enough submits its value. -/
theorem always_cmdSet {args tag : String} {ok : ∀ {β : Type}, ServerCall β → β → Prop}
    {R : ServerError → Prop} {value : String} (hargs : splitUpTo 1 args = [key, value])
    (hlen : key.length ≤ maxKeyLength)
    (hsubmit : ∀ result, ok (.submit s!"SET {key} {value}" username tag) (.ok result) → M "OK")
    (hlater : ∀ e, ok (.submit s!"SET {key} {value}" username tag) (.error e) →
      (TCPServer.tellFailure (none : Option Result) e).Always ok (SendsOnly M) (fun r => r = none) R) :
    (TCPServer.cmdSet conn username args (some tag)).Always ok (SendsOnly M) (fun _ => True) R := by
  unfold TCPServer.cmdSet validKey TCPServer.submit
  rw [hargs]
  dsimp only
  rw [if_neg (Nat.not_lt.mpr hlen), Prog.always_bind, Prog.always_pure, if_pos rfl, Prog.always_bind]
  simp only [Prog.always_tryCatch, Prog.always_bind, Prog.always_askOrRaise, Prog.always_pure]
  refine ⟨trivial, fun result hr => always_sendsOnly (hsubmit result hr) trivial, fun e he => ?_⟩
  refine Prog.always_mono (hlater e he) (fun _ hc => hc) (fun r hr => ?_) fun _ h => h
  rw [hr]
  trivial

theorem always_cmdSet_usage {args : String} {tag : Option String}
    {ok : ∀ {β : Type}, ServerCall β → β → Prop} {R : ServerError → Prop}
    (hargs : splitUpTo 1 args = [key]) (h : M "ERROR: Usage: SET <key> <value>") :
    (TCPServer.cmdSet conn username args tag).Always ok (SendsOnly M) (fun _ => True) R := by
  unfold TCPServer.cmdSet
  rw [hargs]
  exact always_sendsOnly h trivial

/-- A GET reads the value of its key. -/
theorem always_cmdGet {args : String} {tag : Option String}
    {ok : ∀ {β : Type}, ServerCall β → β → Prop} {R : ServerError → Prop}
    (hargs : splitWords args = [key]) (hread : ∀ e, ¬ ok .readIndex (.error e))
    (hget : ∀ value, ok (.get username key) (.ok value) → M (value.getD "NULL"))
    (hlater : ∀ e, ¬ ok (.get username key) (.error e)) :
    (self.cmdGet username args tag).Always ok (SendsOnly M) (fun _ => True) R := by
  have hvalue : (do
      let value ← Prog.askOrRaise (.get username key)
      send (value.getD "NULL") : Interaction.Prog ServerCall ServerError Unit).Always ok (SendsOnly M)
        (fun _ => True) R := by
    rw [Prog.always_bind, Prog.always_askOrRaise]
    exact ⟨trivial, fun value hv => always_sendsOnly (hget value hv) trivial,
      fun e he => absurd he (hlater e)⟩
  unfold TCPServer.cmdGet TCPServer.readBarrier
  rw [hargs]
  dsimp only
  rw [Prog.always_bind]
  split
  · exact hvalue
  · rw [Prog.always_tryCatch, Prog.always_bind, Prog.always_askOrRaise]
    exact ⟨trivial, fun _ _ => hvalue, fun e he => absurd he (hread e)⟩

/-- A reply line begins as the message does. -/
theorem head_readLine {message : String} (h : message.toList.head? = some 'E') :
    (readLine message).toList.head? = some 'E' := by
  obtain ⟨l, hl⟩ : ∃ l, message.toList = 'E' :: l := by
    cases hm : message.toList with
    | nil =>
        rw [hm] at h
        cases h
    | cons d l =>
        rw [hm] at h
        exact ⟨l, by rw [Option.some.inj h]⟩
  have hprefix := List.rdropWhile_prefix (· == '\r') (message.toList.takeWhile (· != '\n'))
  have hne : (message.toList.takeWhile (· != '\n')).rdropWhile (· == '\r') ≠ [] := by
    intro hnil
    have hall := List.rdropWhile_eq_nil_iff.mp hnil 'E' (by
      rw [hl, List.takeWhile_cons_of_pos (by decide)]
      exact List.mem_cons_self)
    cases hall
  unfold readLine
  rw [String.toList_ofList]
  cases hd : (message.toList.takeWhile (· != '\n')).rdropWhile (· == '\r') with
  | nil => exact absurd hd hne
  | cons d r =>
      rw [hd, hl, List.takeWhile_cons_of_pos (by decide)] at hprefix
      rw [(List.cons_prefix_cons.mp hprefix).1]
      rfl

/-- The text of an error begins with an `E`. -/
theorem head_error (message : String) : (s!"ERROR: {message}").toList.head? = some 'E' := by
  simp [toString_text]

theorem head_failed (command message : String) :
    (s!"ERROR: {command} failed: {message}").toList.head? = some 'E' := by
  simp [toString_text]

theorem always_tell {ok : ∀ {β : Type}, ServerCall β → β → Prop} {R : ServerError → Prop}
    (hM : ∀ message, message.toList.head? = some 'E' → M message) (hR : ∀ e, R e) (e : ServerError) :
    (TCPServer.tellFailure (none : Option Result) e).Always ok (SendsOnly M) (fun r => r = none) R := by
  have hsay : ∀ message, message.toList.head? = some 'E' →
      ((do
        send message
        pure none : Interaction.Prog ServerCall ServerError (Option Result))).Always ok (SendsOnly M)
          (fun r => r = none) R := fun message h => by
    rw [Prog.always_bind]
    exact always_sendsOnly (hM message h) rfl
  cases e with
  | notLeader id => exact hsay _ (by decide)
  | proposal message => exact hsay _ (head_error message)
  | configChange message => exact hR _
  | other message => exact hR _

theorem lookup_set (self : TCPServer) (conn : ClientConnection) (now : Int) (username : String) :
    (self.userHandlers conn now username).lookup "SET" = some (TCPServer.cmdSet conn username) := by
  unfold TCPServer.userHandlers
  exact List.lookup_cons_self

theorem lookup_get (self : TCPServer) (conn : ClientConnection) (now : Int) (username : String) :
    (self.userHandlers conn now username).lookup "GET" = some (self.cmdGet username) := by
  simp [TCPServer.userHandlers, List.lookup_cons]

/-- The handler of a SET, given the arguments of the line. -/
theorem always_set_args {ok : ∀ {β : Type}, ServerCall β → β → Prop} {R : ServerError → Prop}
    {args tag : String} (hargs : args = String.ofList (PyText.rstrip (key.toList ++ ' ' :: value.toList)))
    (hkey : Word key) (hlen : key.length ≤ maxKeyLength)
    (hM : ∀ message, message.toList.head? = some 'E' → M message) (hR : ∀ e, R e)
    (hsubmit : ∀ result, ok (.submit s!"SET {key} {keptValue value}" username tag) (.ok result) →
      M "OK") :
    (TCPServer.cmdSet conn username args (some tag)).Always ok (SendsOnly M) (fun _ => True) R := by
  rcases rstrip_args hkey value with ⟨h, -⟩ | ⟨h, hv⟩
  · -- nothing but white space after the key
    rw [h, String.ofList_toList] at hargs
    have husage : ("ERROR: Usage: SET <key> <value>").toList.head? = some 'E' := by decide
    exact always_cmdSet_usage (hargs ▸ splitUpTo_key hkey) (hM _ husage)
  · have hsplit := splitUpTo_keyValue hkey (lstrip_ne_nil hv)
    rw [← h, ← hargs] at hsplit
    exact always_cmdSet hsplit hlen hsubmit fun e _ => always_tell hM hR e

theorem read_set (hseq : (c.seq + 1).repr.length ≤ 18) (hkey : Word key) (value : String) :
    splitTag (String.ofList (PyText.strip (c.line s!"SET {key} {value}" ++ "\n").toList))
        = (.tagged c.nextTag, String.ofList ("SET".toList ++ ' ' ::
          PyText.rstrip (key.toList ++ ' ' :: value.toList))) ∧
      splitUpTo 1 (String.ofList ("SET".toList ++ ' ' ::
          PyText.rstrip (key.toList ++ ' ' :: value.toList)))
        = [String.ofList "SET".toList, String.ofList (PyText.rstrip (key.toList ++ ' ' :: value.toList))] := by
  obtain ⟨hne, hhead⟩ := rstrip_args_head hkey value
  have hset : ∀ d ∈ "SET".toList, PyText.isSpace d = false := noSpace_of_all (by decide)
  exact request_read hseq (by decide) hset hne hhead (toList_set c key value)

/-- A SET is answered OK only when its value, without the white space around it,
was submitted. -/
theorem always_turn_set (hseq : (c.seq + 1).repr.length ≤ 18) (hkey : Word key)
    (hlen : key.length ≤ maxKeyLength) :
    (self.turn conn now (.user username)).Always
      (Conversing (c.line s!"SET {key} {value}" ++ "\n") S V)
      (SendsOnly fun message => readLine message = "OK" →
        ∃ result, S s!"SET {key} {keptValue value}" username c.nextTag result)
      (fun _ => True) fun _ => True := by
  have hM : ∀ message : String, message.toList.head? = some 'E' → readLine message = "OK" →
      ∃ result, S s!"SET {key} {keptValue value}" username c.nextTag result := by
    intro message h heq
    have hhead := head_readLine h
    rw [heq] at hhead
    exact absurd hhead (by decide)
  have hup : String.ofList (PyText.upper (String.ofList "SET".toList).toList) = "SET" := by
    decide
  obtain ⟨htag, hraw⟩ := read_set hseq hkey value
  generalize hargs : String.ofList (PyText.rstrip (key.toList ++ ' ' :: value.toList)) = args at hraw
  refine always_turn htag hraw hup (by simp) (lookup_set self conn now username)
    (always_set_args hargs.symm hkey hlen hM (fun e => ?_) fun result hr => ?_)
  · exact hM _ (head_failed "SET" e.text)
  · have hS : ∀ r, Except.ok result = Except.ok r →
        S s!"SET {key} {keptValue value}" username c.nextTag r := hr
    exact fun _ => ⟨result, hS result rfl⟩

theorem toList_get (c : CacheClient) (key : String) :
    (c.line s!"GET {key}" ++ "\n").toList = '@' :: c.nextTag.toList
      ++ ' ' :: ("GET".toList ++ ' ' :: (key.toList ++ ['\n'])) := by
  rw [toList_line]
  simp [toString_text]

theorem splitWords_key (hkey : Word key) : splitWords key = [key] := by
  obtain ⟨d, l, hd, -⟩ := head_word hkey
  have hlen : key.toList.length = l.length + 1 := by rw [hd, List.length_cons]
  have hp : ∀ d ∈ key.toList, (decide ¬ PyText.isSpace d = true) = true := fun d hd => by
    rw [hkey.noSpace d hd]
    rfl
  have hl := lstrip_word hkey []
  rw [List.append_nil] at hl
  unfold splitWords PyText.words
  rw [hlen, PyText.wordsUpTo, hl, hd]
  dsimp only
  rw [← hd, List.takeWhile_eq_self_iff.mpr hp, List.dropWhile_eq_nil_iff.mpr hp]
  have hnil : ∀ n, PyText.wordsUpTo n [] = [] := fun n => by
    cases n with
    | zero => rfl
    | succ n => rfl
  rw [hnil]
  simp

/-- A GET is answered with the value that was read, or NULL. -/
theorem always_turn_get (hseq : (c.seq + 1).repr.length ≤ 18) (hkey : Word key) :
    (self.turn conn now (.user username)).Always
      (Conversing (c.line s!"GET {key}" ++ "\n") S V)
      (SendsOnly fun message => ∃ value, V username key value ∧ message = value.getD "NULL")
      (fun _ => True) fun _ => True := by
  have hget : ∀ d ∈ "GET".toList, PyText.isSpace d = false := noSpace_of_all (by decide)
  have hr := rstrip_key hkey
  have hl := lstrip_word hkey []
  rw [List.append_nil] at hl
  obtain ⟨htag, hraw⟩ := request_read hseq (by decide) hget
    (show PyText.rstrip key.toList ≠ [] by rw [hr]; exact toList_ne_nil hkey) (by rw [hr, hl])
    (toList_get c key)
  have hup : String.ofList (PyText.upper (String.ofList "GET".toList).toList) = "GET" := by
    decide
  rw [hr] at htag hraw
  rw [String.ofList_toList (s := key)] at hraw
  refine always_turn htag hraw hup (by simp) (lookup_get self conn now username) ?_
  refine always_cmdGet (splitWords_key hkey) (fun e he => ?_) (fun value hv => ?_) fun e he => ?_
  · have hanswer : Except.error e = Except.ok () := he
    cases hanswer
  · have hanswer : ∃ v, Except.ok value = Except.ok v ∧ V username key v := hv
    obtain ⟨v, heq, hV⟩ := hanswer
    cases heq
    exact ⟨_, hV, rfl⟩
  · have hanswer : ∃ v, Except.error e = Except.ok v ∧ V username key v := he
    obtain ⟨v, heq, -⟩ := hanswer
    cases heq

end Served

end KvCache
