import KvCache.Acknowledged
import KvCache.CacheClient

/-!
# There and back

A value that `set` of a client has written comes back from `get` of a client
unless white space around it was cut off on the way, or its reply line means
something else to the client (`ComesBack`). `get_returns_value_iff` says that
these are the only exceptions, and that they are exceptions always.

The value passes six places, and a chain of lemmas follows it:

- `set` writes it into a line, where it must not break the line; a handler of
  the server strips the line, cuts the key off and submits the rest, which is
  `keptValue` (`always_turn_set`);
- what was submitted is what an entry of the log carries, and its apply leaves
  the value live under the key (`liveWith_of_set`);
- a read finds it there, and its handler sends it as the reply line
  (`always_turn_get`);
- `get` reads the line, ends its retries with it unless it looks like an error
  that is worth another try (`final_of_startsWith`), and then takes `NULL` for
  no value and anything that starts with `ERROR` for an error (`get_eq`).

Between the two requests stands the machine. `Submitted` says that the write was
not a duplicate that was skipped, that its user existed, and that no other write
has touched the key since; then the value is live in the machine that is read
(`LiveWith`), and only the text matters.

What the servers answered is given by `AnsweredBy`: each reply came from some
server, at some time, on a connection of the user. Retries may have gone to
several of them.
-/

namespace KvCache

open StateWp Interaction

/-! ## The value in the machine -/

/-- The key is live with this value, whatever the clock shows. -/
def LiveWith (m : CacheStateMachine) (username key value : String) : Prop :=
  ∀ now, value? (getValue username key none now) m = some (some value)

section Machine

variable {m : CacheStateMachine} {entry : LogEntry} {id : RequestId} {username key value : String}
  {result : Result}

/-- The key is in RAM, without an expiry time. -/
def InRam (username key value : String) (m : CacheStateMachine) : Prop :=
  ∃ store, m.stores.get? username = some store ∧ store.cache.data.get? key = some value ∧
    store.expiry.get? key = none

/-- A read finds in RAM what is there, and no expiry time hides it. -/
theorem liveWith_of_inRam (h : InRam username key value m) : LiveWith m username key value := by
  obtain ⟨store, hstore, hcache, hexpiry⟩ := h
  intro now
  have hwp : wp (getValue username key none now) (fun a _ => a = some value) (fun _ _ => False) m := by
    have hget : (store.cache.get key).1 = some value := hcache
    simp only [getValue, getStore, lookup, putStore, wp_bind, wp_get, hstore, wp_pure, wp_modify, hget]
    rw [hexpiry]
    rfl
  unfold wp at hwp
  unfold value?
  split at hwp
  · rename_i a m' hrun
    rw [hwp]
  · exact hwp.elim

theorem inRam_of_stores {m' : CacheStateMachine} (h : InRam username key value m)
    (hs : m'.stores = m.stores) : InRam username key value m' := by
  unfold InRam
  rw [hs]
  exact h

/-- A call on a table leaves the stores. -/
theorem wp_stores_sessionCall {α : Type} {f : Database → α × Database} :
    wp (sessionCall f) (fun _ m' => m'.stores = m.stores) (fun _ _ => True) m := by
  simp only [sessionCall, wp_bind, wp_get, wp_set, wp_ite, wp_throw, wp_modify, wp_pure]
  split
  · trivial
  · trivial

theorem wp_recordSession_stores (requestId : String) (index : Nat) :
    wp (recordSession requestId result index) (fun _ m' => m'.stores = m.stores) (fun _ _ => True)
      m := by
  unfold recordSession
  split
  · trivial
  · simp only [wp_bind, wp_get, wp_set, wp_ite, wp_pure]
    split
    · refine wp_mono wp_stores_sessionCall (fun _ m' hm' => ?_) fun _ _ h => h
      split
      · rw [wp_ite]
        split
        · exact wp_mono wp_stores_sessionCall (fun _ _ h => h.trans hm') fun _ _ h => h
        · exact hm'
      · exact hm'
    · trivial

/-- A SET that returns has put the value into RAM. -/
theorem inRam_applySet (hu : UserExists m username) :
    wp (applySet username key value none) (fun _ => InRam username key value) (fun _ _ => True) m := by
  obtain ⟨store, hstore⟩ := hu
  have hput : ∀ m', wp (do
      let store ← store.cacheSet key value
      putStore username (store.setExpiry key none)
      pure true : M Bool) (fun _ => InRam username key value) (fun _ _ => True) m' := by
    intro m'
    simp only [Store.cacheSet, putStore, wp_bind, wp_ite, wp_throw, wp_pure, wp_modify]
    split
    · trivial
    · refine ⟨(store.put key value).setExpiry key none, ?_, ?_, ?_⟩
      · rw [Dict.get?_set, if_pos rfl]
      · change (store.cache.insert key value).data.get? key = some value
        rw [LRUCache.get?_insert, if_pos rfl]
      · change (store.expiry.erase key).get? key = none
        rw [Dict.get?_erase, if_pos rfl]
  unfold applySet
  rw [wp_bind, wp_of_run_ok (run_eq_of_value? hstore), wp_bind, wp_get]
  dsimp only
  split
  · rw [wp_bind]
    exact wp_any (fun _ m' => hput m') fun _ _ => trivial
  · exact hput _

/-- After a SET that ran the key holds its value. -/
theorem liveWith_of_set (hv : entry.verb = .ok (.set key value none)) (hu : UserExists m entry.username)
    (hid : entry.request = some id) (hex : Executes m entry)
    (hr : value? (apply entry) m = some result) :
    LiveWith (after (apply entry) m) entry.username key value := by
  have hcommand : wp (do
      let result ← applyCommand entry
      recordSession entry.requestId result entry.index
      pure result : M Result) (fun _ => InRam entry.username key value) (fun _ _ => True) m := by
    unfold applyCommand Verb.run
    rw [hv, wp_bind]
    dsimp only
    rw [wp_bind]
    refine wp_mono (inRam_applySet hu) (fun b m' hm' => ?_) fun _ _ h => h
    rw [wp_pure, wp_bind]
    exact wp_mono (wp_recordSession_stores _ _) (fun _ _ h => inRam_of_stores hm' h) fun _ _ h => h
  have hrun := run_eq_of_value? hr
  rw [apply_executes hid hex] at hrun
  exact liveWith_of_inRam ((wp_of_run_ok hrun).mp hcommand)

end Machine

/-! ## There and back -/

/-- The submission was applied: its entry ran where the user exists, and what it
left under `key` is in the machine `m`, since no other write touched the key. -/
def Submitted (m : CacheStateMachine) (key command username requestId : String) (result : Result) :
    Prop :=
  ∃ entry id m₀, entry.command = .write command ∧ entry.username = username ∧
    entry.requestId = requestId ∧ entry.request = some id ∧ UserExists m₀ username ∧
    Executes m₀ entry ∧ value? (apply entry) m₀ = some result ∧
    ∀ value, LiveWith (after (apply entry) m₀) username key value → LiveWith m username key value

/-- What a read finds in the machine. -/
def ReadFrom (m : CacheStateMachine) (username key : String) (value : Option String) : Prop :=
  ∃ now, value? (getValue username key none now) m = some value

/-- The replies in the rounds came from servers that read the line as a user's. -/
def AnsweredBy (S : String → String → String → Result → Prop)
    (V : String → String → Option String → Prop) (username line : String) (rounds : List Round) :
    Prop :=
  ∀ r ∈ rounds, ∀ text, r.attempt = .reply text →
    ∃ (self : TCPServer) (conn : ClientConnection) (now : Int) (message : String),
      text = readLine message ∧
      Prog.Calls (Conversing (line ++ "\n") S V) (.send message) (self.turn conn now (.user username))

/-- The value comes back as it is: no white space around it, and a reply line
that the client does not take for something else. -/
def ComesBack (value : String) : Prop :=
  PyText.Bare value.toList ∧ value ≠ "NULL" ∧ startsWith "ERROR" value = false

section RoundTrip

variable {c c' : CacheClient} {m : CacheStateMachine} {username key value : String}
  {rounds pre post : List Round}

/-- The server keeps the value as it is exactly if no white space is around it. -/
theorem keptValue_eq : keptValue value = value ↔ PyText.Bare value.toList := by
  rw [← PyText.bare_iff]
  unfold keptValue
  constructor
  · intro h
    have := congrArg String.toList h
    rwa [String.toList_ofList] at this
  · intro h
    rw [h, String.ofList_toList]

/-- Cutting white space off puts no line break into a value. -/
theorem noBreak_keptValue (h : CacheClient.hasLineBreak value = false) :
    '\n' ∉ (keptValue value).toList ∧ '\r' ∉ (keptValue value).toList := by
  unfold CacheClient.hasLineBreak at h
  rw [Bool.or_eq_false_iff] at h
  have hsub : ∀ d, d ∈ (keptValue value).toList → d ∈ value.toList := by
    intro d hd
    unfold keptValue at hd
    rw [String.toList_ofList] at hd
    exact (List.rdropWhile_prefix _ _).subset ((List.dropWhile_suffix _).subset hd)
  constructor
  · intro hd
    have := List.contains_iff_mem.mpr (hsub _ hd)
    rw [h.1] at this
    cases this
  · intro hd
    have := List.contains_iff_mem.mpr (hsub _ hd)
    rw [h.2] at this
    cases this

/-- A reply without line breaks is read as it was sent. -/
theorem readLine_eq {message : String} (hn : '\n' ∉ message.toList) (hr : '\r' ∉ message.toList) :
    readLine message = message := by
  unfold readLine
  rw [List.takeWhile_eq_self_iff.mpr fun d hd => ?_]
  · have hno : message.toList.rdropWhile (· == '\r') = message.toList := by
      rw [List.rdropWhile_eq_self_iff]
      intro hne hlast
      exact hr (beq_iff_eq.mp hlast ▸ List.getLast_mem hne)
    rw [hno, String.ofList_toList]
  · rw [bne_iff_ne]
    rintro rfl
    exact hn hd

/-- A reply that is no error ends the loop of retries. -/
theorem final_of_startsWith {text : String} (h : startsWith "ERROR" text = false) : Final text := by
  have hlonger : ∀ start, "ERROR".toList <+: start.toList → startsWith start text = false := by
    intro start hstart
    rw [← Bool.not_eq_true]
    intro hs
    have hprefix := hstart.trans (List.isPrefixOf_iff_prefix.mp hs)
    rw [show startsWith "ERROR" text = true from List.isPrefixOf_iff_prefix.mpr hprefix] at h
    cases h
  refine ⟨hlonger _ (by decide), ?_⟩
  unfold retryablePrefixes
  rw [List.any_cons, List.any_cons, List.any_cons, List.any_nil, hlonger _ (by decide),
    hlonger _ (by decide), hlonger _ (by decide)]
  rfl

/-- Where `set` returns, a server has answered OK. -/
theorem ok_of_set (h : (c.set key value rounds).2 = some (.ok ())) :
    ∃ r ∈ rounds, r.attempt = .reply "OK" := by
  unfold CacheClient.set CacheClient.checked CacheClient.execute at h
  by_cases hmode : c.mode.isNone = true
  · rw [if_pos hmode] at h
    cases h
  · rw [if_neg hmode] at h
    by_cases hbreak : CacheClient.hasLineBreak s!"SET {key} {value}" = true
    · rw [if_pos hbreak] at h
      cases h
    · rw [if_neg hbreak] at h
      dsimp only at h
      cases ho : (CacheClient.withRetries { c with seq := c.seq + 1 } rounds).2 with
      | none =>
          rw [ho] at h
          cases h
      | some outcome =>
          rw [ho] at h
          cases outcome with
          | error e => cases h
          | ok reply =>
              have hok : (CacheClient.accept reply >>= CacheClient.expectOk) = .ok () :=
                Option.some.inj h
              have hreply : reply = "OK" := by
                unfold CacheClient.accept at hok
                split at hok
                · cases hok
                · by_contra hne
                  have : CacheClient.expectOk reply = .ok () := hok
                  unfold CacheClient.expectOk at this
                  rw [if_pos hne] at this
                  cases this
              subst hreply
              exact (reply_of_retry ho).1

/-- What `get` makes of the reply that its request returns. -/
theorem get_eq (hmode : c.mode.isSome) (hkey : Word key) (value : String) :
    (c.get key rounds).2 = some (.ok (some value)) ↔
      (CacheClient.withRetries { c with seq := c.seq + 1 } rounds).2 = some (.ok value) ∧
        startsWith "ERROR" value = false ∧ value ≠ "NULL" := by
  have hbreak : CacheClient.hasLineBreak s!"GET {key}" = false := by
    have hno : ∀ d, PyText.isSpace d = true → d ≠ ' ' → d ∉ (s!"GET {key}").toList := by
      intro d hd hne hmem
      have htext : (s!"GET {key}").toList = 'G' :: 'E' :: 'T' :: ' ' :: key.toList := by
        simp [toString_text]
      rw [htext] at hmem
      simp only [List.mem_cons] at hmem
      rcases hmem with rfl | rfl | rfl | rfl | hmem
      · cases hd
      · cases hd
      · cases hd
      · exact hne rfl
      · rw [hkey.noSpace d hmem] at hd
        cases hd
    unfold CacheClient.hasLineBreak
    rw [Bool.or_eq_false_iff, ← Bool.not_eq_true, ← Bool.not_eq_true, List.contains_iff_mem,
      List.contains_iff_mem]
    exact ⟨hno _ (by decide) (by decide), hno _ (by decide) (by decide)⟩
  unfold CacheClient.get CacheClient.checked CacheClient.execute
  rw [if_neg (by rw [Option.isNone_iff_eq_none]; exact Option.isSome_iff_ne_none.mp hmode),
    if_neg (by rw [hbreak]; exact Bool.false_ne_true)]
  dsimp only
  cases (CacheClient.withRetries { c with seq := c.seq + 1 } rounds).2 with
  | none => simp
  | some outcome =>
      cases outcome with
      | error e => simp [bind, Except.bind, Except.map]
      | ok reply =>
          have hreply : (Except.ok reply >>= CacheClient.accept) = CacheClient.accept reply := rfl
          rw [Option.map_some, Option.map_some, hreply]
          unfold CacheClient.accept
          by_cases he : startsWith "ERROR" reply = true
          · rw [if_pos he]
            constructor
            · intro h
              cases h
            · rintro ⟨heq, hno, -⟩
              cases heq
              rw [he] at hno
              cases hno
          · rw [if_neg he]
            rw [Bool.not_eq_true] at he
            by_cases hnull : reply = "NULL"
            · rw [Except.map, if_pos hnull]
              constructor
              · intro h
                cases h
              · rintro ⟨heq, -, hne⟩
                cases heq
                exact absurd hnull hne
            · rw [Except.map, if_neg hnull]
              constructor
              · intro h
                cases h
                exact ⟨rfl, he, hnull⟩
              · rintro ⟨heq, -, -⟩
                cases heq
                rfl

/-- Where `set` returned, its request was applied and no other write touched the
key: `get`, once a server answers it, returns exactly the value if and only if
the value comes back as it is. -/
theorem get_returns_value_iff (hmode : c'.mode.isSome) (hkey : Word key)
    (hlen : key.length ≤ maxKeyLength) (hbreak : CacheClient.hasLineBreak value = false)
    (hseq : (c.seq + 1).repr.length ≤ 18) (hseq' : (c'.seq + 1).repr.length ≤ 18)
    (hset : (c.set key value rounds).2 = some (.ok ()))
    (hserved : AnsweredBy (Submitted m key) (fun _ _ _ => True) username
      (c.line s!"SET {key} {value}") rounds)
    (hreply : GetsReply pre post)
    (hserved' : AnsweredBy (fun _ _ _ _ => True) (ReadFrom m) username (c'.line s!"GET {key}") post) :
    (c'.get key (pre ++ post)).2 = some (.ok (some value)) ↔ ComesBack value := by
  have hholds : LiveWith m username key (keptValue value) := by
    obtain ⟨r, hr, ha⟩ := ok_of_set hset
    obtain ⟨self, conn, now, message, hmessage, hcalls⟩ := hserved r hr _ ha
    obtain ⟨result, entry, id, m₀, hcommand, rfl, -, hid, hu, hex, hvalue, hlater⟩ :=
      Prog.always_calls (always_turn_set hseq hkey hlen) hcalls hmessage.symm
    refine hlater _ (liveWith_of_set ?_ hu hid hex hvalue)
    rw [LogEntry.verb, hcommand]
    exact parseVerb_set hkey _
  have hall : ∀ r ∈ post, ∀ t, r.attempt = .reply t → t = keptValue value := by
    intro r hr t ht
    obtain ⟨self, conn, now, message, rfl, hcalls⟩ := hserved' r hr t ht
    obtain ⟨v, ⟨now', hv⟩, rfl⟩ := Prog.always_calls (always_turn_get hseq' hkey) hcalls
    obtain rfl : some (keptValue value) = v := Option.some.inj ((hholds now').symm.trans hv)
    exact readLine_eq (noBreak_keptValue hbreak).1 (noBreak_keptValue hbreak).2
  rw [get_eq hmode hkey]
  constructor
  · rintro ⟨hrun, herror, hnull⟩
    obtain ⟨⟨r, hr, ha⟩, hfinal⟩ := reply_of_retry hrun
    have hpost : r ∈ post := by
      refine (List.mem_append.mp hr).resolve_left fun hpre => ?_
      rcases hreply.passing r hpre with ⟨p, hp | hp⟩ | ⟨t, ht, hnot⟩
      · cases ha.symm.trans hp
      · cases ha.symm.trans hp
      · cases ha.symm.trans ht
        exact hnot hfinal
    exact ⟨keptValue_eq.mp (hall r hpost _ ha).symm, hnull, herror⟩
  · rintro ⟨hbare, hnull, herror⟩
    rw [keptValue_eq.mpr hbare] at hall
    exact ⟨retry_of_getsReply hreply (final_of_startsWith herror) hall, herror, hnull⟩

end RoundTrip

/-! ### One client and one server -/

/-- The messages a thread sends when its calls are answered so. -/
def sent {α : Type} (answer : ∀ {β : Type}, ServerCall β → β) : Served α → List String
  | .done _ => []
  | .raise _ => []
  | .call (.send message) next => message :: sent answer (next ())
  | .call c next => sent answer (next (answer c))

/-- All calls it makes are among `q`. -/
def asksOnly {α : Type} (answer : ∀ {β : Type}, ServerCall β → β)
    (q : ∀ {β : Type}, ServerCall β → Bool) : Served α → Bool
  | .done _ => true
  | .raise _ => true
  | .call c next => q c && asksOnly answer q (next (answer c))

theorem calls_of_sent {α : Type} {ok : ∀ {β : Type}, ServerCall β → β → Prop}
    {answer : ∀ {β : Type}, ServerCall β → β} {q : ∀ {β : Type}, ServerCall β → Bool}
    (hok : ∀ {β : Type} (c : ServerCall β), q c = true → ok c (answer c)) {message : String}
    {p : Served α} (h : message ∈ sent answer p) (hq : asksOnly answer q p = true) :
    Prog.Calls ok (ServerCall.send message) p := by
  induction p with
  | done a => cases h
  | raise e => cases h
  | call c next ih =>
      obtain ⟨hc, hnext⟩ := Bool.and_eq_true_iff.mp hq
      cases c with
      | send m =>
          rcases List.mem_cons.mp h with rfl | h
          · exact .here
          · exact .later (hok (.send m) hc) (ih _ h hnext)
      | _ => exact .later (hok _ hc) (ih _ h hnext)

/-- A connection that reads `text`, with the answers of a cluster that stores
`held` under every key. -/
def answerWith (text : String) (held : Option String) : ∀ {β : Type}, ServerCall β → β
  | _, .readline => .line text
  | _, .send _ => ()
  | _, .submit _ _ _ => .ok (.bool true)
  | _, .readIndex => .ok ()
  | _, .addMember _ => .ok ()
  | _, .removeMember _ => .ok ()
  | _, .status => []
  | _, .getLeader => none
  | _, .members => []
  | _, .member _ => none
  | _, .userExists _ => .ok true
  | _, .verifyPassword _ _ => .ok true
  | _, .sessionResult _ => .ok .none
  | _, .get _ _ => .ok held
  | _, .has _ _ => .ok held.isSome
  | _, .ttl _ _ => .ok (-1)
  | _, .keys _ _ => .ok []
  | _, .makePassword password => password

theorem hex_digits :
    "0123456789abcdef".length = 16 ∧
      ∀ d ∈ "0123456789abcdef".toList, d ∈ "0123456789abcdef".toList :=
  ⟨rfl, fun _ h => h⟩

def zoesClient : CacheClient where
  nodes := ["h:1"]
  mode := some .login
  clientId := "0123456789abcdef"
  hex := hex_digits

/-- The same client after its first request. -/
def zoesNext : CacheClient := { zoesClient with seq := 1 }

def anyServer : TCPServer := ⟨false, none, Dict.empty⟩

def zoesSignup : LogEntry := ⟨1, 1, .write "SIGNUP h", "zoe", ""⟩

def zoesSet (value : String) : LogEntry :=
  ⟨1, 2, .write s!"SET k {value}", "zoe", "0123456789abcdef:1"⟩

/-- The machine with zoe's account. -/
def zoesMachine : CacheStateMachine := after (applyLog [zoesSignup]) ramMachine

theorem submitted_zoesSet {value command : String} (hcommand : command = s!"SET k {value}")
    (hvalue : value? (apply (zoesSet value)) zoesMachine = some (.bool true)) :
    Submitted (after (apply (zoesSet value)) zoesMachine) "k" command "zoe" "0123456789abcdef:1"
      (.bool true) := by
  have hid : (zoesSet value).request = some ⟨"0123456789abcdef", 1⟩ := by
    have h : (zoesSet "v").request = some ⟨"0123456789abcdef", 1⟩ := by decide
    exact h
  have huser : UserExists zoesMachine "zoe" := by
    have hsome : ((value? (getStore "zoe") zoesMachine).join).isSome = true := by decide
    obtain ⟨store, hstore⟩ := Option.isSome_iff_exists.mp hsome
    exact ⟨store, Option.join_eq_some_iff.mp hstore⟩
  refine ⟨zoesSet value, _, zoesMachine, by rw [hcommand]; rfl, rfl, rfl, hid, huser, fun id _ => ?_,
    hvalue, fun _ h => h⟩
  have hnone : zoesMachine.sessions = Dict.empty := by decide
  unfold Sessions.answerTo
  rw [hnone]
  rfl

/-- Zoe's SET or GET of `k`, and nothing else of the cluster's. -/
def zoesCalls (command : String) : ∀ {β : Type}, ServerCall β → Bool
  | _, .submit c username requestId =>
    c = command && username = "zoe" && requestId = "0123456789abcdef:1"
  | _, .get username key => username = "zoe" && key = "k"
  | _, _ => true

/-- The server's OK for zoe's SET. -/
theorem answered_set {value : String} (kept : String) {m : CacheStateMachine}
    (hsent : "OK" ∈ sent (answerWith (zoesClient.line s!"SET k {value}" ++ "\n") none)
      (anyServer.turn somebody 0 (.user "zoe")))
    (hcalls : asksOnly (answerWith (zoesClient.line s!"SET k {value}" ++ "\n") none)
      (zoesCalls s!"SET k {kept}") (anyServer.turn somebody 0 (.user "zoe")) = true)
    (hsubmit : Submitted m "k" s!"SET k {kept}" "zoe" "0123456789abcdef:1" (.bool true)) :
    AnsweredBy (Submitted m "k") (fun _ _ _ => True) "zoe" (zoesClient.line s!"SET k {value}")
      [⟨false, .reply "OK"⟩] := by
  intro r hr text htext
  obtain rfl := List.mem_singleton.mp hr
  cases htext
  refine ⟨anyServer, somebody, 0, "OK", by decide, calls_of_sent (fun c hc => ?_) hsent hcalls⟩
  cases c with
  | submit command username requestId =>
      simp only [zoesCalls, Bool.and_eq_true, decide_eq_true_eq] at hc
      obtain ⟨⟨rfl, rfl⟩, rfl⟩ := hc
      intro result heq
      cases heq
      exact hsubmit
  | readline => exact rfl
  | readIndex => exact rfl
  | get => exact ⟨_, rfl, trivial⟩
  | _ => exact trivial

/-- The server's reply to zoe's GET. -/
theorem answered_get {value : String} {m : CacheStateMachine} (hline : readLine value = value)
    (hsent : value ∈ sent (answerWith (zoesNext.line "GET k" ++ "\n") (some value))
      (anyServer.turn somebody 0 (.user "zoe")))
    (hcalls : asksOnly (answerWith (zoesNext.line "GET k" ++ "\n") (some value))
      (zoesCalls "") (anyServer.turn somebody 0 (.user "zoe")) = true)
    (hread : ReadFrom m "zoe" "k" (some value)) :
    AnsweredBy (fun _ _ _ _ => True) (ReadFrom m) "zoe" (zoesNext.line "GET k")
      [⟨false, .reply value⟩] := by
  intro r hr text htext
  obtain rfl := List.mem_singleton.mp hr
  cases htext
  refine ⟨anyServer, somebody, 0, value, hline.symm, calls_of_sent (fun c hc => ?_) hsent hcalls⟩
  cases c with
  | submit command username requestId => exact fun _ _ => trivial
  | readline => exact rfl
  | readIndex => exact rfl
  | get username key =>
      simp only [zoesCalls, Bool.and_eq_true, decide_eq_true_eq] at hc
      obtain ⟨rfl, rfl⟩ := hc
      exact ⟨_, rfl, hread⟩
  | _ => exact trivial

/-- An election was under way when the first attempt was made. -/
def electionFirst : List Round := [⟨false, .reply noLeaderMessage⟩]

theorem getsReply_electionFirst (value : String) : GetsReply electionFirst [⟨false, .reply value⟩] where
  inTime i s h := by
    rcases i with _ | _ | i
    · exact Or.inl rfl
    · cases h
      exact Or.inr rfl
    · cases h
  passing s hs := by
    obtain rfl := List.mem_singleton.mp hs
    exact Or.inr ⟨_, rfl, fun hf => absurd hf.2 (by decide)⟩
  reply := ⟨_, [], value, rfl, rfl⟩

theorem word_k : Word "k" := ⟨by decide, noSpace_of_all (by decide)⟩

/-- A value of one word comes back. -/
theorem get_returns_value_iff_word :
    (zoesNext.get "k" (electionFirst ++ [⟨false, .reply "v"⟩])).2 = some (.ok (some "v")) ↔ ComesBack "v" :=
  @get_returns_value_iff zoesClient zoesNext (after (apply (zoesSet "v")) zoesMachine) "zoe" "k" "v"
    [⟨false, .reply "OK"⟩] electionFirst _ rfl word_k (by decide) (by decide)
    (by decide) (by decide) (by decide)
    (answered_set "v" (by decide) (by decide)
      (submitted_zoesSet rfl (by decide)))
    (getsReply_electionFirst "v")
    (answered_get (by decide) (by decide) (by decide) ⟨0, by decide⟩)

/-- The value NULL is stored, and `get` says that there is none. -/
theorem null_does_not_come_back :
    ¬ ∀ (c c' : CacheClient) (m : CacheStateMachine) (username key value : String)
      (rounds pre post : List Round), c'.mode.isSome → Word key → key.length ≤ maxKeyLength →
        value ≠ "" → CacheClient.hasLineBreak value = false →
        (c.seq + 1).repr.length ≤ 18 → (c'.seq + 1).repr.length ≤ 18 →
        (c.set key value rounds).2 = some (.ok ()) →
        AnsweredBy (Submitted m key) (fun _ _ _ => True) username (c.line s!"SET {key} {value}")
          rounds →
        GetsReply pre post →
        AnsweredBy (fun _ _ _ _ => True) (ReadFrom m) username (c'.line s!"GET {key}") post →
        (c'.get key (pre ++ post)).2 = some (.ok (some value)) := by
  intro h
  have hget := h zoesClient zoesNext (after (apply (zoesSet "NULL")) zoesMachine) "zoe" "k" "NULL"
    [⟨false, .reply "OK"⟩] electionFirst [⟨false, .reply "NULL"⟩] rfl word_k (by decide) (by decide)
    (by decide) (by decide) (by decide) (by decide)
    (answered_set "NULL" (by decide) (by decide)
      (submitted_zoesSet rfl (by decide)))
    (getsReply_electionFirst "NULL")
    (answered_get (by decide) (by decide) (by decide) ⟨0, by decide⟩)
  revert hget
  decide

end KvCache
