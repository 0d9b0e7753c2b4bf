import KvCache.CacheClient
import KvCache.Protocol

/-!
# One reply for each line

`server/tcp_server.py` answers each line of a client with one line of its
own, and `client/cli.py` reads one line after each that it sends. `oneReply`
is this protocol for the thread of a connection: it reads when nothing is
owed, and owes one line from then on.

`Conversation` is a connection over all its lines, with the rest of the
server answering as it likes, within `Unbroken`. Each handler follows the
protocol (`Answers`), so between two reads a thread sends exactly one line, and
the induction over the conversation is about the thread that waits
(`WillAnswer`) and about the lines answered so far. The client never looks at
which line a reply belongs to: it takes the next one (`CacheClient.requests`),
and that is the right one as long as no line went unanswered
(`requests_conversation`). A blank line in a session does go unanswered
(`empty_command_unanswered`): whoever reads on takes the next reply for its.
-/

namespace KvCache

open Interaction

/-! ## Texts of one line -/

def OneLine (text : String) : Prop := '\n' ∉ text.toList

instance : DecidablePred OneLine := fun text => inferInstanceAs (Decidable ('\n' ∉ text.toList))

@[simp] theorem oneLine_append {a b : String} : OneLine (a ++ b) ↔ OneLine a ∧ OneLine b := by
  simp [OneLine, not_or]

theorem oneLine_ofList {l : List Char} : OneLine (String.ofList l) ↔ '\n' ∉ l := by
  rw [OneLine, String.toList_ofList]

/-- A literal, which is checked character by character. -/
theorem literal {l : List Char} (h : '\n' ∉ l) : OneLine (String.ofList l) := oneLine_ofList.mpr h

theorem oneLine_intercalate {l : List String} (h : ∀ t ∈ l, OneLine t) :
    OneLine (" ".intercalate l) := by
  induction l with
  | nil => decide
  | cons a l ih =>
      cases l with
      | nil =>
          rw [String.intercalate_singleton]
          exact h a (List.mem_singleton_self a)
      | cons b l =>
          rw [String.intercalate_cons_cons, oneLine_append, oneLine_append]
          have hrest := ih fun t ht => h t (List.mem_cons_of_mem a ht)
          exact ⟨⟨h a List.mem_cons_self, literal (by decide)⟩, hrest⟩

theorem oneLine_nat (n : Nat) : OneLine n.repr := fun h =>
  absurd (PyText.isDigit_of_mem_repr n _ h) (by decide)

theorem oneLine_int (n : Int) : OneLine n.repr := by
  cases n with
  | ofNat n => exact oneLine_nat n
  | negSucc n => exact oneLine_append.mpr ⟨literal (by decide), oneLine_nat _⟩

/-- A text around a number. -/
theorem oneLine_number {a b : String} (n : Nat) (ha : OneLine a) (hb : OneLine b) :
    OneLine (a ++ n.repr ++ b) :=
  oneLine_append.mpr ⟨oneLine_append.mpr ⟨ha, oneLine_nat n⟩, hb⟩

theorem notMem_of_isdigit {l : List Char} (h : PyText.isdigit l = true) : '\n' ∉ l := by
  intro hm
  simp only [PyText.isdigit, Bool.and_eq_true, List.all_eq_true] at h
  exact absurd (h.2 _ hm) (by decide)

/-! ## The protocol -/

/-- The text of an error is one line, and a value is in `P`. -/
def UnbrokenAnswer {α : Type} (P : α → Prop) : Except ServerError α → Prop
  | .ok a => P a
  | .error e => OneLine e.text

/-- What the rest of the server may answer: its texts are single lines, and
no account has an empty name. -/
def Unbroken : ∀ {β : Type}, ServerCall β → β → Prop
  | _, .submit _ _ _, r => UnbrokenAnswer (fun _ => True) r
  | _, .readIndex, r => UnbrokenAnswer (fun _ => True) r
  | _, .addMember _, r => UnbrokenAnswer (fun _ => True) r
  | _, .removeMember _, r => UnbrokenAnswer (fun _ => True) r
  | _, .status, items => ∀ item ∈ items, OneLine item.1 ∧ OneLine item.2
  | _, .getLeader, leader => ∀ id ∈ leader, OneLine id
  | _, .members, ms => ∀ m ∈ ms,
      OneLine m.nodeId ∧ OneLine m.clientAddress ∧ OneLine m.raftAddress
  | _, .member _, known => ∀ m ∈ known, OneLine m.clientAddress
  | _, .userExists username, r => UnbrokenAnswer (fun found => found = true → username ≠ "") r
  | _, .verifyPassword _ _, r => UnbrokenAnswer (fun _ => True) r
  | _, .sessionResult _, r => UnbrokenAnswer (fun _ => True) r
  | _, .get _ _, r => UnbrokenAnswer (fun value => ∀ v ∈ value, OneLine v) r
  | _, .has _ _, r => UnbrokenAnswer (fun _ => True) r
  | _, .ttl _ _, r => UnbrokenAnswer (fun _ => True) r
  | _, .keys _ _, r => UnbrokenAnswer (fun keys => ∀ k ∈ keys, OneLine k) r
  | _, _, _ => True

/-- Does the client wait for a line? -/
inductive Turn where
  | answered
  | owing

/-- A line is read when none is owed; a line is sent when one is owed. -/
def oneReply : Protocol ServerCall Turn where
  allows
    | .readline, s, Q => s = .answered ∧
        ∀ text : String, OneLine (String.ofList (PyText.strip text.toList)) → Q (.line text) .owing
    | .send message, s, Q => s = .owing ∧ OneLine message ∧ Q () .answered
    | c, s, Q => ∀ r, Unbroken c r → Q r s
  mono {_ c _ _ _} hQ h := by
    cases c with
    | readline => exact ⟨h.1, fun text ht => hQ _ _ (h.2 text ht)⟩
    | send message => exact ⟨h.1, h.2.1, hQ _ _ h.2.2⟩
    | _ => exact fun r hr => hQ r _ (h r hr)

section Rules

variable {α β : Type} {Q : α → Turn → Prop} {R : ServerError → Turn → Prop} {s : Turn}

theorem follows_send {Q : Unit → Turn → Prop} {message : String} (h : OneLine message)
    (hQ : Q () .answered) : (send message).Follows oneReply Q R .owing :=
  ⟨rfl, h, hQ⟩

/-- The call is a question, answered by a value in `P` or by an exception. -/
def Question (c : ServerCall (Except ServerError β)) (P : β → Prop) : Prop :=
  ∀ s Q, oneReply.allows c s Q ↔ ∀ r, UnbrokenAnswer P r → Q r s

theorem follows_question {c : ServerCall (Except ServerError β)} {P : β → Prop}
    {f : β → Served α} (hc : Question c P) (hf : ∀ a, P a → (f a).Follows oneReply Q R s)
    (hR : ∀ e, OneLine e.text → R e s) : (Prog.askOrRaise c >>= f).Follows oneReply Q R s := by
  refine Prog.follows_bind (Prog.follows_askOrRaise ((hc _ _).mpr fun r hr => ?_))
  refine ⟨?_, ?_⟩
  · rintro a rfl
    exact hf a hr
  · rintro e rfl
    exact hR e hr

/-! ## What the handlers share -/

theorem follows_tell {answer : α} {e : ServerError} (he : OneLine e.text) (hQ : Q answer .answered)
    (hR : R e .owing) : (TCPServer.tellFailure answer e).Follows oneReply Q R .owing := by
  cases e with
  | notLeader leaderId => exact Prog.follows_bind (follows_send (literal (by decide)) hQ)
  | proposal message =>
      exact Prog.follows_bind (follows_send (oneLine_append.mpr ⟨literal (by decide), he⟩) hQ)
  | configChange message => exact hR
  | other message => exact hR

variable {conn : ClientConnection} {self : TCPServer} {text : String}

/-- A line that ends the request. -/
theorem follows_refuse {message : String} {answer : α} (h : OneLine message)
    (hQ : Q answer .answered) :
    (do
      send message
      pure answer : Served α).Follows oneReply Q R .owing :=
  Prog.follows_bind (follows_send h hQ)

/-- The number is written, or the request fails. -/
theorem follows_strOfInt {n : Int} {f : String → Served α}
    (hf : (f n.repr).Follows oneReply Q R s) (hR : ∀ e, OneLine e.text → R e s) :
    (strOfInt n >>= f).Follows oneReply Q R s := by
  refine Prog.follows_bind ?_
  unfold strOfInt
  split
  · exact hf
  · refine hR _ (oneLine_append.mpr ⟨?_, literal (by decide)⟩)
    exact oneLine_number PyText.maxStrDigits (literal (by decide)) (literal (by decide))

theorem follows_submit {username command : String} {tag : Option String}
    {f : Option Result → Served α} (hsome : ∀ r, (f (some r)).Follows oneReply Q R .owing)
    (hnone : (f none).Follows oneReply Q R .answered) (hR : ∀ e, OneLine e.text → R e .owing) :
    (TCPServer.submit conn username command tag >>= f).Follows oneReply Q R .owing := by
  have hsend : ∀ requestId, (tryCatch (do
      let result ← Prog.askOrRaise (.submit command username requestId)
      pure (some result)) (TCPServer.tellFailure none)).Follows oneReply
        (fun r t => (f r).Follows oneReply Q R t) R .owing := fun requestId =>
    Prog.follows_tryCatch (follows_question (fun _ _ => Iff.rfl) (fun r _ => hsome r)
      fun e he => follows_tell he hnone (hR e he))
  refine Prog.follows_bind ?_
  unfold TCPServer.submit
  cases tag with
  | some requestId => exact hsend requestId
  | none =>
      refine Prog.follows_bind ?_
      exact follows_strOfInt ((Prog.follows_pure _).mpr (hsend _)) hR

theorem follows_barrier {f : Bool → Served α} (hgo : (f true).Follows oneReply Q R .owing)
    (hstop : (f false).Follows oneReply Q R .answered) (hR : ∀ e, OneLine e.text → R e .owing) :
    (self.readBarrier >>= f).Follows oneReply Q R .owing := by
  refine Prog.follows_bind ?_
  unfold TCPServer.readBarrier
  split
  · exact hgo
  · refine Prog.follows_tryCatch ?_
    exact follows_question (fun _ _ => Iff.rfl) (fun _ _ => hgo)
      fun e he => follows_tell he hstop (hR e he)

theorem follows_validKey {f : Bool → Served α} (hok : (f true).Follows oneReply Q R .owing)
    (hlong : (f false).Follows oneReply Q R .answered) :
    (validKey text >>= f).Follows oneReply Q R .owing := by
  refine Prog.follows_bind ?_
  unfold validKey
  split
  · refine Prog.follows_bind ?_
    refine follows_send ?_ hlong
    exact oneLine_number maxKeyLength (literal (by decide)) (literal (by decide))
  · exact hok

theorem follows_intOfDigits {f : Int → Served α} (hd : PyText.isdigit text.toList = true)
    (hf : ∀ n, (f n).Follows oneReply Q R s) (hR : ∀ e, OneLine e.text → R e s) :
    (intOfDigits text >>= f).Follows oneReply Q R s := by
  refine Prog.follows_bind ?_
  unfold intOfDigits
  split
  · exact hf _
  · dsimp only
    split
    · refine hR _ (oneLine_append.mpr ⟨oneLine_append.mpr ⟨?_, ?_⟩, literal (by decide)⟩)
      · exact oneLine_number PyText.maxStrDigits (literal (by decide)) (literal (by decide))
      · exact oneLine_number _ (literal (by decide)) (literal (by decide))
    · refine hR _ (oneLine_append.mpr ⟨literal (by decide), oneLine_ofList.mpr fun h => ?_⟩)
      have hmem := List.mem_of_mem_take h
      simp [notMem_of_isdigit hd] at hmem

theorem follows_seconds {f : Option Int → Served α}
    (hf : ∀ n, (f n).Follows oneReply Q R s) (hR : ∀ e, OneLine e.text → R e s) :
    (seconds text >>= f).Follows oneReply Q R s := by
  refine Prog.follows_bind ?_
  unfold seconds
  split
  · next hd => exact follows_intOfDigits hd (fun n => hf _) hR
  · exact hf none

theorem follows_isAddress {f : Bool → Served α}
    (hf : ∀ b, (f b).Follows oneReply Q R s) (hR : ∀ e, OneLine e.text → R e s) :
    (isAddress text >>= f).Follows oneReply Q R s := by
  refine Prog.follows_bind ?_
  unfold isAddress
  generalize PyText.rpartition ':' text.toList = parts
  obtain ⟨host, port⟩ := parts
  dsimp only
  split
  · next hd =>
      have hport : PyText.isdigit (String.ofList port).toList = true := by
        rw [String.toList_ofList]
        exact hd.2
      refine follows_intOfDigits hport (fun n => ?_) hR
      exact (Prog.follows_pure _).mpr (hf _)
  · exact hf false

/-! ## The handlers -/

/-- One line is sent, or an exception leaves before any is. -/
def Answers (p : Served Unit) : Prop :=
  p.Follows oneReply (fun _ s => s = .answered) (fun e s => s = .owing ∧ OneLine e.text) .owing

theorem answers_send {message : String} (h : OneLine message) : Answers (send message) :=
  follows_send h rfl

theorem answers_pick {b : Bool} {x y : String} (hx : OneLine x) (hy : OneLine y) :
    Answers (send (if b then x else y)) := by
  cases b
  · exact answers_send hy
  · exact answers_send hx

theorem raised {e : ServerError} (he : OneLine e.text) : Turn.owing = .owing ∧ OneLine e.text :=
  ⟨rfl, he⟩

theorem answers_submit {username command : String} {tag : Option String}
    {f : Option Result → Served Unit} (hsome : ∀ r, Answers (f (some r)))
    (hnone : f none = pure ()) :
    Answers (TCPServer.submit conn username command tag >>= f) :=
  follows_submit hsome (by rw [hnone, Prog.follows_pure]) fun _ => raised

/-- A read behind the barrier. -/
theorem answers_read {p : Served Unit} (hp : Answers p) :
    Answers (do if ← self.readBarrier then p) :=
  follows_barrier hp rfl fun _ => raised

/-- A command of one argument. -/
theorem answers_word {args usage : String} {f : String → Served Unit} (hf : ∀ key, Answers (f key))
    (hu : OneLine usage) : Answers (match splitWords args with
      | [key] => f key
      | _ => send usage) := by
  split
  · exact hf _
  · exact answers_send hu

variable {username args : String} {tag : Option String} {now : Int}

theorem answers_set : Answers (TCPServer.cmdSet conn username args tag) := by
  unfold TCPServer.cmdSet
  split
  · exact follows_validKey (answers_submit (fun _ => answers_send (literal (by decide))) rfl) rfl
  · exact answers_send (literal (by decide))

theorem answers_setex : Answers (TCPServer.cmdSetex conn now username args tag) := by
  have husage := oneLine_number maxTtlSeconds (a := "ERROR: Usage: SETEX <key> <seconds 1..")
    (b := "> <value>") (literal (by decide)) (literal (by decide))
  unfold TCPServer.cmdSetex
  dsimp only
  split
  · refine follows_seconds (fun secs => ?_) fun _ => raised
    cases secs with
    | none => exact answers_send husage
    | some secs =>
        have hok : Answers (send "OK") := answers_send (literal (by decide))
        refine follows_validKey (follows_strOfInt ?_ fun _ => raised) rfl
        exact answers_submit (fun _ => hok) rfl
  · exact answers_send husage

theorem answers_get : Answers (self.cmdGet username args tag) := by
  unfold TCPServer.cmdGet
  refine answers_word (fun key => answers_read ?_) (literal (by decide))
  refine follows_question (fun _ _ => Iff.rfl) (fun value hv => answers_send ?_) fun _ => raised
  cases value with
  | none => decide
  | some v => exact hv v rfl

theorem answers_has : Answers (self.cmdHas username args tag) := by
  unfold TCPServer.cmdHas
  refine answers_word (fun key => answers_read ?_) (literal (by decide))
  exact follows_question (P := fun _ => True) (fun _ _ => Iff.rfl)
    (fun held _ => answers_pick (literal (by decide)) (literal (by decide))) fun _ => raised

theorem answers_delete : Answers (TCPServer.cmdDelete conn now username args tag) := by
  unfold TCPServer.cmdDelete
  refine answers_word (fun key => follows_strOfInt ?_ fun _ => raised) (literal (by decide))
  exact answers_submit (fun existed => answers_pick (literal (by decide)) (literal (by decide))) rfl

theorem answers_expire : Answers (TCPServer.cmdExpire conn now username args tag) := by
  have husage := oneLine_number maxTtlSeconds (a := "ERROR: Usage: EXPIRE <key> <seconds 1..")
    (b := ">") (literal (by decide)) (literal (by decide))
  unfold TCPServer.cmdExpire
  dsimp only
  split
  · refine follows_seconds (fun secs => ?_) fun _ => raised
    cases secs with
    | none => exact answers_send husage
    | some secs =>
        refine follows_strOfInt (follows_strOfInt ?_ fun _ => raised) fun _ => raised
        refine answers_submit (fun done => ?_) rfl
        exact answers_pick (literal (by decide)) (literal (by decide))
  · exact answers_send husage

theorem answers_persist : Answers (TCPServer.cmdPersist conn now username args tag) := by
  unfold TCPServer.cmdPersist
  refine answers_word (fun key => follows_strOfInt ?_ fun _ => raised) (literal (by decide))
  refine answers_submit (fun done => ?_) rfl
  exact answers_pick (literal (by decide)) (literal (by decide))

theorem answers_ttl : Answers (self.cmdTtl username args tag) := by
  unfold TCPServer.cmdTtl
  refine answers_word (fun key => answers_read ?_) (literal (by decide))
  exact follows_question (P := fun _ => True) (fun _ _ => Iff.rfl)
    (fun left _ => follows_strOfInt (answers_send (oneLine_int left)) fun _ => raised)
    fun _ => raised

theorem answers_keys : Answers (self.cmdKeys username args tag) := by
  unfold TCPServer.cmdKeys
  dsimp only
  split
  · exact answers_send (literal (by decide))
  · refine answers_read ?_
    refine follows_question (fun _ _ => Iff.rfl) (fun keys hk => answers_send ?_) fun _ => raised
    refine oneLine_intercalate fun t ht => ?_
    rcases List.mem_cons.mp ht with rfl | ht
    · exact oneLine_nat _
    · exact hk t ht

theorem answers_info : Answers TCPServer.cmdInfo := by
  unfold TCPServer.cmdInfo
  refine Prog.follows_bind fun items hitems => answers_send (oneLine_intercalate fun t ht => ?_)
  obtain ⟨item, hitem, rfl⟩ := List.mem_map.mp ht
  obtain ⟨hk, hv⟩ := hitems item hitem
  exact oneLine_append.mpr ⟨oneLine_append.mpr ⟨hk, by decide⟩, hv⟩

theorem oneLine_orDash {text : String} (h : OneLine text) : OneLine (TCPServer.orDash text) := by
  unfold TCPServer.orDash
  split
  · decide
  · exact h

/-- The addresses of the configuration are single lines. -/
def UnbrokenAddresses (self : TCPServer) : Prop :=
  ∀ id, ∀ address ∈ self.clientAddresses.get? id, OneLine address

theorem oneLine_address (h : UnbrokenAddresses self) {m : Member} (hm : OneLine m.clientAddress) :
    OneLine (if m.clientAddress = "" then (self.clientAddresses.get? m.nodeId).getD ""
      else m.clientAddress) := by
  split
  · cases hget : self.clientAddresses.get? m.nodeId with
    | none => decide
    | some address => exact h _ _ hget
  · exact hm

theorem answers_members (h : UnbrokenAddresses self) : Answers self.cmdMembers := by
  unfold TCPServer.cmdMembers
  refine Prog.follows_bind fun leader hleader => ?_
  refine Prog.follows_bind fun ms hms => answers_send (oneLine_intercalate fun t ht => ?_)
  rcases List.mem_cons.mp ht with rfl | ht
  · refine oneLine_append.mpr ⟨literal (by decide), oneLine_orDash ?_⟩
    cases leader with
    | none => decide
    | some id => exact hleader id rfl
  · obtain ⟨m, hm, rfl⟩ := List.mem_map.mp ht
    obtain ⟨hid, hclient, hraft⟩ := hms m hm
    have haddress := oneLine_orDash (oneLine_address h hclient)
    refine oneLine_append.mpr ⟨oneLine_append.mpr ⟨oneLine_append.mpr ⟨?_, haddress⟩, ?_⟩, ?_⟩
    · exact oneLine_append.mpr ⟨hid, by decide⟩
    · decide
    · exact oneLine_orDash hraft

theorem follows_redirect {known : Option String} : (∀ address ∈ known, OneLine address) →
    (match known with
      | some address =>
        pure (if address = "" then noLeaderMessage else s!"ERROR: NOT_LEADER {address}")
      | none => pure noLeaderMessage : Served String).Follows oneReply
        (fun message s => s = .owing ∧ OneLine message) R .owing := by
  intro h
  cases known with
  | none => exact ⟨rfl, literal (by decide)⟩
  | some address =>
      dsimp only
      rw [Prog.follows_pure]
      split
      · exact ⟨rfl, literal (by decide)⟩
      · exact ⟨rfl, oneLine_append.mpr ⟨literal (by decide), h address rfl⟩⟩

/-- The address told to a client is the leader's own or the configured one. -/
theorem oneLine_known (h : UnbrokenAddresses self) {id : NodeId} {known : Option Member}
    (hknown : ∀ m ∈ known, OneLine m.clientAddress) :
    ∀ address ∈ ((known.map (·.clientAddress)).filter (· ≠ "")).or (self.clientAddresses.get? id),
      OneLine address := by
  intro address haddress
  rcases Option.or_eq_some_iff.mp haddress with hm | ⟨-, hget⟩
  · obtain ⟨hm, -⟩ := Option.filter_eq_some_iff.mp hm
    obtain ⟨m, hmem, rfl⟩ := Option.map_eq_some_iff.mp hm
    exact hknown m hmem
  · exact h id address hget

theorem follows_notLeader (h : UnbrokenAddresses self) (leader : Option NodeId) :
    (self.notLeaderMessage leader).Follows oneReply
      (fun message s => s = .owing ∧ OneLine message) R .owing := by
  unfold TCPServer.notLeaderMessage
  cases leader with
  | none => exact ⟨rfl, literal (by decide)⟩
  | some id =>
      dsimp only
      split
      · exact follows_redirect (oneLine_known h fun _ hm => absurd hm nofun)
      · exact Prog.follows_bind fun known hknown => follows_redirect (oneLine_known h hknown)

theorem answers_change (h : UnbrokenAddresses self) {change : ServerCall (Except ServerError Unit)}
    (hc : Question change fun _ => True) : Answers (self.membershipChange change) := by
  refine Prog.follows_tryCatch ?_
  refine follows_question hc (fun _ _ => follows_send (literal (by decide)) rfl) fun e he => ?_
  have htell : ∀ leader : Option NodeId, Answers (do
      let message ← self.notLeaderMessage leader
      send message) := fun leader =>
    Prog.follows_bind_of (follows_notLeader h leader) (by
      rintro message s ⟨rfl, hm⟩
      exact answers_send hm) fun _ _ he => he
  cases e with
  | notLeader leaderId =>
      dsimp only
      split
      · exact htell _
      · exact Prog.follows_bind fun leader _ => htell leader
  | configChange message => exact answers_send (oneLine_append.mpr ⟨literal (by decide), he⟩)
  | proposal message => exact answers_send (oneLine_append.mpr ⟨literal (by decide), he⟩)
  | other message => exact raised he

theorem answers_addNode (h : UnbrokenAddresses self) : Answers (self.adminAddNode args tag) := by
  unfold TCPServer.adminAddNode
  dsimp only
  split
  · split
    · exact answers_send (literal (by decide))
    · refine follows_isAddress (fun b => ?_) fun _ => raised
      cases b with
      | false => exact answers_send (literal (by decide))
      | true =>
          refine follows_isAddress (fun b => ?_) fun _ => raised
          cases b with
          | false => exact answers_send (literal (by decide))
          | true => exact answers_change h fun _ _ => Iff.rfl
  · exact answers_send (literal (by decide))

theorem answers_removeNode (h : UnbrokenAddresses self) :
    Answers (self.adminRemoveNode args tag) := by
  unfold TCPServer.adminRemoveNode
  exact answers_word (fun _ => answers_change h fun _ _ => Iff.rfl) (literal (by decide))

theorem answers_importUser : Answers (TCPServer.adminImportUser conn args tag) := by
  unfold TCPServer.adminImportUser
  dsimp only
  split
  · split
    · exact answers_send (literal (by decide))
    · refine answers_submit (fun created => ?_) rfl
      exact answers_pick (literal (by decide)) (literal (by decide))
  · exact answers_send (literal (by decide))

theorem answers_importSet : Answers (TCPServer.adminImportSet conn now args tag) := by
  unfold TCPServer.adminImportSet
  dsimp only
  split
  · next username key expireAt value hargs =>
      by_cases hd : PyText.isdigit expireAt.toList = true
      · rw [if_neg (by simp [hd])]
        refine follows_validKey (follows_intOfDigits hd (fun n => ?_) fun _ => raised) rfl
        split
        · exact answers_send (literal (by decide))
        · refine answers_submit (fun stored => ?_) rfl
          exact answers_pick (literal (by decide)) (literal (by decide))
      · rw [if_pos (by simp [hd])]
        exact answers_send (literal (by decide))
  · exact answers_send (literal (by decide))

/-! ## A line of a session -/

theorem answers_userHandlers (h : UnbrokenAddresses self) :
    ∀ entry ∈ self.userHandlers conn now username,
      OneLine entry.1 ∧ ∀ args tag, Answers (entry.2 args tag) := by
  intro entry hentry
  simp only [TCPServer.userHandlers, List.mem_cons, List.not_mem_nil, or_false] at hentry
  rcases hentry with rfl | rfl | rfl | rfl | rfl | rfl | rfl | rfl | rfl | rfl | rfl <;>
    dsimp only <;> refine ⟨literal (by decide), fun args tag => ?_⟩
  · exact answers_set
  · exact answers_setex
  · exact answers_get
  · exact answers_has
  · exact answers_delete
  · exact answers_expire
  · exact answers_persist
  · exact answers_ttl
  · exact answers_keys
  · exact answers_info
  · exact answers_members h

theorem answers_adminHandlers (h : UnbrokenAddresses self) :
    ∀ entry ∈ self.adminHandlers conn now,
      OneLine entry.1 ∧ ∀ args tag, Answers (entry.2 args tag) := by
  intro entry hentry
  simp only [TCPServer.adminHandlers, List.mem_cons, List.not_mem_nil, or_false] at hentry
  rcases hentry with rfl | rfl | rfl | rfl | rfl | rfl <;>
    dsimp only <;> refine ⟨literal (by decide), fun args tag => ?_⟩
  · exact answers_addNode h
  · exact answers_removeNode h
  · exact answers_importUser
  · exact answers_importSet
  · exact answers_members h
  · exact answers_info

/-- Nothing is left of the line without its tag. -/
def Blank (line : String) : Prop :=
  (splitTag line).1 ≠ .badTag ∧ splitUpTo 1 (splitTag line).2 = []

instance : DecidablePred Blank := fun line =>
  inferInstanceAs (Decidable ((splitTag line).1 ≠ .badTag ∧ splitUpTo 1 (splitTag line).2 = []))

theorem follows_dispatch {handlers : List (String × TCPServer.Handler)} {usage line : String}
    (hh : ∀ entry ∈ handlers, OneLine entry.1 ∧ ∀ args tag, Answers (entry.2 args tag))
    (hu : OneLine usage) (hline : ¬ Blank line) :
    (TCPServer.dispatch handlers usage line).Follows oneReply (fun _ s => s = .answered) R
      .owing := by
  unfold Blank at hline
  unfold TCPServer.dispatch
  generalize splitTag line = cut at hline
  obtain ⟨tag, raw⟩ := cut
  dsimp only at hline ⊢
  split
  · exact follows_refuse (literal (by decide)) rfl
  · next hbad =>
      split
      · next hnil => exact absurd ⟨hbad, hnil⟩ hline
      · next first rest hsplit =>
          split
          · exact follows_refuse (literal (by decide)) rfl
          · split
            · exact follows_refuse (oneLine_append.mpr ⟨literal (by decide), hu⟩) rfl
            · next handler hlookup =>
                obtain ⟨hname, hanswers⟩ := hh _ (mem_of_lookup hlookup)
                refine Prog.follows_bind (Prog.follows_tryCatch ?_)
                refine Prog.follows_mono (hanswers _ _) (fun _ _ h => h) ?_
                rintro e s ⟨rfl, he⟩
                refine follows_send (oneLine_append.mpr ⟨oneLine_append.mpr ⟨?_, ?_⟩, he⟩) rfl
                · exact oneLine_append.mpr ⟨literal (by decide), hname⟩
                · exact literal (by decide)

/-! ## The prompts -/

theorem follows_recv {f : Option String → Served α}
    (hf : ∀ line, OneLine line → (f (some line)).Follows oneReply Q R .owing) :
    (recv >>= f).Follows oneReply Q R .answered :=
  Prog.follows_bind (Prog.follows_bind ⟨rfl, fun _ ht => hf _ ht⟩)

theorem follows_prompt {message : String} {f : Option String → Served α} (h : OneLine message)
    (hf : ∀ line, OneLine line → (f (some line)).Follows oneReply Q R .owing) :
    (do
      send message
      let line ← recv
      f line).Follows oneReply Q R .owing :=
  Prog.follows_bind (follows_send h (follows_recv hf))

/-- A line is owed to who got through, and to nobody else. -/
def Welcomed (principal : Option String) (s : Turn) : Prop :=
  match principal with
  | none => s = .answered
  | some username => username ≠ "" ∧ OneLine username ∧ s = .owing

theorem follows_enter {principal : Option String} (h : Welcomed principal s) :
    (TCPServer.enter principal).Follows oneReply (fun _ s => s = .answered) R s := by
  unfold TCPServer.enter
  cases principal with
  | none => exact h
  | some username =>
      obtain ⟨hne, hline, rfl⟩ := h
      rw [Option.filter_some_pos (by simpa using hne)]
      exact follows_refuse (oneLine_append.mpr ⟨literal (by decide), hline⟩) rfl

variable {T : ServerError → Turn → Prop} (hT : ∀ e s, T e s)

include hT

theorem follows_password {username password : String} (hne : username ≠ "")
    (hline : OneLine username) :
    (do
      if ← Prog.askOrRaise (.verifyPassword username password) then pure (some username)
      else
        send "ERROR: Wrong password"
        pure none : Served (Option String)).Follows oneReply Welcomed T .owing := by
  refine follows_question (P := fun _ => True) (fun _ _ => Iff.rfl) (fun verified _ => ?_)
    fun _ _ => hT _ _
  cases verified with
  | false => exact follows_refuse (literal (by decide)) rfl
  | true => exact ⟨hne, hline, rfl⟩

theorem follows_login : self.doLogin.Follows oneReply Welcomed T .owing := by
  refine follows_prompt (literal (by decide)) fun username hline => ?_
  refine follows_question (fun _ _ => Iff.rfl) (fun found _ => ?_) fun _ _ => hT _ _
  have hgo : (do
      if !(← Prog.askOrRaise (.userExists username)) then
        send "ERROR: User not found. Try SIGNUP"
        pure none
      else
        send "Password:"
        match ← recv with
        | none => pure none
        | some password =>
          if ← Prog.askOrRaise (.verifyPassword username password) then pure (some username)
          else
            send "ERROR: Wrong password"
            pure none : Served (Option String)).Follows oneReply Welcomed T .owing := by
    refine follows_question (fun _ _ => Iff.rfl) (fun exists_ hexists => ?_) fun _ _ => hT _ _
    cases exists_ with
    | false => exact follows_refuse (literal (by decide)) rfl
    | true =>
        refine follows_prompt (literal (by decide)) fun password _ => ?_
        exact follows_password hT (hexists rfl) hline
  unfold TCPServer.catchUp
  split
  · exact follows_barrier hgo rfl fun _ _ => hT _ _
  · exact hgo

theorem follows_retrySignup {username : String} {tag : Option String} (hne : username ≠ "")
    (hline : OneLine username) :
    (TCPServer.retrySignup username tag).Follows oneReply Welcomed T .owing := by
  have hasked : ∀ created : Bool, (if created then (do
      send "Choose password:"
      match ← recv with
      | none =>
        send "ERROR: Wrong password"
        pure none
      | some password =>
        if ← Prog.askOrRaise (.verifyPassword username password) then pure (some username)
        else
          send "ERROR: Wrong password"
          pure none)
      else (do
        send "ERROR: Username already taken"
        pure none : Served (Option String))).Follows oneReply Welcomed T .owing := by
    intro created
    cases created with
    | false => exact follows_refuse (literal (by decide)) rfl
    | true =>
        refine follows_prompt (literal (by decide)) fun password _ => ?_
        exact follows_password hT hne hline
  unfold TCPServer.retrySignup TCPServer.hasCreated
  cases tag with
  | none => exact hasked false
  | some requestId =>
      refine Prog.follows_bind (follows_question (P := fun _ => True) (fun _ _ => Iff.rfl)
        (fun result _ => ?_) fun _ _ => hT _ _)
      exact hasked (decide (result = .bool true))

omit hT in
theorem oneLine_invalid {username error : String} (h : validateUsername username = some error) :
    OneLine error := by
  unfold validateUsername at h
  split at h
  · cases h
    exact oneLine_number minUsernameLen (literal (by decide)) (literal (by decide))
  · split at h
    · cases h
      exact oneLine_number maxUsernameLen (literal (by decide)) (literal (by decide))
    · split at h
      · cases h
        exact literal (by decide)
      · cases h

omit hT in
theorem ne_empty_of_valid {username : String} (h : validateUsername username = none) :
    username ≠ "" := by
  rintro rfl
  exact absurd h (by decide)

theorem follows_signup {tag : Option String} :
    (TCPServer.doSignup conn tag).Follows oneReply Welcomed T .owing := by
  refine follows_prompt (literal (by decide)) fun username hline => ?_
  dsimp only
  split
  · next error herror =>
      exact follows_refuse (oneLine_append.mpr ⟨literal (by decide), oneLine_invalid herror⟩) rfl
  · next hvalid =>
      have hne := ne_empty_of_valid hvalid
      refine follows_question (fun _ _ => Iff.rfl) (fun taken _ => ?_) fun _ _ => hT _ _
      cases taken with
      | true => exact follows_retrySignup hT hne hline
      | false =>
          refine follows_prompt (literal (by decide)) fun password _ => ?_
          dsimp only
          split
          · have htext := oneLine_number minPasswordLen (a := "ERROR: Password must be at least ")
              (b := " characters") (literal (by decide)) (literal (by decide))
            exact follows_refuse htext rfl
          · refine Prog.follows_bind fun passwordHash _ => ?_
            refine follows_submit (fun created => ?_) rfl fun _ _ => hT _ _
            dsimp only
            split
            · exact ⟨hne, hline, rfl⟩
            · exact follows_refuse (literal (by decide)) rfl

omit hT in
theorem follows_admin : self.doAdmin.Follows oneReply
    (fun granted s => s = if granted then .owing else .answered) T .owing := by
  refine follows_prompt (literal (by decide)) fun token _ => ?_
  dsimp only
  split
  · exact follows_refuse (literal (by decide)) rfl
  · split
    · exact follows_refuse (literal (by decide)) rfl
    · exact rfl

theorem follows_handleAuth {line : String} :
    (self.handleAuth conn line).Follows oneReply (fun _ s => s = .answered) T .owing := by
  unfold TCPServer.handleAuth
  split
  next tag line hcut =>
    split
    · exact follows_refuse (literal (by decide)) rfl
    · split
      · exact Prog.follows_bind_of (follows_login hT) (fun _ _ h => follows_enter h)
          fun _ _ h => h
      · exact Prog.follows_bind_of (follows_signup hT) (fun _ _ h => follows_enter h)
          fun _ _ h => h
      · refine Prog.follows_bind_of follows_admin ?_ fun _ _ h => h
        rintro granted s rfl
        cases granted with
        | false => exact rfl
        | true => exact follows_refuse (literal (by decide)) rfl
      · exact follows_refuse (literal (by decide)) rfl
      · exact follows_refuse (literal (by decide)) rfl

end Rules

/-! ## Connections -/

/-- The longest line that is accepted, in bytes and with its line break. -/
def maxLineBytes : Nat := 1024 * 1024

def FitsLine (line : String) : Prop := (line ++ "\n").utf8ByteSize ≤ maxLineBytes

/-- What `recv` makes of a line that fits. -/
def received (line : String) : String := String.ofList (PyText.strip (line ++ "\n").toList)

/-- What the reads of the server find in a line of the client. What is left
of a line over the limit is read as lines of its own. -/
inductive Reads (line : String) : List RawLine → Prop where
  | whole : FitsLine line → Reads line [.line (line ++ "\n")]
  | cut (rest : List RawLine) : ¬ FitsLine line → Reads line (.tooLong :: rest)

/-- Where a thread waits for a line. -/
inductive Place where
  | loop (phase : TCPServer.Phase)
  /-- at a username, password or token prompt -/
  | prompt

structure Waiting where
  place : Place
  next : RawLine → Served TCPServer.Phase

/-- A call that neither reads nor sends a line. -/
def IsQuestion : ∀ {β : Type}, ServerCall β → Prop
  | _, .readline => False
  | _, .send _ => False
  | _, _ => True

/-- Up to where it waits for the next line, or closes the connection, the
thread sends these lines. -/
inductive Runs (self : TCPServer) :
    Served TCPServer.Phase → List String → Option Waiting → Prop where
  | prompt (next : RawLine → Served TCPServer.Phase) :
      Runs self (.call .readline next) [] (some ⟨.prompt, next⟩)
  | sent {message : String} {next : Unit → Served TCPServer.Phase} {sent : List String}
      {w : Option Waiting} : Runs self (next ()) sent w →
      Runs self (.call (.send message) next) (message :: sent) w
  | asked {β : Type} {c : ServerCall β} {next : β → Served TCPServer.Phase} {r : β}
      {sent : List String} {w : Option Waiting} : IsQuestion c → Unbroken c r →
      Runs self (next r) sent w → Runs self (.call c next) sent w
  | round {phase : TCPServer.Phase} {next : RawLine → Served TCPServer.Phase}
      (conn : ClientConnection) (now : Int) : phase ≠ .closed →
      self.turn conn now phase = .call .readline next →
      Runs self (.done phase) [] (some ⟨.loop phase, next⟩)
  | closed : Runs self (.done .closed) [] none
  | crashed (e : ServerError) : Runs self (.raise e) [] none

/-- The thread goes through what its reads find. -/
inductive Feeds (self : TCPServer) :
    Waiting → List RawLine → List String → Option Waiting → Prop where
  | last {w : Waiting} {raw : RawLine} {sent : List String} {w' : Option Waiting} :
      Runs self (w.next raw) sent w' → Feeds self w [raw] sent w'
  | closed {w : Waiting} {raw : RawLine} {raws : List RawLine} {sent : List String} :
      Runs self (w.next raw) sent none → Feeds self w (raw :: raws) sent none
  | more {w w' : Waiting} {raw : RawLine} {raws : List RawLine} {sent sent' : List String}
      {w'' : Option Waiting} : Runs self (w.next raw) sent (some w') →
      Feeds self w' raws sent' w'' → Feeds self w (raw :: raws) (sent ++ sent') w''

/-- `_handle_client`, up to its loops. -/
def handleClient : Served TCPServer.Phase := do
  send "Welcome! Type LOGIN or SIGNUP"
  pure .auth

/-- A line of the client and what it was answered. -/
structure Exchange where
  line : String
  replies : List String
  closed : Bool

/-- A connection: the client sends lines that are `allowed` where the server
waits for them. -/
inductive Conversation (self : TCPServer) (allowed : Place → String → Prop) :
    List Exchange → Option Waiting → Prop where
  | start {sent : List String} {w : Option Waiting} : Runs self handleClient sent w →
      Conversation self allowed [] w
  | line {log : List Exchange} {w : Waiting} {line : String} {raws : List RawLine}
      {sent : List String} {w' : Option Waiting} : Conversation self allowed log (some w) →
      OneLine line → allowed w.place line → Reads line raws → Feeds self w raws sent w' →
      Conversation self allowed (log ++ [⟨line, sent, w'.isNone⟩]) w'

/-- The lines that the client finds in a message of the server. -/
def linesOf (message : String) : List String :=
  (PyText.split '\n' message.toList).map String.ofList

/-- All that the client can read after the welcome. -/
def stream (log : List Exchange) : List String := log.flatMap fun e => e.replies.flatMap linesOf

/-- Each line is answered with one line, unless that closes the connection,
and as many lines into the stream as requests came before it stands its
reply. -/
def InLockstep (log : List Exchange) : Prop :=
  ∀ before e after, log = before ++ e :: after → e.closed = false →
    ∃ reply, e.replies = [reply] ∧ (stream log)[before.length]? = some reply

/-- A line fits where a prompt waits for it, and a session gets a command. -/
def Answerable (place : Place) (line : String) : Prop :=
  match place with
  | .prompt => FitsLine line
  | .loop .auth => True
  | .loop _ => FitsLine line → ¬ Blank (received line)

theorem oneLine_received {line : String} (h : OneLine line) : OneLine (received line) := by
  have hl : (line ++ "\n").toList = line.toList ++ ['\n'] := String.toList_append
  rw [received, oneLine_ofList, hl, PyText.strip, PyText.lstrip, PyText.rstrip,
    List.dropWhile_append]
  split
  · decide
  · rw [List.rdropWhile_concat_pos _ _ _ (by decide)]
    exact fun hm => h ((List.dropWhile_sublist _).mem ((List.rdropWhile_prefix _ _).mem hm))

theorem linesOf_oneLine {message : String} (h : OneLine message) : linesOf message = [message] := by
  rw [linesOf, PyText.split, PyText.splitAt_of_notMem h, List.map_singleton, String.ofList_toList]

section Steps

variable {self : TCPServer} {sent : List String} {w' : Option Waiting}

/-- How many lines are owed. -/
def Turn.owed : Turn → Nat
  | .answered => 0
  | .owing => 1

/-- Where a thread may stop between two lines. -/
def Rests (phase : TCPServer.Phase) (s : Turn) : Prop := phase = .closed ∨ s = .answered

/-- A thread that waits for a line and will answer it. -/
def WillAnswer (self : TCPServer) (w : Waiting) : Prop :=
  match w.place with
  | .loop phase => phase ≠ .closed ∧ ∃ conn now, self.turn conn now phase = .call .readline w.next
  | .prompt => ∀ line, OneLine line →
      (w.next (.line (line ++ "\n"))).Follows oneReply Rests (fun _ _ => True) .owing

/-- Unless the connection is closed, what was owed has been sent. -/
theorem Runs.owed {p : Served TCPServer.Phase} (h : Runs self p sent w') {s : Turn}
    (hp : p.Follows oneReply Rests (fun _ _ => True) s) :
    ∀ w ∈ w', sent.length = s.owed ∧ (∀ m ∈ sent, OneLine m) ∧ WillAnswer self w := by
  induction h generalizing s with
  | prompt next =>
      rintro w hw
      cases hw
      obtain ⟨rfl, hnext⟩ := hp
      exact ⟨rfl, nofun, fun line hline => hnext _ (oneLine_received hline)⟩
  | sent _ ih =>
      obtain ⟨rfl, hm, hnext⟩ := hp
      rintro w hw
      obtain ⟨hlen, hall, hready⟩ := ih hnext w hw
      refine ⟨by rw [List.length_cons, hlen]; rfl, ?_, hready⟩
      rintro m hmem
      rcases List.mem_cons.mp hmem with rfl | hmem
      · exact hm
      · exact hall m hmem
  | @asked β c next r sent w hc hr _ ih =>
      have hnext : (next r).Follows oneReply Rests (fun _ _ => True) s := by
        cases c with
        | readline => exact hc.elim
        | send message => exact hc.elim
        | _ => exact hp r hr
      exact ih hnext
  | round conn now hphase hturn =>
      rintro w hw
      cases hw
      rcases hp with hclosed | rfl
      · exact absurd hclosed hphase
      · exact ⟨rfl, nofun, hphase, conn, now, hturn⟩
  | closed => exact nofun
  | crashed e => exact nofun

/-- A call that reads no line. -/
def ReadsNothing : ∀ {β : Type}, ServerCall β → Prop
  | _, .readline => False
  | _, _ => True

/-- A thread that reads no more and ends its loop closes the connection. -/
theorem Runs.ends {p : Served TCPServer.Phase} (h : Runs self p sent w')
    (hp : p.Always Unbroken ReadsNothing (· = .closed) fun _ => True) : w' = none := by
  induction h with
  | prompt next => exact hp.1.elim
  | sent _ ih => exact ih (hp.2 () trivial)
  | asked _ hr _ ih => exact ih (hp.2 _ hr)
  | round conn now hphase _ => exact absurd hp hphase
  | closed => rfl
  | crashed e => rfl

variable {conn : ClientConnection} {now : Int} {phase : TCPServer.Phase} {line : String}
  {next : RawLine → Served TCPServer.Phase}

theorem next_line (hturn : self.turn conn now phase = .call .readline next) :
    next (.line (line ++ "\n")) =
      tryCatch (self.serve conn now phase (received line)) fun _ => pure .closed := by
  injection hturn with _ _ hnext
  exact (congrFun hnext (.line (line ++ "\n"))).symm

theorem next_tooLong (hturn : self.turn conn now phase = .call .readline next) :
    next .tooLong = .call (.send "ERROR: Line too long") fun _ => .done .closed := by
  injection hturn with _ _ hnext
  exact (congrFun hnext .tooLong).symm

theorem follows_serve (h : UnbrokenAddresses self) (hphase : phase ≠ .closed)
    (hok : phase = .auth ∨ ¬ Blank line) :
    (self.serve conn now phase line).Follows oneReply (fun _ s => s = .answered)
      (fun _ _ => True) .owing := by
  unfold TCPServer.serve
  cases phase with
  | auth => exact follows_handleAuth fun _ _ => trivial
  | user username =>
      have hh : ∀ entry ∈ self.userHandlers conn now username,
          OneLine entry.1 ∧ ∀ args tag, Answers (entry.2 args tag) := answers_userHandlers h
      have husage : OneLine TCPServer.userUsage := literal (by decide)
      exact Prog.follows_bind_of (follows_dispatch hh husage (hok.resolve_left nofun))
        (fun _ _ hs => hs) fun _ _ hr => hr
  | admin =>
      have hh : ∀ entry ∈ self.adminHandlers conn now,
          OneLine entry.1 ∧ ∀ args tag, Answers (entry.2 args tag) := answers_adminHandlers h
      have husage : OneLine TCPServer.adminUsage := literal (by decide)
      exact Prog.follows_bind_of (follows_dispatch hh husage (hok.resolve_left nofun))
        (fun _ _ hs => hs) fun _ _ hr => hr
  | closed => exact absurd rfl hphase

/-- A line that fits is answered, where it may be sent. -/
theorem WillAnswer.answers (h : UnbrokenAddresses self) {w : Waiting} (hw : WillAnswer self w)
    (hline : OneLine line) (hfits : FitsLine line) (hok : Answerable w.place line) :
    (w.next (.line (line ++ "\n"))).Follows oneReply Rests (fun _ _ => True) .owing := by
  obtain ⟨place, next⟩ := w
  cases place with
  | prompt => exact hw line hline
  | loop phase =>
      obtain ⟨hphase, conn, now, hturn⟩ := hw
      have hserved : phase = .auth ∨ ¬ Blank (received line) := by
        cases phase with
        | auth => exact .inl rfl
        | _ => exact .inr (hok hfits)
      rw [next_line hturn]
      refine Prog.follows_tryCatch ?_
      exact Prog.follows_mono (follows_serve h hphase hserved) (fun _ _ => .inr)
        fun _ _ _ => .inl rfl

/-- One request: it closes the connection or is answered with one line. -/
theorem step (h : UnbrokenAddresses self) {w : Waiting} {raws : List RawLine}
    (hw : WillAnswer self w) (hline : OneLine line) (hok : Answerable w.place line)
    (hraws : Reads line raws)
    (hfeeds : Feeds self w raws sent w') :
    ∀ u ∈ w', (∃ reply, sent = [reply] ∧ OneLine reply) ∧ WillAnswer self u := by
  cases hraws with
  | whole hfits =>
      have hp := hw.answers h hline hfits hok
      cases hfeeds with
      | last hruns =>
          rintro u hu
          obtain ⟨hlen, hall, hready⟩ := hruns.owed hp u hu
          obtain ⟨reply, rfl⟩ := List.length_eq_one_iff.mp hlen
          exact ⟨⟨reply, rfl, hall reply List.mem_cons_self⟩, hready⟩
      | closed _ => exact nofun
      | more _ hrest => cases hrest
  | cut rest hlong =>
      obtain ⟨place, next⟩ := w
      cases place with
      | prompt => exact absurd hok hlong
      | loop phase =>
          obtain ⟨-, conn, now, hturn⟩ := hw
          have hends : (next .tooLong).Always Unbroken ReadsNothing (· = .closed)
              fun _ => True := by
            rw [show next .tooLong = _ from next_tooLong hturn]
            exact ⟨trivial, fun _ _ => rfl⟩
          cases hfeeds with
          | last hruns =>
              rw [hruns.ends hends]
              exact nofun
          | closed _ => exact nofun
          | more hruns _ => exact absurd (hruns.ends hends) nofun

end Steps

/-! ## Whole connections -/

section Conversations

variable {self : TCPServer} {log : List Exchange} {w : Option Waiting}

/-- The line was answered with one line. -/
def Exchange.Answered (e : Exchange) : Prop := ∃ reply, e.replies = [reply] ∧ OneLine reply

/-- Only the last line can have closed the connection. -/
def Orderly (log : List Exchange) : Prop :=
  ∀ before e after, log = before ++ e :: after →
    (∀ x ∈ before, x.Answered) ∧ (e.closed = false → e.Answered)

theorem orderly_concat (h : ∀ e ∈ log, e.Answered) {e : Exchange}
    (he : e.closed = false → e.Answered) : Orderly (log ++ [e]) := by
  rintro before x after heq
  rcases List.eq_nil_or_concat' after with rfl | ⟨after, y, rfl⟩
  · obtain ⟨rfl, hx⟩ := List.append_inj' heq rfl
    obtain rfl : e = x := List.singleton_inj.mp hx
    exact ⟨h, he⟩
  · have hlast : log ++ [e] = before ++ x :: after ++ [y] := by
      rw [heq, List.append_assoc, List.cons_append]
    obtain ⟨rfl, -⟩ := List.append_inj' hlast rfl
    refine ⟨fun z hz => h z (List.mem_append_left _ hz), fun _ => ?_⟩
    exact h x (List.mem_append_right _ List.mem_cons_self)

theorem conversation_orderly (h : UnbrokenAddresses self)
    (hc : Conversation self Answerable log w) :
    Orderly log ∧ ∀ u ∈ w, WillAnswer self u ∧ ∀ e ∈ log, e.Answered := by
  induction hc with
  | start hruns =>
      refine ⟨fun before e after heq => by simp at heq, fun u hu => ⟨?_, nofun⟩⟩
      have hp : handleClient.Follows oneReply Rests (fun _ _ => True) .owing :=
        follows_refuse (literal (by decide)) (.inr rfl)
      exact (hruns.owed hp u hu).2.2
  | @line log w line raws sent w' _ hline hok hraws hfeeds ih =>
      obtain ⟨hready, hall⟩ := ih.2 w rfl
      have hstep := step h hready hline hok hraws hfeeds
      cases w' with
      | none => exact ⟨orderly_concat hall nofun, nofun⟩
      | some u =>
          obtain ⟨hreply, hu⟩ := hstep u rfl
          refine ⟨orderly_concat hall fun _ => hreply, ?_⟩
          rintro v hv
          cases hv
          refine ⟨hu, fun e he => ?_⟩
          rcases List.mem_append.mp he with he | he
          · exact hall e he
          · rw [List.mem_singleton.mp he]
            exact hreply

/-- Answered lines put one line each into the stream. -/
theorem stream_append {before : List Exchange} (h : ∀ x ∈ before, x.Answered) {e : Exchange}
    {reply : String} (he : e.replies = [reply]) (hline : OneLine reply) (after : List Exchange) :
    (stream (before ++ e :: after))[before.length]? = some reply := by
  have hlen : (stream before).length = before.length := by
    induction before with
    | nil => rfl
    | cons x before ih =>
        obtain ⟨r, hr, hone⟩ := h x List.mem_cons_self
        have hrest := ih fun y hy => h y (List.mem_cons_of_mem x hy)
        rw [stream, List.flatMap_cons, hr, List.flatMap_singleton, linesOf_oneLine hone]
        simpa [stream] using hrest
  rw [stream, List.flatMap_append, ← stream, List.getElem?_append_right (Nat.le_of_eq hlen), hlen,
    Nat.sub_self, List.flatMap_cons, he, List.flatMap_singleton, linesOf_oneLine hline]
  rfl

/-- While the connection stands, each read of the client finds the reply to the
line that it sent before it. -/
theorem requests_conversation (h : UnbrokenAddresses self) {u : Waiting}
    (hc : Conversation self Answerable log (some u)) :
    CacheClient.requests (log.map Exchange.line) (stream log) =
      log.map fun e => (e.line, e.replies.head?.map readLine) := by
  have hall := ((conversation_orderly h hc).2 u rfl).2
  clear hc
  induction log with
  | nil => rfl
  | cons e log ih =>
      obtain ⟨reply, he, hline⟩ := hall e List.mem_cons_self
      have hstream : stream (e :: log) = reply :: stream log := by
        rw [stream, List.flatMap_cons, he, List.flatMap_singleton, linesOf_oneLine hline]
        rfl
      have hrest := ih fun x hx => hall x (List.mem_cons_of_mem e hx)
      rw [hstream, List.map_cons, List.map_cons, CacheClient.requests, he, ← hrest]
      rfl

end Conversations

/-- A blank command line of a session is answered with nothing. -/
theorem blank_unanswered {self : TCPServer} {conn : ClientConnection} {now : Int}
    {phase : TCPServer.Phase} {next : RawLine → Served TCPServer.Phase} {line : String}
    (hphase : phase ≠ .auth) (hturn : self.turn conn now phase = .call .readline next)
    (hblank : Blank (received line)) : next (.line (line ++ "\n")) = .done phase := by
  have hdispatch : ∀ handlers usage,
      TCPServer.dispatch handlers usage (received line) = pure true := by
    intro handlers usage
    obtain ⟨htag, hnil⟩ := hblank
    unfold TCPServer.dispatch
    generalize splitTag (received line) = cut at htag hnil
    obtain ⟨tag, raw⟩ := cut
    dsimp only at htag hnil ⊢
    rw [if_neg htag, hnil]
  rw [next_line hturn]
  cases phase with
  | auth => exact absurd rfl hphase
  | user username =>
      rw [TCPServer.serve, hdispatch]
      rfl
  | admin =>
      rw [TCPServer.serve, hdispatch]
      rfl
  | closed => rfl

/-- Who waits in a loop waits in a round of it. -/
def InRound (self : TCPServer) (w : Waiting) : Prop :=
  ∀ phase, w.place = .loop phase →
    phase ≠ .closed ∧ ∃ conn now, self.turn conn now phase = .call .readline w.next

theorem Runs.inRound {self : TCPServer} {p : Served TCPServer.Phase} {sent : List String}
    {w : Option Waiting} (h : Runs self p sent w) : ∀ u ∈ w, InRound self u := by
  induction h with
  | prompt next =>
      rintro u hu phase hphase
      cases hu
      cases hphase
  | sent _ ih => exact ih
  | asked _ _ _ ih => exact ih
  | round conn now hphase hturn =>
      rintro u hu phase hplace
      cases hu
      cases hplace
      exact ⟨hphase, conn, now, hturn⟩
  | closed => exact nofun
  | crashed e => exact nofun

theorem Feeds.inRound {self : TCPServer} {w : Waiting} {raws : List RawLine} {sent : List String}
    {w' : Option Waiting} (h : Feeds self w raws sent w') : ∀ u ∈ w', InRound self u := by
  induction h with
  | last hruns => exact hruns.inRound
  | closed _ => exact nofun
  | more _ _ ih => exact ih

theorem conversation_inRound {self : TCPServer} {allowed : Place → String → Prop}
    {log : List Exchange} {w : Option Waiting} (h : Conversation self allowed log w) :
    ∀ u ∈ w, InRound self u := by
  cases h with
  | start hruns => exact hruns.inRound
  | line _ _ _ _ hfeeds => exact hfeeds.inRound

/-- In every connection whose lines fit at the prompts and are not blank in
the sessions, each line gets its reply. In the sessions no other line gets one. -/
theorem requests_in_lockstep (self : TCPServer) (h : UnbrokenAddresses self) :
    (∀ log w, Conversation self Answerable log w → InLockstep log) ∧
    ∀ log w line raws sent w', Conversation self (fun _ _ => True) log (some w) →
      w.place ≠ .prompt → ¬ Answerable w.place line → Reads line raws →
      Feeds self w raws sent w' → sent = [] ∧ w' ≠ none := by
  constructor
  · rintro log w hc before e after hlog hopen
    obtain ⟨hbefore, he⟩ := (conversation_orderly h hc).1 before e after hlog
    obtain ⟨reply, hreply, hline⟩ := he hopen
    refine ⟨reply, hreply, ?_⟩
    rw [hlog]
    exact stream_append hbefore hreply hline after
  · rintro log ⟨place, next⟩ line raws sent w' hc hprompt hnot hraws hfeeds
    cases place with
    | prompt => exact absurd rfl hprompt
    | loop phase =>
        obtain ⟨hphase, conn, now, hturn⟩ := conversation_inRound hc _ rfl phase rfl
        have hauth : phase ≠ .auth := by
          rintro rfl
          exact hnot trivial
        have hblank : FitsLine line ∧ Blank (received line) := by
          cases phase with
          | auth => exact absurd rfl hauth
          | _ => exact ⟨(Classical.not_imp.mp hnot).1, not_not.mp (Classical.not_imp.mp hnot).2⟩
        have hdone : ∀ {u}, Runs self (next (.line (line ++ "\n"))) sent u →
            sent = [] ∧ u ≠ none := by
          intro u hruns
          rw [show next _ = .done phase from blank_unanswered hauth hturn hblank.2] at hruns
          cases hruns with
          | round => exact ⟨rfl, nofun⟩
          | closed => exact absurd rfl hphase
        cases hraws with
        | cut rest hlong => exact absurd hblank.1 hlong
        | whole _ =>
            cases hfeeds with
            | last hruns => exact hdone hruns
            | closed hruns => exact hdone hruns
            | more _ hrest => cases hrest

/-! ## An empty command -/

/-- A server of one node. -/
def soleServer : TCPServer := ⟨false, none, Dict.empty⟩

theorem fitsLine_of_size {line : String} (h : line.utf8ByteSize ≤ 30) : FitsLine line := by
  rw [FitsLine, String.utf8ByteSize_append, maxLineBytes]
  have : "\n".utf8ByteSize = 1 := by decide
  omega

theorem asked_ok {α : Type} {c : ServerCall (Except ServerError α)} (a : α)
    {next : Except ServerError α → Served TCPServer.Phase} {sent : List String}
    {w : Option Waiting} (hc : IsQuestion c) (ht : Unbroken c (.ok a))
    (h : Runs soleServer (next (.ok a)) sent w) : Runs soleServer (.call c next) sent w :=
  .asked hc ht h

/-- A user logs in and writes a key. -/
theorem requests_in_lockstep_soleServer :
    ∃ log w, Conversation soleServer Answerable log (some w) ∧ InLockstep log ∧
      stream log = ["Username:", "Password:", "READY:dave", "OK"] := by
  have hwelcome : Conversation soleServer Answerable [] _ :=
    .start (.sent (.round somebody 0 (by decide) rfl))
  have hlogin := hwelcome.line (literal (by decide) : OneLine "LOGIN") trivial
    (.whole (fitsLine_of_size (by decide))) (.last (.sent (.prompt _)))
  have hname := hlogin.line (literal (by decide) : OneLine "dave") (fitsLine_of_size (by decide))
    (.whole (fitsLine_of_size (by decide))) (.last (asked_ok true trivial (fun _ => by decide)
      (asked_ok true trivial (fun _ => by decide) (.sent (.prompt _)))))
  have hpassword := hname.line (literal (by decide) : OneLine "secret")
    (fitsLine_of_size (by decide)) (.whole (fitsLine_of_size (by decide)))
    (.last (asked_ok true trivial trivial (.sent (.round somebody 0 (by decide) rfl))))
  have hset := hpassword.line (literal (by decide) : OneLine "SET k v") (fun _ => by decide)
    (.whole (fitsLine_of_size (by decide)))
    (.last (asked_ok Result.none trivial trivial (.sent (.round somebody 0 (by decide) rfl))))
  exact ⟨_, _, hset, (requests_in_lockstep soleServer nofun).1 _ _ hset, by decide⟩

/-- A user logs in and sends an empty command with its tag. -/
theorem empty_command_unanswered :
    ¬ ∀ (self : TCPServer), UnbrokenAddresses self → ∀ log w,
      Conversation self (fun _ _ => True) log w → InLockstep log := by
  intro hall
  have hwelcome : Conversation soleServer (fun _ _ => True) [] _ :=
    .start (.sent (.round somebody 0 (by decide) rfl))
  have hlogin := hwelcome.line (literal (by decide) : OneLine "LOGIN") trivial
    (.whole (fitsLine_of_size (by decide))) (.last (.sent (.prompt _)))
  have hname := hlogin.line (literal (by decide) : OneLine "dave") trivial
    (.whole (fitsLine_of_size (by decide))) (.last (asked_ok true trivial (fun _ => by decide)
      (asked_ok true trivial (fun _ => by decide) (.sent (.prompt _)))))
  have hpassword := hname.line (literal (by decide) : OneLine "secret") trivial
    (.whole (fitsLine_of_size (by decide)))
    (.last (asked_ok true trivial trivial (.sent (.round somebody 0 (by decide) rfl))))
  have hempty := hpassword.line (literal (by decide) : OneLine "@0123456789abcdef:1 ") trivial
    (.whole (fitsLine_of_size (by decide))) (.last (.round somebody 0 (by decide) rfl))
  obtain ⟨reply, hreply, -⟩ := hall soleServer nofun _ _ hempty _ _ [] rfl rfl
  exact absurd hreply nofun

end KvCache
