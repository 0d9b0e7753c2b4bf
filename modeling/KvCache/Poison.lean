import KvCache.Columns
import KvCache.Requests

/-!
# Entries that no node can apply

An entry that raises wherever it is applied is repeated for ever by every
node. `Harmless` says that a submitted write fits the log and is applied by
every machine whose tables are within their columns. The main result says
of every line of every session exactly when what it submits is harmless
(`line_is_harmless_iff`): the server checks the lengths of keys and of new
user names, but not those of an imported password hash and of the user
name of an imported key, nor the range of an imported expiry time.
-/

namespace KvCache

open StateWp Interaction

/-- The entry that a submitted write becomes. -/
def writeEntry (term index : Nat) (command username requestId : String) : LogEntry :=
  { term, index, command := .write command, username, requestId }

/-- Wherever in the log it gets, the write fits and can be applied. -/
def Harmless (command username requestId : String) : Prop :=
  ∀ term index : Nat, isInt64 term = true → isInt64 index = true →
    (writeEntry term index command username requestId).Fits ∧
    ∀ m, Sound m → ∃ r m',
      (applyIn withinColumns (writeEntry term index command username requestId)).run m = .ok r m'

/-! ## Machines that refuse -/

/-- A machine just started on a database. -/
def standing (db : Database) : CacheStateMachine := { useDb := true, capacity := 1, db }

/-- A database with one user. -/
def withUser (username : String) : Database :=
  ⟨Dict.empty.set username "", Dict.empty, Dict.empty, [], by simp⟩

section Refusing

variable {db : Database} {username key : String}

theorem sound_standing (hk : db.Keyed) (hf : db.Fits) : Sound (standing db) where
  useDb := rfl
  capacity := Nat.one_pos
  quiet := rfl
  quietSessions := rfl
  keyed := hk
  shown u s hs := by cases hs
  fits := hf

theorem sound_empty : Sound (standing (Database.empty [])) :=
  sound_standing (fun _ => rfl) ⟨by simp [Database.empty], by simp [Database.empty],
    by simp [Database.empty]⟩

theorem fits_withUser (hu : username.length ≤ 150) : (withUser username).Fits := by
  refine ⟨?_, by simp [withUser], by simp [withUser]⟩
  rintro ⟨u, p⟩ hp
  rcases Dict.mem_set.mp hp with ⟨rfl, rfl⟩ | ⟨-, hp⟩
  · exact ⟨hu, by simp⟩
  · simp at hp

theorem contains_withUser (username : String) :
    (withUser username).users.contains username = true := by
  simp [withUser, Dict.contains]

theorem sound_withUser (hu : username.length ≤ 150) : Sound (standing (withUser username)) :=
  sound_standing (fun _ => rfl) (fits_withUser hu)

theorem sound_withKey (hu : username.length ≤ 150) (hn : key ≠ "") (hk : key.length ≤ 512) :
    Sound (standing ((withUser username).saveEntry username key "" none)) := by
  refine sound_standing (fun u => ?_) ((fits_withUser hu).saveEntry hk rfl)
  rw [Database.reference_saveEntry (contains_withUser username)]
  simp only [Reference.update]
  rw [if_neg fun h => hn h.2.symm]
  rfl

theorem get?_withKey (username key : String) :
    ((withUser username).saveEntry username key "" none).entries.get? (username, key)
      = some ⟨"", none, 0⟩ := by
  unfold Database.saveEntry
  rw [dif_pos (contains_withUser username)]
  simp [Database.now, withUser]

end Refusing

/-! ## Which writes are harmless -/

section Harmless

variable {command username requestId : String} {verb : Verb} {id : RequestId}

/-- Refused by one machine. -/
theorem not_harmless {m : CacheStateMachine} (hm : Sound m)
    (h : wp (applyIn withinColumns (writeEntry 0 0 command username requestId))
      (fun _ _ => False) (fun _ _ => True) m) : ¬ Harmless command username requestId := by
  intro hh
  obtain ⟨r, m', hrun⟩ := (hh 0 0 rfl rfl).2 m hm
  exact (wp_of_run_ok hrun).mp h

theorem inRange_of_harmless (hv : parseVerb command = .ok verb) (hk : verb.KeyFits)
    (hid : parseRequestId requestId = .ok id) (hh : Harmless command username requestId) :
    verb.InRange := by
  have hu := (hh 0 0 rfl rfl).1.username
  by_contra hr
  cases verb with
  | signup passwordHash =>
      exact not_harmless sound_empty
        (applyIn_refused hv hid rfl (signup_refused sound_empty rfl hr)) hh
  | set key value expireAt =>
      exact not_harmless (sound_withUser hu)
        (applyIn_refused hv hid rfl
          (set_refused (sound_withUser hu) (contains_withUser username) hr)) hh
  | expiry key expireAt atMs =>
      obtain ⟨hlen, he⟩ := Classical.not_imp.mp hr
      have hs := sound_withKey hu hk hlen
      exact not_harmless hs
        (applyIn_refused hv hid rfl (expiry_refused hs (get?_withKey username key) rfl he)) hh
  | delete key atMs => exact hr trivial
  | sweep atMs => exact hr trivial
  | unknown => exact hr trivial

/-- A write is harmless exactly when its user, what its verb writes and its
request number are within the columns. -/
theorem harmless_iff (hv : parseVerb command = .ok verb) (hk : verb.KeyFits)
    (hid : parseRequestId requestId = .ok id) (hne : requestId ≠ "")
    (hclient : id.clientId.length ≤ 64)
    (hlen : isInt64 id.seq = true → requestId.length ≤ 100) :
    Harmless command username requestId ↔
      username.length ≤ 150 ∧ verb.InRange ∧ isInt64 id.seq = true := by
  constructor
  · intro hh
    have hu := (hh 0 0 rfl rfl).1.username
    have hr := inRange_of_harmless hv hk hid hh
    refine ⟨hu, hr, ?_⟩
    by_contra hseq
    exact not_harmless sound_empty
      (seq_refused sound_empty hv hu hk hr hne hid rfl hseq) hh
  · rintro ⟨hu, hr, hseq⟩ term index ht hi
    refine ⟨⟨hi, ht, hu, hlen hseq⟩, fun m hm => ?_⟩
    have h : wp (applyIn withinColumns (writeEntry term index command username requestId))
        (fun _ _ => True) (fun _ _ => False) m :=
      applyIn_fits hm hv hu hk hr hid ⟨hclient, hseq⟩ hi
    unfold wp at h
    split at h
    · next r m' hrun => exact ⟨r, m', hrun⟩
    · exact h.elim

end Harmless

/-! ## Sessions -/

/-- What the rest of the server may answer: a password hash fits its column,
and a user is found where some machine in order holds it. -/
def Answered : ∀ {β : Type}, ServerCall β → β → Prop
  | _, .makePassword _, passwordHash => passwordHash.length ≤ 255
  | _, .userExists username, found => found = .ok true →
      ∃ m s, Sound m ∧ value? (getStore username) m = some (some s)
  | _, _, _ => True

/-- The loops that a connection can get into. -/
inductive Reachable (self : TCPServer) : TCPServer.Phase → Prop where
  | start : Reachable self .auth
  | turn {phase phase' : TCPServer.Phase} (conn : ClientConnection) (now : Int) :
      Reachable self phase → Prog.Ends Answered (self.turn conn now phase) phase' →
      Reachable self phase'

/-- The writes that a call submits are in `S`. -/
def Writes (S : String → String → String → Prop) : ∀ {β : Type}, ServerCall β → Prop
  | _, .submit command username requestId => S command username requestId
  | _, _ => True

/-- What the arguments of a command of a user must be for its write to fit. -/
def UserArgsFit (now : Int) (command args : String) : Prop :=
  match command with
  | "SETEX" =>
    match splitUpTo 2 args with
    | [_, secs, _] => ∀ n, PyText.toInt secs.toList = some n → isInt64 (now + n * 1000) = true
    | _ => True
  | "EXPIRE" =>
    match splitWords args with
    | [key, secs] => key.length ≤ 512 →
      ∀ n, PyText.toInt secs.toList = some n → isInt64 (now + n * 1000) = true
    | _ => True
  | _ => True

/-- What the arguments of a command of an admin must be for its write to fit. -/
def AdminArgsFit (command args : String) : Prop :=
  match command with
  | "IMPORTUSER" =>
    match splitWords args with
    | [_, passwordHash] => passwordHash.length ≤ 255
    | _ => True
  | "IMPORTSET" =>
    match splitUpTo 3 args with
    | [username, _, expireAt, _] => username.length ≤ 150 ∧
      ∀ n, PyText.toInt expireAt.toList = some n → isInt64 n = true
    | _ => True
  | _ => True

/-- The line of a session whose write every database can hold: the numbers
that the server computes are in range, an imported password hash and the
user name and the expiry time of an imported key are within their columns. -/
def LineFits (conn : ClientConnection) (now : Int) (phase : TCPServer.Phase) (line : String) :
    Prop :=
  ((splitTag line).1 = .untagged → isInt64 conn.seq = true) ∧
  match splitUpTo 1 (splitTag line).2 with
  | [] => True
  | first :: rest =>
    let command := String.ofList (PyText.upper first.toList)
    match phase with
    | .user _ => UserArgsFit now command (rest.headD "")
    | .admin => AdminArgsFit command (rest.headD "")
    | _ => True

/-! ## The request id of a line -/

section Lines

variable {conn : ClientConnection} {now : Int} {line raw : String} {tag : Tag}

theorem isInt64_of_lt {n : Int} (h₀ : 0 ≤ n) (h : n < 10 ^ 18) : isInt64 n = true := by
  simp only [isInt64, Bool.and_eq_true, decide_eq_true_eq]
  omega

/-- The connection's own number is short, if it is in range. -/
theorem length_ownId (h : isInt64 conn.seq = true) : conn.ownId.length ≤ 100 := by
  have hlt : conn.seq < 10 ^ 20 := by
    simp only [isInt64, Bool.and_eq_true, decide_eq_true_eq] at h
    omega
  have hrepr : conn.seq.repr.length ≤ 20 := (Nat.length_repr_le_iff (by decide)).mpr hlt
  have hname := conn.hex.1
  have hcolon : ":".length = 1 := rfl
  simp only [ClientConnection.ownId, String.length_append]
  omega

theorem ne_empty_of_append {a b : String} : a ++ ":" ++ b ≠ "" := by
  intro h
  have := congrArg String.toList h
  simp at this

/-- The request of a line that has no bad tag, if the connection's own
number can be written. -/
theorem request_of_line (hline : splitTag line = (tag, raw)) (hbad : tag ≠ .badTag)
    (hown : TCPServer.requestId? tag = none → PyText.isPrintable conn.seq = true) :
    ∃ id, parseRequestId ((TCPServer.requestId? tag).getD conn.ownId) = .ok id ∧
      (TCPServer.requestId? tag).getD conn.ownId ≠ "" ∧ id.clientId.length ≤ 64 ∧
      (isInt64 id.seq = true → ((TCPServer.requestId? tag).getD conn.ownId).length ≤ 100) ∧
      (isInt64 id.seq = true ↔ (tag = .untagged → isInt64 conn.seq = true)) := by
  cases tag with
  | badTag => exact absurd rfl hbad
  | untagged =>
      refine ⟨_, parseRequestId_own (hown rfl), ne_empty_of_append, ?_, length_ownId, ?_⟩
      · have := conn.hex.1
        dsimp only
        omega
      · simp
  | tagged requestId =>
      obtain ⟨id, hid⟩ := tagged_of_splitTag hline
      refine ⟨id, hid.parse, ?_, hid.client, fun _ => hid.length.trans (by decide), ?_⟩
      · rintro rfl
        have := hid.parse
        cases this
      · simp [isInt64_of_lt hid.seq.1 hid.seq.2]

/-- A write that a line submits. -/
theorem harmless_of_line (hline : splitTag line = (tag, raw)) (hbad : tag ≠ .badTag)
    (hown : TCPServer.requestId? tag = none → PyText.isPrintable conn.seq = true)
    {command username : String} {verb : Verb} (hv : parseVerb command = .ok verb)
    (hk : verb.KeyFits) :
    Harmless command username ((TCPServer.requestId? tag).getD conn.ownId) ↔
      username.length ≤ 150 ∧ verb.InRange ∧ (tag = .untagged → isInt64 conn.seq = true) := by
  obtain ⟨id, hid, hne, hclient, hlen, hseq⟩ := request_of_line hline hbad hown
  rw [harmless_iff hv hk hid hne hclient hlen, hseq]

end Lines

/-! ## Handlers -/

section Handlers

variable {S : String → String → String → Prop} {conn : ClientConnection}

@[simp] theorem always_send {Q : Unit → Prop} {R : ServerError → Prop} (message : String) :
    (send message).Always Answered (Writes S) Q R ↔ Q () :=
  ⟨fun h => h.2 () trivial, fun h => ⟨trivial, fun _ _ => h⟩⟩

/-- What is told about a failure writes nothing. -/
theorem always_tellFailure {α : Type} (answer : α) {Q : α → Prop} {R : ServerError → Prop}
    (hQ : Q answer) (hR : ∀ e, R e) (e : ServerError) :
    (TCPServer.tellFailure answer e).Always Answered (Writes S) Q R := by
  cases e with
  | notLeader leaderId => simpa [TCPServer.tellFailure] using hQ
  | proposal message => simpa [TCPServer.tellFailure] using hQ
  | configChange message => exact hR _
  | other message => exact hR _

/-- A number is written, or the line is refused. -/
theorem always_strOfInt {n : Int} {Q : String → Prop} {R : ServerError → Prop}
    (hQ : PyText.isPrintable n = true → Q n.repr) (hR : ∀ e, R e) :
    (strOfInt n).Always Answered (Writes S) Q R := by
  unfold strOfInt
  split
  · next h => exact hQ h
  · exact hR _

/-- A submission writes what it is told to. -/
theorem always_submit {command username : String} {tag : Option String}
    {Q : Option Result → Prop} {R : ServerError → Prop}
    (hS : (tag = none → PyText.isPrintable conn.seq = true) →
      S command username (tag.getD conn.ownId)) (hQ : ∀ r, Q r) (hR : ∀ e, R e) :
    (TCPServer.submit conn username command tag).Always Answered (Writes S) Q R := by
  have hsend : ∀ requestId, S command username requestId → (tryCatch (do
      let result ← Prog.askOrRaise (.submit command username requestId)
      pure (some result)) (TCPServer.tellFailure none)).Always Answered (Writes S) Q R := by
    intro requestId h
    simp only [Prog.always_tryCatch, Prog.always_bind, Prog.always_askOrRaise, Prog.always_pure]
    exact ⟨h, fun r _ => hQ _, fun e _ => always_tellFailure none (hQ _) hR e⟩
  unfold TCPServer.submit
  cases tag with
  | some requestId => exact hsend requestId (hS fun h => by cases h)
  | none =>
      simp only [ClientConnection.nextRequestId, Prog.always_bind]
      refine always_strOfInt (fun h => ?_) hR
      rw [Prog.always_pure]
      exact hsend _ (hS fun _ => h)

theorem always_readBarrier (self : TCPServer) {Q : Bool → Prop} {R : ServerError → Prop}
    (hQ : ∀ b, Q b) (hR : ∀ e, R e) :
    self.readBarrier.Always Answered (Writes S) Q R := by
  unfold TCPServer.readBarrier
  split
  · exact hQ _
  · simp only [Prog.always_tryCatch, Prog.always_bind, Prog.always_askOrRaise, Prog.always_pure]
    exact ⟨trivial, fun _ _ => hQ _, fun e _ => always_tellFailure false (hQ _) hR e⟩

theorem always_validKey {key : String} {Q : Bool → Prop} {R : ServerError → Prop}
    (hQ : key.length ≤ maxKeyLength → Q true) (hno : Q false) :
    (validKey key).Always Answered (Writes S) Q R := by
  unfold validKey
  split
  · simpa using hno
  · next h => exact hQ (Nat.le_of_not_lt h)

/-- Digits are read as a number, or the line is refused. -/
theorem always_intOfDigits {text : String} {Q : Int → Prop} {R : ServerError → Prop}
    (hQ : ∀ n, PyText.toInt text.toList = some n → Q n) (hR : ∀ e, R e) :
    (intOfDigits text).Always Answered (Writes S) Q R := by
  unfold intOfDigits
  split
  · next n hn => exact hQ n hn
  · dsimp only
    split
    · exact hR _
    · exact hR _

theorem always_seconds {text : String} {Q : Option Int → Prop} {R : ServerError → Prop}
    (hQ : ∀ n, PyText.toInt text.toList = some n → Q (some n)) (hnone : Q none)
    (hR : ∀ e, R e) : (seconds text).Always Answered (Writes S) Q R := by
  unfold seconds
  split
  · rw [Prog.always_bind]
    refine always_intOfDigits (fun n hn => ?_) hR
    rw [Prog.always_pure]
    split
    · exact hQ n hn
    · exact hnone
  · exact hnone

end Handlers

/-! ## What each handler writes -/

theorem username_of_valid {username : String} (h : validateUsername username = none) :
    username.length ≤ 150 := by
  unfold validateUsername at h
  split at h
  · cases h
  · split at h
    · cases h
    · next hlen => exact Nat.le_of_not_lt hlen

/-- Everything `p` writes is harmless exactly if `fit`. -/
def Judges {α : Type} (fit : Prop) (p : Served α) : Prop :=
  p.Always Answered (Writes fun command username requestId =>
    Harmless command username requestId ↔ fit) (fun _ => True) fun _ => True

section Judges

variable {conn : ClientConnection} {now : Int} {line raw args username : String} {tag : Tag}

/-- The own number of a connection is in range where it is used. -/
def SeqFits (conn : ClientConnection) (tag : Tag) : Prop :=
  tag = .untagged → isInt64 conn.seq = true

theorem judges_send {fit : Prop} (message : String) : Judges fit (send message) := by
  simp [Judges]

/-- A command of one argument. -/
theorem judges_word {fit : Prop} {f : String → Served Unit} {usage : String}
    (hf : ∀ key, splitWords args = [key] → Judges fit (f key)) :
    Judges fit (match splitWords args with
      | [key] => f key
      | _ => send usage) := by
  split
  · next key hargs => exact hf key hargs
  · exact judges_send usage

/-- A number that goes into a command. -/
theorem judges_strOfInt {fit : Prop} {n : Int} {α : Type} {f : String → Served α}
    (hf : PyText.isPrintable n = true → Judges fit (f n.repr)) :
    Judges fit (strOfInt n >>= f) := by
  unfold Judges
  rw [Prog.always_bind]
  exact always_strOfInt hf fun _ => trivial

theorem judges_submit (hline : splitTag line = (tag, raw)) (hbad : tag ≠ .badTag)
    {command : String} {verb : Verb} (hv : parseVerb command = .ok verb) (hk : verb.KeyFits)
    {fit : Prop} (hfit : (username.length ≤ 150 ∧ verb.InRange ∧ SeqFits conn tag) ↔ fit)
    {α : Type} {f : Option Result → Served α} (hsome : ∀ r, Judges fit (f (some r)))
    (hnone : Judges fit (f none)) :
    Judges fit (TCPServer.submit conn username command (TCPServer.requestId? tag) >>= f) := by
  unfold Judges
  rw [Prog.always_bind]
  refine always_submit (fun hown => (harmless_of_line hline hbad hown hv hk).trans hfit)
    (fun r => ?_) fun _ => trivial
  cases r with
  | none => exact hnone
  | some r => exact hsome r

theorem judges_set (hline : splitTag line = (tag, raw)) (hbad : tag ≠ .badTag)
    (hu : username.length ≤ 150) :
    Judges (SeqFits conn tag ∧ UserArgsFit now "SET" args)
      (TCPServer.cmdSet conn username args (TCPServer.requestId? tag)) := by
  unfold TCPServer.cmdSet
  split
  · next key value hargs =>
      obtain ⟨hword, -⟩ := word_of_wordsUpTo hargs
      unfold Judges
      rw [Prog.always_bind]
      refine always_validKey (fun hlen => ?_) trivial
      refine judges_submit hline hbad (parseVerb_set hword value) ⟨hword.ne, hlen⟩ ?_
        (fun _ => judges_send _) trivial
      simp [Verb.InRange, UserArgsFit, hu]
  · simp [Judges]

theorem judges_setex (hline : splitTag line = (tag, raw)) (hbad : tag ≠ .badTag)
    (hu : username.length ≤ 150) :
    Judges (SeqFits conn tag ∧ UserArgsFit now "SETEX" args)
      (TCPServer.cmdSetex conn now username args (TCPServer.requestId? tag)) := by
  unfold TCPServer.cmdSetex
  dsimp only
  split
  · next key secs value hargs =>
      obtain ⟨hword, -⟩ := word_of_wordsUpTo hargs
      unfold Judges
      rw [Prog.always_bind]
      refine always_seconds (fun n hn => ?_) (by simp) fun _ => trivial
      dsimp only
      rw [Prog.always_bind]
      refine always_validKey (fun hlen => ?_) trivial
      refine judges_strOfInt fun hp => ?_
      refine judges_submit hline hbad (parseVerb_setex hword hp value) ⟨hword.ne, hlen⟩ ?_
        (fun _ => judges_send _) trivial
      simp [Verb.InRange, UserArgsFit, hu, hargs, hn, and_comm]
  · simp [Judges]

theorem judges_delete (hline : splitTag line = (tag, raw)) (hbad : tag ≠ .badTag)
    (hu : username.length ≤ 150) :
    Judges (SeqFits conn tag ∧ UserArgsFit now "DELETE" args)
      (TCPServer.cmdDelete conn now username args (TCPServer.requestId? tag)) := by
  unfold TCPServer.cmdDelete
  refine judges_word fun key hargs => judges_strOfInt fun hp => ?_
  refine judges_submit hline hbad (parseVerb_delete (word_of_splitWords hargs) hp) trivial ?_
    (fun _ => judges_send _) trivial
  simp [Verb.InRange, UserArgsFit, hu]

theorem judges_expire (hline : splitTag line = (tag, raw)) (hbad : tag ≠ .badTag)
    (hu : username.length ≤ 150) :
    Judges (SeqFits conn tag ∧ UserArgsFit now "EXPIRE" args)
      (TCPServer.cmdExpire conn now username args (TCPServer.requestId? tag)) := by
  unfold TCPServer.cmdExpire
  dsimp only
  split
  · next key secs hargs =>
      have hword := word_of_splitWords hargs
      unfold Judges
      rw [Prog.always_bind]
      refine always_seconds (fun n hn => ?_) (by simp) fun _ => trivial
      refine judges_strOfInt fun hp => judges_strOfInt fun hp' => ?_
      refine judges_submit hline hbad (parseVerb_expireAt hword hp hp') hword.ne ?_
        (fun _ => judges_send _) trivial
      simp [Verb.InRange, UserArgsFit, hu, hargs, hn, and_comm]
  · simp [Judges]

theorem judges_persist (hline : splitTag line = (tag, raw)) (hbad : tag ≠ .badTag)
    (hu : username.length ≤ 150) :
    Judges (SeqFits conn tag ∧ UserArgsFit now "PERSIST" args)
      (TCPServer.cmdPersist conn now username args (TCPServer.requestId? tag)) := by
  unfold TCPServer.cmdPersist
  refine judges_word fun key hargs => judges_strOfInt fun hp => ?_
  have hword := word_of_splitWords hargs
  refine judges_submit hline hbad (parseVerb_persist hword hp) hword.ne ?_
    (fun _ => judges_send _) trivial
  simp [Verb.InRange, UserArgsFit, hu]

theorem judges_importUser (hline : splitTag line = (tag, raw)) (hbad : tag ≠ .badTag) :
    Judges (SeqFits conn tag ∧ AdminArgsFit "IMPORTUSER" args)
      (TCPServer.adminImportUser conn args (TCPServer.requestId? tag)) := by
  unfold TCPServer.adminImportUser
  dsimp only
  split
  · next username passwordHash hargs =>
      split
      · simp [Judges]
      · next hvalid =>
          have hu := username_of_valid (Option.not_isSome_iff_eq_none.mp hvalid)
          refine judges_submit hline hbad (parseVerb_signup passwordHash) trivial ?_
            (fun _ => judges_send _) trivial
          simp [Verb.InRange, AdminArgsFit, hu, hargs, and_comm]
  · simp [Judges]

theorem judges_importSet (hline : splitTag line = (tag, raw)) (hbad : tag ≠ .badTag) :
    Judges (SeqFits conn tag ∧ AdminArgsFit "IMPORTSET" args)
      (TCPServer.adminImportSet conn now args (TCPServer.requestId? tag)) := by
  unfold TCPServer.adminImportSet
  dsimp only
  split
  · next username key expireAt value hargs =>
      obtain ⟨-, l, hrest⟩ := word_of_wordsUpTo hargs
      obtain ⟨hword, -⟩ := word_of_wordsUpTo hrest.symm
      split
      · simp [Judges]
      · unfold Judges
        rw [Prog.always_bind]
        refine always_validKey (fun hlen => ?_) trivial
        rw [if_pos rfl, Prog.always_bind]
        refine always_intOfDigits (fun n hn => ?_) fun _ => trivial
        split
        · simp
        · by_cases hz : n = 0
          · subst hz
            refine judges_submit hline hbad (parseVerb_set hword value) ⟨hword.ne, hlen⟩ ?_
              (fun _ => judges_send _) trivial
            simp [Verb.InRange, AdminArgsFit, hargs, hn, and_comm, isInt64]
          · rw [if_pos hz]
            refine judges_submit hline hbad
              (parseVerb_setex hword (PyText.isPrintable_of_toInt hn) value) ⟨hword.ne, hlen⟩ ?_
              (fun _ => judges_send _) trivial
            simp [Verb.InRange, AdminArgsFit, hargs, hn, and_comm, and_assoc]
  · simp [Judges]

/-! ## Handlers that write nothing -/

variable {fit : Prop}

/-- A call that is no submission. -/
theorem judges_ask {β : Type} {c : ServerCall β} {α : Type} {f : β → Served α}
    (hc : ∀ S : String → String → String → Prop, Writes S c) (hf : ∀ b, Judges fit (f b)) :
    Judges fit (Prog.ask c >>= f) := by
  unfold Judges
  rw [Prog.always_bind]
  exact ⟨hc _, fun r _ => hf r⟩

theorem judges_askOrRaise {β : Type} {c : ServerCall (Except ServerError β)} {α : Type}
    {f : β → Served α} (hc : ∀ S : String → String → String → Prop, Writes S c)
    (hf : ∀ b, Judges fit (f b)) : Judges fit (Prog.askOrRaise c >>= f) := by
  unfold Judges
  rw [Prog.always_bind, Prog.always_askOrRaise]
  exact ⟨hc _, fun r _ => hf r, fun _ _ => trivial⟩

/-- A read behind the barrier. -/
theorem judges_read (self : TCPServer) {p : Served Unit} (hp : Judges fit p) :
    Judges fit (do if ← self.readBarrier then p) := by
  unfold Judges
  rw [Prog.always_bind]
  refine always_readBarrier self (fun b => ?_) fun _ => trivial
  split
  · exact hp
  · trivial

theorem judges_get (self : TCPServer) (t : Option String) :
    Judges fit (self.cmdGet username args t) := by
  unfold TCPServer.cmdGet
  refine judges_word fun _ _ => judges_read self ?_
  exact judges_askOrRaise (fun _ => trivial) fun _ => judges_send _

theorem judges_has (self : TCPServer) (t : Option String) :
    Judges fit (self.cmdHas username args t) := by
  unfold TCPServer.cmdHas
  refine judges_word fun _ _ => judges_read self ?_
  exact judges_askOrRaise (fun _ => trivial) fun _ => judges_send _

theorem judges_ttl (self : TCPServer) (t : Option String) :
    Judges fit (self.cmdTtl username args t) := by
  unfold TCPServer.cmdTtl
  refine judges_word fun _ _ => judges_read self ?_
  exact judges_askOrRaise (fun _ => trivial) fun _ => judges_strOfInt fun _ => judges_send _

theorem judges_keys (self : TCPServer) (t : Option String) :
    Judges fit (self.cmdKeys username args t) := by
  unfold TCPServer.cmdKeys
  dsimp only
  split
  · exact judges_send _
  · exact judges_read self (judges_askOrRaise (fun _ => trivial) fun _ => judges_send _)

theorem judges_info : Judges fit TCPServer.cmdInfo :=
  judges_ask (fun _ => trivial) fun _ => judges_send _

theorem judges_members (self : TCPServer) : Judges fit self.cmdMembers :=
  judges_ask (fun _ => trivial) fun _ => judges_ask (fun _ => trivial) fun _ => judges_send _

theorem judges_notLeader (self : TCPServer) (leader : Option NodeId) :
    Judges fit (do
      let message ← self.notLeaderMessage leader
      send message) := by
  unfold TCPServer.notLeaderMessage Judges
  rw [Prog.always_bind]
  cases leader with
  | none => simp
  | some id =>
      dsimp only
      split
      · simp only [Prog.always_bind, Prog.always_pure]
        split <;> simp
      · simp only [Prog.always_bind, Prog.always_ask]
        refine ⟨trivial, fun m _ => ?_⟩
        split <;> simp

theorem judges_change (self : TCPServer) {change : ServerCall (Except ServerError Unit)}
    (hc : ∀ S : String → String → String → Prop, Writes S change) :
    Judges fit (self.membershipChange change) := by
  unfold TCPServer.membershipChange Judges
  rw [Prog.always_tryCatch, Prog.always_bind, Prog.always_askOrRaise]
  refine ⟨hc _, fun _ _ => judges_send _, fun e _ => ?_⟩
  cases e with
  | notLeader leaderId =>
      dsimp only
      split
      · exact judges_notLeader self _
      · exact judges_ask (fun _ => trivial) fun leader => judges_notLeader self leader
  | configChange message => exact judges_send _
  | proposal message => exact judges_send _
  | other message => trivial

theorem judges_isAddress {text : String} {α : Type} {f : Bool → Served α}
    (hf : ∀ b, Judges fit (f b)) : Judges fit (isAddress text >>= f) := by
  unfold Judges
  rw [Prog.always_bind]
  unfold isAddress
  generalize PyText.rpartition ':' text.toList = parts
  obtain ⟨host, port⟩ := parts
  dsimp only
  split
  · rw [Prog.always_bind]
    refine always_intOfDigits (fun n _ => ?_) fun _ => trivial
    rw [Prog.always_pure]
    exact hf _
  · rw [Prog.always_pure]
    exact hf _

theorem judges_addNode (self : TCPServer) (t : Option String) :
    Judges fit (self.adminAddNode args t) := by
  unfold TCPServer.adminAddNode
  dsimp only
  split
  · split
    · exact judges_send _
    · refine judges_isAddress fun b => ?_
      split
      · exact judges_send _
      · refine judges_isAddress fun b => ?_
        split
        · exact judges_send _
        · exact judges_change self fun _ => trivial
  · exact judges_send _

theorem judges_removeNode (self : TCPServer) (t : Option String) :
    Judges fit (self.adminRemoveNode args t) := by
  unfold TCPServer.adminRemoveNode
  exact judges_word fun _ _ => judges_change self fun _ => trivial

/-! ## Lines of a session -/

/-- A command line is judged as its handler is. -/
theorem judges_dispatch {handlers : List (String × TCPServer.Handler)} {usage : String}
    (hbad : (splitTag line).1 ≠ .badTag →
      ∀ first rest, splitUpTo 1 (splitTag line).2 = first :: rest →
      ∀ handler, (String.ofList (PyText.upper first.toList), handler) ∈ handlers →
      Judges fit (handler (rest.headD "") (TCPServer.requestId? (splitTag line).1))) :
    Judges fit (TCPServer.dispatch handlers usage line) := by
  unfold TCPServer.dispatch
  generalize splitTag line = cut at hbad
  obtain ⟨t, r⟩ := cut
  dsimp only
  split
  · simp [Judges]
  · next ht =>
      split
      · trivial
      · next first rest hsplit =>
          split
          · simp [Judges]
          · split
            · simp [Judges]
            · next handler hl =>
                have h := hbad ht first rest hsplit handler (mem_of_lookup hl)
                unfold Judges
                rw [Prog.always_bind, Prog.always_tryCatch]
                exact Prog.always_mono h (fun _ hc => hc) (fun _ _ => trivial)
                  fun _ _ => judges_send _

theorem judges_user (self : TCPServer) (hu : username.length ≤ 150) :
    Judges (LineFits conn now (.user username) line)
      (TCPServer.dispatch (self.userHandlers conn now username) TCPServer.userUsage line) := by
  refine judges_dispatch fun hbad first rest hsplit handler hh => ?_
  have hfit : LineFits conn now (.user username) line ↔ SeqFits conn (splitTag line).1 ∧
      UserArgsFit now (String.ofList (PyText.upper first.toList)) (rest.headD "") := by
    unfold LineFits
    rw [hsplit]
    rfl
  have hline : splitTag line = ((splitTag line).1, (splitTag line).2) := rfl
  rw [hfit]
  generalize String.ofList (PyText.upper first.toList) = command at hh
  simp only [TCPServer.userHandlers, List.mem_cons, Prod.mk.injEq, List.not_mem_nil,
    or_false] at hh
  rcases hh with ⟨rfl, rfl⟩ | ⟨rfl, rfl⟩ | ⟨rfl, rfl⟩ | ⟨rfl, rfl⟩ | ⟨rfl, rfl⟩ | ⟨rfl, rfl⟩ |
    ⟨rfl, rfl⟩ | ⟨rfl, rfl⟩ | ⟨rfl, rfl⟩ | ⟨rfl, rfl⟩ | ⟨rfl, rfl⟩
  · exact judges_set hline hbad hu
  · exact judges_setex hline hbad hu
  · exact judges_get self _
  · exact judges_has self _
  · exact judges_delete hline hbad hu
  · exact judges_expire hline hbad hu
  · exact judges_persist hline hbad hu
  · exact judges_ttl self _
  · exact judges_keys self _
  · exact judges_info
  · exact judges_members self

theorem judges_admin (self : TCPServer) :
    Judges (LineFits conn now .admin line)
      (TCPServer.dispatch (self.adminHandlers conn now) TCPServer.adminUsage line) := by
  refine judges_dispatch fun hbad first rest hsplit handler hh => ?_
  have hfit : LineFits conn now .admin line ↔ SeqFits conn (splitTag line).1 ∧
      AdminArgsFit (String.ofList (PyText.upper first.toList)) (rest.headD "") := by
    unfold LineFits
    rw [hsplit]
    rfl
  have hline : splitTag line = ((splitTag line).1, (splitTag line).2) := rfl
  rw [hfit]
  generalize String.ofList (PyText.upper first.toList) = command at hh
  simp only [TCPServer.adminHandlers, List.mem_cons, Prod.mk.injEq, List.not_mem_nil,
    or_false] at hh
  rcases hh with ⟨rfl, rfl⟩ | ⟨rfl, rfl⟩ | ⟨rfl, rfl⟩ | ⟨rfl, rfl⟩ | ⟨rfl, rfl⟩ | ⟨rfl, rfl⟩
  · exact judges_addNode self _
  · exact judges_removeNode self _
  · exact judges_importUser hline hbad
  · exact judges_importSet hline hbad
  · exact judges_members self
  · exact judges_info

/-! ## Lines before the login -/

/-- The names with which a connection can get through are short. -/
def NameFits (principal : Option String) : Prop := ∀ u, principal = some u → u.length ≤ 150

/-- `Judges`, and a name that gets through fits. -/
def JudgesName (fit : Prop) (p : Served (Option String)) : Prop :=
  p.Always Answered (Writes fun command username requestId =>
    Harmless command username requestId ↔ fit) NameFits fun _ => True

/-- A user who is found has a name that fits its column. -/
theorem length_of_found {username : String}
    (h : Answered (.userExists username) (.ok true)) : username.length ≤ 150 := by
  obtain ⟨m, s, hm, hv⟩ := h rfl
  have hrun := run_eq_of_value? hv
  obtain ⟨hs, -, hr⟩ := (wp_of_run_ok hrun).mp (wp_getStore_sound hm)
  exact (hs.fits.users _ (Dict.get?_eq_some.mp (hs.shown _ _ hr).hash)).1

theorem judges_enter {principal : Option String} :
    (TCPServer.enter principal).Always Answered (Writes fun command username requestId =>
      Harmless command username requestId ↔ fit)
      (fun phase => ∀ u, phase = .user u → principal = some u) fun _ => True := by
  unfold TCPServer.enter
  split
  · rintro u ⟨⟩
  · next u hu =>
      rw [Prog.always_bind, always_send, Prog.always_pure]
      rintro u' ⟨⟩
      exact (Option.filter_eq_some_iff.mp hu).1

theorem always_recv {S : String → String → String → Prop} {Q : Option String → Prop}
    {R : ServerError → Prop} (hQ : ∀ line, Q line) : recv.Always Answered (Writes S) Q R := by
  unfold recv
  rw [Prog.always_bind, Prog.always_ask]
  refine ⟨trivial, fun line _ => ?_⟩
  cases line with
  | closed => exact hQ _
  | tooLong => simpa using hQ none
  | line text => exact hQ _

theorem judgesName_refused (message : String) :
    JudgesName fit (do
      send message
      pure none) := by
  unfold JudgesName
  rw [Prog.always_bind, always_send, Prog.always_pure]
  rintro u ⟨⟩

theorem nameFits_none : NameFits none := by rintro u ⟨⟩

/-- A password that is checked. -/
theorem judgesName_verify (hname : NameFits (some username)) (password : String) :
    JudgesName fit (do
      if ← Prog.askOrRaise (.verifyPassword username password) then pure (some username)
      else
        send "ERROR: Wrong password"
        pure none) := by
  unfold JudgesName
  rw [Prog.always_bind, Prog.always_askOrRaise]
  refine ⟨trivial, fun right _ => ?_, fun _ _ => trivial⟩
  split
  · exact hname
  · exact judgesName_refused _

theorem judgesName_password (hname : NameFits (some username)) (prompt : String) :
    JudgesName fit (do
      send prompt
      match ← recv with
      | none => pure none
      | some password =>
        if ← Prog.askOrRaise (.verifyPassword username password) then pure (some username)
        else
          send "ERROR: Wrong password"
          pure none) := by
  unfold JudgesName
  rw [Prog.always_bind, always_send, Prog.always_bind]
  refine always_recv fun line => ?_
  cases line with
  | none => exact nameFits_none
  | some password => exact judgesName_verify hname password

theorem judges_login (self : TCPServer) : JudgesName fit self.doLogin := by
  unfold TCPServer.doLogin JudgesName
  rw [Prog.always_bind, always_send, Prog.always_bind]
  refine always_recv fun line => ?_
  cases line with
  | none => exact nameFits_none
  | some username =>
      dsimp only
      rw [Prog.always_bind, Prog.always_askOrRaise]
      refine ⟨trivial, fun found _ => ?_, fun _ _ => trivial⟩
      rw [Prog.always_bind]
      have hbarrier : Judges fit (self.catchUp found) := by
        unfold TCPServer.catchUp Judges
        split
        · exact always_readBarrier self (fun _ => trivial) fun _ => trivial
        · trivial
      refine Prog.always_mono hbarrier (fun _ h => h) (fun caughtUp _ => ?_) fun _ h => h
      split
      · exact nameFits_none
      · rw [Prog.always_bind, Prog.always_askOrRaise]
        refine ⟨trivial, fun here hhere => ?_, fun _ _ => trivial⟩
        split
        · exact judgesName_refused _
        · next hyes =>
            have hname : NameFits (some username) := by
              rintro u ⟨⟩
              refine length_of_found ?_
              cases here with
              | true => exact hhere
              | false => simp at hyes
            exact judgesName_password hname _

/-- The retry of a SIGNUP writes nothing. -/
theorem judges_retrySignup {t : Option String} (hu : username.length ≤ 150) :
    JudgesName fit (TCPServer.retrySignup username t) := by
  have hname : NameFits (some username) := by
    rintro u ⟨⟩
    exact hu
  unfold TCPServer.retrySignup JudgesName
  rw [Prog.always_bind]
  have hask : Judges fit (TCPServer.hasCreated t) := by
    cases t with
    | none => trivial
    | some requestId => exact judges_askOrRaise (fun _ => trivial) fun _ => trivial
  refine Prog.always_mono hask (fun _ h => h) (fun created _ => ?_) fun _ h => h
  split
  · rw [Prog.always_bind, always_send, Prog.always_bind]
    refine always_recv fun line => ?_
    cases line with
    | none => exact judgesName_refused _
    | some password => exact judgesName_verify hname _
  · exact judgesName_refused _

/-- A SIGNUP writes one command, which fits. -/
theorem judges_signup (hline : splitTag line = (tag, raw)) (hbad : tag ≠ .badTag) :
    JudgesName (SeqFits conn tag) (TCPServer.doSignup conn (TCPServer.requestId? tag)) := by
  unfold TCPServer.doSignup JudgesName
  rw [Prog.always_bind, always_send, Prog.always_bind]
  refine always_recv fun name => ?_
  cases name with
  | none => exact nameFits_none
  | some username =>
      dsimp only
      split
      · exact judgesName_refused _
      · next hvalid =>
          have hu := username_of_valid hvalid
          have hname : NameFits (some username) := by
            rintro u ⟨⟩
            exact hu
          rw [Prog.always_bind, Prog.always_askOrRaise]
          refine ⟨trivial, fun found _ => ?_, fun _ _ => trivial⟩
          split
          · exact judges_retrySignup hu
          · rw [Prog.always_bind, always_send, Prog.always_bind]
            refine always_recv fun line => ?_
            cases line with
            | none => exact nameFits_none
            | some password =>
                dsimp only
                split
                · exact judgesName_refused _
                · rw [Prog.always_bind, Prog.always_ask]
                  refine ⟨trivial, fun passwordHash hhash => ?_⟩
                  rw [Prog.always_bind]
                  refine always_submit (fun hown => ?_) (fun r => ?_) fun _ => trivial
                  · rw [harmless_of_line hline hbad hown (parseVerb_signup passwordHash) trivial]
                    exact ⟨fun h => h.2.2, fun h => ⟨hu, hhash, h⟩⟩
                  · cases r with
                    | none => exact nameFits_none
                    | some created =>
                        dsimp only
                        split
                        · exact hname
                        · exact judgesName_refused _

theorem judges_token (self : TCPServer) : Judges fit self.doAdmin := by
  unfold TCPServer.doAdmin Judges
  rw [Prog.always_bind, always_send, Prog.always_bind]
  refine always_recv fun line => ?_
  cases line with
  | none => trivial
  | some token =>
      dsimp only
      split
      · simp
      · split <;> simp

/-- The lines before the login. -/
theorem judges_auth (self : TCPServer) :
    (self.handleAuth conn line).Always Answered (Writes fun command username requestId =>
      Harmless command username requestId ↔ SeqFits conn (splitTag line).1)
      (fun phase => ∀ u, phase = .user u → u.length ≤ 150) fun _ => True := by
  have henter : ∀ {fit : Prop} {p : Served (Option String)}, JudgesName fit p →
      (p >>= TCPServer.enter).Always Answered (Writes fun command username requestId =>
        Harmless command username requestId ↔ fit)
        (fun phase => ∀ u, phase = .user u → u.length ≤ 150) fun _ => True := by
    intro fit p hp
    rw [Prog.always_bind]
    refine Prog.always_mono hp (fun _ h => h) (fun principal hname => ?_) fun _ h => h
    exact Prog.always_mono judges_enter (fun _ h => h)
      (fun phase h u hu => hname u (h u hu)) fun _ h => h
  unfold TCPServer.handleAuth
  generalize hline : splitTag line = cut
  obtain ⟨t, r⟩ := cut
  dsimp only
  split
  · simp
  · next hbad =>
      split
      · exact henter (judges_login self)
      · exact henter (judges_signup hline hbad)
      · rw [Prog.always_bind]
        refine Prog.always_mono (judges_token self) (fun _ h => h) (fun passed _ => ?_) fun _ h => h
        split
        · simp
        · simp
      · simp
      · simp

/-! ## Sessions -/

/-- What a connection does with a line. -/
theorem judges_serve (self : TCPServer) {phase : TCPServer.Phase}
    (hp : ∀ u, phase = .user u → u.length ≤ 150) :
    (self.serve conn now phase line).Always Answered (Writes fun command username requestId =>
      Harmless command username requestId ↔ LineFits conn now phase line)
      (fun phase => ∀ u, phase = .user u → u.length ≤ 150) fun _ => True := by
  cases phase with
  | auth =>
      have hfit : LineFits conn now .auth line ↔ SeqFits conn (splitTag line).1 := by
        unfold LineFits SeqFits
        split <;> simp
      unfold TCPServer.serve
      rw [hfit]
      exact judges_auth self
  | user username =>
      unfold TCPServer.serve
      rw [Prog.always_bind]
      refine Prog.always_mono (judges_user self (hp username rfl)) (fun _ h => h)
        (fun goOn _ => ?_) fun _ h => h
      rw [Prog.always_pure]
      split
      · exact hp
      · rintro u ⟨⟩
  | admin =>
      unfold TCPServer.serve
      rw [Prog.always_bind]
      refine Prog.always_mono (judges_admin self) (fun _ h => h) (fun goOn _ => ?_) fun _ h => h
      rw [Prog.always_pure]
      split <;> rintro u ⟨⟩
  | closed =>
      rintro u ⟨⟩

end Judges

/-- The name of a session's user fits its column. -/
theorem name_fits {self : TCPServer} {phase : TCPServer.Phase} (h : Reachable self phase) :
    ∀ u, phase = .user u → u.length ≤ 150 := by
  induction h with
  | start => rintro u ⟨⟩
  | turn conn now _ he ih =>
      refine Prog.always_ends (P := fun _ => True)
        (Q := fun phase => ∀ u, phase = .user u → u.length ≤ 150) (R := fun _ => True) ?_ he
      unfold TCPServer.turn
      rw [Prog.always_tryCatch, Prog.always_bind]
      have hclosed : ∀ u, TCPServer.Phase.closed = .user u → u.length ≤ 150 := by rintro u ⟨⟩
      refine Prog.always_mono (always_recv (S := fun _ _ _ => True)
        (Q := fun line => (match line with
          | none => pure .closed
          | some line => self.serve conn now _ line : Served TCPServer.Phase).Always Answered
            (fun _ => True) (fun phase => ∀ u, phase = .user u → u.length ≤ 150) _)
        fun line => ?_) (fun _ _ => trivial) (fun _ h => h) fun _ h => h
      cases line with
      | none => exact hclosed
      | some line =>
          exact Prog.always_mono (judges_serve self ih) (fun _ _ => trivial) (fun _ h => h)
            fun _ _ => hclosed

/-- In every session, every write that a line submits can be applied by
every node exactly if the line fits. -/
theorem line_is_harmless_iff (self : TCPServer) {phase : TCPServer.Phase}
    (h : Reachable self phase) (conn : ClientConnection) (now : Int) (line : String) :
    (self.serve conn now phase line).Always Answered (Writes fun command username requestId =>
      Harmless command username requestId ↔ LineFits conn now phase line)
      (fun _ => True) fun _ => True :=
  Prog.always_mono (judges_serve self (name_fits h)) (fun _ h => h) (fun _ _ => trivial)
    fun _ h => h

/-- A server with an admin token. -/
def guarded : TCPServer := ⟨false, some "token", Dict.empty⟩

/-- An admin who gave the token. -/
theorem reachable_admin : Reachable guarded .admin := by
  refine Reachable.turn somebody 0 .start ?_
  refine Prog.Ends.call (r := RawLine.line "ADMIN") trivial ?_
  refine Prog.Ends.call (r := ()) trivial ?_
  refine Prog.Ends.call (r := RawLine.line "token") trivial ?_
  refine Prog.Ends.call (r := ()) trivial ?_
  exact Prog.Ends.done _

theorem line_is_harmless_iff_import :
    (guarded.serve somebody 0 .admin "IMPORTUSER bob hash").Always Answered
      (Writes fun command username requestId => Harmless command username requestId ↔
        LineFits somebody 0 .admin "IMPORTUSER bob hash") (fun _ => True) fun _ => True :=
  line_is_harmless_iff guarded reachable_admin somebody 0 "IMPORTUSER bob hash"

/-- The line `IMPORTUSER bob xx…x` with a hash of 256 characters. -/
theorem longImport : ∃ line args passwordHash, splitTag line = (.untagged, line) ∧
    splitUpTo 1 line = ["IMPORTUSER", args] ∧ splitWords args = ["bob", passwordHash] ∧
    passwordHash.length = 256 := by
  have hline : PyText.wordsUpTo 1 ("IMPORTUSER bob ".toList ++ List.replicate 256 'x')
      = ["IMPORTUSER".toList, "bob ".toList ++ List.replicate 256 'x'] := by decide +kernel
  have hargs : PyText.words ("bob ".toList ++ List.replicate 256 'x')
      = ["bob".toList, List.replicate 256 'x'] := by decide +kernel
  refine ⟨String.ofList ("IMPORTUSER bob ".toList ++ List.replicate 256 'x'),
    String.ofList ("bob ".toList ++ List.replicate 256 'x'),
    String.ofList (List.replicate 256 'x'), ?_, ?_, ?_,
    by rw [String.length_ofList, List.length_replicate]⟩
  · refine splitTag_untagged ?_
    rw [String.toList_ofList, List.head?_append]
    decide
  · unfold splitUpTo
    rw [String.toList_ofList, hline]
    rfl
  · unfold splitWords
    rw [String.toList_ofList, hargs]
    rfl

theorem isPrintable_somebody : PyText.isPrintable somebody.seq = true := by decide

/-- What an import of a user writes. -/
theorem importUser_writes {line args passwordHash : String}
    (htag : splitTag line = (.untagged, line)) (hline : splitUpTo 1 line = ["IMPORTUSER", args])
    (hargs : splitWords args = ["bob", passwordHash]) {S : String → String → String → Prop}
    (h : (guarded.serve somebody 0 .admin line).Always Answered (Writes S) (fun _ => True)
      fun _ => True) : S s!"SIGNUP {passwordHash}" "bob" somebody.ownId := by
  have hup : String.ofList (PyText.upper "IMPORTUSER".toList) = "IMPORTUSER" := by decide +kernel
  have hl : (guarded.adminHandlers somebody 0).lookup "IMPORTUSER"
      = some (TCPServer.adminImportUser somebody) := rfl
  have hv : ¬ (validateUsername "bob").isSome = true := by decide +kernel
  unfold TCPServer.serve at h
  dsimp only at h
  rw [Prog.always_bind] at h
  unfold TCPServer.dispatch at h
  rw [htag] at h
  dsimp only at h
  rw [if_neg (by decide), hline] at h
  dsimp only at h
  rw [hup, if_neg (by decide), hl] at h
  dsimp only at h
  rw [Prog.always_bind, Prog.always_tryCatch, List.headD_cons] at h
  unfold TCPServer.adminImportUser at h
  dsimp only at h
  rw [hargs] at h
  dsimp only at h
  rw [if_neg hv, Prog.always_bind] at h
  unfold TCPServer.submit ClientConnection.nextRequestId strOfInt at h
  rw [if_pos isPrintable_somebody] at h
  exact h.1

theorem long_hash_is_poison :
    ¬ ∀ (self : TCPServer) (phase : TCPServer.Phase), Reachable self phase →
      ∀ (conn : ClientConnection) (now : Int) (line : String),
        (self.serve conn now phase line).Always Answered (Writes Harmless) (fun _ => True)
          fun _ => True := by
  intro h
  obtain ⟨line, args, passwordHash, htag, hline, hargs, hlen⟩ := longImport
  have hw := importUser_writes htag hline hargs (h guarded .admin reachable_admin somebody 0 line)
  have hr := inRange_of_harmless (parseVerb_signup passwordHash) trivial
    (parseRequestId_own isPrintable_somebody) hw
  have hshort : passwordHash.length ≤ 255 := hr
  omega

end KvCache
