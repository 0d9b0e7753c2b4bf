import KvCache.Server
import KvCache.StateMachine

/-!
# The writes that the server submits

A write travels as text: a handler of the server puts a command together from
what it cut out of the client's line, the log carries it, and `_apply_command`
of every node takes it apart again. Here are the lemmas that the two ends fit.

The handlers cut at white space, so a key that arrives in a command is a `Word`:
not empty, and without white space in it. That is all that reading it back
needs. `_apply_command` partitions at single spaces, and a word followed by a
space is found again whatever comes after it, so a value may contain spaces and
a key may not (`parseVerb_set`, `parseVerb_setex`, and one lemma for each of the
other verbs).

Numbers are written with `str` and read with `int`. Both give up beyond 4300
digits, `str` by raising in the handler, so the lemmas about texts with numbers
in them ask for `PyText.isPrintable`, which is what the handler has checked by
the time it submits.

Request ids come from two places: from the tag of a line, where the pattern of
`splitTag` leaves at most 64 characters of a client id and at most 18 digits
(`tagged_of_splitTag`), or from the connection itself, which counts
(`parseRequestId_own`). `_parse_request_id` reads both.
-/

namespace KvCache

/-! ## Arguments -/

/-- What a cut at white space leaves: not empty, and without white space. -/
structure Word (text : String) : Prop where
  ne : text ≠ ""
  noSpace : ∀ c ∈ text.toList, PyText.isSpace c = false

theorem Word.notMem {text : String} (h : Word text) : ' ' ∉ text.toList := fun hm =>
  absurd (h.noSpace ' ' hm) (by decide)

/-- A piece of a text that the handlers cut out is a word. -/
theorem word_ofList {w : List Char} (hne : w ≠ []) (h : ∀ c ∈ w, PyText.isSpace c = false) :
    Word (String.ofList w) := by
  refine ⟨fun he => hne ?_, by simpa using h⟩
  have := congrArg String.toList he
  simpa using this

/-- `split()` finds words only. -/
theorem word_of_splitWords {text w : String} {ws : List String} (h : splitWords text = w :: ws) :
    Word w := by
  obtain ⟨l, ls, hl, rfl, -⟩ := List.map_eq_cons_iff.mp h
  obtain ⟨hne, hs⟩ := PyText.words_cons hl
  exact word_ofList hne hs

/-- `split(None, n)` finds a word before each cut; what follows the last cut
may be anything. -/
theorem word_of_wordsUpTo {n : Nat} {l : List Char} {w : String} {ws : List String}
    (h : (PyText.wordsUpTo (n + 1) l).map String.ofList = w :: ws) :
    Word w ∧ ∃ l', ws = (PyText.wordsUpTo n l').map String.ofList := by
  obtain ⟨l, ls, hl, rfl, rfl⟩ := List.map_eq_cons_iff.mp h
  obtain ⟨hne, hs, l', rfl⟩ := PyText.wordsUpTo_cons hl
  exact ⟨word_ofList hne hs, l', rfl⟩

/-! ## Command texts -/

section Texts

variable {key : String}

theorem space_notMem_repr (n : Int) : ' ' ∉ n.repr.toList := fun h =>
  absurd (PyText.isSpace_of_mem_repr n ' ' h) (by decide)

theorem readInt_repr {n : Int} (h : PyText.isPrintable n = true) :
    readInt n.repr.toList = .ok n := by
  rw [readInt, PyText.toInt_repr h]

theorem toString_text (s : String) : toString s = s := rfl

/-- The verb of a text is its first word. -/
theorem parseVerb_word {text : String} {verb rest : List Char} (hv : ' ' ∉ verb)
    (h : text.toList = verb ++ ' ' :: rest) :
    PyText.partition ' ' text.toList = (verb, rest) := by
  rw [h, PyText.partition_append hv]

/-- The hash is all that follows, spaces and all. -/
theorem parseVerb_signup (passwordHash : String) :
    parseVerb s!"SIGNUP {passwordHash}" = .ok (.signup passwordHash) := by
  have h : (s!"SIGNUP {passwordHash}").toList = "SIGNUP".toList ++ ' ' :: passwordHash.toList := by
    simp [toString_text]
  unfold parseVerb
  rw [parseVerb_word (by decide) h]
  simp [pure, Except.pure]

/-- The key ends at the first space; the value may have more of them. -/
theorem parseVerb_set (hk : Word key) (value : String) :
    parseVerb s!"SET {key} {value}" = .ok (.set key value none) := by
  have h : (s!"SET {key} {value}").toList
      = "SET".toList ++ ' ' :: (key.toList ++ ' ' :: value.toList) := by
    simp [toString_text]
  unfold parseVerb
  rw [parseVerb_word (by decide) h]
  simp [pure, Except.pure, PyText.partition_append hk.notMem]

/-- A SETEX carries its expiry time as digits, between key and value. -/
theorem parseVerb_setex (hk : Word key) {expireAt : Int}
    (he : PyText.isPrintable expireAt = true) (value : String) :
    parseVerb s!"SETEX {key} {expireAt.repr} {value}" = .ok (.set key value (some expireAt)) := by
  have h : (s!"SETEX {key} {expireAt.repr} {value}").toList
      = "SETEX".toList ++ ' ' :: (key.toList ++ ' ' :: (expireAt.repr.toList ++ ' ' :: value.toList)) := by
    simp [toString_text]
  unfold parseVerb
  rw [parseVerb_word (by decide) h]
  have hs : PyText.splitAt ' ' 2 (key.toList ++ ' ' :: (expireAt.repr.toList ++ ' ' :: value.toList))
      = [key.toList, expireAt.repr.toList, value.toList] := by
    rw [PyText.splitAt_append hk.notMem, PyText.splitAt_append (space_notMem_repr expireAt),
      PyText.splitAt]
  simp only [String.ofList_toList, hs, readInt_repr he]
  rfl

/-- A DELETE of a server always has its time. -/
theorem parseVerb_delete (hk : Word key) {now : Int} (hn : PyText.isPrintable now = true) :
    parseVerb s!"DELETE {key} {now.repr}" = .ok (.delete key (some now)) := by
  have h : (s!"DELETE {key} {now.repr}").toList
      = "DELETE".toList ++ ' ' :: (key.toList ++ ' ' :: now.repr.toList) := by
    simp [toString_text]
  have hne : now.repr.toList ≠ [] := by
    intro he
    have := readInt_repr hn
    rw [he] at this
    cases this
  unfold parseVerb
  rw [parseVerb_word (by decide) h]
  simp only [String.ofList_toList, PyText.partition_append hk.notMem, hne, if_false,
    readInt_repr hn]
  rfl

/-- Three pieces of a text without more spaces. -/
theorem split_three {a b c : List Char} (ha : ' ' ∉ a) (hb : ' ' ∉ b) (hc : ' ' ∉ c) :
    PyText.split ' ' (a ++ ' ' :: (b ++ ' ' :: c)) = [a, b, c] := by
  obtain ⟨n, hn⟩ : ∃ n, (a ++ ' ' :: (b ++ ' ' :: c)).length = n + 2 :=
    ⟨a.length + b.length + c.length, by simp; omega⟩
  rw [PyText.split, hn, PyText.splitAt_append ha, PyText.splitAt_append hb,
    PyText.splitAt_of_notMem hc]

theorem split_two {a b : List Char} (ha : ' ' ∉ a) (hb : ' ' ∉ b) :
    PyText.split ' ' (a ++ ' ' :: b) = [a, b] := by
  obtain ⟨n, hn⟩ : ∃ n, (a ++ ' ' :: b).length = n + 1 := ⟨a.length + b.length, by simp; omega⟩
  rw [PyText.split, hn, PyText.splitAt_append ha, PyText.splitAt_of_notMem hb]

/-- EXPIREAT is cut at every space: three pieces, no more. -/
theorem parseVerb_expireAt (hk : Word key) {expireAt now : Int}
    (he : PyText.isPrintable expireAt = true) (hn : PyText.isPrintable now = true) :
    parseVerb s!"EXPIREAT {key} {expireAt.repr} {now.repr}"
      = .ok (.expiry key (some expireAt) now) := by
  have h : (s!"EXPIREAT {key} {expireAt.repr} {now.repr}").toList
      = "EXPIREAT".toList ++ ' ' :: (key.toList ++ ' ' :: (expireAt.repr.toList ++ ' ' :: now.repr.toList)) := by
    simp [toString_text]
  unfold parseVerb
  rw [parseVerb_word (by decide) h]
  simp only [String.ofList_toList,
    split_three hk.notMem (space_notMem_repr expireAt) (space_notMem_repr now), readInt_repr he,
    readInt_repr hn]
  rfl

/-- PERSIST is cut at every space: two pieces, no more. -/
theorem parseVerb_persist (hk : Word key) {now : Int} (hn : PyText.isPrintable now = true) :
    parseVerb s!"PERSIST {key} {now.repr}" = .ok (.expiry key none now) := by
  have h : (s!"PERSIST {key} {now.repr}").toList
      = "PERSIST".toList ++ ' ' :: (key.toList ++ ' ' :: now.repr.toList) := by
    simp [toString_text]
  unfold parseVerb
  rw [parseVerb_word (by decide) h]
  simp only [String.ofList_toList, split_two hk.notMem (space_notMem_repr now),
    readInt_repr hn]
  rfl

end Texts

/-! ## Request ids -/

/-- A request id of digits after the colon. -/
theorem parseRequestId_digits (name : String) {seq : List Char}
    (hd : ∀ c ∈ seq, c.isDigit = true) (hne : seq ≠ [])
    (hlen : seq.length ≤ PyText.maxStrDigits) :
    parseRequestId (name ++ ":" ++ String.ofList seq)
      = .ok ⟨name, (Nat.ofDigitChars 10 seq 0 : Nat)⟩ := by
  have hc : ':' ∉ seq := fun h => absurd (hd ':' h) (by decide)
  have h : (name ++ ":" ++ String.ofList seq).toList = name.toList ++ ':' :: seq := by simp
  unfold parseRequestId
  rw [h, PyText.rpartition_append hc]
  simp only [readInt, PyText.toInt_of_isDigit hd hne hlen, String.ofList_toList]
  rfl

/-- The id of a write without a tag. -/
def ClientConnection.ownId (conn : ClientConnection) : String :=
  conn.clientId ++ ":" ++ conn.seq.repr

/-- A connection counts, and its count is read back while `str()` can write it. -/
theorem parseRequestId_own {conn : ClientConnection} (h : PyText.isPrintable conn.seq = true) :
    parseRequestId conn.ownId = .ok ⟨conn.clientId, conn.seq⟩ := by
  have hne : conn.seq.repr.toList ≠ [] := by
    rw [Nat.toList_repr]
    exact Nat.toDigits_ne_nil
  have h := parseRequestId_digits conn.clientId (PyText.isDigit_of_mem_repr conn.seq) hne
    (of_decide_eq_true h)
  rw [String.ofList_toList] at h
  rw [ClientConnection.ownId, h, Nat.toList_repr, Nat.ofDigitChars_ten_toDigits]

/-- A connection. -/
def somebody : ClientConnection := ⟨"0123456789abcdef", 1, by decide, fun _ h => h⟩

/-- What the pattern of a request tag lets through. -/
theorem matchTag_eq {head name seq : List Char} (h : matchTag head = some (name, seq)) :
    name.length ≤ 64 ∧ seq ≠ [] ∧ seq.length ≤ 18 ∧ ∀ c ∈ seq, c.isDigit = true := by
  unfold matchTag at h
  split at h
  · dsimp only at h
    split at h
    · split at h
      · next hc =>
          obtain ⟨rfl, rfl⟩ := Prod.mk.inj (Option.some.inj h)
          refine ⟨hc.2.1, ?_, hc.2.2.2.1, fun c hd => List.mem_takeWhile_imp hd⟩
          intro hnil
          have := hc.2.2.1
          rw [hnil] at this
          exact absurd this (by decide)
      · cases h
    · cases h
  · cases h

/-- The request id of a tag. -/
structure Tagged (requestId : String) (id : RequestId) : Prop where
  parse : parseRequestId requestId = .ok id
  client : id.clientId.length ≤ 64
  seq : 0 ≤ id.seq ∧ id.seq < 10 ^ 18
  length : requestId.length ≤ 83

theorem mem_of_lookup {α : Type*} {l : List (String × α)} {k : String} {a : α}
    (h : l.lookup k = some a) : (k, a) ∈ l := by
  obtain ⟨l₁, l₂, rfl, -⟩ := List.lookup_eq_some_iff.mp h
  simp

/-- A line without `@` in front has no tag. -/
theorem splitTag_untagged {line : String} (h : line.toList.head? ≠ some '@') :
    splitTag line = (.untagged, line) := by
  unfold splitTag
  split
  · next hl => exact absurd (by rw [hl, List.head?_cons]) h
  · rfl

/-- Every tag that the pattern takes is a request id that `_parse_request_id`
reads, with a number below 10^18. -/
theorem tagged_of_splitTag {line requestId raw : String}
    (h : splitTag line = (.tagged requestId, raw)) : ∃ id, Tagged requestId id := by
  unfold splitTag at h
  split at h
  · dsimp only at h
    split at h
    · cases h
    · next name seq hm =>
        obtain ⟨hname, hne, hlen, hd⟩ := matchTag_eq hm
        obtain ⟨ht, -⟩ := Prod.mk.inj h
        obtain rfl := Tag.tagged.inj ht
        have hlt := PyText.ofDigitChars_lt hd 0
        have hpow : 10 ^ seq.length ≤ 10 ^ 18 := Nat.pow_le_pow_right (by decide) hlen
        refine ⟨_, parseRequestId_digits _ hd hne (hlen.trans (by decide)), by simpa using hname,
          ⟨by simp, ?_⟩, ?_⟩
        · dsimp only
          omega
        · simp only [String.length_append, String.length_ofList]
          have : ":".length = 1 := rfl
          omega
  · cases h

end KvCache
