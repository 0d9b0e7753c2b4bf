import KvCache.Deeds

/-!
# A leader was elected, while the storage may fail

`_become_follower` raises the term and clears the vote, then calls the
storage, and gives up the role last. If that call raises at a leader, the node
stays leader in a term it never stood in. That is the only way to lead a term
without the votes for it: a candidate whose `save_term_and_vote` raised keeps
the votes of its last election, but it has not asked for any in its new term,
so no reply brings it to office.
-/

namespace KvCache

open StateWp Engine

/-! ## Votes -/

/-- Each reply that gets to a thread of this process answers a call the
process has sent. -/
def Engine.Solicited (start : Engine) (evs : List NodeEvent) : Prop :=
  ∀ pre env response post, evs = pre ++ .receive (.reply env response) :: post →
    env.epoch = (start.run pre).epoch → .call env ∈ (start.run pre).outbox

/-- In one of these steps the vote of `p` for term `t` arrived. -/
def Engine.Granted (start : Engine) (evs : List NodeEvent) (t : Nat) (p : NodeId) : Prop :=
  ∃ pre ev post request response, evs = pre ++ ev :: post ∧
    ev.Answers (start.run pre) (.requestVote p request) (.requestVote response) ∧
    request.term = t ∧ response.voteGranted = true

/-- The node stands in term `t`, or this step makes it stand. -/
def Engine.Standing (e : Engine) (ev : NodeEvent) (t : Nat) : Prop :=
  e.node.currentTerm = t ∧ e.node.state = .candidate ∧ e.node.votedFor = some e.nodeId ∨
    e.node.currentTerm + 1 = t ∧ e.Stands ev

/-- In one of these steps the node stood in term `t` and had a majority of its
members, counting itself and those whose vote for this term arrived. -/
def Engine.WonTerm (start : Engine) (evs : List NodeEvent) (t : Nat) : Prop :=
  ∃ pre ev post votes, evs = pre ++ ev :: post ∧ (start.run pre).Standing ev t ∧
    (start.run pre).majority ≤ (start.run pre).countVotes votes ∧
    ∀ p ∈ votes, p = (start.run pre).nodeId ∨ start.Granted (pre ++ [ev]) t p

/-- A message takes the node, which leads, to a higher term. -/
def Engine.Deposed (e : Engine) (ev : NodeEvent) : Prop :=
  e.node.state = .leader ∧ ∃ t, e.heard ev = some t ∧ e.node.currentTerm < t

section Votes

variable {start : Engine} {evs : List NodeEvent} {t : Nat} {p : NodeId}

theorem Engine.Solicited.init {ev : NodeEvent} (h : start.Solicited (evs ++ [ev])) :
    start.Solicited evs := fun pre env response post hsplit =>
  h pre env response (post ++ [ev]) (by rw [hsplit]; simp)

theorem Engine.Granted.concat (h : start.Granted evs t p) (ev : NodeEvent) :
    start.Granted (evs ++ [ev]) t p := by
  obtain ⟨pre, v, post, request, response, rfl, hrest⟩ := h
  exact ⟨pre, v, post ++ [ev], request, response, by simp, hrest⟩

theorem Engine.WonTerm.concat (h : start.WonTerm evs t) (ev : NodeEvent) :
    start.WonTerm (evs ++ [ev]) t := by
  obtain ⟨pre, v, post, votes, rfl, hrest⟩ := h
  exact ⟨pre, v, post ++ [ev], votes, by simp, hrest⟩

end Votes

/-! ## What holds in every state -/

/-- The calls for votes of this process are for terms below `n`. -/
def Sight.BallotsBelow (s : Sight) (n : Nat) : Prop :=
  ∀ env peer request, .call env ∈ s.outbox → env.epoch = s.epoch →
    env.call = .requestVote peer request → request.term < n

/-- A candidate has the votes it collected, or it collects none in this term. -/
structure Electing (start : Engine) (evs : List NodeEvent) (s : Sight) : Prop where
  ballots : s.BallotsBelow (s.term + 1)
  candidate : s.state = .candidate → s.BallotsBelow s.term ∨
    s.vote = some s.settings.nodeId ∧
      ∀ p ∈ s.votes, p = s.settings.nodeId ∨ start.Granted evs s.term p
  leader : s.state = .leader → s.vote = some s.settings.nodeId ∧ start.WonTerm evs s.term

section Invariant

variable {start : Engine} {evs : List NodeEvent} {s : Sight}

theorem Sight.BallotsBelow.mono {n m : Nat} (h : s.BallotsBelow n) (hle : n ≤ m) :
    s.BallotsBelow m := fun env peer request hin hep hc =>
  Nat.lt_of_lt_of_le (h env peer request hin hep hc) hle

/-- New packets count only when they call for a vote. -/
theorem Sight.BallotsBelow.add {n : Nat} {outbox : List Packet} (h : s.BallotsBelow n)
    (hp : ∀ p ∈ outbox, p ∈ s.outbox ∨ ∀ env peer request, p = .call env →
      env.call = .requestVote peer request → request.term < n) :
    Sight.BallotsBelow { s with outbox := outbox } n := fun env peer request hin hep hc => by
  rcases hp _ hin with hin | hnew
  · exact h env peer request hin hep hc
  · exact hnew env peer request rfl hc

theorem Packet.Neutral.no_ballot {p : Packet} (h : p.Neutral) (env : Envelope) (peer : NodeId)
    (request : RequestVoteRequest) (hp : p = .call env) : env.call ≠ .requestVote peer request := by
  subst hp
  exact (h peer request).1

theorem Packet.Poll.no_ballot {p : Packet} {epoch t round : Nat} (h : p.Poll epoch t round)
    (env : Envelope) (peer : NodeId) (request : RequestVoteRequest) (hp : p = .call env) :
    env.call ≠ .requestVote peer request := by
  obtain ⟨env', peer', request', rfl, -, hc, -⟩ := h
  cases hp
  rw [hc]
  exact fun h => by cases h

theorem Electing.concat (h : Electing start evs s) (ev : NodeEvent) :
    Electing start (evs ++ [ev]) s where
  ballots := h.ballots
  candidate hc := (h.candidate hc).imp id fun ⟨hv, hp⟩ =>
    ⟨hv, fun p hmem => (hp p hmem).imp id fun hg => hg.concat ev⟩
  leader hl := ⟨(h.leader hl).1, (h.leader hl).2.concat ev⟩

/-- Packets that call for no vote. -/
theorem Electing.send {outbox : List Packet} (h : Electing start evs s)
    (hp : ∀ p ∈ outbox, p ∈ s.outbox ∨ ∀ env peer request, p = .call env →
      env.call ≠ .requestVote peer request) :
    Electing start evs { s with outbox := outbox } where
  ballots := h.ballots.add fun p hmem => (hp p hmem).imp id fun hno env peer request he hc =>
    absurd hc (hno env peer request he)
  candidate hc := (h.candidate hc).imp (fun hb => hb.add fun p hmem => (hp p hmem).imp id
    fun hno env peer request he hc => absurd hc (hno env peer request he)) id
  leader := h.leader

/-- The node votes, and it had voted for nobody else. -/
theorem Electing.vote {d : NodeId} (h : Electing start evs s) (hv : s.vote = none ∨ s.vote = some d) :
    Electing start evs { s with vote := some d } := by
  have hself : s.vote = some s.settings.nodeId → some d = some s.settings.nodeId := fun hs => by
    rcases hv with hv | hv
    · rw [hv] at hs
      cases hs
    · rw [← hv, hs]
  exact ⟨h.ballots, fun hc => (h.candidate hc).imp id fun ⟨hs, hp⟩ => ⟨hself hs, hp⟩,
    fun hl => ⟨hself (h.leader hl).1, (h.leader hl).2⟩⟩

/-- A follower need not have won. -/
theorem Electing.follower (h : s.BallotsBelow (s.term + 1)) (hs : s.state = .follower) :
    Electing start evs s where
  ballots := h
  candidate hc := by
    rw [hs] at hc
    cases hc
  leader hl := by
    rw [hs] at hl
    cases hl

end Invariant

/-! ## One step -/

section Steps

variable {start x y : Engine} {evs : List NodeEvent} {ev : NodeEvent}

/-- What is known in the middle of the step `ev` after `evs`. -/
structure Midway (start : Engine) (evs : List NodeEvent) (ev : NodeEvent) (s : Sight) : Prop where
  electing : Electing start (evs ++ [ev]) s
  sent : ∀ p ∈ (start.run evs).outbox, p ∈ s.outbox
  epoch : s.epoch = (start.run evs).epoch
  settings : s.settings = (start.run evs).settings
  /-- who leads led before, or moved to a new term, or heard of none -/
  leads : s.state = .leader → (start.run evs).node.state = .leader ∨
    (start.run evs).node.currentTerm < s.term ∨
    ∀ t, (start.run evs).heard ev = some t → t ≤ (start.run evs).node.currentTerm

theorem answers_congr {e : Engine} (h : x.epoch = e.epoch) {call : Call} {response : Response} :
    ev.Answers x call response ↔ ev.Answers e call response := by
  unfold NodeEvent.Answers
  rw [h]

/-- A reply to a call for votes finds that call among those sent. -/
theorem Midway.ballot (h : Midway start evs ev x.sight) (ha : start.Solicited (evs ++ [ev]))
    {peer : NodeId} {request : RequestVoteRequest} {response : Response}
    (hr : ev.Answers x (.requestVote peer request) response) {n : Nat}
    (hb : x.sight.BallotsBelow n) : request.term < n := by
  obtain ⟨env, rfl, hc, hep⟩ := hr
  exact hb env peer request (h.sent _ (ha evs env response [] rfl (hep.trans h.epoch))) hep hc

theorem mem_addVote {peer p : NodeId} (h : p ∈ (x.addVote peer).votes) : p ∈ x.votes ∨ p = peer := by
  unfold Engine.addVote at h
  dsimp only at h
  split at h
  · exact Or.inl h
  · exact (List.mem_append.mp h).imp id List.mem_singleton.mp

/-- The node is no leader once it adopted or raised a term, or it won. -/
theorem Midway.deed (ha : start.Solicited (evs ++ [ev]))
    (hd : (start.run evs).Deposed ev → (start.run evs).raises .saveTermAndVote = false)
    (hxy : Deed ev (start.run evs) x y) (h : Midway start evs ev x.sight) :
    Midway start evs ev y.sight := by
  have hb : x.sight.BallotsBelow (x.node.currentTerm + 1) := h.electing.ballots
  cases hxy with
  | rest hs =>
      rw [hs]
      exact h
  | send hp hs =>
      rw [hs]
      refine ⟨h.electing.send fun q hq => ?_, fun q hq => List.mem_append_left _ (h.sent q hq),
        h.epoch, h.settings, h.leads⟩
      rcases List.mem_append.mp hq with hq | hq
      · exact Or.inl hq
      · rw [List.mem_singleton.mp hq]
        exact Or.inr hp.no_ballot
  | power hs =>
      rw [hs]
      exact ⟨⟨hb, h.electing.candidate, h.electing.leader⟩, h.sent, h.epoch, h.settings, h.leads⟩
  | bump hs =>
      rw [hs]
      exact ⟨⟨hb, h.electing.candidate, h.electing.leader⟩, h.sent, h.epoch, h.settings, h.leads⟩
  | adoptTerm hx hh ht hr hs =>
      rw [hs]
      exact ⟨.follower (hb.mono (by exact Nat.succ_le_succ (Nat.le_of_lt ht))) rfl, h.sent, h.epoch,
        h.settings, fun hl => by cases hl⟩
  | adoptTermFails hx hh ht hr hs =>
      have hnot : x.node.state ≠ .leader := fun hl => by
        rcases h.leads hl with h' | h' | h'
        · have := hd ⟨h', _, hh, by rw [← hx.term]; exact ht⟩
          rw [← hx.raises, hr] at this
          cases this
        · exact absurd hx.term (Nat.ne_of_gt h')
        · exact absurd (h' _ hh) (by rw [← hx.term]; exact Nat.not_le.mpr ht)
      rw [hs]
      refine ⟨⟨hb.mono (Nat.succ_le_succ (Nat.le_of_lt ht)), fun _ => Or.inl ?_, fun hl => ?_⟩,
        h.sent, h.epoch, h.settings, fun hl => absurd hl hnot⟩
      · exact hb.mono (by exact ht)
      · exact absurd hl hnot
  | stepDown hs =>
      rw [hs]
      exact ⟨.follower hb rfl, h.sent, h.epoch, h.settings, fun hl => by cases hl⟩
  | vote hv hr hs =>
      rw [hs]
      have hv' := h.electing.vote hv
      exact ⟨⟨hb, hv'.candidate, hv'.leader⟩, h.sent, h.epoch, h.settings, h.leads⟩
  | voteFails hv hr hs =>
      rw [hs]
      have hv' := h.electing.vote hv
      exact ⟨⟨hb, hv'.candidate, hv'.leader⟩, h.sent, h.epoch, h.settings, h.leads⟩
  | openRound hev hl ho hp hs =>
      rw [hs]
      have hs' := h.electing.send fun q hq => (hp q hq).imp id fun hpoll => hpoll.no_ballot
      exact ⟨⟨hs'.ballots, hs'.candidate, hs'.leader⟩, fun q hq => ho (h.sent q hq), h.epoch,
        h.settings, h.leads⟩
  | addGrant hr hg hl hs =>
      rw [hs]
      exact ⟨⟨hb, h.electing.candidate, h.electing.leader⟩, h.sent, h.epoch, h.settings, h.leads⟩
  | standFails hx hw hr hs =>
      rw [hs]
      exact ⟨⟨hb.mono (Nat.le_succ _), fun _ => Or.inl hb, fun hl => by cases hl⟩, h.sent, h.epoch,
        h.settings, fun hl => by cases hl⟩
  | stand hx hw hr ho hp hs =>
      rw [hs]
      have hb' : Sight.BallotsBelow { x.sight with outbox := y.outbox } (x.node.currentTerm + 1 + 1) :=
        (hb.mono (Nat.le_succ _)).add fun q hq => (hp q hq).imp id
          fun ⟨env, peer, request, hq, _, hc, ht⟩ env' peer' request' hq' hc' => by
            rw [hq] at hq'
            cases hq'
            rw [hc] at hc'
            cases hc'
            rw [ht]
            exact Nat.lt_succ_self _
      exact ⟨⟨hb', fun _ => Or.inr ⟨rfl, fun p hmem => Or.inl (List.mem_singleton.mp hmem)⟩,
        fun hl => by cases hl⟩, fun q hq => ho (h.sent q hq), h.epoch, h.settings,
        fun hl => by cases hl⟩
  | win hx hw hr hm hs =>
      rw [hs]
      refine ⟨⟨hb.mono (Nat.le_succ _), (fun hc => by cases hc), fun _ => ⟨rfl, evs, ev, [],
        [x.nodeId], rfl, Or.inr ⟨congrArg (· + 1) hx.term.symm, hw⟩, hm, fun p hmem => Or.inl ?_⟩⟩,
        h.sent, h.epoch, h.settings, fun _ => Or.inr (Or.inl ?_)⟩
      · rw [List.mem_singleton.mp hmem]
        exact congrArg Settings.nodeId hx.settings
      · rw [← hx.term]
        exact Nat.lt_succ_self _
  | addVote hr hg hc ht hs =>
      rename_i peer request response
      rw [hs]
      refine ⟨⟨hb, fun _ => ?_, fun hl => ?_⟩, h.sent, h.epoch, h.settings, h.leads⟩
      · rcases h.electing.candidate hc with hstale | ⟨hv, hp⟩
        · exact absurd (h.ballot ha hr hstale) (by rw [← ht]; exact Nat.lt_irrefl _)
        · refine Or.inr ⟨hv, fun p hmem => ?_⟩
          rcases mem_addVote hmem with hmem | rfl
          · exact hp p hmem
          · exact Or.inr ⟨evs, ev, [], request, response, rfl, (answers_congr h.epoch).mp hr, ht.symm, hg⟩
      · cases hc.symm.trans hl
  | office hx hr ht hle hc hm hs =>
      rename_i peer request response
      subst hx
      rw [hs]
      refine ⟨⟨hb, (fun hc => by cases hc), fun _ => ?_⟩, h.sent, h.epoch, h.settings,
        fun _ => Or.inr (Or.inr fun t hh => ?_)⟩
      · rcases h.electing.candidate hc with hstale | ⟨hv, hp⟩
        · refine absurd (h.ballot ha ((answers_congr h.epoch).mpr hr) hstale) ?_
          rw [← ht]
          exact Nat.lt_irrefl _
        · exact ⟨hv, evs, ev, [], ((start.run evs).addVote peer).votes, rfl, Or.inl ⟨rfl, hc, hv⟩, hm, hp⟩
      · obtain ⟨env, hev, hcall, hep⟩ := hr
        rw [heard_reply hev hep, hcall] at hh
        exact Option.some.inj hh ▸ hle
  | work hw hs =>
      rw [hs]
      exact ⟨⟨hb, h.electing.candidate, h.electing.leader⟩, h.sent, h.epoch, h.settings, h.leads⟩

/-- A new process has sent nothing. -/
theorem sight_construct (e : Engine) : (after construct e).node.state = .follower ∧
    (after construct e).outbox = [] ∧ (after construct e).settings = e.settings := by
  refine (wp_after (P := fun e' : Engine => e'.node.state = .follower ∧ e'.outbox = [] ∧
    e'.settings = e.settings)).mp ?_
  have hrefresh : ∀ e' : Engine, e'.node.state = .follower ∧ e'.outbox = [] ∧
      e'.settings = e.settings → e'.refreshConfig.markUp.node.state = .follower ∧
        e'.refreshConfig.markUp.outbox = [] ∧ e'.refreshConfig.markUp.settings = e.settings := by
    intro e' h
    have hs := sight_refreshConfig e'
    exact ⟨(congrArg Sight.state hs).trans h.1, (congrArg Sight.outbox hs).trans h.2.1,
      (congrArg Sight.settings hs).trans h.2.2⟩
  simp only [construct, restorePersistentState, wp_bind, wp_get, wp_ite, wp_modify, wp_storageCall]
  split
  · split
    · exact ⟨rfl, rfl, rfl⟩
    · exact hrefresh _ ⟨rfl, rfl, rfl⟩
  · exact hrefresh _ ⟨rfl, rfl, rfl⟩

theorem electing_construct (e : Engine) : Electing start evs (after construct e).sight := by
  obtain ⟨hs, ho, -⟩ := sight_construct e
  refine .follower (fun env peer request hin => ?_) hs
  rw [show (after construct e).sight.outbox = [] from ho] at hin
  cases hin

theorem electing_step (ha : start.Solicited (evs ++ [ev]))
    (hd : (start.run evs).Deposed ev → (start.run evs).raises .saveTermAndVote = false)
    (h : Electing start evs (start.run evs).sight) :
    Electing start (evs ++ [ev]) (start.run (evs ++ [ev])).sight := by
  rw [show start.run (evs ++ [ev]) = (start.run evs).step ev from List.foldl_concat _ _ _ _]
  by_cases hr : ev = .act .restart
  · subst hr
    exact electing_construct _
  · have h₀ : Midway start evs ev (start.run evs).sight :=
      ⟨h.concat ev, fun _ hp => hp, rfl, rfl, fun hl => Or.inl hl⟩
    exact ((deeds_step hr).keeps (P := fun x => Midway start evs ev x.sight) h₀
      fun x y hxy hx => hx.deed ha hd hxy).electing

end Steps

/-! ## Every run -/

/-- While no call of `save_term_and_vote` raises that takes a leader to a
higher term, whoever leads has won the election of its term. -/
theorem leader_was_elected (settings : Settings) (faults : StorageCall → List Bool)
    (evs : List NodeEvent) (ha : (boot settings faults).Solicited evs)
    (hd : ∀ pre ev post, evs = pre ++ ev :: post → ((boot settings faults).run pre).Deposed ev →
      ((boot settings faults).run pre).raises .saveTermAndVote = false) :
    ((boot settings faults).run evs).node.state = .leader →
      ((boot settings faults).run evs).node.votedFor = some ((boot settings faults).run evs).nodeId ∧
      (boot settings faults).WonTerm evs ((boot settings faults).run evs).node.currentTerm := by
  have h : Electing (boot settings faults) evs ((boot settings faults).run evs).sight := by
    induction evs using List.reverseRecOn with
    | nil => exact electing_construct _
    | append_singleton evs ev ih =>
        exact electing_step ha (hd evs ev [] rfl) (ih ha.init fun pre v post hsplit =>
          hd pre v (post ++ [ev]) (by rw [hsplit]; simp))
  exact h.leader

/-! ### One election -/

/-- One of two nodes. -/
def oneOfTwo : Settings where
  nodeId := "n1"
  raftAddress := "a1"
  bootstrap := [⟨"n1", "a1", ""⟩, ⟨"n2", "a2", ""⟩]

/-- The other one hands the leadership over. -/
def handedOver : NodeEvent := .receive (.call
  { src := "n2", epoch := 1, address := "a1"
    call := .timeoutNow { term := 0, leaderId := "n2" } 0 })

def ballotOfOne : Envelope where
  src := "n1"
  epoch := 1
  address := "a2"
  call := .requestVote "n2" { term := 1, candidateId := "n1", lastLogIndex := 0, lastLogTerm := 0
                              transfer := true }

def voteOfTwo : NodeEvent :=
  .receive (.reply ballotOfOne (.requestVote { term := 1, voteGranted := true }))

/-- Then the other node leads term 2. -/
def leaderOfTwo : NodeEvent := .receive (.call
  { src := "n2", epoch := 1, address := "a1"
    call := .appendEntries "n1"
      { term := 2, leaderId := "n2", prevLogIndex := 0, prevLogTerm := some 0, entries := []
        leaderCommit := 0 } 1 })

def election : List NodeEvent := [.act .start, handedOver, voteOfTwo]

/-- The second `save_term_and_vote` raises. -/
def secondSaveRaises : StorageCall → List Bool
  | .saveTermAndVote => [false, true]
  | _ => []

theorem solicited_election :
    (boot oneOfTwo secondSaveRaises).Solicited (election ++ [leaderOfTwo]) := by
  intro pre env response post hsplit _
  rcases pre with _ | ⟨a, _ | ⟨b, _ | ⟨c, _ | ⟨d, pre⟩⟩⟩⟩
  · cases hsplit
  · cases hsplit
  · cases hsplit
    exact List.mem_of_mem_head? (show ((boot oneOfTwo secondSaveRaises).run
      [.act .start, handedOver]).outbox.head? = some (.call ballotOfOne) from rfl)
  · cases hsplit
  · exact absurd (congrArg List.length hsplit) (by simp [election])

/-- The request of the new leader of term 2 finds the node leading term 1, and
the save raises: it leads term 2, which it never stood in. -/
theorem leader_without_election :
    ¬ ∀ (settings : Settings) (faults : StorageCall → List Bool) (evs : List NodeEvent),
      (boot settings faults).Solicited evs →
        ((boot settings faults).run evs).node.state = .leader →
          (boot settings faults).WonTerm evs ((boot settings faults).run evs).node.currentTerm := by
  intro hall
  obtain ⟨pre, ev, post, votes, hsplit, hstand, -⟩ :=
    hall oneOfTwo secondSaveRaises (election ++ [leaderOfTwo]) solicited_election rfl
  have hno : ∀ t, ((boot oneOfTwo secondSaveRaises).run pre).node.currentTerm = t → t ≠ 2 →
      (t + 1 = 2 → ¬ ((boot oneOfTwo secondSaveRaises).run pre).Stands ev) → False := by
    intro t ht hne hstands
    rcases hstand with ⟨h, -⟩ | ⟨h, hs⟩
    · exact hne (ht.symm.trans h)
    · exact hstands (ht ▸ h) hs
  rcases pre with _ | ⟨a, _ | ⟨b, _ | ⟨c, _ | ⟨d, pre⟩⟩⟩⟩
  · exact hno 0 rfl (by decide) fun h => by cases h
  · cases hsplit
    exact hno 0 rfl (by decide) fun h => by cases h
  · cases hsplit
    refine hno 1 rfl (by decide) fun _ hs => ?_
    rcases hs with ⟨⟨env, hev, hc, -⟩, -⟩ | ⟨hev, -⟩ | ⟨hev | hev, -⟩
    · cases hev
      cases hc
    · cases hev
    · cases hev.1
    · cases hev.1
  · cases hsplit
    refine hno 1 rfl (by decide) fun _ hs => ?_
    rcases hs with ⟨⟨env, hev, -⟩, -⟩ | ⟨hev, hc, -⟩ | ⟨hev | hev, -⟩
    · cases hev
    · cases hev
      cases hc
    · cases hev.1
    · cases hev.1
  · exact absurd (congrArg List.length hsplit) (by simp [election])

theorem leader_was_elected_once :
    ((boot oneOfTwo secondSaveRaises).run election).node.votedFor =
        some ((boot oneOfTwo secondSaveRaises).run election).nodeId ∧
      (boot oneOfTwo secondSaveRaises).WonTerm election
        ((boot oneOfTwo secondSaveRaises).run election).node.currentTerm := by
  refine leader_was_elected oneOfTwo secondSaveRaises election solicited_election.init ?_ rfl
  rintro pre ev post hsplit ⟨hl, -⟩
  rcases pre with _ | ⟨a, _ | ⟨b, _ | ⟨c, pre⟩⟩⟩
  · cases hl
  · cases hsplit
    cases hl
  · cases hsplit
    cases hl
  · exact absurd (congrArg List.length hsplit) (by simp [election])

end KvCache
