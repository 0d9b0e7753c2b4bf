import KvCache.Elections

/-!
# Pre-vote rounds

The generation of the election timer names the round: everything that ends a
round has to bump it, and a late yes is told from a timely one by it alone.
`_become_candidate` and `_become_follower` bump it only after they called the
storage, so a `save_term_and_vote` that raises leaves the node in a new term
and in the old round, and the yeses that still arrive are for the term before.
-/

namespace KvCache

open StateWp Engine

/-! ## What ends a round -/

/-- A leader's message with a term that is not old. -/
def Engine.HearsLeader (e : Engine) (ev : NodeEvent) : Prop :=
  ∃ env, ev.Calls env ∧ e.running = true ∧
    ((∃ peer req seq, env.call = .appendEntries peer req seq ∧ e.node.currentTerm ≤ req.term) ∨
      ∃ req transfer, env.call = .installSnapshot req transfer ∧ e.node.currentTerm ≤ req.term)

/-- A request for a vote that is granted. -/
def Engine.GrantsVote (e : Engine) (ev : NodeEvent) : Prop :=
  ∃ env req response, ev.Calls env ∧ e.running = true ∧
    ((∃ peer round, env.call = .preVote peer req round) ∨ ∃ peer, env.call = .requestVote peer req) ∧
    req.preVote = false ∧ value? (handleRequestVote req) e = some response ∧
    response.voteGranted = true

/-- The step takes the node to a new term. -/
def Engine.EntersTerm (e : Engine) (ev : NodeEvent) : Prop :=
  (∃ t, e.heard ev = some t ∧ e.node.currentTerm < t) ∨ e.Stands ev

/-- The step raises the term, and neither a message nor a leader's order is
why. -/
def Engine.RaisesTerm (e : Engine) (ev : NodeEvent) : Prop :=
  ev ≠ .act .restart ∧ e.node.currentTerm < (e.step ev).node.currentTerm ∧
    (∀ t, e.heard ev = some t → t ≤ e.node.currentTerm) ∧
    ∀ env request handover, ev.Calls env → env.call ≠ .timeoutNow request handover

/-! ## Rounds -/

/-- While the steps `mid` followed the step `opener`, the yes of `p` to a pre-vote
for term `t` in round `g` arrived. -/
def Engine.PreGranted (start : Engine) (pre : List NodeEvent) (opener : NodeEvent)
    (mid : List NodeEvent) (t g : Nat) (p : NodeId) : Prop :=
  ∃ m₁ ev m₂ request response, mid = m₁ ++ ev :: m₂ ∧
    ev.Answers (start.run (pre ++ opener :: m₁)) (.preVote p request g) (.requestVote response) ∧
    request.term = t ∧ response.voteGranted = true

/-- A timer opened round `g` in term `t`, the round and the term have not changed
since, and these are its yeses. -/
def Engine.Opened (start : Engine) (evs : List NodeEvent) (g t : Nat) (grants : List NodeId) : Prop :=
  ∃ pre opener mid, evs = pre ++ opener :: mid ∧ opener.Timer ∧
    (start.run pre).timerGeneration < g ∧
    (∀ m₁ ev m₂, mid = m₁ ++ ev :: m₂ →
      (start.run (pre ++ opener :: m₁)).timerGeneration = g ∧
      (start.run (pre ++ opener :: m₁)).node.currentTerm = t) ∧
    ∀ p ∈ grants, p = start.nodeId ∨ start.PreGranted pre opener mid (t + 1) g p

/-- Calls for pre-votes belong to the round under way or to an earlier one; one
of the round under way is for the next term. -/
structure Polling (start : Engine) (evs : List NodeEvent) (s : Sight) : Prop where
  rounds : ∀ env peer request round, .call env ∈ s.outbox → env.epoch = s.epoch →
    env.call = .preVote peer request round → round ≤ s.generation
  opened : ∀ env peer request, .call env ∈ s.outbox → env.epoch = s.epoch →
    env.call = .preVote peer request s.generation → request.term = s.term + 1 ∧
      start.Opened evs s.generation s.term s.grants
  node : s.settings.nodeId = start.nodeId

/-! ## One step -/

section Steps

variable {start x y : Engine} {evs : List NodeEvent} {ev : NodeEvent} {s : Sight}

/-- The step `ev` begins in the round and in the term. -/
theorem Engine.Opened.concat {g t : Nat} {grants : List NodeId} (h : start.Opened evs g t grants)
    (hg : (start.run evs).timerGeneration = g) (ht : (start.run evs).node.currentTerm = t) :
    start.Opened (evs ++ [ev]) g t grants := by
  obtain ⟨pre, opener, mid, rfl, htimer, hlt, hsame, hgrants⟩ := h
  refine ⟨pre, opener, mid ++ [ev], by simp, htimer, hlt, fun m₁ v m₂ hsplit => ?_, fun p hp => ?_⟩
  · rcases List.eq_nil_or_concat m₂ with rfl | ⟨l, z, rfl⟩
    · obtain ⟨rfl, -⟩ := List.append_inj' hsplit rfl
      exact ⟨hg, ht⟩
    · have hsplit' : mid ++ [ev] = (m₁ ++ v :: l) ++ [z] := by rw [hsplit]; simp
      exact hsame m₁ v l (List.append_inj' hsplit' rfl).1
  · refine (hgrants p hp).imp id fun ⟨m₁, v, m₂, request, response, hmid, hrest⟩ => ?_
    exact ⟨m₁, v, m₂ ++ [ev], request, response, by rw [hmid]; simp, hrest⟩

theorem Polling.concat (h : Polling start evs (start.run evs).sight) :
    Polling start (evs ++ [ev]) (start.run evs).sight where
  rounds := h.rounds
  opened env peer request hin hep hc :=
    ⟨(h.opened env peer request hin hep hc).1, (h.opened env peer request hin hep hc).2.concat rfl rfl⟩
  node := h.node

/-- What is known in the middle of the step `ev` after `evs`. -/
structure PollingMidway (start : Engine) (evs : List NodeEvent) (ev : NodeEvent) (s : Sight) :
    Prop where
  polling : Polling start (evs ++ [ev]) s
  sent : ∀ p ∈ (start.run evs).outbox, p ∈ s.outbox
  epoch : s.epoch = (start.run evs).epoch
  generation : (start.run evs).timerGeneration ≤ s.generation

theorem Packet.Neutral.no_poll {p : Packet} (h : p.Neutral) (env : Envelope) (peer : NodeId)
    (request : RequestVoteRequest) (round : Nat) (hp : p = .call env) :
    env.call ≠ .preVote peer request round := by
  subst hp
  exact (h peer request).2 round

theorem Packet.Ballot.no_poll {p : Packet} {epoch t : Nat} (h : p.Ballot epoch t) (env : Envelope)
    (peer : NodeId) (request : RequestVoteRequest) (round : Nat) (hp : p = .call env) :
    env.call ≠ .preVote peer request round := by
  obtain ⟨env', peer', request', rfl, -, hc, -⟩ := h
  cases hp
  rw [hc]
  exact fun h => by cases h

/-- Packets that call for no pre-vote, as far as they are new. -/
def NoPolls (s s' : Sight) : Prop :=
  ∀ p ∈ s'.outbox, p ∈ s.outbox ∨ ∀ env peer request round, p = .call env →
    env.call ≠ .preVote peer request round

/-- The round goes on. -/
theorem PollingMidway.same {s' : Sight} (h : PollingMidway start evs ev s)
    (hg : s'.generation = s.generation) (ht : s'.term = s.term) (hgr : s'.grants = s.grants)
    (he : s'.epoch = s.epoch) (hn : s'.settings = s.settings) (ho : s.outbox ⊆ s'.outbox)
    (hp : NoPolls s s') : PollingMidway start evs ev s' where
  polling :=
    { rounds := fun env peer request round hin hep hc => by
        rcases hp _ hin with hin | hno
        · rw [hg]
          exact h.polling.rounds env peer request round hin (hep.trans he) hc
        · exact absurd hc (hno env peer request round rfl)
      opened := fun env peer request hin hep hc => by
        rcases hp _ hin with hin | hno
        · rw [hg] at hc ⊢
          rw [ht, hgr]
          exact h.polling.opened env peer request hin (hep.trans he) hc
        · exact absurd hc (hno env peer request _ rfl)
      node := by rw [hn, h.polling.node] }
  sent p hp := ho (h.sent p hp)
  epoch := he.trans h.epoch
  generation := by
    rw [hg]
    exact h.generation

/-- The round ends. -/
theorem PollingMidway.ends {s' : Sight} (h : PollingMidway start evs ev s)
    (hg : s'.generation = s.generation + 1) (he : s'.epoch = s.epoch) (hn : s'.settings = s.settings)
    (ho : s.outbox ⊆ s'.outbox) (hp : NoPolls s s') : PollingMidway start evs ev s' where
  polling :=
    { rounds := fun env peer request round hin hep hc => by
        rcases hp _ hin with hin | hno
        · rw [hg]
          exact Nat.le_succ_of_le (h.polling.rounds env peer request round hin (hep.trans he) hc)
        · exact absurd hc (hno env peer request round rfl)
      opened := fun env peer request hin hep hc => by
        rcases hp _ hin with hin | hno
        · rw [hg] at hc
          exact absurd (h.polling.rounds env peer request _ hin (hep.trans he) hc)
            (Nat.not_succ_le_self _)
        · exact absurd hc (hno env peer request _ rfl)
      node := by rw [hn, h.polling.node] }
  sent p hp := ho (h.sent p hp)
  epoch := he.trans h.epoch
  generation := by
    rw [hg]
    exact Nat.le_succ_of_le h.generation

/-- The reply to a call for a pre-vote finds that call among those sent. -/
theorem PollingMidway.poll (h : PollingMidway start evs ev x.sight)
    (ha : start.Solicited (evs ++ [ev])) {peer : NodeId} {request : RequestVoteRequest}
    {response : Response} (hr : ev.Answers x (.preVote peer request x.timerGeneration) response) :
    request.term = x.node.currentTerm + 1 ∧
      start.Opened (evs ++ [ev]) x.timerGeneration x.node.currentTerm x.grants := by
  obtain ⟨env, rfl, hc, hep⟩ := hr
  exact h.polling.opened env peer request
    (h.sent _ (ha evs env response [] rfl (hep.trans h.epoch))) hep hc

theorem mem_addGrant {peer p : NodeId} (h : p ∈ (x.addGrant peer).grants) :
    p ∈ x.grants ∨ p = peer := by
  unfold Engine.addGrant at h
  dsimp only at h
  split at h
  · exact Or.inl h
  · exact (List.mem_append.mp h).imp id List.mem_singleton.mp

/-- A yes of the round arrives. -/
theorem Engine.Opened.addGrant {grants : List NodeId} {peer : NodeId} {request : RequestVoteRequest}
    {response : RequestVoteResponse} {g t : Nat} (h : start.Opened (evs ++ [ev]) g t grants)
    (hr : ev.Answers (start.run evs) (.preVote peer request g) (.requestVote response))
    (ht : request.term = t + 1) (hg : response.voteGranted = true) {grants' : List NodeId}
    (hsub : ∀ p ∈ grants', p ∈ grants ∨ p = peer) : start.Opened (evs ++ [ev]) g t grants' := by
  obtain ⟨pre, opener, mid, hsplit, htimer, hlt, hsame, hgrants⟩ := h
  refine ⟨pre, opener, mid, hsplit, htimer, hlt, hsame, fun p hp => ?_⟩
  rcases hsub p hp with hp | rfl
  · exact hgrants p hp
  · right
    rcases List.eq_nil_or_concat mid with rfl | ⟨m₁, v, rfl⟩
    · -- the opener is a timer and no reply
      have hop : ev = opener := by
        have := (List.append_inj' hsplit rfl).2
        exact List.singleton_injective this
      obtain ⟨env, hev, -⟩ := hr
      rcases htimer with htimer | ⟨k, htimer⟩
      · cases hev.symm.trans (hop.trans htimer)
      · cases hev.symm.trans (hop.trans htimer)
    · have hsplit' : evs ++ [ev] = (pre ++ opener :: m₁) ++ [v] := by rw [hsplit]; simp
      obtain ⟨rfl, hv⟩ := List.append_inj' hsplit' rfl
      rw [List.singleton_injective hv] at hr
      exact ⟨m₁, v, [], request, response, by simp, hr, ht, hg⟩

/-- A new round, opened by a timer. -/
theorem PollingMidway.openRound {s' : Sight} (h : PollingMidway start evs ev s) (hev : ev.Timer)
    (hp : ∀ p ∈ s'.outbox, p ∈ s.outbox ∨ p.Poll s.epoch (s.term + 1) (s.generation + 1))
    (hg : s'.generation = s.generation + 1) (ht : s'.term = s.term)
    (hgr : s'.grants = [s.settings.nodeId]) (he : s'.epoch = s.epoch)
    (hn : s'.settings = s.settings) (ho : s.outbox ⊆ s'.outbox) :
    PollingMidway start evs ev s' where
  polling :=
    { rounds := fun env peer request round hin hep hc => by
        rw [hg]
        rcases hp _ hin with hin | ⟨env', peer', request', henv, -, hc', -⟩
        · exact Nat.le_succ_of_le (h.polling.rounds env peer request round hin (hep.trans he) hc)
        · cases henv
          cases hc.symm.trans hc'
          exact Nat.le_refl _
      opened := fun env peer request hin hep hc => by
        rw [hg] at hc ⊢
        rcases hp _ hin with hin | ⟨env', peer', request', henv, -, hc', hterm⟩
        · exact absurd (h.polling.rounds env peer request _ hin (hep.trans he) hc)
            (Nat.not_succ_le_self _)
        · cases henv
          cases hc.symm.trans hc'
          rw [ht, hgr]
          refine ⟨hterm, evs, ev, [], rfl, hev, Nat.lt_succ_of_le h.generation,
            fun m₁ v m₂ hsplit => ?_,
            fun p hmem => Or.inl ((List.mem_singleton.mp hmem).trans h.polling.node)⟩
          exact absurd hsplit (by simp)
      node := by rw [hn, h.polling.node] }
  sent p hp := ho (h.sent p hp)
  epoch := he.trans h.epoch
  generation := by
    rw [hg]
    exact Nat.le_succ_of_le h.generation

theorem PollingMidway.deed (ha : start.Solicited (evs ++ [ev]))
    (hd : (start.run evs).EntersTerm ev → (start.run evs).raises .saveTermAndVote = false)
    (hxy : Deed ev (start.run evs) x y) (h : PollingMidway start evs ev x.sight) :
    PollingMidway start evs ev y.sight := by
  have hold : ∀ {s' : Sight}, s'.outbox = x.sight.outbox → NoPolls x.sight s' := fun ho p hp =>
    Or.inl (ho ▸ hp)
  have hall : ∀ {s' : Sight}, s'.outbox = x.sight.outbox → x.sight.outbox ⊆ s'.outbox :=
    fun ho p hp => ho ▸ hp
  -- deeds that end the round, and deeds that do not concern it
  have hends : ∀ {s' : Sight}, s'.generation = x.sight.generation + 1 → s'.epoch = x.sight.epoch →
      s'.settings = x.sight.settings → s'.outbox = x.sight.outbox → PollingMidway start evs ev s' :=
    fun hg he hn ho => h.ends hg he hn (hall ho) (hold ho)
  have hsame : ∀ {s' : Sight}, s'.generation = x.sight.generation → s'.term = x.sight.term →
      s'.grants = x.sight.grants → s'.epoch = x.sight.epoch → s'.settings = x.sight.settings →
      s'.outbox = x.sight.outbox → PollingMidway start evs ev s' :=
    fun hg ht hgr he hn ho => h.same hg ht hgr he hn (hall ho) (hold ho)
  cases hxy with
  | rest hs =>
      rw [hs]
      exact h
  | send hp hs =>
      rw [hs]
      refine h.same rfl rfl rfl rfl rfl (List.subset_append_left _ _) fun q hq => ?_
      rcases List.mem_append.mp hq with hq | hq
      · exact Or.inl hq
      · rw [List.mem_singleton.mp hq]
        exact Or.inr hp.no_poll
  | power hs =>
      rw [hs]
      exact hsame rfl rfl rfl rfl rfl rfl
  | bump hs =>
      rw [hs]
      exact hends rfl rfl rfl rfl
  | adoptTerm hx hh ht hr hs =>
      rw [hs]
      exact hends rfl rfl rfl rfl
  | adoptTermFails hx hh ht hr hs =>
      have hno := hd (Or.inl ⟨_, hh, by rw [← hx.term]; exact ht⟩)
      rw [← hx.raises, hr] at hno
      cases hno
  | stepDown hs =>
      rw [hs]
      exact hends rfl rfl rfl rfl
  | vote hv hr hs =>
      rw [hs]
      exact hends rfl rfl rfl rfl
  | voteFails hv hr hs =>
      rw [hs]
      exact hsame rfl rfl rfl rfl rfl rfl
  | openRound hev hl ho hp hs =>
      rw [hs]
      exact h.openRound hev hp rfl rfl rfl rfl rfl ho
  | addGrant hr hg hl hs =>
      obtain ⟨ht, hopened⟩ := h.poll ha hr
      have hr' := (answers_congr h.epoch).mp hr
      rw [hs]
      refine ⟨⟨h.polling.rounds, fun env peer request hin hep hc => ?_, h.polling.node⟩, h.sent,
        h.epoch, h.generation⟩
      exact ⟨(h.polling.opened env peer request hin hep hc).1,
        hopened.addGrant hr' ht hg fun p hp => mem_addGrant hp⟩
  | standFails hx hw hr hs =>
      have hno := hd (Or.inr hw)
      rw [← hx.raises, hr] at hno
      cases hno
  | stand hx hw hr ho hp hs =>
      rw [hs]
      exact h.ends rfl rfl rfl ho fun q hq => (hp q hq).imp id fun hb => hb.no_poll
  | win hx hw hr hm hs =>
      rw [hs]
      exact hends rfl rfl rfl rfl
  | addVote hr hg hc ht hs =>
      rw [hs]
      exact hsame rfl rfl rfl rfl rfl rfl
  | office hx hr ht hle hc hm hs =>
      rw [hs]
      exact hends rfl rfl rfl rfl
  | work hw hs =>
      rw [hs]
      exact hsame rfl rfl rfl rfl rfl rfl

theorem polling_construct (e : Engine) (hn : e.settings.nodeId = start.nodeId) :
    Polling start evs (after construct e).sight := by
  obtain ⟨-, ho, hs⟩ := sight_construct e
  have ho' : (after construct e).sight.outbox = [] := ho
  refine ⟨fun env peer request round hin => ?_, fun env peer request hin => ?_, ?_⟩
  · rw [ho'] at hin
    cases hin
  · rw [ho'] at hin
    cases hin
  · exact (congrArg Settings.nodeId hs).trans hn

theorem polling_step (ha : start.Solicited (evs ++ [ev]))
    (hd : (start.run evs).EntersTerm ev → (start.run evs).raises .saveTermAndVote = false)
    (h : Polling start evs (start.run evs).sight) :
    Polling start (evs ++ [ev]) (start.run (evs ++ [ev])).sight := by
  rw [show start.run (evs ++ [ev]) = (start.run evs).step ev from List.foldl_concat _ _ _ _]
  by_cases hr : ev = .act .restart
  · subst hr
    exact polling_construct _ h.node
  · have h₀ : PollingMidway start evs ev (start.run evs).sight :=
      ⟨h.concat, fun _ hp => hp, rfl, Nat.le_refl _⟩
    exact ((deeds_step hr).keeps (P := fun x => PollingMidway start evs ev x.sight) h₀
      fun x y hxy hx => hx.deed ha hd hxy).polling

/-! ## What the generation tells -/

/-- An accepted request ends the round. -/
theorem acceptLeader_bumps {e : Engine} {t : Nat} {l : NodeId} {a : String}
    (hr : e.node.currentTerm < t → e.raises .saveTermAndVote = false) :
    wp (acceptLeader t l a) (fun _ e' => e.timerGeneration < e'.timerGeneration)
      (fun _ _ => False) e := by
  have hdown : ∀ e' : Engine, e'.timerGeneration = e.timerGeneration →
      e.timerGeneration < e'.stepDown.timerGeneration := fun e' h => by
    rw [show e'.stepDown.timerGeneration = e'.timerGeneration + 1 from
      congrArg Sight.generation (sight_stepDown e'), h]
    exact Nat.lt_succ_self _
  simp only [acceptLeader, becomeFollower, persistTermAndVote, wp_bind, wp_get, wp_ite, wp_modify,
    wp_storageCall]
  split
  · split
    · rename_i ht
      split
      · rename_i hraise
        exact absurd (hr ht) (by rw [show e.raises .saveTermAndVote = true from hraise]; simp)
      · exact hdown _ rfl
    · exact hdown _ rfl
  · exact Nat.lt_succ_self _

/-- What follows an accepted request leaves the timer alone. -/
theorem accepts_bumps {e : Engine} (h : e.HearsLeader ev)
    (hr : e.EntersTerm ev → e.raises .saveTermAndVote = false) :
    e.timerGeneration < (e.step ev).timerGeneration := by
  obtain ⟨env, rfl, hrun, ⟨peer, req, seq, hc, hle⟩ | ⟨req, transfer, hc, hle⟩⟩ := h
  · have hraise : e.node.currentTerm < req.term → e.raises .saveTermAndVote = false := fun hlt =>
      hr (Or.inl ⟨req.term, by rw [heard_call rfl hrun, hc]; rfl, hlt⟩)
    refine (wp_after (P := fun e' : Engine => e.timerGeneration < e'.timerGeneration)).mp ?_
    simp only [NodeEvent.body, KvCache.receive, handleRpc, hc, wp_bind, wp_get, wp_ite,
      handleAppendEntries]
    rw [if_pos hrun, if_neg (Nat.not_lt.mpr hle)]
    refine wp_mono (acceptLeader_bumps hraise) (fun _ e' h' => ?_) fun _ _ h' => h'.elim
    simp only [wp_bind, wp_get, wp_ite, wp_pure]
    split
    · exact h'
    · split
      · exact h'
      · exact wp_mono (sight_appendFrom e'.sight req _ _ e' rfl)
          (fun _ _ hs => Nat.lt_of_lt_of_eq h' (congrArg Sight.generation hs).symm)
          fun _ _ hs => Nat.lt_of_lt_of_eq h' (congrArg Sight.generation hs).symm
  · have hraise : e.node.currentTerm < req.term → e.raises .saveTermAndVote = false := fun hlt =>
      hr (Or.inl ⟨req.term, by rw [heard_call rfl hrun, hc]; rfl, hlt⟩)
    refine (wp_after (P := fun e' : Engine => e.timerGeneration < e'.timerGeneration)).mp ?_
    simp only [NodeEvent.body, KvCache.receive, handleRpc, hc, wp_bind, wp_get, wp_ite,
      handleInstallSnapshot]
    rw [if_pos hrun, if_neg (Nat.not_lt.mpr hle)]
    refine wp_mono (acceptLeader_bumps hraise) (fun _ e' h' => ?_) fun _ _ h' => h'.elim
    simp only [wp_bind, wp_get, wp_ite, wp_pure]
    split
    · exact h'
    · split
      · exact h'
      · simp only [wp_bind, wp_modify, wp_ite, wp_pure]
        split
        · exact h'
        · exact h'

/-- A vote given ends the round. -/
theorem decideVote_bumps (req : RequestVoteRequest) (e : Engine) :
    wp (decideVote req)
      (fun r e' => r.voteGranted = true → e.timerGeneration < e'.timerGeneration)
      (fun _ _ => True) e := by
  simp only [decideVote, persistTermAndVote, wp_bind, wp_get, wp_ite, wp_pure, wp_modify,
    wp_storageCall]
  split
  · exact fun h => by cases h
  · split
    · trivial
    · exact fun _ => Nat.lt_succ_self _

theorem becomeFollower_bumps (t : Nat) (e : Engine) :
    wp (becomeFollower t) (fun _ e' => e.timerGeneration < e'.timerGeneration) (fun _ _ => True) e := by
  have hdown : ∀ e' : Engine, e'.timerGeneration = e.timerGeneration →
      e.timerGeneration < e'.stepDown.timerGeneration := fun e' h => by
    rw [show e'.stepDown.timerGeneration = e'.timerGeneration + 1 from
      congrArg Sight.generation (sight_stepDown e'), h]
    exact Nat.lt_succ_self _
  simp only [becomeFollower, persistTermAndVote, wp_bind, wp_get, wp_ite, wp_modify, wp_storageCall]
  split
  · split
    · trivial
    · exact hdown _ rfl
  · exact hdown _ rfl

theorem handleRequestVote_bumps {req : RequestVoteRequest} (hp : req.preVote = false) (e : Engine) :
    wp (handleRequestVote req)
      (fun r e' => r.voteGranted = true → e.timerGeneration < e'.timerGeneration)
      (fun _ _ => True) e := by
  simp only [handleRequestVote, wp_bind, wp_get, wp_ite, wp_pure]
  rw [if_neg (by rw [hp]; decide)]
  split
  · exact fun h => by cases h
  · split
    · exact wp_mono (becomeFollower_bumps _ e) (fun _ e' h' => wp_mono (decideVote_bumps req e')
        (fun _ _ h₂ hg => Nat.lt_trans h' (h₂ hg)) fun _ _ _ => trivial) fun _ _ _ => trivial
    · exact decideVote_bumps req e

theorem grantsVote_bumps {e : Engine} (h : e.GrantsVote ev) :
    e.timerGeneration < (e.step ev).timerGeneration := by
  obtain ⟨env, req, response, rfl, hrun, hc, hp, hv, hg⟩ := h
  have hlt := (wp_of_run_ok (run_eq_of_value? hv)).mp (handleRequestVote_bumps hp e) hg
  refine (wp_after (P := fun e' : Engine => e.timerGeneration < e'.timerGeneration)).mp ?_
  have hbody : wp (handleRequestVote req >>= fun r => modify (·.send (.reply env (.requestVote r))))
      (fun _ e' => e.timerGeneration < e'.timerGeneration)
      (fun _ e' => e.timerGeneration < e'.timerGeneration) e := by
    rw [wp_bind]
    exact (wp_of_run_ok (run_eq_of_value? hv)).mpr hlt
  simp only [NodeEvent.body, KvCache.receive, wp_bind, wp_get, wp_ite]
  rw [if_pos hrun]
  unfold handleRpc
  rcases hc with ⟨peer, round, hc⟩ | ⟨peer, hc⟩
  · rw [hc]
    exact hbody
  · rw [hc]
    exact hbody

/-! ## A term raised by the node itself -/

/-- Only an election raises the term when no message does. -/
theorem stands_of_raisesTerm {e : Engine} (h : e.RaisesTerm ev) :
    e.Stands ev ∧ (e.step ev).node.currentTerm = e.node.currentTerm + 1 := by
  obtain ⟨hr, hlt, hheard, -⟩ := h
  have hstep : (e.step ev).node.currentTerm = e.node.currentTerm ∨
      e.Stands ev ∧ (e.step ev).node.currentTerm = e.node.currentTerm + 1 := by
    refine (deeds_step hr).keeps (P := fun x => x.node.currentTerm = e.node.currentTerm ∨
      e.Stands ev ∧ x.node.currentTerm = e.node.currentTerm + 1) (Or.inl rfl) fun x y hxy hx => ?_
    -- what keeps the term
    have hkeep : y.sight.term = x.sight.term → y.node.currentTerm = e.node.currentTerm ∨
        e.Stands ev ∧ y.node.currentTerm = e.node.currentTerm + 1 := fun ht => by
      rw [show y.node.currentTerm = x.node.currentTerm from ht]
      exact hx
    have hadopt : ∀ {t : Nat}, e.AsFound x → e.heard ev = some t → x.node.currentTerm < t →
        y.node.currentTerm = e.node.currentTerm ∨
          e.Stands ev ∧ y.node.currentTerm = e.node.currentTerm + 1 := fun hu hh ht =>
      absurd (hheard _ hh) (Nat.not_le.mpr (hu.term ▸ ht))
    have hstand : e.AsFound x → e.Stands ev → y.sight.term = x.sight.term + 1 →
        y.node.currentTerm = e.node.currentTerm ∨
          e.Stands ev ∧ y.node.currentTerm = e.node.currentTerm + 1 := fun hu hw ht =>
      Or.inr ⟨hw, ht.trans (congrArg (· + 1) hu.term)⟩
    cases hxy with
    | rest hs => exact hkeep (by rw [hs])
    | send _ hs => exact hkeep (by rw [hs])
    | power hs => exact hkeep (by rw [hs])
    | bump hs => exact hkeep (by rw [hs])
    | adoptTerm hu hh ht => exact hadopt hu hh ht
    | adoptTermFails hu hh ht => exact hadopt hu hh ht
    | stepDown hs => exact hkeep (by rw [hs])
    | vote _ _ hs => exact hkeep (by rw [hs])
    | voteFails _ _ hs => exact hkeep (by rw [hs])
    | openRound _ _ _ _ hs => exact hkeep (by rw [hs])
    | addGrant _ _ _ hs => exact hkeep (by rw [hs])
    | standFails hu hw _ hs => exact hstand hu hw (by rw [hs]; rfl)
    | stand hu hw _ _ _ hs => exact hstand hu hw (by rw [hs]; rfl)
    | win hu hw _ _ hs => exact hstand hu hw (by rw [hs]; rfl)
    | addVote _ _ _ _ hs => exact hkeep (by rw [hs])
    | office _ _ _ _ _ _ hs => exact hkeep (by rw [hs])
    | work _ hs => exact hkeep (by rw [hs])
  rcases hstep with hsame | hstands
  · exact absurd hsame (Nat.ne_of_gt hlt)
  · exact hstands

end Steps

/-! ## Every run -/

/-- The round behind an election in the step `ev` after `evs`: a timer opened it,
it and the yeses that arrived in it, for the very term that begins, are a
majority of the members, and since it was opened the node kept its term, accepted
no leader's message and granted no vote. -/
def Engine.PreVoted (start : Engine) (evs : List NodeEvent) (ev : NodeEvent) : Prop :=
  ∃ pre opener mid grants, evs = pre ++ opener :: mid ∧ opener.Timer ∧
    (start.run pre).timerGeneration < (start.run evs).timerGeneration ∧
    (start.run evs).majority ≤ (start.run evs).countVotes grants ∧
    (∀ p ∈ grants, p = start.nodeId ∨ start.PreGranted pre opener (mid ++ [ev])
      ((start.run evs).step ev).node.currentTerm (start.run evs).timerGeneration p) ∧
    ∀ m₁ v m₂, mid = m₁ ++ v :: m₂ →
      (start.run (pre ++ opener :: m₁)).node.currentTerm = (start.run evs).node.currentTerm ∧
      ¬ (start.run (pre ++ opener :: m₁)).HearsLeader v ∧ ¬ (start.run (pre ++ opener :: m₁)).GrantsVote v

/-- No `save_term_and_vote` raises in a step that takes the node to a new term. -/
def Engine.TermsSaved (start : Engine) (evs : List NodeEvent) : Prop :=
  ∀ pre ev post, evs = pre ++ ev :: post → (start.run pre).EntersTerm ev →
    (start.run pre).raises .saveTermAndVote = false

section Runs

variable {start : Engine} {evs : List NodeEvent} {ev : NodeEvent}

theorem Engine.TermsSaved.init (h : start.TermsSaved (evs ++ [ev])) : start.TermsSaved evs :=
  fun pre v post hsplit => h pre v (post ++ [ev]) (by rw [hsplit]; simp)

theorem Engine.TermsSaved.prefix {pre post : List NodeEvent} (h : start.TermsSaved (pre ++ post)) :
    start.TermsSaved pre := fun m v l hsplit => h m v (l ++ post) (by rw [hsplit]; simp)

theorem Engine.Solicited.prefix {pre post : List NodeEvent} (h : start.Solicited (pre ++ post)) :
    start.Solicited pre := fun m env r l hsplit => h m env r (l ++ post) (by rw [hsplit]; simp)

theorem polling_run {settings : Settings} {faults : StorageCall → List Bool}
    (ha : (boot settings faults).Solicited evs) (hd : (boot settings faults).TermsSaved evs) :
    Polling (boot settings faults) evs ((boot settings faults).run evs).sight := by
  induction evs using List.reverseRecOn with
  | nil => exact polling_construct _ (congrArg Settings.nodeId (sight_construct _).2.2).symm
  | append_singleton evs ev ih => exact polling_step ha (hd evs ev [] rfl) (ih ha.init hd.init)

/-- An election the node starts by itself has its round of pre-votes. -/
theorem preVoted_of_raisesTerm (h : Polling start evs (start.run evs).sight)
    (ha : start.Solicited (evs ++ [ev])) (hd : start.TermsSaved (evs ++ [ev]))
    (hv : (start.run evs).voters ≠ []) (hraise : (start.run evs).RaisesTerm ev) :
    start.PreVoted evs ev := by
  obtain ⟨hstands, hterm⟩ := stands_of_raisesTerm hraise
  rcases hstands with @⟨peer, request, response, hans, hg, -, -, hm⟩ | ⟨hcall, hc, -⟩ | ⟨-, -, -, halone⟩
  · obtain ⟨env, hev, hc, hep⟩ := id hans
    obtain ⟨hrt, pre, opener, mid, hsplit, htimer, hlt, hsame, hgrants⟩ := h.opened env peer request
      (ha evs env (.requestVote response) [] (by rw [hev]) hep) hep hc
    refine ⟨pre, opener, mid, _, hsplit, htimer, hlt, hm, fun p hp => ?_, fun m₁ v m₂ hmid => ?_⟩
    · rw [hterm]
      rcases mem_addGrant hp with hp | rfl
      · refine (hgrants p hp).imp id fun ⟨m₁, v, m₂, req, resp, hmid, hrest⟩ => ?_
        exact ⟨m₁, v, m₂ ++ [ev], req, resp, by rw [hmid]; simp, hrest⟩
      · exact Or.inr ⟨mid, ev, [], request, response, rfl, hsplit ▸ hans, hrt, hg⟩
    · obtain ⟨hgen, hsameterm⟩ := hsame m₁ v m₂ hmid
      -- the step `v` leaves the round as it is
      have hafter : ((start.run (pre ++ opener :: m₁)).step v).timerGeneration =
          (start.run evs).timerGeneration := by
        have hstep : (start.run (pre ++ opener :: m₁)).step v =
            start.run (pre ++ opener :: (m₁ ++ [v])) := by
          unfold Engine.run
          simp
        rw [hstep]
        cases m₂ with
        | nil => rw [hsplit, hmid]
        | cons w m₂ => exact (hsame (m₁ ++ [v]) w m₂ (by rw [hmid]; simp)).1
      have hsaved : (start.run (pre ++ opener :: m₁)).EntersTerm v →
          (start.run (pre ++ opener :: m₁)).raises .saveTermAndVote = false :=
        hd (pre ++ opener :: m₁) v (m₂ ++ [ev]) (by rw [hsplit, hmid]; simp)
      refine ⟨hsameterm, fun hacc => ?_, fun hgrant => ?_⟩
      · exact absurd (accepts_bumps hacc hsaved) (by rw [hafter, hgen]; exact Nat.lt_irrefl _)
      · exact absurd (grantsVote_bumps hgrant) (by rw [hafter, hgen]; exact Nat.lt_irrefl _)
  · exact absurd hc (hraise.2.2.2 _ _ _ hcall)
  · exact absurd halone hv

/-- While no `save_term_and_vote` for a new term raises: a node with other voters
raises its term by itself only with the yeses of a majority in that very round,
and never when those that reach it are too few. -/
theorem term_raised_with_prevotes (settings : Settings) (faults : StorageCall → List Bool)
    (evs : List NodeEvent) (ha : (boot settings faults).Solicited evs)
    (hd : (boot settings faults).TermsSaved evs) :
    (∀ pre ev post, evs = pre ++ ev :: post → ((boot settings faults).run pre).voters ≠ [] →
      ((boot settings faults).run pre).RaisesTerm ev → (boot settings faults).PreVoted pre ev) ∧
    ∀ reach : List NodeId,
      (∀ pre ev post p request round response, evs = pre ++ ev :: post →
        ev.Answers ((boot settings faults).run pre) (.preVote p request round) (.requestVote response) →
          p ∈ reach) →
      ∀ pre ev post, evs = pre ++ ev :: post → ((boot settings faults).run pre).voters ≠ [] →
        ((boot settings faults).run pre).countVotes ((boot settings faults).nodeId :: reach) <
          ((boot settings faults).run pre).majority →
        ¬ ((boot settings faults).run pre).RaisesTerm ev := by
  have hfirst : ∀ pre ev post, evs = pre ++ ev :: post →
      ((boot settings faults).run pre).voters ≠ [] →
      ((boot settings faults).run pre).RaisesTerm ev → (boot settings faults).PreVoted pre ev := by
    rintro pre ev post rfl hv hraise
    have hsplit : pre ++ ev :: post = (pre ++ [ev]) ++ post := by simp
    rw [hsplit] at ha hd
    exact preVoted_of_raisesTerm (polling_run ha.prefix.init hd.prefix.init) ha.prefix hd.prefix hv hraise
  refine ⟨hfirst, fun reach hreach pre ev post hsplit hv hfew hraise => ?_⟩
  obtain ⟨before, opener, mid, grants, rfl, -, -, hm, hgrants, -⟩ := hfirst pre ev post hsplit hv hraise
  refine absurd hm (Nat.not_le.mpr (Nat.lt_of_le_of_lt ?_ hfew))
  unfold Engine.countVotes Engine.countMembers
  refine List.countP_mono_left fun p _ hp => ?_
  have hp' : p ∈ grants := of_decide_eq_true hp
  rcases hgrants p hp' with rfl | ⟨m₁, v, m₂, request, response, hmid, hans, -⟩
  · simp
  · have hin : p ∈ reach := by
      refine hreach (before ++ opener :: m₁) v (m₂ ++ post) p request _ response ?_ hans
      rw [hsplit]
      have : mid ++ ev :: post = (mid ++ [ev]) ++ post := by simp
      rw [List.append_assoc, List.cons_append, this, hmid]
      simp
    simp [hin]

end Runs

/-! ### A yes that counts twice -/

/-- One of three nodes. -/
def oneOfThree : Settings where
  nodeId := "n1"
  raftAddress := "a1"
  bootstrap := [⟨"n1", "a1", ""⟩, ⟨"n2", "a2", ""⟩, ⟨"n3", "a3", ""⟩]

/-- The call for a pre-vote of the first round. -/
def pollOf (peer : NodeId) (address : String) : Envelope where
  src := "n1"
  epoch := 1
  address := address
  call := .preVote peer { term := 1, candidateId := "n1", lastLogIndex := 0, lastLogTerm := 0
                          preVote := true } 2

def yesOf (peer : NodeId) (address : String) : NodeEvent :=
  .receive (.reply (pollOf peer address) (.requestVote { term := 0, voteGranted := true }))

def firstRound : List NodeEvent :=
  [.act .start, .act (.electionTimeout 1), yesOf "n2" "a2", yesOf "n3" "a3"]

/-- The first `save_term_and_vote` raises. -/
def firstSaveRaises : StorageCall → List Bool
  | .saveTermAndVote => [true]
  | _ => []

theorem solicited_firstRound : (boot oneOfThree firstSaveRaises).Solicited firstRound := by
  intro pre env response post hsplit _
  rcases pre with _ | ⟨a, _ | ⟨b, _ | ⟨c, _ | ⟨d, pre⟩⟩⟩⟩
  · cases hsplit
  · cases hsplit
  · cases hsplit
    rw [show ((boot oneOfThree firstSaveRaises).run [.act .start, .act (.electionTimeout 1)]).outbox =
      [.call (pollOf "n2" "a2"), .call (pollOf "n3" "a3")] from rfl]
    exact List.mem_cons_self
  · cases hsplit
    rw [show ((boot oneOfThree firstSaveRaises).run
      [.act .start, .act (.electionTimeout 1), yesOf "n2" "a2"]).outbox =
        [.call (pollOf "n2" "a2"), .call (pollOf "n3" "a3")] from rfl]
    exact List.mem_cons_of_mem _ List.mem_cons_self
  · exact absurd (congrArg List.length hsplit) (by simp [firstRound])

theorem raises_firstRound :
    ((boot oneOfThree firstSaveRaises).run (firstRound.take 3)).RaisesTerm (yesOf "n3" "a3") := by
  refine ⟨(fun h => by cases h), by decide, fun t ht => ?_, fun env request handover hcall => by cases hcall⟩
  rw [show ((boot oneOfThree firstSaveRaises).run (firstRound.take 3)).heard (yesOf "n3" "a3") =
    some 0 from rfl] at ht
  cases ht
  exact Nat.zero_le _

/-- The save for term 1 raises, and the second yes for term 1 raises the term to
2. -/
theorem term_raised_with_stale_prevotes :
    ¬ ∀ (settings : Settings) (faults : StorageCall → List Bool) (evs : List NodeEvent),
      (boot settings faults).Solicited evs → ∀ pre ev post, evs = pre ++ ev :: post →
        ((boot settings faults).run pre).voters ≠ [] →
        ((boot settings faults).run pre).RaisesTerm ev → (boot settings faults).PreVoted pre ev := by
  intro hall
  obtain ⟨pre, opener, mid, grants, hsplit, htimer, -, -, -, hquiet⟩ :=
    hall oneOfThree firstSaveRaises firstRound solicited_firstRound (firstRound.take 3)
      (yesOf "n3" "a3") [] rfl (by decide) raises_firstRound
  have hno : ∀ m₁ v m₂, mid = m₁ ++ v :: m₂ →
      ((boot oneOfThree firstSaveRaises).run (pre ++ opener :: m₁)).node.currentTerm = 1 :=
    fun m₁ v m₂ hmid => (hquiet m₁ v m₂ hmid).1
  rcases pre with _ | ⟨a, _ | ⟨b, _ | ⟨c, pre⟩⟩⟩
  · cases hsplit
    exact absurd (hno [] _ _ rfl) (by decide)
  · cases hsplit
    exact absurd (hno [] _ _ rfl) (by decide)
  · cases hsplit
    rcases htimer with h | ⟨g, h⟩
    · cases h
    · cases h
  · exact absurd (congrArg List.length hsplit) (by simp [firstRound])

theorem solicited_oneRound : (boot oneOfThree fun _ => []).Solicited (firstRound.take 3) := by
  intro pre env response post hsplit _
  rcases pre with _ | ⟨a, _ | ⟨b, _ | ⟨c, pre⟩⟩⟩
  · cases hsplit
  · cases hsplit
  · cases hsplit
    rw [show ((boot oneOfThree fun _ => []).run [.act .start, .act (.electionTimeout 1)]).outbox =
      [.call (pollOf "n2" "a2"), .call (pollOf "n3" "a3")] from rfl]
    exact List.mem_cons_self
  · exact absurd (congrArg List.length hsplit) (by simp [firstRound])

theorem termsSaved_oneRound : (boot oneOfThree fun _ => []).TermsSaved (firstRound.take 3) := by
  intro pre ev post hsplit _
  rcases pre with _ | ⟨a, _ | ⟨b, _ | ⟨c, pre⟩⟩⟩
  · rfl
  · cases hsplit
    rfl
  · cases hsplit
    rfl
  · exact absurd (congrArg List.length hsplit) (by simp [firstRound])

theorem term_raised_with_prevotes_once :
    (∀ pre ev post, firstRound.take 3 = pre ++ ev :: post →
      ((boot oneOfThree fun _ => []).run pre).voters ≠ [] →
      ((boot oneOfThree fun _ => []).run pre).RaisesTerm ev →
        (boot oneOfThree fun _ => []).PreVoted pre ev) ∧
    ∀ reach : List NodeId,
      (∀ pre ev post p request round response, firstRound.take 3 = pre ++ ev :: post →
        ev.Answers ((boot oneOfThree fun _ => []).run pre) (.preVote p request round)
          (.requestVote response) → p ∈ reach) →
      ∀ pre ev post, firstRound.take 3 = pre ++ ev :: post →
        ((boot oneOfThree fun _ => []).run pre).voters ≠ [] →
        ((boot oneOfThree fun _ => []).run pre).countVotes
          ((boot oneOfThree fun _ => []).nodeId :: reach) <
            ((boot oneOfThree fun _ => []).run pre).majority →
        ¬ ((boot oneOfThree fun _ => []).run pre).RaisesTerm ev :=
  term_raised_with_prevotes oneOfThree (fun _ => []) _ solicited_oneRound termsSaved_oneRound

end KvCache
