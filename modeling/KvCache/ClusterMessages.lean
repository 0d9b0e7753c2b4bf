import KvCache.ClusterAppend

/-!
# Messages keep the invariant

Handling a call that is right, and a reply that is right, keeps the relation
of a node to the history, and what the node answers is right in turn. A call
names the node it is meant for; since it is delivered by address and no two
nodes share one, that is the node which handles it (`Cluster.At.eq`).
-/

namespace KvCache

open QuorumLog QuorumLog.History StateWp Engine

variable {c : Cluster} {h₀ : Hist} {i : NodeId} {e : Engine} {env : Envelope}

/-! ## Addresses -/

theorem Cluster.mem_address (hi : i ∈ c.ids) :
    ∃ m ∈ c.members, m.nodeId = i ∧ m.raftAddress = c.address i := by
  obtain ⟨m, hm, hid⟩ := List.mem_map.mp hi
  have hsome : (c.members.find? (·.nodeId = i)).isSome := by
    rw [List.find?_isSome]
    exact ⟨m, hm, by simpa using hid⟩
  obtain ⟨m', hm'⟩ := Option.isSome_iff_exists.mp hsome
  refine ⟨m', List.mem_of_find?_eq_some hm', by simpa using List.find?_some hm', ?_⟩
  rw [Cluster.address, hm']

theorem Cluster.At.eq {p : NodeId} (hi : i ∈ c.ids) (hp : c.At p (c.address i)) : p = i := by
  obtain ⟨m, hm, hid, ha⟩ := Cluster.mem_address hi
  obtain ⟨m', hm', rfl, ha'⟩ := hp
  rw [List.inj_on_of_nodup_map c.addresses_nodup hm' hm (ha'.trans ha.symm), hid]

/-! ## Calls -/

theorem RelWith.reply {P : Hist → Prop} (he : RelWith c h₀ i P e) {response : Response}
    (hr : ∀ h, Grows i h₀ h → P h → ReplyOk c h env response) :
    Rel c h₀ i (e.send (.reply env response)) := by
  obtain ⟨h, g, ok, cl, hP, r⟩ := he
  refine ⟨h, g, ok, cl, r.post fun p hp => ?_⟩
  obtain rfl := List.mem_singleton.mp hp
  exact hr h g hP

theorem Rel.reply (he : Rel c h₀ i e) {response : Response}
    (hr : ∀ h, Grows i h₀ h → ReplyOk c h env response) :
    Rel c h₀ i (e.send (.reply env response)) :=
  he.send fun h g _ => hr h g

/-- A whole snapshot has arrived from the leader of the current term. -/
theorem Rel.queueInstall (he : Rel c h₀ i e) {y : Install} (hs : e.node.state = .follower)
    (hc : y.request.term = e.node.currentTerm) (henv : y.env.Ok c h₀)
    (hreq : InstallOk c h₀ y.request) (ha : y.env.address = c.address i) :
    Rel c h₀ i (e.queueInstall y) :=
  he.keep fun h g _ _ r =>
    r.setQueues r.applying r.installing (fun z hz => by
      rw [Core.mem_pending] at hz ⊢
      rcases hz with hz | hz
      · exact Or.inl (Or.inl hz)
      · rcases List.mem_append.mp hz with hz | hz
        · exact Or.inl (Or.inr hz)
        · obtain rfl := List.mem_singleton.mp hz
          exact Or.inr ⟨⟨henv.mono g, hreq.mono g⟩, Nat.le_of_eq hc,
            fun hn => absurd hs hn, ha⟩)
      (fun _ hy => Or.inl hy) (fun _ hy => Or.inl hy) fun _ hp => Or.inl hp

theorem wp_handleInstallSnapshot (he : Rel c h₀ i e) {req : InstallSnapshotRequest}
    (henv : env.Ok c h₀) (hreq : InstallOk c h₀ req) (ha : env.address = c.address i) :
    wp (handleInstallSnapshot env req) (fun _ => Rel c h₀ i) (fun _ => Rel c h₀ i) e := by
  simp only [handleInstallSnapshot, wp_bind, wp_get, wp_ite, wp_pure]
  split
  · exact he
  · rename_i hle
    refine wp_acceptLeader he (Nat.le_of_not_lt hle) fun e' he' hs hc => ?_
    simp only [wp_bind, wp_get, wp_ite, wp_pure]
    split
    · exact he'
    · split
      · exact he'
      · simp only [wp_ite, wp_bind, wp_modify, wp_pure]
        split
        · exact he'.queueInstall hs hc.symm henv hreq ha
        · exact he'.frame rfl

theorem wp_handleTimeoutNow (he : Rel c h₀ i e) (req : TimeoutNowRequest) :
    wp (handleTimeoutNow req) (fun _ => Rel c h₀ i) (fun _ => Rel c h₀ i) e := by
  simp only [handleTimeoutNow, wp_bind, wp_get, wp_ite, wp_pure]
  split
  · exact wp_becomeCandidate he true fun e' he' => he'
  · exact he

/-- Every call that is right is answered right. -/
theorem wp_handleRpc (hi : i ∈ c.ids) (he : Rel c h₀ i e) (henv : env.Ok c h₀)
    (ha : env.address = c.address i) :
    wp (handleRpc env) (fun _ => Rel c h₀ i) (fun _ => Rel c h₀ i) e := by
  have hok := henv
  unfold Envelope.Ok at henv
  rw [ha] at henv
  unfold handleRpc
  cases hcall : env.call with
  | preVote peer request round =>
      simp only [hcall, wp_bind] at henv ⊢
      have hreq : VoteOk h₀ request := fun hp => by
        rw [show request.preVote = true from henv] at hp
        cases hp
      refine wp_mono (wp_handleRequestVote hreq he) (fun a e' he' => ?_) fun _ _ he' => he'
      exact he'.rel.reply fun h _ => by simp [ReplyOk, hcall]
  | requestVote peer request =>
      simp only [hcall, wp_bind] at henv ⊢
      obtain ⟨hat, hsrc, hpre, hreq⟩ := henv
      obtain rfl := hat.eq hi
      refine wp_mono (wp_handleRequestVote hreq he) (fun a e' he' => ?_) fun _ _ he' => he'
      refine RelWith.reply he' fun h _ hv => ?_
      simp only [ReplyOk, hcall]
      exact fun hg => hsrc ▸ hv hg hpre
  | appendEntries peer request seq =>
      simp only [hcall, wp_bind] at henv ⊢
      obtain ⟨hat, hreq⟩ := henv
      obtain rfl := hat.eq hi
      refine wp_mono (wp_handleAppendEntries he hreq) (fun a e' he' => ?_) fun _ _ he' => he'
      refine RelWith.reply he' fun h _ hv => ?_
      simp only [ReplyOk, hcall]
      exact ⟨ha ▸ hat, hv⟩
  | installSnapshot request transfer =>
      simp only [hcall, wp_bind] at henv ⊢
      refine wp_mono (wp_handleInstallSnapshot he hok henv.2.1 ha) (fun a e' he' => ?_)
        fun _ _ he' => he'
      split
      · refine he'.reply fun h g => ?_
        simp only [ReplyOk, hcall]
        exact ⟨ha ▸ henv.1, henv.2.1.mono g, henv.2.2.mono g⟩
      · exact he'
  | timeoutNow request handover =>
      simp only [wp_bind]
      refine wp_mono (wp_handleTimeoutNow he request) (fun a e' he' => ?_) fun _ _ he' => he'
      exact he'.reply fun h _ => by simp [ReplyOk, hcall]
  | readIndex request read => exact he.frame rfl

/-! ## Replies -/

/-- A leader counts a vote that was cast. -/
theorem Rel.addVote (he : Rel c h₀ i e) {p : NodeId}
    (hp : ∃ l, h₀.grant p e.node.currentTerm i l) : Rel c h₀ i (e.addVote p) :=
  he.keep fun h g _ _ r => r.addVote fun _ v hv => by
    unfold Engine.addVote at hv
    by_cases hmem : p ∈ e.votes
    · rw [if_pos hmem] at hv
      exact Or.inl hv
    · rw [if_neg hmem] at hv
      rcases List.mem_append.mp hv with hv | hv
      · exact Or.inl hv
      · rw [List.mem_singleton.mp hv]
        exact Or.inr (hp.imp fun _ => g.grant)

/-- A leader learns how much of its log a follower holds. -/
theorem Rel.noteMatch (he : Rel c h₀ i e) {p : NodeId} {k : Nat}
    (hk : ∀ h, Grows i h₀ h → c.HistOk h → Confirmed c h e.node.currentTerm p k) :
    Rel c h₀ i (e.noteMatch p k) :=
  he.keep fun h g ok _ r => r.noteMatch fun hs q m hq => by
    simp only [Engine.noteMatch, Dict.get?_set] at hq
    split at hq
    · rename_i hqp
      subst q
      obtain rfl := Option.some.inj hq
      rcases Nat.le_total (e.node.matchIndex.getD p 0) k with hle | hle
      · rw [Nat.max_eq_right hle]
        exact Or.inr (hk h g ok)
      · rw [Nat.max_eq_left hle]
        cases hm : e.node.matchIndex.get? p with
        | none =>
            rw [Dict.getD, hm, Option.getD_none]
            exact Or.inr (Confirmed.zero h _ p)
        | some m =>
            rw [Dict.getD, hm, Option.getD_some]
            exact Or.inl hm
    · exact Or.inl hq

theorem wp_preVoteReply (he : Rel c h₀ i e) (peer : NodeId) (round : Nat)
    (response : RequestVoteResponse) :
    wp (preVoteReply peer round response) (fun _ => Rel c h₀ i) (fun _ => Rel c h₀ i) e := by
  simp only [preVoteReply, wp_bind, wp_get, wp_ite, wp_pure, wp_modify]
  split
  · exact wp_becomeFollower he fun e' he' _ _ => he'
  · split
    · exact he
    · have hg : Rel c h₀ i (e.addGrant peer) := he.frame rfl
      split
      · exact wp_becomeCandidate hg false fun e' he' => he'
      · exact hg

theorem wp_requestVoteReply (he : Rel c h₀ i e) {peer : NodeId} {request : RequestVoteRequest}
    {response : RequestVoteResponse}
    (hr : response.voteGranted = true → ∃ l, h₀.grant peer request.term i l) :
    wp (requestVoteReply peer request response) (fun _ => Rel c h₀ i) (fun _ => Rel c h₀ i) e := by
  simp only [requestVoteReply, wp_bind, wp_get, wp_ite, wp_pure, wp_modify]
  split
  · exact wp_becomeFollower he fun e' he' _ _ => he'
  · split
    · exact he
    · rename_i hn
      simp only [not_or, Decidable.not_not, Bool.not_eq_true, Bool.not_eq_false] at hn
      obtain ⟨hs, hterm, hgranted⟩ := hn
      have hv : Rel c h₀ i (e.addVote peer) := he.addVote (hterm ▸ hr hgranted)
      split
      · rename_i hq
        exact wp_becomeLeader hv hs hq fun e' he' => he'
      · exact hv

theorem wp_appendEntriesReply (he : Rel c h₀ i e) {peer : NodeId} {request : AppendEntriesRequest}
    (seq : Nat) {response : AppendEntriesResponse}
    (hr : response.success = true → ∃ p, h₀.acked peer request.term p ∧
      p.length = response.matchIndex ∧
      request.prevLogIndex + request.entries.length ≤ response.matchIndex) :
    wp (appendEntriesReply peer request seq response)
      (fun _ => Rel c h₀ i) (fun _ => Rel c h₀ i) e := by
  simp only [appendEntriesReply, wp_bind, wp_get, wp_ite, wp_pure, wp_modify]
  split
  · exact wp_becomeFollower he fun e' he' _ _ => he'
  · split
    · exact he
    · rename_i hn
      simp only [not_or, Decidable.not_not] at hn
      split
      · rename_i hs
        have hc : Rel c h₀ i (e.noteContact peer seq) := he.frame rfl
        obtain ⟨p, hp, hlen, hle⟩ := hr hs
        refine (hc.noteMatch fun h g ok => ?_).advanceCommitIndex
        change Confirmed c h e.node.currentTerm peer _
        rw [Nat.max_eq_right hle, ← hlen, hn.2]
        obtain ⟨-, hpre, -⟩ := ok.acked_ok (g.acked hp)
        refine ⟨hpre.length_le, Or.inr ⟨p, g.acked hp, ?_⟩⟩
        rw [← List.prefix_iff_eq_take.mp hpre]
      · exact he.frame rfl

theorem Rel.sendChunk (he : Rel c h₀ i e) {t : Transfer} (ht : TransferOk c h₀ t) :
    Rel c h₀ i (e.sendChunk t) :=
  he.send fun _ g _ => ⟨ht.1, (ht.mono g).2, ht.mono g⟩

theorem wp_installSnapshotReply (he : Rel c h₀ i e) {request : InstallSnapshotRequest}
    {transfer : Transfer} (response : InstallSnapshotResponse) (ht : TransferOk c h₀ transfer) :
    wp (installSnapshotReply request transfer response)
      (fun _ => Rel c h₀ i) (fun _ => Rel c h₀ i) e := by
  simp only [installSnapshotReply, wp_bind, wp_get, wp_ite, wp_pure, wp_modify]
  split
  · exact wp_becomeFollower he fun e' he' _ _ => he'
  · split
    · exact he
    · have hc : Rel c h₀ i (e.noteContact transfer.peer transfer.seq) := he.frame rfl
      split
      · split
        · exact hc.keep fun h g _ _ r => r.setQueues r.applying r.installing
            (fun _ hy => Or.inl hy) (fun _ hy => Or.inl hy)
            (fun y hy => (List.mem_append.mp hy).imp id fun hy => by
              obtain rfl := List.mem_singleton.mp hy
              exact ht.mono g) fun _ hp => Or.inl hp
        · exact hc.sendChunk ht
      · exact hc

/-- Every reply that is right, to a call of this node, keeps the invariant. -/
theorem wp_handleReply (he : Rel c h₀ i e) {response : Response}
    (hr : ReplyOk c h₀ env response) (hsrc : env.src = i) :
    wp (handleReply env response) (fun _ => Rel c h₀ i) (fun _ => Rel c h₀ i) e := by
  unfold handleReply
  unfold ReplyOk at hr
  split
  · exact wp_preVoteReply he _ _ _
  · rename_i hc
    simp only [hc] at hr
    exact wp_requestVoteReply he (hsrc ▸ hr)
  · rename_i hc
    simp only [hc] at hr
    exact wp_appendEntriesReply he _ hr.2
  · rename_i hc
    simp only [hc] at hr
    exact wp_installSnapshotReply he _ hr.2.2
  · exact he.frame rfl
  · exact he.frame rfl
  · exact he

end KvCache
