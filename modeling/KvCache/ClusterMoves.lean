import KvCache.ClusterInv

/-!
# What one node does, as moves of the history

Each theorem takes a node that is related to a history and a change of its
core, and moves the history along (`Evolves`): a node that enters a term
adopts it, one that stands for election campaigns, one that casts a vote
grants it, and so on. The sections of the engine are put together from these
moves in `ClusterSteps`.
-/

namespace KvCache

open QuorumLog QuorumLog.History
open MemoryRaftStorage (Holds holds_append)

/-- The node's core is `x` after some moves of node `i` from `h₀`. -/
def Evolves (c : Cluster) (h₀ : Hist) (i : NodeId) (x : Core) : Prop :=
  ∃ h, Grows i h₀ h ∧ c.HistOk h ∧ LeadsClean h ∧ NodeRel c h i x

section Moves

variable {c : Cluster} {h h₀ : Hist} {i : NodeId} {x : Core}

theorem Evolves.refl (ok : c.HistOk h) (cl : LeadsClean h) (r : NodeRel c h i x) :
    Evolves c h i x := ⟨h, Grows.refl i h, ok, cl, r⟩

theorem Evolves.trans (g : Grows i h₀ h) (e : Evolves c h i x) : Evolves c h₀ i x := by
  obtain ⟨h', g', rest⟩ := e
  exact ⟨h', g.trans g', rest⟩

/-! ## The node's own log -/

/-- Committed entries are part of the log of every leader from the node's term
on. -/
theorem NodeRel.commit_lead (ok : c.HistOk h) (r : NodeRel c h i x) {t : Nat} (hw : h.Won t)
    (ht : x.currentTerm ≤ t) : (h.log i).take x.commitIndex <+: h.lead t :=
  ok.settled_prefix_lead c.quorum_inter r.commit hw ht

theorem NodeRel.log_length (r : NodeRel c h i x) :
    x.snapshotIndex + x.log.length = (h.log i).length := by
  rw [r.shows.log_eq, List.length_drop, Nat.add_sub_cancel' r.shows.le]

/-! ## Terms, votes and elections -/

/-- Enter a higher term as a follower. -/
theorem NodeRel.enterTerm (ok : c.HistOk h) (cl : LeadsClean h) (r : NodeRel c h i x) {t : Nat}
    (ht : x.currentTerm < t) :
    Evolves c h i
      { x with
        currentTerm := t
        votedFor := none
        state := .follower
        storage := x.storage.saveTermAndVote t none } := by
  have hcur : h.cur i ≤ t := r.cur ▸ Nat.le_of_lt ht
  have g := adopt_grows hcur
  exact ⟨h.adopt i t, g, adopt_ok ok hcur, cl,
    { r with
      cur := by simp [adopt]
      commit := g.settled (Nat.le_of_lt ht) r.commit
      vote := fun d l hg => by
        have hle : t ≤ h.cur i := (ok.grant_ok hg).1
        rw [r.cur] at hle
        omega
      stored := { r.stored with term := rfl, vote := rfl, log := r.stored.log }
      leader := fun hs => nomatch hs
      candidate := fun hs => nomatch hs
      applying := applying_mono g (Nat.le_refl _) r.applying
      office := office_mono g r.office
      pending := fun y hy => ⟨(r.pending y hy).1.trans (Nat.le_of_lt ht), fun hs => absurd rfl hs,
        (r.pending y hy).2.2⟩
      queues := r.queues.mono g }⟩

/-- Give up a role within the term. -/
theorem NodeRel.stepDown (r : NodeRel c h i x) : NodeRel c h i { x with state := .follower } :=
  { r with
    stored := { r.stored with }
    leader := fun hs => nomatch hs
    candidate := fun hs => nomatch hs
    pending := fun y hy => ⟨(r.pending y hy).1, fun hs => absurd rfl hs, (r.pending y hy).2.2⟩ }

/-- Stand for election in the next term. -/
theorem NodeRel.stand (ok : c.HistOk h) (cl : LeadsClean h) (r : NodeRel c h i x) :
    ∃ h', Grows i h h' ∧ c.HistOk h' ∧ LeadsClean h' ∧
      h'.campaign i (x.currentTerm + 1) (h'.log i) ∧
      NodeRel c h' i
        { x with
          currentTerm := x.currentTerm + 1
          state := .candidate
          votedFor := some i
          storage := x.storage.saveTermAndVote (x.currentTerm + 1) (some i)
          votes := [i] } := by
  have hcur : h.cur i < x.currentTerm + 1 := by
    rw [r.cur]
    exact Nat.lt_succ_self _
  have g := stand_grows hcur
  have hnot : ∀ b, ¬ h.elected (x.currentTerm + 1) i b := fun b hb => by
    have := ok.elected_cur hb
    omega
  exact ⟨h.stand i (x.currentTerm + 1), g, stand_ok ok hcur, cl, Or.inr ⟨rfl, rfl, rfl⟩,
    { r with
      cur := by simp [QuorumLog.History.stand]
      commit := g.settled (Nat.le_succ _) r.commit
      vote := fun d l hg => by
        rcases hg with hg | ⟨-, -, rfl, -⟩
        · have hle : x.currentTerm + 1 ≤ h.cur i := (ok.grant_ok hg).1
          omega
        · rfl
      stored := { r.stored with term := rfl, vote := rfl, log := r.stored.log }
      leader := fun hs => nomatch hs
      candidate := fun _ =>
        { notElected := hnot
          votes := fun v hv => by
            obtain rfl : v = i := by simpa using hv
            exact ⟨h.log v, Or.inr ⟨rfl, rfl, rfl, rfl⟩⟩
          campaign := ⟨h.log i, Or.inr ⟨rfl, rfl, rfl⟩, Or.inl rfl⟩ }
      applying := applying_mono g (Nat.le_refl _) r.applying
      office := office_mono g r.office
      pending := fun y hy => ⟨Nat.le_succ_of_le (r.pending y hy).1,
        fun _ => Nat.lt_succ_of_le (r.pending y hy).1, (r.pending y hy).2.2⟩
      queues := r.queues.mono g }⟩

/-- Vote for a candidate of the current term whose log is up-to-date. -/
theorem NodeRel.castVote (ok : c.HistOk h) (cl : LeadsClean h) (r : NodeRel c h i x)
    {d : NodeId} {b : List LogEntry} (hc : h.campaign d x.currentTerm b)
    (hup : UpToDate LogEntry.term b (h.log i)) (hfree : x.votedFor = none ∨ x.votedFor = some d) :
    ∃ h', Grows i h h' ∧ c.HistOk h' ∧ LeadsClean h' ∧
      h'.grant i x.currentTerm d (h.log i) ∧
      NodeRel c h' i
        { x with
          votedFor := some d
          storage := x.storage.saveTermAndVote x.currentTerm (some d) } := by
  have g := vote_grows h i d
  have hunique : ∀ d' l, h.grant i x.currentTerm d' l → d' = d := fun d' l hg => by
    have hv := r.vote d' l hg
    rcases hfree with hf | hf
    · rw [hf] at hv
      cases hv
    · rw [hf] at hv
      exact (Option.some.inj hv).symm
  refine ⟨h.vote i d, g, vote_ok ok (r.cur ▸ hc) hup (r.cur ▸ hunique), cl,
    Or.inr ⟨rfl, r.cur.symm, rfl, rfl⟩, ?_⟩
  exact
    { r with
      commit := g.settled (Nat.le_refl _) r.commit
      vote := fun d' l hg => by
        rcases hg with hg | ⟨-, -, rfl, -⟩
        · rw [hunique d' l hg]
        · rfl
      stored := { r.stored with term := rfl, vote := rfl, log := r.stored.log }
      leader := fun hs =>
        { r.leader hs with
          elected := (r.leader hs).elected
          known := fun p m hm => by
            obtain ⟨b, hb⟩ := (r.leader hs).elected
            exact ((r.leader hs).known p m hm).mono g ⟨i, b, hb⟩ }
      candidate := fun hs =>
        { notElected := (r.candidate hs).notElected
          votes := fun v hv => ((r.candidate hs).votes v hv).imp fun _ => g.grant
          campaign := (r.candidate hs).campaign }
      applying := applying_mono g (Nat.le_refl _) r.applying
      office := office_mono g r.office
      queues := r.queues.mono g }

/-- A granted vote comes in. -/
theorem NodeRel.addVote (r : NodeRel c h i x) {votes : List NodeId}
    (hv : x.state = .candidate → ∀ v ∈ votes, v ∈ x.votes ∨ ∃ l, h.grant v x.currentTerm i l) :
    NodeRel c h i { x with votes := votes } :=
  { r with
    stored := { r.stored with }
    leader := fun hs => { r.leader hs with }
    candidate := fun hs =>
      { r.candidate hs with
        votes := fun v hm => (hv hs v hm).elim ((r.candidate hs).votes v) id } }

theorem Confirmed.zero (h : Hist) (t : Nat) (p : NodeId) : Confirmed c h t p 0 :=
  ⟨Nat.zero_le _, Or.inl (Or.inl rfl)⟩

/-- Win the election: a quorum of the nodes in `votes` granted theirs. The
log a candidate is elected with is still the one it stood with. -/
theorem NodeRel.win (ok : c.HistOk h) (cl : LeadsClean h) (r : NodeRel c h i x)
    (hs : x.state = .candidate) (hq : c.Quorum {v | v ∈ x.votes}) {m : Dict NodeId Nat}
    (hm : ∀ p k, m.get? p = some k → k = 0) :
    Evolves c h i { x with
      state := .leader, matchIndex := m, learners := Dict.empty, ledTerm := x.currentTerm
      termStartIndex := x.snapshotIndex + x.log.length + 1 } := by
  obtain ⟨b, hc, hlog⟩ := (r.candidate hs).campaign
  have hv : ∃ A, c.Quorum A ∧ ∀ v ∈ A, ∃ l, h.grant v x.currentTerm i l :=
    ⟨_, hq, (r.candidate hs).votes⟩
  have hnew : ¬ h.Won x.currentTerm := quorum_not_won c.quorum_inter ok hv (r.candidate hs).notElected
  have hb : h.log i = b := by
    rcases hlog with hlog | ⟨t, p, ht, hp, hnp⟩
    · exact hlog
    · exact absurd (campaign_complete c.quorum_inter ok hc hnew hv hp ht) hnp
  subst hb
  have hcur := r.cur
  have g₁ := elect_grows (b := h.log i) (hcur ▸ hnew)
  have ok₁ := elect_ok ok (hcur ▸ hc) (hcur ▸ hnew) (hcur ▸ hv)
  have hwon : (h.elect i (h.log i)).elected (h.cur i) i (h.log i) := Or.inr ⟨rfl, rfl, rfl⟩
  have hlead : (h.elect i (h.log i)).lead (h.cur i) = h.log i := by simp [elect]
  -- the leader holds, and so acknowledges, the log it was elected with
  have g := g₁.trans (ack_grows (h.elect i (h.log i)) i (h.log i))
  have hpre : h.log i <+: (h.elect i (h.log i)).lead (h.cur i) := by rw [hlead]
  have ok₂ : c.HistOk ((h.elect i (h.log i)).ack i (h.log i)) :=
    ack_ok ok₁ List.prefix_rfl hpre ⟨i, _, hwon⟩
  refine ⟨(h.elect i (h.log i)).ack i (h.log i), g, ok₂, ?_, ?_⟩
  · intro t hw
    by_cases ht : t = h.cur i
    · subst t
      change Clean ((h.elect i (h.log i)).lead (h.cur i))
      rw [hlead]
      exact cl.backed (ok.backed i)
    · have hw' : h.Won t := by
        obtain ⟨d, b', hb'⟩ := hw
        exact ⟨d, b', hb'.resolve_right fun hh => ht hh.1⟩
      exact (elect_lead (b := h.log i) (hcur ▸ hnew) hw') ▸ cl t hw'
  · exact
    { r with
      learners := rfl
      commit := g.settled (Nat.le_refl _) r.commit
      stored := { r.stored with }
      leader := fun _ =>
        { elected := ⟨h.log i, hcur ▸ hwon⟩
          led := rfl
          log := (hcur ▸ hlead).symm
          acked := Or.inr ⟨rfl, hcur.symm, rfl⟩
          known := fun p k hk => hm p k hk ▸ Confirmed.zero _ _ p }
      candidate := fun hs => by cases hs
      applying := applying_mono g (Nat.le_refl _) r.applying
      office := Or.inr ⟨h.log i, hcur ▸ hwon, by rw [r.log_length]⟩
      pending := fun y hy => ⟨(r.pending y hy).1,
        fun _ => (r.pending y hy).2.1 (by rw [hs]; simp), (r.pending y hy).2.2⟩
      queues := r.queues.mono g }

/-- Consecutive entries are appended, in memory and on storage. -/
theorem Stored.append {log es : List LogEntry} {st : MemoryRaftStorage}
    (hs : Stored (x.withLog log st)) (hne : es ≠ [])
    (hes : ∀ j y, es[j]? = some y → y.index = x.snapshotIndex + log.length + j + 1) :
    Stored (x.withLog (log ++ es) (st.append es)) := by
  have heq := st.append_eq es
  have hholds := holds_append hs.log (Nat.le_refl _) hne hes
  rw [List.take_length] at hholds
  exact
    { term := (congrArg MemoryRaftStorage.term heq).trans hs.term
      vote := (congrArg MemoryRaftStorage.votedFor heq).trans hs.vote
      snapshotIndex := (congrArg MemoryRaftStorage.snapshotIndex heq).trans hs.snapshotIndex
      snapshotTerm := (congrArg MemoryRaftStorage.snapshotTerm heq).trans hs.snapshotTerm
      config := (congrArg MemoryRaftStorage.config heq).trans hs.config
      applied := (Nat.le_of_eq (congrArg MemoryRaftStorage.lastApplied heq)).trans hs.applied
      log := hholds }

/-! ## The log of a leader -/

/-- A leader appends an entry of its term. -/
theorem NodeRel.append (ok : c.HistOk h) (cl : LeadsClean h) (r : NodeRel c h i x)
    (hs : x.state = .leader) {y : LogEntry} (ht : y.term = x.currentTerm)
    (hi : y.index = x.snapshotIndex + x.log.length + 1) (hp : parseConfig y.command = none) :
    Evolves c h i { x with log := x.log ++ [y], storage := x.storage.append [y] } := by
  have hl := r.leader hs
  obtain ⟨b, hb⟩ := hl.elected
  have hcur := r.cur
  have hb' : h.elected (h.cur i) i b := hcur ▸ hb
  have hlog : h.log i = h.lead (h.cur i) := hcur ▸ hl.log
  have g := append_grows (e := y) ok hb' hlog
  have hself : (h.append i y).log i = h.log i ++ [y] := by simp [QuorumLog.History.append]
  have hlead : (h.append i y).lead x.currentTerm = h.log i ++ [y] := by
    simp [QuorumLog.History.append, hcur]
  have hclean : Clean (h.log i ++ [y]) := by
    obtain ⟨ha, hn⟩ := cl.backed (ok.backed i)
    refine ⟨fun k z hz => ?_, fun z hz => ?_⟩
    · rcases Nat.lt_or_ge k (h.log i).length with hlt | hge
      · rw [List.getElem?_append_left hlt] at hz
        exact ha k z hz
      · have hk : k = (h.log i).length := by
          have := (List.getElem?_eq_some_iff.mp hz).1
          simp only [List.length_append, List.length_singleton] at this
          omega
        rw [hk, List.getElem?_concat_length] at hz
        obtain rfl := Option.some.inj hz
        rw [hi, hk, r.log_length]
    · rcases List.mem_append.mp hz with hz | hz
      · exact hn z hz
      · rwa [List.mem_singleton.mp hz]
  refine ⟨h.append i y, g, append_ok ok hb' hlog (ht.trans hcur.symm), ?_, ?_⟩
  · intro t hw
    by_cases htc : t = x.currentTerm
    · subst t
      exact hlead ▸ hclean
    · have hsame : (h.append i y).lead t = h.lead t := by
        refine Function.update_of_ne ?_ _ _
        rw [hcur]
        exact htc
      exact hsame ▸ cl t hw
  · exact
    { r with
      shows := hself ▸ r.shows.append [y]
      commit_le := by
        rw [hself, List.length_append]
        exact Nat.le_add_right_of_le r.commit_le
      commit := by
        rw [hself, List.take_append_of_le_length r.commit_le]
        exact g.settled (Nat.le_refl _) r.commit
      stored := Stored.append (x := x) r.stored (List.cons_ne_nil y []) fun j z hz => by
        cases j with
        | zero =>
            obtain rfl : y = z := by simpa using hz
            exact hi
        | succ j => simp at hz
      leader := fun _ =>
        { elected := ⟨b, g.elected hb⟩
          led := hl.led
          log := by rw [hself, hlead]
          acked := by
            rw [hself]
            exact Or.inr ⟨rfl, hcur.symm, rfl⟩
          known := fun p k hk => (hl.known p k hk).mono g ⟨i, b, hb⟩ }
      candidate := fun hc => absurd (hs.symm.trans hc) (by simp)
      applying := applying_mono g (Nat.le_refl _) r.applying
      office := office_mono g r.office
      queues := r.queues.mono g }

/-- Learn that more is committed. -/
theorem NodeRel.setCommit (r : NodeRel c h i x) {k : Nat} (hle : x.commitIndex ≤ k)
    (hk : k ≤ (h.log i).length) (hs : c.Settled h x.currentTerm ((h.log i).take k)) :
    NodeRel c h i { x with commitIndex := k } :=
  { r with
    commit_le := hk
    commit := hs
    applied_le := r.applied_le.trans hle
    applying := fun j y hj => ⟨(r.applying j y hj).1.trans hle, (r.applying j y hj).2⟩
    stored := { r.stored with applied := r.stored.applied.trans hle }
    leader := fun hs => { r.leader hs with }
    candidate := fun hs => { r.candidate hs with } }

/-- The rule of `_advance_commit_index`: an entry of the leader's own term
that a quorum holds is settled, and so is everything before it. -/
theorem NodeRel.quorum_settled (r : NodeRel c h i x) (hs : x.state = .leader) {k : Nat}
    (h0 : 0 < k) (hk : k ≤ (h.log i).length)
    (hterm : lastTerm ((h.log i).take k) = x.currentTerm)
    (hq : c.Quorum {v | v = i ∨ k ≤ x.matchIndex.getD v 0}) :
    c.Settled h x.currentTerm ((h.log i).take k) := by
  have hl := r.leader hs
  by_cases hset : ∃ v m, x.matchIndex.get? v = some m ∧ k ≤ m ∧
      c.Settled h x.currentTerm ((h.lead x.currentTerm).take m)
  · obtain ⟨v, m, -, hkm, hm⟩ := hset
    rw [hl.log]
    exact hm.shorten (List.take_prefix_take_left hkm)
  · -- everyone counted acknowledged the prefix in this term
    refine Or.inr ⟨x.currentTerm, _, Nat.le_refl _, ⟨?_, _, hq, ?_⟩, List.prefix_rfl⟩
    · have hlt : k - 1 < (h.log i).length := by omega
      have hy : (h.log i)[k - 1]? = some (h.log i)[k - 1] := List.getElem?_eq_getElem hlt
      refine ⟨(h.log i).take (k - 1), (h.log i)[k - 1], ?_, ?_⟩
      · have htake := List.take_add_one (l := h.log i) (i := k - 1)
        rw [Nat.sub_add_cancel h0, hy] at htake
        exact htake
      · have := lastTerm_take hy
        rw [Nat.sub_add_cancel h0] at this
        rw [← this, hterm]
    · rintro v (rfl | hv)
      · exact ⟨_, hl.acked, List.take_prefix _ _⟩
      · cases hm : x.matchIndex.get? v with
        | none =>
            rw [Dict.getD, hm, Option.getD_none] at hv
            exact absurd hv (Nat.not_le_of_lt h0)
        | some m =>
            rw [Dict.getD, hm, Option.getD_some] at hv
            obtain ⟨-, hm' | ⟨p, hp, hpre⟩⟩ := hl.known v m hm
            · exact absurd ⟨v, m, hm, hv, hm'⟩ hset
            · refine ⟨p, hp, List.IsPrefix.trans ?_ hpre⟩
              rw [hl.log]
              exact List.take_prefix_take_left hv

/-- What a leader learns about a follower. -/
theorem NodeRel.noteMatch (r : NodeRel c h i x) {m : Dict NodeId Nat}
    (hm : x.state = .leader → ∀ p k, m.get? p = some k →
      x.matchIndex.get? p = some k ∨ Confirmed c h x.currentTerm p k) :
    NodeRel c h i { x with matchIndex := m } :=
  { r with
    stored := { r.stored with }
    leader := fun hs =>
      { r.leader hs with
        known := fun p k hk => (hm hs p k hk).elim ((r.leader hs).known p k) id }
    candidate := fun hs => { r.candidate hs with } }

/-! ## The log of a follower -/

/-- A prefix of the leader's log is not lost by following the leader. -/
theorem overwrite_keeps {p q b : List LogEntry} (hp : p <+: h.log i) (hpb : p <+: b)
    (hqb : q <+: b) : p <+: (h.overwrite i q).log i := by
  rw [overwrite_log]
  split
  · exact hp
  · rename_i hq
    rcases List.prefix_or_prefix_of_prefix hpb hqb with hh | hh
    · exact hh
    · exact absurd (hh.trans hp) hq

/-- A prefix of the old log, of known length, is a prefix of the new one. -/
theorem take_of_keeps {l l' : List LogEntry} {k : Nat} (hk : k ≤ l.length)
    (hp : l.take k <+: l') : k ≤ l'.length ∧ l'.take k = l.take k := by
  have hlen : (l.take k).length = k := by rw [List.length_take, Nat.min_eq_left hk]
  refine ⟨hlen ▸ hp.length_le, ?_⟩
  have := List.prefix_iff_eq_take.mp hp
  rw [hlen] at this
  exact this.symm

/-- Follow the leader of the current term: hold, and acknowledge, the prefix
`q` of its log. -/
theorem NodeRel.follow (ok : c.HistOk h) (cl : LeadsClean h) (r : NodeRel c h i x)
    (hs : x.state = .follower) (hw : h.Won x.currentTerm) {q : List LogEntry}
    (hq : q <+: h.lead x.currentTerm) {log' : List LogEntry} {st : MemoryRaftStorage}
    (hshow : Shows x.snapshotIndex x.snapshotTerm log' ((h.overwrite i q).log i))
    (hst : Stored { x with log := log', storage := st }) :
    ∃ h', Grows i h h' ∧ c.HistOk h' ∧ LeadsClean h' ∧ h'.acked i x.currentTerm q ∧
      q <+: h'.log i ∧ h'.lead x.currentTerm = h.lead x.currentTerm ∧
      NodeRel c h' i { x with log := log', storage := st } := by
  have hcur := r.cur
  have g₁ := overwrite_grows h i q
  have g := g₁.trans (ack_grows (h.overwrite i q) i q)
  have ok₁ : c.HistOk (h.overwrite i q) := follow_ok ok (hcur ▸ hq) (hcur ▸ hw)
  have ok₂ : c.HistOk ((h.overwrite i q).ack i q) :=
    ack_ok ok₁ (prefix_overwrite h i q) (hcur ▸ hq) (hcur ▸ hw)
  have hkeep := take_of_keeps r.commit_le
    (overwrite_keeps (List.take_prefix _ _) (r.commit_lead ok hw (Nat.le_refl _)) hq)
  refine ⟨(h.overwrite i q).ack i q, g, ok₂, cl, Or.inr ⟨rfl, hcur.symm, rfl⟩,
    prefix_overwrite h i q, rfl, ?_⟩
  exact
    { r with
      shows := hshow
      commit_le := hkeep.1
      commit := by
        change c.Settled _ _ (((h.overwrite i q).log i).take x.commitIndex)
        rw [hkeep.2]
        exact g.settled (Nat.le_refl _) r.commit
      stored := hst
      leader := fun hl => absurd (hs.symm.trans hl) (by simp)
      candidate := fun hc => absurd (hs.symm.trans hc) (by simp)
      applying := applying_mono g (Nat.le_refl _) r.applying
      office := office_mono g r.office
      queues := r.queues.mono g }

/-! ## Snapshots -/

theorem settled_backed (ok : c.HistOk h) {t : Nat} {p : List LogEntry} (hp : c.Settled h t p) :
    h.Backed LogEntry.term p := by
  rcases hp with rfl | ⟨t₀, q, -, hq, hpq⟩
  · exact Backed.nil
  · obtain ⟨hql, hw⟩ := ok.committed_lead (fun _ => Ok.quorum_mem c.quorum_inter) hq
    exact (ok.lead_backed hw).shorten (hpq.trans hql)

/-- Whether a node's log agrees with a snapshot is decided by the term at the
snapshot's index. -/
theorem snapshot_agrees (ok : c.HistOk h) {s : List LogEntry} {t : Nat}
    (hs : c.Settled h t s) (hne : s ≠ []) :
    s.length ≤ (h.log i).length ∧ lastTerm ((h.log i).take s.length) = lastTerm s ↔
      s <+: h.log i := by
  constructor
  · rintro ⟨hlen, ht⟩
    have htake : ((h.log i).take s.length).length = s.length := by
      rw [List.length_take, Nat.min_eq_left hlen]
    have hb := (ok.backed i).shorten (List.take_prefix s.length (h.log i))
    exact ((settled_backed ok hs).prefix_of_lastTerm hb hne ht (Nat.le_of_eq htake.symm)).trans
      (List.take_prefix _ _)
  · intro hp
    refine ⟨hp.length_le, ?_⟩
    rw [← List.prefix_iff_eq_take.mp hp]

/-- Move the snapshot boundary up to what is applied. -/
theorem NodeRel.compact (r : NodeRel c h i x) {log' : List LogEntry} {t : Nat}
    {st : MemoryRaftStorage} (hshow : Shows x.lastApplied t log' (h.log i))
    (hst : Stored { x with
      log := log', snapshotIndex := x.lastApplied, snapshotTerm := t, storage := st }) :
    NodeRel c h i { x with
      log := log', snapshotIndex := x.lastApplied, snapshotTerm := t, storage := st } :=
  { r with
    shows := hshow
    snapshot_le := Nat.le_refl _
    stored := hst
    leader := fun hs => { r.leader hs with }
    candidate := fun hs => { r.candidate hs with } }

/-- Install a snapshot: if the log does not start with the prefix `s` the
snapshot stands for, it is replaced by it. -/
theorem NodeRel.install (ok : c.HistOk h) (cl : LeadsClean h) (r : NodeRel c h i x)
    {s : List LogEntry} {u : Nat} (hs : c.Settled h u s) (hu : u ≤ x.currentTerm)
    (hrole : x.state ≠ .follower → u < x.currentTerm) (hfree : x.applyLock = .free)
    {log' : List LogEntry} {st : MemoryRaftStorage}
    (hshow : Shows s.length (lastTerm s) log' ((h.overwrite i s).log i))
    (hst : Stored { x with
      commitIndex := max x.commitIndex s.length, lastApplied := s.length, log := log'
      snapshotIndex := s.length, snapshotTerm := lastTerm s, storage := st }) :
    Evolves c h i { x with
      commitIndex := max x.commitIndex s.length, lastApplied := s.length, log := log'
      snapshotIndex := s.length, snapshotTerm := lastTerm s, storage := st } := by
  have hcur := r.cur
  have g := overwrite_grows h i s
  have hset : c.Settled h x.currentTerm s := hs.mono hu
  have ok₁ : c.HistOk (h.overwrite i s) := install_ok c.quorum_inter ok (hcur ▸ hset)
  have hsame : s <+: h.log i → (h.overwrite i s).log i = h.log i := fun hp => by
    rw [overwrite_log, if_pos hp]
  have hpre := prefix_overwrite h i s
  -- whatever is committed beyond the snapshot starts with it
  have hbeyond : s.length ≤ x.commitIndex → s <+: h.log i := fun hle => by
    rcases ok.settled_comparable c.quorum_inter hset r.commit with hp | hp
    · exact hp.trans (List.take_prefix _ _)
    · have hlen' : ((h.log i).take x.commitIndex).length = x.commitIndex := by
        rw [List.length_take, Nat.min_eq_left r.commit_le]
      have heq := hp.eq_of_length_le (by omega)
      exact heq ▸ List.take_prefix _ _
  refine ⟨h.overwrite i s, g, ok₁, cl, ?_⟩
  exact
    { r with
      shows := hshow
      commit_le := by
        refine Nat.max_le.mpr ⟨?_, hpre.length_le⟩
        rcases Nat.le_total s.length x.commitIndex with hle | hle
        · rw [hsame (hbeyond hle)]
          exact r.commit_le
        · exact hle.trans hpre.length_le
      commit := by
        change c.Settled _ _ (((h.overwrite i s).log i).take (max x.commitIndex s.length))
        rcases Nat.le_total s.length x.commitIndex with hle | hle
        · rw [hsame (hbeyond hle), Nat.max_eq_left hle]
          exact g.settled (Nat.le_refl _) r.commit
        · rw [Nat.max_eq_right hle, ← List.prefix_iff_eq_take.mp hpre]
          exact g.settled (Nat.le_refl _) hset
      applied_le := Nat.le_max_right _ _
      snapshot_le := Nat.le_refl _
      applying := applying_mono g (Nat.le_max_left _ _) r.applying
      office := office_mono g r.office
      installing := fun y hy => nomatch hfree.symm.trans hy
      stored := hst
      leader := fun hl => by
        obtain ⟨b, hb⟩ := (r.leader hl).elected
        have hp : s <+: h.log i := by
          rw [(r.leader hl).log]
          exact ok.settled_prefix_lead c.quorum_inter hset ⟨i, b, hb⟩ (Nat.le_refl _)
        exact
          { r.leader hl with
            log := (hsame hp).trans (r.leader hl).log
            acked := (hsame hp).symm ▸ (r.leader hl).acked }
      candidate := fun hc => by
        obtain ⟨b, hb, hlog⟩ := (r.candidate hc).campaign
        refine { r.candidate hc with campaign := ⟨b, hb, ?_⟩ }
        rcases hlog with hlog | hlost
        · by_cases hp : s <+: h.log i
          · exact Or.inl ((hsame hp).trans hlog)
          · rcases hs with rfl | ⟨t₀, q, ht₀, hq, hsq⟩
            · exact absurd List.nil_prefix hp
            · have hlt := hrole (by rw [show x.state = .candidate from hc]; simp)
              exact Or.inr ⟨t₀, q, Nat.lt_of_le_of_lt ht₀ hlt, g.committed hq,
                fun hqb => hp (hlog ▸ hsq.trans hqb)⟩
        · exact Or.inr (hlost.imp fun t => Exists.imp fun p hp => ⟨hp.1, g.committed hp.2.1, hp.2.2⟩)
      queues := r.queues.mono g }

/-! ## Applying, queues and restarts -/

/-- An entry is applied and the apply lock is free again. -/
theorem NodeRel.setApplied (r : NodeRel c h i x) {k : Nat} (hle : x.lastApplied ≤ k)
    (hk : k ≤ x.commitIndex) : NodeRel c h i { x with lastApplied := k, applyLock := .free } :=
  have hpending : ∀ y ∈ ({ x with applyLock := .free } : Core).pending, y ∈ x.pending :=
    fun y hy => by
      unfold Core.pending at hy ⊢
      split
      · exact List.mem_cons_of_mem _ hy
      · exact hy
  { r with
    applied_le := hk
    snapshot_le := r.snapshot_le.trans hle
    applying := fun _ _ hy => nomatch hy
    installing := fun _ hy => nomatch hy
    stored := { r.stored with }
    leader := fun hs => { r.leader hs with }
    candidate := fun hs => { r.candidate hs with }
    pending := fun y hy => r.pending y (hpending y hy)
    queues := { r.queues with pending := fun y hy => r.queues.pending y (hpending y hy) } }

/-- Changes of the queues and of the apply lock. -/
theorem NodeRel.setQueues (r : NodeRel c h i x) {lock : ApplyLock} {installs : List Install}
    {outgoing : List Outgoing} {transfers : List Transfer} {outbox : List Packet}
    (happly : ∀ k y, lock = .applying k y → k ≤ x.commitIndex ∧ Decided c h k y)
    (hinstall : ∀ y, lock = .installing y → x.lastApplied < y.request.lastIncludedIndex)
    (hpending : ∀ y ∈ ({ x with applyLock := lock, installs := installs } : Core).pending,
      y ∈ x.pending ∨ (y.env.Ok c h ∧ InstallOk c h y.request) ∧
        y.request.term ≤ x.currentTerm ∧
          (x.state ≠ .follower → y.request.term < x.currentTerm) ∧ y.env.address = c.address i)
    (hout : ∀ y ∈ outgoing, y ∈ x.outgoing ∨ y.Ok c h)
    (htransfers : ∀ y ∈ transfers, y ∈ x.transfers ∨ TransferOk c h y)
    (hbox : ∀ p ∈ outbox, p ∈ x.outbox ∨ p.Ok c h) :
    NodeRel c h i { x with
      applyLock := lock, installs := installs, outgoing := outgoing
      transfers := transfers, outbox := outbox } :=
  { r with
    applying := happly
    installing := hinstall
    stored := { r.stored with }
    leader := fun hs => { r.leader hs with }
    candidate := fun hs => { r.candidate hs with }
    pending := fun y hy => (hpending y hy).elim (r.pending y) fun hh => hh.2
    queues :=
      { pending := fun y hy => (hpending y hy).elim (r.queues.pending y) fun hh => hh.1
        outgoing := fun y hy => (hout y hy).elim (r.queues.outgoing y) id
        transfers := fun y hy => (htransfers y hy).elim (r.queues.transfers y) id
        outbox := fun p hp => (hbox p hp).elim (r.queues.outbox p) id } }

/-- A new process on the storage of the old one. -/
theorem NodeRel.restart (r : NodeRel c h i x) {k : Nat} (hk : k ≤ x.commitIndex)
    (hsnap : x.snapshotIndex ≤ k) (hst : x.storage.lastApplied ≤ k) :
    NodeRel c h i { x with
      state := .follower, commitIndex := k, lastApplied := k, matchIndex := Dict.empty
      learners := Dict.empty, termStartIndex := 0, ledTerm := 0, votes := [], applyLock := .free, installs := [], outgoing := [], transfers := []
      outbox := [] } :=
  { r with
    commit_le := hk.trans r.commit_le
    commit := r.commit.shorten (List.take_prefix_take_left hk)
    applied_le := Nat.le_refl _
    snapshot_le := hsnap
    learners := rfl
    applying := fun _ _ hk => nomatch hk
    installing := fun _ hy => nomatch hy
    stored := { r.stored with applied := hst }
    office := Or.inl rfl
    leader := fun hs => nomatch hs
    candidate := fun hs => nomatch hs
    pending := fun _ hy => nomatch hy
    queues :=
      { pending := fun _ hy => nomatch hy
        outgoing := fun _ hy => nomatch hy
        transfers := fun _ hy => nomatch hy
        outbox := fun _ hy => nomatch hy } }

end Moves

end KvCache
