import KvCache.Compaction

/-!
# Backing off to where the logs agree

A leader and one follower, alone: the leader builds a request from the
follower's next index, the follower handles it, the leader processes the
reply. Both logs may be compacted; `l` and `f` are the full logs behind them.
Each rejection lowers the next index, each success that brings entries
raises the match index, and so the rounds come to an end
(`back_off_converges`): either the follower holds the whole log of the
leader, or it needs entries that the leader has compacted.
-/

namespace KvCache

open StateWp Engine

/-! ## Rounds -/

/-- What the leader sends in the next round and what the follower answers. -/
def exchange (peer : NodeId) (leader follower : Engine) :
    Option (AppendEntriesRequest × AppendEntriesResponse) :=
  match leader.node.nextIndex.get? peer with
  | none => none
  | some nextIdx =>
    if leader.node.snapshotIndex < nextIdx then
      let request := leader.entriesRequest leader.node.currentTerm nextIdx
      (value? (handleAppendEntries request) follower).map fun response => (request, response)
    else none

/-- One round. Without an exchange nothing happens: a follower that lacks
compacted entries is sent a snapshot instead. -/
def round (peer : NodeId) (p : Engine × Engine) : Engine × Engine :=
  match exchange peer p.1 p.2 with
  | none => p
  | some (request, response) =>
    (after (appendEntriesReply peer request (p.1.sendSeq + 1) response) p.1.nextSendSeq,
      after (handleAppendEntries request) p.2)

def rounds (peer : NodeId) (n : Nat) (p : Engine × Engine) : Engine × Engine := (round peer)^[n] p

/-- `next_index` of a peer. -/
def Engine.next (e : Engine) (peer : NodeId) : Nat := (e.node.nextIndex.get? peer).getD 0

/-- `match_index` of a peer. -/
def Engine.matched (e : Engine) (peer : NodeId) : Nat := e.node.matchIndex.getD peer 0

/-- Entries of one index and one term come after the same entries. -/
def LogMatching (f l : List LogEntry) : Prop :=
  ∀ k x y, f[k]? = some x → l[k]? = some y → x.term = y.term → f.take (k + 1) = l.take (k + 1)

/-- A leader and a follower whose logs may differ in any way that Log
Matching allows. What the follower has compacted is committed, hence part of
the leader's log. The leader knows nothing of the follower yet, or all it
believes is right. -/
structure OutOfStep (peer : NodeId) (l f : List LogEntry) (leader follower : Engine) : Prop where
  leads : leader.node.state = .leader
  leaderLog : leader.node.Shows l
  aligned : Aligned l
  followerLog : follower.node.Shows f
  matching : LogMatching f l
  shared : f.take follower.node.snapshotIndex <+: l
  term : follower.node.currentTerm ≤ leader.node.currentTerm
  calls : ∀ k, follower.faults k = []
  next : ∃ nextIdx, leader.node.nextIndex.get? peer = some nextIdx ∧ 0 < nextIdx ∧
    nextIdx ≤ l.length + 1
  tracked : leader.matched peer = 0 ∨
    (leader.matched peer + 1 = leader.next peer ∧ l.take (leader.matched peer) <+: f)

/-! ## The follower -/

/-- An engine in a term, with a full log behind its boundary, whose storage
calls succeed. -/
structure Holding (boundary term : Nat) (f : List LogEntry) (e : Engine) : Prop where
  boundary_eq : e.node.snapshotIndex = boundary
  term_eq : e.node.currentTerm = term
  shows : e.node.Shows f
  calls : ∀ k, e.faults k = []

section Follower

variable {b t : Nat} {f l : List LogEntry} {e : Engine}

theorem Holding.refreshConfig (h : Holding b t f e) : Holding b t f e.refreshConfig := by
  have hkeep := @refreshConfig_keeps e
    (fun n faults => n.snapshotIndex = b ∧ n.currentTerm = t ∧ n.Shows f ∧ ∀ k, faults k = [])
    (fun _ _ _ _ h => h) ⟨h.boundary_eq, h.term_eq, h.shows, h.calls⟩
  exact ⟨hkeep.1, hkeep.2.1, hkeep.2.2.1, hkeep.2.2.2⟩

theorem Holding.stepDown (h : Holding b t f e) : Holding b t f e.stepDown := by
  unfold Engine.stepDown
  split <;> exact ⟨h.boundary_eq, h.term_eq, h.shows, h.calls⟩

theorem wp_acceptLeader_holding (h : Holding b t f e) {term : Nat} (ht : t ≤ term)
    (leaderId : NodeId) (address : String) :
    wp (acceptLeader term leaderId address) (fun _ => Holding b term f) (fun _ _ => False) e := by
  have hfollow : wp (becomeFollower term) (fun _ => Holding b term f) (fun _ _ => False) e := by
    unfold becomeFollower persistTermAndVote
    simp only [wp_bind, wp_get, wp_ite, wp_modify]
    rw [wp_storageCall_ok (show (e.enterTerm term).faults _ = [] from h.calls _)]
    split
    · exact Holding.stepDown ⟨h.boundary_eq, rfl, h.shows, h.calls⟩
    · next hlt =>
        have : e.node.currentTerm = term := by
          have := h.term_eq
          omega
        exact Holding.stepDown ⟨h.boundary_eq, this, h.shows, h.calls⟩
  unfold acceptLeader
  simp only [wp_bind, wp_get, wp_ite, wp_modify]
  split
  · refine wp_mono hfollow (fun _ _ h₁ => ?_) fun _ _ h₁ => h₁
    exact ⟨h₁.boundary_eq, h₁.term_eq, h₁.shows, h₁.calls⟩
  · next hstay =>
      have : e.node.currentTerm = term := by
        have := h.term_eq
        omega
      exact ⟨h.boundary_eq, this, h.shows, h.calls⟩

/-- Dropping the log from index `k + 1` on. -/
theorem wp_truncateLocal_holding (h : Holding b t f e) {k : Nat} (hk : b ≤ k) :
    wp (truncateLocal (k + 1)) (fun _ => Holding b t (f.take k)) (fun _ _ => False) e := by
  have hb : e.node.snapshotIndex ≤ k := h.boundary_eq ▸ hk
  unfold truncateLocal
  simp only [wp_bind, wp_modify]
  rw [wp_storageCall_ok (show (e.cutLog (k + 1)).faults _ = [] from h.calls _)]
  refine Holding.refreshConfig ⟨h.boundary_eq, h.term_eq, ?_, h.calls⟩
  have hcut : (e.node.truncateFrom (k + 1)).log = e.node.log.take (k - e.node.snapshotIndex) :=
    e.node.truncateFrom_log hb
  have hshow := KvCache.Shows.take h.shows hb
  rw [← hcut] at hshow
  exact hshow

theorem wp_appendLocal_holding (h : Holding b t f e) (entries : List LogEntry) :
    wp (appendLocal entries) (fun _ => Holding b t (f ++ entries)) (fun _ _ => False) e := by
  have happend : Holding b t (f ++ entries) ((e.extendLog entries).store fun s => s.append entries) :=
    ⟨h.boundary_eq, h.term_eq, KvCache.Shows.append h.shows entries, h.calls⟩
  unfold appendLocal
  simp only [wp_bind, wp_modify]
  rw [wp_storageCall_ok (show (e.extendLog entries).faults _ = [] from h.calls _)]
  simp only [wp_ite, wp_modify, wp_pure]
  split
  · exact happend.refreshConfig
  · exact happend

theorem LogMatching.take (hm : LogMatching f l) (k : Nat) : LogMatching (f.take k) l := by
  intro j x y hx hy ht
  rw [List.getElem?_take] at hx
  split at hx
  · next hlt =>
      rw [List.take_take, Nat.min_eq_left (by omega)]
      exact hm j x y hx hy ht
  · cases hx

/-- Equal terms before index `k` mean equal entries up to there. -/
theorem LogMatching.take_eq (hm : LogMatching f l) {k : Nat} (hf : k ≤ f.length)
    (hl : k ≤ l.length) (ht : lastTerm (f.take k) = lastTerm (l.take k)) : f.take k = l.take k := by
  cases k with
  | zero => rw [List.take_zero, List.take_zero]
  | succ j =>
      have hx : f[j]? = some f[j] := List.getElem?_eq_getElem hf
      have hy : l[j]? = some l[j] := List.getElem?_eq_getElem hl
      rw [lastTerm_take hx, lastTerm_take hy] at ht
      exact hm j _ _ hx hy ht

theorem LogMatching.of_shorter (h : f <+: l) : LogMatching f l := by
  intro k x y hx _ _
  have hlt := (List.getElem?_eq_some_iff.mp hx).1
  obtain ⟨s, rfl⟩ := h
  rw [List.take_append_of_le_length (by omega)]

/-- Where the logs agree up to `k`, the loop finds that the follower has all
of `l` up to `q`, or where the two part. -/
theorem wp_dropConflict_holding (h : Holding b t f e) (hm : LogMatching f l) (ha : Aligned l)
    {q k : Nat} (hq : q ≤ l.length) (hbk : b ≤ k) (hkf : k ≤ f.length) (hkq : k ≤ q)
    (hagree : f.take k = l.take k) :
    wp (dropConflict ((l.take q).drop k))
      (fun rest e' => (rest = [] ∧ e' = e ∧ l.take q <+: f) ∨
        ∃ j, j < q ∧ rest = (l.take q).drop j ∧ Holding b t (l.take j) e')
      (fun _ _ => False) e := by
  generalize hd : (l.take q).drop k = entries
  induction entries generalizing k with
  | nil =>
      have hlen := List.drop_eq_nil_iff.mp hd
      rw [List.length_take, Nat.min_eq_left hq] at hlen
      obtain rfl : k = q := by omega
      rw [dropConflict, wp_pure, ← hagree]
      exact Or.inl ⟨rfl, rfl, List.take_prefix _ _⟩
  | cons y rest ih =>
      have hlt : k < q := by
        by_contra hge
        rw [List.drop_of_length_le (by rw [List.length_take]; omega)] at hd
        cases hd
      have hy : l[k]? = some y := by
        have := congrArg List.head? hd
        rwa [List.head?_drop, List.head?_cons, List.getElem?_take, if_pos hlt] at this
      have hrest : (l.take q).drop (k + 1) = rest := by
        rw [← List.tail_drop, hd, List.tail_cons]
      have hterm := h.shows.termAt (k + 1)
      rw [h.boundary_eq] at hterm
      simp only [dropConflict, wp_bind, wp_get, wp_ite, wp_pure, ha k y hy, hterm]
      rcases Nat.lt_or_ge k f.length with hkl | hkl
      · obtain ⟨x, hx⟩ : ∃ x, f[k]? = some x := ⟨_, List.getElem?_eq_getElem hkl⟩
        simp only [show b ≤ k + 1 by omega, show k + 1 ≤ f.length by omega, and_self, if_true,
          reduceCtorEq, if_false, lastTerm_take hx, ne_eq, Option.some.injEq]
        split
        · -- a conflicting tail
          refine wp_mono (wp_truncateLocal_holding h hbk) (fun _ e' h' => Or.inr ?_) fun _ _ h' => h'
          exact ⟨k, hlt, hd.symm, hagree ▸ h'⟩
        · next heq =>
            exact ih (by omega) (by omega) (by omega)
              (hm k x y hx hy (Decidable.not_not.mp heq)) hrest
      · -- the follower's log ends here
        obtain rfl : k = f.length := by omega
        have hpast : ¬ (b ≤ f.length + 1 ∧ f.length + 1 ≤ f.length) := by omega
        simp only [if_neg hpast, if_true]
        refine Or.inr ⟨f.length, hlt, hd.symm, ?_⟩
        rw [← hagree, List.take_length]
        exact h

/-- Merging a piece of the leader's log. -/
theorem wp_mergeEntries_holding (h : Holding b t f e) (hm : LogMatching f l) (ha : Aligned l)
    {q k : Nat} (hq : q ≤ l.length) (hbk : b ≤ k) (hkf : k ≤ f.length) (hkq : k ≤ q)
    (hagree : f.take k = l.take k) :
    wp (mergeEntries ((l.take q).drop k))
      (fun _ e' => ∃ f', Holding b t f' e' ∧ LogMatching f' l ∧ l.take q <+: f')
      (fun _ _ => False) e := by
  unfold mergeEntries
  rw [wp_bind]
  refine wp_mono (wp_dropConflict_holding h hm ha hq hbk hkf hkq hagree) ?_ fun _ _ h' => h'
  rintro rest e' (⟨rfl, rfl, hpre⟩ | ⟨j, hj, rfl, h'⟩)
  · rw [if_neg (by simp), wp_pure]
    exact ⟨f, h, hm, hpre⟩
  · have hne : (l.take q).drop j ≠ [] := by
      intro hnil
      have := List.drop_eq_nil_iff.mp hnil
      rw [List.length_take] at this
      omega
    rw [if_pos hne]
    refine wp_mono (wp_appendLocal_holding h' _) (fun _ e₁ h₁ => ?_) fun _ _ h₁ => h₁
    have hwhole : l.take j ++ (l.take q).drop j = l.take q := by
      have := List.take_append_drop j (l.take q)
      rwa [List.take_take, Nat.min_eq_left (by omega)] at this
    rw [hwhole] at h₁
    exact ⟨l.take q, h₁, .of_shorter (List.take_prefix _ _), List.prefix_rfl⟩

/-- The handler on a piece of the leader's log: it is refused, or the follower
holds all of it. -/
theorem wp_handleAppendEntries_holding (h : Holding b t f e) {req : AppendEntriesRequest}
    (ht : t ≤ req.term) (hm : LogMatching f l) (ha : Aligned l) (hshared : f.take b <+: l)
    {q : Nat} (hpq : req.prevLogIndex ≤ q) (hq : q ≤ l.length)
    (hentries : req.entries = (l.take q).drop req.prevLogIndex)
    (hprev : req.prevLogTerm = some (lastTerm (l.take req.prevLogIndex))) :
    wp (handleAppendEntries req)
      (fun r e' => r.term = req.term ∧
        ((r.success = false ∧ Holding b req.term f e' ∧ ¬ l.take req.prevLogIndex <+: f) ∨
        (r.success = true ∧ r.matchIndex = max q b ∧ b ≤ l.length ∧
          ∃ f', Holding b req.term f' e' ∧ LogMatching f' l ∧ l.take (max q b) <+: f')))
      (fun _ _ => False) e := by
  have hbf : b ≤ f.length := h.boundary_eq ▸ h.shows.le
  have hbl : b ≤ l.length := by
    have := hshared.length_le
    rwa [List.length_take, Nat.min_eq_left hbf] at this
  have hagree : f.take b = l.take b := by
    have := List.prefix_iff_eq_take.mp hshared
    rwa [List.length_take, Nat.min_eq_left hbf] at this
  rw [handleAppendEntries_eq]
  simp only [wp_bind, wp_get, wp_ite]
  rw [if_neg (by rw [h.term_eq]; omega)]
  refine wp_mono (wp_acceptLeader_holding h ht _ _) (fun _ e₁ h₁ => ?_) fun _ _ h₁ => h₁
  have hfinish : ∀ {k q' : Nat}, b ≤ k → k ≤ f.length → k ≤ q' → q' ≤ l.length →
      f.take k = l.take k → q' = max q b →
      wp (appendFrom req ((l.take q').drop k) k)
        (fun r e' => r.term = req.term ∧
          ((r.success = false ∧ Holding b req.term f e' ∧ ¬ l.take req.prevLogIndex <+: f) ∨
          (r.success = true ∧ r.matchIndex = max q b ∧ b ≤ l.length ∧
            ∃ f', Holding b req.term f' e' ∧ LogMatching f' l ∧ l.take (max q b) <+: f')))
        (fun _ _ => False) e₁ := by
    rintro k q' hbk hkf hkq' hq' hk rfl
    unfold appendFrom
    simp only [wp_bind]
    refine wp_mono (wp_mergeEntries_holding h₁ hm ha hq' hbk hkf hkq' hk) ?_ fun _ _ h₂ => h₂
    rintro _ e₂ ⟨f', h₂, hm', hpre⟩
    rw [wp_bind, wp_modify, wp_bind, wp_get, wp_pure]
    have hcommit (e : Engine) (h : Holding b req.term f' e) (k m : Nat) :
        Holding b req.term f' (e.followCommit k m) := by
      unfold Engine.followCommit
      split
      · exact ⟨h.boundary_eq, h.term_eq, h.shows, h.calls⟩
      · exact h
    have h₃ := hcommit e₂ h₂ req.leaderCommit (k + ((l.take (max q b)).drop k).length)
    refine ⟨h₃.term_eq, Or.inr ⟨rfl, ?_, hbl, f', h₃, hm', hpre⟩⟩
    change k + ((l.take (max q b)).drop k).length = max q b
    rw [List.length_drop, List.length_take]
    omega
  unfold checkAndAppend
  simp only [wp_bind, wp_get, wp_ite, wp_pure]
  by_cases hlt : req.prevLogIndex < b
  · -- what the snapshot covers is skipped
    have hskip : e₁.node.skipCovered req
        = ((l.take (max q b)).drop b, b, some e₁.node.snapshotTerm) := by
      unfold RaftNode.skipCovered
      rw [h₁.boundary_eq, if_pos hlt, hentries, List.drop_drop]
      rw [show req.prevLogIndex + (b - req.prevLogIndex) = b by omega]
      rcases Nat.le_total q b with hqb | hqb
      · rw [Nat.max_eq_right hqb, List.drop_of_length_le (by rw [List.length_take]; omega),
          List.drop_of_length_le (by rw [List.length_take]; omega)]
      · rw [Nat.max_eq_left hqb]
    have hself : e₁.node.termAt b = some e₁.node.snapshotTerm := by
      unfold RaftNode.termAt
      rw [h₁.boundary_eq, if_pos rfl]
    rw [hskip]
    dsimp only
    rw [h₁.shows.lastLogIndex, if_neg (by omega), if_neg (by rw [hself]; simp)]
    exact hfinish (Nat.le_refl b) hbf (Nat.le_max_right _ _) (by omega) hagree rfl
  · have hge : b ≤ req.prevLogIndex := Nat.le_of_not_lt hlt
    have hskip : e₁.node.skipCovered req = (req.entries, req.prevLogIndex, req.prevLogTerm) := by
      unfold RaftNode.skipCovered
      rw [h₁.boundary_eq, if_neg hlt]
    rw [hskip]
    dsimp only
    rw [h₁.shows.lastLogIndex]
    split
    · next hshort =>
        refine ⟨h₁.term_eq, Or.inl ⟨trivial, h₁, ?_⟩⟩
        intro hpre
        have := hpre.length_le
        rw [List.length_take] at this
        omega
    · next hlong =>
        have hterm : e₁.node.termAt req.prevLogIndex
            = some (lastTerm (f.take req.prevLogIndex)) := by
          rw [h₁.shows.termAt, h₁.boundary_eq, if_pos ⟨hge, by omega⟩]
        rw [hterm, hprev]
        split
        · next hne =>
            refine ⟨h₁.term_eq, Or.inl ⟨trivial, h₁, ?_⟩⟩
            intro hpre
            have := List.prefix_iff_eq_take.mp hpre
            rw [List.length_take, Nat.min_eq_left (by omega)] at this
            exact hne (by rw [this])
        · next heq =>
            have hsame : f.take req.prevLogIndex = l.take req.prevLogIndex := by
              rw [ne_eq, Option.some.injEq, Decidable.not_not] at heq
              exact hm.take_eq (by omega) (by omega) heq
            rw [hentries]
            have hmax : max q b = q := Nat.max_eq_left (by omega)
            have := hfinish hge (by omega) hpq hq hsame hmax.symm
            exact this

end Follower

/-! ## The leader -/

section Leader

variable {peer : NodeId} {l f : List LogEntry} {leader follower : Engine}

/-- What processing a reply does to a leader. -/
structure Processed (peer : NodeId) (next matched : Nat) (e e' : Engine) : Prop where
  state : e'.node.state = e.node.state
  log : SameLog e.node e'
  term : e'.node.currentTerm = e.node.currentTerm
  next : e'.node.nextIndex.get? peer = some next
  matched : e'.matched peer = matched

theorem Processed.advance {next matched : Nat} {e e' : Engine} (h : Processed peer next matched e e') :
    Processed peer next matched e e'.advanceCommitIndex := by
  unfold Engine.advanceCommitIndex
  split
  · exact h
  · split
    · exact ⟨h.state, ⟨h.log.log, h.log.snapshotIndex, h.log.snapshotTerm⟩, h.term, h.next, h.matched⟩
    · exact h

variable (peer) in
/-- A reply of the leader's own term. -/
theorem processed_reply (hl : leader.node.state = .leader) {request : AppendEntriesRequest}
    (hreq : request.term = leader.node.currentTerm) {response : AppendEntriesResponse}
    (hres : response.term = leader.node.currentTerm) (seq : Nat) :
    (response.success = true →
      Processed peer (max (leader.matched peer)
          (max (request.prevLogIndex + request.entries.length) response.matchIndex) + 1)
        (max (leader.matched peer)
          (max (request.prevLogIndex + request.entries.length) response.matchIndex)) leader
        (after (appendEntriesReply peer request seq response) leader.nextSendSeq)) ∧
    (response.success = false →
      ∃ next, next = max 1 (min (if response.conflictIndex = 0 then request.prevLogIndex
          else response.conflictIndex) request.prevLogIndex) ∧
        Processed peer next (leader.matched peer) leader
          (after (appendEntriesReply peer request seq response) leader.nextSendSeq)) := by
  have hcur : leader.nextSendSeq.node = leader.node := rfl
  refine ⟨fun hs => ?_, fun hs => ⟨_, rfl, ?_⟩⟩
  · refine (wp_after (P := fun e => Processed peer _ _ leader e)).mp ?_
    unfold appendEntriesReply
    rw [wp_bind, wp_get, hcur, hres, if_neg (Nat.lt_irrefl _), if_neg (by rw [hl, hreq]; simp),
      wp_bind, wp_modify, if_pos hs, wp_bind, wp_modify, wp_modify]
    refine Processed.advance ⟨rfl, ⟨rfl, rfl, rfl⟩, rfl, ?_, ?_⟩
    · exact (Dict.get?_set _ _ _ _).trans (if_pos rfl)
    · unfold Engine.matched Dict.getD
      exact congrArg (Option.getD · 0) ((Dict.get?_set _ _ _ _).trans (if_pos rfl))
  · refine (wp_after (P := fun e => Processed peer _ _ leader e)).mp ?_
    unfold appendEntriesReply
    rw [wp_bind, wp_get, hcur, hres, if_neg (Nat.lt_irrefl _), if_neg (by rw [hl, hreq]; simp),
      wp_bind, wp_modify, if_neg (by rw [hs]; simp), wp_modify]
    refine ⟨rfl, ⟨rfl, rfl, rfl⟩, rfl, ?_, rfl⟩
    exact (Dict.get?_set _ _ _ _).trans (if_pos rfl)

/-- What an exchange comes to. -/
inductive Outcome (peer : NodeId) (l f : List LogEntry) (leader : Engine)
    (request : AppendEntriesRequest) (response : AppendEntriesResponse) (p : Engine × Engine) :
    Prop where
  /-- refused: the next index goes down -/
  | refused : response.success = false → p.1.next peer < leader.next peer →
      p.1.matched peer = leader.matched peer → OutOfStep peer l f p.1 p.2 → Outcome peer l f leader request response p
  /-- accepted: the match index goes up, or the follower holds everything -/
  | accepted (f' : List LogEntry) : response.success = true →
      (request.entries ≠ [] → leader.matched peer < p.1.matched peer) →
      (request.entries = [] → p.1.matched peer = l.length) → OutOfStep peer l f' p.1 p.2 →
      p.1.matched peer + 1 = p.1.next peer → Outcome peer l f leader request response p

theorem OutOfStep.tracked_le (h : OutOfStep peer l f leader follower) :
    leader.matched peer < leader.next peer := by
  obtain ⟨nextIdx, hget, hpos, -⟩ := h.next
  have hnext : leader.next peer = nextIdx := by
    unfold Engine.next
    rw [hget, Option.getD_some]
  rcases h.tracked with h0 | ⟨hm, -⟩ <;> omega

/-- The request of a round is a piece of the leader's log. -/
theorem entriesRequest_piece (hl : leader.node.Shows l) {nextIdx : Nat} (hpos : 0 < nextIdx)
    (hle : nextIdx ≤ l.length + 1) (hsnap : leader.node.snapshotIndex < nextIdx) (term : Nat) :
    (leader.entriesRequest term nextIdx).prevLogTerm = some (lastTerm (l.take (nextIdx - 1))) ∧
      (leader.entriesRequest term nextIdx).entries
        = (l.take (min (nextIdx - 1 + maxEntriesPerRpc) l.length)).drop (nextIdx - 1) := by
  refine ⟨?_, ?_⟩
  · change leader.node.termAt (nextIdx - 1) = _
    rw [hl.termAt, if_pos (by omega)]
  · change leader.node.entriesFrom nextIdx maxEntriesPerRpc = _
    have hsucc : nextIdx = nextIdx - 1 + 1 := by omega
    rw [hsucc, hl.entriesFrom (by omega), Nat.add_sub_cancel]
    congr 1
    rcases Nat.le_total (nextIdx - 1 + maxEntriesPerRpc) l.length with hlen | hlen
    · rw [Nat.min_eq_left hlen]
    · rw [Nat.min_eq_right hlen, List.take_of_length_le hlen, List.take_length]

/-- As long as the follower needs nothing compacted, a round is an exchange
and comes to one of its outcomes. -/
theorem round_outcome (h : OutOfStep peer l f leader follower)
    (hn : leader.node.snapshotIndex < leader.next peer) :
    ∃ request response, exchange peer leader follower = some (request, response) ∧
      Outcome peer l f leader request response (round peer (leader, follower)) := by
  have htracked := h.tracked_le
  obtain ⟨nextIdx, hget, hpos, hle⟩ := h.next
  have hnext : leader.next peer = nextIdx := by
    unfold Engine.next
    rw [hget, Option.getD_some]
  rw [hnext] at hn htracked
  obtain ⟨hprev, hentries⟩ :=
    entriesRequest_piece h.leaderLog hpos hle hn leader.node.currentTerm
  generalize hreq : leader.entriesRequest leader.node.currentTerm nextIdx = request at hprev hentries
  have hreqprev : request.prevLogIndex = nextIdx - 1 := by
    rw [← hreq]
    rfl
  have hreqterm : request.term = leader.node.currentTerm := by
    rw [← hreq]
    rfl
  rw [← hreqprev] at hprev hentries
  have hholding : Holding follower.node.snapshotIndex follower.node.currentTerm f follower :=
    ⟨rfl, rfl, h.followerLog, h.calls⟩
  have hhandle := wp_handleAppendEntries_holding hholding (hreqterm ▸ h.term) h.matching h.aligned
    h.shared (show request.prevLogIndex ≤ min (request.prevLogIndex + maxEntriesPerRpc) l.length by
      omega) (Nat.min_le_right _ _) hentries hprev
  cases hrun : (handleAppendEntries request).run follower with
  | error err follower' =>
      rw [wp_of_run_error hrun] at hhandle
      exact hhandle.elim
  | ok response follower' =>
      rw [wp_of_run_ok hrun] at hhandle
      obtain ⟨hterm, hcases⟩ := hhandle
      have hexchange : exchange peer leader follower = some (request, response) := by
        unfold exchange value?
        rw [hget]
        dsimp only
        rw [if_pos hn, hreq, hrun]
        rfl
      have hround : round peer (leader, follower)
          = (after (appendEntriesReply peer request (leader.sendSeq + 1) response)
              leader.nextSendSeq, follower') := by
        unfold round
        rw [hexchange]
        dsimp only
        unfold after
        rw [hrun]
      obtain ⟨haccepted, hrefused⟩ := processed_reply peer h.leads hreqterm
        (hterm.trans hreqterm) (leader.sendSeq + 1)
      refine ⟨request, response, hexchange, ?_⟩
      rw [hround]
      rcases hcases with ⟨hs, hhold, hnot⟩ | ⟨hs, hmatch, hbl, f', hhold, hm', hpre⟩
      · obtain ⟨next', hnext', hproc⟩ := hrefused hs
        have hprevpos : request.prevLogIndex ≠ 0 := by
          intro h0
          rw [h0, List.take_zero] at hnot
          exact hnot List.nil_prefix
        have hlt : next' < nextIdx ∧ 0 < next' := by omega
        have hnew : Engine.next _ peer = next' := congrArg (Option.getD · 0) hproc.next
        refine .refused hs (by rw [hnew, hnext]; exact hlt.1) hproc.matched ?_
        exact
          { leads := hproc.state.trans h.leads
            leaderLog := by
              rw [RaftNode.Shows, hproc.log.log, hproc.log.snapshotIndex, hproc.log.snapshotTerm]
              exact h.leaderLog
            aligned := h.aligned
            followerLog := hhold.shows
            matching := h.matching
            shared := by
              rw [hhold.boundary_eq]
              exact h.shared
            term := by rw [hhold.term_eq, hproc.term, hreqterm]
            calls := hhold.calls
            next := ⟨next', hproc.next, hlt.2, by omega⟩
            tracked := by
              rw [hproc.matched]
              rcases h.tracked with h0 | ⟨hm, hpre⟩
              · exact Or.inl h0
              · rw [show leader.matched peer = request.prevLogIndex by omega] at hpre
                exact absurd hpre hnot }
      · have hproc := haccepted hs
        have hlen : request.prevLogIndex + request.entries.length
            = min (request.prevLogIndex + maxEntriesPerRpc) l.length := by
          rw [hentries, List.length_drop, List.length_take]
          omega
        generalize hq : min (request.prevLogIndex + maxEntriesPerRpc) l.length = q at *
        have hmatched : max (leader.matched peer)
            (max (request.prevLogIndex + request.entries.length) response.matchIndex)
            = max q follower.node.snapshotIndex := by
          rw [hlen, hmatch]
          omega
        rw [hmatched] at hproc
        have hnew : Engine.next _ peer = max q follower.node.snapshotIndex + 1 :=
          congrArg (Option.getD · 0) hproc.next
        refine .accepted f' hs ?_ ?_ ?_ (by rw [hnew, hproc.matched])
        · intro hne
          rw [hproc.matched]
          have := List.length_pos_iff.mpr hne
          omega
        · intro hnil
          rw [hproc.matched]
          rw [hnil, List.length_nil] at hlen
          have : maxEntriesPerRpc = 100 := rfl
          omega
        · exact
            { leads := hproc.state.trans h.leads
              leaderLog := by
                rw [RaftNode.Shows, hproc.log.log, hproc.log.snapshotIndex, hproc.log.snapshotTerm]
                exact h.leaderLog
              aligned := h.aligned
              followerLog := hhold.shows
              matching := hm'
              shared := by
                rw [hhold.boundary_eq]
                obtain ⟨s, hsplit⟩ := hpre
                rw [← hsplit, List.take_append_of_le_length (by rw [List.length_take]; omega),
                  List.take_take]
                exact List.take_prefix _ _
              term := by rw [hhold.term_eq, hproc.term, hreqterm]
              calls := hhold.calls
              next := ⟨_, hproc.next, Nat.succ_pos _, by omega⟩
              tracked := by
                rw [hproc.matched, hnew]
                exact Or.inr ⟨rfl, hpre⟩ }

end Leader

/-! ## The loop -/

section Loop

variable {peer : NodeId} {l f : List LogEntry} {p : Engine × Engine}

/-- The rounds have come to their end: the follower needs a snapshot, or it
holds the whole log of the leader and the leader knows. -/
def Settled (peer : NodeId) (l : List LogEntry) (p : Engine × Engine) : Prop :=
  p.1.next peer ≤ p.1.node.snapshotIndex ∨
    (p.1.matched peer = p.1.node.lastLogIndex ∧ ∃ f, p.2.node.Shows f ∧ l <+: f)

theorem exchange_of_snapshot (h : OutOfStep peer l f p.1 p.2)
    (hn : p.1.next peer ≤ p.1.node.snapshotIndex) : exchange peer p.1 p.2 = none := by
  obtain ⟨nextIdx, hget, -, -⟩ := h.next
  unfold Engine.next at hn
  rw [hget, Option.getD_some] at hn
  unfold exchange
  rw [hget]
  dsimp only
  rw [if_neg (by omega)]

/-- Without an exchange both stay as they are. -/
theorem round_of_snapshot (h : OutOfStep peer l f p.1 p.2)
    (hn : p.1.next peer ≤ p.1.node.snapshotIndex) : round peer p = p := by
  unfold round
  rw [exchange_of_snapshot h hn]

theorem outOfStep_rounds (h : OutOfStep peer l f p.1 p.2) (n : Nat) :
    ∃ f', OutOfStep peer l f' (rounds peer n p).1 (rounds peer n p).2 := by
  induction n with
  | zero => exact ⟨f, h⟩
  | succ n ih =>
      obtain ⟨f', h'⟩ := ih
      have hsucc : rounds peer (n + 1) p = round peer (rounds peer n p) :=
        Function.iterate_succ_apply' _ _ _
      rw [hsucc]
      by_cases hn : (rounds peer n p).1.next peer ≤ (rounds peer n p).1.node.snapshotIndex
      · rw [round_of_snapshot h' hn]
        exact ⟨f', h'⟩
      · obtain ⟨request, response, -, hout⟩ := round_outcome h' (Nat.lt_of_not_le hn)
        cases hout with
        | refused _ _ _ h₁ => exact ⟨f', h₁⟩
        | accepted f₁ _ _ _ h₁ _ => exact ⟨f₁, h₁⟩

/-- What still has to happen: entries to be matched, then indexes to back
off. -/
def distance (peer : NodeId) (l : List LogEntry) (e : Engine) : Nat :=
  (l.length - e.matched peer) * (l.length + 2) + e.next peer

theorem OutOfStep.next_le {leader follower : Engine} (h : OutOfStep peer l f leader follower) :
    leader.next peer ≤ l.length + 1 := by
  obtain ⟨nextIdx, hget, -, hle⟩ := h.next
  unfold Engine.next
  rwa [hget, Option.getD_some]

theorem settles (h : OutOfStep peer l f p.1 p.2) :
    ∃ n, Settled peer l (rounds peer n p) := by
  generalize hd : distance peer l p.1 = d
  induction d using Nat.strong_induction_on generalizing f p with
  | _ d ih =>
      by_cases hn : p.1.next peer ≤ p.1.node.snapshotIndex
      · exact ⟨0, Or.inl hn⟩
      · obtain ⟨request, response, -, hout⟩ := round_outcome h (Nat.lt_of_not_le hn)
        have hlater {f' : List LogEntry} (h₁ : OutOfStep peer l f' (round peer p).1 (round peer p).2)
            (hlt : distance peer l (round peer p).1 < d) : ∃ n, Settled peer l (rounds peer n p) := by
          obtain ⟨n, hsettled⟩ := ih _ hlt h₁ rfl
          exact ⟨n + 1, hsettled⟩
        have hbefore := h.next_le
        cases hout with
        | refused _ hnext hmatched h₁ =>
            refine hlater h₁ ?_
            subst hd
            have heq : (round peer p).1.matched peer = p.1.matched peer := hmatched
            have hlt : (round peer p).1.next peer < p.1.next peer := hnext
            unfold distance
            rw [heq]
            omega
        | accepted f₁ _ hraise hall h₁ hnext =>
            have hnext' : (round peer p).1.matched peer + 1 = (round peer p).1.next peer := hnext
            have hafter := h₁.next_le
            by_cases hnil : request.entries = []
            · have hm : (round peer p).1.matched peer = l.length := hall hnil
              refine ⟨1, Or.inr ⟨?_, f₁, h₁.followerLog, ?_⟩⟩
              · exact hm.trans h₁.leaderLog.lastLogIndex.symm
              · rcases h₁.tracked with h0 | ⟨-, hpre⟩
                · have h0' : (round peer p).1.matched peer = 0 := h0
                  have : l = [] := List.length_eq_zero_iff.mp (hm.symm.trans h0')
                  rw [this]
                  exact List.nil_prefix
                · change l.take ((round peer p).1.matched peer) <+: f₁ at hpre
                  rwa [hm, List.take_length] at hpre
            · have hlt : p.1.matched peer < (round peer p).1.matched peer := hraise hnil
              refine hlater h₁ ?_
              subst hd
              unfold distance
              have hmul : (l.length - (round peer p).1.matched peer + 1) * (l.length + 2)
                  ≤ (l.length - p.1.matched peer) * (l.length + 2) :=
                Nat.mul_le_mul_right _ (by
                  change (round peer p).1.next peer ≤ l.length + 1 at hafter
                  omega)
              rw [Nat.add_mul, Nat.one_mul] at hmul
              change (round peer p).1.next peer ≤ l.length + 1 at hafter
              omega

/-- Backing off converges: in every round a rejection lowers the next index
and a success that brings entries raises the match index, and after finitely
many rounds the follower holds the leader's whole log or needs its
snapshot. -/
theorem back_off_converges (h : OutOfStep peer l f p.1 p.2) :
    (∀ n request response,
      exchange peer (rounds peer n p).1 (rounds peer n p).2 = some (request, response) →
      (response.success = false →
        (rounds peer (n + 1) p).1.next peer < (rounds peer n p).1.next peer) ∧
      (response.success = true → request.entries ≠ [] →
        (rounds peer n p).1.matched peer < (rounds peer (n + 1) p).1.matched peer)) ∧
    ∃ n, Settled peer l (rounds peer n p) := by
  refine ⟨?_, settles h⟩
  intro n request response hex
  obtain ⟨f', h'⟩ := outOfStep_rounds h n
  have hsucc : rounds peer (n + 1) p = round peer (rounds peer n p) :=
    Function.iterate_succ_apply' _ _ _
  rw [hsucc]
  generalize rounds peer n p = q at hex h'
  have hn : q.1.node.snapshotIndex < q.1.next peer := by
    by_contra hle
    rw [exchange_of_snapshot h' (Nat.le_of_not_lt hle)] at hex
    cases hex
  obtain ⟨request', response', hex', hout⟩ := round_outcome h' hn
  rw [hex'] at hex
  obtain ⟨rfl, rfl⟩ : request' = request ∧ response' = response := by simpa using hex
  cases hout with
  | refused hs hnext _ _ => exact ⟨fun _ => hnext, fun hs' => absurd (hs.symm.trans hs') (by decide)⟩
  | accepted f₁ hs hraise _ _ _ =>
      exact ⟨fun hs' => absurd (hs.symm.trans hs') (by decide), fun _ => hraise⟩

/-- A leader of term 2 that has overwritten the last entry of `overtaken`. -/
def overtaking : Engine where
  settings := trio.settings "a"
  node :=
    { currentTerm := 2
      state := .leader
      log := [firstNoop, ⟨2, 2, .noop, "", ""⟩]
      nextIndex := Dict.ofList [("b", 3)]
      matchIndex := Dict.ofList [("b", 0)] }

def overtaken : Engine where
  settings := trio.settings "b"
  node := { currentTerm := 1, log := [firstNoop, ⟨1, 2, .write "SET k v", "zoe", ""⟩] }

theorem back_off_converges_once :
    ∃ n, Settled "b" overtaking.node.log (rounds "b" n (overtaking, overtaken)) := by
  have haligned : ∀ k < 2, ∀ x, overtaking.node.log[k]? = some x → x.index = k + 1 := by decide
  refine (back_off_converges (f := overtaken.node.log) (p := (overtaking, overtaken))
    { leads := rfl
      leaderLog := ⟨Nat.zero_le _, rfl, rfl⟩
      aligned := fun k x hx => haligned k (List.getElem?_eq_some_iff.mp hx).1 x hx
      followerLog := ⟨Nat.zero_le _, rfl, rfl⟩
      matching := ?_
      shared := List.nil_prefix
      term := by decide
      calls := fun _ => rfl
      next := ⟨3, rfl, by decide, by decide⟩
      tracked := Or.inl rfl }).2
  intro k x y hx hy ht
  cases k with
  | zero => rfl
  | succ k =>
      cases k with
      | zero =>
          -- the second entries are of different terms
          cases hx
          cases hy
          cases ht
      | succ k => cases hx

end Loop

/-- What a registered replicator builds is the request of a round. -/
theorem replicate_builds {peer : NodeId} {m : Member} {e : Engine} {nextIdx : Nat}
    (hm : e.targets.get? peer = some m) (hrun : e.running = true) (hl : e.node.state = .leader)
    (hnext : e.node.nextIndex.get? peer = some nextIdx) (hsnap : e.node.snapshotIndex < nextIdx)
    (wakeup : Nat) :
    (replicate peer e.node.currentTerm wakeup).run e = .ok ()
      (e.push (.entries peer m.raftAddress (e.entriesRequest e.node.currentTerm nextIdx))) := by
  refine run_eq_ok ?_
  unfold replicate
  rw [wp_bind, wp_get, hm]
  dsimp only
  rw [if_neg (by rw [hrun, hl]; simp), hnext]
  dsimp only
  rw [if_pos hsnap, wp_modify]
  exact ⟨rfl, rfl⟩

end KvCache
