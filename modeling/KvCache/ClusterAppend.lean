import KvCache.ClusterSteps

/-!
# Handling AppendEntries

A follower that accepts a request ends up holding a prefix `q` of the
leader's log: the request is a piece of `q` that starts at an index up to
which the two logs agree (`piece_matches`), and the handler's three paths -
skip what the snapshot covers, skip what is there already, cut off a
conflicting tail and append the rest - all lead to the same log
(`wp_mergeEntries`).
-/

namespace KvCache

open QuorumLog QuorumLog.History StateWp Engine
open MemoryRaftStorage (Holds holds_append)

variable {c : Cluster} {h h₀ : Hist} {i : NodeId} {e : Engine} {q : List LogEntry}
  {Q : Unit → Engine → Prop} {R : EngineError → Engine → Prop}

theorem clean_index {l : List LogEntry} (hl : Clean l) {k : Nat} {y : LogEntry}
    (hy : l[k]? = some y) : y.index = k + 1 := hl.1 k y hy

/-- The log and `q` agree one entry further if the terms there agree. -/
theorem agree_next {l : List LogEntry} (hl : h.Backed LogEntry.term l)
    (hq : h.Backed LogEntry.term q) {k : Nat} {y z : LogEntry} (hk : l.take k = q.take k)
    (hz : l[k]? = some z) (hy : q[k]? = some y) (ht : z.term = y.term) :
    l.take (k + 1) = q.take (k + 1) := by
  have hlz : l.take k ++ [z] = l.take (k + 1) := by rw [List.take_add_one, hz, Option.toList_some]
  have hqy : q.take k ++ [y] = q.take (k + 1) := by rw [List.take_add_one, hy, Option.toList_some]
  rw [← hlz, ← hqy]
  refine hl.matching hq ?_ ?_ (by rw [hk]) ht
  · rw [hlz]
    exact List.take_prefix _ _
  · rw [hqy]
    exact List.take_prefix _ _

/-- What `dropConflict` does with a piece of the leader's log `q` that starts
where our log still agrees: nothing if we have all of it, else it leaves the
part of our log that agrees, and the rest of `q` to append. -/
theorem wp_dropConflict {Q : List LogEntry → Engine → Prop} {R : EngineError → Engine → Prop}
    (ok : c.HistOk h) (cl : LeadsClean h) (r : NodeRel c h i e.core)
    (hq : h.Backed LogEntry.term q) (hdone : q <+: h.log i → Q [] e)
    (hrest : ∀ j e₁ st, e.node.snapshotIndex ≤ j → j ≤ (h.log i).length → j < q.length →
      (h.log i).take j = q.take j → ¬ q <+: h.log i →
      e₁.core = e.core.withLog (e.node.log.take (j - e.node.snapshotIndex)) st → Stored e₁.core →
      Q (q.drop j) e₁) :
    ∀ entries k, q.drop k = entries → e.node.snapshotIndex ≤ k → k ≤ (h.log i).length →
      (h.log i).take k = q.take k → wp (dropConflict entries) Q R e := by
  have hclean := cl.backed hq
  have hlclean := cl.backed (ok.backed i)
  have v : e.node.Shows (h.log i) := r.shows
  have hloglen := r.log_length
  intro entries
  induction entries with
  | nil =>
      intro k hk _ hkl hagree
      rw [dropConflict, wp_pure]
      refine hdone ?_
      rw [← List.take_of_length_le (List.drop_eq_nil_iff.mp hk), ← hagree]
      exact List.take_prefix _ _
  | cons y rest ih =>
      intro k hk hsk hkl hagree
      have hkq : k < q.length := by
        rcases Nat.lt_or_ge k q.length with hlt | hge
        · exact hlt
        · rw [List.drop_of_length_le hge] at hk
          cases hk
      have hy : q[k]? = some y := by
        have := congrArg List.head? hk
        rwa [List.head?_drop, List.head?_cons] at this
      have hnext : q.drop (k + 1) = rest := by
        rw [← List.tail_drop, hk, List.tail_cons]
      simp only [dropConflict, wp_bind, wp_get, wp_ite, wp_pure, clean_index hclean hy, v.termAt]
      have hsk' : e.node.snapshotIndex ≤ k + 1 := Nat.le_succ_of_le hsk
      rcases Nat.lt_or_ge k (h.log i).length with hlt | hge
      · obtain ⟨z, hz⟩ : ∃ z, (h.log i)[k]? = some z := ⟨_, List.getElem?_eq_getElem hlt⟩
        simp only [hsk', Nat.succ_le_of_lt hlt, and_self, if_true, reduceCtorEq, if_false,
          lastTerm_take hz, ne_eq, Option.some.injEq]
        split
        · -- a conflicting tail of a dead leader
          rename_i hne
          rw [← hk]
          have hnq : ¬ q <+: h.log i := fun hp => by
            obtain ⟨t, ht⟩ := hp
            rw [← ht, List.getElem?_append_left hkq, hy] at hz
            exact hne (by rw [Option.some.inj hz])
          simp only [truncateLocal, wp_bind, wp_modify]
          rw [wp_storageCall_ok (e := e.cutLog (k + 1)) (r.faults _)]
          have hcut : (e.cutLog (k + 1)).node.log
              = e.node.log.take (k - e.node.snapshotIndex) := e.node.truncateFrom_log hsk
          have hst := r.stored
          have hkeep : k - e.node.snapshotIndex ≤ e.node.log.length := by
            have : e.node.snapshotIndex + e.node.log.length = (h.log i).length := hloglen
            omega
          have hcore : ((e.cutLog (k + 1)).store fun s => s.truncateFrom (k + 1)).refreshConfig.core
              = e.core.withLog (e.node.log.take (k - e.node.snapshotIndex))
                (e.storage.truncateFrom (k + 1)) := by
            have hno : ∀ x ∈ (e.cutLog (k + 1)).node.log, parseConfig x.command = none := by
              intro x hx
              have hx' : x ∈ e.node.log := List.mem_of_mem_take (hcut ▸ hx)
              rw [v.log_eq] at hx'
              exact hlclean.2 x (List.mem_of_mem_drop hx')
            refine (core_refreshConfig (e := (e.cutLog (k + 1)).store _) hno r.config
              r.members).trans ?_
            rw [← hcut]
            rfl
          refine hrest k _ _ hsk hkl hkq hagree hnq hcore ?_
          · rw [hcore]
            refine { hst with log := ?_ }
            have := hst.log.take (k - e.node.snapshotIndex)
            rw [show e.core.snapshotIndex + (k - e.node.snapshotIndex) + 1 = k + 1 by
              change e.node.snapshotIndex + (k - e.node.snapshotIndex) + 1 = k + 1
              omega] at this
            exact this
        · rename_i heq
          exact ih (k + 1) hnext hsk' hlt
            (agree_next (ok.backed i) hq hagree hz hy (Decidable.not_not.mp heq))
      · -- our log ends here
        have hlen : (h.log i).length = k := Nat.le_antisymm hge hkl
        have hnone : ¬ (e.node.snapshotIndex ≤ k + 1 ∧ k + 1 ≤ (h.log i).length) := by omega
        simp only [if_neg hnone, if_true]
        rw [← hk]
        have hall : e.node.log.take (k - e.node.snapshotIndex) = e.node.log := by
          refine List.take_of_length_le ?_
          have : e.node.snapshotIndex + e.node.log.length = (h.log i).length := hloglen
          omega
        refine hrest k e e.storage hsk hkl hkq hagree (fun hp => ?_) ?_ r.stored
        · have := hp.length_le
          omega
        · rw [hall]
          rfl

/-- Merging a piece of the leader's log is following the leader. -/
theorem wp_mergeEntries (ok : c.HistOk h) (cl : LeadsClean h) (r : NodeRel c h i e.core)
    (hs : e.node.state = .follower) (hw : h.Won e.node.currentTerm)
    (hq : q <+: h.lead e.node.currentTerm) {k : Nat} (hsk : e.node.snapshotIndex ≤ k)
    (hkl : k ≤ (h.log i).length) (hagree : (h.log i).take k = q.take k)
    (hQ : ∀ e' h' log st, Grows i h h' → c.HistOk h' → LeadsClean h' →
      h'.acked i e.node.currentTerm q → q <+: h'.log i →
      h'.lead e.node.currentTerm = h.lead e.node.currentTerm →
      e'.core = e.core.withLog log st → NodeRel c h' i e'.core → Q () e') :
    wp (mergeEntries (q.drop k)) Q R e := by
  have hqb : h.Backed LogEntry.term q := (ok.lead_backed hw).shorten hq
  have hclean := cl.backed hqb
  have v : e.node.Shows (h.log i) := r.shows
  simp only [mergeEntries, wp_bind]
  refine wp_dropConflict ok cl r hqb ?_ ?_ _ k rfl hsk hkl hagree
  · intro hp
    rw [if_neg (by simp)]
    have hlog : (h.overwrite i q).log i = h.log i := by rw [overwrite_log, if_pos hp]
    obtain ⟨h', g', ok', cl', hack, hpre, hlead, r'⟩ :=
      r.follow ok cl hs hw hq (hlog.symm ▸ r.shows) r.stored
    exact hQ e h' _ _ g' ok' cl' hack hpre hlead rfl r'
  · intro j e₁ st hsj hjl hjq hagree hnq hcore hst
    have hne : q.drop j ≠ [] := fun hnil => by
      have := List.drop_eq_nil_iff.mp hnil
      omega
    have hlog : (h.overwrite i q).log i = q := by rw [overwrite_log, if_neg hnq]
    rw [if_pos hne]
    simp only [appendLocal, wp_bind, wp_modify]
    rw [wp_storageCall_ok (e := e₁.extendLog (q.drop j))
      (show e₁.core.faults _ = [] by rw [hcore]; exact r.faults _)]
    have hno : ((q.drop j).any fun x => (parseConfig x.command).isSome) = false := by
      rw [List.any_eq_false]
      intro x hx
      rw [hclean.2 x (List.mem_of_mem_drop hx)]
      simp
    simp only [hno, Bool.false_eq_true, if_false, wp_pure]
    have hlen : (e.node.log.take (j - e.node.snapshotIndex)).length
        = j - e.node.snapshotIndex := by
      have : e.node.snapshotIndex + e.node.log.length = (h.log i).length := r.log_length
      rw [List.length_take, Nat.min_eq_left (by omega)]
    -- memory and storage now hold `q`
    have hcore' : ((e₁.extendLog (q.drop j)).store fun s => s.append (q.drop j)).core
        = e.core.withLog (e.node.log.take (j - e.node.snapshotIndex) ++ q.drop j)
          (st.append (q.drop j)) := by
      have hl : e₁.node.log = e.node.log.take (j - e.node.snapshotIndex) :=
        congrArg Core.log hcore
      have ht : e₁.storage = st := congrArg Core.storage hcore
      rw [← hl, ← ht, ← (show (e₁.core.withLog (e₁.node.log ++ q.drop j)
        (e₁.storage.append (q.drop j))) = e.core.withLog (e₁.node.log ++ q.drop j)
        (e₁.storage.append (q.drop j)) by rw [hcore]; rfl)]
      rfl
    have hshow : Shows e.node.snapshotIndex e.node.snapshotTerm
        (e.node.log.take (j - e.node.snapshotIndex) ++ q.drop j) ((h.overwrite i q).log i) := by
      have := (r.shows.take hsj).append (q.drop j)
      rw [hagree, List.take_append_drop] at this
      rw [hlog]
      exact this
    rw [hcore] at hst
    have hst' := hst.append hne fun m x hx => by
      rw [List.getElem?_drop] at hx
      rw [clean_index hclean hx, hlen]
      change j + m + 1 = e.node.snapshotIndex + (j - e.node.snapshotIndex) + m + 1
      omega
    obtain ⟨h', g', ok', cl', hack, hpre, hlead, r'⟩ := r.follow ok cl hs hw hq hshow hst'
    exact hQ _ h' _ _ g' ok' cl' hack hpre hlead hcore' (hcore' ▸ r')

/-- A request that passes the consistency check is a piece of a prefix `q` of
the leader's log, and up to the piece our log agrees with `q`. -/
theorem piece_matches (ok : c.HistOk h) (r : NodeRel c h i e.core) {req : AppendEntriesRequest}
    (hreq : AppendOk c h req) (hcur : e.node.currentTerm = req.term)
    (hlen : (e.node.skipCovered req).2.1 ≤ e.node.lastLogIndex)
    (hterm : e.node.termAt (e.node.skipCovered req).2.1 = (e.node.skipCovered req).2.2) :
    ∃ q, q <+: h.lead req.term ∧ (e.node.skipCovered req).1 = q.drop (e.node.skipCovered req).2.1 ∧
      (e.node.skipCovered req).2.1 ≤ q.length ∧
      e.node.snapshotIndex ≤ (e.node.skipCovered req).2.1 ∧
      (h.log i).take (e.node.skipCovered req).2.1 = q.take (e.node.skipCovered req).2.1 ∧
      req.prevLogIndex + req.entries.length ≤ q.length := by
  obtain ⟨q, hq, hentries, hprev⟩ := hreq.piece
  have v : e.node.Shows (h.log i) := r.shows
  rw [v.lastLogIndex] at hlen
  have hcovered : (h.log i).take e.node.snapshotIndex <+: h.lead req.term :=
    (List.take_prefix_take_left (r.snapshot_le.trans r.applied_le)).trans
      (r.commit_lead ok hreq.won (Nat.le_of_eq hcur))
  have htake : ((h.log i).take e.node.snapshotIndex).length = e.node.snapshotIndex := by
    rw [List.length_take, Nat.min_eq_left v.le]
  unfold RaftNode.skipCovered at hlen hterm ⊢
  by_cases hlt : req.prevLogIndex < e.node.snapshotIndex
  · -- the piece starts inside our snapshot, which the leader's log contains
    simp only [if_pos hlt, hentries, List.drop_drop, Nat.add_sub_cancel' (Nat.le_of_lt hlt)]
      at hlen hterm ⊢
    rcases Nat.le_total e.node.snapshotIndex q.length with hle | hle
    · have hpre : (h.log i).take e.node.snapshotIndex <+: q :=
        List.prefix_of_prefix_length_le hcovered hq (htake.symm ▸ hle)
      refine ⟨q, hq, rfl, hle, Nat.le_refl _, ?_, ?_⟩
      · have := List.prefix_iff_eq_take.mp hpre
        rwa [htake] at this
      · rw [List.length_drop]
        omega
    · refine ⟨(h.log i).take e.node.snapshotIndex, hcovered, ?_, Nat.le_of_eq htake.symm,
        Nat.le_refl _, by rw [List.take_take, Nat.min_self], ?_⟩
      · rw [List.drop_of_length_le hle, List.drop_of_length_le (Nat.le_of_eq htake)]
      · rw [htake, List.length_drop]
        omega
  · simp only [if_neg hlt] at hlen hterm ⊢
    have hge : e.node.snapshotIndex ≤ req.prevLogIndex := Nat.le_of_not_lt hlt
    rw [v.termAt, if_pos ⟨hge, hlen⟩] at hterm
    obtain ⟨hpq, hlast⟩ := hprev _ hterm.symm
    have hl1 : ((h.log i).take req.prevLogIndex).length = req.prevLogIndex := by
      rw [List.length_take, Nat.min_eq_left hlen]
    have hl2 : (q.take req.prevLogIndex).length = req.prevLogIndex := by
      rw [List.length_take, Nat.min_eq_left hpq]
    refine ⟨q, hq, hentries, hpq, hge, ?_, ?_⟩
    · by_cases h0 : req.prevLogIndex = 0
      · rw [h0, List.take_zero, List.take_zero]
      · have hb1 := (ok.backed i).shorten (List.take_prefix req.prevLogIndex (h.log i))
        have hb2 := ((ok.lead_backed hreq.won).shorten hq).shorten
          (List.take_prefix req.prevLogIndex q)
        have hne : (h.log i).take req.prevLogIndex ≠ [] := fun hnil => by
          rw [hnil] at hl1
          exact h0 hl1.symm
        exact (hb1.prefix_of_lastTerm hb2 hne hlast.symm (by omega)).eq_of_length (by omega)
    · rw [hentries, List.length_drop]
      omega

/-- A success answers for a prefix that was acknowledged. -/
def AppendAnswer (i : NodeId) (req : AppendEntriesRequest) (resp : AppendEntriesResponse)
    (h : Hist) : Prop :=
  resp.success = true → ∃ p, h.acked i req.term p ∧ p.length = resp.matchIndex ∧
    req.prevLogIndex + req.entries.length ≤ resp.matchIndex

/-- The commit index a follower takes over is settled: it lies within what the
request matched. -/
theorem NodeRel.followCommit (r : NodeRel c h i e.core) {n : Nat}
    (hq : q <+: h.log i) (hl : q <+: h.lead e.node.currentTerm)
    (hs : c.Settled h e.node.currentTerm ((h.lead e.node.currentTerm).take n)) :
    NodeRel c h i (e.followCommit n q.length).core := by
  unfold Engine.followCommit
  split
  · refine r.setCommit (Nat.le_max_left _ _) (Nat.max_le.mpr ⟨r.commit_le,
      (Nat.min_le_right _ _).trans hq.length_le⟩) ?_
    rcases Nat.le_total (min n q.length) e.node.commitIndex with hle | hle
    · rw [Nat.max_eq_left hle]
      exact r.commit
    · rw [Nat.max_eq_right hle]
      have hm : min n q.length ≤ q.length := Nat.min_le_right _ _
      have h1 : (h.log i).take (min n q.length) = q.take (min n q.length) := by
        obtain ⟨t, ht⟩ := hq
        rw [← ht, List.take_append_of_le_length hm]
      have h2 : (h.lead e.node.currentTerm).take (min n q.length) = q.take (min n q.length) := by
        obtain ⟨t, ht⟩ := hl
        rw [← ht, List.take_append_of_le_length hm]
      rw [h1, ← h2]
      exact hs.shorten (List.take_prefix_take_left (Nat.min_le_left _ _))
  · exact r

theorem wp_appendFrom (ok : c.HistOk h) (cl : LeadsClean h) (r : NodeRel c h i e.core)
    (g : Grows i h₀ h) {req : AppendEntriesRequest} (hreq : AppendOk c h req)
    (hs : e.node.state = .follower) (hcur : e.node.currentTerm = req.term)
    (hlen : (e.node.skipCovered req).2.1 ≤ e.node.lastLogIndex)
    (hterm : e.node.termAt (e.node.skipCovered req).2.1 = (e.node.skipCovered req).2.2) :
    wp (appendFrom req (e.node.skipCovered req).1 (e.node.skipCovered req).2.1)
      (fun a => RelWith c h₀ i (AppendAnswer i req a)) (fun _ => Rel c h₀ i) e := by
  obtain ⟨q, hq, hentries, hkq, hsk, hagree, hprev⟩ := piece_matches ok r hreq hcur hlen hterm
  have v : e.node.Shows (h.log i) := r.shows
  rw [v.lastLogIndex] at hlen
  have hlast : (e.node.skipCovered req).2.1 + (e.node.skipCovered req).1.length = q.length := by
    rw [hentries, List.length_drop, Nat.add_sub_cancel' hkq]
  simp only [appendFrom, wp_bind, hlast]
  rw [hentries]
  refine wp_mergeEntries ok cl r hs (hcur ▸ hreq.won) (hcur ▸ hq) hsk hlen hagree ?_
  intro e' h' log st g' ok' cl' hack hpre hlead hcore r'
  have hcur' : e'.node.currentTerm = req.term :=
    (congrArg Core.currentTerm hcore : e'.node.currentTerm = e.node.currentTerm).trans hcur
  rw [hcur] at hack hlead
  refine ⟨h', g.trans g', ok', cl', fun _ => ⟨q, hack, rfl, hprev⟩, ?_⟩
  have hcommit := hreq.commit
  rw [← hlead] at hcommit
  refine r'.followCommit hpre ?_ ?_
  · rw [hcur', hlead]
    exact hq
  · rw [hcur']
    exact g'.settled (Nat.le_refl _) hcommit.2

theorem wp_handleAppendEntries (he : Rel c h₀ i e) {req : AppendEntriesRequest}
    (hreq : AppendOk c h₀ req) :
    wp (handleAppendEntries req) (fun a => RelWith c h₀ i (AppendAnswer i req a))
      (fun _ => Rel c h₀ i) e := by
  simp only [handleAppendEntries, wp_bind, wp_get, wp_ite, wp_pure]
  split
  · exact he.with fun _ _ _ _ hs => by cases hs
  · rename_i hle
    refine wp_acceptLeader he (Nat.le_of_not_lt hle) fun e' he' hs hc => ?_
    simp only [wp_bind, wp_get, wp_ite, wp_pure]
    split
    · exact he'.with fun _ _ _ _ hs => by cases hs
    · rename_i hlen
      split
      · exact he'.with fun _ _ _ _ hs => by cases hs
      · rename_i hterm
        obtain ⟨h, g, ok, cl, r⟩ := he'
        exact wp_appendFrom ok cl r g (hreq.mono g) hs hc (Nat.le_of_not_lt hlen)
          (Decidable.not_not.mp hterm)

end KvCache
