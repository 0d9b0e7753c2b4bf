import KvCache.Assembly
import KvCache.ClusterSafety

/-!
# Snapshots across a cluster

A leader writes a snapshot file and labels it with its last applied index
(`Writes`). Its chunks cross the network in any order, late or more than
once, next to those of other transfers, and some follower assembles them.
What it restores is a file a leader wrote, under that file's labels, as long
as two files of one index have the same bytes (`restored_file_was_written`).
-/

namespace KvCache

open StateWp Engine

/-! ## Chunks on the wire -/

/-- A chunk on the wire, or the reply to one, is a part of the file of a
transfer in `W`. -/
def Packet.Chunked (W : Transfer → Prop) : Packet → Prop
  | .call env => ∀ req t, env.call = .installSnapshot req t → W t ∧ req.ChunkOf t
  | .reply env response => ∀ r, response = .installSnapshot r →
      ∀ req t, env.call = .installSnapshot req t → W t ∧ req.ChunkOf t

/-- What a node sends, and is about to send, comes from transfers in `W`. -/
structure Sends (W : Transfer → Prop) (e : Engine) : Prop where
  outbox : ∀ p ∈ e.outbox, p.Chunked W
  outgoing : ∀ t, .snapshot t ∈ e.outgoing → W t

/-- What the node has assembled is how the files of its index begin. -/
def Parts (W : Transfer → Prop) (e : Engine) : Prop :=
  ∀ rx, e.snapshotRx = some rx → ∀ t, W t → t.index = rx.index → rx.data <+: t.file

/-- Files of one index are equal, and a transfer may go on at another offset. -/
structure Consistent (W : Transfer → Prop) : Prop where
  goesOn : ∀ t seq offset, W t → W { t with seq := seq, offset := offset }
  equal : ∀ t t', W t → W t' → t.index = t'.index → t.file = t'.file

structure Relays (W : Transfer → Prop) (e : Engine) : Prop where
  received : Received W e
  parts : Parts W e
  sends : Sends W e

/-- What the event brings, and the part it is appended to. -/
structure Brings (W : Transfer → Prop) (ev : NodeEvent) : Prop where
  packet : ∀ p, ev = .receive p → p.Chunked W
  /-- the files that are written now are treated on their own -/
  writes : ∀ k file, ev ≠ .act (.writeSnapshot k file)

section Moves

variable {W : Transfer → Prop} {ev : NodeEvent} {b : Bool} {x y : Engine}

/-- The queue to the network. -/
def Engine.outward (e : Engine) : List Packet × List Outgoing := (e.outbox, e.outgoing)

theorem Sends.of_outward (h : Sends W x) (ho : y.outward = x.outward) : Sends W y where
  outbox := (congrArg (·.1) ho : y.outbox = x.outbox) ▸ h.outbox
  outgoing := (congrArg (·.2) ho : y.outgoing = x.outgoing) ▸ h.outgoing

theorem Relays.of_fields (h : Relays W x) (hi : y.incoming = x.incoming)
    (ho : y.outward = x.outward) : Relays W y where
  received := h.received.of_incoming hi
  parts := fun rx hrx => h.parts rx ((congrArg (·.1) hi : y.snapshotRx = x.snapshotRx) ▸ hrx)
  sends := h.sends.of_outward ho

theorem Sends.send (h : Sends W x) {p : Packet} (hp : p.Chunked W) : Sends W (x.send p) where
  outbox := fun q hq => by
    rcases List.mem_append.mp hq with hq | hq
    · exact h.outbox q hq
    · obtain rfl := List.mem_singleton.mp hq
      exact hp
  outgoing := h.outgoing

theorem Relays.send (h : Relays W x) {p : Packet} (hp : p.Chunked W) : Relays W (x.send p) where
  received := ⟨h.received.installs, h.received.lock⟩
  parts := h.parts
  sends := h.sends.send hp

/-- The next chunk of a transfer is one of its file. -/
theorem Relays.sendChunk (h : Relays W x) {t : Transfer} (ht : W t) : Relays W (x.sendChunk t) := by
  refine h.send fun req t' hcall => ?_
  obtain ⟨rfl, rfl⟩ := Call.installSnapshot.inj hcall
  refine ⟨ht, rfl, rfl, rfl, rfl, ?_⟩
  exact decide_eq_true_iff

theorem Relays.push (h : Relays W x) {out : Outgoing} (ho : ∀ t, out = .snapshot t → W t) :
    Relays W (x.push out) where
  received := ⟨h.received.installs, h.received.lock⟩
  parts := h.parts
  sends :=
    { outbox := h.sends.outbox
      outgoing := fun t ht => by
        rcases List.mem_append.mp ht with ht | ht
        · exact h.sends.outgoing t ht
        · exact ho t (List.mem_singleton.mp ht).symm }

theorem Relays.pull (h : Relays W x) (k : Nat) : Relays W (x.pull k) where
  received := ⟨h.received.installs, h.received.lock⟩
  parts := h.parts
  sends :=
    { outbox := h.sends.outbox
      outgoing := fun t ht => h.sends.outgoing t (List.mem_of_mem_eraseIdx ht) }

theorem Relays.setLock (h : Relays W x) {lock : ApplyLock} (hl : ∀ y, lock ≠ .installing y) :
    Relays W (x.setLock lock) where
  received := h.received.setLock hl
  parts := h.parts
  sends := ⟨h.sends.outbox, h.sends.outgoing⟩

theorem Parts.chunkFile (h : Parts W x) {req : InstallSnapshotRequest} {rx : SnapshotRx}
    (hx : x.chunkFile req = some rx) {t : Transfer} (ht : W t)
    (hi : t.index = req.lastIncludedIndex) : rx.data <+: t.file := by
  have hindex := chunkFile_index hx
  unfold Engine.chunkFile at hx
  split at hx
  · obtain rfl := Option.some.inj hx
    exact List.nil_prefix
  · exact h rx (Option.filter_eq_some_iff.mp hx).1 t ht (hi.trans hindex.symm)

theorem Brings.chunked (hev : Brings W ev) : ev.Chunked W := by
  rintro env req t rfl hcall
  exact hev.packet _ rfl req t hcall

/-- The reply to a chunk names a transfer in `W`. -/
theorem Brings.answers (hev : Brings W ev) {e : Engine} {req : InstallSnapshotRequest}
    {t : Transfer} {r : InstallSnapshotResponse}
    (ha : ev.Answers e (.installSnapshot req t) (.installSnapshot r)) : W t := by
  obtain ⟨env, rfl, hcall, -⟩ := ha
  exact (hev.packet _ rfl r rfl req t hcall).1

theorem outward_stepDown (e : Engine) : e.stepDown.outward = e.outward := by
  obtain ⟨l, ls, b, hd⟩ := stepDown_eq e
  rw [hd]
  rfl

theorem outward_appended (e : Engine) (es : List LogEntry) :
    (e.appended es).outward = e.outward := by
  obtain ⟨d, i, ms, ls, h, -⟩ := appended_eq e es
  rw [h]
  rfl

theorem outward_installed (e : Engine) (req : InstallSnapshotRequest) :
    (e.installed req).outward = e.outward := by
  obtain ⟨d, ms, ls, h, -⟩ := installed_eq e req
  obtain ⟨st, fs, hu⟩ := uprooted_eq e req
  rw [h, hu]
  rfl

/-- The reply to the last chunk. -/
theorem Relays.replyInstall (h : Relays W x) {z : Install} (hz : z.Whole W) :
    Relays W (x.replyInstall z) := by
  refine h.send fun r _ req t hcall => ?_
  obtain ⟨t', hw, hcall', hchunk, -⟩ := hz
  obtain ⟨rfl, rfl⟩ := Call.installSnapshot.inj (hcall'.symm.trans hcall)
  exact ⟨hw, hchunk⟩

theorem Move.relays (hm : Move ev b x y) (hW : Consistent W) (hev : Brings W ev)
    (h : Relays W x) : Relays W y := by
  have hsame : y.incoming = x.incoming → y.outward = x.outward → Relays W y := h.of_fields
  cases hm with
  | idle h' => exact hsame (congrArg Engine.incoming h' :) (congrArg Engine.outward h' :)
  | adoptTerm => exact hsame (incoming_stepDown (x.enterTerm _).saveVote) (outward_stepDown _)
  | stepDown => exact hsame (incoming_stepDown x) (outward_stepDown x)
  | noop => exact hsame (incoming_appended x _) (outward_appended x _)
  | propose timeout =>
      obtain ⟨d, i, ms, ls, c, h', -⟩ := proposed_eq x _ timeout
      rw [h'] at hsame ⊢
      exact hsame rfl rfl
  | receive => exact hsame (incoming_appended x _) (outward_appended x _)
  | truncate =>
      obtain ⟨d, ms, ls, h', -⟩ := truncated_eq x _
      rw [h'] at hsame ⊢
      exact hsame rfl rfl
  | advanceCommit =>
      obtain ⟨k, h', -⟩ := advanceCommitIndex_eq x
      rw [h'] at hsame ⊢
      exact hsame rfl rfl
  | followCommit =>
      obtain ⟨k, h', -⟩ := followCommit_eq x _ _
      rw [h'] at hsame ⊢
      exact hsame rfl rfl
  | startReplicator =>
      obtain ⟨d, h', -⟩ := startReplicator_eq x _
      rw [h'] at hsame ⊢
      exact hsame rfl rfl
  | sendCall hc =>
      refine h.send fun req t hcall => ?_
      dsimp only at hcall
      rw [hcall] at hc
      exact hc.elim
  | pushEntries => exact h.push fun _ ht => by cases ht
  | pushSnapshotDue => exact h.push fun _ ht => by cases ht
  | sendEntries =>
      exact Relays.send (x := (x.pull _).nextSendSeq)
        ((h.pull _).of_fields rfl rfl) fun _ _ hcall => by cases hcall
  | sendSnapshot hk =>
      have ht := h.sends.outgoing _ (List.mem_of_getElem? hk)
      exact Relays.sendChunk (x := (x.pull _).nextSendSeq)
        ((h.pull _).of_fields rfl rfl) (hW.goesOn _ _ _ ht)
  | writeSnapshot ha => exact absurd ha (hev.writes _ _)
  | skipSnapshot => exact h.pull _
  | nextChunk ha => exact h.sendChunk (hW.goesOn _ _ _ (hev.answers ha))
  | reply ha =>
      refine h.send fun r _ req t hcall => ?_
      obtain rfl := ha
      exact hev.packet _ rfl req t hcall
  | answerRead => exact h.send fun r hr => by cases hr
  | keepChunks ha hc _ _ hx _ =>
      have hchunk := hev.chunked _ _ _ ha hc
      refine ⟨⟨h.received.installs, h.received.lock⟩, ?_, ⟨h.sends.outbox, h.sends.outgoing⟩⟩
      rintro rx hrx t ht hi
      obtain rfl := Option.some.inj hrx
      have hindex := chunkFile_index hx
      have hfile := hW.equal _ _ ht hchunk.1 (hi.trans (hindex.trans hchunk.2.index))
      dsimp only
      rw [hfile, hchunk.2.continues hx (h.parts.chunkFile hx hchunk.1 hchunk.2.index.symm)]
      exact List.take_prefix _ _
  | queueInstall ha hc _ _ hx hd =>
      have hchunk := hev.chunked _ _ _ ha hc
      have hp := h.parts.chunkFile hx hchunk.1 hchunk.2.index.symm
      refine ⟨⟨fun z hz => ?_, h.received.lock⟩, (fun rx hrx => by cases hrx),
        ⟨h.sends.outbox, h.sends.outgoing⟩⟩
      rcases List.mem_append.mp hz with hz | hz
      · exact h.received.installs z hz
      · obtain rfl := List.mem_singleton.mp hz
        exact ⟨_, hchunk.1, hc, hchunk.2, hchunk.2.completes hx hp hd⟩
  | coverInstall _ hk =>
      have hz := h.received.installs _ (List.mem_of_getElem? hk)
      refine Relays.replyInstall (x := x.dropInstall _) ⟨h.received.dropInstall _, h.parts, ?_⟩ hz
      exact ⟨h.sends.outbox, h.sends.outgoing⟩
  | startInstall _ hk =>
      refine ⟨⟨(h.received.dropInstall _).installs, fun z hz => ?_⟩, h.parts,
        ⟨h.sends.outbox, h.sends.outgoing⟩⟩
      cases hz
      exact h.received.installs _ (List.mem_of_getElem? hk)
  | install _ hi =>
      have hl : Relays W (x.setLock .free) := h.setLock fun _ hz => by cases hz
      refine Relays.replyInstall ?_ (h.received.lock _ hi)
      exact hl.of_fields (incoming_installed _ _) (outward_installed _ _)
  | installFails _ _ hor =>
      have hl : Relays W (x.setLock .free) := h.setLock fun _ hz => by cases hz
      rcases hor with ⟨rfl, -⟩ | ⟨rfl, -⟩
      · exact hl.of_fields rfl rfl
      · obtain ⟨st, fs, hu⟩ := uprooted_eq (x.setLock .free) _
        rw [hu]
        exact hl.of_fields rfl rfl
  | restoreFails => exact h.setLock fun _ hz => by cases hz
  | startApply => exact h.setLock fun _ hz => by cases hz
  | noteApplied =>
      have hl : Relays W (x.setLock .free) := h.setLock fun _ hz => by cases hz
      exact hl.of_fields rfl rfl
  | stopApply => exact h.setLock fun _ hz => by cases hz
  | power hx =>
      refine ⟨⟨h.received.installs, h.received.lock⟩, ?_, ⟨h.sends.outbox, h.sends.outgoing⟩⟩
      rcases hx with rfl | rfl
      · exact fun rx hrx => by cases hrx
      · exact h.parts
  | _ => exact hsame rfl rfl

end Moves

/-! ## Files that are written -/

/-- The node, a leader, writes the file of the transfer: the file is labelled
with its last applied index, and with term and membership there. -/
def Engine.Writes (e : Engine) (ev : NodeEvent) (t : Transfer) : Prop :=
  ∃ k peer address term seq offset, ev = .act (.writeSnapshot k t.file) ∧ e.applyLock = .free ∧
    e.node.state = .leader ∧ e.node.currentTerm = term ∧
    e.outgoing[k]? = some (.snapshotDue peer address term) ∧
    t = { e.newTransfer peer address term t.file with seq := seq, offset := offset }

section Steps

variable {W : Transfer → Prop} {e : Engine} {ev : NodeEvent}

theorem Engine.Writes.goesOn {t : Transfer} (h : e.Writes ev t) (seq offset : Nat) :
    e.Writes ev { t with seq := seq, offset := offset } := by
  obtain ⟨k, peer, address, term, seq', offset', hev, hf, hl, ht, hk, heq⟩ := h
  exact ⟨k, peer, address, term, seq, offset, hev, hf, hl, ht, hk,
    congrArg (fun t : Transfer => { t with seq := seq, offset := offset }) heq⟩

/-- Writing a snapshot queues the transfer of its file, or nothing. -/
theorem writeSnapshot_step (e : Engine) (k : Nat) (file : List UInt8) :
    ∃ e', (e' = e ∨ e' = e.pull k) ∧ (e.step (.act (.writeSnapshot k file)) = e' ∨
      ∃ t, e.Writes (.act (.writeSnapshot k file)) t ∧
        e.step (.act (.writeSnapshot k file)) = e'.push (.snapshot t)) := by
  refine (wp_after (P := fun y => ∃ e', (e' = e ∨ e' = e.pull k) ∧ (y = e' ∨
    ∃ t, e.Writes (.act (.writeSnapshot k file)) t ∧ y = e'.push (.snapshot t)))).mp ?_
  simp only [NodeEvent.body, Action.body, writeSnapshot, wp_bind, wp_get]
  split
  · rename_i peer address term hf hk
    simp only [wp_bind, wp_ite, wp_modify, wp_pure]
    split
    · rename_i hl
      refine ⟨e.pull k, Or.inr rfl, Or.inr ⟨_, ?_, rfl⟩⟩
      exact ⟨k, peer, address, term, 0, 0, rfl, hf, hl.1, hl.2, hk, rfl⟩
    · exact ⟨e.pull k, Or.inr rfl, Or.inl rfl⟩
  · exact ⟨e, Or.inl rfl, Or.inl rfl⟩

theorem outward_refreshConfig (e : Engine) : e.refreshConfig.markUp.outward = e.outward := by
  obtain ⟨d, ms, ls, h, -⟩ := refreshConfig_eq e
  rw [h]
  rfl

theorem outward_construct (e : Engine) : (after construct e).outward = ([], []) := by
  refine (wp_after (P := fun e' : Engine => e'.outward = ([], []))).mp ?_
  simp only [construct, restorePersistentState, wp_bind, wp_get, wp_ite, wp_modify, wp_storageCall]
  split
  · split
    · rfl
    · exact outward_refreshConfig _
  · exact outward_refreshConfig _

theorem relays_construct (e : Engine) : Relays W (after construct e) where
  received := received_construct e
  parts := by
    intro rx hrx
    rw [show (after construct e).snapshotRx = none from congrArg (·.1) (incoming_construct e)] at hrx
    cases hrx
  sends :=
    { outbox := by
        rw [show (after construct e).outbox = [] from congrArg (·.1) (outward_construct e)]
        exact fun _ hp => by cases hp
      outgoing := by
        rw [show (after construct e).outgoing = [] from congrArg (·.2) (outward_construct e)]
        exact fun _ ht => by cases ht }

/-- One step: chunks of files in `W` arrive, or such a file is written. -/
theorem relays_step (hW : Consistent W) (hp : ∀ p, ev = .receive p → p.Chunked W)
    (hw : ∀ t, e.Writes ev t → W t) (h : Relays W e) : Relays W (e.step ev) := by
  by_cases hr : ev = .act .restart
  · subst hr
    exact relays_construct e
  · by_cases hf : ∃ k file, ev = .act (.writeSnapshot k file)
    · obtain ⟨k, file, rfl⟩ := hf
      obtain ⟨e', hbase, hstep⟩ := writeSnapshot_step e k file
      have he' : Relays W e' := by
        rcases hbase with rfl | rfl
        · exact h
        · exact h.pull k
      rcases hstep with heq | ⟨t, ht, heq⟩
      · rwa [heq]
      · rw [heq]
        exact he'.push fun t' ht' => by
          cases ht'
          exact hw t ht
    · have hev : Brings W ev := ⟨hp, fun k file heq => hf ⟨k, file, heq⟩⟩
      exact (section_step hr).keeps h (fun _ _ _ hm => hm.relays hW hev)
        fun _ _ _ hu => hu.of_fields rfl rfl

end Steps

/-! ## Clusters -/

section Clusters

variable {c : Cluster}

/-- In the run a node writes the file of the transfer. -/
def Written (c : Cluster) (evs : List WorldEvent) (t : Transfer) : Prop :=
  ∃ pre i a post, evs = pre ++ .act i a :: post ∧ i ∈ c.ids ∧
    (((World.init c).run c pre).engines i).Writes (.act a) t

/-- Nothing but files of `W` is under way. -/
structure Carries (W : Transfer → Prop) (w : World) : Prop where
  engines : ∀ i, Relays W (w.engines i)
  net : ∀ p ∈ w.net, p.Chunked W

theorem Carries.act {W : Transfer → Prop} {w : World} (h : Carries W w) (hW : Consistent W)
    {i : NodeId} {ev : NodeEvent} (hp : ∀ p, ev = .receive p → p.Chunked W)
    (hw : ∀ t, (w.engines i).Writes ev t → W t) : Carries W (w.act i ev) := by
  have hstep := relays_step hW hp hw (h.engines i)
  constructor
  · intro j
    by_cases hj : j = i
    · subst hj
      simp only [World.act, Function.update_self]
      refine ⟨⟨hstep.received.installs, hstep.received.lock⟩, hstep.parts, ?_, hstep.sends.outgoing⟩
      exact fun _ hq => by cases hq
    · simp only [World.act, Function.update_of_ne hj]
      exact h.engines j
  · intro p hq
    rcases List.mem_append.mp hq with hq | hq
    · exact h.net p hq
    · exact hstep.sends.outbox p hq

theorem carries_run {evs : List WorldEvent} (hW : Consistent (Written c evs)) :
    ∀ pre post, evs = pre ++ post → Carries (Written c evs) ((World.init c).run c pre) := by
  intro pre
  induction pre using List.reverseRecOn with
  | nil =>
      have hboot : ∀ i, Relays (Written c evs) (boot (c.settings i) fun _ => []) := fun i =>
        relays_construct _
      exact fun _ _ => ⟨hboot, fun _ hp => by cases hp⟩
  | append_singleton pre ev ih =>
      intro post hsplit
      have hsplit' : evs = pre ++ ev :: post := by rw [hsplit]; simp
      have hw := ih (ev :: post) hsplit'
      rw [World.run, List.foldl_concat]
      change Carries (Written c evs) (((World.init c).run c pre).step c ev)
      cases ev with
      | act i a =>
          simp only [World.step]
          split
          · rename_i hi
            exact hw.act hW (fun p hp => by cases hp) fun t ht => ⟨pre, i, a, post, hsplit', hi, ht⟩
          · exact hw
      | deliver i k =>
          simp only [World.step]
          split
          · rename_i p hp
            split
            · refine hw.act hW (fun q hq => ?_) fun t ht => ?_
              · cases hq
                exact hw.net _ (List.mem_of_getElem? hp)
              · obtain ⟨_, _, _, _, _, _, hev, -⟩ := ht
                cases hev
            · exact hw
          · exact hw

/-- In every run of a cluster whose snapshot files of one index have the same
bytes, what a node restores is a file that a leader wrote, with the labels
that leader gave it. -/
theorem restored_file_was_written (c : Cluster) (evs : List WorldEvent)
    (hsame : ∀ t t', Written c evs t → Written c evs t' → t.index = t'.index → t.file = t'.file)
    (i : NodeId) (y : Install)
    (hy : (((World.init c).run c evs).engines i).applyLock = .installing y) :
    ∃ t, Written c evs t ∧ y.request.ChunkOf t ∧ y.data = t.file := by
  have hW : Consistent (Written c evs) := by
    refine ⟨fun t seq offset ht => ?_, hsame⟩
    obtain ⟨pre, j, a, post, hsplit, hj, hw⟩ := ht
    exact ⟨pre, j, a, post, hsplit, hj, hw.goesOn seq offset⟩
  obtain ⟨t, hw, -, hchunk, hdata⟩ :=
    ((carries_run hW evs [] (List.append_nil _).symm).engines i).received.lock y hy
  exact ⟨t, hw, hchunk, hdata⟩

end Clusters

/-! ### A file of two chunks -/

section TwoChunks

variable {c : Cluster} {w : World} {i j : NodeId} {v : NodeEvent}

theorem World.step_deliver {k : Nat} {p : Packet} (hp : w.net[k]? = some p) (hi : i ∈ c.ids)
    (hr : p.reaches (w.engines i) = true) : w.step c (.deliver i k) = w.act i (.receive p) := by
  simp only [World.step, hp]
  exact if_pos ⟨hi, hr⟩

/-- What the engine has sent is on the wire. -/
def Engine.emptied (e : Engine) : Engine := { e with outbox := [] }

theorem World.engines_act_self : (w.act i v).engines i = ((w.engines i).step v).emptied :=
  Function.update_self ..

theorem World.engines_act_of_ne (h : j ≠ i) : (w.act i v).engines j = w.engines j :=
  Function.update_of_ne h ..

theorem World.net_act : (w.act i v).net = w.net ++ ((w.engines i).step v).outbox := rfl

/-- The leader applies and folds its no-op, and begins to send the third node,
which has nothing yet, a snapshot whose first chunk is `a`. -/
def trioFile (a : List UInt8) : List WorldEvent :=
  trioElection ++ trioCommit ++
    [.act "n1" .beginApply, .act "n1" (.finishApply .none), .act "n1" (.compact 1),
      .act "n1" (.replicate "n3" 1 1), .act "n1" (.writeSnapshot 0 (a ++ [2])),
      .act "n1" (.sendNext 0)]

/-- Both chunks arrive. -/
def trioSnapshot (a : List UInt8) : List WorldEvent :=
  trioFile a ++ [.deliver "n3" 8, .deliver "n1" 9, .deliver "n3" 10, .act "n3" (.beginInstall 0)]

def trioTransfer (a : List UInt8) (offset : Nat) : Transfer where
  peer := "n3"
  address := "a3"
  term := 1
  index := 1
  lastTerm := 1
  config := trio.members
  file := a ++ [2]
  seq := 2
  offset := offset

def trioChunk (offset : Nat) (data : List UInt8) (done : Bool) : InstallSnapshotRequest where
  term := 1
  leaderId := "n1"
  lastIncludedIndex := 1
  lastIncludedTerm := 1
  offset := offset
  data := data
  done := done
  config := some trio.members
  leaderAddress := "a1"

/-- The call with the chunk at `offset`, as `sendChunk` makes it. -/
def trioCall (a : List UInt8) (offset : Nat) (data : List UInt8) (done : Bool) : Envelope where
  src := "n1"
  epoch := 1
  address := "a3"
  call := .installSnapshot (trioChunk offset data done) (trioTransfer a offset)

def trioReply (a : List UInt8) : Packet :=
  .reply (trioCall a 0 a false) (.installSnapshot { term := 1 })

theorem trioFile_net {a : List UInt8} (ha : a.length = snapshotChunkSize) :
    ((World.init trio).run trio (trioFile a)).net[8]? = some (.call (trioCall a 0 a false)) := by
  have hnet : ((World.init trio).run trio (trioFile a)).net[8]? = some (.call (trioCall a 0
      (((a ++ [2]).drop 0).take snapshotChunkSize)
      (decide ((a ++ [2]).length ≤ 0 + (((a ++ [2]).drop 0).take snapshotChunkSize).length)))) := by
    rfl
  have hmore : decide ((a ++ [2]).length ≤ 0 + a.length) = false :=
    decide_eq_false (by rw [List.length_append, List.length_singleton]; omega)
  rw [hnet, List.drop_zero, ← ha, List.take_left, hmore]

theorem trioReply_sends {a : List UInt8} (ha : a.length = snapshotChunkSize) :
    ((((World.init trio).run trio (trioFile a)).engines "n1").step (.receive (trioReply a))).outbox
      = [.call (trioCall a snapshotChunkSize [2] true)] := by
  have hsent : ((((World.init trio).run trio (trioFile a)).engines "n1").step
      (.receive (trioReply a))).outbox = [.call (trioCall a (0 + a.length)
        (((a ++ [2]).drop (0 + a.length)).take snapshotChunkSize)
        (decide ((a ++ [2]).length ≤
          0 + a.length + (((a ++ [2]).drop (0 + a.length)).take snapshotChunkSize).length)))] := by
    rfl
  have hlast : ([2] : List UInt8).take snapshotChunkSize = [2] := rfl
  rw [hsent, Nat.zero_add, List.drop_left, hlast, ← ha]
  simp

/-- The third node with the first chunk. -/
def thirdHasOne (a : List UInt8) : Engine :=
  (((World.init trio).run trio (trioFile a)).engines "n3").step (.receive (.call (trioCall a 0 a false)))

/-- The third node with both. -/
def thirdHasBoth (a : List UInt8) : Engine :=
  (thirdHasOne a).emptied.step (.receive (.call (trioCall a snapshotChunkSize [2] true)))

theorem thirdHasBoth_installs {a : List UInt8} (ha : a.length = snapshotChunkSize) :
    (thirdHasBoth a).installs = [⟨trioCall a snapshotChunkSize [2] true,
        trioChunk snapshotChunkSize [2] true, a ++ [2]⟩] ∧
      (thirdHasBoth a).applyLock = .free ∧ (thirdHasBoth a).node.lastApplied = 0 := by
  have hrx : (thirdHasOne a).emptied.snapshotRx = some ⟨1, a⟩ := rfl
  have hfile : (thirdHasOne a).emptied.chunkFile (trioChunk snapshotChunkSize [2] true) =
      some ⟨1, a⟩ := by
    unfold Engine.chunkFile
    rw [if_neg (by decide), hrx]
    exact Option.filter_eq_some_iff.mpr ⟨rfl, decide_eq_true ⟨rfl, ha⟩⟩
  exact takes_last_chunk rfl rfl rfl rfl Nat.zero_lt_one hfile rfl

theorem trioSnapshot_third {a : List UInt8} (ha : a.length = snapshotChunkSize) :
    ((World.init trio).run trio (trioSnapshot a)).engines "n3" =
      ((thirdHasBoth a).emptied.step (.act (.beginInstall 0))).emptied := by
  have hrun : (World.init trio).run trio (trioSnapshot a) = (((((World.init trio).run trio
      (trioFile a)).step trio (.deliver "n3" 8)).step trio (.deliver "n1" 9)).step trio
      (.deliver "n3" 10)).step trio (.act "n3" (.beginInstall 0)) := by
    rw [trioSnapshot, World.run, List.foldl_append]
    rfl
  have hnet := trioFile_net ha
  have hsends := trioReply_sends ha
  have hlen : ((World.init trio).run trio (trioFile a)).net.length = 9 := rfl
  have hleader : (((World.init trio).run trio (trioFile a)).engines "n1").nodeId = "n1" := rfl
  have haddress : (((World.init trio).run trio (trioFile a)).engines "n3").settings.raftAddress
      = "a3" := rfl
  have hone : (((World.init trio).run trio (trioFile a)).engines "n3").step
      (.receive (.call (trioCall a 0 a false))) = thirdHasOne a := rfl
  have hout : (thirdHasOne a).outbox = [trioReply a] := rfl
  have haddress' : (thirdHasOne a).emptied.settings.raftAddress = "a3" := rfl
  rw [hrun]
  generalize (World.init trio).run trio (trioFile a) = w at hnet hsends hlen hleader haddress hone ⊢
  -- the first chunk
  rw [World.step_deliver hnet (by decide) (decide_eq_true haddress.symm)]
  have hnet₂ := World.net_act (w := w) (i := "n3") (v := .receive (.call (trioCall a 0 a false)))
  have hfirst : (w.act "n3" (.receive (.call (trioCall a 0 a false)))).engines "n1" = w.engines "n1" :=
    World.engines_act_of_ne (by decide)
  have hthird₂ := World.engines_act_self (w := w) (i := "n3")
    (v := .receive (.call (trioCall a 0 a false)))
  rw [hone] at hnet₂ hthird₂
  rw [hout] at hnet₂
  generalize w.act "n3" (.receive (.call (trioCall a 0 a false))) = w₂ at hnet₂ hfirst hthird₂ ⊢
  -- its reply
  have hdeliver : w₂.step trio (.deliver "n1" 9) = w₂.act "n1" (.receive (trioReply a)) :=
    World.step_deliver (by rw [hnet₂]; simp [hlen]) (by decide)
      (decide_eq_true (by rw [hfirst]; exact hleader.symm))
  rw [hdeliver]
  have hnet₃ := World.net_act (w := w₂) (i := "n1") (v := .receive (trioReply a))
  rw [hfirst, hsends, hnet₂] at hnet₃
  have hthird₃ : (w₂.act "n1" (.receive (trioReply a))).engines "n3" = w₂.engines "n3" :=
    World.engines_act_of_ne (by decide)
  rw [hthird₂] at hthird₃
  generalize w₂.act "n1" (.receive (trioReply a)) = w₃ at hnet₃ hthird₃ ⊢
  -- the second chunk
  have hdeliver₃ : w₃.step trio (.deliver "n3" 10) =
      w₃.act "n3" (.receive (.call (trioCall a snapshotChunkSize [2] true))) :=
    World.step_deliver (by rw [hnet₃]; simp [hlen]) (by decide)
      (decide_eq_true (by rw [hthird₃]; exact haddress'.symm))
  have hbegin : ∀ w₄ : World, w₄.step trio (.act "n3" (.beginInstall 0)) =
      w₄.act "n3" (.act (.beginInstall 0)) := by
    intro w₄
    rw [World.step, if_pos (by decide)]
  rw [hdeliver₃, hbegin, World.engines_act_self, World.engines_act_self, hthird₃]
  rfl

theorem trioSnapshot_installs {a : List UInt8} (ha : a.length = snapshotChunkSize) :
    ∃ y, (((World.init trio).run trio (trioSnapshot a)).engines "n3").applyLock = .installing y ∧
      y.data = a ++ [2] := by
  obtain ⟨hinstalls, hlock, happlied⟩ := thirdHasBoth_installs ha
  rw [trioSnapshot_third ha]
  generalize thirdHasBoth a = e at hinstalls hlock happlied ⊢
  have hlt : e.emptied.node.lastApplied < 1 := happlied.trans_lt Nat.zero_lt_one
  exact ⟨_, begins_install (e := e.emptied) hlock hinstalls hlt, rfl⟩

theorem written_trioSnapshot {a : List UInt8} {t : Transfer} (h : Written trio (trioSnapshot a) t) :
    t.file = a ++ [2] := by
  obtain ⟨pre, i, b, post, hsplit, -, k, _, _, _, _, _, hb, -⟩ := h
  have hmem : WorldEvent.act i b ∈ trioSnapshot a := by rw [hsplit]; simp
  rw [show b = .writeSnapshot k t.file from NodeEvent.act.inj hb] at hmem
  simp only [trioSnapshot, trioFile, trioElection, trioCommit, List.mem_append, List.mem_cons,
    List.not_mem_nil, or_false, reduceCtorEq, WorldEvent.act.injEq, and_false, false_or,
    Action.writeSnapshot.injEq] at hmem
  exact hmem.2.2

theorem restored_file_was_written_trio :
    ∃ y, (((World.init trio).run trio (trioSnapshot (List.replicate snapshotChunkSize 7))).engines
        "n3").applyLock = .installing y ∧ y.data.length = snapshotChunkSize + 1 ∧
      ∃ t, Written trio (trioSnapshot (List.replicate snapshotChunkSize 7)) t ∧
        y.request.ChunkOf t ∧ y.data = t.file := by
  have hlen : (List.replicate snapshotChunkSize (7 : UInt8)).length = snapshotChunkSize :=
    List.length_replicate
  obtain ⟨y, hy, hdata⟩ := trioSnapshot_installs hlen
  refine ⟨y, hy, ?_, restored_file_was_written trio _
    (fun t t' ht ht' _ => (written_trioSnapshot ht).trans (written_trioSnapshot ht').symm) "n3" y hy⟩
  rw [hdata, List.length_append, hlen, List.length_singleton]

end TwoChunks

end KvCache
