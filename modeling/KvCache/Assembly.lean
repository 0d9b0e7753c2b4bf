import KvCache.Durable

/-!
# Assembling a snapshot

A snapshot arrives in chunks. A chunk at offset 0 starts a new file, any
other one is appended when index and size fit (`chunkFile`). Size and index
say where a chunk belongs, not to which transfer: a chunk of another file of
the same index is taken as well.

Nothing in the node tells which transfer a part has come from, so this is
read off the run: `Source` is the transfer of the chunk that the part was
last extended with. The files may differ as long as a chunk that fits the
part is from a file with the same bytes before the chunk's offset as the file
of its source (`RunAgrees`). The part is then always how the file of its
source begins (`Sourced`), and every file that is handed to `restore_fn` is
the file of one transfer (`restored_file_is_one_file`). Files of one index
that are equal always agree (`runAgrees_of_equal`).
-/

namespace KvCache

open StateWp Engine

/-! ## Chunks -/

/-- The request carries the labels of the transfer and the part of its file at
the request's offset. -/
structure InstallSnapshotRequest.ChunkOf (req : InstallSnapshotRequest) (t : Transfer) : Prop where
  index : req.lastIncludedIndex = t.index
  lastTerm : req.lastIncludedTerm = t.lastTerm
  config : req.config = some t.config
  data : req.data = (t.file.drop req.offset).take snapshotChunkSize
  done : req.done = true ↔ t.file.length ≤ req.offset + req.data.length

/-- The snapshot is the whole file of the transfer its last chunk is from,
one of the transfers in `W`. -/
def Install.Whole (W : Transfer → Prop) (y : Install) : Prop :=
  ∃ t, W t ∧ y.env.call = .installSnapshot y.request t ∧ y.request.ChunkOf t ∧ y.data = t.file

/-- A chunk that arrives is a part of the file of a transfer in `W`. -/
def NodeEvent.Chunked (W : Transfer → Prop) (ev : NodeEvent) : Prop :=
  ∀ env req t, ev.Calls env → env.call = .installSnapshot req t → W t ∧ req.ChunkOf t

/-- A chunk of the transfer arrives. -/
def NodeEvent.BringsChunk (ev : NodeEvent) (req : InstallSnapshotRequest) (t : Transfer) : Prop :=
  ∃ env, ev.Calls env ∧ env.call = .installSnapshot req t

/-- After these events, the part that the node holds was last extended with a
chunk of this transfer. -/
inductive Source (e : Engine) : List NodeEvent → Transfer → Prop where
  | taken {pre : List NodeEvent} {ev : NodeEvent} {req : InstallSnapshotRequest} {t : Transfer}
      {rx : SnapshotRx} : ev.BringsChunk req t → (e.run pre).chunkFile req = some rx →
      (e.run (pre ++ [ev])).snapshotRx = some { rx with data := rx.data ++ req.data } →
      Source e (pre ++ [ev]) t
  | kept {pre : List NodeEvent} {ev : NodeEvent} {t : Transfer} : Source e pre t →
      (e.run (pre ++ [ev])).snapshotRx = (e.run pre).snapshotRx → Source e (pre ++ [ev]) t

/-- A chunk that is to extend a part is from a file of the same bytes, up to
the chunk, as the file of that index that the part is from. -/
def Engine.RunAgrees (e : Engine) (evs : List NodeEvent) : Prop :=
  ∀ pre ev post req t t', evs = pre ++ ev :: post → ev.BringsChunk req t → 0 < req.offset →
    ((e.run pre).chunkFile req).isSome = true → Source e pre t' → t'.index = t.index →
    t'.file.take req.offset = t.file.take req.offset

/-- What the chunk is appended to is how its own file begins. -/
def Engine.Continues (e : Engine) (ev : NodeEvent) : Prop :=
  ∀ env req t rx, ev.Calls env → env.call = .installSnapshot req t → e.chunkFile req = some rx →
    rx.data <+: t.file

/-- Every complete snapshot the node holds is one whole file. -/
structure Received (W : Transfer → Prop) (e : Engine) : Prop where
  installs : ∀ y ∈ e.installs, y.Whole W
  lock : ∀ y, e.applyLock = .installing y → y.Whole W

/-- The snapshots on their way in. -/
def Engine.incoming (e : Engine) : Option SnapshotRx × List Install × ApplyLock :=
  (e.snapshotRx, e.installs, e.applyLock)

section Chunks

variable {e : Engine} {req : InstallSnapshotRequest} {rx : SnapshotRx} {t : Transfer}

theorem chunkFile_size (h : e.chunkFile req = some rx) : rx.data.length = req.offset := by
  unfold Engine.chunkFile at h
  split at h
  · rename_i h₀
    obtain rfl := Option.some.inj h
    exact h₀.symm
  · exact (of_decide_eq_true (Option.filter_eq_some_iff.mp h).2).2

theorem chunkFile_index (h : e.chunkFile req = some rx) : rx.index = req.lastIncludedIndex := by
  unfold Engine.chunkFile at h
  split at h
  · obtain rfl := Option.some.inj h
    rfl
  · exact (of_decide_eq_true (Option.filter_eq_some_iff.mp h).2).1

/-- The chunk continues the part of the file before it. -/
theorem InstallSnapshotRequest.ChunkOf.continues (hc : req.ChunkOf t)
    (h : e.chunkFile req = some rx) (hp : rx.data <+: t.file) :
    rx.data ++ req.data = t.file.take (req.offset + snapshotChunkSize) := by
  have htake : rx.data = t.file.take req.offset := by
    rw [← chunkFile_size h]
    exact List.prefix_iff_eq_take.mp hp
  rw [htake, hc.data, ← List.take_add]

/-- The last chunk completes it. -/
theorem InstallSnapshotRequest.ChunkOf.completes (hc : req.ChunkOf t)
    (h : e.chunkFile req = some rx) (hp : rx.data <+: t.file) (hd : req.done = true) :
    rx.data ++ req.data = t.file := by
  have hle := hc.done.mp hd
  have hcont := hc.continues h hp
  have hlen := congrArg List.length hcont
  rw [List.length_append, chunkFile_size h, List.length_take] at hlen
  rw [hcont]
  exact List.take_of_length_le (by omega)

theorem incoming_stepDown (e : Engine) : e.stepDown.incoming = e.incoming := by
  obtain ⟨l, ls, b, hd⟩ := stepDown_eq e
  rw [hd]
  rfl

theorem incoming_appended (e : Engine) (es : List LogEntry) :
    (e.appended es).incoming = e.incoming := by
  obtain ⟨d, i, ms, ls, h, -⟩ := appended_eq e es
  rw [h]
  rfl

theorem incoming_installed (e : Engine) (req : InstallSnapshotRequest) :
    (e.installed req).incoming = e.incoming := by
  obtain ⟨d, ms, ls, h, -⟩ := installed_eq e req
  obtain ⟨st, fs, hu⟩ := uprooted_eq e req
  rw [h, hu]
  rfl

theorem incoming_replyInstall (e : Engine) (y : Install) :
    (e.replyInstall y).incoming = e.incoming := rfl

end Chunks

/-! ## One section -/

section Moves

variable {W : Transfer → Prop} {ev : NodeEvent} {b : Bool} {x y : Engine}

theorem Received.of_incoming (h : Received W x) (hi : y.incoming = x.incoming) : Received W y where
  installs := (congrArg (·.2.1) hi : y.installs = x.installs) ▸ h.installs
  lock := (congrArg (·.2.2) hi : y.applyLock = x.applyLock) ▸ h.lock

theorem Continues.of_rx (h : x.Continues ev) (hi : y.snapshotRx = x.snapshotRx) : y.Continues ev := by
  intro env req t rx hev hc hx
  refine h env req t rx hev hc ?_
  unfold Engine.chunkFile at hx ⊢
  rwa [hi] at hx

theorem Continues.of_none (hi : x.snapshotRx = none) : x.Continues ev := by
  intro env req t rx _ _ hx
  unfold Engine.chunkFile at hx
  rw [hi] at hx
  split at hx
  · obtain rfl := Option.some.inj hx
    exact List.nil_prefix
  · cases hx

theorem both_of_incoming (h : Received W x ∧ x.Continues ev) (hi : y.incoming = x.incoming) :
    Received W y ∧ y.Continues ev :=
  ⟨h.1.of_incoming hi, Continues.of_rx h.2 (congrArg (·.1) hi)⟩

theorem NodeEvent.Calls.unique {env env' : Envelope} (h : ev.Calls env) (h' : ev.Calls env') :
    env = env' := by
  cases h
  cases h'
  rfl

/-- The longer file begins like the chunk's own file, too. -/
theorem Continues.keepChunks (h : x.Continues ev) (hev : ev.Chunked W) {env : Envelope}
    {req : InstallSnapshotRequest} {t : Transfer} {rx : SnapshotRx} (ha : ev.Calls env)
    (hc : env.call = .installSnapshot req t) (hx : x.chunkFile req = some rx) :
    (x.keepChunks { rx with data := rx.data ++ req.data }).Continues ev := by
  intro env' req' t' rx' ha' hc' hx'
  obtain rfl := ha.unique ha'
  obtain ⟨rfl, rfl⟩ := Call.installSnapshot.inj (hc.symm.trans hc')
  unfold Engine.chunkFile at hx'
  split at hx'
  · obtain rfl := Option.some.inj hx'
    exact List.nil_prefix
  · obtain rfl := Option.some.inj (Option.filter_eq_some_iff.mp hx').1
    dsimp only
    rw [(hev env req t ha hc).2.continues hx (h env req t rx ha hc hx)]
    exact List.take_prefix _ _

/-- The lock is taken for something else, or given back. -/
theorem Received.setLock (h : Received W x) {lock : ApplyLock} (hl : ∀ y, lock ≠ .installing y) :
    Received W (x.setLock lock) where
  installs := h.installs
  lock := fun y hy => absurd hy (hl y)

theorem Received.dropInstall (h : Received W x) (k : Nat) : Received W (x.dropInstall k) where
  installs := fun y hy => h.installs y (List.mem_of_mem_eraseIdx hy)
  lock := h.lock

/-- A section in which chunks continue their own files leaves whole files. -/
theorem Move.received (hm : Move ev b x y) (hev : ev.Chunked W) (h : Received W x ∧ x.Continues ev) :
    Received W y ∧ y.Continues ev := by
  have hsame : y.incoming = x.incoming → Received W y ∧ y.Continues ev := both_of_incoming h
  have hlock : ∀ lock, (∀ z, lock ≠ .installing z) → Received W (x.setLock lock) ∧
      (x.setLock lock).Continues ev := fun lock hl => ⟨h.1.setLock hl, Continues.of_rx h.2 rfl⟩
  cases hm with
  | idle h' => exact hsame (congrArg Engine.incoming h' :)
  | adoptTerm => exact hsame (incoming_stepDown (x.enterTerm _).saveVote)
  | stepDown => exact hsame (incoming_stepDown x)
  | noop => exact hsame (incoming_appended x _)
  | propose timeout =>
      obtain ⟨d, i, ms, ls, c, h', -⟩ := proposed_eq x _ timeout
      rw [h'] at hsame ⊢
      exact hsame rfl
  | receive => exact hsame (incoming_appended x _)
  | truncate =>
      obtain ⟨d, ms, ls, h', -⟩ := truncated_eq x _
      rw [h'] at hsame ⊢
      exact hsame rfl
  | advanceCommit =>
      obtain ⟨k, h', -⟩ := advanceCommitIndex_eq x
      rw [h'] at hsame ⊢
      exact hsame rfl
  | followCommit =>
      obtain ⟨k, h', -⟩ := followCommit_eq x _ _
      rw [h'] at hsame ⊢
      exact hsame rfl
  | startReplicator =>
      obtain ⟨d, h', -⟩ := startReplicator_eq x _
      rw [h'] at hsame ⊢
      exact hsame rfl
  | keepChunks ha hc _ _ hx _ => exact ⟨⟨h.1.installs, h.1.lock⟩, Continues.keepChunks h.2 hev ha hc hx⟩
  | queueInstall ha hc _ _ hx hd =>
      have hp := h.2 _ _ _ _ ha hc hx
      obtain ⟨hw, hchunk⟩ := hev _ _ _ ha hc
      refine ⟨⟨fun z hz => ?_, h.1.lock⟩, Continues.of_none rfl⟩
      rcases List.mem_append.mp hz with hz | hz
      · exact h.1.installs z hz
      · obtain rfl := List.mem_singleton.mp hz
        exact ⟨_, hw, hc, hchunk, hchunk.completes hx hp hd⟩
  | coverInstall => exact ⟨(h.1.dropInstall _).of_incoming rfl, Continues.of_rx h.2 rfl⟩
  | startInstall _ hk =>
      refine ⟨⟨(h.1.dropInstall _).installs, fun z hz => ?_⟩, Continues.of_rx h.2 rfl⟩
      cases hz
      exact h.1.installs _ (List.mem_of_getElem? hk)
  | install _ hi =>
      have hl := hlock .free fun _ hz => by cases hz
      have hin : ∀ req z, (((x.setLock .free).installed req).replyInstall z).incoming
          = (x.setLock .free).incoming := fun req z =>
        (incoming_replyInstall _ z).trans (incoming_installed _ req)
      exact both_of_incoming hl (hin _ _)
  | installFails _ _ hor =>
      have hl := hlock .free fun _ hz => by cases hz
      rcases hor with ⟨rfl, -⟩ | ⟨rfl, -⟩
      · exact both_of_incoming hl rfl
      · obtain ⟨st, fs, hu⟩ := uprooted_eq (x.setLock .free) _
        rw [hu]
        exact both_of_incoming hl rfl
  | restoreFails => exact hlock .free fun _ hz => by cases hz
  | startApply => exact hlock _ fun _ hz => by cases hz
  | noteApplied =>
      have hl := hlock .free fun _ hz => by cases hz
      exact both_of_incoming hl rfl
  | stopApply => exact hlock .free fun _ hz => by cases hz
  | power hx =>
      refine ⟨⟨h.1.installs, h.1.lock⟩, ?_⟩
      rcases hx with rfl | rfl
      · exact Continues.of_none rfl
      · exact Continues.of_rx h.2 rfl
  | _ => exact hsame rfl

/-- What a section may leave of a part: the part itself, nothing, or the part
and the chunk. -/
def Engine.PartFrom (e : Engine) (ev : NodeEvent) (y : Engine) : Prop :=
  y.snapshotRx = e.snapshotRx ∨ y.snapshotRx = none ∨
    ∃ req t rx, ev.BringsChunk req t ∧ e.chunkFile req = some rx ∧
      y.snapshotRx = some { rx with data := rx.data ++ req.data }

theorem chunkFile_congr {req : InstallSnapshotRequest} (h : y.snapshotRx = x.snapshotRx) :
    y.chunkFile req = x.chunkFile req := by
  unfold Engine.chunkFile
  rw [h]

theorem PartFrom.of_incoming {e : Engine} (h : e.PartFrom ev x) (hi : y.incoming = x.incoming) :
    e.PartFrom ev y := by
  have hrx : y.snapshotRx = x.snapshotRx := congrArg (·.1) hi
  unfold Engine.PartFrom
  rw [hrx]
  exact h

/-- Taking the same chunk once more changes nothing. -/
theorem PartFrom.keepChunks {e : Engine} (h : e.PartFrom ev x) {req : InstallSnapshotRequest}
    {t : Transfer} {rx : SnapshotRx} (hb : ev.BringsChunk req t) (hx : x.chunkFile req = some rx) :
    e.PartFrom ev (x.keepChunks { rx with data := rx.data ++ req.data }) := by
  have htaken : ∀ rx', e.chunkFile req = some rx' → rx'.index = rx.index →
      rx'.data ++ req.data = rx.data ++ req.data →
      e.PartFrom ev (x.keepChunks { rx with data := rx.data ++ req.data }) := by
    intro rx' he hindex hdata
    refine Or.inr (Or.inr ⟨req, t, rx', hb, he, ?_⟩)
    rw [hindex, hdata]
    rfl
  by_cases h₀ : req.offset = 0
  · -- a new file, whatever was there
    unfold Engine.chunkFile at hx
    rw [if_pos h₀] at hx
    refine htaken rx ?_ rfl rfl
    unfold Engine.chunkFile
    rw [if_pos h₀, hx]
  · rcases h with hsame | hnone | ⟨req', t', rx', hb', he', hkept⟩
    · exact htaken rx (chunkFile_congr hsame ▸ hx) rfl rfl
    · unfold Engine.chunkFile at hx
      rw [if_neg h₀, hnone] at hx
      cases hx
    · obtain ⟨env, ha, hc⟩ := hb
      obtain ⟨env', ha', hc'⟩ := hb'
      obtain rfl := ha.unique ha'
      obtain ⟨rfl, rfl⟩ := Call.installSnapshot.inj (hc.symm.trans hc')
      have hsize := chunkFile_size hx
      unfold Engine.chunkFile at hx
      rw [if_neg h₀, hkept] at hx
      obtain rfl := Option.some.inj (Option.filter_eq_some_iff.mp hx).1
      -- the part already ends beyond the chunk's offset, unless the chunk is empty
      have hempty : req.data = [] := by
        rw [List.length_append, chunkFile_size he'] at hsize
        exact List.length_eq_zero_iff.mp (by omega)
      exact htaken rx' he' rfl (by simp [hempty])

theorem Move.partFrom {e : Engine} (hm : Move ev b x y) (h : e.PartFrom ev x) :
    e.PartFrom ev y := by
  have hsame : y.incoming = x.incoming → e.PartFrom ev y := PartFrom.of_incoming h
  have hlock : ∀ lock, e.PartFrom ev (x.setLock lock) := fun lock => h
  cases hm with
  | idle h' => exact hsame (congrArg Engine.incoming h' :)
  | adoptTerm => exact hsame (incoming_stepDown (x.enterTerm _).saveVote)
  | stepDown => exact hsame (incoming_stepDown x)
  | noop => exact hsame (incoming_appended x _)
  | propose timeout =>
      obtain ⟨d, i, ms, ls, c, h', -⟩ := proposed_eq x _ timeout
      rw [h'] at hsame ⊢
      exact hsame rfl
  | receive => exact hsame (incoming_appended x _)
  | truncate =>
      obtain ⟨d, ms, ls, h', -⟩ := truncated_eq x _
      rw [h'] at hsame ⊢
      exact hsame rfl
  | advanceCommit =>
      obtain ⟨k, h', -⟩ := advanceCommitIndex_eq x
      rw [h'] at hsame ⊢
      exact hsame rfl
  | followCommit =>
      obtain ⟨k, h', -⟩ := followCommit_eq x _ _
      rw [h'] at hsame ⊢
      exact hsame rfl
  | startReplicator =>
      obtain ⟨d, h', -⟩ := startReplicator_eq x _
      rw [h'] at hsame ⊢
      exact hsame rfl
  | keepChunks ha hc _ _ hx _ => exact PartFrom.keepChunks h ⟨_, ha, hc⟩ hx
  | queueInstall => exact Or.inr (Or.inl rfl)
  | coverInstall => exact h
  | startInstall => exact h
  | install _ hi =>
      have hin : ∀ req z, (((x.setLock .free).installed req).replyInstall z).incoming
          = (x.setLock .free).incoming := fun req z =>
        (incoming_replyInstall _ z).trans (incoming_installed _ req)
      exact PartFrom.of_incoming (hlock .free) (hin _ _)
  | installFails _ _ hor =>
      rcases hor with ⟨rfl, -⟩ | ⟨rfl, -⟩
      · exact PartFrom.of_incoming (hlock .free) rfl
      · obtain ⟨st, fs, hu⟩ := uprooted_eq (x.setLock .free) _
        rw [hu]
        exact PartFrom.of_incoming (hlock .free) rfl
  | restoreFails => exact hlock .free
  | startApply => exact h
  | noteApplied => exact h
  | stopApply => exact h
  | power hx =>
      rcases hx with rfl | rfl
      · exact Or.inr (Or.inl rfl)
      · exact h
  | _ => exact hsame rfl

end Moves

/-! ## One node -/

section Runs

variable {W : Transfer → Prop} {e : Engine} {ev : NodeEvent} {evs : List NodeEvent}

theorem incoming_refreshConfig (e : Engine) : e.refreshConfig.markUp.incoming = e.incoming := by
  obtain ⟨d, ms, ls, h, -⟩ := refreshConfig_eq e
  rw [h]
  rfl

/-- A new process holds nothing. -/
theorem incoming_construct (e : Engine) : (after construct e).incoming = (none, [], .free) := by
  refine (wp_after (P := fun e' : Engine => e'.incoming = (none, [], .free))).mp ?_
  simp only [construct, restorePersistentState, wp_bind, wp_get, wp_ite, wp_modify, wp_storageCall]
  split
  · split
    · rfl
    · exact incoming_refreshConfig _
  · exact incoming_refreshConfig _

theorem received_construct (e : Engine) : Received W (after construct e) where
  installs := by
    rw [show (after construct e).installs = [] from congrArg (·.2.1) (incoming_construct e)]
    exact fun _ hy => by cases hy
  lock := by
    rw [show (after construct e).applyLock = .free from congrArg (·.2.2) (incoming_construct e)]
    exact fun _ hy => by cases hy

theorem received_step (hev : ev.Chunked W) (hc : e.Continues ev) (h : Received W e) :
    Received W (e.step ev) := by
  by_cases hr : ev = .act .restart
  · subst hr
    exact received_construct e
  · exact ((section_step hr).keeps (P := fun y => Received W y ∧ y.Continues ev) ⟨h, hc⟩
      (fun _ _ _ hm hu => hm.received hev hu) fun _ _ _ hu => ⟨⟨hu.1.installs, hu.1.lock⟩,
        Continues.of_rx hu.2 rfl⟩).1

theorem partFrom_step (e : Engine) (ev : NodeEvent) : e.PartFrom ev (e.step ev) := by
  by_cases hr : ev = .act .restart
  · subst hr
    exact Or.inr (Or.inl (congrArg (·.1) (incoming_construct e)))
  · exact (section_step hr).keeps (P := e.PartFrom ev) (Or.inl rfl)
      (fun _ _ _ hm hu => hm.partFrom hu) fun _ _ _ hu => hu

theorem Engine.run_concat (e : Engine) (evs : List NodeEvent) (ev : NodeEvent) :
    e.run (evs ++ [ev]) = (e.run evs).step ev := List.foldl_concat ..

/-- A part is how the file of its source begins. -/
def Sourced (e : Engine) (evs : List NodeEvent) : Prop :=
  ∀ rx, (e.run evs).snapshotRx = some rx →
    ∃ t, Source e evs t ∧ t.index = rx.index ∧ rx.data <+: t.file

/-- A chunk that agrees with the source of the part continues its own file. -/
theorem Sourced.continues (h : Sourced e evs) (hev : ev.Chunked W)
    (hc : e.RunAgrees (evs ++ [ev])) : (e.run evs).Continues ev := by
  intro env req t rx ha hcall hx
  have hfits : ((e.run evs).chunkFile req).isSome = true := by rw [hx]; rfl
  have hsize := chunkFile_size hx
  have hindex := chunkFile_index hx
  unfold Engine.chunkFile at hx
  split at hx
  · obtain rfl := Option.some.inj hx
    exact List.nil_prefix
  · next h₀ =>
      obtain ⟨t', hsource, hi, hp⟩ := h rx (Option.filter_eq_some_iff.mp hx).1
      have hagree := hc evs ev [] req t t' rfl ⟨env, ha, hcall⟩ (by omega) hfits hsource
        (hi.trans (hindex.trans (hev env req t ha hcall).2.index))
      have hpart : rx.data = t.file.take req.offset := by
        rw [← hagree, ← hsize]
        exact List.prefix_iff_eq_take.mp hp
      rw [hpart]
      exact List.take_prefix _ _

theorem Sourced.step (h : Sourced e evs) (hev : ev.Chunked W) (hc : e.RunAgrees (evs ++ [ev])) :
    Sourced e (evs ++ [ev]) := by
  have hcont := h.continues hev hc
  intro rx hrx
  have hpart := partFrom_step (e.run evs) ev
  rw [← Engine.run_concat] at hpart
  rcases hpart with hsame | hnone | ⟨req, t, rx₀, hb, hx, htaken⟩
  · obtain ⟨t, hsource, ht⟩ := h rx (hsame ▸ hrx)
    exact ⟨t, .kept hsource hsame, ht⟩
  · rw [hnone] at hrx
    cases hrx
  · have hb' := hb
    obtain ⟨env, ha, hcall⟩ := hb'
    have hchunk := (hev env req t ha hcall).2
    obtain rfl := Option.some.inj (htaken.symm.trans hrx)
    refine ⟨t, .taken hb hx htaken, hchunk.index.symm.trans (chunkFile_index hx).symm, ?_⟩
    rw [hchunk.continues hx (hcont env req t rx₀ ha hcall hx)]
    exact List.take_prefix _ _

theorem received_run (hev : ∀ ev ∈ evs, ev.Chunked W) (hc : e.RunAgrees evs)
    (hnone : e.snapshotRx = none) (h : Received W e) :
    Sourced e evs ∧ Received W (e.run evs) := by
  induction evs using List.reverseRecOn with
  | nil =>
      refine ⟨fun rx hrx => ?_, h⟩
      rw [show (e.run []).snapshotRx = none from hnone] at hrx
      cases hrx
  | append_singleton evs ev ih =>
      obtain ⟨hsourced, hlast⟩ := ih (fun v hv => hev v (List.mem_append_left _ hv))
        fun pre v post req t t' hsplit => hc pre v (post ++ [ev]) req t t' (by rw [hsplit]; simp)
      have hev' := hev ev (by simp)
      refine ⟨hsourced.step hev' hc, ?_⟩
      rw [Engine.run_concat]
      exact received_step hev' (hsourced.continues hev' hc) hlast

/-- A chunk of the transfer is among the packets that arrive. -/
def Brought (evs : List NodeEvent) (t : Transfer) : Prop :=
  ∃ ev ∈ evs, ∃ req, ev.BringsChunk req t

theorem chunked_of_brought (hev : ∀ ev ∈ evs, ev.Chunked fun _ => True) :
    ∀ ev ∈ evs, ev.Chunked (Brought evs) := fun ev hmem env req t ha hc =>
  ⟨⟨ev, hmem, req, env, ha, hc⟩, (hev ev hmem env req t ha hc).2⟩

theorem Source.brought {t : Transfer} (h : Source e evs t) : Brought evs t := by
  induction h with
  | taken hb => exact ⟨_, List.mem_append_right _ (List.mem_singleton_self _), _, hb⟩
  | kept _ _ ih =>
      obtain ⟨ev, hmem, hb⟩ := ih
      exact ⟨ev, List.mem_append_left _ hmem, hb⟩

/-- Files of one index that are equal agree, in whatever order their chunks
arrive. -/
theorem runAgrees_of_equal (h : ∀ t t', Brought evs t → Brought evs t' → t.index = t'.index →
    t.file = t'.file) : e.RunAgrees evs := by
  intro pre ev post req t t' hsplit hb _ _ hsource hi
  obtain ⟨ev', hmem, hb'⟩ := hsource.brought
  have ht' : Brought evs t' := ⟨ev', hsplit ▸ List.mem_append_left _ hmem, hb'⟩
  have ht : Brought evs t := ⟨ev, hsplit ▸ by simp, req, hb⟩
  rw [h t' t ht' ht hi]

/-- Whatever order the chunks arrive in: if every chunk agrees with the file
that the part before it is from, `restore_fn` is only called with the file of
one transfer. -/
theorem restored_file_is_one_file (settings : Settings) (faults : StorageCall → List Bool)
    (evs : List NodeEvent) (hev : ∀ ev ∈ evs, ev.Chunked fun _ => True)
    (hc : (boot settings faults).RunAgrees evs) :
    ∀ y, ((boot settings faults).run evs).applyLock = .installing y →
      ∃ t, Brought evs t ∧ y.request.ChunkOf t ∧ y.data = t.file := by
  intro y hy
  obtain ⟨t, hw, -, hchunk, hdata⟩ := (received_run (chunked_of_brought hev) hc
    (congrArg (·.1) (incoming_construct _)) (received_construct _)).2.lock y hy
  exact ⟨t, hw, hchunk, hdata⟩

/-! ### Two files of one index -/

/-- A snapshot of index 5 whose first chunk is `a`. -/
def twoChunks (a : List UInt8) (last : UInt8) : Transfer where
  peer := "n1"
  address := "127.0.0.1:9001"
  term := 1
  index := 5
  lastTerm := 1
  config := follower.bootstrap
  file := a ++ [last]

def chunkRequest (offset : Nat) (data : List UInt8) (done : Bool) : InstallSnapshotRequest where
  term := 1
  leaderId := "n2"
  lastIncludedIndex := 5
  lastIncludedTerm := 1
  offset := offset
  data := data
  done := done
  config := some follower.bootstrap

def chunkEnvelope (t : Transfer) (offset : Nat) (data : List UInt8) (done : Bool) : Envelope where
  src := "n2"
  epoch := 1
  address := "127.0.0.1:9001"
  call := .installSnapshot (chunkRequest offset data done) t

/-- The first chunk of `b ++ [2]`, that of `a ++ [1]`, late, and the second
one of `b ++ [2]`. -/
def mixedChunks (a b : List UInt8) : List NodeEvent :=
  [.act .start,
    .receive (.call (chunkEnvelope (twoChunks b 2) 0 b false)),
    .receive (.call (chunkEnvelope (twoChunks a 1) 0 a false)),
    .receive (.call (chunkEnvelope (twoChunks b 2) snapshotChunkSize [2] true)),
    .act (.beginInstall 0)]

theorem chunkOf_first {a : List UInt8} (ha : a.length = snapshotChunkSize) (last : UInt8) :
    (chunkRequest 0 a false).ChunkOf (twoChunks a last) where
  index := rfl
  lastTerm := rfl
  config := rfl
  data := by
    show a = (a ++ [last]).take snapshotChunkSize
    rw [← ha, List.take_left]
  done := by
    show false = true ↔ (a ++ [last]).length ≤ 0 + a.length
    rw [List.length_append, List.length_singleton]
    exact ⟨fun h => (Bool.false_ne_true h).elim, fun h => by omega⟩

theorem chunkOf_last {a : List UInt8} (ha : a.length = snapshotChunkSize) (last : UInt8) :
    (chunkRequest snapshotChunkSize [last] true).ChunkOf (twoChunks a last) where
  index := rfl
  lastTerm := rfl
  config := rfl
  data := by
    show [last] = ((a ++ [last]).drop snapshotChunkSize).take snapshotChunkSize
    rw [← ha, List.drop_left, List.take_of_length_le]
    rw [ha]
    exact Nat.le_of_ble_eq_true rfl
  done := by
    show true = true ↔ (a ++ [last]).length ≤ snapshotChunkSize + 1
    rw [List.length_append, ha]
    exact ⟨fun _ => Nat.le_refl _, fun _ => rfl⟩

/-- A last chunk that is taken completes a snapshot. -/
theorem takes_last_chunk {e : Engine} {env : Envelope} {req : InstallSnapshotRequest} {t : Transfer}
    {rx : SnapshotRx} (hcall : env.call = .installSnapshot req t) (hrun : e.running = true)
    (hterm : e.node.currentTerm = req.term) (hstate : e.node.state = .follower)
    (hlt : e.node.lastApplied < req.lastIncludedIndex) (hx : e.chunkFile req = some rx)
    (hd : req.done = true) :
    (e.step (.receive (.call env))).installs = e.installs ++ [⟨env, req, rx.data ++ req.data⟩] ∧
      (e.step (.receive (.call env))).applyLock = e.applyLock ∧
      (e.step (.receive (.call env))).node.lastApplied = e.node.lastApplied := by
  refine (wp_after (P := fun e' : Engine =>
    e'.installs = e.installs ++ [⟨env, req, rx.data ++ req.data⟩] ∧ e'.applyLock = e.applyLock ∧
      e'.node.lastApplied = e.node.lastApplied)).mp ?_
  have hx' : (e.resetElectionTimer.followLeader req.leaderId req.leaderAddress).chunkFile req
      = some rx := hx
  have hlt' : ¬ req.lastIncludedIndex
      ≤ (e.resetElectionTimer.followLeader req.leaderId req.leaderAddress).node.lastApplied :=
    Nat.not_le_of_lt hlt
  simp only [NodeEvent.body, receive, handleRpc, hcall, handleInstallSnapshot, acceptLeader,
    wp_bind, wp_get, wp_ite, wp_modify, wp_pure]
  rw [if_pos hrun, if_neg (by omega), if_neg (by simp [hterm, hstate]), if_neg hlt']
  simp only [hx', wp_bind, wp_modify, wp_pure, hd, if_true]
  exact ⟨rfl, rfl, rfl⟩

theorem begins_install {e : Engine} {y : Install} (hlock : e.applyLock = .free)
    (hy : e.installs = [y]) (hlt : e.node.lastApplied < y.request.lastIncludedIndex) :
    (e.step (.act (.beginInstall 0))).applyLock = .installing y := by
  refine (wp_after (P := fun e' : Engine => e'.applyLock = .installing y)).mp ?_
  simp only [NodeEvent.body, Action.body, beginInstall, wp_bind, wp_get, hlock, hy,
    List.getElem?_cons_zero, wp_modify, wp_ite]
  rw [if_neg (by exact Nat.not_le_of_lt hlt)]
  rfl

/-- The node is about to restore neither file. -/
theorem mixed_lock {a : List UInt8} (ha : a.length = snapshotChunkSize) (b : List UInt8) :
    ∃ y, ((boot follower fun _ => []).run (mixedChunks a b)).applyLock = .installing y ∧
      y.data = a ++ [2] := by
  -- the node after the first two chunks
  obtain ⟨e, he⟩ : ∃ e, e = (boot follower fun _ => []).run ((mixedChunks a b).take 3) := ⟨_, rfl⟩
  have hrx : e.snapshotRx = some ⟨5, a⟩ := by rw [he]; rfl
  have hstate : e.running = true ∧ e.node.currentTerm = 1 ∧ e.node.state = .follower ∧
      e.node.lastApplied = 0 ∧ e.installs = [] ∧ e.applyLock = .free := by
    rw [he]
    exact ⟨rfl, rfl, rfl, rfl, rfl, rfl⟩
  obtain ⟨hrun, hterm, hfollower, happlied, hnone, hfree⟩ := hstate
  have hfile : e.chunkFile (chunkRequest snapshotChunkSize [2] true) = some ⟨5, a⟩ := by
    unfold Engine.chunkFile
    rw [if_neg (by decide), hrx]
    exact Option.filter_eq_some_iff.mpr ⟨rfl, decide_eq_true ⟨rfl, ha⟩⟩
  have hlast : (boot follower fun _ => []).run (mixedChunks a b) = (e.step (.receive (.call
      (chunkEnvelope (twoChunks b 2) snapshotChunkSize [2] true)))).step (.act (.beginInstall 0)) := by
    rw [he]
    simp only [Engine.run, mixedChunks, List.take_succ_cons, List.take_zero, List.foldl_cons,
      List.foldl_nil]
  have hcall : (chunkEnvelope (twoChunks b 2) snapshotChunkSize [2] true).call
      = .installSnapshot (chunkRequest snapshotChunkSize [2] true) (twoChunks b 2) := rfl
  obtain ⟨hinstalls, hlock, happlied'⟩ := takes_last_chunk hcall hrun hterm hfollower
    (by rw [happlied]; exact Nat.zero_lt_succ 4) hfile rfl
  rw [hnone, List.nil_append] at hinstalls
  rw [hlast]
  refine ⟨_, begins_install (hlock.trans hfree) hinstalls ?_, rfl⟩
  rw [happlied', happlied]
  exact Nat.zero_lt_succ 4

theorem chunked_act (a : Action) : NodeEvent.Chunked W (.act a) := by
  rintro env req t hcalls -
  cases hcalls

theorem chunked_chunk {t : Transfer} {offset : Nat} {data : List UInt8} {done : Bool} (hw : W t)
    (h : (chunkRequest offset data done).ChunkOf t) :
    NodeEvent.Chunked W (.receive (.call (chunkEnvelope t offset data done))) := by
  intro env req t' hcalls hcall
  cases hcalls
  obtain ⟨rfl, rfl⟩ := Call.installSnapshot.inj hcall
  exact ⟨hw, h⟩

theorem chunked_mixed {a b : List UInt8} (ha : a.length = snapshotChunkSize)
    (hb : b.length = snapshotChunkSize) :
    ∀ ev ∈ mixedChunks a b, ev.Chunked fun _ => True := by
  intro ev hev
  simp only [mixedChunks, List.mem_cons, List.not_mem_nil, or_false] at hev
  rcases hev with rfl | rfl | rfl | rfl | rfl
  · exact chunked_act _
  · exact chunked_chunk trivial (chunkOf_first hb 2)
  · exact chunked_chunk trivial (chunkOf_first ha 1)
  · exact chunked_chunk trivial (chunkOf_last hb 2)
  · exact chunked_act _

theorem brought_mixed {a b : List UInt8} {t : Transfer} (h : Brought (mixedChunks a b) t) :
    t = twoChunks b 2 ∨ t = twoChunks a 1 := by
  obtain ⟨ev, hev, req, env, hcalls, hcall⟩ := h
  simp only [mixedChunks, List.mem_cons, List.not_mem_nil, or_false] at hev
  rcases hev with rfl | rfl | rfl | rfl | rfl
  · cases hcalls
  · cases hcalls
    exact Or.inl (Call.installSnapshot.inj hcall).2.symm
  · cases hcalls
    exact Or.inr (Call.installSnapshot.inj hcall).2.symm
  · cases hcalls
    exact Or.inl (Call.installSnapshot.inj hcall).2.symm
  · cases hcalls

/-- Two files of one index, and one that is neither is restored. -/
theorem chunks_of_two_files_are_mixed :
    ¬ ∀ (settings : Settings) (faults : StorageCall → List Bool) (evs : List NodeEvent),
      (∀ ev ∈ evs, ev.Chunked fun _ => True) →
        ∀ y, ((boot settings faults).run evs).applyLock = .installing y →
          ∃ t, Brought evs t ∧ y.data = t.file := by
  intro hall
  have hlen : ∀ c : UInt8, (List.replicate snapshotChunkSize c).length = snapshotChunkSize :=
    fun c => List.length_replicate
  obtain ⟨y, hlock, hdata⟩ := mixed_lock (hlen 0) (List.replicate snapshotChunkSize 3)
  obtain ⟨t, ht, hfile⟩ := hall follower (fun _ => []) _ (chunked_mixed (hlen 0) (hlen 3)) y hlock
  rw [hdata] at hfile
  rcases brought_mixed ht with rfl | rfl
  · have hfirst := (List.append_inj hfile ((hlen 0).trans (hlen 3).symm)).1
    have hne : (0 : UInt8) ≠ 3 := by decide
    have hmem : (0 : UInt8) ∈ List.replicate snapshotChunkSize (3 : UInt8) := by
      rw [← hfirst]
      exact List.mem_replicate.mpr ⟨Nat.succ_ne_zero _, rfl⟩
    exact hne (List.mem_replicate.mp hmem).2
  · have hlast := (List.append_inj hfile rfl).2
    cases hlast

/-- The chunks of two files that differ in their last byte only. -/
theorem agrees_mixed {a : List UInt8} (ha : a.length = snapshotChunkSize) :
    e.RunAgrees (mixedChunks a a) := by
  have hfile : ∀ t, Brought (mixedChunks a a) t → t.file.take snapshotChunkSize = a := by
    intro t ht
    rcases brought_mixed ht with rfl | rfl
    · exact ha ▸ List.take_left
    · exact ha ▸ List.take_left
  intro pre ev post req t t' hsplit hb hpos _ hsource _
  have hmem : ev ∈ mixedChunks a a := hsplit ▸ by simp
  obtain ⟨ev', hmem', hb'⟩ := hsource.brought
  have ht' := hfile t' ⟨ev', hsplit ▸ List.mem_append_left _ hmem', hb'⟩
  have ht := hfile t ⟨ev, hmem, req, hb⟩
  obtain ⟨env, hcalls, hcall⟩ := hb
  simp only [mixedChunks, List.mem_cons, List.not_mem_nil, or_false] at hmem
  rcases hmem with rfl | rfl | rfl | rfl | rfl
  · cases hcalls
  · cases hcalls
    obtain ⟨rfl, -⟩ := Call.installSnapshot.inj hcall
    cases hpos
  · cases hcalls
    obtain ⟨rfl, -⟩ := Call.installSnapshot.inj hcall
    cases hpos
  · cases hcalls
    obtain ⟨rfl, -⟩ := Call.installSnapshot.inj hcall
    exact ht'.trans ht.symm
  · cases hcalls

/-- A chunk of another file of the same index comes in between, and agrees. -/
theorem restored_file_is_one_file_mixed :
    ∃ y, ((boot follower fun _ => []).run (mixedChunks (List.replicate snapshotChunkSize 0)
        (List.replicate snapshotChunkSize 0))).applyLock = .installing y ∧
      y.data = List.replicate snapshotChunkSize 0 ++ [2] ∧
      ∃ t, Brought (mixedChunks (List.replicate snapshotChunkSize 0)
        (List.replicate snapshotChunkSize 0)) t ∧ y.request.ChunkOf t ∧ y.data = t.file := by
  have hlen : (List.replicate snapshotChunkSize (0 : UInt8)).length = snapshotChunkSize :=
    List.length_replicate
  obtain ⟨y, hlock, hdata⟩ := mixed_lock hlen (List.replicate snapshotChunkSize 0)
  exact ⟨y, hlock, hdata, restored_file_is_one_file follower (fun _ => []) _
    (chunked_mixed hlen hlen) (agrees_mixed hlen) y hlock⟩

end Runs

end KvCache
