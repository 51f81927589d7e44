import DigDownload.Module.Steps
import DigDownload.Module.Windows

/-!
# A promoted module is the verified one

The staging loop keeps the invariant that what has been absorbed into the hash is
the prefix of the staging area that the finished chunks cover, and that each of
them has the hash its descriptor gives. The gates look at that prefix, promotion
cuts the staging area to it, and so the artifact is what the gates accepted. The
argument makes no assumption on the holders, the host, the checkpoint or what was
staged before.
-/

namespace DigDownload

open Slices Tiling Prog

namespace Effect

/-- A gate refused the staged module: the hash of the whole differs from the declared
one, or the anchor verifier did not answer that it is anchored. -/
def IsRefusal : Effect ModuleAsk → Prop
  | .ask (.hashGate assembled declared) => assembled ≠ declared
  | .ask (.verifyModuleAnchor _ answer) => answer ≠ .anchored
  | _ => False

/-- Neither a promotion, nor a refusal, nor a new descriptor. -/
def IsBackground (e : Effect ModuleAsk) : Prop :=
  ¬ e.IsFinalize ∧ ¬ e.IsRefusal ∧ ¬ e.IsDescriptor

theorem IsStaging.isBackground {e : Effect ModuleAsk} (h : e.IsStaging) : e.IsBackground := by
  refine ⟨?_, ?_, ?_⟩
  · unfold IsFinalize
    split
    · exact fun _ => h
    · exact id
  · unfold IsRefusal
    split
    · exact fun _ => h
    · exact fun _ => h
    · exact id
  · unfold IsDescriptor
    split
    · exact fun _ => h
    · exact id

theorem IsEntering.isBackground {e : Effect ModuleAsk} (h : e.IsEntering) : e.IsBackground := by
  refine ⟨?_, ?_, ?_⟩
  · unfold IsFinalize
    split
    · exact fun _ => h
    · exact id
  · unfold IsRefusal
    split
    · exact fun _ => h
    · exact fun _ => h
    · exact id
  · unfold IsDescriptor
    split
    · exact fun _ => h
    · exact id

end Effect

/-! ## What the staging loop leaves alone -/

/-- A stretch of a pull with effects of kind `K`: it does not promote, and it does not
change what kind of sink this is. -/
structure Keeps (K : Effect ModuleAsk → Prop) (w w' : PullWorld) : Prop where
  artifacts : w'.sink.artifacts = w.sink.artifacts
  supportsReadBack : w'.sink.supportsReadBack = w.sink.supportsReadBack
  appends : Appends K w w'

/-- A stretch of the staging loop. -/
abbrev Stages : PullWorld → PullWorld → Prop := Keeps Effect.IsStaging

section Keeps

variable {K K' : Effect ModuleAsk → Prop} {w w' w'' : PullWorld}

instance : Std.Refl (Keeps K) := ⟨fun w => ⟨rfl, rfl, Std.Refl.refl w⟩⟩

instance : IsTrans PullWorld (Keeps K) :=
  ⟨fun _ _ _ h h' => ⟨h'.artifacts.trans h.artifacts, h'.supportsReadBack.trans
    h.supportsReadBack, IsTrans.trans _ _ _ h.appends h'.appends⟩⟩

theorem Keeps.trans (h : Keeps K w w') (h' : Keeps K w' w'') : Keeps K w w'' :=
  IsTrans.trans _ _ _ h h'

theorem Keeps.mono (h : Keeps K w w') (hK : ∀ e, K e → K' e) : Keeps K' w w' :=
  ⟨h.artifacts, h.supportsReadBack, h.appends.mono hK⟩

theorem Keeps.of_quiet (h : Quiet K w w') : Keeps K w w' :=
  ⟨by rw [h.sink], by rw [h.sink], h.appends⟩

theorem Keeps.note {e : Effect ModuleAsk} (he : K e) : Keeps K w (w.note e) :=
  Keeps.of_quiet (Quiet.note he)

section Entering

variable {seams : ModuleSeams} {c : Capsule} {info : ModuleInfo} {layout : ChunkPlan}
  {state : DownloadState} {f : PullFailure}

theorem Enters.keeps (h : Enters seams c info w layout state w') :
    Keeps Effect.IsEntering w w' := by
  refine ⟨?_, ?_, h.appends⟩
  · cases h with
    | resumed | fresh => rfl
  · cases h with
    | resumed | fresh => rfl

theorem EntryFails.keeps (h : EntryFails seams c info w f w') : Keeps Effect.IsEntering w w' :=
  Keeps.of_quiet h.quiet

end Entering

end Keeps

@[simp] theorem Sink.write_artifacts (s : Sink) (off : Nat) (b : Bytes) :
    (s.write off b).artifacts = s.artifacts := by
  unfold Sink.write
  split <;> rfl

@[simp] theorem Sink.write_supportsReadBack (s : Sink) (off : Nat) (b : Bytes) :
    (s.write off b).supportsReadBack = s.supportsReadBack := by
  unfold Sink.write
  split <;> rfl

/-! ## The invariant of the staging loop -/

/-- The first `n` chunks are staged and verified, and they are what has been hashed. -/
structure StagedPrefix (seams : ModuleSeams) (info : ModuleInfo) (layout : ChunkPlan) (n : Nat)
    (acc : Staging) (w : PullWorld) : Prop where
  covers : start layout.chunkLens n ≤ w.sink.staged.length
  hashed : acc.hashed = w.sink.staged.take (start layout.chunkLens n)
  chunks : ∀ j < n, hexOf (seams.sha256
    (slice w.sink.staged (layout.chunkSpan j).1 (layout.chunkSpan j).2))
      = info.chunkHashes.getD j ""

section Staging

variable {seams : ModuleSeams} {c : Capsule} {info : ModuleInfo} {layout : ChunkPlan}
  {acc : Staging} {w w' : PullWorld} {n : Nat}

theorem StagedPrefix.zero (state : DownloadState) (w : PullWorld) :
    StagedPrefix seams info layout 0 { state, hashed := [], anyChunkVerified := false } w :=
  ⟨by simp, by simp, by simp⟩

/-- The invariant only looks at the staging area. -/
theorem StagedPrefix.congr (h : StagedPrefix seams info layout n acc w)
    (hs : w'.sink.staged = w.sink.staged) : StagedPrefix seams info layout n acc w' :=
  ⟨hs ▸ h.covers, hs ▸ h.hashed, fun j hj => by rw [hs]; exact h.chunks j hj⟩

/-- A chunk that is staged and verified extends the prefix. -/
theorem StagedPrefix.succ (h : StagedPrefix seams info layout n acc w)
    (hn : n < layout.chunkCount) {bytes : Bytes}
    (hb : bytes = slice w.sink.staged (layout.chunkSpan n).1 (layout.chunkSpan n).2)
    (ha : Attributed seams (layout.chunkSpan n).2 (info.chunkHashes.getD n "") bytes)
    (hle : (layout.chunkSpan n).1 + (layout.chunkSpan n).2 ≤ w.sink.staged.length)
    (state : DownloadState) :
    StagedPrefix seams info layout (n + 1)
      { state, hashed := acc.hashed ++ bytes, anyChunkVerified := true } w := by
  have hspan := layout.chunkSpan_of_lt hn
  refine ⟨?_, ?_, fun j hj => ?_⟩
  · rw [start_succ hn]
    rw [hspan] at hle
    exact hle
  · rw [take_start_succ _ hn, ← h.hashed, hb, hspan]
  · rcases Nat.lt_succ_iff_lt_or_eq.mp hj with hj | rfl
    · exact h.chunks j hj
    · rw [← hb]
      exact ha.2

/-- Writing chunk `n` keeps the prefix of the chunks before it. -/
theorem StagedPrefix.write (h : StagedPrefix seams info layout n acc w)
    (hn : n < layout.chunkCount) (bytes : Bytes)
    (hw : w'.sink = w.sink.write (layout.chunkSpan n).1 bytes) :
    StagedPrefix seams info layout n acc w' := by
  have hspan := layout.chunkSpan_of_lt hn
  rw [hspan] at hw
  by_cases hempty : bytes = []
  · exact h.congr (by simp [hw, Sink.write, hempty])
  have hstaged : w'.sink.staged = overwrite 0 w.sink.staged (start layout.chunkLens n) bytes := by
    simp [hw, Sink.write, hempty]
  have htake : w'.sink.staged.take (start layout.chunkLens n)
      = w.sink.staged.take (start layout.chunkLens n) := by
    rw [hstaged, take_overwrite 0 bytes (Nat.le_refl _) h.covers]
  refine ⟨?_, by rw [htake, h.hashed], fun j hj => ?_⟩
  · rw [hstaged]
    exact Nat.le_trans h.covers (le_length_overwrite _ _ _ _)
  · have hend : (layout.chunkSpan j).1 + (layout.chunkSpan j).2 ≤ start layout.chunkLens n := by
      rw [layout.chunkSpan_of_lt (Nat.lt_trans hj hn)]
      exact span_end_le (Nat.lt_trans hj hn) hj
    rw [slice_congr_take htake hend]
    exact h.chunks j hj

/-- What is read where a chunk has just been written. -/
theorem slice_write (s : Sink) (off : Nat) (bytes : Bytes) :
    slice (s.write off bytes).staged off bytes.length = bytes := by
  unfold Sink.write
  split
  · rename_i h
    simp [h, slice]
  · exact slice_overwrite_self _ _ _ _

theorem length_write (s : Sink) {off : Nat} {bytes : Bytes} (h : off ≤ s.staged.length) :
    off + bytes.length ≤ (s.write off bytes).staged.length := by
  unfold Sink.write
  split
  · rename_i hempty
    simpa [hempty] using h
  · rw [length_overwrite]
    exact Nat.le_max_right _ _

/-- One turn of the loop stages the next chunk or gives the descriptor up; it never
claims that the descriptor is proven false. -/
theorem wp_stageChunk (checkpointed : Finset Nat) (h : StagedPrefix seams info layout n acc w)
    (hn : n < layout.chunkCount) :
    wp (stageChunk seams c info layout checkpointed acc n)
      (fun acc' w' => StagedPrefix seams info layout (n + 1) acc' w' ∧ Stages w w')
      (fun f w' => f.isProvenFalse = false ∧ Stages w w') w := by
  unfold stageChunk
  dsimp only
  rw [wp_bind, wp_orTerminal]
  refine (wp_resumedChunk checkpointed n _ _ w).mono ?_ (fun _ _ h => h.elim)
  rintro r w₁ ⟨hw₁, hres⟩
  cases r with
  | some bytes =>
    obtain ⟨-, hread, hattr, rfl⟩ := hres bytes rfl
    obtain ⟨hbytes, hle, -, -⟩ := Sink.read_ok hread
    exact ⟨(h.succ hn hbytes hattr hle _).congr rfl, Keeps.note trivial⟩
  | none =>
    have hstep₁ : Stages w w₁ := by
      rcases hw₁ with rfl | ⟨a, rfl⟩
      · exact Std.Refl.refl _
      · exact Keeps.note trivial
    have hsink₁ : w₁.sink = w.sink := by
      rcases hw₁ with rfl | ⟨a, rfl⟩ <;> rfl
    have h₁ : StagedPrefix seams info layout n acc w₁ := h.congr (by rw [hsink₁])
    dsimp only
    rw [wp_bind, wp_handle]
    refine ((wp_fetchVerifiedChunk layout n w₁).and
      ((quiet_fetchVerifiedChunk layout n).wp w₁)).mono ?_ ?_
    · rintro bytes w₂ ⟨⟨hattr, -⟩, hquiet⟩
      have hstep₂ : Stages w w₂ :=
        hstep₁.trans (Keeps.of_quiet (hquiet.mono fun _ he => he.isFetching.isStaging))
      have h₂ : StagedPrefix seams info layout n acc w₂ := h₁.congr (by rw [hquiet.sink])
      rw [wp_pure, wp_bind, wp_orTerminal]
      refine wp_sinkWriteAt (fun _ => ?_) (fun e k => ?_)
      · -- the chunk is written, then checkpointed
        have hstep₃ : Stages w₂ ({ w₂ with sink := w₂.sink.write (layout.chunkSpan n).1 bytes }.note
            (.writeAt (layout.chunkSpan n).1 bytes true)) :=
          ⟨by simp, by simp, [.writeAt (layout.chunkSpan n).1 bytes true], rfl,
            by simp [Effect.IsStaging]⟩
        have h₃ : StagedPrefix seams info layout n acc ({ w₂ with
            sink := w₂.sink.write (layout.chunkSpan n).1 bytes }.note
              (.writeAt (layout.chunkSpan n).1 bytes true)) := h₂.write hn bytes rfl
        have hle : (layout.chunkSpan n).1 + (layout.chunkSpan n).2
            ≤ (w₂.sink.write (layout.chunkSpan n).1 bytes).staged.length := by
          rw [← hattr.1]
          refine length_write _ ?_
          rw [layout.chunkSpan_of_lt hn]
          exact h₂.covers
        have hslice : bytes = slice (w₂.sink.write (layout.chunkSpan n).1 bytes).staged
            (layout.chunkSpan n).1 (layout.chunkSpan n).2 := by
          rw [← hattr.1, slice_write]
        rw [wp_bind, wp_orTerminal]
        refine wp_storeSave ?_ (fun e => ?_)
        · refine ⟨(h₃.succ hn hslice hattr hle _).congr rfl,
            hstep₂.trans (hstep₃.trans ?_)⟩
          exact ⟨rfl, rfl, [.save _ true], rfl, by simp [Effect.IsStaging]⟩
        · exact ⟨rfl, hstep₂.trans (hstep₃.trans (Keeps.note trivial))⟩
      · refine ⟨rfl, hstep₂.trans ⟨by simp, by simp,
          [.writeAt (layout.chunkSpan n).1 (bytes.take k) false], rfl, by simp [Effect.IsStaging]⟩⟩
    · rintro e w₂ ⟨-, hquiet⟩
      have hstep₂ : Stages w w₂ :=
        hstep₁.trans (Keeps.of_quiet (hquiet.mono fun _ he => he.isFetching.isStaging))
      dsimp only
      split <;> exact ⟨rfl, hstep₂⟩

/-- The whole loop stages and verifies every chunk. -/
theorem wp_stageChunks (checkpointed : Finset Nat) (state : DownloadState) (w : PullWorld) :
    wp ((List.range layout.chunkCount).foldlM (stageChunk seams c info layout checkpointed)
        { state, hashed := [], anyChunkVerified := false })
      (fun acc' w' => StagedPrefix seams info layout layout.chunkCount acc' w' ∧ Stages w w')
      (fun f w' => f.isProvenFalse = false ∧ Stages w w') w := by
  refine wp_foldlM_range (I := fun n acc' w' => StagedPrefix seams info layout n acc' w' ∧
    Stages w w') ⟨StagedPrefix.zero _ _, Std.Refl.refl _⟩ _ (fun n hn acc w₁ h => ?_)
  obtain ⟨hstaged, hstep⟩ := h
  refine (wp_stageChunk checkpointed hstaged hn).mono ?_ ?_
  · rintro acc' w₂ ⟨hstaged', hstep'⟩
    exact ⟨hstaged', hstep.trans hstep'⟩
  · rintro f w₂ ⟨hf, hstep'⟩
    exact ⟨hf, hstep.trans hstep'⟩

end Staging

/-! ## The gates -/

/-- A view that lets out bytes of `module` only, each at its position. -/
def ModuleReader.ReadsOnly (reader : ModuleReader) (module : Bytes) : Prop :=
  reader.len = module.length ∧
    ∀ off len bytes, reader.readAt off len = .ok bytes → bytes = slice module off len

/-- How a pull under `info` ends well: `module` is promoted, once, after the gates have
accepted it. `attempt` is what the pull did. -/
structure Promotes (seams : ModuleSeams) (info : ModuleInfo) (module : Bytes)
    (attempt : List (Effect ModuleAsk)) : Prop where
  described : Describes seams.sha256 info module
  no_descriptor : ∀ e ∈ attempt, ¬ e.IsDescriptor
  no_refusal : ∀ e ∈ attempt, ¬ e.IsRefusal
  finalized : Effect.finalize true ∈ attempt
  finalized_once : attempt.countP (fun e => decide e.IsFinalize) = 1
  anchored : ∃ reader : ModuleReader, reader.ReadsOnly module ∧
    Effect.ask (.verifyModuleAnchor reader .anchored) ∈ attempt

/-- How a pull ends otherwise: a gate that refused was not overridden, and unless the
failure is terminal nothing was promoted. -/
structure Rejects (f : PullFailure) (w w' : PullWorld) (attempt : List (Effect ModuleAsk)) :
    Prop where
  no_descriptor : ∀ e ∈ attempt, ¬ e.IsDescriptor
  respected : (∀ e ∈ attempt, ¬ e.IsRefusal) ∨ ∀ e ∈ attempt, ¬ e.IsFinalize
  kept : (∀ e, f ≠ .terminal e) →
    w'.sink.artifacts = w.sink.artifacts ∧ ∀ e ∈ attempt, ¬ e.IsFinalize

section Gates

variable {seams : ModuleSeams} {c : Capsule} {info : ModuleInfo} {module : Bytes}
  {attempt seg : List (Effect ModuleAsk)} {f : PullFailure} {w w' w'' : PullWorld}

theorem countP_isFinalize_eq_zero (h : ∀ e ∈ seg, ¬ e.IsFinalize) :
    seg.countP (fun e => decide e.IsFinalize) = 0 := by
  rw [List.countP_eq_zero]
  simpa using h

/-- Background effects before a promotion do not matter. -/
theorem Promotes.prepend (h : Promotes seams info module attempt)
    (hseg : ∀ e ∈ seg, e.IsBackground) : Promotes seams info module (seg ++ attempt) where
  described := h.described
  no_descriptor e he := (List.mem_append.mp he).elim (fun he => (hseg e he).2.2) (h.no_descriptor e)
  no_refusal e he := (List.mem_append.mp he).elim (fun he => (hseg e he).2.1) (h.no_refusal e)
  finalized := List.mem_append_right _ h.finalized
  finalized_once := by
    rw [List.countP_append, countP_isFinalize_eq_zero fun e he => (hseg e he).1, h.finalized_once]
  anchored := h.anchored.imp fun _ hr => ⟨hr.1, List.mem_append_right _ hr.2⟩

theorem Rejects.prepend (h : Rejects f w' w'' attempt) (hw : w'.sink.artifacts = w.sink.artifacts)
    (hseg : ∀ e ∈ seg, e.IsBackground) : Rejects f w w'' (seg ++ attempt) where
  no_descriptor e he := (List.mem_append.mp he).elim (fun he => (hseg e he).2.2) (h.no_descriptor e)
  respected := h.respected.imp
    (fun hr e he => (List.mem_append.mp he).elim (fun he => (hseg e he).2.1) (hr e))
    (fun hr e he => (List.mem_append.mp he).elim (fun he => (hseg e he).1) (hr e))
  kept hf := ⟨(h.kept hf).1.trans hw, fun e he =>
    (List.mem_append.mp he).elim (fun he => (hseg e he).1) ((h.kept hf).2 e)⟩

/-- The outcome of a pull: what it did since `w`, and that this was a promotion or a
rejection. -/
def PullOk (seams : ModuleSeams) (info : ModuleInfo) (w : PullWorld) (n : Nat)
    (w' : PullWorld) : Prop :=
  ∃ module attempt, w'.trace = w.trace ++ attempt ∧ Promotes seams info module attempt ∧
    n = module.length ∧ w'.sink.artifacts = w.sink.artifacts ++ [module]

def PullError (w : PullWorld) (f : PullFailure) (w' : PullWorld) : Prop :=
  ∃ attempt, w'.trace = w.trace ++ attempt ∧ Rejects f w w' attempt

theorem PullOk.of_keeps {K : Effect ModuleAsk → Prop} (hk : Keeps K w w')
    (hK : ∀ e, K e → e.IsBackground) {n : Nat} (h : PullOk seams info w' n w'') :
    PullOk seams info w n w'' := by
  obtain ⟨module, attempt, htrace, hprom, hn, hart⟩ := h
  obtain ⟨seg, hseg, hkind⟩ := hk.appends
  exact ⟨module, seg ++ attempt, by rw [htrace, hseg, List.append_assoc],
    hprom.prepend fun e he => hK e (hkind e he), hn, by rw [hart, hk.artifacts]⟩

theorem PullError.of_keeps {K : Effect ModuleAsk → Prop} (hk : Keeps K w w')
    (hK : ∀ e, K e → e.IsBackground) (h : PullError w' f w'') : PullError w f w'' := by
  obtain ⟨attempt, htrace, hrej⟩ := h
  obtain ⟨seg, hseg, hkind⟩ := hk.appends
  exact ⟨seg ++ attempt, by rw [htrace, hseg, List.append_assoc],
    hrej.prepend hk.artifacts fun e he => hK e (hkind e he)⟩

/-- A stretch without gates is a rejection, whatever the failure. -/
theorem PullError.of_keeps_self {K : Effect ModuleAsk → Prop} (hk : Keeps K w w')
    (hK : ∀ e, K e → e.IsBackground) : PullError w f w' := by
  obtain ⟨seg, hseg, hkind⟩ := hk.appends
  have hback : ∀ e ∈ seg, e.IsBackground := fun e he => hK e (hkind e he)
  exact ⟨seg, hseg, fun e he => (hback e he).2.2, Or.inl fun e he => (hback e he).2.1,
    fun _ => ⟨hk.artifacts, fun e he => (hback e he).1⟩⟩

theorem readAt_isBackground {reads : List (Effect ModuleAsk)}
    (h : ∀ e ∈ reads, ∃ off n b, e = Effect.readAt off n b) : ∀ e ∈ reads, e.IsBackground := by
  intro e he
  obtain ⟨off, n, b, rfl⟩ := h e he
  exact ⟨id, id, id⟩

/-- The view shows the staging area, bounded by the size of the module. -/
theorem stagedReader_readsOnly {layout : ChunkPlan} (h : layout.totalSize ≤ w.sink.staged.length) :
    (stagedReader seams info layout w).toModuleReader.ReadsOnly
      (w.sink.staged.take layout.totalSize) := by
  have hshows : (stagedReader seams info layout w).Shows w.sink.staged := by
    intro off len bytes hok
    unfold stagedReader at hok
    dsimp only at hok
    split at hok
    · cases hok
    · exact (Sink.read_ok hok).1
  refine ⟨?_, fun off len bytes hok => ?_⟩
  · rw [List.length_take, Nat.min_eq_left h]
    rfl
  · obtain ⟨hbytes, hle⟩ := StagedModuleReader.readAt_ok hshows hok
    rcases hle with rfl | hle
    · simpa [slice] using hbytes
    · rw [hbytes]
      exact (slice_take hle).symm

/-- A terminal failure of a pull in which no gate refused. -/
theorem PullError.terminal {e : DownloadError} (htrace : w'.trace = w.trace ++ seg)
    (h : ∀ e ∈ seg, ¬ e.IsRefusal ∧ ¬ e.IsDescriptor) : PullError w (.terminal e) w' :=
  ⟨seg, htrace, fun e he => (h e he).2, Or.inl fun e he => (h e he).1,
    fun hf => absurd rfl (hf e)⟩

/-- A refusal: whatever the gates said, nothing was promoted. -/
theorem PullError.of_not_finalized (htrace : w'.trace = w.trace ++ seg)
    (hart : w'.sink.artifacts = w.sink.artifacts)
    (h : ∀ e ∈ seg, ¬ e.IsFinalize ∧ ¬ e.IsDescriptor) : PullError w f w' :=
  ⟨seg, htrace, fun e he => (h e he).2, Or.inr fun e he => (h e he).1,
    fun _ => ⟨hart, fun e he => (h e he).1⟩⟩

/-- A promotion after background effects that include the anchor's consent. -/
theorem Promotes.of_background {front : List (Effect ModuleAsk)} {key : String}
    {reader : ModuleReader} (hdescribed : Describes seams.sha256 info module)
    (hview : reader.ReadsOnly module)
    (hanchor : Effect.ask (.verifyModuleAnchor reader .anchored) ∈ front)
    (hback : ∀ e ∈ front, e.IsBackground) :
    Promotes seams info module (front ++ [.finalize true, .clear key true]) where
  described := hdescribed
  no_descriptor e he := (List.mem_append.mp he).elim (fun he => (hback e he).2.2) fun he => by
    simp only [List.mem_cons, List.not_mem_nil, or_false] at he
    rcases he with rfl | rfl <;> exact id
  no_refusal e he := (List.mem_append.mp he).elim (fun he => (hback e he).2.1) fun he => by
    simp only [List.mem_cons, List.not_mem_nil, or_false] at he
    rcases he with rfl | rfl <;> exact id
  finalized := by simp
  finalized_once := by
    rw [List.countP_append, countP_isFinalize_eq_zero fun e he => (hback e he).1]
    rfl
  anchored := ⟨reader, hview, List.mem_append_left _ hanchor⟩

/-- The module that the gates accepted is promoted, or nothing is. -/
theorem wp_promoteModule {key : String} {total : Nat} {reader : ModuleReader}
    {front : List (Effect ModuleAsk)} {w₀ : PullWorld}
    (hdescribed : Describes seams.sha256 info (w.sink.staged.take total))
    (htotal : total ≤ w.sink.staged.length)
    (hview : reader.ReadsOnly (w.sink.staged.take total))
    (hanchor : Effect.ask (.verifyModuleAnchor reader .anchored) ∈ front)
    (htrace : w.trace = w₀.trace ++ front) (hfront : ∀ e ∈ front, e.IsBackground)
    (hart : w.sink.artifacts = w₀.sink.artifacts) :
    wp (promoteModule seams key total) (PullOk seams info w₀) (PullError w₀) w := by
  -- what the probes of the promotion add is background too
  have hprobes : ∀ (ok : Bool) (reads : List (Effect ModuleAsk)),
      (∀ e ∈ reads, ∃ off n b, e = Effect.readAt off n b) →
      ∀ e ∈ front ++ [.truncate total ok] ++ reads, e.IsBackground := by
    intro ok reads hreads e he
    simp only [List.mem_append, List.mem_singleton] at he
    rcases he with (he | rfl) | he
    · exact hfront e he
    · exact ⟨id, id, id⟩
    · exact readAt_isBackground hreads e he
  unfold promoteModule
  rw [wp_handle]
  refine wp_promoteVerified (fun reads _ _ hreads => ?_) (fun e w₁ _ _ _ htrace₁ => ?_)
  · have hback := hprobes true reads hreads
    rw [wp_bind, wp_orTerminal]
    refine wp_storeClear ?_ (fun e => ?_)
    · refine ⟨w.sink.staged.take total,
        (front ++ [.truncate total true] ++ reads) ++ [.finalize true, .clear key true],
        by simp [htrace], Promotes.of_background hdescribed hview (by simp [hanchor]) hback, ?_, ?_⟩
      · rw [List.length_take, Nat.min_eq_left htotal]
      · simp [Sink.promote, Sink.shorten, hart]
    · have htrace₁ : w.trace ++ [.truncate total true] ++ reads ++ [.finalize true] ++
          [.clear key false] = w₀.trace ++ ((front ++ [.truncate total true] ++ reads) ++
            [.finalize true, .clear key false]) := by simp [htrace]
      refine PullError.terminal htrace₁ fun e he => ?_
      rcases List.mem_append.mp he with he | he
      · exact (hback e he).2
      · simp only [List.mem_cons, List.not_mem_nil, or_false] at he
        rcases he with rfl | rfl <;> exact ⟨id, id⟩
  · -- a refusal: the checkpoint and the staged bytes are dropped
    obtain ⟨seg, hseg, hkind⟩ : ∃ seg, w₁.trace = w₀.trace ++ seg ∧
        ∀ e ∈ seg, ¬ e.IsRefusal ∧ ¬ e.IsDescriptor := by
      rcases htrace₁ with htrace₁ | ⟨reads, fin, hfin, hreads, htrace₁⟩
      · refine ⟨front ++ [.truncate total false] ++ [], by simp [htrace₁, htrace], fun e he => ?_⟩
        exact (hprobes false [] (by simp) e he).2
      · refine ⟨(front ++ [.truncate total true] ++ reads) ++ fin, by simp [htrace₁, htrace],
          fun e he => ?_⟩
        rcases List.mem_append.mp he with he | he
        · exact (hprobes true reads hreads e he).2
        · rw [List.mem_singleton.mp (hfin he)]
          exact ⟨id, id⟩
    have hend : ∀ (a b : Bool) (e'), e' ∈ seg ++ [.clear key a, .truncate 0 b] →
        ¬ Effect.IsRefusal e' ∧ ¬ Effect.IsDescriptor e' := by
      intro a b e' he'
      rcases List.mem_append.mp he' with he' | he'
      · exact hkind e' he'
      · simp only [List.mem_cons, List.not_mem_nil, or_false] at he'
        rcases he' with rfl | rfl <;> exact ⟨id, id⟩
    rw [wp_bind, wp_ignoringFailure]
    refine wp_storeClear ?_ (fun e => ?_)
    · rw [wp_bind, wp_ignoringFailure]
      refine wp_sinkTruncate ?_ (fun e => ?_)
      · exact PullError.terminal (by simp [hseg]) (hend true true)
      · exact PullError.terminal (by simp [hseg]) (hend true false)
    · rw [wp_bind, wp_ignoringFailure]
      refine wp_sinkTruncate ?_ (fun e => ?_)
      · exact PullError.terminal (by simp [hseg]) (hend false true)
      · exact PullError.terminal (by simp [hseg]) (hend false false)

/-- The gates and the promotion, after a staging loop that verified every chunk. -/
theorem wp_gateAndPromote {layout : ChunkPlan} {acc : Staging}
    (h : StagedPrefix seams info layout layout.chunkCount acc w)
    (hsize : layout.totalSize = info.totalSize) (hlens : layout.chunkLens = info.chunkLens)
    (hhashes : info.chunkHashes.length = info.chunkLens.length) :
    wp (gateAndPromote seams c info layout acc.hashed) (PullOk seams info w) (PullError w) w := by
  have hhashed : acc.hashed = w.sink.staged.take layout.totalSize := by
    rw [h.hashed, layout.start_chunkCount]
  have hcovers : layout.totalSize ≤ w.sink.staged.length := by
    rw [← layout.start_chunkCount]
    exact h.covers
  unfold gateAndPromote
  dsimp only
  rw [wp_bind, wp_markPull]
  generalize hgate : (Effect.ask (.hashGate (hexOf (seams.sha256 acc.hashed)) info.moduleHash) :
    Effect ModuleAsk) = gate
  have hgate' : ¬ gate.IsFinalize ∧ ¬ gate.IsDescriptor := by
    rw [← hgate]
    exact ⟨id, id⟩
  split
  · exact PullError.of_not_finalized (World.note_trace w gate) rfl (by simpa using hgate')
  rename_i hhash
  rw [wp_bind, wp_read]
  split
  · exact PullError.of_not_finalized (World.note_trace w gate) rfl (by simpa using hgate')
  rw [wp_bind, wp_askSeam]
  generalize hreader : (stagedReader seams info layout (w.note gate)).toModuleReader = reader
  have htrace : ∀ answer, ((w.note gate).note (.ask (.verifyModuleAnchor reader answer))).trace
      = w.trace ++ [gate, .ask (.verifyModuleAnchor reader answer)] := by
    intro answer
    simp
  have hrefused : ∀ answer, ∀ e ∈ [gate, .ask (.verifyModuleAnchor reader answer)],
      ¬ e.IsFinalize ∧ ¬ e.IsDescriptor := by
    intro answer e he
    simp only [List.mem_cons, List.not_mem_nil, or_false] at he
    rcases he with rfl | rfl
    · exact hgate'
    · exact ⟨id, id⟩
  cases hans : seams.verifyModuleAnchor (w.note gate).tick reader c with
  | notAnchored => exact PullError.of_not_finalized (htrace _) rfl (hrefused _)
  | unavailable reason => exact PullError.of_not_finalized (htrace _) rfl (hrefused _)
  | anchored =>
    have hview : reader.ReadsOnly (w.sink.staged.take layout.totalSize) := by
      rw [← hreader]
      exact stagedReader_readsOnly hcovers
    have hdescribed : Describes seams.sha256 info (w.sink.staged.take layout.totalSize) := by
      refine ⟨?_, ?_, ?_, hhashes, fun i hi => ?_⟩
      · rw [List.length_take, Nat.min_eq_left hcovers, hsize]
      · rw [List.length_take, Nat.min_eq_left hcovers, ← hlens, layout.lens_sum]
      · rw [← hhashed]
        exact not_not.mp hhash
      · have hi' : i < layout.chunkCount := by
          rw [ChunkPlan.chunkCount, hlens]
          exact hi
        have hchunk := h.chunks i hi'
        have hle := layout.chunkSpan_le hi'
        rw [← slice_take hle] at hchunk
        simpa [layout.chunkSpan_of_lt hi', hlens, List.getD, hi] using hchunk
    refine wp_promoteModule hdescribed hcovers hview ?_ (htrace .anchored) (fun e he => ?_) rfl
    · simp
    simp only [List.mem_cons, List.not_mem_nil, or_false] at he
    rcases he with rfl | rfl
    · rw [← hgate]
      exact ⟨id, hhash, id⟩
    · exact ⟨id, fun h => h rfl, id⟩

end Gates

/-! ## A pull -/

section Pull

variable {seams : ModuleSeams} {c : Capsule} {info : ModuleInfo} {w : PullWorld}

theorem wp_stageAndPromote {layout : ChunkPlan} (state : DownloadState) (w : PullWorld)
    (hsize : layout.totalSize = info.totalSize) (hlens : layout.chunkLens = info.chunkLens)
    (hhashes : info.chunkHashes.length = info.chunkLens.length) :
    wp (pullWithDescriptor.stageAndPromote seams c info layout state) (PullOk seams info w)
      (PullError w) w := by
  unfold pullWithDescriptor.stageAndPromote
  rw [wp_bind]
  refine (wp_stageChunks state.doneRanges state.takeDone w).mono ?_ ?_
  · rintro acc w₁ ⟨hstaged, hstages⟩
    refine (wp_gateAndPromote hstaged hsize hlens hhashes).mono (fun n w₂ h => ?_) (fun f w₂ h => ?_)
    · exact PullOk.of_keeps hstages (fun _ he => he.isBackground) h
    · exact PullError.of_keeps hstages (fun _ he => he.isBackground) h
  · rintro f w₁ ⟨-, hstages⟩
    exact PullError.of_keeps_self hstages fun _ he => he.isBackground

/-- A pull under one descriptor promotes a module that the descriptor describes and the
anchor verifier accepted, or it rejects the descriptor. -/
theorem wp_pullWithDescriptor (w : PullWorld) :
    wp (pullWithDescriptor seams c info) (PullOk seams info w) (PullError w) w := by
  refine wp_pullWithDescriptor_stages (fun f w₁ hentry => ?_) (fun layout state w₁ henters => ?_)
  · exact PullError.of_keeps_self hentry.keeps fun _ => Effect.IsEntering.isBackground
  · obtain ⟨hacc, -, hsize, hlens⟩ := ChunkPlan.fromInfo_ok henters.plan
    refine (wp_stageAndPromote state w₁ hsize hlens hacc.hashes_length.symm).mono ?_ ?_
    · exact fun n w₂ h => PullOk.of_keeps henters.keeps (fun _ => Effect.IsEntering.isBackground) h
    · exact fun f w₂ h =>
        PullError.of_keeps henters.keeps (fun _ => Effect.IsEntering.isBackground) h

end Pull

/-! ## The whole run -/

/-- Between a refusal of a gate and a later promotion, another descriptor was obtained: a
gate that refused is never overridden within its attempt. -/
def RefusalsRespected (trace : List (Effect ModuleAsk)) : Prop :=
  ∀ before refusal between ok after,
    trace = before ++ refusal :: between ++ .finalize ok :: after → refusal.IsRefusal →
    ∃ e ∈ between, e.IsDescriptor

section Run

variable {trace seg : List (Effect ModuleAsk)}

theorem refusalsRespected_nil : RefusalsRespected [] := by
  intro before refusal between ok after h
  simp at h

/-- Effects that do not promote keep the discipline. -/
theorem RefusalsRespected.append (h : RefusalsRespected trace)
    (hseg : ∀ e ∈ seg, ¬ e.IsFinalize) : RefusalsRespected (trace ++ seg) := by
  intro before refusal between ok after htrace href
  rcases List.append_eq_append_iff.mp htrace with ⟨as, -, has⟩ | ⟨as, has, has'⟩
  · exact absurd trivial (hseg (.finalize ok) (by simp [has]))
  · cases as with
    | nil =>
      rw [List.nil_append] at has'
      exact absurd trivial (hseg (.finalize ok) (by simp [← has']))
    | cons e as =>
      rw [List.cons_append, List.cons.injEq] at has'
      exact h before refusal between ok as (by rw [has, has'.1]) href

/-- An attempt that starts with a new descriptor and in which no gate is overridden keeps
the discipline. -/
theorem RefusalsRespected.attempt {d : Effect ModuleAsk} (h : RefusalsRespected trace)
    (hd : d.IsDescriptor)
    (hseg : (∀ e ∈ seg, ¬ e.IsRefusal) ∨ ∀ e ∈ seg, ¬ e.IsFinalize) :
    RefusalsRespected (trace ++ d :: seg) := by
  have hnf : ¬ d.IsFinalize := by
    unfold Effect.IsFinalize
    split
    · exact fun _ => hd
    · exact id
  have hnr : ¬ d.IsRefusal := by
    unfold Effect.IsRefusal
    split
    · exact fun _ => hd
    · exact fun _ => hd
    · exact id
  rcases hseg with hseg | hseg
  · intro before refusal between ok after htrace href
    rcases List.append_eq_append_iff.mp htrace with ⟨as, has, has'⟩ | ⟨as, has, has'⟩
    · -- the promotion comes after the new descriptor
      cases as with
      | nil =>
        rw [List.nil_append, List.cons.injEq] at has'
        exact absurd (has'.1 ▸ (trivial : Effect.IsFinalize (.finalize ok))) hnf
      | cons e as =>
        rw [List.cons_append, List.cons.injEq] at has'
        obtain ⟨rfl, hseg'⟩ := has'
        rcases List.append_eq_append_iff.mp has with ⟨bs, -, hbs⟩ | ⟨bs, -, hbs⟩
        · cases bs with
          | nil =>
            rw [List.nil_append, List.cons.injEq] at hbs
            exact absurd (hbs.1 ▸ href) hnr
          | cons e' bs =>
            rw [List.cons_append, List.cons.injEq] at hbs
            exact ⟨d, by simp [hbs.2], hd⟩
        · cases bs with
          | nil =>
            rw [List.nil_append, List.cons.injEq] at hbs
            exact absurd (hbs.1 ▸ href) hnr
          | cons e' bs =>
            rw [List.cons_append, List.cons.injEq] at hbs
            exact absurd href (hseg refusal (by simp [hseg', hbs.2]))
    · cases as with
      | nil =>
        rw [List.nil_append, List.cons.injEq] at has'
        exact absurd (has'.1 ▸ (trivial : Effect.IsFinalize (.finalize ok))) hnf
      | cons e as =>
        rw [List.cons_append, List.cons.injEq] at has'
        exact h before refusal between ok as (by rw [has, has'.1]) href
  · have hall : ∀ e ∈ d :: seg, ¬ e.IsFinalize := by simpa using ⟨hnf, hseg⟩
    exact h.append hall

/-- A run that has not promoted anything yet. -/
structure Unpromoted (artifacts : List Bytes) (w : PullWorld) : Prop where
  artifacts : w.sink.artifacts = artifacts
  trace : ∀ e ∈ w.trace, ¬ e.IsFinalize

theorem Unpromoted.respected {artifacts : List Bytes} {w : PullWorld}
    (h : Unpromoted artifacts w) : RefusalsRespected w.trace := by
  simpa using refusalsRespected_nil.append h.trace

theorem Unpromoted.quiet {artifacts : List Bytes} {K : Effect ModuleAsk → Prop}
    {w w' : PullWorld} (h : Unpromoted artifacts w) (hq : Quiet K w w')
    (hK : ∀ e, K e → ¬ e.IsFinalize) : Unpromoted artifacts w' := by
  obtain ⟨seg, hseg, hkind⟩ := hq.appends
  refine ⟨by rw [hq.sink, h.artifacts], fun e he => ?_⟩
  rw [hseg, List.mem_append] at he
  exact he.elim (h.trace e) fun he => hK e (hkind e he)

/-- How a run ends well. `attempt` is what it did under the last descriptor. -/
def Delivered (seams : ModuleSeams) (artifacts : List Bytes) (n : Nat) (w : PullWorld) : Prop :=
  ∃ earlier peer info attempt module,
    w.trace = earlier ++ .ask (.getModuleInfo peer (some (.ok info))) :: attempt ∧
    (∀ e ∈ earlier, ¬ e.IsFinalize) ∧ Promotes seams info module attempt ∧ n = module.length ∧
    w.sink.artifacts = artifacts ++ [module]

variable {seams : ModuleSeams} {c : Capsule} {artifacts : List Bytes} {w : PullWorld}

theorem isDescriptorAsk_not_isFinalize (e : Effect ModuleAsk) (h : e.IsDescriptorAsk) :
    ¬ e.IsFinalize := by
  unfold Effect.IsFinalize
  split
  · exact fun _ => h
  · exact id

/-- An attempt delivers the module, or leaves the run without a promotion, or ends it
with every refusal respected. -/
theorem wp_descriptorAttempt (exclusions : DescriptorExclusions) (h : Unpromoted artifacts w) :
    wp (descriptorAttempt seams c exclusions)
      (fun r w' => match r with
        | .inl n => Delivered seams artifacts n w' ∧ RefusalsRespected w'.trace
        | .inr _ => Unpromoted artifacts w')
      (fun _ w' => RefusalsRespected w'.trace) w := by
  unfold descriptorAttempt
  rw [wp_bind, wp_read]
  dsimp only
  generalize exclusions.settle w.own = settled
  rw [wp_handle]
  refine ((wp_fetchModuleInfo settled.excluded w).and
    ((quiet_fetchModuleInfo settled.excluded).wp w)).mono ?_ ?_
  · rintro ⟨peer, info⟩ w₁ ⟨⟨-, -, seg, htrace, hseg, -⟩, hquiet⟩
    have h₁ : Unpromoted artifacts w₁ := h.quiet hquiet isDescriptorAsk_not_isFinalize
    have hearlier : ∀ e ∈ w.trace ++ seg, ¬ e.IsFinalize := by
      intro e he
      exact (List.mem_append.mp he).elim (h.trace e) fun he =>
        isDescriptorAsk_not_isFinalize e (hseg e he).1
    have hrespected : RefusalsRespected (w.trace ++ seg) := by
      simpa using refusalsRespected_nil.append hearlier
    dsimp only at htrace ⊢
    rw [wp_handle]
    refine (wp_pullWithDescriptor w₁).mono ?_ ?_
    · -- the module is delivered
      rintro n w₂ ⟨module, attempt, htrace₂, hprom, hn, hart⟩
      have hall : w₂.trace = w.trace ++ seg ++
          .ask (.getModuleInfo peer (some (.ok info))) :: attempt := by
        rw [htrace₂, htrace]
        simp
      refine ⟨⟨w.trace ++ seg, peer, info, attempt, module, hall, hearlier, hprom, hn, ?_⟩, ?_⟩
      · rw [hart, h₁.artifacts]
      · rw [hall]
        exact hrespected.attempt trivial (Or.inl hprom.no_refusal)
    · rintro f w₂ ⟨attempt, htrace₂, hrej⟩
      have hall : w₂.trace = w.trace ++ seg ++
          .ask (.getModuleInfo peer (some (.ok info))) :: attempt := by
        rw [htrace₂, htrace]
        simp
      -- the demotion, after a failure that says something about the descriptor
      have hdemote : (∀ e, f ≠ .terminal e) → ∀ (failed : PullWorld → FailedAttempt),
          wp (do
              recordIfProvenFalse seams (moduleDownloadKey c) peer f
              markPull (.demote peer)
              let w ← Prog.read
              pure (.inr (failed w)) : PullM (Nat ⊕ FailedAttempt))
            (fun r w' => match r with
              | .inl n => Delivered seams artifacts n w' ∧ RefusalsRespected w'.trace
              | .inr _ => Unpromoted artifacts w')
            (fun _ w' => RefusalsRespected w'.trace) w₂ := by
        intro hf failed
        obtain ⟨hart, hkept⟩ := hrej.kept hf
        have h₂ : Unpromoted artifacts w₂ := by
          refine ⟨by rw [hart, h₁.artifacts], fun e he => ?_⟩
          rw [htrace₂, List.mem_append] at he
          exact he.elim (h₁.trace e) (hkept e)
        rw [wp_bind]
        have hrecord : ∀ w₃ : PullWorld, Unpromoted artifacts w₃ →
            wp (do
                markPull (.demote peer)
                let w ← Prog.read
                pure (.inr (failed w)) : PullM (Nat ⊕ FailedAttempt))
              (fun r w' => match r with
                | .inl n => Delivered seams artifacts n w' ∧ RefusalsRespected w'.trace
                | .inr _ => Unpromoted artifacts w')
              (fun _ w' => RefusalsRespected w'.trace) w₃ := fun w₃ h₃ =>
          ⟨h₃.artifacts, by simpa [or_imp, forall_and, Effect.IsFinalize] using h₃.trace⟩
        unfold recordIfProvenFalse
        split
        · rw [wp_ignoringFailure]
          refine wp_storeRecordBadDescriptor (fun verdicts => hrecord _ ?_) (fun e => hrecord _ ?_)
          · exact ⟨h₂.artifacts, by simpa [or_imp, forall_and, Effect.IsFinalize] using h₂.trace⟩
          · exact ⟨h₂.artifacts, by simpa [or_imp, forall_and, Effect.IsFinalize] using h₂.trace⟩
        · exact hrecord _ h₂
      cases f with
      | terminal e =>
        show RefusalsRespected w₂.trace
        rw [hall]
        exact hrespected.attempt trivial hrej.respected
      | badDescriptor e => exact hdemote (by simp) _
      | unsatisfiableDescriptor e => exact hdemote (by simp) _
  · rintro e w₁ ⟨-, hquiet⟩
    exact h.quiet hquiet isDescriptorAsk_not_isFinalize

theorem wp_attemptLoop :
    ∀ (left : Nat) (exclusions : DescriptorExclusions) (w : PullWorld), Unpromoted artifacts w →
      wp (attemptLoop seams c left exclusions)
        (fun n w' => Delivered seams artifacts n w' ∧ RefusalsRespected w'.trace)
        (fun _ w' => RefusalsRespected w'.trace) w
  | 0, exclusions, w, h => by
      unfold attemptLoop
      rw [wp_bind]
      refine (wp_descriptorAttempt exclusions h).mono (fun r w₁ hr => ?_) (fun _ _ he => he)
      cases r with
      | inl n => exact hr
      | inr failed => exact hr.respected
  | left + 1, exclusions, w, h => by
      unfold attemptLoop
      rw [wp_bind]
      refine (wp_descriptorAttempt exclusions h).mono (fun r w₁ hr => ?_) (fun _ _ he => he)
      cases r with
      | inl n => exact hr
      | inr failed =>
        dsimp only
        split
        · exact hr.respected
        · exact wp_attemptLoop left failed.exclusions w₁ hr

/-- The state a run of `download` starts from. -/
def PullWorld.fresh (sink : Sink) (store : StateStore) : PullWorld :=
  { sink, store, trace := [], own := [] }

theorem wp_download (seams : ModuleSeams) (c : Capsule) (sink : Sink) (store : StateStore) :
    wp (download seams c)
      (fun n w' => Delivered seams sink.artifacts n w' ∧ RefusalsRespected w'.trace)
      (fun _ w' => RefusalsRespected w'.trace) (PullWorld.fresh sink store) := by
  have hstart : Unpromoted sink.artifacts (PullWorld.fresh sink store) := ⟨rfl, by simp [PullWorld.fresh]⟩
  have hnote : ∀ {w : PullWorld} {e : Effect ModuleAsk}, Unpromoted sink.artifacts w →
      ¬ e.IsFinalize → Unpromoted sink.artifacts (w.note e) := fun h he =>
    h.quiet (Quiet.note he) fun _ he => he
  exact wp_download_of_invariant hstart (fun h => hnote h id)
    (fun h => ⟨h.artifacts, h.trace⟩) (fun h => hnote h id) Unpromoted.respected
    fun _ _ h => wp_attemptLoop _ _ _ h

/-- A run that returns has promoted, exactly once, the bytes that the last descriptor
describes chunk by chunk and as a whole, and that the anchor verifier accepted while it
could read nothing but these bytes. In no attempt was anything promoted after a gate
refused, whatever the holders, the host, the checkpoints and the staged bytes. -/
theorem download_integrity (seams : ModuleSeams) (c : Capsule) (sink : Sink)
    (store : StateStore) :
    let run := download seams c (PullWorld.fresh sink store)
    (∀ n, run.1 = .ok n →
      ∃ earlier peer info attempt module,
        run.2.trace = earlier ++ .ask (.getModuleInfo peer (some (.ok info))) :: attempt ∧
        (∀ e ∈ attempt, ¬ e.IsDescriptor) ∧
        run.2.trace.countP (fun e => decide e.IsFinalize) = 1 ∧
        Effect.finalize true ∈ attempt ∧
        run.2.sink.artifacts = sink.artifacts ++ [module] ∧
        module.length = n ∧ n = info.totalSize ∧ info.chunkLens.sum = n ∧
        info.chunkHashes.length = info.chunkLens.length ∧
        (∀ i < info.chunkLens.length,
          hexOf (seams.sha256 (slice module (start info.chunkLens i) (info.chunkLens.getD i 0)))
            = info.chunkHashes.getD i "") ∧
        hexOf (seams.sha256 module) = info.moduleHash ∧
        ∃ reader : ModuleReader, Effect.ask (.verifyModuleAnchor reader .anchored) ∈ attempt ∧
          reader.len = n ∧
          ∀ off len bytes, reader.readAt off len = .ok bytes → bytes = slice module off len) ∧
    RefusalsRespected run.2.trace := by
  intro run
  have hrun := wp_iff.mp (wp_download seams c sink store)
  refine ⟨fun n hn => ?_, ?_⟩
  · obtain ⟨⟨earlier, peer, info, attempt, module, htrace, hearlier, hprom, rfl, hart⟩, -⟩ :=
      hrun.1 n hn
    obtain ⟨reader, hreader, hmem⟩ := hprom.anchored
    refine ⟨earlier, peer, info, attempt, module, htrace, hprom.no_descriptor, ?_,
      hprom.finalized, hart, rfl, hprom.described.size, hprom.described.lens_sum,
      hprom.described.hashes_length, hprom.described.chunks, hprom.described.hash, reader, hmem,
        hreader.1, hreader.2⟩
    rw [htrace, List.countP_append, List.countP_cons, hprom.finalized_once,
      countP_isFinalize_eq_zero hearlier]
    rfl
  · cases hr : run.1 with
    | ok n => exact (hrun.1 n hr).2
    | error e => exact hrun.2 e hr

end Run

end DigDownload
