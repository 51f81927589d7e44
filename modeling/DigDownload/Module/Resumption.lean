import Mathlib.Data.Finset.Range
import DigDownload.Module.Truth

/-!
# Checkpointed chunks across demotions and crashes

A node is stopped and started again any number of times; what it did is one log, and
what persists is what the log says. A chunk that was checkpointed and whose staged
bytes nothing has touched since should stay checkpointed, and should not be fetched
again under a descriptor that its bytes match. The staging loop checkpoints the chunks
it has passed, so a save drops the checkpointed chunks that the loop has not reached:
the property needs that the loop fetches nothing before it has passed them all.
-/

namespace DigDownload

open Slices Tiling Prog Past

/-! ## The property -/

namespace Effect

/-- A part of a span of the staging area was overwritten or cut away. A truncation to
nothing drops every span, an empty one too. -/
def Touches (off len : Nat) : Effect ModuleAsk → Prop
  | .writeAt offset landed _ => offset < off + len ∧ off < offset + landed.length
  | .truncate n true => n < off + len ∨ n = 0
  | _ => False

instance (off len : Nat) : DecidablePred (Touches off len)
  | .writeAt offset landed _ =>
      inferInstanceAs (Decidable (offset < off + len ∧ off < offset + landed.length))
  | .truncate n true => inferInstanceAs (Decidable (n < off + len ∨ n = 0))
  | .truncate _ false | .readAt _ _ _ | .finalize _ | .load _ _ | .save _ _ | .clear _ _
  | .recordBadDescriptor _ _ _ | .badDescriptorPeers _ _ | .ask _ => isFalse id

/-- The checkpoint that was saved. -/
def saved? : Effect ModuleAsk → Option DownloadState
  | .save state true => some state
  | _ => none

theorem saved?_eq_some {e : Effect ModuleAsk} {state : DownloadState} (h : e.saved? = some state) :
    e = .save state true := by
  unfold saved? at h
  split at h
  · rw [Option.some.injEq] at h
    rw [h]
  · cases h

/-- A checkpoint was saved. -/
def IsSave : Effect ModuleAsk → Prop
  | .save _ true => True
  | _ => False

/-- A chunk had to be fetched. -/
def IsChunkFetch : Effect ModuleAsk → Prop
  | .ask (.fetchChunk _) => True
  | _ => False

end Effect

/-- The checkpoint has chunk `i` of the plan with these lengths. -/
structure DownloadState.Records (state : DownloadState) (lens : List Nat) (i : Nat) : Prop where
  plan : state.chunkLens = lens
  done : i ∈ state.doneRanges
  lt : i < lens.length

/-- Chunk `i` was checkpointed under the key, and its staged bytes have not been touched
since. -/
def Held (key : String) (checkpoints : String → Option DownloadState) (lens : List Nat) (i : Nat)
    (log : List (Effect ModuleAsk)) : Prop :=
  Since (∃ state, checkpoints key = some state ∧ state.Records lens i)
    (fun e => ∃ state, e = .save state true ∧ state.key = key ∧ state.Records lens i)
    (Effect.Touches (start lens i) (lens.getD i 0)) log

/-- The staged bytes of chunk `i` are those the descriptor describes. -/
def Matches (sha256 : Bytes → Bytes) (sink : Sink) (info : ModuleInfo) (i : Nat) : Prop :=
  ∃ bytes, sink.read (start info.chunkLens i) (info.chunkLens.getD i 0) = .ok bytes ∧
    hexOf (sha256 bytes) = info.chunkHashes.getD i ""

instance (sha256 : Bytes → Bytes) (sink : Sink) (info : ModuleInfo) (i : Nat) :
    Decidable (Matches sha256 sink info i) :=
  match h : sink.read (start info.chunkLens i) (info.chunkLens.getD i 0) with
  | .ok bytes => decidable_of_iff (hexOf (sha256 bytes) = info.chunkHashes.getD i "")
      ⟨fun hh => ⟨bytes, h, hh⟩, fun ⟨b, hb, hh⟩ => by cases h.symm.trans hb; exact hh⟩
  | .error e => isFalse fun ⟨b, hb, _⟩ => by cases h.symm.trans hb

section Property

variable (sha256 : Bytes → Bytes) (key : String) (sink : Sink)
  (checkpoints : String → Option DownloadState)

/-- What a save keeps: every chunk that is held when it is made. -/
def SaveKeeps (before : List (Effect ModuleAsk)) (e : Effect ModuleAsk) : Prop :=
  ∀ state, e = .save state true → state.key = key → ∀ lens i, Held key checkpoints lens i before →
    state.Records lens i

/-- Every checkpoint that was saved has every chunk that was held. -/
def KeepsProgress (log : List (Effect ModuleAsk)) : Prop := AtEach (SaveKeeps key checkpoints) log

/-- A chunk that is fetched under a descriptor did not match it in the staging area when
the attempt began, unless it was not held or its checkpoint was gone. -/
def NeverRefetches (log : List (Effect ModuleAsk)) : Prop :=
  AtEach (fun before e => ∀ i, e = .ask (.fetchChunk i) → ∀ earlier peer info attempt,
    before = earlier ++ .ask (.getModuleInfo peer (some (.ok info))) :: attempt →
    (∀ e ∈ attempt, ¬ e.IsDescriptor) → Held key checkpoints info.chunkLens i earlier →
    replayCheckpoints checkpoints earlier key ≠ none →
    ¬ Matches sha256 (replaySink sink earlier) info i) log

/-- An attempt that resumes a checkpoint passes all its chunks before it fetches one: below
a checkpointed chunk, all are checkpointed and match the descriptor. -/
def GapFree (info : ModuleInfo) : Prop :=
  ∀ state, checkpoints key = some state → state.chunkLens = info.chunkLens →
    ∀ j ∈ state.doneRanges, j < state.chunkLens.length → ∀ i < j,
      i ∈ state.doneRanges ∧ Matches sha256 sink info i

/-- An attempt, which starts when a descriptor is obtained, begins like this. -/
def BeginsGapFree (before : List (Effect ModuleAsk)) : Effect ModuleAsk → Prop
  | .ask (.getModuleInfo _ (some (.ok info))) =>
      GapFree sha256 key (replaySink sink before) (replayCheckpoints checkpoints before) info
  | _ => True

/-- Every attempt of the log does. -/
def StartsGapFree (log : List (Effect ModuleAsk)) : Prop :=
  AtEach (BeginsGapFree sha256 key sink checkpoints) log

end Property

/-! ## Held chunks -/

section Held

variable {key : String} {checkpoints : String → Option DownloadState} {lens : List Nat} {i : Nat}
  {log seg : List (Effect ModuleAsk)} {e : Effect ModuleAsk}

theorem Held.lt (h : Held key checkpoints lens i log) : i < lens.length := by
  obtain ⟨before, middle, -, hset, -⟩ := h
  rcases hset with ⟨-, state, -, hrec⟩ | ⟨earlier, e, -, state, -, -, hrec⟩
  · exact hrec.lt
  · exact hrec.lt

/-- What is held after effects that save nothing was held before. -/
theorem Held.of_append (h : Held key checkpoints lens i (log ++ seg))
    (hseg : ∀ e ∈ seg, ¬ e.IsSave) :
    Held key checkpoints lens i log ∧
      ∀ e ∈ seg, ¬ e.Touches (start lens i) (lens.getD i 0) := by
  refine Since.of_append h fun e he => ?_
  rintro ⟨state, rfl, -, -⟩
  exact hseg _ he trivial

/-- After a save, what is held was held before or is in the checkpoint. -/
theorem Held.of_save {state : DownloadState}
    (h : Held key checkpoints lens i (log ++ [.save state true])) :
    (state.key = key ∧ state.Records lens i) ∨ Held key checkpoints lens i log := by
  rcases since_concat.mp h with ⟨state', hstate, hkey, hrec⟩ | ⟨hlog, -⟩
  · cases hstate
    exact Or.inl ⟨hkey, hrec⟩
  · exact Or.inr hlog

/-- The staging area dropped: nothing is held. -/
theorem not_held_truncate : ¬ Held key checkpoints lens i (log ++ [.truncate 0 true]) := by
  intro h
  obtain ⟨-, hbreak⟩ := h.of_append (by simp [Effect.IsSave])
  exact hbreak _ (List.mem_singleton_self _) (Or.inr rfl)

/-- As long as every save kept what was held, a held chunk is in the checkpoint, unless
the checkpoint was cleared. -/
theorem KeepsProgress.held (hk : KeepsProgress key checkpoints log)
    (h : Held key checkpoints lens i log) (hne : replayCheckpoints checkpoints log key ≠ none) :
    ∃ state, replayCheckpoints checkpoints log key = some state ∧ state.Records lens i := by
  induction log using List.reverseRecOn with
  | nil => exact since_nil.mp h
  | append_singleton log e ih =>
    obtain ⟨hk, hsave⟩ := atEach_concat.mp hk
    rw [replayCheckpoints_append, replayCheckpoints_singleton] at hne ⊢
    -- an effect that leaves this checkpoint alone
    have hother : e.onCheckpoints (replayCheckpoints checkpoints log) key
        = replayCheckpoints checkpoints log key →
        (∀ state, e = .save state true → state.key ≠ key) →
        ∃ state, e.onCheckpoints (replayCheckpoints checkpoints log) key = some state ∧
          state.Records lens i := by
      intro hsame hnot
      rw [hsame] at hne ⊢
      refine ih hk ?_ hne
      refine ((since_concat.mp h).resolve_left ?_).1
      rintro ⟨state, he, hkey, -⟩
      exact hnot state he hkey
    by_cases hs : ∃ state, e = .save state true ∧ state.key = key
    · obtain ⟨state, rfl, hkey⟩ := hs
      refine ⟨state, by simp [Effect.onCheckpoints, hkey], ?_⟩
      rcases h.of_save with ⟨-, hrec⟩ | hheld
      · exact hrec
      · exact hsave state rfl hkey lens i hheld
    · have hnot : ∀ state, e = .save state true → state.key ≠ key :=
        fun state he hkey => hs ⟨state, he, hkey⟩
      cases e with
      | save state ok =>
        cases ok with
        | false => exact hother rfl hnot
        | true =>
          refine hother ?_ hnot
          simp [Effect.onCheckpoints, Function.update_of_ne (hnot state rfl).symm]
      | clear k ok =>
        cases ok with
        | false => exact hother rfl hnot
        | true =>
          by_cases hk' : key = k
          · simp [Effect.onCheckpoints, hk'] at hne
          · exact hother (by simp [Effect.onCheckpoints, Function.update_of_ne hk']) hnot
      | truncate n ok => cases ok <;> exact hother rfl hnot
      | finalize ok => cases ok <;> exact hother rfl hnot
      | writeAt off landed ok => exact hother rfl hnot
      | readAt off n answer => exact hother rfl hnot
      | load k ok => exact hother rfl hnot
      | recordBadDescriptor k p ok => exact hother rfl hnot
      | badDescriptorPeers k ok => exact hother rfl hnot
      | ask a => exact hother rfl hnot

end Held

/-! ## The staging loop -/

section Pull

variable {seams : ModuleSeams} {c : Capsule} {info : ModuleInfo} {layout : ChunkPlan}
  {sha256 : Bytes → Bytes} {key : String} {checkpoints : String → Option DownloadState}
  {past : List (Effect ModuleAsk)} {acc : Staging} {w w₁ w' : PullWorld} {n : Nat}

/-- Where reads do not fail, a chunk that is not resumed was not checkpointed or does not
match the descriptor. -/
theorem wp_resumedChunk_matches (hreads : seams.host.ReadsBack)
    (hlens : layout.chunkLens = info.chunkLens) (hn : n < layout.chunkCount)
    (checkpointed : Finset Nat) (w : PullWorld) :
    wp (resumedChunk seams info checkpointed n (layout.chunkSpan n).1 (layout.chunkSpan n).2)
      (fun r _ => r = none → n ∈ checkpointed → ¬ Matches seams.sha256 w.sink info n)
      (fun _ _ => False) w := by
  have hspan : layout.chunkSpan n = (start info.chunkLens n, info.chunkLens.getD n 0) := by
    rw [← hlens, layout.chunkSpan_of_lt hn, List.getD, List.getElem?_eq_getElem hn]
    rfl
  unfold resumedChunk
  split
  · unfold readBackVerifiedChunk
    rw [wp_handle]
    refine wp_sinkReadAt_sound hreads (fun bytes hread => ?_) (fun e hread => ?_)
    · obtain ⟨hslice, hle, -, -⟩ := Sink.read_ok hread
      dsimp only
      split
      · rename_i hbad
        rintro - - ⟨bytes', hbytes', hhash⟩
        rw [hspan] at hread
        rw [hread] at hbytes'
        cases hbytes'
        rcases hbad with hlen | hhash'
        · exact hlen (by rw [hslice, length_slice_of_le hle])
        · exact hhash' hhash
      · intro h
        cases h
    · rintro - - ⟨bytes, hbytes, -⟩
      rw [hspan] at hread
      rw [hread] at hbytes
      cases hbytes
  · rename_i hnot
    exact fun _ hmem => absurd hmem hnot

/-- The staging loop at turn `n`, started in `w₁` with this checkpoint: it has kept what was
held, and what is held now is a chunk it has passed or one of the checkpoint, and then it
has written nothing yet. -/
structure Passing (key : String) (checkpoints : String → Option DownloadState)
    (past : List (Effect ModuleAsk)) (layout : ChunkPlan) (checkpointed : Finset Nat)
    (w₁ : PullWorld) (n : Nat) (acc : Staging) (w : PullWorld) : Prop where
  keeps : AppendsEach (fun before => SaveKeeps key checkpoints (past ++ before)) w₁ w
  passed : acc.state.doneRanges = Finset.range n
  plan : acc.state.chunkLens = layout.chunkLens
  held : ∀ lens i, Held key checkpoints lens i (past ++ w.trace) →
    lens = layout.chunkLens ∧ (i < n ∨ i ∈ checkpointed ∧ w.sink = w₁.sink)

/-- A stretch that saves nothing and leaves the sink alone keeps the invariant. -/
theorem Passing.quiet {K : Effect ModuleAsk → Prop} {checkpointed : Finset Nat}
    (h : Passing key checkpoints past layout checkpointed w₁ n acc w) (hq : Quiet K w w')
    (hK : ∀ e, K e → ¬ e.IsSave) :
    Passing key checkpoints past layout checkpointed w₁ n acc w' where
  keeps := by
    refine IsTrans.trans _ _ _ h.keeps (AppendsEach.of_appends hq.appends fun e he before => ?_)
    rintro state rfl
    exact absurd trivial (hK _ he)
  passed := h.passed
  plan := h.plan
  held lens i hheld := by
    obtain ⟨seg, hseg, hk⟩ := hq.appends
    rw [hseg, ← List.append_assoc] at hheld
    rw [hq.sink]
    exact h.held lens i (hheld.of_append fun e he => hK e (hk e he)).1

/-- The chunk of the turn was resumed: it is passed. -/
theorem Passing.resume {checkpointed : Finset Nat} {bytes : Bytes}
    (h : Passing key checkpoints past layout checkpointed w₁ n acc w) :
    Passing key checkpoints past layout checkpointed w₁ (n + 1)
      { state := acc.state.markDone n, hashed := acc.hashed ++ bytes, anyChunkVerified := true }
      w where
  keeps := h.keeps
  passed := by rw [DownloadState.markDone_doneRanges, h.passed, Finset.range_add_one]
  plan := h.plan
  held lens i hheld := by
    obtain ⟨hplan, hi⟩ := h.held lens i hheld
    exact ⟨hplan, hi.imp_left (Nat.lt_succ_of_lt)⟩

/-- The chunk of the turn was fetched, written and checkpointed, when the loop had reached
every held chunk: nothing beyond it is held. -/
theorem Passing.save {checkpointed : Finset Nat} {bytes : Bytes} {e : Effect ModuleAsk}
    (h : Passing key checkpoints past layout checkpointed w₁ n acc w)
    (hreached : ∀ lens i, Held key checkpoints lens i (past ++ w.trace) → i ≤ n)
    (he : ¬ e.IsSave) (htrace : w'.trace = w.trace ++ [e] ++ [.save (acc.state.markDone n) true]) :
    Passing key checkpoints past layout checkpointed w₁ (n + 1)
      { state := (acc.state.markDone n).markDone n, hashed := acc.hashed ++ bytes,
        anyChunkVerified := true } w' := by
  have hdone : (acc.state.markDone n).doneRanges = Finset.range (n + 1) := by
    rw [DownloadState.markDone_doneRanges, h.passed, Finset.range_add_one]
  have hwrite : ∀ lens i, Held key checkpoints lens i (past ++ (w.trace ++ [e])) →
      lens = layout.chunkLens ∧ i < n + 1 := by
    intro lens i hheld
    rw [← List.append_assoc] at hheld
    obtain ⟨hheld, -⟩ := hheld.of_append (by simpa using he)
    exact ⟨(h.held lens i hheld).1, Nat.lt_succ_of_le (hreached lens i hheld)⟩
  refine ⟨IsTrans.trans _ _ _ h.keeps ⟨[e] ++ [.save (acc.state.markDone n) true], by simp [htrace],
    atEach_append.mpr ⟨atEach_singleton.mpr ?_, atEach_singleton.mpr ?_⟩⟩, ?_, h.plan, ?_⟩
  · rintro state rfl
    exact absurd trivial he
  · rintro state hstate hkey lens i hheld
    cases hstate
    obtain ⟨hplan, hi⟩ := hwrite lens i (by simpa using hheld)
    exact ⟨h.plan.trans hplan.symm, by rw [hdone]; exact Finset.mem_range.mpr hi, hheld.lt⟩
  · rw [DownloadState.markDone_doneRanges, hdone]
    exact Finset.insert_eq_of_mem (Finset.self_mem_range_succ n)
  · intro lens i hheld
    rw [htrace, ← List.append_assoc] at hheld
    rcases hheld.of_save with ⟨-, hrec⟩ | hheld
    · refine ⟨hrec.plan.symm.trans h.plan, Or.inl ?_⟩
      have hmem := hrec.done
      rw [hdone] at hmem
      exact Finset.mem_range.mp hmem
    · exact (hwrite lens i hheld).imp_right Or.inl

/-- One turn of the loop, where below every checkpointed chunk all are checkpointed and
match. -/
theorem wp_stageChunk_passing (hreads : seams.host.ReadsBack)
    (hlens : layout.chunkLens = info.chunkLens) {checkpointed : Finset Nat}
    (hgap : ∀ j ∈ checkpointed, j < layout.chunkCount → ∀ i < j,
      i ∈ checkpointed ∧ Matches seams.sha256 w₁.sink info i)
    (h : Passing key checkpoints past layout checkpointed w₁ n acc w)
    (hn : n < layout.chunkCount) :
    wp (stageChunk seams c info layout checkpointed acc n)
      (Passing key checkpoints past layout checkpointed w₁ (n + 1))
      (fun _ w' => AppendsEach (fun before => SaveKeeps key checkpoints (past ++ before)) w₁ w')
      w := by
  have hnotSave : ∀ e : Effect ModuleAsk, e.IsFetchOf n → ¬ e.IsSave := by
    intro e he hs
    unfold Effect.IsSave at hs
    split at hs
    · exact he
    · exact hs
  unfold stageChunk
  dsimp only
  rw [wp_bind, wp_orTerminal]
  refine ((wp_resumedChunk checkpointed n _ _ w).and
    (wp_resumedChunk_matches hreads hlens hn checkpointed w)).mono ?_ (fun _ _ h => h.1.elim)
  rintro r w₂ ⟨⟨hw₂, -⟩, hmatch⟩
  have hquiet₂ : Quiet (fun e : Effect ModuleAsk => ¬ e.IsSave) w w₂ := by
    rcases hw₂ with rfl | ⟨a, rfl⟩
    · exact Std.Refl.refl _
    · exact Quiet.note id
  have h₂ := h.quiet hquiet₂ fun _ he => he
  cases r with
  | some bytes => exact h₂.resume
  | none =>
    -- the loop fetches here, so it has passed every held chunk but this one
    have hreached : ∀ lens i, Held key checkpoints lens i (past ++ w₂.trace) → i ≤ n := by
      intro lens i hheld
      obtain ⟨hplan, hi | ⟨hi, hsink⟩⟩ := h₂.held lens i hheld
      · exact Nat.le_of_lt hi
      · refine Nat.le_of_not_lt fun hlt => ?_
        have hlt' : i < layout.chunkCount := by
          rw [ChunkPlan.chunkCount, ← hplan]
          exact hheld.lt
        obtain ⟨hmem, hm⟩ := hgap i hi hlt' n hlt
        rw [← hsink, hquiet₂.sink] at hm
        exact hmatch rfl hmem hm
    dsimp only
    rw [wp_bind, wp_handle]
    refine ((quiet_fetchVerifiedChunk layout n).wp w₂).mono ?_ ?_
    · intro bytes w₃ hquiet₃
      have h₃ := h₂.quiet hquiet₃ hnotSave
      have hreached₃ : ∀ lens i, Held key checkpoints lens i (past ++ w₃.trace) → i ≤ n := by
        obtain ⟨seg, hseg, hk⟩ := hquiet₃.appends
        intro lens i hheld
        rw [hseg, ← List.append_assoc] at hheld
        exact hreached lens i (hheld.of_append fun e he => hnotSave e (hk e he)).1
      have hfail : ∀ {w₄ : PullWorld} {e : Effect ModuleAsk}, ¬ e.IsSave →
          w₄.trace = w₃.trace ++ [e] →
          AppendsEach (fun before => SaveKeeps key checkpoints (past ++ before)) w₁ w₄ := by
        intro w₄ e he htrace
        refine IsTrans.trans _ _ _ h₃.keeps ⟨[e], htrace, atEach_singleton.mpr ?_⟩
        rintro state rfl
        exact absurd trivial he
      rw [wp_pure, wp_bind, wp_orTerminal]
      refine wp_sinkWriteAt (fun _ => ?_) (fun e k => hfail id rfl)
      rw [wp_bind, wp_orTerminal]
      refine wp_storeSave ?_ (fun e => ?_)
      · exact h₃.save hreached₃ id rfl
      · refine IsTrans.trans _ _ _ (hfail (e := .writeAt (layout.chunkSpan n).1 bytes true) id rfl)
          (AppendsEach.note ?_)
        rintro state hstate
        cases hstate
    · intro e w₃ hquiet₃
      have h₃ := h₂.quiet hquiet₃ hnotSave
      dsimp only
      split <;> exact h₃.keeps

/-- The whole loop. -/
theorem wp_stageChunks_passing (hreads : seams.host.ReadsBack)
    (hlens : layout.chunkLens = info.chunkLens) {checkpointed : Finset Nat}
    (hgap : ∀ j ∈ checkpointed, j < layout.chunkCount → ∀ i < j,
      i ∈ checkpointed ∧ Matches seams.sha256 w.sink info i) {state : DownloadState}
    (hstate : state.chunkLens = layout.chunkLens)
    (hheld : ∀ lens i, Held key checkpoints lens i (past ++ w.trace) →
      lens = layout.chunkLens ∧ i ∈ checkpointed) :
    wp ((List.range layout.chunkCount).foldlM (stageChunk seams c info layout checkpointed)
        { state := state.takeDone, hashed := [], anyChunkVerified := false })
      (fun _ w' => AppendsEach (fun before => SaveKeeps key checkpoints (past ++ before)) w w')
      (fun _ w' => AppendsEach (fun before => SaveKeeps key checkpoints (past ++ before)) w w')
      w := by
  have hstart : Passing key checkpoints past layout checkpointed w 0
      { state := state.takeDone, hashed := [], anyChunkVerified := false } w :=
    ⟨Std.Refl.refl w, rfl, hstate, fun lens i h => (hheld lens i h).imp_right fun hi =>
      Or.inr ⟨hi, rfl⟩⟩
  exact (wp_foldlM_range hstart layout.chunkCount fun n hn acc w₂ h =>
    wp_stageChunk_passing hreads hlens hgap h hn).mono (fun _ _ h => h.keeps) (fun _ _ h => h)

/-! ## A pull -/

theorem isGating_not_isSave {e : Effect ModuleAsk} (h : e.IsGating) : ¬ e.IsSave := by
  intro hs
  unfold Effect.IsSave at hs
  split at hs
  · exact h
  · exact hs

theorem isEntering_not_isSave {e : Effect ModuleAsk} (h : e.IsEntering) : ¬ e.IsSave := by
  intro hs
  unfold Effect.IsSave at hs
  split at hs
  · exact h
  · exact hs

/-- Effects of a kind that saves nothing keep what is held. -/
theorem appendsEach_of_not_isSave {K : Effect ModuleAsk → Prop} (h : Appends K w w')
    (hK : ∀ e, K e → ¬ e.IsSave) :
    AppendsEach (fun before => SaveKeeps key checkpoints (past ++ before)) w w' := by
  refine AppendsEach.of_appends h fun e he before => ?_
  rintro state rfl
  exact absurd trivial (hK _ he)

/-- A pull under a descriptor keeps what is held, if the attempt begins gap-free. -/
theorem wp_pullWithDescriptor_keeps (hreads : seams.host.ReadsBack)
    (hgap : GapFree seams.sha256 (moduleDownloadKey c) w.sink w.store.checkpoints info)
    (hheld : ∀ lens i, Held (moduleDownloadKey c) checkpoints lens i (past ++ w.trace) →
      w.store.checkpoints (moduleDownloadKey c) ≠ none →
      ∃ state, w.store.checkpoints (moduleDownloadKey c) = some state ∧ state.Records lens i) :
    wp (pullWithDescriptor seams c info)
      (fun _ => AppendsEach (fun before => SaveKeeps (moduleDownloadKey c) checkpoints
        (past ++ before)) w)
      (fun _ => AppendsEach (fun before => SaveKeeps (moduleDownloadKey c) checkpoints
        (past ++ before)) w) w := by
  refine wp_pullWithDescriptor_stages (fun f w₁ hentry => ?_) (fun layout state w₁ henters => ?_)
  · exact appendsEach_of_not_isSave hentry.quiet.appends fun _ => isEntering_not_isSave
  obtain ⟨-, -, -, hlens⟩ := ChunkPlan.fromInfo_ok henters.plan
  have hbefore : AppendsEach (fun before => SaveKeeps (moduleDownloadKey c) checkpoints
      (past ++ before)) w w₁ :=
    appendsEach_of_not_isSave henters.appends fun _ => isEntering_not_isSave
  -- the checkpoint has all that is held
  have hstart : (∀ j ∈ state.doneRanges, j < layout.chunkCount → ∀ i < j,
        i ∈ state.doneRanges ∧ Matches seams.sha256 w₁.sink info i) ∧
      ∀ lens i, Held (moduleDownloadKey c) checkpoints lens i (past ++ w₁.trace) →
        lens = layout.chunkLens ∧ i ∈ state.doneRanges := by
    cases henters with
    | resumed hplan hload hsame =>
      constructor
      · intro j hj hlt
        have hlt' : j < state.chunkLens.length := by
          rw [hsame]
          exact hlt
        exact hgap state hload (hsame.trans hlens) j hj hlt'
      · intro lens i hheld₁
        have hquiet : Quiet Effect.IsEntering w (afterLoad seams c info w true) :=
          quiet_afterLoad true
        obtain ⟨seg, hseg, hkind⟩ := hquiet.appends
        rw [hseg, ← List.append_assoc] at hheld₁
        have hw := (hheld₁.of_append fun e he => isEntering_not_isSave (hkind e he)).1
        obtain ⟨prev, hprev, hrec⟩ := hheld lens i hw (by simp [hload])
        rw [hload, Option.some.injEq] at hprev
        subst hprev
        exact ⟨hrec.plan.symm.trans hsame, hrec.done⟩
    | fresh =>
      constructor
      · intro j hj
        simp [DownloadState.new] at hj
      · intro lens i hheld₁
        rw [World.note_trace, ← List.append_assoc] at hheld₁
        exact absurd hheld₁ not_held_truncate
  rw [pullWithDescriptor.stageAndPromote, wp_bind]
  refine (wp_stageChunks_passing hreads hlens hstart.1 henters.chunkLens hstart.2).mono ?_
    (fun _ _ h => IsTrans.trans _ _ _ hbefore h)
  intro acc w₂ h₂
  have hgates : Steps (Appends Effect.IsGating)
      (gateAndPromote seams c info layout acc.hashed) :=
    steps_gateAndPromote closedUnder_appends (fun _ h => h) layout acc.hashed
  have hafter : ∀ w₃, Appends Effect.IsGating w₂ w₃ →
      AppendsEach (fun before => SaveKeeps (moduleDownloadKey c) checkpoints
        (past ++ before)) w w₃ := fun w₃ h₃ =>
    IsTrans.trans _ _ _ (IsTrans.trans _ _ _ hbefore h₂)
      (appendsEach_of_not_isSave h₃ fun _ => isGating_not_isSave)
  exact (hgates.wp w₂).mono (fun _ => hafter) (fun _ => hafter)

/-! ## A resumed chunk is not fetched -/

/-- Writing an earlier chunk leaves a matching one alone. -/
theorem Matches.write {sink : Sink} {i : Nat} {bytes : Bytes} (h : Matches sha256 sink info i)
    (hlens : layout.chunkLens = info.chunkLens) (hi : i < layout.chunkCount) (hn : n < i)
    (hlen : bytes.length = (layout.chunkSpan n).2) :
    Matches sha256 (sink.write (layout.chunkSpan n).1 bytes) info i := by
  obtain ⟨b, hread, hhash⟩ := h
  obtain ⟨hslice, hle, hfits, hsup⟩ := Sink.read_ok hread
  have hnc : n < layout.chunkCount := Nat.lt_trans hn hi
  rw [layout.chunkSpan_of_lt hnc] at hlen ⊢
  have hend : start layout.chunkLens n + bytes.length ≤ start info.chunkLens i := by
    rw [hlen, ← hlens]
    exact span_end_le hnc hn
  unfold Sink.write
  split
  · exact ⟨b, hread, hhash⟩
  · have hle' := Nat.le_trans hle (le_length_overwrite 0 sink.staged (start layout.chunkLens n) bytes)
    refine ⟨b, ?_, hhash⟩
    rw [hslice, ← slice_overwrite_disjoint 0 bytes (Or.inr hend) hle]
    exact Sink.read_of_le hsup hle' hfits

/-- The staging loop never fetches a checkpointed chunk that matches. -/
theorem wp_stageChunks_resumes (hreads : seams.host.ReadsBack)
    (hlens : layout.chunkLens = info.chunkLens) {checkpointed : Finset Nat} {i : Nat}
    (hmem : i ∈ checkpointed) (hi : i < layout.chunkCount) (acc : Staging)
    (hm : Matches seams.sha256 w.sink info i) :
    wp ((List.range layout.chunkCount).foldlM (stageChunk seams c info layout checkpointed) acc)
      (fun _ => Appends (fun e => e ≠ .ask (.fetchChunk i)) w)
      (fun _ => Appends (fun e => e ≠ .ask (.fetchChunk i)) w) w := by
  have hloop := wp_foldlM_range (f := stageChunk seams c info layout checkpointed)
    (I := fun n _ w' => Appends (fun e => e ≠ .ask (.fetchChunk i)) w w' ∧
      (n ≤ i → Matches seams.sha256 w'.sink info i))
    (E := fun _ => Appends (fun e => e ≠ .ask (.fetchChunk i)) w)
    (b := acc) (s := w) ⟨Std.Refl.refl w, fun _ => hm⟩ layout.chunkCount ?_
  · exact hloop.mono (fun _ _ h => h.1) (fun _ _ h => h)
  rintro n hn acc w₁ ⟨happ, hmatch⟩
  have hnote : ∀ {w₂ : PullWorld} {e : Effect ModuleAsk} {w₃ : PullWorld},
      Appends (fun e => e ≠ .ask (.fetchChunk i)) w w₂ → e ≠ .ask (.fetchChunk i) →
      w₃.trace = w₂.trace ++ [e] → Appends (fun e => e ≠ .ask (.fetchChunk i)) w w₃ :=
    fun h he ht => IsTrans.trans _ _ _ h ⟨[_], ht, by simpa using he⟩
  unfold stageChunk
  dsimp only
  rw [wp_bind, wp_orTerminal]
  refine ((wp_resumedChunk checkpointed n _ _ w₁).and
    (wp_resumedChunk_matches hreads hlens hn checkpointed w₁)).mono ?_ (fun _ _ h => h.1.elim)
  rintro r w₂ ⟨⟨hw₂, -⟩, hnone⟩
  have happ₂ : Appends (fun e => e ≠ .ask (.fetchChunk i)) w w₂ := by
    rcases hw₂ with rfl | ⟨a, rfl⟩
    · exact happ
    · exact hnote happ (by simp) rfl
  have hsink₂ : w₂.sink = w₁.sink := by
    rcases hw₂ with rfl | ⟨a, rfl⟩ <;> rfl
  cases r with
  | some bytes => exact ⟨happ₂, fun hle => by rw [hsink₂]; exact hmatch (Nat.le_of_succ_le hle)⟩
  | none =>
    have hne : n ≠ i := by
      rintro rfl
      exact hnone rfl hmem (hmatch (Nat.le_refl _))
    dsimp only
    rw [wp_bind, wp_handle]
    refine ((wp_fetchVerifiedChunk layout n w₂).and
      ((quiet_fetchVerifiedChunk layout n).wp w₂)).mono ?_ ?_
    · rintro bytes w₃ ⟨⟨hattr, -⟩, hquiet⟩
      have happ₃ : Appends (fun e => e ≠ .ask (.fetchChunk i)) w w₃ := by
        refine IsTrans.trans _ _ _ happ₂ (hquiet.appends.mono ?_)
        rintro e he rfl
        exact hne he.symm
      rw [wp_pure, wp_bind, wp_orTerminal]
      refine wp_sinkWriteAt (fun _ => ?_) (fun e k => hnote happ₃ (by simp) rfl)
      rw [wp_bind, wp_orTerminal]
      have happ₄ : Appends (fun e => e ≠ .ask (.fetchChunk i)) w
          ({ w₃ with sink := w₃.sink.write (layout.chunkSpan n).1 bytes }.note
            (.writeAt (layout.chunkSpan n).1 bytes true)) := hnote happ₃ (by simp) rfl
      refine wp_storeSave ⟨hnote happ₄ (by simp) rfl, fun hle => ?_⟩
        (fun e => hnote happ₄ (by simp) rfl)
      have hold : Matches seams.sha256 w₃.sink info i := by
        rw [hquiet.sink, hsink₂]
        exact hmatch (Nat.le_of_succ_le hle)
      exact hold.write hlens hi hle hattr.1
    · rintro e w₃ ⟨-, hquiet⟩
      have happ₃ : Appends (fun e => e ≠ .ask (.fetchChunk i)) w w₃ := by
        refine IsTrans.trans _ _ _ happ₂ (hquiet.appends.mono ?_)
        rintro e he rfl
        exact hne he.symm
      dsimp only
      split <;> exact happ₃

/-- A pull never fetches a checkpointed chunk whose staged bytes match its descriptor. -/
theorem wp_pullWithDescriptor_resumes (hreads : seams.host.ReadsBack) {i : Nat}
    {state : DownloadState} (hstate : w.store.checkpoints (moduleDownloadKey c) = some state)
    (hrec : state.Records info.chunkLens i) (hm : Matches seams.sha256 w.sink info i) :
    wp (pullWithDescriptor seams c info)
      (fun _ => Appends (fun e => e ≠ .ask (.fetchChunk i)) w)
      (fun _ => Appends (fun e => e ≠ .ask (.fetchChunk i)) w) w := by
  have hunfetched : ∀ e : Effect ModuleAsk, e.IsEntering ∨ e.IsGating → e ≠ .ask (.fetchChunk i) := by
    rintro e he rfl
    exact he.elim id id
  refine wp_pullWithDescriptor_stages (fun f w₁ hentry => ?_) (fun layout entered w₁ henters => ?_)
  · exact hentry.quiet.appends.mono fun e he => hunfetched e (Or.inl he)
  obtain ⟨-, -, -, hlens⟩ := ChunkPlan.fromInfo_ok henters.plan
  have happ : Appends (fun e => e ≠ .ask (.fetchChunk i)) w w₁ :=
    henters.appends.mono fun e he => hunfetched e (Or.inl he)
  have hi : i < layout.chunkCount := by
    rw [ChunkPlan.chunkCount, hlens]
    exact hrec.lt
  have hresumed : i ∈ entered.doneRanges ∧ w₁.sink = w.sink := by
    cases henters with
    | resumed hplan hload hsame =>
      rw [hstate, Option.some.injEq] at hload
      subst hload
      exact ⟨hrec.done, rfl⟩
    | fresh hplan hother => exact absurd (hrec.plan.trans hlens.symm) (hother state hstate)
  rw [pullWithDescriptor.stageAndPromote, wp_bind]
  refine (wp_stageChunks_resumes hreads hlens hresumed.1 hi _ (hresumed.2 ▸ hm)).mono ?_
    (fun _ _ h => IsTrans.trans _ _ _ happ h)
  intro acc w₂ h₂
  have hgates : Steps (Appends Effect.IsGating)
      (gateAndPromote seams c info layout acc.hashed) :=
    steps_gateAndPromote closedUnder_appends (fun _ h => h) layout acc.hashed
  have hafter : ∀ w₃, Appends Effect.IsGating w₂ w₃ →
      Appends (fun e => e ≠ .ask (.fetchChunk i)) w w₃ := fun w₃ h₃ =>
    IsTrans.trans _ _ _ (IsTrans.trans _ _ _ happ h₂)
      (h₃.mono fun e he => hunfetched e (Or.inr he))
  exact (hgates.wp w₂).mono (fun _ => hafter) (fun _ => hafter)

end Pull

/-! ## A log of crashed runs -/

/-- One run of the pull: its node and its holders, the verdicts it remembers, and after how
many effects it was stopped. -/
structure CrashedRun where
  seams : ModuleSeams
  verdicts : String → List BadDescriptorVerdict
  steps : Nat

/-- What the runs did, one after the other, each from what the one before it left. -/
def runLog (c : Capsule) : List CrashedRun → Sink → (String → Option DownloadState) →
    List (Effect ModuleAsk)
  | [], _, _ => []
  | r :: runs, sink, checkpoints =>
      let done := (download r.seams c
        (PullWorld.fresh sink { checkpoints, verdicts := r.verdicts })).2.trace.take r.steps
      done ++ runLog c runs (replaySink sink done) (replayCheckpoints checkpoints done)

section History

variable (sha256 : Bytes → Bytes) (key : String) (sink : Sink)
  (checkpoints : String → Option DownloadState)

/-- What every effect of a log meets: a save keeps what is held if every attempt so far
began gap-free, and a chunk that is fetched did not match a checkpoint that has it. -/
structure Disciplined (before : List (Effect ModuleAsk)) (e : Effect ModuleAsk) : Prop where
  keeps : StartsGapFree sha256 key sink checkpoints before → SaveKeeps key checkpoints before e
  fetches : ∀ i, e = .ask (.fetchChunk i) → ∀ earlier peer info attempt state,
    before = earlier ++ .ask (.getModuleInfo peer (some (.ok info))) :: attempt →
    (∀ e ∈ attempt, ¬ e.IsDescriptor) →
    replayCheckpoints checkpoints earlier key = some state → state.Records info.chunkLens i →
    ¬ Matches sha256 (replaySink sink earlier) info i

/-- A run after an earlier log: what persists is what the whole log says. -/
structure InHistory (past : List (Effect ModuleAsk)) (w : PullWorld) : Prop where
  each : AtEach (Disciplined sha256 key sink checkpoints) (past ++ w.trace)
  sink_eq : w.sink = replaySink sink (past ++ w.trace)
  checkpoints_eq : w.store.checkpoints = replayCheckpoints checkpoints (past ++ w.trace)

variable {sha256 key sink checkpoints} {past log : List (Effect ModuleAsk)} {w w' : PullWorld}
  {seams : ModuleSeams} {c : Capsule} {info : ModuleInfo}

theorem keepsProgress_of_disciplined
    (h : AtEach (Disciplined sha256 key sink checkpoints) log)
    (hstarts : StartsGapFree sha256 key sink checkpoints log) : KeepsProgress key checkpoints log := by
  intro before e after hlog
  refine (h before e after hlog).keeps ?_
  rw [hlog] at hstarts
  exact (atEach_append.mp hstarts).1

theorem disciplined_of_silent {before : List (Effect ModuleAsk)} {e : Effect ModuleAsk}
    (hs : ¬ e.IsSave) (hf : ¬ e.IsChunkFetch) : Disciplined sha256 key sink checkpoints before e where
  keeps := by
    rintro - state rfl
    exact absurd trivial hs
  fetches := by
    rintro i rfl
    exact absurd trivial hf

theorem InHistory.replays (h : InHistory sha256 key sink checkpoints past w) (hr : Replays w w')
    (heach : AtEach (Disciplined sha256 key sink checkpoints) (past ++ w'.trace)) :
    InHistory sha256 key sink checkpoints past w' := by
  obtain ⟨seg, hseg, hsink, hstore⟩ := hr
  refine ⟨heach, ?_, ?_⟩
  · rw [hsink, h.sink_eq, hseg, ← replaySink_append, List.append_assoc]
  · rw [hstore, h.checkpoints_eq, hseg, ← replayCheckpoints_append, List.append_assoc]

/-- A stretch that saves nothing and fetches no chunk. -/
theorem InHistory.extend {K : Effect ModuleAsk → Prop}
    (h : InHistory sha256 key sink checkpoints past w) (hr : Replays w w')
    (happ : Appends K w w') (hK : ∀ e, K e → ¬ e.IsSave ∧ ¬ e.IsChunkFetch) :
    InHistory sha256 key sink checkpoints past w' := by
  refine h.replays hr ?_
  obtain ⟨seg, hseg, hk⟩ := happ
  rw [hseg, ← List.append_assoc]
  refine atEach_append.mpr ⟨h.each, atEach_of_forall fun e he before => ?_⟩
  exact disciplined_of_silent (hK e (hk e he)).1 (hK e (hk e he)).2

theorem InHistory.note {e : Effect ModuleAsk} (h : InHistory sha256 key sink checkpoints past w)
    (hs : e.Silent) (hf : ¬ e.IsChunkFetch) :
    InHistory sha256 key sink checkpoints past (w.note e) := by
  refine h.extend (closedUnderRun_replays.effect.note w trivial hs) (K := (· = e))
    ⟨[e], rfl, by simp⟩ ?_
  rintro _ rfl
  refine ⟨fun hsave => ?_, hf⟩
  unfold Effect.IsSave at hsave
  split at hsave
  · exact hs
  · exact hsave

/-- The pull under a descriptor that was just obtained. -/
theorem InHistory.pull {peer : String} {before : List (Effect ModuleAsk)}
    (hreads : seams.host.ReadsBack)
    (h : InHistory seams.sha256 (moduleDownloadKey c) sink checkpoints past w)
    (hd : past ++ w.trace = before ++ [.ask (.getModuleInfo peer (some (.ok info)))]) :
    InHistory seams.sha256 (moduleDownloadKey c) sink checkpoints past
      (pullWithDescriptor seams c info w).2 := by
  have hsilent : ∀ {s : Sink}, replaySink s (before ++
      [Effect.ask (.getModuleInfo peer (some (.ok info)))]) = replaySink s before := by
    intro s
    rw [replaySink_append]
    rfl
  have hsilent' : ∀ {cps}, replayCheckpoints cps (before ++
      [Effect.ask (.getModuleInfo peer (some (.ok info)))]) = replayCheckpoints cps before := by
    intro cps
    rw [replayCheckpoints_append]
    rfl
  have hsink : w.sink = replaySink sink before := by rw [h.sink_eq, hd, hsilent]
  have hcps : w.store.checkpoints = replayCheckpoints checkpoints before := by
    rw [h.checkpoints_eq, hd, hsilent']
  refine h.replays (steps_pullWithDescriptor closedUnderRun_replays.pull w) ?_
  have happends : Steps (Appends fun e => ¬ Effect.IsBetween e)
      (pullWithDescriptor seams c info) := steps_pullWithDescriptor closedUnderPull_appends
  obtain ⟨seg, hseg, hkind⟩ := happends w
  rw [hseg, ← List.append_assoc]
  refine atEach_append.mpr ⟨h.each, fun front e after hsplit => ⟨fun hstarts => ?_, ?_⟩⟩
  · -- a save: the attempt began gap-free, and so did all before it
    obtain ⟨hstarts₀, -⟩ := atEach_append.mp hstarts
    have hgap : GapFree seams.sha256 (moduleDownloadKey c) w.sink w.store.checkpoints info := by
      rw [hsink, hcps]
      exact hstarts₀ before _ [] hd
    have hkeeps := keepsProgress_of_disciplined h.each hstarts₀
    have hrun : AppendsEach (fun before => SaveKeeps (moduleDownloadKey c) checkpoints
        (past ++ before)) w (pullWithDescriptor seams c info w).2 :=
      wp_same.mp (wp_pullWithDescriptor_keeps hreads hgap fun lens i hheld hne => by
        rw [h.checkpoints_eq] at hne ⊢
        exact hkeeps.held hheld hne)
    obtain ⟨seg', hseg', heach⟩ := hrun
    rw [hseg, List.append_cancel_left_eq] at hseg'
    subst hseg'
    rw [List.append_assoc]
    exact heach front e after hsplit
  · rintro i rfl earlier p info' attempt state hearlier hattempt hstate hrec hm
    -- the descriptor obtained last is that of this pull
    have hfront : ∀ e ∈ front, ¬ e.IsDescriptor := fun e he hdesc => by
      refine hkind e (by rw [hsplit]; simp [he]) ?_
      unfold Effect.IsDescriptor at hdesc
      split at hdesc
      · trivial
      · exact hdesc.elim
    rcases append_eq_append_cons_iff.mp hearlier with ⟨rest, hrest, rfl⟩ | ⟨f, hf, -⟩
    · rw [hd] at hrest
      rcases append_eq_append_cons_iff.mp hrest with ⟨rest', -, rfl⟩ | ⟨f, hf, rfl⟩
      · exact hattempt (.ask (.getModuleInfo peer (some (.ok info)))) (by simp) trivial
      · cases f with
        | nil =>
          rw [List.nil_append, List.cons.injEq] at hf
          obtain ⟨hinfo, -⟩ := hf
          cases hinfo
          rw [List.append_nil, ← hcps] at hstate
          rw [List.append_nil, ← hsink] at hm
          obtain ⟨seg', hseg', hne⟩ :=
            wp_same.mp (wp_pullWithDescriptor_resumes hreads hstate hrec hm)
          rw [hseg, List.append_cancel_left_eq] at hseg'
          subst hseg'
          exact hne (.ask (.fetchChunk i)) (by rw [hsplit]; simp) rfl
        | cons x f => simp at hf
    · exact hfront (.ask (.getModuleInfo p (some (.ok info')))) (by simp [hf]) trivial

theorem InHistory.descriptorAttempt (hreads : seams.host.ReadsBack)
    (h : InHistory seams.sha256 (moduleDownloadKey c) sink checkpoints past w)
    (exclusions : DescriptorExclusions) :
    InHistory seams.sha256 (moduleDownloadKey c) sink checkpoints past
      (descriptorAttempt seams c exclusions w).2 := by
  have hask : ∀ e : Effect ModuleAsk, e.IsDescriptorAsk → ¬ e.IsSave ∧ ¬ e.IsChunkFetch := by
    intro e he
    unfold Effect.IsDescriptorAsk at he
    split at he
    · exact ⟨id, id⟩
    · exact he.elim
  have hasks : ∀ excluded, Replays w (fetchModuleInfo seams c excluded w).2 := fun excluded =>
    steps_fetchModuleInfo (R := Replays) (fun w e he => by
      refine closedUnderRun_replays.effect.note w trivial ?_
      unfold Effect.IsDescriptorAsk at he
      split at he
      · trivial
      · exact he.elim) excluded w
  refine wp_same.mp ?_
  unfold DigDownload.descriptorAttempt
  rw [wp_bind, wp_read]
  dsimp only
  generalize exclusions.settle w.own = settled
  have h₁ : InHistory seams.sha256 (moduleDownloadKey c) sink checkpoints past
      (fetchModuleInfo seams c settled.excluded w).2 :=
    h.extend (hasks _) (quiet_fetchModuleInfo settled.excluded w).appends hask
  rw [wp_handle]
  refine ((wp_fetchModuleInfo settled.excluded w).and (wp_iff.mpr ⟨fun _ _ => h₁, fun _ _ => h₁⟩)).mono
    ?_ (fun _ _ he => he.2)
  rintro ⟨source, info⟩ w₁ ⟨⟨-, -, asks, htrace, -, -⟩, h₁⟩
  have hd : past ++ w₁.trace
      = (past ++ w.trace ++ asks) ++ [.ask (.getModuleInfo source (some (.ok info)))] := by
    rw [htrace]
    simp
  have h₂ := h₁.pull hreads hd
  dsimp only
  rw [wp_handle]
  refine wp.mono (wp_same.mpr h₂) (fun _ _ h => h) (fun f w₂ h₂ => ?_)
  have hdemote : ∀ w₃, InHistory seams.sha256 (moduleDownloadKey c) sink checkpoints past w₃ →
      InHistory seams.sha256 (moduleDownloadKey c) sink checkpoints past
        (w₃.note (.ask (.demote source))) := fun w₃ h₃ => h₃.note trivial id
  cases f with
  | terminal e => exact h₂
  | unsatisfiableDescriptor e => exact hdemote w₂ h₂
  | badDescriptor e =>
    refine (wp_bind _ _).mpr (wp_ignoringFailure.mpr ?_)
    have hreplays : Steps Replays (storeRecordBadDescriptor seams.host (moduleDownloadKey c) source :
        PullM Unit) := steps_storeRecordBadDescriptor closedUnderRun_replays.effect fun _ => trivial
    have h₃ := h₂.extend (K := fun e => ¬ e.IsSave ∧ ¬ e.IsChunkFetch) (hreplays w₂)
      (steps_storeRecordBadDescriptor closedUnder_appends (fun _ => ⟨id, id⟩) w₂)
      (fun _ h => h)
    exact (wp_same.mpr h₃).mono (fun _ => hdemote) (fun _ => hdemote)

theorem InHistory.attemptLoop (hreads : seams.host.ReadsBack) :
    ∀ (left : Nat) (exclusions : DescriptorExclusions) (w : PullWorld),
      InHistory seams.sha256 (moduleDownloadKey c) sink checkpoints past w →
      InHistory seams.sha256 (moduleDownloadKey c) sink checkpoints past
        (attemptLoop seams c left exclusions w).2
  | 0, exclusions, w, h => by
      refine wp_same.mp ?_
      unfold DigDownload.attemptLoop
      rw [wp_bind]
      refine (wp_same.mpr (h.descriptorAttempt hreads exclusions)).mono (fun r w₁ h₁ => ?_)
        (fun _ _ h => h)
      cases r <;> exact h₁
  | left + 1, exclusions, w, h => by
      refine wp_same.mp ?_
      unfold DigDownload.attemptLoop
      rw [wp_bind]
      refine (wp_same.mpr (h.descriptorAttempt hreads exclusions)).mono (fun r w₁ h₁ => ?_)
        (fun _ _ h => h)
      cases r with
      | inl n => exact h₁
      | inr failed =>
        dsimp only
        split
        · exact h₁
        · exact wp_same.mpr (InHistory.attemptLoop hreads left _ w₁ h₁)

/-- A whole run after an earlier log. -/
theorem InHistory.download (hreads : seams.host.ReadsBack)
    (h : InHistory seams.sha256 (moduleDownloadKey c) sink checkpoints past w) :
    InHistory seams.sha256 (moduleDownloadKey c) sink checkpoints past
      (download seams c w).2 := by
  refine wp_same.mp (wp_download_of_invariant h (fun h₁ => h₁.note trivial id)
    (fun h₁ => ⟨h₁.each, h₁.sink_eq, h₁.checkpoints_eq⟩) (fun h₁ => h₁.note trivial id) id
    fun remembered w₁ h₁ => ?_)
  exact wp_same.mpr (h₁.attemptLoop hreads _ _ w₁)

/-- The log of any number of crashed runs is disciplined. -/
theorem disciplined_runLog (c : Capsule) (sha256 : Bytes → Bytes) (sink : Sink)
    (checkpoints : String → Option DownloadState) (runs : List CrashedRun)
    (hsha : ∀ r ∈ runs, r.seams.sha256 = sha256)
    (hreads : ∀ r ∈ runs, r.seams.host.ReadsBack) :
    ∀ past, AtEach (Disciplined sha256 (moduleDownloadKey c) sink checkpoints) past →
      AtEach (Disciplined sha256 (moduleDownloadKey c) sink checkpoints)
        (past ++ runLog c runs (replaySink sink past) (replayCheckpoints checkpoints past)) := by
  induction runs with
  | nil =>
    intro past h
    simpa [runLog] using h
  | cons r runs ih =>
    intro past h
    have hrun : InHistory r.seams.sha256 (moduleDownloadKey c) sink checkpoints past
        (download r.seams c (PullWorld.fresh (replaySink sink past)
          { checkpoints := replayCheckpoints checkpoints past, verdicts := r.verdicts })).2 := by
      refine InHistory.download (hreads r List.mem_cons_self) ⟨?_, ?_, ?_⟩
      · simpa [PullWorld.fresh, hsha r List.mem_cons_self] using h
      · simp [PullWorld.fresh]
      · simp [PullWorld.fresh]
    generalize hdone : (download r.seams c (PullWorld.fresh (replaySink sink past)
      { checkpoints := replayCheckpoints checkpoints past, verdicts := r.verdicts })).2 = w at hrun
    have hall := hrun.each
    rw [hsha r List.mem_cons_self] at hall
    have hcrash : AtEach (Disciplined sha256 (moduleDownloadKey c) sink checkpoints)
        (past ++ w.trace.take r.steps) := by
      rw [← List.take_append_drop r.steps w.trace, ← List.append_assoc] at hall
      exact (atEach_append.mp hall).1
    have := ih (fun r' hr' => hsha r' (List.mem_cons_of_mem _ hr'))
      (fun r' hr' => hreads r' (List.mem_cons_of_mem _ hr')) _ hcrash
    simpa [runLog, hdone] using this

/-- In any sequence of runs of a pull, each stopped anywhere, in which every attempt that
resumes a checkpoint begins gap-free, a chunk that was checkpointed and not touched since
is in every checkpoint saved later, and is not fetched under a descriptor that its staged
bytes match. -/
theorem progress_survives (c : Capsule) (sha256 : Bytes → Bytes) (sink : Sink)
    (checkpoints : String → Option DownloadState) (runs : List CrashedRun)
    (hsha : ∀ r ∈ runs, r.seams.sha256 = sha256)
    (hreads : ∀ r ∈ runs, r.seams.host.ReadsBack)
    (hstarts : StartsGapFree sha256 (moduleDownloadKey c) sink checkpoints
      (runLog c runs sink checkpoints)) :
    KeepsProgress (moduleDownloadKey c) checkpoints (runLog c runs sink checkpoints) ∧
      NeverRefetches sha256 (moduleDownloadKey c) sink checkpoints
        (runLog c runs sink checkpoints) := by
  have hall : AtEach (Disciplined sha256 (moduleDownloadKey c) sink checkpoints)
      (runLog c runs sink checkpoints) :=
    disciplined_runLog c sha256 sink checkpoints runs hsha hreads [] atEach_nil
  have hkeeps := keepsProgress_of_disciplined hall hstarts
  refine ⟨hkeeps, ?_⟩
  rintro before e after hlog i rfl earlier peer info attempt rfl hattempt hheld hne
  have hearlier : KeepsProgress (moduleDownloadKey c) checkpoints earlier := by
    unfold KeepsProgress at hkeeps
    rw [hlog, List.append_assoc] at hkeeps
    exact (atEach_append.mp hkeeps).1
  obtain ⟨state, hstate, hrec⟩ := hearlier.held hheld hne
  exact (hall _ _ _ hlog).fetches i rfl earlier peer info attempt state rfl hattempt hstate hrec

instance (sha256 : Bytes → Bytes) (key : String) (sink : Sink)
    (checkpoints : String → Option DownloadState) (info : ModuleInfo) :
    Decidable (GapFree sha256 key sink checkpoints info) :=
  decidable_of_iff (∀ state ∈ (checkpoints key).toList, state.chunkLens = info.chunkLens →
      ∀ j ∈ state.doneRanges, j < state.chunkLens.length → ∀ i < j,
        i ∈ state.doneRanges ∧ Matches sha256 sink info i)
    (by simp [GapFree, Option.mem_toList])

instance (sha256 : Bytes → Bytes) (key : String) (sink : Sink)
    (checkpoints : String → Option DownloadState) (before : List (Effect ModuleAsk)) :
    DecidablePred (BeginsGapFree sha256 key sink checkpoints before)
  | .ask (.getModuleInfo _ (some (.ok info))) =>
      inferInstanceAs (Decidable (GapFree sha256 key (replaySink sink before)
        (replayCheckpoints checkpoints before) info))
  | .ask (.getModuleInfo _ none) | .ask (.getModuleInfo _ (some (.error _)))
  | .ask (.findProviders _) | .ask (.reserve _ _) | .ask (.fetchChunk _)
  | .ask (.fetchModuleRange _ _ _ _) | .ask (.hashGate _ _) | .ask (.verifyModuleAnchor _ _)
  | .ask (.demote _) | .writeAt _ _ _ | .readAt _ _ _ | .truncate _ _ | .finalize _ | .load _ _
  | .save _ _ | .clear _ _ | .recordBadDescriptor _ _ _ | .badDescriptorPeers _ _ => isTrue trivial

instance (sha256 : Bytes → Bytes) (key : String) (sink : Sink)
    (checkpoints : String → Option DownloadState) (log : List (Effect ModuleAsk)) :
    Decidable (StartsGapFree sha256 key sink checkpoints log) :=
  inferInstanceAs (Decidable (AtEach (BeginsGapFree sha256 key sink checkpoints) log))

/-- The small module staged and checkpointed in single bytes. -/
def smallCheckpoint (done : Finset Nat) : String → Option DownloadState :=
  Function.update (fun _ => none) (moduleDownloadKey smallCapsule) (some {
    DownloadState.new (moduleDownloadKey smallCapsule) with
    totalLength := 3, chunkLens := [1, 1, 1], doneRanges := done })

/-- The small capsule, described by its holder in single bytes. -/
def byteSeams : ModuleSeams :=
  { smallSeams with getModuleInfo := fun _ _ _ => some (.ok (smallInfo [1, 1, 1])) }

/-- A run that is stopped between the second chunk and its checkpoint, and one after it. -/
def stoppedRuns : List CrashedRun :=
  [{ seams := byteSeams, verdicts := fun _ => [], steps := 13 },
   { seams := byteSeams, verdicts := fun _ => [], steps := 100 }]

theorem stoppedRuns_survive :
    KeepsProgress (moduleDownloadKey smallCapsule) (fun _ => none)
        (runLog smallCapsule stoppedRuns emptySink fun _ => none) ∧
      NeverRefetches smallSha256 (moduleDownloadKey smallCapsule) emptySink (fun _ => none)
        (runLog smallCapsule stoppedRuns emptySink fun _ => none) := by
  refine progress_survives smallCapsule smallSha256 emptySink (fun _ => none) stoppedRuns ?_ ?_
    (by decide +kernel)
  · simp [stoppedRuns, byteSeams, smallSeams]
  · simp [stoppedRuns, byteSeams, smallSeams, Host.healthy, Host.ReadsBack]

/-- The honest holder behind a liar with the same chunk lengths, who serves the first of the
chunks it made up and no other. -/
def halfLiarSeams : ModuleSeams :=
  { byteSeams with
    findProviders := fun _ _ => .ok [{ providerPeerId := holderB, addresses := [] },
      { providerPeerId := holderA, addresses := [] }]
    getModuleInfo := fun _ peer _ => some (.ok (if peer = holderB then
      { smallInfo [1, 1, 1] with
        chunkHashes := [hexOf (smallSha256 [9]), hexOf (smallSha256 [0]), hexOf (smallSha256 [0])] }
      else smallInfo [1, 1, 1]))
    fetchModuleRange := fun _ peer _ offset len =>
      if peer = holderB then (if offset = 0 then some (.ok [9]) else none)
      else some (.ok (slice smallModule offset len)) }

/-- The whole module staged and checkpointed. -/
def stagedSink : Sink := { emptySink with staged := smallModule }

/-- The first save under the liar's descriptor drops the second chunk, which is checkpointed
and whose staged bytes nothing has touched. -/
theorem halfLiar_drops_progress :
    ¬ KeepsProgress (moduleDownloadKey smallCapsule) (smallCheckpoint {0, 1, 2})
      (runLog smallCapsule [{ seams := halfLiarSeams, verdicts := fun _ => [], steps := 100 }]
        stagedSink (smallCheckpoint {0, 1, 2})) := by
  generalize hlog : runLog smallCapsule
    [{ seams := halfLiarSeams, verdicts := fun _ => [], steps := 100 }] stagedSink
    (smallCheckpoint {0, 1, 2}) = log
  intro hkeeps
  have hsave : ((log[9]?.bind Effect.saved?).any fun state =>
      decide (state.key = moduleDownloadKey smallCapsule ∧ 1 ∉ state.doneRanges)) = true := by
    rw [← hlog]
    decide +kernel
  have huntouched : ∀ e ∈ log.take 9, ¬ Effect.Touches 1 1 e := by
    rw [← hlog]
    decide +kernel
  obtain ⟨state, hsaved, hdecided⟩ := (Option.any_eq_true _ _).mp hsave
  obtain ⟨e, hget, hsaved⟩ := Option.bind_eq_some_iff.mp hsaved
  rw [Effect.saved?_eq_some hsaved] at hget
  obtain ⟨hlt, hget⟩ := List.getElem?_eq_some_iff.mp hget
  obtain ⟨hkey, hdropped⟩ := of_decide_eq_true hdecided
  have hheld : Held (moduleDownloadKey smallCapsule) (smallCheckpoint {0, 1, 2}) [1, 1, 1] 1
      (log.take 9) :=
    ⟨[], log.take 9, rfl, Or.inl ⟨rfl, _, Function.update_self _ _ _, rfl, by decide, by decide⟩,
      huntouched⟩
  exact hdropped (atEach_iff_getElem.mp hkeeps 9 hlt state hget hkey [1, 1, 1] 1 hheld).done

end History

end DigDownload
