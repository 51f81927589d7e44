import DigDownload.Module.Integrity
import DigDownload.Resource.Traces

/-!
# Checkpoints on disk

`FileStateStore` keeps the checkpoint of a key in a file of its own, which a save overwrites in
place. A crash in the middle of a save leaves a prefix of the new bytes, and a file that holds
one fails every load: no download and no pull under the key gets past it, until someone removes
the file.
-/

namespace DigDownload

open Prog

/-! ## The files -/

/-- The serializer of checkpoints. -/
structure JsonCodec where
  toVec : DownloadState → Bytes
  fromSlice : Bytes → Except String DownloadState

/-- What a save of a state relies on: it is read back from its bytes, and from no part of them
that ends early. -/
structure JsonCodec.Faithful (codec : JsonCodec) (state : DownloadState) : Prop where
  whole : codec.fromSlice (codec.toVec state) = .ok state
  torn : ∀ n < (codec.toVec state).length, ∃ e, codec.fromSlice ((codec.toVec state).take n) = .error e

/-- The checkpoint file of every key. -/
abbrev CheckpointFiles := String → Option Bytes

/-- What the load of a checkpoint comes to. -/
abbrev Loaded := Except DownloadError (Option DownloadState)

def fileLoad (codec : JsonCodec) (files : CheckpointFiles) (key : String) : Loaded :=
  match files key with
  | none => .ok none
  | some bytes =>
      match codec.fromSlice bytes with
      | .ok state => .ok (some state)
      | .error e => .error (.state e)

def fileSave (codec : JsonCodec) (files : CheckpointFiles) (state : DownloadState) :
    CheckpointFiles := Function.update files state.key (some (codec.toVec state))

def fileClear (files : CheckpointFiles) (key : String) : CheckpointFiles :=
  Function.update files key none

/-- What is on disk when a save is interrupted: the file is as it was, or it was truncated and
some of the new bytes were written. -/
inductive Interrupted (codec : JsonCodec) (files : CheckpointFiles) (state : DownloadState) :
    CheckpointFiles → Prop where
  | unopened : Interrupted codec files state files
  | written (n : Nat) : Interrupted codec files state
      (Function.update files state.key (some ((codec.toVec state).take n)))

section Files

variable {codec : JsonCodec} {files files' : CheckpointFiles} {state : DownloadState}

theorem fileLoad_fileSave (h : codec.Faithful state) :
    fileLoad codec (fileSave codec files state) state.key = .ok (some state) := by
  simp [fileLoad, fileSave, h.whole]

theorem fileLoad_fileClear (key : String) : fileLoad codec (fileClear files key) key = .ok none := by
  simp [fileLoad, fileClear]

/-- An interrupted save leaves the old file, the new one, or one that cannot be loaded. -/
theorem Interrupted.cases_load (h : Interrupted codec files state files')
    (hcodec : codec.Faithful state) :
    files' = files ∨ files' = fileSave codec files state ∨
      ∃ e, fileLoad codec files' state.key = .error (.state e) := by
  cases h with
  | unopened => exact Or.inl rfl
  | written n =>
    refine Or.inr ?_
    by_cases hn : n < (codec.toVec state).length
    · obtain ⟨e, he⟩ := hcodec.torn n hn
      exact Or.inr ⟨e, by simp [fileLoad, he]⟩
    · rw [List.take_of_length_le (Nat.not_lt.mp hn)]
      exact Or.inl rfl

end Files

/-! ## Runs on a file -/

/-- The host, as far as the checkpoint of the run's key is concerned. A run that cannot load it
ends before it saves one, so its file stays as it is. -/
def Host.loading (host : Host) : Loaded → Host
  | .ok _ => host
  | .error e => { host with load := fun _ => some e }

def StateStore.holding (store : StateStore) (key : String) : Loaded → StateStore
  | .ok state => store.put key state
  | .error _ => store

/-- A download whose checkpoint loads as given. -/
def downloadLoading (seams : ResourceSeams) (target : Target) (turns : List Turn) (sink : Sink)
    (store : StateStore) (loaded : Loaded) : Except Halt Nat × JobWorld :=
  downloadResource { seams with host := seams.host.loading loaded } target turns sink
    (store.holding (downloadKey seams target) loaded)

/-- A pull whose checkpoint loads as given. -/
def pullLoading (seams : ModuleSeams) (c : Capsule) (sink : Sink) (store : StateStore)
    (loaded : Loaded) : Except DownloadError Nat × PullWorld :=
  download { seams with host := seams.host.loading loaded } c
    (PullWorld.fresh sink (store.holding (moduleDownloadKey c) loaded))

/-- Every download and every pull under a key is one from some allowed checkpoint. -/
structure ResumesAs (key : String) (allowed : Option DownloadState → Prop) (loaded : Loaded) :
    Prop where
  resource : ∀ seams target turns sink store, downloadKey seams target = key →
    ∃ seen, allowed seen ∧ downloadLoading seams target turns sink store loaded
      = downloadLoading seams target turns sink store (.ok seen)
  module : ∀ seams c sink store, moduleDownloadKey c = key →
    ∃ seen, allowed seen ∧ pullLoading seams c sink store loaded
      = pullLoading seams c sink store (.ok seen)

section Denied

variable {e : DownloadError}

/-- A download whose checkpoint does not load ends with the error of the load, and leaves the
sink and the store as they are. -/
theorem downloadLoading_error (seams : ResourceSeams) (target : Target) (turns : List Turn)
    (sink : Sink) (store : StateStore) :
    downloadLoading seams target turns sink store (.error e)
      = (.error (.failed e), { JobWorld.start seams target sink store with
          trace := [.load (downloadKey seams target) false, .ask (.emit (.failed e.display))] }) := by
  rfl

/-- A download whose checkpoint loads begins by loading it. -/
theorem downloadLoading_ok (seams : ResourceSeams) (target : Target) (turns : List Turn) (sink : Sink)
    (store : StateStore) (seen : Option DownloadState) (hload : ∀ t, seams.host.load t = none) :
    ∃ seg, (downloadLoading seams target turns sink store (.ok seen)).2.trace
      = .load (downloadKey seams target) true :: seg := by
  have hrest : Steps (Appends fun _ => True) (do
      (do restoreCommitment seams; claimStaging seams)
      runInner seams target.content (downloadKey seams target) turns : JobM Nat) := by
    rw [LawfulMonad.bind_assoc]
    exact Steps.bind (steps_restoreCommitment (closedUnderPlanning_appends.mono fun _ _ => trivial))
      fun _ =>
      Steps.bind (steps_claimStaging (closedUnderPlanning_appends.mono fun _ _ => trivial)) fun _ =>
      Steps.bind (steps_planInner (closedUnderSetup_appends.mono fun _ _ => trivial)) fun commitment =>
      Steps.bind (steps_scheduleLoop (closedUnderLoop_appends.mono fun _ _ => trivial) turns) fun _ =>
      steps_finish commitment (closedUnderKeeping_appends.mono fun _ _ => trivial)
  have hopened : ∀ w : JobWorld, w.trace = [] → storeLoad seams.host (downloadKey seams target) w
      = (.ok (w.store.checkpoints (downloadKey seams target)),
        w.note (.load (downloadKey seams target) true)) := by
    intro w _
    rw [storeLoad, hload]
  have hrun : wp (runJob seams target turns)
      (fun _ w' => ∃ seg, w'.trace = .load (downloadKey seams target) true :: seg)
      (fun _ w' => ∃ seg, w'.trace = .load (downloadKey seams target) true :: seg)
      (JobWorld.start seams target sink (store.put (downloadKey seams target) seen)) := by
    rw [runJob, openJob, LawfulMonad.bind_assoc, wp_bind, loadCheckpoint, wp_bind, wp_attempt,
      wp_of_run_ok (hopened _ rfl)]
    dsimp only
    rw [wp_modifyJob]
    refine (hrest.wp _).mono (fun _ w' h => ?_) (fun _ w' h => ?_)
    · obtain ⟨seg, hseg, -⟩ := h
      exact ⟨seg, hseg⟩
    · obtain ⟨seg, hseg, -⟩ := h
      exact ⟨seg, hseg⟩
  exact wp_same.mp hrun

/-- A pull whose checkpoint does not load never returns a module. -/
theorem pullLoading_error (seams : ModuleSeams) (c : Capsule) (sink : Sink) (store : StateStore) :
    ∀ n, (pullLoading seams c sink store (.error e)).1 ≠ .ok n := by
  let torn : ModuleSeams := { seams with host := seams.host.loading (.error e) }
  have hpull : ∀ (info : ModuleInfo) (w : PullWorld),
      wp (pullWithDescriptor torn c info) (fun _ _ => False) (fun _ _ => True) w := by
    intro info w
    rw [pullWithDescriptor, wp_bind]
    refine wp_of_forall (fun reserved w₁ => ?_) (fun _ _ => trivial)
    rw [wp_bind]
    refine wp_of_forall (fun layout w₂ => ?_) (fun _ _ => trivial)
    rw [wp_bind]
    exact trivial
  have hattempt : ∀ (x : DescriptorExclusions) (w : PullWorld),
      wp (descriptorAttempt torn c x) (fun r _ => ∃ failed, r = .inr failed) (fun _ _ => True) w := by
    intro x w
    rw [descriptorAttempt, wp_bind, wp_read]
    dsimp only
    rw [wp_handle]
    refine wp_of_forall (fun answer w₁ => ?_) (fun _ _ => ⟨_, rfl⟩)
    dsimp only
    rw [wp_handle]
    refine (hpull answer.2 w₁).mono (fun _ _ h => h.elim) (fun failure w₂ _ => ?_)
    cases failure with
    | terminal e => exact trivial
    | badDescriptor e =>
      dsimp only
      rw [wp_bind]
      refine wp_of_forall (fun _ w₃ => ?_) (fun _ _ => trivial)
      rw [wp_bind]
      exact ⟨_, rfl⟩
    | unsatisfiableDescriptor e =>
      dsimp only
      rw [wp_bind]
      refine wp_of_forall (fun _ w₃ => ?_) (fun _ _ => trivial)
      rw [wp_bind]
      exact ⟨_, rfl⟩
  have hloop : ∀ (left : Nat) (x : DescriptorExclusions) (w : PullWorld),
      wp (attemptLoop torn c left x) (fun _ _ => False) (fun _ _ => True) w := by
    intro left
    induction left with
    | zero =>
      intro x w
      rw [attemptLoop, wp_bind]
      refine (hattempt x w).mono (fun r w₁ hr => ?_) (fun _ _ h => h)
      obtain ⟨failed, rfl⟩ := hr
      exact trivial
    | succ left ih =>
      intro x w
      rw [attemptLoop, wp_bind]
      refine (hattempt x w).mono (fun r w₁ hr => ?_) (fun _ _ h => h)
      obtain ⟨failed, rfl⟩ := hr
      dsimp only
      split
      · exact trivial
      · exact ih _ _
  have hdownload : wp (download torn c) (fun _ _ => False) (fun _ _ => True)
      (PullWorld.fresh sink (store.holding (moduleDownloadKey c) (.error e))) := by
    rw [download]
    split
    · exact trivial
    rw [wp_bind]
    refine wp_of_forall (fun providers w₁ => ?_) (fun _ _ => trivial)
    split
    · exact trivial
    rw [wp_bind, wp_update, wp_bind]
    exact wp_of_forall (fun remembered w₂ => hloop _ _ _) (fun _ _ => trivial)
  exact fun n hn => hdownload.ok hn

end Denied

/-- After a save that was interrupted, every download and every pull under the key is one from
the old checkpoint, the new one or none, exactly if the old file was not opened yet or all the
new bytes were written. -/
theorem interrupted_resumes_iff {codec : JsonCodec} {files files' : CheckpointFiles}
    {old : Option DownloadState} {state : DownloadState} (hcodec : codec.Faithful state)
    (hold : fileLoad codec files state.key = .ok old)
    (hcrash : Interrupted codec files state files') :
    ResumesAs state.key (fun seen => seen = old ∨ seen = some state ∨ seen = none)
        (fileLoad codec files' state.key) ↔
      files' = files ∨ files' = fileSave codec files state := by
  constructor
  · intro hresumes
    cases hcrash.cases_load hcodec with
    | inl hold' => exact Or.inl hold'
    | inr hother =>
      cases hother with
      | inl hnew => exact Or.inr hnew
      | inr htorn =>
        -- the small download under this key fails to load
        obtain ⟨e, he⟩ := htorn
        obtain ⟨seen, -, hrun⟩ := hresumes.resource smallResourceSeams
          { smallTarget with resumeKey := some state.key } [] emptySink emptyStore rfl
        obtain ⟨seg, hseg⟩ := downloadLoading_ok smallResourceSeams
          { smallTarget with resumeKey := some state.key } [] emptySink emptyStore seen fun _ => rfl
        rw [he, downloadLoading_error] at hrun
        rw [← hrun] at hseg
        cases hseg
  · intro hintact
    cases hintact with
    | inl hsame =>
      rw [hsame, hold]
      exact ⟨fun _ _ _ _ _ _ => ⟨old, Or.inl rfl, rfl⟩, fun _ _ _ _ _ => ⟨old, Or.inl rfl, rfl⟩⟩
    | inr hsaved =>
      rw [hsaved, fileLoad_fileSave hcodec]
      exact ⟨fun _ _ _ _ _ _ => ⟨some state, Or.inr (Or.inl rfl), rfl⟩,
        fun _ _ _ _ _ => ⟨some state, Or.inr (Or.inl rfl), rfl⟩⟩

/-- The checkpoint of the small download after its first range. -/
def savedCheckpoint : DownloadState where
  key := "small"
  totalLength := 3
  chunkLens := [2, 1]
  root := none
  inclusionProof := none
  doneRanges := {0}

/-- The text it is saved as. -/
def smallJson : Bytes :=
  ("\x7b\"key\":\"small\",\"total_length\":3,\"chunk_lens\":[2,1],\"root\":null,".toList ++
    "\"inclusion_proof\":null,\"done_ranges\":[0]\x7d".toList).map fun c => UInt8.ofNat c.toNat

/-- The serializer, as far as this checkpoint is concerned. -/
def smallCodec : JsonCodec where
  toVec _ := smallJson
  fromSlice bytes :=
    if bytes = smallJson then .ok savedCheckpoint else .error "EOF while parsing a value"

theorem smallCodec_faithful : smallCodec.Faithful savedCheckpoint := by
  have hwhole : smallCodec.fromSlice smallJson = .ok savedCheckpoint := by simp [smallCodec]
  refine ⟨hwhole, fun n hn => ⟨_, if_neg fun heq => ?_⟩⟩
  have hlength := congrArg List.length heq
  have hn' : n < smallJson.length := hn
  rw [show smallCodec.toVec savedCheckpoint = smallJson from rfl, List.length_take] at hlength
  omega

/-- A first save that runs to its end is resumed from. -/
theorem interrupted_resumes_small :
    ResumesAs "small" (fun seen => seen = none ∨ seen = some savedCheckpoint ∨ seen = none)
      (fileLoad smallCodec (fileSave smallCodec (fun _ => none) savedCheckpoint) "small") := by
  have hcrash : Interrupted smallCodec (fun _ => none) savedCheckpoint
      (fileSave smallCodec (fun _ => none) savedCheckpoint) := by
    have hwritten : Interrupted smallCodec (fun _ => none) savedCheckpoint _ :=
      .written smallJson.length
    rwa [show (smallCodec.toVec savedCheckpoint).take smallJson.length = smallJson from
      List.take_length] at hwritten
  exact (interrupted_resumes_iff smallCodec_faithful rfl hcrash).mpr (Or.inr rfl)

/-- A crash just after the file was truncated denies the content under the key. -/
theorem truncated_checkpoint_denies :
    ¬ ∀ (codec : JsonCodec) (files files' : CheckpointFiles) (old : Option DownloadState)
      (state : DownloadState), codec.Faithful state → fileLoad codec files state.key = .ok old →
      Interrupted codec files state files' →
      ResumesAs state.key (fun seen => seen = old ∨ seen = some state ∨ seen = none)
        (fileLoad codec files' state.key) := by
  intro h
  have hresumes := h smallCodec (fun _ => none) _ none savedCheckpoint smallCodec_faithful rfl (.written 0)
  obtain ⟨seen, -, hrun⟩ := hresumes.resource smallResourceSeams smallTarget [] emptySink emptyStore rfl
  obtain ⟨seg, hseg⟩ := downloadLoading_ok smallResourceSeams smallTarget [] emptySink emptyStore seen
    fun _ => rfl
  have htorn : fileLoad smallCodec (Function.update (fun _ => none) savedCheckpoint.key
      (some ((smallCodec.toVec savedCheckpoint).take 0))) savedCheckpoint.key
        = .error (.state "EOF while parsing a value") := by
    rw [fileLoad, Function.update_self]
    rfl
  rw [htorn, downloadLoading_error] at hrun
  rw [← hrun] at hseg
  cases hseg

end DigDownload
