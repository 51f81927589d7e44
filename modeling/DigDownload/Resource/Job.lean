import DigDownload.Resource.Source
import DigDownload.Resource.Verify
import DigDownload.Storage

/-!
# The download of a resource

`Downloader::download` runs a `Job`: it locates holders, adopts a layout from the first
of them that declares an acceptable one, or from the checkpoint, and fetches the ranges
of the plan concurrently until all are done. Then the hash of the whole resource is
checked and the staging area promoted.

The world around a job is whatever `ResourceSeams` says it answers to the call made at a
given moment. What happens between two iterations of the scheduling loop is a turn: a
control message, the end of a fetch, or a timer. A run is a run of a list of turns, and
a run that is still waiting when the list ends has not returned yet.
-/

namespace DigDownload

open Prog

/-! ## The seams -/

/-- The answer to an ask under a time limit; `none` when it has not come. -/
abbrev FetchAnswer := Option (Except DownloadError FetchedRange)

structure DownloadConfig where
  window : Nat
  maxConcurrency : Nat
  maxInflightPerSource : Nat
  baseBackoff : Nat
  maxBackoff : Nat
  maxRelocateAttempts : Nat
  maxRangeAttempts : Nat
  maxResourceSize : Nat
  verifyWholeResource : Bool
  rangeTimeout : Option Nat
  refreshInterval : Option Nat

/-- What a download is asked for, and under which key it resumes. -/
structure Target where
  content : ContentId
  resumeKey : Option String
  startPaused : Bool

/-- The injected parts of a `Downloader` and the machine it runs on, each as its answer to
the call that is made as the `t`-th one of the run. Instants are in nanoseconds. -/
structure ResourceSeams where
  sha256 : Bytes → Bytes
  contentKey : ContentId → String
  debugContent : ContentId → String
  findProviders : Nat → ContentId → Except DownloadError (List ProviderRecord)
  queryAvailability : Nat → ProviderRecord → AvailabilityItem → Except DownloadError (List Bool)
  fetchRange : Nat → ProviderRecord → RangeRequest → FetchAnswer
  verifyInclusion : Nat → Bytes → Option String → Option String → Bool
  select : Nat → SelectRequest → SelectPlan
  claim : Nat → String → Bool
  reserve : Nat → Nat → Option String
  now : Nat → Nat
  debugAssertions : Bool
  host : Host
  config : DownloadConfig

inductive Control where
  | pause
  | resume
  | cancel
  deriving DecidableEq, Repr

/-- What the scheduling loop waits for: a control message or the end of the control
channel, the end of one of the outstanding fetches, the end of a backoff window, or the
next refresh. -/
inductive Turn where
  | control (message : Option Control)
  | completed (choice : Nat)
  | wake
  | refresh
  deriving DecidableEq, Repr

/-- The calls of a job to its seams and what it does with its own memory that the outside
can see. -/
inductive ResourceAsk where
  | claim (path : String) (granted : Bool)
  | findProviders (answer : Except DownloadError (List ProviderRecord))
  | queryAvailability (peer : String) (answer : Except DownloadError (List Bool))
  | reserve (count : Nat) (answer : Option String)
  | probe (peer : String) (answer : FetchAnswer)
  | select (request : SelectRequest) (plan : SelectPlan)
  | issue (range : Nat) (peer : String)
  | fetched (range : Nat) (peer : String) (answer : FetchAnswer)
  | record (peer : String) (bytes : Nat) (result : RangeResult)
  | verifyInclusion (leaf : Bytes) (proof root : Option String) (answer : Bool)
  | relocate
  | clock
  | emit (event : DownloadEvent)

/-- A range being fetched, from whom, and the holder as it was known when the fetch was
issued. -/
structure Fetch where
  range : Nat
  peer : String
  provider : Option ProviderRecord
  deriving DecidableEq

/-- The memory of a job. -/
structure Job where
  providers : List ProviderRecord
  commitment : Option ResourceCommitment
  ranges : List Range
  rangeState : List RangeState
  tracker : SourceTracker
  inflightPerSource : AList fun _ : String => Nat
  inflight : List Fetch
  resume : DownloadState
  paused : Bool
  bytesDone : Nat
  hasher : Option ResourceHasher
  relocateAttempts : Nat
  relocatedSinceProgress : Bool
  totalFailures : Nat
  lastRefresh : Nat

abbrev JobWorld := World ResourceAsk Job

/-- Why a run of a job stops: with an error, in a panic, or because the turns it was given
are used up while it waits. -/
inductive Halt where
  | failed (e : DownloadError)
  | panicked
  | pending
  deriving DecidableEq

abbrev JobM := Prog JobWorld Halt

/-- A call whose errors are errors of the job. -/
def orFail {α : Type} (m : RunM ResourceAsk Job α) : JobM α :=
  Prog.handle m fun
    | .ok a => pure a
    | .error e => Prog.fail (.failed e)

/-- Call a seam: its answer at this moment, recorded in the trace. -/
def askJob {α : Type} (seam : Nat → α) (asked : α → ResourceAsk) : JobM α := fun w =>
  (.ok (seam w.tick), w.note (.ask (asked (seam w.tick))))

/-- Record in the trace what the job does. -/
def noteJob (a : ResourceAsk) : JobM Unit := Prog.update fun w => w.note (.ask a)

/-- Update the memory of the job. -/
def modifyJob (f : Job → Job) : JobM Unit := Prog.update fun w => { w with own := f w.own }

/-- Read the memory of the job. -/
def getJob : JobM Job := do
  let w ← Prog.read
  pure w.own

def emit (event : DownloadEvent) : JobM Unit := noteJob (.emit event)

/-- `Instant::now`. -/
def readClock (seams : ResourceSeams) : JobM Nat := askJob seams.now fun _ => .clock

/-- Emit the failure of the download and end it. -/
def failWith {α : Type} (reason : String) (e : DownloadError) : JobM α := do
  emit (.failed reason)
  Prog.fail (.failed e)

/-- Persist the checkpoint. -/
def checkpoint (seams : ResourceSeams) : JobM Unit := do
  let job ← getJob
  orFail (storeSave seams.host job.resume)

/-- Persist the checkpoint and ignore whether it failed. -/
def tryCheckpoint (seams : ResourceSeams) : JobM Unit := do
  let job ← getJob
  ignoringFailure (storeSave seams.host job.resume)

/-! ## Content ids on the wire -/

def availabilityItem (content : ContentId) : Except DownloadError AvailabilityItem :=
  match content with
  | .store _ => .error .notDownloadable
  | .root storeId root =>
      .ok { storeId := hexOf storeId, root := hexOf root, retrievalKey := none }
  | .resource storeId root retrievalKey =>
      .ok {
        storeId := hexOf storeId
        root := hexOf root
        retrievalKey := some (hexOf retrievalKey) }

/-- The generation root of a content id, in lower-case hexadecimal. -/
def contentRootHex (content : ContentId) : Option String :=
  match content with
  | .store _ => none
  | .root _ root | .resource _ root _ => some (hexOf root)

def rangeRequest (content : ContentId) (offset length : Nat) (skipLayout : Bool) :
    Except DownloadError RangeRequest :=
  match availabilityItem content with
  | .error e => .error e
  | .ok item =>
      .ok {
        storeId := item.storeId
        root := item.root
        retrievalKey := item.retrievalKey
        offset, length, skipLayout }

/-- The key a download resumes under. -/
def downloadKey (seams : ResourceSeams) (target : Target) : String :=
  target.resumeKey.getD (seams.contentKey target.content)

/-! ## Discovery -/

/-- Keep the holders that confirm that they hold the content. -/
def confirmHolders (seams : ResourceSeams) (item : AvailabilityItem) :
    List ProviderRecord → JobM (List ProviderRecord)
  | [] => pure []
  | p :: found => do
      match ← askJob (seams.queryAvailability · p item) (.queryAvailability p.providerPeerId) with
      | .ok (true :: _) => do
          let confirmed ← confirmHolders seams item found
          pure (p :: confirmed)
      | _ => confirmHolders seams item found

def locateAndConfirm (seams : ResourceSeams) (content : ContentId) :
    JobM (List ProviderRecord) := do
  match ← askJob (seams.findProviders · content) .findProviders with
  | .error e => Prog.fail (.failed e)
  | .ok found =>
      match availabilityItem content with
      | .error e => Prog.fail (.failed e)
      | .ok item => confirmHolders seams item found

/-- Locate holders again and append those that were not known, saying how many. -/
def discoverMore (seams : ResourceSeams) (content : ContentId) : JobM Nat := do
  let more ← locateAndConfirm seams content
  let job ← getJob
  let known := job.providers.map (·.providerPeerId)
  let fresh := more.filter fun p => !known.contains p.providerPeerId
  modifyJob fun job => { job with providers := job.providers ++ fresh }
  if 0 < fresh.length then
    emit (.providersRefreshed (job.providers.length + fresh.length))
    pure fresh.length
  else
    pure 0

/-- Locate holders again at the price of one relocate attempt. -/
def relocate (seams : ResourceSeams) (content : ContentId) : JobM Nat := do
  noteJob .relocate
  modifyJob fun job => { job with relocateAttempts := job.relocateAttempts + 1 }
  discoverMore seams content

/-! ## The commitment -/

/-- Whether what a holder declared may become the layout of the download: the commitment,
or the reason why the next holder is asked. -/
def adoptLayout (seams : ResourceSeams) (content : ContentId) (provider : ProviderRecord)
    (fetched : FetchedRange) (reserve : Nat → Option String) : Except String ResourceCommitment :=
  let declared := fetched.rangeMeta
  match contentRootHex content, declared.root with
  | some want, none =>
      .error s!"states no generation root, so it cannot be checked against the requested {want}"
  | some want, some got =>
      if got ≠ want then
        .error ("serves generation root " ++ hex64OrSentinel got "root" ++
          s!", not the requested {want}")
      else adoptDeclared declared
  | none, _ => adoptDeclared declared
where
  /-- The layout gates, once the root is the one that was asked for. -/
  adoptDeclared (declared : RangeMeta) : Except String ResourceCommitment :=
    match declared.totalLength, declared.chunkLens with
    | some totalLength, some chunkLens =>
        match declared.chunkCount.filter (· ≠ chunkLens.length) with
        | some count =>
            .error (DownloadError.pagedPrologueUnsupported provider.providerPeerId count
              chunkLens.length).display
        | none =>
            match ResourceCommitment.fromFirstFrameBounded totalLength chunkLens declared.root
              declared.inclusionProof seams.config.maxResourceSize reserve with
            | .ok commitment => .ok commitment
            | .error e => .error e.display
    | _, _ => .error "first frame declared no total_length/chunk_lens"

/-- The answer of a fetch, under the time limit for one range if there is one. A fetch that
never ends under no limit has no answer. -/
def underTimeout (seams : ResourceSeams) (peer : String) (answer : FetchAnswer) : FetchAnswer :=
  match answer, seams.config.rangeTimeout with
  | some r, _ => some r
  | none, some _ => some (.error (.timeout peer))
  | none, none => none

/-- Probe holders in order until the layout of one is adopted. -/
def probeHolders (seams : ResourceSeams) (content : ContentId) (req : RangeRequest) :
    List ProviderRecord → List String → JobM (Except (List String) ResourceCommitment)
  | [], reasons => pure (.error reasons)
  | provider :: providers, reasons => do
      let line (reason : String) :=
        hex64OrSentinel provider.providerPeerId "peer-id" ++ s!": {reason}"
      match ← askJob (fun t => underTimeout seams provider.providerPeerId
          (seams.fetchRange t provider req)) (.probe provider.providerPeerId) with
      | none => Prog.fail .pending
      | some (.error e) =>
          probeHolders seams content req providers
            (reasons ++ [line s!"metadata probe failed: {e.display}"])
      | some (.ok fetched) => do
          -- what the allocator would answer is fixed first
          let count := (fetched.rangeMeta.chunkLens.getD []).length + 1
          let reserved ← askJob (fun t => seams.reserve t count) (.reserve count)
          match adoptLayout seams content provider fetched fun _ => reserved with
          | .ok commitment => pure (.ok commitment)
          | .error reason => probeHolders seams content req providers (reasons ++ [line reason])

def establishCommitment (seams : ResourceSeams) (content : ContentId) :
    JobM ResourceCommitment := do
  let job ← getJob
  match rangeRequest content 0 1 false with
  | .error e => Prog.fail (.failed e)
  | .ok req =>
      match ← probeHolders seams content req job.providers [] with
      | .ok commitment => pure commitment
      | .error reasons =>
          let error : DownloadError :=
            .metadataProbeFailed (seams.debugContent content) job.providers.length reasons
          failWith error.display error

/-- Drop a checkpoint, and the bytes it staged, that belong to another chunk layout. -/
def discardBytesStagedForAnotherPlan (seams : ResourceSeams) (key : String)
    (commitment : ResourceCommitment) : JobM Unit := do
  let job ← getJob
  if job.resume.chunkLens = [] ∨ job.resume.chunkLens = commitment.layout.chunkLens then
    pure ()
  else do
    modifyJob fun job => { job with resume := job.resume.takeDone }
    ignoringFailure (storeClear seams.host key)
    ignoringFailure (sinkTruncate seams.host 0)

/-- Put the commitment into the checkpoint. -/
def persistCommitment (seams : ResourceSeams) (commitment : ResourceCommitment) : JobM Unit := do
  modifyJob fun job => { job with
    resume := { job.resume with
      totalLength := commitment.totalLength
      chunkLens := commitment.layout.chunkLens
      root := commitment.root
      inclusionProof := commitment.inclusionProof } }
  checkpoint seams

/-! ## Resumed ranges -/

/-- Read a resumed range back. Without the whole-resource check nothing could bind the
bytes, so they are not read. -/
def stagedRange (seams : ResourceSeams) (hashes : Bool) (range : Range) :
    RunM ResourceAsk Job Bytes :=
  if hashes then sinkReadAt seams.host range.offset range.length
  else Prog.fail (.sink ("the whole-resource check is disabled, so staged bytes cannot be bound " ++
    "to the commitment; re-fetching this range instead of trusting it"))

/-- Send a resumed range back to the queue. -/
def Job.unresume (job : Job) (range : Range) : Job :=
  { job with
    rangeState := job.rangeState.set range.index .pending
    resume := { job.resume with doneRanges := job.resume.doneRanges.erase range.index }
    bytesDone := job.bytesDone - range.length }

/-- Feed a range to the hash of the whole resource, if there is one. -/
def Job.feed (job : Job) (offset : Nat) (bytes : Bytes) : Job :=
  { job with hasher := job.hasher.map (·.feed offset bytes) }

/-- Read the ranges that an earlier run completed back into the hash, and send those that
cannot be read back or do not pass the check back to the queue. -/
def rehydrateResumedRanges (seams : ResourceSeams) (commitment : ResourceCommitment) :
    List Range → JobM Unit
  | [] => pure ()
  | range :: resumed => do
      let job ← getJob
      match ← (Prog.attempt (stagedRange seams job.hasher.isSome range) :
          JobM (Except DownloadError Bytes)) with
      | .error _ => modifyJob (·.unresume range)
      | .ok bytes =>
          match verifyRange seams.debugAssertions commitment range.chunkStart range.length
            bytes with
          | .assertionFailed => Prog.fail .panicked
          | .rejected _ => modifyJob (·.unresume range)
          | .ok => modifyJob (·.feed range.offset bytes)
      rehydrateResumedRanges seams commitment resumed

/-- Drop the checkpoint and the staged bytes of an assembly that was refused. -/
def discardUnverifiableAssembly (seams : ResourceSeams) (key : String) : JobM Unit := do
  ignoringFailure (storeClear seams.host key)
  ignoringFailure (sinkTruncate seams.host 0)

end DigDownload
