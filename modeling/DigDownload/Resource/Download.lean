import DigDownload.Resource.Schedule

/-!
# A whole run

From the checkpoint to the promoted artifact: `Job::run` and `Job::run_inner`.
-/

namespace DigDownload

open Prog

/-- Restore the commitment of the checkpoint, if it describes a layout that is acceptable. -/
def restoreCommitment (seams : ResourceSeams) : JobM Unit := do
  let job ← getJob
  let resume := job.resume
  if resume.chunkLens = [] then
    pure ()
  else do
    let count := resume.chunkLens.length + 1
    let reserved ← askJob (fun t => seams.reserve t count) (.reserve count)
    match ResourceCommitment.fromFirstFrameBounded resume.totalLength resume.chunkLens resume.root
      resume.inclusionProof seams.config.maxResourceSize fun _ => reserved with
    | .ok commitment => modifyJob fun job => { job with commitment := some commitment }
    | .error _ => modifyJob fun job => { job with commitment := none }

/-- The plan of a commitment, with the ranges that the checkpoint says are done. -/
def Job.planned (config : DownloadConfig) (commitment : ResourceCommitment) (job : Job) : Job :=
  let ranges := planRanges commitment.layout config.window
  { job with
    ranges
    rangeState := ranges.map fun r => if job.resume.isDone r.index then .done else .pending
    hasher := if config.verifyWholeResource then some .new else none
    bytesDone := ((ranges.filter fun r => job.resume.isDone r.index).map (·.length)).sum }

/-- The ranges whose state is done. -/
def Job.doneRanges (job : Job) : List Range :=
  job.ranges.filter fun r => job.rangeState[r.index]? = some .done

/-- `verify_resource_leaf`: the length that was hashed, and the proof. -/
def verifyResourceLeaf (seams : ResourceSeams) (commitment : ResourceCommitment) (leaf : Bytes)
    (assembledLen : Nat) : JobM (Except VerifyError Unit) :=
  if assembledLen ≠ commitment.totalLength then
    pure (.error (.length commitment.totalLength assembledLen))
  else do
    if ← askJob (seams.verifyInclusion · leaf commitment.inclusionProof commitment.root)
        (.verifyInclusion leaf commitment.inclusionProof commitment.root) then
      pure (.ok ())
    else
      pure (.error .root)

/-- The whole-resource check, if it is enabled. -/
def backstop (seams : ResourceSeams) (key : String) (commitment : ResourceCommitment) :
    JobM Unit := do
  let job ← getJob
  match job.hasher with
  | none => pure ()
  | some hasher => do
      modifyJob fun job => { job with hasher := none }
      match ← verifyResourceLeaf seams commitment (seams.sha256 hasher.absorbed)
          hasher.nextOffset with
      | .ok () => pure ()
      | .error e => do
          discardUnverifiableAssembly seams key
          failWith e.display (.verify e)

/-- The check of the whole resource and its promotion. -/
def finish (seams : ResourceSeams) (key : String) (commitment : ResourceCommitment) :
    JobM Nat := do
  backstop seams key commitment
  match ← (Prog.attempt (promoteVerified seams.host commitment.totalLength) :
      JobM (Except DownloadError Unit)) with
  | .error e => do
      discardUnverifiableAssembly seams key
      failWith e.display e
  | .ok () => do
      ignoringFailure (storeClear seams.host key)
      emit (.completed commitment.totalLength)
      pure commitment.totalLength

/-- The commitment of the download: the restored one, or one that a holder declares. -/
def obtainCommitment (seams : ResourceSeams) (content : ContentId) : JobM ResourceCommitment := do
  let job ← getJob
  match job.commitment with
  | some commitment => pure commitment
  | none => do
      let commitment ← establishCommitment seams content
      modifyJob fun job => { job with commitment := some commitment }
      pure commitment

/-- Plan the download and take up what an earlier run completed. -/
def planDownload (seams : ResourceSeams) (key : String) (commitment : ResourceCommitment) :
    JobM Unit := do
  discardBytesStagedForAnotherPlan seams key commitment
  persistCommitment seams commitment
  modifyJob (·.planned seams.config commitment)
  let job ← getJob
  rehydrateResumedRanges seams commitment job.doneRanges
  let job ← getJob
  emit (.planned job.ranges.length commitment.totalLength)

/-- Locate the holders; a bare store id is not downloadable. -/
def discover (seams : ResourceSeams) (content : ContentId) : JobM Unit :=
  match availabilityItem content with
  | .error e => Prog.fail (.failed e)
  | .ok _ => do
      let providers ← locateAndConfirm seams content
      modifyJob fun job => { job with providers }
      if providers = [] then
        let reason := s!"no providers located for {seams.debugContent content}"
        failWith reason (.notFound reason)
      else
        pure ()

/-- What `run_inner` does before it schedules. -/
def planInner (seams : ResourceSeams) (content : ContentId) (key : String) :
    JobM ResourceCommitment := do
  discover seams content
  let commitment ← obtainCommitment seams content
  planDownload seams key commitment
  pure commitment

/-- `Job::run_inner`. -/
def runInner (seams : ResourceSeams) (content : ContentId) (key : String) (turns : List Turn) :
    JobM Nat := do
  let commitment ← planInner seams content key
  scheduleLoop seams content key turns
  finish seams key commitment

/-- Claim the staging area of the sink, if it has one on disk. -/
def claimStaging (seams : ResourceSeams) : JobM Unit := do
  let w ← Prog.read
  match w.sink.stagingPath with
  | none => pure ()
  | some path => do
      if ← askJob (seams.claim · path) (.claim path) then pure ()
      else
        let reason := s!"another download is already staging into {path}; refusing to share a " ++
          "staging area"
        failWith reason (.sink reason)

/-- Load the checkpoint. -/
def loadCheckpoint (seams : ResourceSeams) (key : String) : JobM Unit := do
  match ← (Prog.attempt (storeLoad seams.host key) :
      JobM (Except DownloadError (Option DownloadState))) with
  | .error e => failWith e.display e
  | .ok loaded => modifyJob fun job => { job with resume := loaded.getD (DownloadState.new key) }

/-- What `run` does before `run_inner`. -/
def openJob (seams : ResourceSeams) (key : String) : JobM Unit := do
  loadCheckpoint seams key
  restoreCommitment seams
  claimStaging seams

/-- `Job::run`: the length of the promoted resource, or why there is none. -/
def runJob (seams : ResourceSeams) (target : Target) (turns : List Turn) : JobM Nat := do
  let key := downloadKey seams target
  openJob seams key
  runInner seams target.content key turns

/-- The memory a job starts with. -/
def Job.new (seams : ResourceSeams) (target : Target) : Job where
  providers := []
  commitment := none
  ranges := []
  rangeState := []
  tracker := .new seams.config.baseBackoff seams.config.maxBackoff
  inflightPerSource := ∅
  inflight := []
  resume := .new ""
  paused := target.startPaused
  bytesDone := 0
  hasher := none
  relocateAttempts := 0
  relocatedSinceProgress := false
  totalFailures := 0
  lastRefresh := seams.now 0

/-- The world in which a download of a target starts. -/
def JobWorld.start (seams : ResourceSeams) (target : Target) (sink : Sink) (store : StateStore) :
    JobWorld := { sink, store, trace := [], own := .new seams target }

/-- `Downloader::download` of a target under a list of turns. -/
def downloadResource (seams : ResourceSeams) (target : Target) (turns : List Turn) (sink : Sink)
    (store : StateStore) : Except Halt Nat × JobWorld :=
  runJob seams target turns (JobWorld.start seams target sink store)

/-- What `join` gives the owner; `none` while the task has not ended. -/
def joined : Except Halt Nat → Option (Except DownloadError Nat)
  | .ok n => some (.ok n)
  | .error (.failed e) => some (.error e)
  | .error .panicked => some (.error .taskEnded)
  | .error .pending => none

/-! ## A small resource

Three bytes in chunks, held by honest holders. -/

section Small

/-- What a holder of `content` answers to a range request, with the layout unless it was to
be skipped. -/
def honestRange (content : Bytes) (lens : List Nat) (proof : Option String) (req : RangeRequest) :
    FetchedRange where
  requestOffset := req.offset
  bytes := Slices.slice content req.offset req.length
  rangeMeta := {
    totalLength := some content.length
    chunkLens := if req.skipLayout then none else some lens
    chunkCount := some lens.length
    chunkIndex := none
    root := some req.root
    inclusionProof := if req.skipLayout then none else proof }

def smallResource : Bytes := [1, 2, 3]

def smallStoreId : Bytes32 := ⟨List.replicate 32 1, by decide⟩

def smallRoot : Bytes32 := ⟨List.replicate 32 2, by decide⟩

def smallTarget : Target where
  content := .root smallStoreId smallRoot
  resumeKey := some "small"
  startPaused := false

/-- The proof binds the small resource to its root and to nothing else. -/
def smallProof (leaf : Bytes) (proof root : Option String) : Bool :=
  leaf = smallSha256 smallResource ∧ proof = some "proof" ∧ root = some (hexOf smallRoot)

/-- One honest holder of the small resource in two chunks, a healthy host, the default
selector, and a range for each chunk. -/
def smallResourceSeams : ResourceSeams where
  sha256 := smallSha256
  contentKey _ := "small"
  debugContent _ := "Root"
  findProviders _ _ := .ok [{ providerPeerId := holderA, addresses := [] }]
  queryAvailability _ _ _ := .ok [true]
  fetchRange _ _ req := some (.ok (honestRange smallResource [2, 1] (some "proof") req))
  verifyInclusion _ := smallProof
  select t req := nullSelect t req
  claim _ _ := true
  reserve _ _ := none
  now t := 10 ^ 6 * t
  debugAssertions := false
  host := Host.healthy
  config := {
    window := 2
    maxConcurrency := 4
    maxInflightPerSource := 2
    baseBackoff := 500 * 10 ^ 6
    maxBackoff := 30 * 10 ^ 9
    maxRelocateAttempts := 5
    maxRangeAttempts := 8
    maxResourceSize := 1024
    verifyWholeResource := true
    rangeTimeout := some (30 * 10 ^ 9)
    refreshInterval := none }

/-- The commitment to the small resource. -/
def smallCommitment : ResourceCommitment where
  layout := { chunkLens := [2, 1], offsets := [0, 2, 3], offsets_eq := by decide, fits := by decide }
  totalLength := 3
  root := some (hexOf smallRoot)
  inclusionProof := some "proof"
  total := by decide

end Small

end DigDownload
