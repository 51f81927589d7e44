import DigDownload.Resource.Job

/-!
# The scheduling loop

An iteration of the loop hands pending ranges to sources, as far as the caps and the
selector let it, and then waits for a turn. When nothing is in flight and ranges are
missing, it locates holders again, waits for the first backoff window to end, or gives up.
-/

namespace DigDownload

open Prog

/-- The largest `usize`. -/
def usizeMax : Nat := 2 ^ 64 - 1

/-- `usize::saturating_mul`. -/
def saturatingMul (a b : Nat) : Nat := min (a * b) usizeMax

namespace Job

variable (config : DownloadConfig) (job : Job)

/-! ## What the memory of a job says -/

/-- The first range that waits to be assigned. -/
def nextPending : Option Nat := job.rangeState.findIdx? (· = .pending)

/-- Whether every planned range is done. -/
def allDone : Bool := !job.rangeState.isEmpty && job.rangeState.all (· = .done)

/-- How many ranges are not done. -/
def pendingCount : Nat := job.rangeState.countP (·.isIncomplete)

/-- How many ranges are outstanding with a source. -/
def inflightOf (peer : String) : Nat := (job.inflightPerSource.lookup peer).getD 0

def underCap (peer : String) : Bool := decide (job.inflightOf peer < config.maxInflightPerSource)

/-- The source of a range: the one it is pinned to if that has room, or else the first in
the order of preference that has. -/
def pickFromPlan (plan : SelectPlan) (range : Nat) : Option String :=
  match plan.assignments.find? (·.1 = range) with
  | some (_, peer) =>
      if job.underCap config peer then some peer else plan.ordered.find? (job.underCap config)
  | none => plan.ordered.find? (job.underCap config)

/-- The sources that can be scheduled at an instant. -/
def candidates (now : Nat) : List CandidateRef :=
  (job.providers.filter fun p => job.tracker.isAvailable p.providerPeerId now).map
    CandidateRef.ofProvider

def selectRequest (key : String) (now : Nat) : SelectRequest :=
  { contentKey := key
    candidates := job.candidates now
    rangesNeeded := job.pendingCount
    inflight := (job.inflightPerSource.entries.map (·.2)).sum }

def snapshot : DownloadProgress :=
  { bytesDone := job.bytesDone
    totalLength := (job.commitment.map (·.totalLength)).getD 0
    rangesDone := job.rangeState.countP (· = .done)
    rangesTotal := job.ranges.length
    activeSources := job.inflightPerSource.entries.countP fun e => 0 < e.2 }

/-- How many failures the download survives. -/
def budget : Nat :=
  max (saturatingMul job.ranges.length config.maxRangeAttempts) config.maxRangeAttempts

/-! ## Backoff -/

/-- The first instant from `t` on, in steps, at which a source can be scheduled. -/
def scanAvailable (tracker : SourceTracker) (peer : String) (step limit : Nat) : Nat → Nat → Nat
  | 0, _ => limit
  | fuel + 1, t =>
      if limit < t then limit
      else if tracker.isAvailable peer t then t
      else scanAvailable tracker peer step limit fuel (t + step)

/-- The next instant at which a source can be scheduled, by a coarse scan. -/
def nextAvailableAt (peer : String) (now : Nat) : Nat :=
  let step := max config.baseBackoff (10 ^ 6)
  let limit := now + config.maxBackoff + step
  scanAvailable job.tracker peer step limit ((config.maxBackoff + step) / step + 1) now

/-- The end of the first backoff window among the sources that are in one. -/
def earliestBackoff (now : Nat) : Option Nat :=
  ((job.providers.filter fun p => !job.tracker.isAvailable p.providerPeerId now).map fun p =>
    job.nextAvailableAt config p.providerPeerId now).min?

/-- No backoff window is to be waited for when every holder is available. -/
theorem earliestBackoff_eq_none {config : DownloadConfig} {job : Job} {now : Nat} :
    job.earliestBackoff config now = none ↔
      ∀ p ∈ job.providers, job.tracker.isAvailable p.providerPeerId now = true := by
  rw [earliestBackoff, List.min?_eq_none_iff, List.map_eq_nil_iff, List.filter_eq_nil_iff]
  simp

/-! ## How it changes -/

/-- A range is handed to a source. -/
def issue (range : Nat) (peer : String) : Job :=
  { job with
    rangeState := job.rangeState.set range (.inFlight peer)
    inflightPerSource := job.inflightPerSource.insert peer (job.inflightOf peer + 1)
    inflight := job.inflight ++
      [{ range, peer, provider := job.providers.find? fun p => p.providerPeerId = peer }] }

/-- A fetch has ended, however it did. -/
def release (peer : String) : Job :=
  match job.inflightPerSource.lookup peer with
  | some n => { job with inflightPerSource := job.inflightPerSource.insert peer (n - 1) }
  | none => job

/-- A range is done. -/
def complete (range : Range) (index : Nat) (peer : String) (bytes : Bytes) : Job :=
  { job.feed range.offset bytes with
    rangeState := job.rangeState.set index .done
    resume := job.resume.markDone index
    bytesDone := saturatingAdd job.bytesDone range.length
    tracker := job.tracker.recordSuccess peer
    relocatedSinceProgress := false }

/-- A range goes back to the queue after a failure. -/
def requeue (index : Nat) (peer : String) (now : Nat) : Job :=
  { job with
    rangeState := job.rangeState.set index .pending
    tracker := job.tracker.recordFailure peer now
    totalFailures := min (job.totalFailures + 1) usizeMax }

end Job

/-! ## Assigning ranges -/

/-- Hand out pending ranges under one plan of the selector, `fuel` of them at most. -/
def fillFrom (seams : ResourceSeams) (plan : SelectPlan) : Nat → JobM Unit
  | 0 => pure ()
  | fuel + 1 => do
      let job ← getJob
      if seams.config.maxConcurrency ≤ job.inflight.length then
        pure ()
      else
        match job.nextPending with
        | none => pure ()
        | some range =>
            match job.pickFromPlan seams.config plan range with
            | none => pure ()
            | some peer => do
                modifyJob (·.issue range peer)
                noteJob (.issue range peer)
                fillFrom seams plan fuel

/-- Ask the selector once, and hand out ranges. -/
def fill (seams : ResourceSeams) (key : String) : JobM Unit := do
  let now ← readClock seams
  let job ← getJob
  let plan ← askJob (seams.select · (job.selectRequest key now))
    (.select (job.selectRequest key now))
  fillFrom seams plan job.rangeState.length

/-! ## The head of the loop -/

/-- What the head of an iteration comes to: the loop is over, it starts over at once, or
it waits, with the instant at which a backoff window ends if nothing else can happen. -/
inductive Head where
  | finished
  | again
  | waiting (wakeup : Option Nat)
  deriving DecidableEq, Repr

/-- Wait for the first backoff window to end, or give up if there is none. -/
def waitOut (seams : ResourceSeams) : JobM Head := do
  let now ← readClock seams
  let job ← getJob
  match job.earliestBackoff seams.config now with
  | some t => pure (.waiting (some t))
  | none =>
      failWith s!"no live providers ({job.pendingCount} range(s) unmet)"
        (.noProviders job.pendingCount)

/-- Nothing is in flight and ranges are missing: locate holders again, once since the last
progress, or wait. -/
def stalled (seams : ResourceSeams) (content : ContentId) : JobM Head := do
  let job ← getJob
  if job.relocatedSinceProgress = false ∧ job.relocateAttempts < seams.config.maxRelocateAttempts
  then do
    let added ← relocate seams content
    modifyJob fun job => { job with relocatedSinceProgress := true }
    if 0 < added then pure .again else waitOut seams
  else
    waitOut seams

/-- Fill, unless the download is paused. -/
def fillUnlessPaused (seams : ResourceSeams) (key : String) : JobM Unit := do
  let job ← getJob
  if job.paused then pure () else fill seams key

def loopHead (seams : ResourceSeams) (content : ContentId) (key : String) : JobM Head := do
  fillUnlessPaused seams key
  let job ← getJob
  if job.allDone ∧ job.inflight = [] then
    pure .finished
  else if job.budget seams.config < job.totalFailures then
    failWith s!"provider set exhausted ({job.pendingCount} range(s) unmet)"
      (.noProviders job.pendingCount)
  else if job.paused = false ∧ job.inflight = [] ∧ job.allDone = false then
    stalled seams content
  else
    pure (.waiting none)

/-- The head, started over when it found new holders; that happens once at most, because
they are not located twice without progress. -/
def settledHead (seams : ResourceSeams) (content : ContentId) (key : String) : JobM Head := do
  match ← loopHead seams content key with
  | .again => loopHead seams content key
  | head => pure head

/-! ## The turns -/

/-- Verify a fetched range: what its stream declares, and its bytes. -/
def verifyFetched (seams : ResourceSeams) (commitment : ResourceCommitment) (range : Range)
    (fetched : FetchedRange) : RangeVerdict :=
  match commitment.checkConsistent fetched.rangeMeta.totalLength fetched.rangeMeta.chunkLens
    fetched.rangeMeta.root with
  | .error e => .rejected e
  | .ok () =>
      verifyRange seams.debugAssertions commitment range.chunkStart range.length fetched.bytes

/-- `DownloadError::Timeout { .. }`. -/
def DownloadError.isTimeout : DownloadError → Bool
  | .timeout _ => true
  | _ => false

/-- A verified range is written, fed to the hash and checkpointed. -/
def rangeSucceeded (seams : ResourceSeams) (range : Range) (index : Nat) (peer : String)
    (bytes : Bytes) : JobM Unit := do
  orFail (sinkWriteAt seams.host range.offset bytes)
  modifyJob (·.complete range index peer bytes)
  noteJob (.record peer bytes.length .ok)
  checkpoint seams
  let job ← getJob
  emit (.rangeCompleted index peer job.snapshot)

/-- A range that failed goes back to the queue, unless the failure is final. -/
def rangeFailed (seams : ResourceSeams) (index : Nat) (peer : String) (e : DownloadError) :
    JobM Unit :=
  if e.isRecoverable then do
    let now ← readClock seams
    modifyJob (·.requeue index peer now)
    noteJob (.record peer 0 (if e.isTimeout then .timedOut else .failed))
    emit (.rangeFailed index peer e.display)
  else
    failWith e.display e

/-- The end of a fetch. -/
def handleResult (seams : ResourceSeams) (index : Nat) (peer : String)
    (answer : Except DownloadError FetchedRange) : JobM Unit := do
  modifyJob (·.release peer)
  let job ← getJob
  match job.commitment, job.ranges[index]? with
  | some commitment, some range =>
      match answer with
      | .error e => rangeFailed seams index peer e
      | .ok fetched =>
          match verifyFetched seams commitment range fetched with
          | .assertionFailed => Prog.fail .panicked
          | .rejected e => rangeFailed seams index peer (.verify e)
          | .ok => rangeSucceeded seams range index peer fetched.bytes
  | _, _ => Prog.fail .panicked

/-- What an outstanding fetch has come to at a moment; `none` while it has not ended. -/
def fetchOutcome (seams : ResourceSeams) (content : ContentId) (job : Job) (fetch : Fetch)
    (t : Nat) : FetchAnswer :=
  match fetch.provider, job.ranges[fetch.range]? with
  | none, _ => some (.error (.transport fetch.peer "provider vanished"))
  | some provider, some range =>
      match rangeRequest content range.offset range.length true with
      | .error e => some (.error e)
      | .ok req => underTimeout seams fetch.peer (seams.fetchRange t provider req)
  | some _, none => none

/-- A control message, or the end of the control channel. -/
def controlTurn (seams : ResourceSeams) : Option Control → JobM Unit
  | some .pause => do
      let job ← getJob
      if job.paused then pure ()
      else do
        modifyJob fun job => { job with paused := true }
        tryCheckpoint seams
        emit .paused
  | some .resume => do
      let job ← getJob
      if job.paused then do
        modifyJob fun job => { job with paused := false }
        emit .resumed
      else pure ()
  | some .cancel | none => do
      tryCheckpoint seams
      failWith "cancelled" .cancelled

/-- The periodic refresh; a failure to locate holders is ignored. -/
def refreshTurn (seams : ResourceSeams) (content : ContentId) : JobM Unit := do
  let now ← readClock seams
  modifyJob fun job => { job with lastRefresh := now }
  Prog.handle (discoverMore seams content) fun
    | .error .panicked => Prog.fail .panicked
    | .error .pending => Prog.fail .pending
    | _ => pure ()

/-- One turn, and whether it could happen. -/
def takeTurn (seams : ResourceSeams) (content : ContentId) (wakeup : Option Nat) :
    Turn → JobM Bool
  | .control message => do
      controlTurn seams message
      pure true
  | .completed choice => do
      let w ← Prog.read
      match w.own.inflight[choice % w.own.inflight.length]? with
      | none => pure false
      | some fetch =>
          match fetchOutcome seams content w.own fetch w.tick with
          | none => pure false
          | some answer => do
              modifyJob fun job => { job with
                inflight := job.inflight.eraseIdx (choice % job.inflight.length) }
              noteJob (.fetched fetch.range fetch.peer (some answer))
              handleResult seams fetch.range fetch.peer answer
              pure true
  | .wake => do
      let w ← Prog.read
      pure (wakeup.any fun t => t ≤ seams.now w.tick)
  | .refresh => do
      let w ← Prog.read
      if w.own.paused = false ∧
          (seams.config.refreshInterval.any fun iv => w.own.lastRefresh + iv ≤ seams.now w.tick)
      then do
        refreshTurn seams content
        pure true
      else
        pure false

/-- The loop from the point where it waits. A turn that cannot happen is passed over. -/
def scheduleFrom (seams : ResourceSeams) (content : ContentId) (key : String) :
    List Turn → Option Nat → JobM Unit
  | [], _ => Prog.fail .pending
  | turn :: turns, wakeup => do
      if ← takeTurn seams content wakeup turn then
        match ← settledHead seams content key with
        | .finished => pure ()
        | .waiting wakeup => scheduleFrom seams content key turns wakeup
        | .again => Prog.fail .pending
      else
        scheduleFrom seams content key turns wakeup

def scheduleLoop (seams : ResourceSeams) (content : ContentId) (key : String)
    (turns : List Turn) : JobM Unit := do
  match ← settledHead seams content key with
  | .finished => pure ()
  | .waiting wakeup => scheduleFrom seams content key turns wakeup
  | .again => Prog.fail .pending

end DigDownload
