import DigDownload.Module.Reader

/-!
# The module pull

`ModuleDownloader::download` pulls a whole module: it locates holders, asks them
for a descriptor, and stages and hashes the module chunk by chunk under that
descriptor. Two gates stand before promotion, the hash of the whole module and the
anchor. A descriptor whose pull fails demotes the holder that supplied it, and
another one is asked, three times at most.

The locator, the holders, the anchor verifier and the allocator are whatever
`ModuleSeams` says they answer to the call made at a given moment of the run.
-/

namespace DigDownload

/-- How many descriptors one pull tries. -/
def maxDescriptorAttempts : Nat := 3

/-- The generation a module belongs to, as two 64-digit hexadecimal ids. -/
structure Capsule where
  storeId : String
  root : String
  deriving DecidableEq, Repr

def moduleDownloadKey (c : Capsule) : String := s!"module:{c.storeId}:{c.root}"

def moduleContentId (c : Capsule) : Option ContentId := do
  let storeId ← hex32 c.storeId
  let root ← hex32 c.root
  some (.root storeId root)

/-! ## The seams -/

/-- The three answers of an anchor verifier. -/
inductive ModuleAnchor where
  | anchored
  | notAnchored
  | unavailable (reason : String)
  deriving DecidableEq, Repr

/-- The answer to an ask under a time limit; `none` when the holder did not answer. -/
abbrev Answer (α : Type) := Option (Except DownloadError α)

structure ModuleDownloadConfig where
  /-- The window of one ask, in nanoseconds. -/
  rangeTimeout : Nat
  maxModuleSize : Nat
  maxModuleSize_le : maxModuleSize ≤ u64Max

/-- The injected parts of a `ModuleDownloader`, each as its answer to the call that is
made as the `t`-th one of the run. -/
structure ModuleSeams where
  sha256 : Bytes → Bytes
  findProviders : Nat → ContentId → Except DownloadError (List ProviderRecord)
  getModuleInfo : Nat → String → Capsule → Answer ModuleInfo
  fetchModuleRange : Nat → String → Capsule → Nat → Nat → Answer Bytes
  verifyModuleAnchor : Nat → ModuleReader → Capsule → ModuleAnchor
  reserve : Nat → Nat → Option String
  host : Host
  config : ModuleDownloadConfig

/-- The calls of a module pull to its seams. Three entries are not calls: they mark that
a chunk has to be fetched, how the whole-module hash came out, and that a holder is demoted. -/
inductive ModuleAsk where
  | findProviders (answer : Except DownloadError (List ProviderRecord))
  | getModuleInfo (peer : String) (answer : Answer ModuleInfo)
  | reserve (count : Nat) (answer : Option String)
  | fetchChunk (index : Nat)
  | fetchModuleRange (peer : String) (offset length : Nat) (answer : Answer Bytes)
  | hashGate (assembled declared : String)
  | verifyModuleAnchor (module : ModuleReader) (answer : ModuleAnchor)
  | demote (peer : String)

/-- A pull keeps the holders it knows; the list grows as chunks fail. -/
abbrev PullWorld := World ModuleAsk (List ProviderRecord)

abbrev PullM := Prog PullWorld DownloadError

/-- Call a seam: its answer at this moment, recorded in the trace. -/
def askSeam {ε α : Type} (seam : Nat → α) (asked : α → ModuleAsk) : Prog PullWorld ε α := fun w =>
  (.ok (seam w.tick), w.note (.ask (asked (seam w.tick))))

/-- Mark a point of the run in the trace. -/
def markPull {ε : Type} (a : ModuleAsk) : Prog PullWorld ε Unit :=
  Prog.update fun w => w.note (.ask a)

/-! ## Reasons -/

/-- The digits of a fraction of `10 ^ digits`, without trailing zeros. -/
def fractionDigits (digits frac : Nat) : String :=
  let all := Nat.toDigits 10 (10 ^ digits + frac)
  String.ofList ((all.drop 1).reverse.dropWhile (· = '0')).reverse

/-- `Duration` as `{:?}` shows it. -/
def durationDebug (nanos : Nat) : String :=
  let show' (unit : Nat) (digits : Nat) (suffix : String) : String :=
    if nanos % unit = 0 then s!"{nanos / unit}{suffix}"
    else s!"{nanos / unit}.{fractionDigits digits (nanos % unit)}{suffix}"
  if 10 ^ 9 ≤ nanos then show' (10 ^ 9) 9 "s"
  else if 10 ^ 6 ≤ nanos then show' (10 ^ 6) 6 "ms"
  else if 10 ^ 3 ≤ nanos then show' (10 ^ 3) 3 "µs"
  else s!"{nanos}ns"

/-- Why each holder could not serve a step. -/
abbrev HolderReasons := List String

def HolderReasons.record (rs : HolderReasons) (peer reason : String) : HolderReasons :=
  rs ++ [hex64OrSentinel peer "peer-id" ++
    s!": {sanitizeUntrustedText reason maxErrorReasonChars}"]

def HolderReasons.display (rs : HolderReasons) : String :=
  if rs = [] then "no holder reasons recorded"
  else "reasons: [" ++ String.intercalate "; " rs ++ "]"

/-! ## Whom to ask for a descriptor -/

/-- The holders not to ask: those demoted in this call, and those remembered from an
earlier one as long as the memory is trusted. -/
structure DescriptorExclusions where
  demotedHere : List String
  remembered : List String
  trustsMemory : Bool
  deriving DecidableEq

namespace DescriptorExclusions

def new (remembered : List String) : DescriptorExclusions :=
  { demotedHere := [], remembered, trustsMemory := !remembered.isEmpty }

def excluded (x : DescriptorExclusions) : List String :=
  if x.trustsMemory then x.demotedHere ++ x.remembered else x.demotedHere

def usableHolders (x : DescriptorExclusions) (providers : List ProviderRecord) : Nat :=
  (providers.filter fun p => !x.excluded.contains p.providerPeerId).length

def demote (x : DescriptorExclusions) (peer : String) : DescriptorExclusions :=
  { x with demotedHere := x.demotedHere ++ [peer] }

/-- Stop honouring remembered verdicts, and say whether there were any to honour. -/
def stopTrustingMemory (x : DescriptorExclusions) : Bool × DescriptorExclusions :=
  (x.trustsMemory && !x.remembered.isEmpty, { x with trustsMemory := false })

/-- The head of the attempt loop: the memory is dropped when honouring it leaves nobody
to ask. The loop then starts over, and finds the memory dropped already. -/
def settle (x : DescriptorExclusions) (providers : List ProviderRecord) : DescriptorExclusions :=
  if x.usableHolders providers = 0 then x.stopTrustingMemory.2 else x

end DescriptorExclusions

/-- Ask the holders that are not excluded, in order, until one answers with a descriptor.
A failure that is not recoverable ends the round. -/
def askDescriptors (seams : ModuleSeams) (c : Capsule) (excluded : List String) :
    List ProviderRecord → HolderReasons → Nat → PullM (String × ModuleInfo)
  | [], reasons, tried =>
      Prog.fail (.notFound (s!"getModuleInfo failed on all {tried} usable holder(s) " ++
        s!"({excluded.length} demoted) for module {moduleDownloadKey c} — {reasons.display}"))
  | provider :: providers, reasons, tried =>
      let peer := provider.providerPeerId
      if peer ∈ excluded then
        askDescriptors seams c excluded providers reasons tried
      else do
        match ← askSeam (seams.getModuleInfo · peer c) (.getModuleInfo peer) with
        | some (.ok info) => pure (peer, info)
        | some (.error e) =>
            if e.isRecoverable then
              askDescriptors seams c excluded providers (reasons.record peer e.display) (tried + 1)
            else
              Prog.fail e
        | none =>
            askDescriptors seams c excluded providers (reasons.record peer
              s!"getModuleInfo timed out after {durationDebug seams.config.rangeTimeout}")
              (tried + 1)

def fetchModuleInfo (seams : ModuleSeams) (c : Capsule) (excluded : List String) :
    PullM (String × ModuleInfo) := do
  let w ← Prog.read
  askDescriptors seams c excluded w.own [] 0

/-! ## Fetching a chunk -/

/-- Fetch one chunk from one holder: the verified bytes, or why not. An answer longer than
the window is cut to it. -/
def fetchChunkFrom (seams : ModuleSeams) (c : Capsule) (peer : String) (offset len : Nat)
    (expectedHash : String) : PullM (Except String Bytes) := do
  match ← askSeam (seams.fetchModuleRange · peer c offset len)
      (.fetchModuleRange peer offset len) with
  | none => pure (.error s!"timed out after {durationDebug seams.config.rangeTimeout}")
  | some (.error e) => pure (.error s!"transport: {e.display}")
  | some (.ok answer) =>
      let bytes := answer.take len
      if bytes.length ≠ len then
        pure (.error s!"short range: wanted {len} bytes, got {bytes.length}")
      else if hexOf (seams.sha256 bytes) ≠ expectedHash then
        pure (.error "chunk hash mismatch")
      else
        pure (.ok bytes)

/-- The holders in the order a chunk asks them: all of them, starting at its own index. -/
def rotation (providers : List ProviderRecord) (index : Nat) : List String :=
  (List.range providers.length).map fun step =>
    match providers[(index + step) % providers.length]? with
    | some p => p.providerPeerId
    | none => ""

/-- Ask holders one after the other for a chunk, until one serves it. -/
def tryHolders (seams : ModuleSeams) (c : Capsule) (offset len : Nat) (expectedHash : String) :
    List String → HolderReasons → PullM (Except HolderReasons Bytes)
  | [], reasons => pure (.error reasons)
  | peer :: peers, reasons => do
      match ← fetchChunkFrom seams c peer offset len expectedHash with
      | .ok bytes => pure (.ok bytes)
      | .error reason =>
          tryHolders seams c offset len expectedHash peers (reasons.record peer reason)

/-- Append the holders that are not known yet. -/
def mergeNewProviders : List ProviderRecord → List ProviderRecord → List ProviderRecord
  | known, [] => known
  | known, p :: fresh =>
      if known.any fun k => k.providerPeerId = p.providerPeerId then
        mergeNewProviders known fresh
      else
        mergeNewProviders (known ++ [p]) fresh

/-- Fetch and attribute a chunk: every known holder is tried, then the holders are
located once more and all of them are tried again. -/
def fetchVerifiedChunk (seams : ModuleSeams) (c : Capsule) (info : ModuleInfo)
    (layout : ChunkPlan) (index : Nat) : PullM Bytes := do
  let span := layout.chunkSpan index
  let expectedHash := info.chunkHashes.getD index ""
  markPull (.fetchChunk index)
  let w ← Prog.read
  match ← tryHolders seams c span.1 span.2 expectedHash (rotation w.own index) [] with
  | .ok bytes => pure bytes
  | .error reasons =>
      match moduleContentId c with
      | none => Prog.fail .notDownloadable
      | some content => do
          let refreshed ← Prog.bind (askSeam (seams.findProviders · content) .findProviders)
            Prog.ofExcept
          Prog.update fun w => { w with own := mergeNewProviders w.own refreshed }
          let w ← Prog.read
          match ← tryHolders seams c span.1 span.2 expectedHash (rotation w.own index) reasons with
          | .ok bytes => pure bytes
          | .error reasons =>
              Prog.fail (.notFound (s!"fetchModuleRange failed for chunk {index} " ++
                s!"([{span.1}, {span.1 + span.2}) of module {moduleDownloadKey c}) on all " ++
                s!"{w.own.length} known holder(s) — {reasons.display}"))

/-! ## Resuming -/

/-- The checkpoint a pull starts from, and whether it belongs to this plan. -/
structure Resume where
  state : DownloadState
  resumesStaging : Bool

def loadOrFreshState (seams : ModuleSeams) (key : String) (layout : ChunkPlan) : PullM Resume := do
  let fresh : Resume := {
    state := { DownloadState.new key with
      totalLength := layout.totalSize, chunkLens := layout.chunkLens }
    resumesStaging := false }
  match ← storeLoad seams.host key with
  | some prev =>
      if prev.chunkLens = layout.chunkLens then pure { state := prev, resumesStaging := true }
      else pure fresh
  | none => pure fresh

/-- Read a checkpointed chunk back; `none` when it cannot be read or is not the chunk
that the descriptor describes. -/
def readBackVerifiedChunk (seams : ModuleSeams) (info : ModuleInfo) (index offset len : Nat) :
    PullM (Option Bytes) :=
  Prog.handle (sinkReadAt seams.host offset len) fun
    | .error _ => pure none
    | .ok bytes =>
        if bytes.length ≠ len ∨ hexOf (seams.sha256 bytes) ≠ info.chunkHashes.getD index "" then
          pure none
        else
          pure (some bytes)

/-- The staged bytes of a chunk, if it was checkpointed and is still intact. -/
def resumedChunk (seams : ModuleSeams) (info : ModuleInfo) (checkpointed : Finset Nat)
    (index offset len : Nat) : PullM (Option Bytes) :=
  if index ∈ checkpointed then readBackVerifiedChunk seams info index offset len
  else pure none

/-! ## One descriptor -/

/-- A local failure ends the pull. -/
def orTerminal {α : Type} (m : PullM α) : Prog PullWorld PullFailure α :=
  Prog.handle m fun
    | .ok a => pure a
    | .error e => Prog.fail (.terminal e)

/-- Say what an exhaustion is most likely to mean. -/
def describeChunkExhaustion (e : DownloadError) (anyChunkVerified : Bool) : DownloadError :=
  let diagnosis :=
    if anyChunkVerified then
      "some chunk(s) had already verified under this descriptor, so the missing bytes are more " ++
        "likely genuinely unavailable than fabricated"
    else
      "no chunk ever verified under this descriptor, so it is more likely fabricated than the " ++
        "bytes unavailable"
  match e with
  | .notFound content => .notFound s!"{content} — {diagnosis}"
  | other => other

/-- `DownloadError::NotFound { .. }`. -/
def DownloadError.isNotFound : DownloadError → Bool
  | .notFound _ => true
  | _ => false

/-- What the staging loop carries from chunk to chunk. -/
structure Staging where
  state : DownloadState
  hashed : Bytes
  anyChunkVerified : Bool

/-- One turn of the staging loop: the chunk is read back or fetched, staged,
checkpointed, and absorbed into the hash of the whole module. -/
def stageChunk (seams : ModuleSeams) (c : Capsule) (info : ModuleInfo) (layout : ChunkPlan)
    (checkpointed : Finset Nat) (acc : Staging) (index : Nat) :
    Prog PullWorld PullFailure Staging := do
  let span := layout.chunkSpan index
  match ← orTerminal (resumedChunk seams info checkpointed index span.1 span.2) with
  | some bytes => pure {
      state := acc.state.markDone index
      hashed := acc.hashed ++ bytes
      anyChunkVerified := true }
  | none => do
      let bytes ← Prog.handle (fetchVerifiedChunk seams c info layout index) fun
        | .ok bytes => pure bytes
        | .error e =>
            if e.isRecoverable || e.isNotFound then
              Prog.fail (.unsatisfiableDescriptor (describeChunkExhaustion e acc.anyChunkVerified))
            else
              Prog.fail (.terminal e)
      orTerminal (sinkWriteAt seams.host span.1 bytes)
      orTerminal (storeSave seams.host (acc.state.markDone index))
      pure {
        state := (acc.state.markDone index).markDone index
        hashed := acc.hashed ++ bytes
        anyChunkVerified := true }

/-- The view of the staging area that the anchor verifier gets. -/
def stagedReader (seams : ModuleSeams) (info : ModuleInfo) (layout : ChunkPlan) (w : PullWorld) :
    StagedModuleReader where
  sha256 := seams.sha256
  read offset len :=
    match seams.host.readAt w.tick offset len with
    | some e => .error e
    | none => w.sink.read offset len
  layout
  chunkHashes := info.chunkHashes

/-- Promote the module and drop its checkpoint. A refused promotion drops the checkpoint
and the staged bytes, so that a later pull fetches them again. -/
def promoteModule (seams : ModuleSeams) (key : String) (totalSize : Nat) :
    Prog PullWorld PullFailure Nat :=
  Prog.handle (promoteVerified seams.host totalSize) fun
    | .error e => do
        ignoringFailure (storeClear seams.host key)
        ignoringFailure (sinkTruncate seams.host 0)
        Prog.fail (.terminal e)
    | .ok () => do
        orTerminal (storeClear seams.host key)
        pure totalSize

/-- The two gates and the promotion, once every chunk is staged. -/
def gateAndPromote (seams : ModuleSeams) (c : Capsule) (info : ModuleInfo) (layout : ChunkPlan)
    (hashed : Bytes) : Prog PullWorld PullFailure Nat := do
  let assembledHash := hexOf (seams.sha256 hashed)
  markPull (.hashGate assembledHash info.moduleHash)
  if assembledHash ≠ info.moduleHash then
    Prog.fail (.badDescriptor (.verify (.metadata (s!"assembled module_hash {assembledHash} != " ++
      "declared " ++ hex64OrSentinel info.moduleHash "module-hash"))))
  else do
    let w ← Prog.read
    if w.sink.supportsReadBack = false then
      Prog.fail (.terminal (.sink ("this sink cannot read back its staged bytes, so the " ++
        "chain-anchor gate has nothing to read and the module could never be promoted; " ++
        "implement Sink::read_at + Sink::supports_read_back")))
    else do
      let reader := (stagedReader seams info layout w).toModuleReader
      match ← askSeam (seams.verifyModuleAnchor · reader c) (.verifyModuleAnchor reader) with
      | .notAnchored =>
          Prog.fail (.badDescriptor (.verify (.metadata (s!"assembled module is not " ++
            s!"chain-anchored under ({c.storeId}, {c.root})"))))
      | .unavailable reason =>
          Prog.fail (.terminal (.state (s!"cannot verify the chain anchor for ({c.storeId}, " ++
            s!"{c.root}): {sanitizeUntrustedText reason maxErrorReasonChars}")))
      | .anchored => promoteModule seams (moduleDownloadKey c) layout.totalSize

/-- A whole pull under one descriptor. What the allocator would answer is fixed first; it
matters only to a descriptor that passes the other checks. -/
def pullWithDescriptor (seams : ModuleSeams) (c : Capsule) (info : ModuleInfo) :
    Prog PullWorld PullFailure Nat := do
  let reserved ← askSeam (fun t => seams.reserve t info.chunkLens.length)
    (.reserve info.chunkLens.length)
  let layout ← Prog.ofExcept
    (ChunkPlan.fromInfo info seams.config.maxModuleSize fun _ => reserved)
  let resume ← orTerminal (loadOrFreshState seams (moduleDownloadKey c) layout)
  if resume.resumesStaging then
    stageAndPromote layout resume.state
  else do
    orTerminal (sinkTruncate seams.host 0)
    stageAndPromote layout resume.state
where
  /-- The staging loop over every chunk, and the gates. -/
  stageAndPromote (layout : ChunkPlan) (state : DownloadState) :
      Prog PullWorld PullFailure Nat := do
    let staging ← (List.range layout.chunkCount).foldlM
      (stageChunk seams c info layout state.doneRanges)
      { state := state.takeDone, hashed := [], anyChunkVerified := false }
    gateAndPromote seams c info layout staging.hashed

/-! ## The attempts -/

/-- Why an attempt did not end the pull: its error, whom not to ask next, and whether
nobody is left to ask. -/
structure FailedAttempt where
  error : DownloadError
  exclusions : DescriptorExclusions
  noneLeft : Bool

/-- Only a descriptor that is proven false earns its source a verdict. -/
def recordIfProvenFalse (seams : ModuleSeams) (key source : String) (failure : PullFailure) :
    PullM Unit :=
  if failure.isProvenFalse then
    ignoringFailure (storeRecordBadDescriptor seams.host key source)
  else
    pure ()

/-- One turn of the attempt loop. It fails when the pull must end. -/
def descriptorAttempt (seams : ModuleSeams) (c : Capsule) (exclusions : DescriptorExclusions) :
    PullM (Nat ⊕ FailedAttempt) := do
  let w ← Prog.read
  let exclusions := exclusions.settle w.own
  Prog.handle (fetchModuleInfo seams c exclusions.excluded) fun
    | .error e => pure (.inr { error := e, exclusions, noneLeft := false })
    | .ok (source, info) =>
        Prog.handle (pullWithDescriptor seams c info) fun
          | .ok len => pure (.inl len)
          | .error (.terminal e) => Prog.fail e
          | .error failure => do
              recordIfProvenFalse seams (moduleDownloadKey c) source failure
              markPull (.demote source)
              let exclusions := exclusions.demote source
              let w ← Prog.read
              pure (.inr {
                error := failure.error
                exclusions
                noneLeft := exclusions.usableHolders w.own = 0 && !exclusions.trustsMemory })

/-- The attempt loop, with `left` attempts to go after this one. -/
def attemptLoop (seams : ModuleSeams) (c : Capsule) : Nat → DescriptorExclusions → PullM Nat
  | 0, exclusions => do
      match ← descriptorAttempt seams c exclusions with
      | .inl len => pure len
      | .inr failed => Prog.fail failed.error
  | left + 1, exclusions => do
      match ← descriptorAttempt seams c exclusions with
      | .inl len => pure len
      | .inr failed =>
          if failed.noneLeft then Prog.fail failed.error
          else attemptLoop seams c left failed.exclusions

/-- The remembered verdicts of a capsule; an unreadable store remembers nothing. -/
def rememberedVerdicts (seams : ModuleSeams) (key : String) : PullM (List String) :=
  Prog.handle (storeBadDescriptorPeers seams.host key) fun
    | .ok peers => pure peers
    | .error _ => pure []

/-- `ModuleDownloader::download`: the length of the verified module, or why there is none. -/
def download (seams : ModuleSeams) (c : Capsule) : PullM Nat :=
  match moduleContentId c with
  | none => Prog.fail .notDownloadable
  | some content => do
      let providers ← Prog.bind (askSeam (seams.findProviders · content) .findProviders)
        Prog.ofExcept
      if providers = [] then
        Prog.fail (.notFound (moduleDownloadKey c))
      else do
        Prog.update fun w => { w with own := providers }
        let remembered ← rememberedVerdicts seams (moduleDownloadKey c)
        attemptLoop seams c (maxDescriptorAttempts - 1) (DescriptorExclusions.new remembered)

end DigDownload
