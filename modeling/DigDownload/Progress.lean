import Mathlib.Data.Finset.Basic
import Mathlib.Data.Finset.Insert
import DigDownload.Basic

/-!
# Checkpoints, events and remembered verdicts

A checkpoint says which chunks or ranges of a download are done. A verdict says
that a holder once supplied a descriptor that was proven false; verdicts decay,
and only so many of them are kept.
-/

namespace DigDownload

/-! ## Progress -/

/-- A snapshot of a download's progress. -/
structure DownloadProgress where
  bytesDone : Nat
  totalLength : Nat
  rangesDone : Nat
  rangesTotal : Nat
  activeSources : Nat
  deriving DecidableEq, Repr

/-- What a download tells its owner as it runs. -/
inductive DownloadEvent where
  | planned (rangesTotal totalLength : Nat)
  | rangeCompleted (range : Nat) (provider : String) (progress : DownloadProgress)
  | rangeFailed (range : Nat) (provider reason : String)
  | providersRefreshed (providers : Nat)
  | paused
  | resumed
  | completed (totalLength : Nat)
  | failed (reason : String)
  deriving DecidableEq, Repr

/-! ## Checkpoints -/

/-- The durable resume state of one download. -/
structure DownloadState where
  key : String
  totalLength : Nat
  chunkLens : List Nat
  root : Option String
  inclusionProof : Option String
  doneRanges : Finset Nat
  deriving DecidableEq

namespace DownloadState

def new (key : String) : DownloadState :=
  { key, totalLength := 0, chunkLens := [], root := none, inclusionProof := none, doneRanges := ∅ }

def markDone (s : DownloadState) (index : Nat) : DownloadState :=
  { s with doneRanges := insert index s.doneRanges }

def isDone (s : DownloadState) (index : Nat) : Bool := decide (index ∈ s.doneRanges)

/-- `mem::take` of the done set: the state without it. -/
def takeDone (s : DownloadState) : DownloadState := { s with doneRanges := ∅ }

@[simp] theorem markDone_key (s : DownloadState) (i : Nat) : (s.markDone i).key = s.key := rfl

@[simp] theorem markDone_chunkLens (s : DownloadState) (i : Nat) :
    (s.markDone i).chunkLens = s.chunkLens := rfl

@[simp] theorem markDone_doneRanges (s : DownloadState) (i : Nat) :
    (s.markDone i).doneRanges = insert i s.doneRanges := rfl

@[simp] theorem takeDone_key (s : DownloadState) : s.takeDone.key = s.key := rfl

@[simp] theorem takeDone_chunkLens (s : DownloadState) : s.takeDone.chunkLens = s.chunkLens := rfl

@[simp] theorem takeDone_doneRanges (s : DownloadState) : s.takeDone.doneRanges = ∅ := rfl

end DownloadState

/-! ## Verdicts -/

/-- How long a verdict stands, in seconds. -/
def badDescriptorTtl : Nat := 24 * 60 * 60

/-- The most verdicts kept for one target. -/
def maxBadDescriptorPeers : Nat := 32

/-- A holder caught with a false descriptor, and when. -/
structure BadDescriptorVerdict where
  peerId : String
  recordedAtUnix : Nat
  deriving DecidableEq, Repr

def isHexPeerId (peerId : String) : Bool :=
  peerId.utf8ByteSize = 64 && peerId.toList.all isAsciiHexdigit

/-- A verdict dated in the future counts as current. -/
def isExpired (verdict : BadDescriptorVerdict) (now : Nat) : Bool :=
  decide (badDescriptorTtl < now - verdict.recordedAtUnix)

/-- Drop expired verdicts and an older one of the same peer, add the new one, and evict
from the front what exceeds the cap. An id that is not 64 hex digits is not recorded. -/
def recordVerdict (verdicts : List BadDescriptorVerdict) (peerId : String) (now : Nat) :
    List BadDescriptorVerdict :=
  if isHexPeerId peerId then
    let kept := verdicts.filter fun v => !isExpired v now && v.peerId != peerId
    let all := kept ++ [{ peerId, recordedAtUnix := now }]
    all.drop (all.length - maxBadDescriptorPeers)
  else
    verdicts

/-- The peers whose verdict still stands. -/
def livePeers (verdicts : List BadDescriptorVerdict) (now : Nat) : List String :=
  (verdicts.filter fun v => !isExpired v now).map (·.peerId)

end DigDownload
