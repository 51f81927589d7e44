import DigDownload.Basic

/-!
# Sources and their selection

What is asked of a holder and what it answers, how healthy a holder is as a source, and
the seam through which the choice of sources is delegated. A failure puts a source into
a backoff window that doubles with every consecutive failure, up to a cap.
-/

namespace DigDownload

/-! ## Requests and answers -/

/-- A `dig.fetchRange` request for a window of a capsule or of one of its resources. -/
structure RangeRequest where
  storeId : String
  root : String
  retrievalKey : Option String
  offset : Nat
  length : Nat
  skipLayout : Bool
  deriving DecidableEq, Repr

/-- A `dig.getAvailability` item. -/
structure AvailabilityItem where
  storeId : String
  root : String
  retrievalKey : Option String
  deriving DecidableEq, Repr

/-- The verification metadata that a range stream declares. -/
structure RangeMeta where
  totalLength : Option Nat
  chunkLens : Option (List Nat)
  chunkCount : Option Nat
  chunkIndex : Option Nat
  root : Option String
  inclusionProof : Option String
  deriving DecidableEq, Repr

/-- A fetched and reassembled byte range. -/
structure FetchedRange where
  requestOffset : Nat
  bytes : Bytes
  rangeMeta : RangeMeta
  deriving DecidableEq, Repr

/-! ## The health of sources -/

structure SourceHealth where
  failures : Nat
  served : Nat
  backoffUntil : Option Nat
  deriving DecidableEq, Repr

def SourceHealth.default : SourceHealth := { failures := 0, served := 0, backoffUntil := none }

/-- The health of every source. A source that was never recorded has the default one. -/
structure SourceTracker where
  health : String → SourceHealth
  baseBackoff : Nat
  maxBackoff : Nat

namespace SourceTracker

def new (baseBackoff maxBackoff : Nat) : SourceTracker :=
  { health := fun _ => SourceHealth.default, baseBackoff, maxBackoff }

/-- Whether a source can be scheduled at an instant: it is not in a backoff window. -/
def isAvailable (t : SourceTracker) (peer : String) (now : Nat) : Bool :=
  match (t.health peer).backoffUntil with
  | some backoffUntil => decide (backoffUntil ≤ now)
  | none => true

def recordSuccess (t : SourceTracker) (peer : String) : SourceTracker :=
  { t with
    health := Function.update t.health peer
      { failures := 0, served := (t.health peer).served + 1, backoffUntil := none } }

/-- The backoff after a number of consecutive failures. A product too large for a duration
is larger than the cap. -/
def backoffAfter (t : SourceTracker) (failures : Nat) : Nat :=
  min (t.baseBackoff * 2 ^ min (failures - 1) 16) t.maxBackoff

def recordFailure (t : SourceTracker) (peer : String) (now : Nat) : SourceTracker :=
  let failures := min ((t.health peer).failures + 1) (2 ^ 32 - 1)
  { t with
    health := Function.update t.health peer
      { t.health peer with
        failures
        backoffUntil := some (now + t.backoffAfter failures) } }

section Tracker

variable {t : SourceTracker} {peer other : String} {now later : Nat}

@[simp] theorem isAvailable_new (base max : Nat) :
    (new base max).isAvailable peer now = true := rfl

@[simp] theorem isAvailable_recordSuccess_self :
    (t.recordSuccess peer).isAvailable peer now = true := by
  simp [isAvailable, recordSuccess]

theorem isAvailable_recordSuccess_ne (h : other ≠ peer) :
    (t.recordSuccess peer).isAvailable other now = t.isAvailable other now := by
  simp [isAvailable, recordSuccess, Function.update_of_ne h]

theorem isAvailable_recordFailure_self :
    (t.recordFailure peer now).isAvailable peer later = true ↔
      now + t.backoffAfter (min ((t.health peer).failures + 1) (2 ^ 32 - 1)) ≤ later := by
  simp [isAvailable, recordFailure]

theorem backoffAfter_le (failures : Nat) : t.backoffAfter failures ≤ t.maxBackoff :=
  Nat.min_le_right _ _

end Tracker

end SourceTracker

/-! ## The selection seam -/

/-- A candidate source, with the addresses it can be dialled at and a tag that is passed
through unread. -/
structure CandidateRef where
  peerId : String
  addrs : List String
  tag : Option Nat
  deriving DecidableEq, Repr

def CandidateRef.ofProvider (p : ProviderRecord) : CandidateRef :=
  { peerId := p.providerPeerId, addrs := p.addresses, tag := none }

structure SelectRequest where
  contentKey : String
  candidates : List CandidateRef
  rangesNeeded : Nat
  inflight : Nat
  deriving DecidableEq, Repr

/-- What a selector decides: an order of preference, and pins of ranges to sources. -/
structure SelectPlan where
  ordered : List String
  assignments : List (Nat × String)
  deriving DecidableEq, Repr

/-- How one fetch of a range came out, as reported to the selector. -/
inductive RangeResult where
  | ok
  | failed
  | timedOut
  deriving DecidableEq, Repr

/-- `NullSelector::select` at a position of its cursor: all candidates, rotated. -/
def nullSelect (cursor : Nat) (req : SelectRequest) : SelectPlan :=
  { ordered := (req.candidates.map (·.peerId)).rotate cursor, assignments := [] }

end DigDownload
