import DigDownload.Lib.Prog
import DigDownload.Progress

/-!
# The sink, the state store, and what a run has done

Everything a download does outside its own memory goes through the functions of
this module: it writes, reads, shortens and promotes the staging area, and it
loads, saves and clears checkpoints. Each call is recorded in the trace of the
run, with whether it succeeded, so that a statement about a run can speak of what
it did and in which order, and so that the number of calls made so far names the
moment of a call. Whether a call fails is the host's choice at that moment.
-/

namespace DigDownload

open Slices

/-! ## The persistent state -/

/-- Where the bytes of a download land. `staged` is the staging area, `artifacts` what
`finalize` has promoted so far; a sink that renames has no staging area left after it. -/
structure Sink where
  staged : Bytes
  artifacts : List Bytes
  supportsReadBack : Bool
  renames : Bool
  stagingPath : Option String
  deriving DecidableEq

/-- The checkpoints and the verdicts of a node, by key. -/
structure StateStore where
  checkpoints : String → Option DownloadState
  verdicts : String → List BadDescriptorVerdict

theorem StateStore.eq_of {s s' : StateStore} (hcheckpoints : s.checkpoints = s'.checkpoints)
    (hverdicts : s.verdicts = s'.verdicts) : s = s' := by
  cases s
  cases s'
  cases hcheckpoints
  cases hverdicts
  rfl

/-- What a run does outside its own memory. `Ask` are the calls of one kind of download
to its own seams. -/
inductive Effect (Ask : Type) where
  | writeAt (offset : Nat) (landed : Bytes) (ok : Bool)
  | readAt (offset len : Nat) (answer : Option Bytes)
  | truncate (len : Nat) (ok : Bool)
  | finalize (ok : Bool)
  | load (key : String) (ok : Bool)
  | save (state : DownloadState) (ok : Bool)
  | clear (key : String) (ok : Bool)
  | recordBadDescriptor (key peer : String) (ok : Bool)
  | badDescriptorPeers (key : String) (ok : Bool)
  | ask (a : Ask)

/-- The state of a run: what outlives it, what it has done, and its own memory. -/
structure World (Ask Own : Type) where
  sink : Sink
  store : StateStore
  trace : List (Effect Ask)
  own : Own

/-- The faults of the machine the node runs on: whether the call made as the `t`-th one
fails. A write that fails may have landed a part of its bytes. -/
structure Host where
  writeAt : Nat → Option (Nat × DownloadError)
  readAt : Nat → Nat → Nat → Option DownloadError
  truncate : Nat → Option DownloadError
  finalize : Nat → Option DownloadError
  load : Nat → Option DownloadError
  save : Nat → Option DownloadError
  clear : Nat → Option DownloadError
  recordBadDescriptor : Nat → Option DownloadError
  badDescriptorPeers : Nat → Option DownloadError
  unixNow : Nat → Nat

/-- A host that never fails, with its clock at zero. -/
def Host.healthy : Host where
  writeAt _ := none
  readAt _ _ _ := none
  truncate _ := none
  finalize _ := none
  load _ := none
  save _ := none
  clear _ := none
  recordBadDescriptor _ := none
  badDescriptorPeers _ := none
  unixNow _ := 0

namespace World

variable {Ask Own : Type}

/-- The moment of the next call. -/
def tick (w : World Ask Own) : Nat := w.trace.length

def note (w : World Ask Own) (e : Effect Ask) : World Ask Own := { w with trace := w.trace ++ [e] }

@[simp] theorem note_sink (w : World Ask Own) (e : Effect Ask) : (w.note e).sink = w.sink := rfl
@[simp] theorem note_store (w : World Ask Own) (e : Effect Ask) : (w.note e).store = w.store := rfl
@[simp] theorem note_own (w : World Ask Own) (e : Effect Ask) : (w.note e).own = w.own := rfl
@[simp] theorem note_trace (w : World Ask Own) (e : Effect Ask) :
    (w.note e).trace = w.trace ++ [e] := rfl

end World

/-! ## The sink -/

/-- The bounds of a window, checked: an offset comes from a peer's descriptor. -/
def readBackBounds (offset len : Nat) : Except DownloadError (Nat × Nat) :=
  match checkedAdd offset len with
  | some stop => .ok (offset, stop)
  | none => .error (.sink (s!"read-back span [{offset}, +{len}) does not fit this platform's " ++
      "address space"))

namespace Sink

/-- The staging area after a write. A write of no bytes leaves the file as it is. -/
def write (s : Sink) (offset : Nat) (bytes : Bytes) : Sink :=
  if bytes = [] then s else { s with staged := overwrite 0 s.staged offset bytes }

/-- The staging area shortened; a truncation never extends it. -/
def shorten (s : Sink) (len : Nat) : Sink := { s with staged := s.staged.take len }

/-- The staging area promoted to an artifact. -/
def promote (s : Sink) : Sink :=
  { s with artifacts := s.artifacts ++ [s.staged], staged := if s.renames then [] else s.staged }

/-- The staged bytes of a window, all of them or an error. -/
def read (s : Sink) (offset len : Nat) : Except DownloadError Bytes :=
  match readBackBounds offset len with
  | .error e => .error e
  | .ok (start, stop) =>
      if s.supportsReadBack = false then
        .error (.sink "read-back unsupported by this sink")
      else if s.staged.length < stop then
        .error (.sink (s!"read-back past staged end: want [{start}, {stop}), " ++
          s!"have {s.staged.length}"))
      else
        .ok (slice s.staged start len)

end Sink

section Calls

variable {Ask Own : Type}

/-- The programs of a run. -/
abbrev RunM (Ask Own : Type) := Prog (World Ask Own) DownloadError

def sinkWriteAt (host : Host) (offset : Nat) (bytes : Bytes) : RunM Ask Own Unit := fun w =>
  match readBackBounds offset bytes.length with
  | .error e => (.error e, w.note (.writeAt offset [] false))
  | .ok _ =>
      match host.writeAt w.tick with
      | none =>
          (.ok (), { w with sink := w.sink.write offset bytes }.note (.writeAt offset bytes true))
      | some (n, e) =>
          (.error e, { w with sink := w.sink.write offset (bytes.take n) }.note
            (.writeAt offset (bytes.take n) false))

def sinkReadAt (host : Host) (offset len : Nat) : RunM Ask Own Bytes := fun w =>
  match host.readAt w.tick offset len, w.sink.read offset len with
  | none, .ok bytes => (.ok bytes, w.note (.readAt offset len (some bytes)))
  | none, .error e => (.error e, w.note (.readAt offset len none))
  | some e, _ => (.error e, w.note (.readAt offset len none))

def sinkTruncate (host : Host) (len : Nat) : RunM Ask Own Unit := fun w =>
  match host.truncate w.tick with
  | none => (.ok (), { w with sink := w.sink.shorten len }.note (.truncate len true))
  | some e => (.error e, w.note (.truncate len false))

def sinkFinalize (host : Host) : RunM Ask Own Unit := fun w =>
  match host.finalize w.tick with
  | none => (.ok (), { w with sink := w.sink.promote }.note (.finalize true))
  | some e => (.error e, w.note (.finalize false))

/-- Promote the staging area once it is shown to hold exactly `verifiedLen` bytes: its
last byte is there and the byte past it is not. -/
def promoteVerified (host : Host) (verifiedLen : Nat) : RunM Ask Own Unit := do
  sinkTruncate host verifiedLen
  let w ← Prog.read
  if w.sink.supportsReadBack = false then
    Prog.fail (.verify (.metadata (s!"this sink cannot read back its staging area, so a " ++
      s!"promotion of {verifiedLen} verified byte(s) cannot be proven to be the verified " ++
      "artifact; refusing to promote")))
  else if 0 < verifiedLen then
    Prog.handle (sinkReadAt host (verifiedLen - 1) 1) fun
      | .error _ => Prog.fail (.verify (.metadata (s!"staging area is SHORTER than the " ++
          s!"verified length {verifiedLen}; refusing to promote a partial artifact as the " ++
          "verified one")))
      | .ok _ => promoteUnlessLonger
  else
    promoteUnlessLonger
where
  promoteUnlessLonger : RunM Ask Own Unit :=
    Prog.handle (sinkReadAt host verifiedLen 1) fun
      | .ok _ => Prog.fail (.verify (.metadata (s!"staging area holds bytes past the verified " ++
          s!"length {verifiedLen}; refusing to promote an artifact that is not the verified one")))
      | .error _ => sinkFinalize host

/-! ## The state store -/

def storeLoad (host : Host) (key : String) : RunM Ask Own (Option DownloadState) := fun w =>
  match host.load w.tick with
  | none => (.ok (w.store.checkpoints key), w.note (.load key true))
  | some e => (.error e, w.note (.load key false))

/-- Replace the checkpoint of one key. -/
def StateStore.put (s : StateStore) (key : String) (v : Option DownloadState) : StateStore :=
  { s with checkpoints := Function.update s.checkpoints key v }

def storeSave (host : Host) (state : DownloadState) : RunM Ask Own Unit := fun w =>
  match host.save w.tick with
  | none =>
      (.ok (), { w with store := w.store.put state.key (some state) }.note (.save state true))
  | some e => (.error e, w.note (.save state false))

def storeClear (host : Host) (key : String) : RunM Ask Own Unit := fun w =>
  match host.clear w.tick with
  | none => (.ok (), { w with store := w.store.put key none }.note (.clear key true))
  | some e => (.error e, w.note (.clear key false))

def storeRecordBadDescriptor (host : Host) (key peer : String) : RunM Ask Own Unit := fun w =>
  match host.recordBadDescriptor w.tick with
  | none =>
      let verdicts := recordVerdict (w.store.verdicts key) peer (host.unixNow w.tick)
      let store := { w.store with verdicts := Function.update w.store.verdicts key verdicts }
      (.ok (), { w with store }.note (.recordBadDescriptor key peer true))
  | some e => (.error e, w.note (.recordBadDescriptor key peer false))

def storeBadDescriptorPeers (host : Host) (key : String) : RunM Ask Own (List String) := fun w =>
  match host.badDescriptorPeers w.tick with
  | none =>
      (.ok (livePeers (w.store.verdicts key) (host.unixNow w.tick)),
        w.note (.badDescriptorPeers key true))
  | some e => (.error e, w.note (.badDescriptorPeers key false))

/-- Make a call and ignore whether it failed. -/
def ignoringFailure {ε : Type} (m : RunM Ask Own Unit) : Prog (World Ask Own) ε Unit :=
  Prog.handle m fun _ => pure ()

end Calls

/-! ## Nothing stored yet -/

def emptySink : Sink where
  staged := []
  artifacts := []
  supportsReadBack := true
  renames := true
  stagingPath := none

def emptyStore : StateStore where
  checkpoints _ := none
  verdicts _ := []

end DigDownload
