import DigDownload.Addr
import DigDownload.Lib.Runs
import DigDownload.Resource.Frames

/-!
# The connection pool

`NatRangeTransport` keeps one session for each holder. A call looks for the session of its
holder, dials one itself when there is none, and puts what it dialled into the pool unless
another call was faster. A request goes out while the call has the lock of the session; a stream
of frames is read after the lock was given back. When a request fails, the session of the holder
is removed from the pool.

Calls take their steps in any order and may be dropped at any point. What the network answers is
part of the action that waits for it.
-/

namespace DigDownload

open Feed Runs

/-! ## Calls -/

/-- What a call asks of a holder. -/
inductive PeerRequest where
  | getAvailability (items : List AvailabilityItem)
  | fetchRange (req : RangeRequest)
  deriving DecidableEq

/-- What comes of a request over a session. A range is answered with a stream. -/
inductive PeerAnswer where
  | availability (answers : List Bool)
  | stream
  | failed (why : String)

/-- What a call returns. -/
inductive Served where
  | availability (answers : List Bool)
  | range (fetched : FetchedRange)
  deriving DecidableEq

/-- Where a call stands. -/
inductive CallPoint where
  /-- has not looked into the pool yet -/
  | called
  /-- dials a target, with those that are left and what the last one that failed said -/
  | dialing (target : String × PeerTarget) (rest : List (String × PeerTarget))
      (lastError : Option String)
  /-- has a session that the pool does not know yet -/
  | dialed (session : Nat)
  /-- has the session of the pool and waits for its lock -/
  | connected (session : Nat)
  /-- has the lock of the session, and its request is out -/
  | asking (session : Nat)
  /-- reads the frames of its stream, without the lock -/
  | reading (session : Nat)
  /-- has read the range, and so many bytes after it -/
  | draining (session : Nat) (fetched : FetchedRange) (drained : Nat)
  /-- its request failed, and it has not told the pool yet -/
  | failed (session : Nat) (e : DownloadError)
  | returned (result : Except DownloadError Served)
  /-- its future was dropped -/
  | dropped
  deriving DecidableEq

/-- The session that a call has. -/
def CallPoint.session? : CallPoint → Option Nat
  | .dialed s | .connected s | .asking s | .reading s | .draining s _ _ | .failed s _ => some s
  | .called | .dialing _ _ _ | .returned _ | .dropped => none

/-- The call has come to its end. -/
def CallPoint.isOver : CallPoint → Bool
  | .returned _ | .dropped => true
  | _ => false

structure Call (κ : Type) where
  provider : ProviderCandidates κ
  request : PeerRequest
  point : CallPoint
  deriving DecidableEq

/-- The key of a call in the pool. -/
def Call.key {κ : Type} (call : Call κ) : String := call.provider.providerPeerId

/-! ## The transport -/

def PeerTarget.peerId : PeerTarget → Bytes32
  | .withAddr peerId _ _ | .relayOnly peerId _ => peerId

/-- A connection to a peer: the target that it was dialled as, and the call that has its lock. -/
structure PooledConn where
  target : PeerTarget
  lockedBy : Option Nat

/-- What a transport is built with, and the machine it reads streams on. -/
structure TransportSeams (κ Asm : Type) where
  isDialable : κ → Bool
  providerPeerId : String → Option Bytes32
  networkId : String
  stream : StreamSeams Asm

/-- The pool by the ids of the providers, every session that was ever dialled, and the calls. -/
structure NatRangeTransport (κ : Type) where
  pool : String → Option Nat
  sessions : List PooledConn
  calls : List (Call κ)

inductive TransportAct (κ : Type) where
  | call (provider : ProviderCandidates κ) (request : PeerRequest)
  | lookUp (call : Nat)
  | dial (call : Nat) (answer : Except String Unit)
  | insert (call : Nat)
  | lock (call : Nat)
  | answer (call : Nat) (answer : PeerAnswer)
  | evict (call : Nat)
  | read (call : Nat) (stream : List (Except String RangeFrame))
  /-- so many bytes were read; none at the end of the stream or after an error -/
  | drain (call : Nat) (n : Nat)
  | drop (call : Nat)

/-- The call that an action is a step of. -/
def TransportAct.caller? {κ : Type} : TransportAct κ → Option Nat
  | .call _ _ => none
  | .lookUp i | .dial i _ | .insert i | .lock i | .answer i _ | .evict i | .read i _ | .drain i _
  | .drop i => some i

/-- The most bytes that are read after the last frame of a range. -/
def maxTrailerDrain : Nat := 64 * 1024

/-- How many bytes one read of a trailer asks for. -/
def drainWant (drained : Nat) : Nat := min (maxTrailerDrain - drained) 4096

section Transport

variable {κ Asm : Type}

def TransportSeams.targets (seams : TransportSeams κ Asm) (provider : ProviderCandidates κ) :
    Except DownloadError (List (String × PeerTarget)) :=
  providerDialTargets seams.isDialable seams.providerPeerId seams.networkId provider

/-- The next target to dial, or the error of a provider that none of them reached. -/
def dialPoint (key : String) (lastError : Option String) :
    List (String × PeerTarget) → CallPoint
  | [] => .returned (.error (.transport key (lastError.getD "no dialable candidate address")))
  | target :: rest => .dialing target rest lastError

/-- The trailer of a range is read until so much of it was. -/
def drainPoint (session : Nat) (fetched : FetchedRange) (drained : Nat) : CallPoint :=
  if drained < maxTrailerDrain then .draining session fetched drained
  else .returned (.ok (.range fetched))

/-- Where the frames of a stream take a call. An error of the reassembly is the provider's, and
does not cost it its session. -/
def readPoint (seams : TransportSeams κ Asm) (call : Call κ) (req : RangeRequest) (session : Nat)
    (stream : List (Except String RangeFrame)) : CallPoint :=
  match (assembleRangeStream seams.stream req.length stream).1 with
  | .ok (bytes, rangeMeta) => drainPoint session ⟨req.offset, bytes, rangeMeta⟩ 0
  | .error e => .returned (.error (e.attributedTo call.key))

namespace NatRangeTransport

/-- No session and no call. -/
def new : NatRangeTransport κ := ⟨fun _ => none, [], []⟩

/-- A call goes to a point. -/
def goto (t : NatRangeTransport κ) (i : Nat) (point : CallPoint) : NatRangeTransport κ :=
  { t with calls := t.calls.modify i fun call => { call with point } }

/-- The lock of a session changes hands. -/
def setLock (t : NatRangeTransport κ) (session : Nat) (holder : Option Nat) :
    NatRangeTransport κ :=
  { t with sessions := t.sessions.modify session fun s => { s with lockedBy := holder } }

/-- A call that stands at `called` finds the session of its provider, or learns how to dial it. -/
def lookUp (seams : TransportSeams κ Asm) (t : NatRangeTransport κ) (i : Nat) (call : Call κ) :
    NatRangeTransport κ :=
  match t.pool call.key with
  | some session => t.goto i (.connected session)
  | none =>
      match seams.targets call.provider with
      | .ok targets => t.goto i (dialPoint call.key none targets)
      | .error e => t.goto i (.returned (.error e))

/-- What a dialled session becomes: the one of the pool, unless the pool has another by now. -/
def insert (t : NatRangeTransport κ) (i : Nat) (key : String) (session : Nat) :
    NatRangeTransport κ :=
  match t.pool key with
  | some pooled => t.goto i (.connected pooled)
  | none => { t.goto i (.connected session) with
      pool := Function.update t.pool key (some session) }

/-- A request comes to its end, and with it the hold on the lock. -/
def settle (t : NatRangeTransport κ) (i : Nat) (call : Call κ) (session : Nat) :
    PeerAnswer → Option (NatRangeTransport κ)
  | .failed why =>
      some ((t.setLock session none).goto i (.failed session (.transport call.key why)))
  | .availability answers =>
      match call.request with
      | .getAvailability _ =>
          some ((t.setLock session none).goto i (.returned (.ok (.availability answers))))
      | .fetchRange _ => none
  | .stream =>
      match call.request with
      | .getAvailability _ => none
      | .fetchRange _ => some ((t.setLock session none).goto i (.reading session))

/-- A call that is dropped lets go of the lock, if it has it. -/
def dropCall (t : NatRangeTransport κ) (i : Nat) : CallPoint → NatRangeTransport κ
  | .asking session => (t.setLock session none).goto i .dropped
  | _ => t.goto i .dropped

/-- The step of a call that stands at a point. -/
def stepCall (seams : TransportSeams κ Asm) (t : NatRangeTransport κ) (i : Nat) (call : Call κ) :
    TransportAct κ → Option (NatRangeTransport κ)
  | .lookUp _ => if call.point = .called then some (lookUp seams t i call) else none
  | .dial _ answer =>
      match call.point, answer with
      | .dialing target _ _, .ok _ =>
          some { t.goto i (.dialed t.sessions.length) with
            sessions := t.sessions ++ [⟨target.2, none⟩] }
      | .dialing target rest _, .error e =>
          some (t.goto i (dialPoint call.key (some s!"dial {target.1}: {e}") rest))
      | _, _ => none
  | .insert _ =>
      match call.point with
      | .dialed session => some (t.insert i call.key session)
      | _ => none
  | .lock _ =>
      match call.point with
      | .connected session =>
          if (t.sessions[session]?).bind PooledConn.lockedBy = none then
            some ((t.setLock session (some i)).goto i (.asking session))
          else none
      | _ => none
  | .answer _ answer =>
      match call.point with
      | .asking session => t.settle i call session answer
      | _ => none
  | .evict _ =>
      match call.point with
      | .failed _ e => some { t.goto i (.returned (.error e)) with
          pool := Function.update t.pool call.key none }
      | _ => none
  | .read _ stream =>
      match call.point, call.request with
      | .reading session, .fetchRange req =>
          some (t.goto i (readPoint seams call req session stream))
      | _, _ => none
  | .drain _ n =>
      match call.point with
      | .draining session fetched drained =>
          if drainWant drained < n then none
          else if n = 0 then some (t.goto i (.returned (.ok (.range fetched))))
          else some (t.goto i (drainPoint session fetched (drained + n)))
      | _ => none
  | .drop _ => if call.point.isOver then none else some (t.dropCall i call.point)
  | .call _ _ => none

/-- A new call, or one step of a call. -/
def step (seams : TransportSeams κ Asm) (t : NatRangeTransport κ) :
    TransportAct κ → Option (NatRangeTransport κ)
  | .call provider request =>
      some { t with calls := t.calls ++ [⟨provider, request, .called⟩] }
  | act =>
      act.caller?.bind fun i => (t.calls[i]?).bind fun call => stepCall seams t i call act

end NatRangeTransport

end Transport

/-! ## Errors -/

/-- The peer that an error names. -/
def DownloadError.provider? : DownloadError → Option String
  | .transport provider _ | .timeout provider | .pagedPrologueUnsupported provider _ _ =>
      some provider
  | _ => none

/-- An error about one peer, which a download survives. -/
structure DownloadError.Blames (key : String) (e : DownloadError) : Prop where
  recoverable : e.isRecoverable = true
  names : e.provider? = some key

/-- An error that the reassembly raises about the peer it reads from, whoever that is. -/
def DownloadError.IsUnattributed : DownloadError → Prop
  | .transport provider _ | .pagedPrologueUnsupported provider _ _ => provider = ""
  | _ => False

theorem DownloadError.blames_transport (key reason : String) :
    (DownloadError.transport key reason).Blames key := ⟨rfl, rfl⟩

theorem DownloadError.blames_attributedTo {e : DownloadError} (h : e.IsUnattributed)
    (key : String) : (e.attributedTo key).Blames key := by
  cases e with
  | transport provider reason =>
    cases h
    exact ⟨rfl, rfl⟩
  | pagedPrologueUnsupported provider count delivered =>
    cases h
    exact ⟨rfl, rfl⟩
  | _ => cases h

section Reassembly

variable {Asm : Type} {seams : StreamSeams Asm} {s s' : Assembly Asm} {e : DownloadError}

theorem declareFrame_error {frame : RangeFrame} (h : declareFrame seams s frame = .error e) :
    e.IsUnattributed := by
  rw [declareFrame] at h
  split at h
  · rw [declareFirst] at h
    dsimp only at h
    repeat' split at h
    all_goals cases h
    all_goals rfl
  · rw [declareLater] at h
    repeat' split at h
    all_goals cases h
    all_goals rfl

theorem takeFrame_error {maxLen : Nat} {item : Except String RangeFrame}
    (h : takeFrame seams maxLen s item = .error e) : e.IsUnattributed := by
  cases item with
  | error why =>
    cases h
    rfl
  | ok frame =>
    rw [takeFrame] at h
    split at h
    · rename_i e' hdeclare
      cases h
      exact declareFrame_error hdeclare
    · rw [placeFrame] at h
      dsimp only at h
      repeat' split at h
      all_goals cases h
      all_goals rfl

theorem adoptPages_error (h : adoptPages seams s = .error e) : e.IsUnattributed := by
  rw [adoptPages] at h
  repeat' split at h
  all_goals cases h
  rfl

/-- What the reassembly fails with is left to the transport to attribute. -/
theorem assembleRangeStream_error {maxLen : Nat} {stream : List (Except String RangeFrame)}
    (h : (assembleRangeStream seams maxLen stream).1 = .error e) : e.IsUnattributed := by
  rw [assembleRangeStream] at h
  generalize hfeed : feed (takeFrame seams maxLen) Assembly.start stream = fed at h
  obtain ⟨last, rest⟩ := fed
  cases last with
  | error e' =>
    cases h
    obtain ⟨s', item, hitem⟩ := feed_error stream Assembly.start (congrArg Prod.fst hfeed)
    exact takeFrame_error hitem
  | ok s => exact adoptPages_error h

end Reassembly

/-! ## What a step does -/

/-- What the call has failed with blames its provider. -/
def CallPoint.Blames (key : String) : CallPoint → Prop
  | .returned (.error e) | .failed _ e => e.Blames key
  | _ => True

namespace NatRangeTransport

variable {κ Asm : Type} {seams : TransportSeams κ Asm} {t t' : NatRangeTransport κ} {i : Nat}
  {call : Call κ} {act : TransportAct κ}

/-- What one step of the `i`-th call makes of the transport. -/
inductive CallStep (seams : TransportSeams κ Asm) (t : NatRangeTransport κ) (i : Nat)
    (call : Call κ) : TransportAct κ → NatRangeTransport κ → Prop where
  | returns {act : TransportAct κ} {point : CallPoint} (hgoing : call.point.isOver = false)
      (hheld : ∀ s, call.point ≠ .asking s) (hover : point.isOver = true)
      (hblames : point.Blames call.key) : CallStep seams t i call act (t.goto i point)
  | dials {act : TransportAct κ} {target : String × PeerTarget} {rest : List (String × PeerTarget)}
      {lastError : Option String}
      (hfrom : call.point = .called ∧ seams.targets call.provider = .ok (target :: rest) ∨
        ∃ first last, call.point = .dialing first (target :: rest) last) :
      CallStep seams t i call act (t.goto i (.dialing target rest lastError))
  | dialled {act : TransportAct κ} {target : String × PeerTarget}
      {rest : List (String × PeerTarget)}
      {lastError : Option String} (hfrom : call.point = .dialing target rest lastError) :
      CallStep seams t i call act { t.goto i (.dialed t.sessions.length) with
        sessions := t.sessions ++ [⟨target.2, none⟩] }
  | joins {act : TransportAct κ} {s : Nat}
      (hfrom : call.point = .called ∨ ∃ own, call.point = .dialed own)
      (hpool : t.pool call.key = some s) : CallStep seams t i call act (t.goto i (.connected s))
  | inserts {act : TransportAct κ} {s : Nat} (hfrom : call.point = .dialed s)
      (hpool : t.pool call.key = none) :
      CallStep seams t i call act { t.goto i (.connected s) with
        pool := Function.update t.pool call.key (some s) }
  | locks {act : TransportAct κ} {s : Nat} (hfrom : call.point = .connected s)
      (hfree : (t.sessions[s]?).bind PooledConn.lockedBy = none) :
      CallStep seams t i call act ((t.setLock s (some i)).goto i (.asking s))
  | unlocks {act : TransportAct κ} {s : Nat} {point : CallPoint} (hfrom : call.point = .asking s)
      (hto : point.isOver = true ∨
        (point = .reading s ∧ ∃ req, call.request = .fetchRange req) ∨ ∃ e, point = .failed s e)
      (hblames : point.Blames call.key) :
      CallStep seams t i call act ((t.setLock s none).goto i point)
  | evicts {j s : Nat} {e : DownloadError} (hfrom : call.point = .failed s e) :
      CallStep seams t i call (.evict j) { t.goto i (.returned (.error e)) with
        pool := Function.update t.pool call.key none }
  | drains {act : TransportAct κ} {s drained : Nat} {fetched : FetchedRange}
      (hfrom : call.point = .reading s ∨
        ∃ fetched' drained', call.point = .draining s fetched' drained' ∧ drained' < drained)
      (hmore : drained < maxTrailerDrain) :
      CallStep seams t i call act (t.goto i (.draining s fetched drained))

/-- The end of a dial list is an error of the provider. -/
theorem callStep_dialPoint {lastError : Option String} {targets : List (String × PeerTarget)}
    (hfrom : call.point = .called ∧ seams.targets call.provider = .ok targets ∨
      ∃ first last, call.point = .dialing first targets last) :
    CallStep seams t i call act (t.goto i (dialPoint call.key lastError targets)) := by
  cases targets with
  | cons target rest => exact .dials hfrom
  | nil =>
    have hgoing : call.point.isOver = false ∧ ∀ s, call.point ≠ .asking s := by
      obtain ⟨hpoint, -⟩ | ⟨first, last, hpoint⟩ := hfrom
      · simp [hpoint, CallPoint.isOver]
      · simp [hpoint, CallPoint.isOver]
    exact .returns hgoing.1 hgoing.2 rfl (DownloadError.blames_transport _ _)

theorem callStep_drainPoint {s drained : Nat} {fetched : FetchedRange}
    (hfrom : call.point = .reading s ∨
      ∃ fetched' drained', call.point = .draining s fetched' drained' ∧ drained' < drained) :
    CallStep seams t i call act (t.goto i (drainPoint s fetched drained)) := by
  rw [drainPoint]
  split
  · rename_i hmore
    exact .drains hfrom hmore
  · have hgoing : call.point.isOver = false ∧ ∀ s, call.point ≠ .asking s := by
      obtain hpoint | ⟨fetched', drained', hpoint, -⟩ := hfrom
      · simp [hpoint, CallPoint.isOver]
      · simp [hpoint, CallPoint.isOver]
    exact .returns hgoing.1 hgoing.2 rfl trivial

theorem callStep_of_lookUp (hpoint : call.point = .called) :
    CallStep seams t i call act (lookUp seams t i call) := by
  rw [lookUp]
  split
  · rename_i session hpool
    exact .joins (.inl hpoint) hpool
  · split
    · rename_i targets htargets
      exact callStep_dialPoint (.inl ⟨hpoint, htargets⟩)
    · rename_i e hmalformed
      refine .returns (by simp [hpoint, CallPoint.isOver]) (by simp [hpoint]) rfl ?_
      rw [TransportSeams.targets, providerDialTargets] at hmalformed
      split at hmalformed
      · cases hmalformed
        exact DownloadError.blames_transport _ _
      · cases hmalformed

theorem callStep_of_settle {s : Nat} {answer : PeerAnswer} (hpoint : call.point = .asking s)
    (h : t.settle i call s answer = some t') : CallStep seams t i call act t' := by
  cases answer with
  | failed why =>
    cases h
    exact .unlocks hpoint (.inr (.inr ⟨_, rfl⟩)) (DownloadError.blames_transport _ _)
  | availability answers =>
    rw [settle] at h
    split at h
    · cases h
      exact .unlocks hpoint (.inl rfl) trivial
    · cases h
  | stream =>
    rw [settle] at h
    split at h
    · cases h
    · rename_i req hrequest
      cases h
      exact .unlocks hpoint (.inr (.inl ⟨rfl, req, hrequest⟩)) trivial

theorem callStep_of_readPoint {s : Nat} {req : RangeRequest}
    {stream : List (Except String RangeFrame)} (hpoint : call.point = .reading s) :
    CallStep seams t i call act (t.goto i (readPoint seams call req s stream)) := by
  rw [readPoint]
  split
  · exact callStep_drainPoint (.inl hpoint)
  · rename_i e hfails
    refine .returns (by simp [hpoint, CallPoint.isOver]) (by simp [hpoint]) rfl ?_
    exact DownloadError.blames_attributedTo (assembleRangeStream_error hfails) _

/-- Every step of a call is one of these. -/
theorem callStep_of_stepCall (h : stepCall seams t i call act = some t') :
    CallStep seams t i call act t' := by
  cases act with
  | call provider request => cases h
  | lookUp j =>
    rw [stepCall, Option.ite_none_right_eq_some] at h
    obtain ⟨hpoint, h⟩ := h
    cases h
    exact callStep_of_lookUp hpoint
  | dial j answer =>
    simp only [stepCall] at h
    split at h
    · rename_i target rest last u hpoint
      cases h
      exact .dialled hpoint
    · rename_i target rest last e hpoint
      cases h
      exact callStep_dialPoint (.inr ⟨_, _, hpoint⟩)
    · cases h
  | insert j =>
    simp only [stepCall] at h
    split at h
    · rename_i session hpoint
      cases h
      rw [insert]
      split
      · rename_i pooled hpool
        exact .joins (.inr ⟨_, hpoint⟩) hpool
      · rename_i hpool
        exact .inserts hpoint hpool
    · cases h
  | lock j =>
    simp only [stepCall] at h
    split at h
    · rename_i session hpoint
      rw [Option.ite_none_right_eq_some] at h
      obtain ⟨hfree, h⟩ := h
      cases h
      exact .locks hpoint hfree
    · cases h
  | answer j answer =>
    simp only [stepCall] at h
    split at h
    · rename_i session hpoint
      exact callStep_of_settle hpoint h
    · cases h
  | evict j =>
    simp only [stepCall] at h
    split at h
    · rename_i session e hpoint
      cases h
      exact .evicts hpoint
    · cases h
  | read j stream =>
    simp only [stepCall] at h
    split at h
    · rename_i session req hpoint hrequest
      cases h
      exact callStep_of_readPoint hpoint
    · cases h
  | drain j n =>
    simp only [stepCall] at h
    split at h
    · rename_i session fetched drained hpoint
      split at h
      · cases h
      split at h
      · cases h
        exact .returns (by simp [hpoint, CallPoint.isOver]) (by simp [hpoint]) rfl trivial
      · rename_i hread
        cases h
        exact callStep_drainPoint (.inr ⟨_, _, hpoint, Nat.lt_add_of_pos_right
          (Nat.pos_of_ne_zero hread)⟩)
    · cases h
  | drop j =>
    rw [stepCall, Option.ite_none_left_eq_some, Bool.not_eq_true] at h
    obtain ⟨hgoing, h⟩ := h
    cases h
    generalize hpoint : call.point = point
    cases point with
    | asking session => exact .unlocks hpoint (.inl rfl) trivial
    | _ => exact .returns hgoing (by simp [hpoint]) rfl trivial

/-- A step is a new call, or one of the steps of a call. -/
theorem step_cases (h : step seams t act = some t') :
    (∃ provider request, act = .call provider request ∧
      t' = { t with calls := t.calls ++ [⟨provider, request, .called⟩] }) ∨
    ∃ i call, act.caller? = some i ∧ t.calls[i]? = some call ∧
      stepCall seams t i call act = some t' ∧ CallStep seams t i call act t' := by
  have hcaller : ∀ act : TransportAct κ,
      (act.caller?.bind fun i => (t.calls[i]?).bind fun call => stepCall seams t i call act)
        = some t' →
      ∃ i call, act.caller? = some i ∧ t.calls[i]? = some call ∧
        stepCall seams t i call act = some t' ∧ CallStep seams t i call act t' := by
    intro act h
    obtain ⟨i, hi, h⟩ := Option.bind_eq_some_iff.mp h
    obtain ⟨call, hcall, h⟩ := Option.bind_eq_some_iff.mp h
    exact ⟨i, call, hi, hcall, h, callStep_of_stepCall h⟩
  cases act with
  | call provider request =>
    cases h
    exact .inl ⟨_, _, rfl, rfl⟩
  | _ => exact .inr (hcaller _ h)

end NatRangeTransport

/-! ## Small runs -/

/-- A transport that dials every kind of candidate, on the machine of the small streams. -/
def smallTransportSeams : TransportSeams Unit Pages where
  isDialable _ := true
  providerPeerId := hex32
  networkId := "DIG_MAINNET"
  stream := smallStreamSeams

/-- The first two bytes of a resource. -/
def smallRangeRequest : RangeRequest where
  storeId := String.ofList (List.replicate 64 'c')
  root := String.ofList (List.replicate 64 'd')
  retrievalKey := none
  offset := 0
  length := 2
  skipLayout := false

/-- Two calls dial one holder at the same time; the second comes first into the pool. -/
def racingCalls : List (TransportAct Unit) :=
  [.call paddedProvider (.getAvailability []), .call paddedProvider (.fetchRange smallRangeRequest),
    .lookUp 0, .lookUp 1, .dial 0 (.ok ()), .dial 1 (.error "refused"), .dial 1 (.ok ()),
    .insert 1, .insert 0, .lock 0]

/-- The request of a call fails over the session that it dialled. -/
def failingCall : List (TransportAct Unit) :=
  [.call paddedProvider (.getAvailability []), .lookUp 0, .dial 0 (.ok ()), .insert 0, .lock 0,
    .answer 0 (.failed "reset")]

end DigDownload
