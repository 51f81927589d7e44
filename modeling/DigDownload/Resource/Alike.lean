import DigDownload.Resource.Traces

/-!
# Two staging areas

A job that checks no whole resource does not look at what is staged before it promotes.
Started over two staging areas, it makes the same calls, keeps the same memory and is
told the same, and comes to the same end.
-/

namespace DigDownload

open Prog

/-- The same world, but for what is staged, in which nothing is hashed. -/
structure Alike (w w' : JobWorld) : Prop where
  sink : w'.sink = { w.sink with staged := w'.sink.staged }
  store : w'.store = w.store
  trace : w'.trace = w.trace
  own : w'.own = w.own
  unhashed : w.own.hasher = none

/-- A program that does not look at what is staged. -/
abbrev Blind {ε α : Type} (m : Prog JobWorld ε α) : Prop := Respects Alike m

section Calls

variable {seams : ResourceSeams} {host : Host} {w w' : JobWorld} {ε α β : Type}

/-- Over both areas the job is at the same tick. -/
theorem Alike.tick (h : Alike w w') : w'.tick = w.tick := congrArg List.length h.trace

theorem Alike.note (h : Alike w w') (e : Effect ResourceAsk) : Alike (w.note e) (w'.note e) :=
  ⟨h.sink, h.store, congrArg (· ++ [e]) h.trace, h.own, h.unhashed⟩

/-- The memory changes alike, as long as nothing is hashed. -/
theorem Alike.modify (h : Alike w w') {f : Job → Job}
    (hf : ∀ job, job.hasher = none → (f job).hasher = none) :
    Alike { w with own := f w.own } { w' with own := f w'.own } :=
  ⟨h.sink, h.store, h.trace, congrArg f h.own, hf w.own h.unhashed⟩

/-- A write stages the same bytes in both. -/
theorem Alike.write (h : Alike w w') (offset : Nat) (bytes : Bytes) :
    Alike { w with sink := w.sink.write offset bytes } { w' with sink := w'.sink.write offset bytes } := by
  refine ⟨?_, h.store, h.trace, h.own, h.unhashed⟩
  dsimp only [Sink.write]
  split
  · exact h.sink
  · rw [h.sink]

theorem Alike.shorten (h : Alike w w') (len : Nat) :
    Alike { w with sink := w.sink.shorten len } { w' with sink := w'.sink.shorten len } := by
  refine ⟨?_, h.store, h.trace, h.own, h.unhashed⟩
  dsimp only [Sink.shorten]
  rw [h.sink]

/-- The store is one and the same, before a call and after it. -/
theorem Alike.put (h : Alike w w') (f : StateStore → StateStore) :
    Alike { w with store := f w.store } { w' with store := f w'.store } :=
  ⟨h.sink, congrArg f h.store, h.trace, h.own, h.unhashed⟩

/-! ## The calls -/

/-- A seam is asked at the same tick, so that it answers the same. -/
theorem blind_askJob {seam : Nat → α} {asked : α → ResourceAsk} : Blind (askJob seam asked) := by
  intro w w' h
  show (Except.ok (seam w.tick) : Except Halt α) = .ok (seam w'.tick) ∧
    Alike (w.note (.ask (asked (seam w.tick)))) (w'.note (.ask (asked (seam w'.tick))))
  rw [h.tick]
  exact ⟨rfl, h.note _⟩

theorem blind_noteJob {a : ResourceAsk} : Blind (noteJob a) := fun _ _ h => ⟨rfl, h.note _⟩

theorem blind_emit {event : DownloadEvent} : Blind (emit event) := blind_noteJob

theorem blind_readClock : Blind (readClock seams) := blind_askJob

theorem blind_failWith {reason : String} {e : DownloadError} :
    Blind (failWith reason e : JobM α) := Respects.bind blind_emit fun _ => Respects.fail _

/-- A change of the memory that leaves nothing to hash. -/
theorem blind_modifyJob {f : Job → Job} (hf : ∀ job, job.hasher = none → (f job).hasher = none) :
    Blind (modifyJob f) := fun _ _ h => ⟨rfl, h.modify hf⟩

/-- What a program makes of the memory may rely on it that nothing is hashed. -/
theorem blind_getJob_bind {k : Job → JobM β} (hk : ∀ job, job.hasher = none → Blind (k job)) :
    Blind (getJob >>= k) := by
  intro w w' h
  show (k w.own w).1 = (k w'.own w').1 ∧ Alike (k w.own w).2 (k w'.own w').2
  rw [h.own]
  exact hk w.own h.unhashed w w' h

theorem blind_orFail {m : RunM ResourceAsk Job α} (hm : Blind m) : Blind (orFail m) :=
  Respects.handle hm fun r => by
    cases r with
    | ok a => exact Respects.pure a
    | error e => exact Respects.fail _

theorem blind_ignoringFailure {m : RunM ResourceAsk Job Unit} (hm : Blind m) :
    Blind (ignoringFailure m : Prog JobWorld ε Unit) :=
  Respects.handle hm fun _ => Respects.pure _

/-- Whether a write succeeds, and how much of it, depends on the tick alone. -/
theorem blind_sinkWriteAt {offset : Nat} {bytes : Bytes} :
    Blind (sinkWriteAt host offset bytes : RunM ResourceAsk Job Unit) := by
  intro w w' h
  rw [sinkWriteAt, sinkWriteAt, h.tick]
  cases readBackBounds offset bytes.length with
  | error e => exact ⟨rfl, h.note _⟩
  | ok span =>
    cases host.writeAt w.tick with
    | none => exact ⟨rfl, (h.write offset bytes).note _⟩
    | some fault => exact ⟨rfl, (h.write offset (bytes.take fault.1)).note _⟩

/-- Whether the area is cut depends on the tick alone. -/
theorem blind_sinkTruncate {len : Nat} :
    Blind (sinkTruncate host len : RunM ResourceAsk Job Unit) := by
  intro w w' h
  rw [sinkTruncate, sinkTruncate, h.tick]
  cases host.truncate w.tick with
  | none => exact ⟨rfl, (h.shorten len).note _⟩
  | some e => exact ⟨rfl, h.note _⟩

/-- The store answers the same, because it is the same. -/
theorem blind_storeLoad {key : String} : Blind (storeLoad host key : RunM ResourceAsk Job _) := by
  intro w w' h
  rw [storeLoad, storeLoad, h.tick, h.store]
  cases host.load w.tick with
  | none => exact ⟨rfl, h.note _⟩
  | some e => exact ⟨rfl, h.note _⟩

theorem blind_storeSave {state : DownloadState} :
    Blind (storeSave host state : RunM ResourceAsk Job Unit) := by
  intro w w' h
  rw [storeSave, storeSave, h.tick]
  cases host.save w.tick with
  | none => exact ⟨rfl, (h.put (·.put state.key (some state))).note _⟩
  | some e => exact ⟨rfl, h.note _⟩

theorem blind_storeClear {key : String} :
    Blind (storeClear host key : RunM ResourceAsk Job Unit) := by
  intro w w' h
  rw [storeClear, storeClear, h.tick]
  cases host.clear w.tick with
  | none => exact ⟨rfl, (h.put (·.put key none)).note _⟩
  | some e => exact ⟨rfl, h.note _⟩

theorem blind_checkpoint : Blind (checkpoint seams) :=
  blind_getJob_bind fun _ _ => blind_orFail blind_storeSave

theorem blind_tryCheckpoint : Blind (tryCheckpoint seams) :=
  blind_getJob_bind fun _ _ => blind_ignoringFailure blind_storeSave

/-- What is staged is dropped unseen. -/
theorem blind_discardUnverifiableAssembly {key : String} :
    Blind (discardUnverifiableAssembly seams key) :=
  Respects.bind (blind_ignoringFailure blind_storeClear) fun _ =>
    blind_ignoringFailure blind_sinkTruncate

end Calls

/-! ## Before the loop -/

section Setup

variable {seams : ResourceSeams} {content : ContentId} {key : String} {target : Target}
  {commitment : ResourceCommitment}

/-- Holder after holder, by induction on the list. -/
theorem blind_confirmHolders (item : AvailabilityItem) (found : List ProviderRecord) :
    Blind (confirmHolders seams item found) := by
  induction found with
  | nil => exact Respects.pure _
  | cons p found ih =>
    refine Respects.bind blind_askJob fun answer => ?_
    split
    · exact Respects.bind ih fun _ => Respects.pure _
    · exact ih

theorem blind_locateAndConfirm : Blind (locateAndConfirm seams content) := by
  refine Respects.bind blind_askJob fun answer => ?_
  split
  · exact Respects.fail _
  split
  · exact Respects.fail _
  · exact blind_confirmHolders _ _

theorem blind_discoverMore : Blind (discoverMore seams content) := by
  refine Respects.bind blind_locateAndConfirm fun more => blind_getJob_bind fun job _ => ?_
  refine Respects.bind (blind_modifyJob fun _ h => h) fun _ => ?_
  split
  · exact Respects.bind blind_emit fun _ => Respects.pure _
  · exact Respects.pure _

theorem blind_relocate : Blind (relocate seams content) :=
  Respects.bind blind_noteJob fun _ => Respects.bind (blind_modifyJob fun _ h => h) fun _ =>
    blind_discoverMore

theorem blind_discover : Blind (discover seams content) := by
  rw [discover]
  split
  · exact Respects.fail _
  · refine Respects.bind blind_locateAndConfirm fun providers => ?_
    refine Respects.bind (blind_modifyJob fun _ h => h) fun _ => ?_
    split
    · exact blind_failWith
    · exact Respects.pure _

/-- Holder after holder, until one gives a commitment. -/
theorem blind_probeHolders (req : RangeRequest) (providers : List ProviderRecord) :
    ∀ reasons, Blind (probeHolders seams content req providers reasons) := by
  induction providers with
  | nil => exact fun _ => Respects.pure _
  | cons provider providers ih =>
    intro reasons
    refine Respects.bind blind_askJob fun answer => ?_
    split
    · exact Respects.fail _
    · exact ih _
    · refine Respects.bind blind_askJob fun reserved => ?_
      split
      · exact Respects.pure _
      · exact ih _

theorem blind_obtainCommitment : Blind (obtainCommitment seams content) := by
  refine blind_getJob_bind fun job _ => ?_
  split
  · exact Respects.pure _
  · refine Respects.bind ?_ fun commitment => ?_
    · refine blind_getJob_bind fun job _ => ?_
      split
      · exact Respects.fail _
      · refine Respects.bind (blind_probeHolders _ _ _) fun answer => ?_
        split
        · exact Respects.pure _
        · exact blind_failWith
    · exact Respects.bind (blind_modifyJob fun _ h => h) fun _ => Respects.pure _

theorem blind_restoreCommitment : Blind (restoreCommitment seams) := by
  refine blind_getJob_bind fun job _ => ?_
  dsimp only
  split
  · exact Respects.pure _
  · refine Respects.bind blind_askJob fun reserved => ?_
    split
    · exact blind_modifyJob fun _ h => h
    · exact blind_modifyJob fun _ h => h

/-- The sinks have their staging areas at the same path. -/
theorem blind_claimStaging : Blind (claimStaging seams) := by
  refine Respects.read_bind (fun w w' h => ?_) fun w w' h => ?_
  · have hpath : w'.sink.stagingPath = w.sink.stagingPath := by rw [h.sink]
    rw [hpath]
  · split
    · exact Respects.pure _
    · refine Respects.bind blind_askJob fun granted => ?_
      split
      · exact Respects.pure _
      · exact blind_failWith

theorem blind_openJob : Blind (openJob seams key) := by
  refine Respects.bind ?_ fun _ => Respects.bind blind_restoreCommitment fun _ => blind_claimStaging
  refine Respects.bind (Respects.attempt blind_storeLoad) fun loaded => ?_
  split
  · exact blind_failWith
  · exact blind_modifyJob fun _ h => h

/-- Whether the staged bytes are kept is read off the checkpoint, not off them. -/
theorem blind_discardBytesStagedForAnotherPlan :
    Blind (discardBytesStagedForAnotherPlan seams key commitment) := by
  refine blind_getJob_bind fun job _ => ?_
  split
  · exact Respects.pure _
  · refine Respects.bind (blind_modifyJob fun _ h => h) fun _ => ?_
    exact Respects.bind (blind_ignoringFailure blind_storeClear) fun _ =>
      blind_ignoringFailure blind_sinkTruncate

/-- With nothing to hash, no range is read back. -/
theorem blind_rehydrateResumedRanges (resumed : List Range) :
    Blind (rehydrateResumedRanges seams commitment resumed) := by
  induction resumed with
  | nil => exact Respects.pure _
  | cons range resumed ih =>
    refine blind_getJob_bind fun job hjob => ?_
    have hunread : Blind (stagedRange seams job.hasher.isSome range) := by
      rw [hjob]
      exact Respects.fail _
    refine Respects.bind (Respects.attempt hunread) fun staged => ?_
    have hunresume : Blind (modifyJob (·.unresume range)) := blind_modifyJob fun _ h => h
    have hfeed : ∀ bytes, Blind (modifyJob (·.feed range.offset bytes)) := fun bytes =>
      blind_modifyJob fun job h => by rw [Job.feed, h]; rfl
    split
    · exact Respects.bind hunresume fun _ => ih
    · split
      · exact Respects.bind (Respects.fail _) fun _ => ih
      · exact Respects.bind hunresume fun _ => ih
      · exact Respects.bind (hfeed _) fun _ => ih

/-- Without the check of the whole resource the plan sets up no hash, and so reads nothing back. -/
theorem blind_planDownload (hverify : seams.config.verifyWholeResource = false) :
    Blind (planDownload seams key commitment) := by
  have hplanned : ∀ job : Job, job.hasher = none →
      (job.planned seams.config commitment).hasher = none := by
    intro job _
    show (if seams.config.verifyWholeResource then some ResourceHasher.new else none) = none
    rw [hverify]
    rfl
  refine Respects.bind blind_discardBytesStagedForAnotherPlan fun _ => ?_
  refine Respects.bind (Respects.bind (blind_modifyJob fun _ h => h) fun _ => blind_checkpoint)
    fun _ => ?_
  refine Respects.bind (blind_modifyJob hplanned) fun _ => blind_getJob_bind fun job _ => ?_
  refine Respects.bind (blind_rehydrateResumedRanges _) fun _ => blind_getJob_bind fun job _ => ?_
  exact blind_emit

/-- All that comes before the loop. -/
theorem blind_entering (hverify : seams.config.verifyWholeResource = false) :
    Blind (entering seams target) := by
  refine Respects.bind blind_openJob fun _ => Respects.bind blind_discover fun _ => ?_
  refine Respects.bind blind_obtainCommitment fun commitment => ?_
  exact Respects.bind (blind_planDownload hverify) fun _ => Respects.pure _

end Setup

/-! ## The loop -/

section Loop

variable {seams : ResourceSeams} {content : ContentId} {key : String}

/-- By induction on the fuel: a pass looks at the memory only. -/
theorem blind_fillFrom (plan : SelectPlan) (fuel : Nat) : Blind (fillFrom seams plan fuel) := by
  induction fuel with
  | zero => exact Respects.pure _
  | succ fuel ih =>
    refine blind_getJob_bind fun job _ => ?_
    split
    · exact Respects.pure _
    split
    · exact Respects.pure _
    split
    · exact Respects.pure _
    · refine Respects.bind (blind_modifyJob fun _ h => h) fun _ => ?_
      exact Respects.bind blind_noteJob fun _ => ih

theorem blind_fillUnlessPaused : Blind (fillUnlessPaused seams key) := by
  refine blind_getJob_bind fun job _ => ?_
  split
  · exact Respects.pure _
  · refine Respects.bind blind_readClock fun now => blind_getJob_bind fun job _ => ?_
    exact Respects.bind blind_askJob fun plan => blind_fillFrom _ _

theorem blind_waitOut : Blind (waitOut seams) := by
  refine Respects.bind blind_readClock fun now => blind_getJob_bind fun job _ => ?_
  split
  · exact Respects.pure _
  · exact blind_failWith

theorem blind_stalled : Blind (stalled seams content) := by
  refine blind_getJob_bind fun job _ => ?_
  split
  · refine Respects.bind blind_relocate fun added => ?_
    refine Respects.bind (blind_modifyJob fun _ h => h) fun _ => ?_
    split
    · exact Respects.pure _
    · exact blind_waitOut
  · exact blind_waitOut

theorem blind_loopHead : Blind (loopHead seams content key) := by
  refine Respects.bind blind_fillUnlessPaused fun _ => blind_getJob_bind fun job _ => ?_
  split
  · exact Respects.pure _
  split
  · exact blind_failWith
  split
  · exact blind_stalled
  · exact Respects.pure _

theorem blind_settledHead : Blind (settledHead seams content key) := by
  refine Respects.bind blind_loopHead fun head => ?_
  cases head with
  | again => exact blind_loopHead
  | finished => exact Respects.pure _
  | waiting wakeup => exact Respects.pure _

theorem blind_rangeFailed (index : Nat) (peer : String) (e : DownloadError) :
    Blind (rangeFailed seams index peer e) := by
  rw [rangeFailed]
  split
  · refine Respects.bind blind_readClock fun now => ?_
    refine Respects.bind (blind_modifyJob fun _ h => h) fun _ => ?_
    exact Respects.bind blind_noteJob fun _ => blind_emit
  · exact blind_failWith

theorem blind_rangeSucceeded (range : Range) (index : Nat) (peer : String) (bytes : Bytes) :
    Blind (rangeSucceeded seams range index peer bytes) := by
  have hcomplete : ∀ job : Job, job.hasher = none →
      (job.complete range index peer bytes).hasher = none := by
    intro job h
    show job.hasher.map (·.feed range.offset bytes) = none
    rw [h]
    rfl
  refine Respects.bind (blind_orFail blind_sinkWriteAt) fun _ => ?_
  refine Respects.bind (blind_modifyJob hcomplete) fun _ => Respects.bind blind_noteJob fun _ => ?_
  exact Respects.bind blind_checkpoint fun _ => blind_getJob_bind fun job _ => blind_emit

theorem blind_handleResult (index : Nat) (peer : String)
    (answer : Except DownloadError FetchedRange) :
    Blind (handleResult seams index peer answer) := by
  have hrelease : ∀ job : Job, job.hasher = none → (job.release peer).hasher = none := by
    intro job h
    rw [Job.release]
    split
    · exact h
    · exact h
  refine Respects.bind (blind_modifyJob hrelease) fun _ => blind_getJob_bind fun job _ => ?_
  split
  · split
    · exact blind_rangeFailed _ _ _
    · split
      · exact Respects.fail _
      · exact blind_rangeFailed _ _ _
      · exact blind_rangeSucceeded _ _ _ _
  · exact Respects.fail _

theorem blind_controlTurn (message : Option Control) : Blind (controlTurn seams message) := by
  have hcancel : Blind (do tryCheckpoint seams; failWith "cancelled" .cancelled : JobM Unit) :=
    Respects.bind blind_tryCheckpoint fun _ => blind_failWith
  cases message with
  | none => exact hcancel
  | some message =>
    cases message with
    | pause =>
      refine blind_getJob_bind fun job _ => ?_
      split
      · exact Respects.pure _
      · refine Respects.bind (blind_modifyJob fun _ h => h) fun _ => ?_
        exact Respects.bind blind_tryCheckpoint fun _ => blind_emit
    | resume =>
      refine blind_getJob_bind fun job _ => ?_
      split
      · exact Respects.bind (blind_modifyJob fun _ h => h) fun _ => blind_emit
      · exact Respects.pure _
    | cancel => exact hcancel

theorem blind_refreshTurn : Blind (refreshTurn seams content) := by
  refine Respects.bind blind_readClock fun now => ?_
  refine Respects.bind (blind_modifyJob fun _ h => h) fun _ => ?_
  refine Respects.handle blind_discoverMore fun r => ?_
  split
  · exact Respects.fail _
  · exact Respects.fail _
  · exact Respects.pure _

theorem blind_takeTurn (wakeup : Option Nat) (turn : Turn) :
    Blind (takeTurn seams content wakeup turn) := by
  cases turn with
  | control message => exact Respects.bind (blind_controlTurn message) fun _ => Respects.pure _
  | completed choice =>
    refine Respects.read_bind (fun w w' h => ?_) fun w w' h => ?_
    · rw [h.own, h.tick]
    · split
      · exact Respects.pure _
      split
      · exact Respects.pure _
      · refine Respects.bind (blind_modifyJob fun _ h => h) fun _ => ?_
        refine Respects.bind blind_noteJob fun _ => ?_
        exact Respects.bind (blind_handleResult _ _ _) fun _ => Respects.pure _
  | wake =>
    refine Respects.read_bind (fun w w' h => ?_) fun w w' h => Respects.pure _
    rw [h.tick]
  | refresh =>
    refine Respects.read_bind (fun w w' h => ?_) fun w w' h => ?_
    · rw [h.own, h.tick]
    · split
      · exact Respects.bind blind_refreshTurn fun _ => Respects.pure _
      · exact Respects.pure _

theorem blind_scheduleFrom (turns : List Turn) :
    ∀ wakeup, Blind (scheduleFrom seams content key turns wakeup) := by
  induction turns with
  | nil => exact fun _ => Respects.fail _
  | cons turn turns ih =>
    intro wakeup
    refine Respects.bind (blind_takeTurn wakeup turn) fun happened => ?_
    cases happened with
    | false => exact ih wakeup
    | true =>
      refine Respects.bind blind_settledHead fun head => ?_
      cases head with
      | finished => exact Respects.pure _
      | waiting wakeup => exact ih wakeup
      | again => exact Respects.fail _

theorem blind_scheduleLoop (turns : List Turn) :
    Blind (scheduleLoop seams content key turns) := by
  refine Respects.bind blind_settledHead fun head => ?_
  cases head with
  | finished => exact Respects.pure _
  | waiting wakeup => exact blind_scheduleFrom turns wakeup
  | again => exact Respects.fail _

end Loop

end DigDownload
