import DigDownload.Resource.Completion

/-!
# Resuming

A download that resumes fetches the ranges that it cannot read back, and those only. If what
it reads back are bytes of the resource, it promotes the resource, as a download from nothing
does. If not, the proof of the whole resource refuses it, and the next download starts from
nothing.
-/

namespace DigDownload

open Prog Slices

variable {seams : ResourceSeams} {content : ContentId} {key : String} {target : Target}
  {sink : Sink} {store : StateStore} {bytes : Bytes} {commitment : ResourceCommitment}
  {resume : DownloadState} {w w' : JobWorld} {turns : List Turn}

/-! ## What is fetched -/

/-- A fetch of the range was issued. -/
def Issued (i : Nat) (trace : List (Effect ResourceAsk)) : Prop :=
  ∃ peer, Effect.ask (.issue i peer) ∈ trace

theorem issued_mem_ledger {i : Nat} {trace : List (Effect ResourceAsk)} :
    Tally.issued i ∈ ledger trace ↔ Issued i trace := by
  rw [ledger, List.mem_filterMap]
  constructor
  · rintro ⟨e, he, htally⟩
    unfold Effect.tally at htally
    split at htally
    · cases htally
      exact ⟨_, he⟩
    · cases htally
    · cases htally
    · cases htally
    · cases htally
  · rintro ⟨peer, he⟩
    exact ⟨_, he, rfl⟩

/-- A range that has left the queue was done from the start, or was issued. -/
theorem JobSteps.issued (hsteps : JobSteps seams content w w')
    (hb : Books seams.config commitment w.own) (hidle : w.own.inflight = []) {i : Nat} :
    ∀ {state : RangeState}, w'.own.rangeState[i]? = some state → state ≠ .pending →
      w.own.IsDone i ∨ Issued i w'.trace := by
  induction hsteps with
  | refl =>
    intro state hstate hne
    cases state with
    | pending => exact absurd rfl hne
    | done => exact Or.inl hstate
    | inFlight peer =>
      -- nothing is in flight
      have hcount := hb.scheduled.total
      rw [hidle, List.length_nil, List.countP_eq_zero] at hcount
      exact absurd rfl (hcount _ (List.mem_of_getElem? hstate))
  | @tail w₁ w₂ hsteps hstep ih =>
    intro state hstate hne
    have hentry := hstep.entry (JobSteps.books hsteps hb)
    have hkept : ∀ {entries : List Tally}, ledger w₂.trace = ledger w₁.trace ++ entries →
        w.own.IsDone i ∨ Issued i w₁.trace → w.own.IsDone i ∨ Issued i w₂.trace := by
      intro entries hledger h
      refine h.imp_right fun hissued => issued_mem_ledger.mp ?_
      rw [hledger]
      exact List.mem_append_left _ (issued_mem_ledger.mpr hissued)
    cases hentry with
    | none hledger hstate' =>
      rw [hstate'] at hstate
      exact hkept (hledger.trans (List.append_nil _).symm) (ih hstate hne)
    | relocated hledger hstate' =>
      rw [hstate'] at hstate
      exact hkept hledger (ih hstate hne)
    | issued range peer hledger hpending hstate' =>
      by_cases hi : range = i
      · refine Or.inr (issued_mem_ledger.mp ?_)
        rw [hledger, hi]
        exact List.mem_append_right _ List.mem_cons_self
      · rw [hstate', List.getElem?_set_ne hi] at hstate
        exact hkept hledger (ih hstate hne)
    | completed range peer hledger hold hstate' =>
      by_cases hi : range = i
      · subst hi
        exact hkept hledger (ih hold (by simp))
      · rw [hstate', List.getElem?_set_ne hi] at hstate
        exact hkept hledger (ih hstate hne)
    | failed range peer hledger hold hstate' =>
      by_cases hi : range = i
      · subst hi
        exact hkept hledger (ih hold (by simp))
      · rw [hstate', List.getElem?_set_ne hi] at hstate
        exact hkept hledger (ih hstate hne)

/-- A range that is done when the loop is entered is never issued. -/
theorem JobSteps.not_issued (hsteps : JobSteps seams content w w')
    (hb : Books seams.config commitment w.own) (hunissued : ledger w.trace = []) {i : Nat}
    (hdone : w.own.IsDone i) : ¬ Issued i w'.trace := by
  intro hissued
  have hcount := (JobSteps.done hsteps hb hdone).2
  rw [hunissued, List.count_nil, List.count_eq_zero] at hcount
  exact hcount (issued_mem_ledger.mpr hissued)

/-- The promotion fetches nothing. -/
theorem issued_finish {i : Nat} :
    Issued i (finish seams key commitment w).2.trace ↔ Issued i w.trace := by
  have happends : Steps (Appends Effect.IsFinish) (finish seams key commitment) :=
    steps_finish commitment (closedUnderKeeping_appends.mono fun _ he => he.1)
  obtain ⟨seg, hseg, hfinish⟩ := happends w
  rw [hseg]
  constructor
  · rintro ⟨peer, hmem⟩
    cases List.mem_append.mp hmem with
    | inl hmem => exact ⟨peer, hmem⟩
    | inr hmem => exact (hfinish _ hmem).elim
  · rintro ⟨peer, hmem⟩
    exact ⟨peer, List.mem_append_left _ hmem⟩

/-! ## Runs without a hindrance -/

/-- A download that nothing hinders: nothing stands in its way, it was not started paused,
and it checks the proof of the whole resource, in a build without debug assertions. -/
structure Unhindered (seams : ResourceSeams) (target : Target) (sink : Sink) (store : StateStore)
    (bytes : Bytes) (commitment : ResourceCommitment) : Prop where
  favourable : Favourable seams target sink store bytes commitment
  resource : IsResource seams target.content bytes commitment
  running : target.startPaused = false
  backstop : seams.config.verifyWholeResource = true
  released : seams.debugAssertions = false

theorem Unhindered.asserts (h : Unhindered seams target sink store bytes commitment) :
    AssertionsHold seams commitment := by
  intro hdebug
  rw [h.released] at hdebug
  cases hdebug

/-- The proof of a resource is one of its bytes and of nothing else. -/
structure BindsBytes (seams : ResourceSeams) (bytes : Bytes) (commitment : ResourceCommitment) :
    Prop where
  collisionFree : ∀ other, seams.sha256 other = seams.sha256 bytes → other = bytes
  leaf : ∀ t leaf, seams.verifyInclusion t leaf commitment.inclusionProof commitment.root = true →
    leaf = seams.sha256 bytes

/-- What is read back is not fetched, and everything else is, unless the download still waits. -/
def FetchesTheRest (seams : ResourceSeams) (target : Target) (turns : List Turn) (sink : Sink)
    (store : StateStore) (resume : DownloadState) (ranges : List Range) : Prop :=
  ∀ range ∈ ranges,
    (ReadsBack true resume sink range →
      ¬ Issued range.index (downloadResource seams target turns sink store).2.trace) ∧
    (¬ ReadsBack true resume sink range →
      (downloadResource seams target turns sink store).1 ≠ .error .pending →
      Issued range.index (downloadResource seams target turns sink store).2.trace)

/-- The download ends in the error of the proof, promotes nothing, and drops the checkpoint
and what is staged. -/
structure Refused (seams : ResourceSeams) (target : Target) (turns : List Turn) (sink : Sink)
    (store : StateStore) : Prop where
  returned : (downloadResource seams target turns sink store).1 = .error (.failed (.verify .root))
  cleared : (downloadResource seams target turns sink store).2.store.checkpoints
    (downloadKey seams target) = none
  dropped : (downloadResource seams target turns sink store).2.sink.staged = []
  unpromoted : (downloadResource seams target turns sink store).2.sink.artifacts = sink.artifacts

section Unhindered

variable (h : Unhindered seams target sink store bytes commitment)
  (hresume : store.resumed (downloadKey seams target) = resume)
  (hagrees : resume.AgreesWith commitment)
  (hchunks : commitment.layout.chunkLens ≠ [])
include h hresume hagrees hchunks

omit hchunks in
theorem Unhindered.prepared : Prepared seams target sink store bytes resume sink commitment :=
  prepared_resumed h.favourable h.resource hresume hagrees h.asserts

/-- The loop goes on by steps until nothing is missing, or waits. -/
theorem loopRun_steps (hturns : ∀ message, .control message ∉ turns) :
    wp (scheduleLoop seams target.content (downloadKey seams target) turns)
      (fun _ w' => JobSteps seams target.content (loopStart seams target sink store) w' ∧
        w'.own.allDone = true)
      (fun halt w' => JobSteps seams target.content (loopStart seams target sink store) w' ∧
        halt = .pending)
      (loopStart seams target sink store) := by
  have hprepared := h.prepared hresume hagrees
  have ho := hprepared.obliging h.favourable h.resource
  have hsmooth := hprepared.smooth h.running
  have hplan : (loopStart seams target sink store).own.ranges ≠ [] := by
    rw [hsmooth.books.planned.ranges]
    exact fun hnil => hchunks (planRanges_eq_nil.mp hnil)
  refine ((wp_scheduleLoop turns).and
    (wp_scheduleLoop_smooth ho hsmooth hplan hturns (downloadKey seams target))).mono
    (fun _ w' hw' => ⟨LoopSteps.steps hw'.1, hw'.2.2⟩) fun halt w' hw' => ?_
  obtain ⟨hstops, rfl, -⟩ := hw'
  obtain ⟨w₁, hsteps, hends⟩ := hstops.ends
  cases hends
  exact ⟨hsteps, rfl⟩

/-- What is read back is not fetched, and everything else is. -/
theorem fetchesTheRest (hturns : ∀ message, .control message ∉ turns) :
    FetchesTheRest seams target turns sink store resume
      (planRanges commitment.layout seams.config.window) := by
  intro range hrange
  have hprepared := h.prepared hresume hagrees
  have henter := hprepared.entered
  have hdone := hprepared.done
  obtain ⟨hbooks, -, hidle, happends⟩ := loopStart_spec henter
  have hunissued := ledger_of_setup happends
  obtain ⟨i, hi⟩ := List.mem_iff_getElem?.mp hrange
  obtain ⟨-, -, -, hindex⟩ := planRanges_span hi
  rw [h.backstop] at hdone
  rw [← hdone i range hi, hindex]
  have hloop := loopRun_steps h hresume hagrees hchunks hturns
  cases hrun : (loopRun seams target sink store turns).1 with
  | ok =>
    obtain ⟨hsteps, hall⟩ := hloop.ok hrun
    have hended : Books seams.config commitment (loopRun seams target sink store turns).2.own :=
      hsteps.books hbooks
    rw [downloadResource_of_entered henter, entered_of_scheduled hrun, issued_finish]
    refine ⟨hsteps.not_issued hbooks hunissued, fun hmissing _ => ?_⟩
    have hlt : i < (loopRun seams target sink store turns).2.own.rangeState.length := by
      rw [hended.planned.states, hended.planned.ranges]
      exact (List.getElem?_eq_some_iff.mp hi).1
    exact (hsteps.issued hbooks hidle.inflight (Job.isDone_of_allDone hall hlt)
      (by simp)).resolve_left hmissing
  | error halt =>
    obtain ⟨hsteps, rfl⟩ := hloop.error hrun
    rw [downloadResource_of_entered henter, entered_of_not_scheduled hrun]
    exact ⟨hsteps.not_issued hbooks hunissued, fun _ hended => absurd rfl hended⟩

/-- A download that reads back anything else than bytes of the resource is refused. -/
theorem refused_of_corrupt (hbinds : BindsBytes seams bytes commitment)
    (hcorrupt : ¬ Intact true resume sink bytes
      (planRanges commitment.layout seams.config.window))
    (hturns : ∀ message, .control message ∉ turns) :
    Refused seams target turns sink store ∨
      (downloadResource seams target turns sink store).1 = .error .pending ∧
        turns.countP Turn.isCompletion
          < (planRanges commitment.layout seams.config.window).length := by
  have ho := (h.prepared hresume hagrees).obliging h.favourable h.resource
  rw [h.backstop] at ho
  cases (h.prepared hresume hagrees).download h.favourable h.resource h.running hchunks hturns with
  | inr hwaiting => exact Or.inr hwaiting
  | inl hended =>
    obtain ⟨w, hsmooth, hall, hhashed, hsome, hsup, hartifacts, hrun⟩ := hended
    rw [h.backstop] at hsmooth hsome
    -- what is staged in the end has the corrupt range in it
    have hstaged : w.sink.staged.take commitment.totalLength ≠ bytes := by
      intro htake
      refine hcorrupt fun range hrange hback => ?_
      obtain ⟨i, hi⟩ := List.mem_iff_getElem?.mp hrange
      have hi' : w.own.ranges[i]? = some range := by
        rw [hsmooth.books.planned.ranges]
        exact hi
      have hlt : i < w.own.rangeState.length := by
        rw [hsmooth.books.planned.states]
        exact (List.getElem?_eq_some_iff.mp hi').1
      have hown := hsmooth.staged i range (Job.isDone_of_allDone hall hlt) hi'
      rw [resumedBytes, if_pos hback, ← slice_take (planRanges_end_le hrange), htake] at hown
      exact hown.symm
    have hproof : ¬ Checked seams commitment w true := by
      rintro ⟨_, t, hverified⟩
      exact hstaged (hbinds.collisionFree _ (hbinds.leaf t _ hverified))
    obtain ⟨halt, hhalt, hdropped, -⟩ :=
      ((wp_finish_settled h.favourable.host _ (hsup.trans h.favourable.readBack)
        (hsmooth.total_le ho hall) hhashed).mono (fun _ _ hended => hproof (hended.2 hsome))
        fun _ _ h => h).exists_error
    refine Or.inl ⟨?_, ?_, ?_, ?_⟩
    · rw [hrun, hhalt, hdropped.halt_eq]
    · rw [hrun, hdropped.cleared]
    · rw [hrun, hdropped.sink_eq]
    · rw [hrun, hdropped.sink_eq]
      exact hartifacts

end Unhindered

/-- A download from nothing delivers the resource. -/
theorem Unhindered.completes (h : Unhindered seams target sink store bytes commitment)
    (hchunks : commitment.layout.chunkLens ≠ [])
    (hempty : store.checkpoints (downloadKey seams target) = none) :
    CompletesAfter (planRanges commitment.layout seams.config.window).length seams target sink
      store bytes :=
  completesAfter_of_intact h.favourable h.resource (resumed_of_none hempty) (Or.inl rfl)
    h.asserts h.running hchunks intact_of_fresh

/-! ## Resuming -/

/-- A download that was refused leaves nothing that could refuse the next one. -/
def Recovers (seams : ResourceSeams) (target : Target) (turns : List Turn) (sink : Sink)
    (store : StateStore) (bytes : Bytes) (commitment : ResourceCommitment) : Prop :=
  ∀ seams' target', downloadKey seams' target' = downloadKey seams target →
    Unhindered seams' target' (downloadResource seams target turns sink store).2.sink
      (downloadResource seams target turns sink store).2.store bytes commitment →
    CompletesAfter (planRanges commitment.layout seams'.config.window).length seams' target'
      (downloadResource seams target turns sink store).2.sink
      (downloadResource seams target turns sink store).2.store bytes

/-- To resume is no more than to save work: what cannot be read back is fetched and nothing
else is, and the download promotes the resource, as it does from an empty checkpoint and an
empty staging area. If what it reads back is not the resource's, it ends in the error of the
proof with nothing left behind, and the next download promotes the resource. -/
theorem resume_saves_work (h : Unhindered seams target sink store bytes commitment)
    (hchunks : commitment.layout.chunkLens ≠ []) (hbinds : BindsBytes seams bytes commitment)
    (hcheckpoint : store.checkpoints (downloadKey seams target) = some resume)
    (hagrees : resume.AgreesWith commitment) :
    (∀ turns, (∀ message, .control message ∉ turns) →
      FetchesTheRest seams target turns sink store resume
        (planRanges commitment.layout seams.config.window)) ∧
    (Intact true resume sink bytes (planRanges commitment.layout seams.config.window) →
      CompletesAfter (planRanges commitment.layout seams.config.window).length seams target sink
        store bytes ∧
      ∀ sink' store', Unhindered seams target sink' store' bytes commitment →
        sink'.staged = [] → store'.checkpoints (downloadKey seams target) = none →
        CompletesAfter (planRanges commitment.layout seams.config.window).length seams target
          sink' store' bytes) ∧
    (¬ Intact true resume sink bytes (planRanges commitment.layout seams.config.window) →
      ∀ turns, (∀ message, .control message ∉ turns) →
        Refused seams target turns sink store ∧
            Recovers seams target turns sink store bytes commitment ∨
          (downloadResource seams target turns sink store).1 = .error .pending ∧
            turns.countP Turn.isCompletion
              < (planRanges commitment.layout seams.config.window).length) := by
  have hresume : store.resumed (downloadKey seams target) = resume := by
    rw [StateStore.resumed, hcheckpoint]
    rfl
  refine ⟨fun turns hturns => fetchesTheRest h hresume hagrees hchunks hturns,
    fun hintact => ⟨?_, fun sink' store' h' _ hempty => h'.completes hchunks hempty⟩,
    fun hcorrupt turns hturns => ?_⟩
  · rw [← h.backstop] at hintact
    exact completesAfter_of_intact h.favourable h.resource hresume hagrees h.asserts h.running
      hchunks hintact
  · refine (refused_of_corrupt h hresume hagrees hchunks hbinds hcorrupt hturns).imp_left
      fun hrefused => ⟨hrefused, fun seams' target' hkey h' => h'.completes hchunks ?_⟩
    rw [hkey]
    exact hrefused.cleared

/-- A checkpoint that has the first range of the small resource as done. -/
def halfway : DownloadState where
  key := "small"
  totalLength := smallCommitment.totalLength
  chunkLens := smallCommitment.layout.chunkLens
  root := smallCommitment.root
  inclusionProof := smallCommitment.inclusionProof
  doneRanges := {0}

theorem unhindered_small (hread : sink.supportsReadBack = true) :
    Unhindered (honestSeams smallResource smallCommitment) smallTarget sink store smallResource
      smallCommitment where
  favourable := honestSeams_favourable rfl rfl rfl hread store smallResourceSeams.now
  resource := honestSeams_small
  running := rfl
  backstop := rfl
  released := rfl

theorem bindsBytes_small :
    BindsBytes (honestSeams smallResource smallCommitment) smallResource smallCommitment where
  collisionFree other hsame := by
    have hdigest : smallSha256 smallResource = smallSha256 other := Eq.symm hsame
    exact (smallSha256_inj (by decide +kernel) (congrArg hexOf hdigest)).symm
  leaf _ leaf hverified := by
    simp only [honestSeams, decide_eq_true_eq] at hverified
    exact hverified.1

/-- The small resource is resumed from its first range, and refused where that was corrupted. -/
theorem resume_saves_work_small :
    CompletesAfter (planRanges smallCommitment.layout 2).length
        (honestSeams smallResource smallCommitment) smallTarget
        { emptySink with staged := [1, 2] }
        { emptyStore with checkpoints := fun _ => some halfway } smallResource ∧
      Refused (honestSeams smallResource smallCommitment) smallTarget
        [.completed 0, .completed 0] { emptySink with staged := [1, 9] }
        { emptyStore with checkpoints := fun _ => some halfway } := by
  have hagrees : halfway.AgreesWith smallCommitment := Or.inr ⟨rfl, rfl, rfl, rfl⟩
  constructor
  · have hintact : Intact true halfway { emptySink with staged := [1, 2] } smallResource
        (planRanges smallCommitment.layout 2) := by decide +kernel
    exact ((resume_saves_work (unhindered_small rfl) (by decide) bindsBytes_small rfl
      hagrees).2.1 hintact).1
  · have hcorrupt : ¬ Intact true halfway { emptySink with staged := [1, 9] } smallResource
        (planRanges smallCommitment.layout 2) := by decide +kernel
    have hunhindered : Unhindered (honestSeams smallResource smallCommitment) smallTarget
        { emptySink with staged := [1, 9] } { emptyStore with checkpoints := fun _ => some halfway }
        smallResource smallCommitment := unhindered_small rfl
    have hended := (resume_saves_work hunhindered (by decide) bindsBytes_small rfl hagrees).2.2
      hcorrupt [.completed 0, .completed 0] (by simp)
    exact (hended.resolve_right fun hwaiting => absurd hwaiting.2 (by decide +kernel)).1

end DigDownload
