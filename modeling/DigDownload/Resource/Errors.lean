import DigDownload.Resource.Scheduling

/-!
# With which errors a download ends

Once a download has a plan, an error of a fetch and an error of the locator during a
refresh are absorbed. An error of the locator during a relocate is not: it ends the
download as it is.
-/

namespace DigDownload

open Prog Past

/-- The errors that end a download whose ranges are missing: it was cancelled, it gave up,
or the sink or the state store of the node failed. -/
def DownloadError.IsTerminal : DownloadError → Prop
  | .cancelled | .noProviders _ | .sink _ | .state _ => True
  | _ => False

/-- What a run must absorb, given which errors may end it: an error of the locator during a
relocate, and an error of a fetch. -/
def Absorbs (ends : DownloadError → Prop) (before : List (Effect ResourceAsk)) :
    Effect ResourceAsk → Prop
  | .ask (.findProviders (.error e)) => before.getLast? = some (.ask .relocate) → ends e
  | .ask (.fetched _ _ (some (.error e))) => e.isRecoverable = true ∨ ends e
  | _ => True

namespace Effect

/-- An effect that a run absorbs wherever it is, unless a relocate comes just before it. -/
def IsCalm : Effect ResourceAsk → Prop
  | .ask .relocate => False
  | .ask (.fetched _ _ (some (.error e))) => e.isRecoverable = true
  | _ => True

end Effect

/-- Every error of the run was absorbed, and no relocate is under way. -/
structure Calm (w : JobWorld) : Prop where
  absorbed : AtEach (Absorbs fun _ => False) w.trace
  settled : w.trace.getLast? ≠ some (.ask .relocate)

/-- How a run that schedules may stop: every error was absorbed and the one that ends it is
terminal, or the one that ends it was not absorbed. -/
def StopsWith (halt : Halt) (w : JobWorld) : Prop :=
  (Calm w ∧ ∀ e, halt = .failed e → e.IsTerminal) ∨
    ∃ e, halt = .failed e ∧ ∀ ends, AtEach (Absorbs ends) w.trace ↔ ends e

section Calm

variable {w w' : JobWorld} {ends : DownloadError → Prop}

theorem Calm.absorbs (h : Calm w) : AtEach (Absorbs ends) w.trace := by
  refine h.absorbed.mono fun before e he => ?_
  unfold Absorbs at *
  split
  · exact fun hlast => (he hlast).elim
  · exact Or.inl (he.resolve_right id)
  · trivial

theorem Calm.note (h : Calm w) {e : Effect ResourceAsk} (he : e.IsCalm) : Calm (w.note e) := by
  refine ⟨atEach_concat.mpr ⟨h.absorbed, ?_⟩, ?_⟩
  · unfold Absorbs
    split
    · exact h.settled
    · exact Or.inl he
    · trivial
  · rw [World.note_trace, List.getLast?_concat]
    intro heq
    rw [Option.some.injEq] at heq
    subst heq
    exact he

/-- What was absorbed before is absorbed after. -/
def StaysCalm (w w' : JobWorld) : Prop := Calm w → Calm w'

instance : Std.Refl StaysCalm := ⟨fun _ => id⟩

instance : IsTrans JobWorld StaysCalm := ⟨fun _ _ _ h h' => h' ∘ h⟩

theorem closedUnderLoop_calm : ClosedUnderLoop Effect.IsCalm StaysCalm := by
  refine ⟨fun w store e he _ h => ?_, fun _ _ h => ⟨h.absorbed, h.settled⟩⟩
  have hnote := h.note he
  exact ⟨hnote.absorbed, hnote.settled⟩

end Calm

namespace Effect

theorem IsFill.isCalm {e : Effect ResourceAsk} (h : e.IsFill) : e.IsCalm := by
  unfold IsFill at h
  split at h <;> trivial

theorem IsAside.isCalm {e : Effect ResourceAsk} (h : e.IsAside) : e.IsCalm := by
  unfold IsAside at h
  split at h <;> trivial

theorem IsSettling.isCalm {e : Effect ResourceAsk} (h : e.IsSettling) : e.IsCalm := by
  unfold IsSettling at h
  split at h <;> trivial

theorem IsSetup.isCalm {e : Effect ResourceAsk} (h : e.IsSetup) : e.IsCalm := by
  unfold IsSetup at h
  split at h <;> trivial

theorem IsBackstop.isCalm {e : Effect ResourceAsk} (h : e.IsBackstop) : e.IsCalm := by
  unfold IsBackstop at h
  split at h <;> trivial

end Effect

/-! ## The loop -/

section Loop

variable {seams : ResourceSeams} {content : ContentId} {key : String} {item : AvailabilityItem}
  {commitment : ResourceCommitment} {w w' : JobWorld}

theorem wp_waitOut_calm (h : Calm w) :
    wp (waitOut seams) (fun _ w' => Calm w') StopsWith w := by
  have hclock : Calm (w.note (.ask .clock)) := h.note trivial
  rw [waitOut, wp_bind, wp_readClock, wp_bind, wp_getJob]
  split
  · exact hclock
  · rw [wp_failWith]
    exact Or.inl ⟨hclock.note trivial, fun e he => by cases he; exact trivial⟩

/-- A relocate is the one step at which an error of the locator ends the download. -/
theorem wp_relocate_calm (hitem : availabilityItem content = .ok item) (h : Calm w) :
    wp (relocate seams content) (fun _ w' => Calm w') StopsWith w := by
  rw [relocate, wp_bind, wp_noteJob, wp_bind, wp_modifyJob, discoverMore, wp_bind,
    locateAndConfirm, wp_bind, wp_askJob]
  cases hfound : seams.findProviders _ content with
  | error e =>
    refine Or.inr ⟨e, rfl, fun ends => ?_⟩
    show AtEach (Absorbs ends) ((w.trace ++ [_]) ++ [_]) ↔ _
    rw [atEach_concat, atEach_concat]
    simp [Absorbs, h.absorbs]
  | ok found =>
    -- once the locator has answered, nothing on the way fails
    have hconfirm : Steps StaysCalm (confirmHolders seams item found) :=
      steps_confirmHolders closedUnderLoop_calm.calls (fun _ _ => trivial) item found
    dsimp only
    rw [hitem]
    dsimp only
    refine ((hconfirm.wp _).and (wp_confirmHolders content item found _)).mono
      (fun more w₂ h₂ => ?_) (fun _ _ h₂ => h₂.2.elim)
    have h₂' : Calm w₂ := by
      refine h₂.1 ⟨?_, ?_⟩
      · show AtEach _ ((w.trace ++ [_]) ++ [_])
        rw [atEach_concat, atEach_concat]
        exact ⟨⟨h.absorbed, trivial⟩, trivial⟩
      · show ((w.trace ++ [_]) ++ [_]).getLast? ≠ _
        rw [List.getLast?_concat]
        simp
    rw [wp_bind, wp_getJob, wp_bind, wp_modifyJob]
    have h₃ : ∀ own, Calm { w₂ with own } := fun own => ⟨h₂'.absorbed, h₂'.settled⟩
    split
    · exact (h₃ _).note trivial
    · exact h₃ _

theorem wp_loopHead_calm (hitem : availabilityItem content = .ok item) (h : Calm w) :
    wp (loopHead seams content key) (fun _ w' => Calm w') StopsWith w := by
  refine wp_loopHead fun w₁ hrun _ => ?_
  have hfill : Steps StaysCalm (fillUnlessPaused seams key) :=
    steps_fillUnlessPaused_closed (closedUnderLoop_calm.keeping.serving.mono fun _ he => he.isCalm)
  have h₁ : Calm w₁ := (wp_of_run_ok hrun).mp (hfill.wp w) h
  split
  · exact h₁
  split
  · rw [wp_failWith]
    exact Or.inl ⟨h₁.note trivial, fun e he => by cases he; exact trivial⟩
  split
  · rw [stalled, wp_bind, wp_getJob]
    split
    · rw [wp_bind]
      refine (wp_relocate_calm hitem h₁).mono (fun added w₂ h₂ => ?_) (fun _ _ h₂ => h₂)
      rw [wp_bind, wp_modifyJob]
      have h₃ : ∀ own, Calm { w₂ with own } := fun own => ⟨h₂.absorbed, h₂.settled⟩
      split
      · exact h₃ _
      · exact wp_waitOut_calm (h₃ _)
    · exact wp_waitOut_calm h₁
  · exact h₁

theorem wp_rangeFailed_recoverable {index : Nat} {peer : String} {e : DownloadError}
    (h : e.isRecoverable = true) :
    wp (rangeFailed seams index peer e) (fun _ _ => True) (fun _ _ => False) w := by
  rw [rangeFailed, if_pos h, wp_bind, wp_readClock, wp_bind, wp_modifyJob, wp_bind, wp_noteJob,
    wp_emit]
  exact trivial

/-- An answer ends the download only as the error it is, or with an error of the host. -/
theorem wp_handleResult_error (index : Nat) (peer : String)
    (answer : Except DownloadError FetchedRange) :
    wp (handleResult seams index peer answer) (fun _ _ => True)
      (fun halt _ => ∀ e, halt = .failed e → seams.host.Raises e ∨ answer = .error e) w := by
  rw [handleResult, wp_bind, wp_modifyJob, wp_bind, wp_getJob]
  split
  · cases answer with
    | error e =>
      dsimp only
      rw [rangeFailed]
      split
      · rw [wp_bind, wp_readClock, wp_bind, wp_modifyJob, wp_bind, wp_noteJob, wp_emit]
        exact trivial
      · intro e' he'
        cases he'
        exact Or.inr rfl
    | ok fetched =>
      dsimp only
      split
      · exact fun e he => by cases he
      · exact (wp_rangeFailed_recoverable rfl).mono (fun _ _ h => h) (fun _ _ h => h.elim)
      · rw [rangeSucceeded, wp_bind, wp_orFail]
        refine wp_sinkWriteAt_raises ?_ (fun e n he => ?_)
        · rw [wp_bind, wp_modifyJob, wp_bind, wp_noteJob, wp_bind, wp_checkpoint]
          refine wp_storeSave_raises ?_ (fun e he => ?_)
          · exact trivial
          · intro e' he'
            cases he'
            exact Or.inl he
        · intro e' he'
          cases he'
          exact Or.inl he
  · exact fun e he => by cases he

/-- The end of a fetch ends the download with the error of the fetch if that is not
recoverable, and otherwise only with an error of the host. -/
theorem wp_takeTurn_completed_calm (hhost : ∀ e, seams.host.Raises e → e.IsTerminal)
    (hb : Books seams.config commitment w.own) (h : Calm w) (wakeup : Option Nat) (choice : Nat) :
    wp (takeTurn seams content wakeup (.completed choice)) (fun _ w' => Calm w') StopsWith w := by
  rw [takeTurn, wp_bind, wp_read]
  split
  · exact h
  rename_i fetch hfetch
  split
  · exact h
  rename_i answer _
  rw [wp_bind, wp_modifyJob, wp_bind, wp_noteJob, wp_bind]
  have hsettle : Steps StaysCalm (handleResult seams fetch.range fetch.peer answer) :=
    steps_handleResult (closedUnderLoop_calm.keeping.serving.mono fun _ he => he.isCalm) _ _ _
  have htaken : ∀ own, Calm { w with own } := fun own => ⟨h.absorbed, h.settled⟩
  cases answer with
  | ok fetched =>
    refine ((hsettle.wp _).and (wp_handleResult_error _ _ _)).mono (fun _ w' h' => ?_)
      (fun halt w' h' => Or.inl ⟨h'.1 ((htaken _).note trivial), fun e he => ?_⟩)
    · exact h'.1 ((htaken _).note trivial)
    · exact hhost e ((h'.2 e he).resolve_right (by simp))
  | error e =>
    -- what was outstanding is planned, and the plan belongs to the commitment
    have hstate := hb.scheduled.state fetch (List.mem_of_getElem? hfetch)
    obtain ⟨hlt, -⟩ := List.getElem?_eq_some_iff.mp hstate
    rw [hb.planned.states] at hlt
    obtain ⟨range, hrange⟩ : ∃ range, w.own.ranges[fetch.range]? = some range :=
      ⟨_, List.getElem?_eq_getElem hlt⟩
    have hfailed : ∀ {Q : Unit → JobWorld → Prop} {E : Halt → JobWorld → Prop},
        wp (rangeFailed seams fetch.range fetch.peer e) Q E
          (afterTake w (choice % w.own.inflight.length) fetch (.error e)) →
        wp (handleResult seams fetch.range fetch.peer (.error e)) Q E
          ({ w with own := { w.own with
            inflight := w.own.inflight.eraseIdx (choice % w.own.inflight.length) } }.note
              (.ask (.fetched fetch.range fetch.peer (some (.error e))))) := by
      intro Q E hwp
      exact wp_handleResult_refused hb.planned.committed hrange hwp
    by_cases hrecoverable : e.isRecoverable = true
    · refine ((hsettle.wp _).and (hfailed (wp_rangeFailed_recoverable hrecoverable))).mono
        (fun _ w' h' => ?_) (fun _ _ h' => h'.2.elim)
      exact h'.1 ((htaken _).note hrecoverable)
    · refine hfailed ?_
      rw [rangeFailed, if_neg hrecoverable, wp_failWith]
      refine Or.inr ⟨e, rfl, fun ends => ?_⟩
      show AtEach (Absorbs ends) ((w.trace ++ [_]) ++ [_]) ↔ _
      rw [atEach_concat, atEach_concat]
      simp [Absorbs, h.absorbs, hrecoverable]

/-- A control message ends the download only by cancelling it, and a refresh never does. -/
theorem wp_takeTurn_aside_error (wakeup : Option Nat) {turn : Turn}
    (hturn : ∀ choice, turn ≠ .completed choice) :
    wp (takeTurn seams content wakeup turn) (fun _ _ => True)
      (fun halt _ => ∀ e, halt = .failed e → e = .cancelled) w := by
  have hcancel : ∀ w : JobWorld, wp (do tryCheckpoint seams; failWith "cancelled" .cancelled : JobM Unit)
      (fun _ _ => True) (fun halt _ => ∀ e, halt = .failed e → e = .cancelled) w := by
    intro w
    rw [wp_bind, wp_tryCheckpoint]
    exact wp_storeSave (fun e he => by cases he; rfl) (fun _ e he => by cases he; rfl)
  cases turn with
  | completed choice => exact absurd rfl (hturn choice)
  | wake => exact trivial
  | control message =>
    rw [takeTurn, wp_bind]
    refine wp.mono ?_ (fun _ _ _ => trivial) (fun _ _ h => h) (Q := fun _ _ => True)
    cases message with
    | none => exact hcancel w
    | some message =>
      cases message with
      | cancel => exact hcancel w
      | pause =>
        rw [controlTurn, wp_bind, wp_getJob]
        split
        · exact trivial
        · rw [wp_bind, wp_modifyJob, wp_bind, wp_tryCheckpoint]
          exact wp_storeSave trivial (fun _ => trivial)
      | resume =>
        rw [controlTurn, wp_bind, wp_getJob]
        split
        · exact trivial
        · exact trivial
  | refresh =>
    rw [takeTurn, wp_bind, wp_read]
    split
    · rw [wp_bind, refreshTurn, wp_bind, wp_readClock, wp_bind, wp_modifyJob, wp_handle]
      refine wp_of_forall (fun _ _ => trivial) (fun halt w' => ?_)
      cases halt with
      | failed e => exact trivial
      | panicked => exact fun e he => by cases he
      | pending => exact fun e he => by cases he
    · exact trivial

theorem wp_takeTurn_calm (hhost : ∀ e, seams.host.Raises e → e.IsTerminal)
    (hb : Books seams.config commitment w.own) (h : Calm w) (wakeup : Option Nat) (turn : Turn) :
    wp (takeTurn seams content wakeup turn) (fun _ w' => Calm w') StopsWith w := by
  have haside : (∀ choice, turn ≠ .completed choice) →
      wp (takeTurn seams content wakeup turn) (fun _ w' => Calm w') StopsWith w := by
    intro hturn
    have hsteps : Steps StaysCalm (takeTurn seams content wakeup turn) :=
      steps_takeTurn_aside (closedUnderLoop_calm.mono fun _ he => he.isCalm) wakeup hturn
    refine ((hsteps.wp w).and (wp_takeTurn_aside_error wakeup hturn)).mono
      (fun _ _ h' => h'.1 h) (fun halt w' h' => Or.inl ⟨h'.1 h, fun e he => ?_⟩)
    rw [h'.2 e he]
    exact trivial
  cases turn with
  | completed choice => exact wp_takeTurn_completed_calm hhost hb h wakeup choice
  | control message => exact haside (by simp)
  | wake => exact haside (by simp)
  | refresh => exact haside (by simp)

theorem LoopSteps.calm {s s' : LoopPoint × JobWorld} (hsteps : LoopSteps seams content key s s')
    (hhost : ∀ e, seams.host.Raises e → e.IsTerminal)
    (hitem : availabilityItem content = .ok item) (hb : Books seams.config commitment s.2.own)
    (h : Calm s.2) : Calm s'.2 := by
  induction hsteps with
  | refl => exact h
  | tail hsteps hstep ih =>
    have hbooks := (LoopSteps.steps hsteps).books hb
    cases hstep with
    | again hrun => exact (wp_of_run_ok hrun).mp (wp_loopHead_calm hitem ih)
    | wait hrun => exact (wp_of_run_ok hrun).mp (wp_loopHead_calm hitem ih)
    | finish hrun => exact (wp_of_run_ok hrun).mp (wp_loopHead_calm hitem ih)
    | turn hrun => exact (wp_of_run_ok hrun).mp (wp_takeTurn_calm hhost hbooks ih _ _)

theorem wp_scheduleLoop_calm (hhost : ∀ e, seams.host.Raises e → e.IsTerminal)
    (hitem : availabilityItem content = .ok item) (hb : Books seams.config commitment w.own)
    (h : Calm w) (key : String) (turns : List Turn) :
    wp (scheduleLoop seams content key turns) (fun _ w' => Calm w') StopsWith w := by
  refine (wp_scheduleLoop turns).mono (fun _ w' hover => ?_) (fun halt w' hstops => ?_)
  · exact LoopSteps.calm hover hhost hitem hb h
  · cases hstops with
    | waiting hvisit =>
      exact Or.inl ⟨LoopSteps.calm hvisit hhost hitem hb h, fun e he => by cases he⟩
    | head hvisit hrun =>
      have hcalm := LoopSteps.calm hvisit hhost hitem hb h
      exact (wp_of_run_error hrun).mp (wp_loopHead_calm hitem hcalm)
    | turn hvisit hrun =>
      have hcalm := LoopSteps.calm hvisit hhost hitem hb h
      have hbooks := (LoopSteps.steps hvisit).books hb
      exact (wp_of_run_error hrun).mp (wp_takeTurn_calm hhost hbooks hcalm _ _)

end Loop

/-! ## The promotion -/

section Finish

variable {seams : ResourceSeams} {key : String} {commitment : ResourceCommitment} {w : JobWorld}

/-- A promotion fails with a failure of the check or an error of the host. -/
theorem wp_promoteVerified_error {Ask Own : Type} {host : Host} {len : Nat} {w : World Ask Own} :
    wp (promoteVerified host len) (fun _ _ => True)
      (fun e _ => (∃ v, e = .verify v) ∨ host.Raises e) w := by
  have htail : ∀ w : World Ask Own, wp (promoteVerified.promoteUnlessLonger host len)
      (fun _ _ => True) (fun e _ => (∃ v, e = .verify v) ∨ host.Raises e) w := by
    intro w
    rw [promoteVerified.promoteUnlessLonger, wp_handle]
    exact wp_sinkReadAt (fun _ _ => Or.inl ⟨_, rfl⟩)
      (fun _ => wp_sinkFinalize_raises trivial (fun e he => Or.inr he))
  rw [promoteVerified, wp_bind]
  refine wp_sinkTruncate_raises ?_ (fun e he => Or.inr he)
  rw [wp_bind, wp_read]
  split
  · exact Or.inl ⟨_, rfl⟩
  split
  · rw [wp_handle]
    exact wp_sinkReadAt (fun _ _ => htail _) (fun _ => Or.inl ⟨_, rfl⟩)
  · exact htail _

/-- A refusal ends the download with its reason. -/
theorem wp_refuse_calm (h : Calm w) {α : Type} (reason : String) (e : DownloadError) :
    wp (do discardUnverifiableAssembly seams key; failWith reason e : JobM α)
      (fun _ w' => Calm w') (fun halt w' => Calm w' ∧ halt = .failed e) w := by
  have hcalls := closedUnderLoop_calm.mono fun e (he : e.IsBackstop) => he.isCalm
  have hdiscard : Steps StaysCalm (discardUnverifiableAssembly seams key) :=
    steps_discardUnverifiableAssembly hcalls.calls (fun _ => trivial) fun _ => trivial
  have hnever : wp (discardUnverifiableAssembly seams key) (fun _ _ => True) (fun _ _ => False) w := by
    rw [discardUnverifiableAssembly, wp_bind, wp_ignoringFailure]
    refine wp_storeClear ?_ (fun e => ?_)
    · rw [wp_ignoringFailure]
      exact wp_sinkTruncate trivial (fun _ => trivial)
    · rw [wp_ignoringFailure]
      exact wp_sinkTruncate trivial (fun _ => trivial)
  rw [wp_bind]
  refine ((hdiscard.wp w).and hnever).mono (fun _ w₁ h₁ => ?_) (fun _ _ h₁ => h₁.2.elim)
  rw [wp_failWith]
  exact ⟨(h₁.1 h).note trivial, rfl⟩

theorem wp_backstop_calm (h : Calm w) :
    wp (backstop seams key commitment) (fun _ w' => Calm w')
      (fun halt w' => Calm w' ∧ ∃ v, halt = .failed (.verify v)) w := by
  have hrefuse : ∀ (v : VerifyError) (w : JobWorld), Calm w → wp (do
      discardUnverifiableAssembly seams key
      failWith v.display (.verify v) : JobM Unit) (fun _ w' => Calm w')
      (fun halt w' => Calm w' ∧ ∃ v, halt = .failed (.verify v)) w := fun v w hw =>
    (wp_refuse_calm hw _ _).mono (fun _ _ h' => h') (fun _ _ h' => ⟨h'.1, v, h'.2⟩)
  rw [backstop, wp_bind, wp_getJob]
  split
  · exact h
  rw [wp_bind, wp_modifyJob, wp_bind, verifyResourceLeaf]
  have hown : ∀ own, Calm { w with own } := fun own => ⟨h.absorbed, h.settled⟩
  split
  · rw [wp_pure]
    exact hrefuse _ _ (hown _)
  · rw [wp_bind, wp_askJob]
    split
    · exact (hown _).note trivial
    · rw [wp_pure]
      exact hrefuse _ _ ((hown _).note trivial)

/-- The promotion ends with a failure of the final check or an error of the host. -/
theorem wp_finish_calm (key : String) (commitment : ResourceCommitment)
    (hhost : ∀ e, seams.host.Raises e → e.IsTerminal) (h : Calm w) :
    wp (finish seams key commitment) (fun _ w' => Calm w')
      (fun halt w' => Calm w' ∧ ∀ e, halt = .failed e → e.IsTerminal ∨ ∃ v, e = .verify v) w := by
  rw [finish, wp_bind]
  refine (wp_backstop_calm h).mono (fun _ w₁ h₁ => ?_) (fun halt w₁ h₁ => ?_)
  · have hpromote : Steps StaysCalm (promoteVerified seams.host commitment.totalLength) :=
      steps_promoteVerified closedUnderLoop_calm.calls (fun _ => trivial) (fun _ _ _ => trivial)
        fun _ => trivial
    have hclear : Steps StaysCalm (storeClear seams.host key) :=
      steps_storeClear closedUnderLoop_calm.calls fun _ => trivial
    rw [wp_bind, wp_attempt]
    refine ((hpromote.wp w₁).and wp_promoteVerified_error).mono (fun _ w₂ h₂ => ?_)
      (fun e w₂ h₂ => ?_)
    · have h₂' : Calm w₂ := h₂.1 h₁
      dsimp only
      rw [wp_bind, wp_ignoringFailure]
      exact (hclear.wp w₂).mono (fun _ _ h₃ => (h₃ h₂').note trivial)
        (fun _ _ h₃ => (h₃ h₂').note trivial)
    · have h₂' : Calm w₂ := h₂.1 h₁
      refine (wp_refuse_calm h₂' _ _).mono (fun _ _ h₃ => h₃) (fun halt w₃ h₃ => ⟨h₃.1, ?_⟩)
      intro e' he'
      rw [h₃.2] at he'
      cases he'
      exact h₂.2.symm.imp_left (hhost e)
  · obtain ⟨v, rfl⟩ := h₁.2
    refine ⟨h₁.1, fun e he => ?_⟩
    cases he
    exact Or.inr ⟨v, rfl⟩

/-- The part of a run that schedules and promotes: it absorbs every error and ends with a terminal
one or a failure of the final check, or the one that ends it is not absorbed. -/
theorem wp_entered_calm {target : Target} {item : AvailabilityItem}
    (hhost : ∀ e, seams.host.Raises e → e.IsTerminal)
    (hitem : availabilityItem target.content = .ok item) (hb : Books seams.config commitment w.own)
    (h : Calm w) (turns : List Turn) :
    wp (entered seams target turns commitment) (fun _ w' => Calm w')
      (fun halt w' => (Calm w' ∧ ∀ e, halt = .failed e → e.IsTerminal ∨ ∃ v, e = .verify v) ∨
        ∃ e, halt = .failed e ∧ ∀ ends, AtEach (Absorbs ends) w'.trace ↔ ends e) w := by
  rw [entered, wp_bind]
  refine (wp_scheduleLoop_calm hhost hitem hb h (downloadKey seams target) turns).mono
    (fun _ w₁ h₁ => ?_) (fun halt w₁ h₁ => ?_)
  · exact (wp_finish_calm (downloadKey seams target) commitment hhost h₁).mono (fun _ _ h₂ => h₂)
      (fun _ _ h₂ => Or.inl h₂)
  · exact h₁.imp_left fun hcalm => ⟨hcalm.1, fun e he => Or.inl (hcalm.2 e he)⟩

end Finish

/-! ## The whole run -/

section Run

variable {seams : ResourceSeams} {target : Target} {sink : Sink} {store : StateStore}
  {commitment : ResourceCommitment}

theorem availabilityItem_of_entering
    (henter : (entering seams target (JobWorld.start seams target sink store)).1 = .ok commitment) :
    ∃ item, availabilityItem target.content = .ok item := by
  have hitem : wp (entering seams target)
      (fun _ _ => ∃ item, availabilityItem target.content = .ok item) (fun _ _ => True)
      (JobWorld.start seams target sink store) := by
    rw [entering, wp_bind]
    refine wp_of_forall (fun _ w₁ => ?_) (fun _ _ => trivial)
    rw [planInner, wp_bind, discover]
    cases hitem : availabilityItem target.content with
    | error e => exact trivial
    | ok item => exact wp_of_forall (fun _ w₂ => wp_of_forall (fun _ _ => ⟨item, rfl⟩)
        (fun _ _ => trivial)) (fun _ _ => trivial)
  exact hitem.ok henter

/-- After a download has a plan, it ends with a terminal error or the failure of the final
check, if and only if it met no other error that it does not absorb: one of the locator in
a relocate, or one of a fetch that is not recoverable. -/
theorem terminal_errors_iff (turns : List Turn)
    (henter : (entering seams target (JobWorld.start seams target sink store)).1 = .ok commitment)
    (hhost : ∀ e, seams.host.Raises e → e.IsTerminal) :
    (∀ e, (downloadResource seams target turns sink store).1 = .error (.failed e) →
        e.IsTerminal ∨ (∃ v, e = .verify v) ∧
          (scheduleLoop seams target.content (downloadKey seams target) turns
            (loopStart seams target sink store)).1 = .ok ()) ↔
      AtEach (Absorbs DownloadError.IsTerminal)
        (downloadResource seams target turns sink store).2.trace := by
  obtain ⟨item, hitem⟩ := availabilityItem_of_entering henter
  obtain ⟨hbooks, -, -, hsetup⟩ := loopStart_spec henter
  have hcalm : Calm (loopStart seams target sink store) := by
    have hsteps : Steps StaysCalm (entering seams target) := steps_entering
      ⟨fun w store e he hc => closedUnderLoop_calm.calls w store e he.isCalm hc,
        fun w own _ => closedUnderLoop_calm.own w own⟩
    exact hsteps _ ⟨atEach_nil, by simp [JobWorld.start]⟩
  have hloop := wp_scheduleLoop_calm hhost hitem hbooks hcalm (downloadKey seams target) turns
  rw [downloadResource_of_entered henter, entered]
  cases hr : scheduleLoop seams target.content (downloadKey seams target) turns
      (loopStart seams target sink store) with
  | mk r w =>
    cases r with
    | ok u =>
      have hw : Calm w := (wp_of_run_ok hr).mp hloop
      have hfinish := wp_iff.mp (wp_finish_calm (downloadKey seams target) commitment hhost hw)
      rw [bind_of_ok hr]
      refine iff_of_true (fun e he => ?_) ?_
      · exact ((hfinish.2 _ he).2 e rfl).imp_right fun hv => ⟨hv, rfl⟩
      · cases hend : (finish seams (downloadKey seams target) commitment w).1 with
        | ok n => exact (hfinish.1 n hend).absorbs
        | error halt => exact (hfinish.2 halt hend).1.absorbs
    | error halt =>
      have hstops : StopsWith halt w := (wp_of_run_error hr).mp hloop
      rw [bind_of_error hr]
      cases hstops with
      | inl hcalm =>
        refine iff_of_true (fun e he => Or.inl (hcalm.2 e ?_)) hcalm.1.absorbs
        simpa using he
      | inr hlost =>
        obtain ⟨e, rfl, hends⟩ := hlost
        rw [hends]
        constructor
        · intro h
          exact (h e rfl).resolve_right (by simp)
        · intro hterminal e' he'
          cases he'
          exact Or.inl hterminal

end Run

theorem healthy_isTerminal {e : DownloadError} (h : Host.healthy.Raises e) : e.IsTerminal := by
  cases h with
  | writeAt h => cases h
  | truncate h => cases h
  | finalize h => cases h
  | load h => cases h
  | save h => cases h
  | bounds reason => exact trivial

/-- One holder that is busy at first and then serves, and a disk that is too full to promote. -/
def fullDiskSeams : ResourceSeams :=
  { smallResourceSeams with
    fetchRange := fun t p req =>
      if req.skipLayout ∧ t < 14 then some (.error (.transport p.providerPeerId "busy"))
      else some (.ok (honestRange smallResource [2, 1] (some "proof") req))
    host := { Host.healthy with
      finalize := fun _ => some (.sink "No space left on device (os error 28)") }
    config := { smallResourceSeams.config with baseBackoff := 0, maxBackoff := 0 } }

theorem fullDisk_isTerminal {e : DownloadError} (h : fullDiskSeams.host.Raises e) :
    e.IsTerminal := by
  cases h with
  | writeAt h => cases h
  | truncate h => cases h
  | finalize h =>
    cases h
    trivial
  | load h => cases h
  | save h => cases h
  | bounds reason => exact trivial

/-- The error of the holder is absorbed, and the one of the disk ends the download. -/
theorem terminal_errors_iff_small :
    AtEach (Absorbs DownloadError.IsTerminal)
      (downloadResource fullDiskSeams smallTarget
        [.completed 1, .completed 0, .completed 0, .completed 0] emptySink emptyStore).2.trace := by
  have henter : (entering fullDiskSeams smallTarget
      (JobWorld.start fullDiskSeams smallTarget emptySink emptyStore)).1
        = .ok smallCommitment := by decide +kernel
  have hfull : (downloadResource fullDiskSeams smallTarget
      [.completed 1, .completed 0, .completed 0, .completed 0] emptySink emptyStore).1
        = .error (.failed (.sink "No space left on device (os error 28)")) := by decide +kernel
  refine (terminal_errors_iff _ henter fun e => fullDisk_isTerminal).mp fun e he => .inl ?_
  rw [hfull] at he
  cases he
  trivial

/-- One holder that answers the probe and refuses every range, and a locator that answers
at first and is out of reach later. -/
def flakyLocatorSeams : ResourceSeams :=
  { smallResourceSeams with
    findProviders := fun t _ =>
      if t < 5 then .ok [{ providerPeerId := holderA, addresses := [] }]
      else .error (.transport "dht" "timed out")
    fetchRange := fun _ p req =>
      if req.skipLayout then some (.error (.transport p.providerPeerId "busy"))
      else some (.ok (honestRange smallResource [2, 1] (some "proof") req)) }

/-- While its holder is backing off, a download ends with an error of the locator. -/
theorem locator_error_ends_download :
    ¬ ∀ (seams : ResourceSeams) (target : Target) (turns : List Turn) (sink : Sink)
      (store : StateStore) (commitment : ResourceCommitment),
      (entering seams target (JobWorld.start seams target sink store)).1 = .ok commitment →
      (∀ e, seams.host.Raises e → e.IsTerminal) →
      ∀ e, (downloadResource seams target turns sink store).1 = .error (.failed e) →
        e.IsTerminal ∨ (∃ v, e = .verify v) ∧
          (scheduleLoop seams target.content (downloadKey seams target) turns
            (loopStart seams target sink store)).1 = .ok () := by
  intro h
  have hend := h flakyLocatorSeams smallTarget [.completed 0, .completed 0] emptySink emptyStore
    smallCommitment (by decide +kernel) (fun e => healthy_isTerminal)
    (.transport "dht" "timed out") (by decide +kernel)
  cases hend with
  | inl hterminal => exact hterminal
  | inr hverify =>
    obtain ⟨v, hv⟩ := hverify.1
    cases hv

end DigDownload
