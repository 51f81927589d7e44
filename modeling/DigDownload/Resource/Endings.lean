import DigDownload.Resource.Untrusted

/-!
# The ways a download goes

A download ends before it schedules anything, or in the scheduling loop, or it comes out of the
loop with every range done and promotes. What is shown of these three holds of every run.
-/

namespace DigDownload

open Prog

section Run

variable {seams : ResourceSeams} {target : Target} {sink : Sink} {store : StateStore}
  {turns : List Turn} {commitment : ResourceCommitment} {Q : Except Halt Nat × JobWorld → Prop}

/-- A download goes one of three ways. -/
theorem downloadResource_cases
    (hunentered : ∀ halt w, Appends Effect.IsSetup (JobWorld.start seams target sink store) w →
      Q (.error halt, w))
    (hstopped : ∀ commitment halt w w',
      (entering seams target (JobWorld.start seams target sink store)).1 = .ok commitment →
      JobSteps seams target.content (loopStart seams target sink store) w →
      JobEnds seams target.content w halt w' →
      Appends Effect.IsLoop (loopStart seams target sink store) w' → Q (.error halt, w'))
    (hover : ∀ commitment w,
      (entering seams target (JobWorld.start seams target sink store)).1 = .ok commitment →
      JobSteps seams target.content (loopStart seams target sink store) w →
      w.own.allDone = true → Appends Effect.IsLoop (loopStart seams target sink store) w →
      Q (finish seams (downloadKey seams target) commitment w)) :
    Q (downloadResource seams target turns sink store) := by
  cases henter : (entering seams target (JobWorld.start seams target sink store)).1 with
  | error halt =>
    have happends : Steps (Appends Effect.IsSetup) (entering seams target) :=
      steps_entering closedUnderSetup_appends
    rw [downloadResource_of_not_entered henter]
    exact hunentered halt _ (happends _)
  | ok commitment =>
    have hloop : Appends Effect.IsLoop (loopStart seams target sink store)
        (loopRun seams target sink store turns).2 :=
      steps_scheduleLoop closedUnderLoop_appends turns _
    rw [downloadResource_of_entered henter]
    cases hrun : (loopRun seams target sink store turns).1 with
    | error halt =>
      have hstops : Stops seams target.content (downloadKey seams target)
          (loopStart seams target sink store) halt (loopRun seams target sink store turns).2 :=
        (wp_scheduleLoop turns).error hrun
      obtain ⟨w, hsteps, hends⟩ := hstops.ends
      rw [entered_of_not_scheduled hrun]
      exact hstopped commitment halt w _ henter hsteps hends hloop
    | ok =>
      have hvisits : Visits seams target.content (downloadKey seams target)
          (loopStart seams target sink store) .over (loopRun seams target sink store turns).2 :=
        (wp_scheduleLoop turns).ok hrun
      rw [entered_of_scheduled hrun]
      exact hover commitment _ henter (LoopSteps.steps hvisits) hvisits.allDone hloop

/-- What a promotion adds to the trace. -/
theorem finish_appends (seams : ResourceSeams) (key : String) (commitment : ResourceCommitment)
    (w : JobWorld) : Appends Effect.IsFinish w (finish seams key commitment w).2 :=
  steps_finish commitment (closedUnderKeeping_appends.mono fun _ he => he.1) w

/-- What is promoted has the length that was committed to. -/
theorem wp_finish_length (key : String) (w : JobWorld) :
    wp (finish seams key commitment) (fun n _ => n = commitment.totalLength) (fun _ _ => True) w := by
  rw [finish, wp_bind]
  refine wp_of_forall (fun _ w₁ => ?_) (fun _ _ => trivial)
  rw [wp_bind]
  refine wp_of_forall (fun promoted w₂ => ?_) (fun _ _ => trivial)
  cases promoted with
  | error e => exact (wp_refuse _ _ _).mono (fun _ _ h => h.elim) fun _ _ _ => trivial
  | ok =>
    rw [wp_bind]
    refine wp_of_forall (fun _ w₃ => ?_) (fun _ _ => trivial)
    rw [wp_bind, wp_emit, wp_pure]

/-- Where all ranges are done, all bytes are. -/
theorem Job.Planned.bytes_of_allDone {job : Job} (h : job.Planned seams.config commitment)
    (hall : job.allDone = true) : job.bytesDone = commitment.totalLength := by
  have hdone : job.doneRanges = job.ranges := by
    refine List.filter_eq_self.mpr fun r hr => ?_
    obtain ⟨hlt, -⟩ := List.getElem?_eq_some_iff.mp (h.getElem?_index hr)
    have hisDone : job.IsDone r.index := Job.isDone_of_allDone hall (h.states ▸ hlt)
    simpa [Job.IsDone] using hisDone
  rw [h.bytes, ← h.sum_rangeLens, Job.doneLength, hdone]
  rfl

end Run

end DigDownload
