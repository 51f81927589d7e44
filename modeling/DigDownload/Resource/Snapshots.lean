import Mathlib.Data.List.Chain
import DigDownload.Resource.Endings
import DigDownload.Resource.Reports

/-!
# The progress that is reported

Every range that completes is reported with a snapshot of the progress. The snapshots of a run
count up one by one, never go back and never overrun the plan that was announced, and only the
last one can say that the download is complete. After a download that succeeds it does.
-/

namespace DigDownload

open Prog

/-! ## Snapshots -/

/-- `DownloadProgress::is_complete`. -/
def DownloadProgress.isComplete (p : DownloadProgress) : Bool :=
  decide (0 < p.rangesTotal) && p.rangesDone == p.rangesTotal

/-- One snapshot after another: a range more is done, under the same plan. -/
structure DownloadProgress.Next (p q : DownloadProgress) : Prop where
  ranges : q.rangesDone = p.rangesDone + 1
  bytes : p.bytesDone ≤ q.bytesDone
  rangesTotal : q.rangesTotal = p.rangesTotal
  totalLength : q.totalLength = p.totalLength

/-- The snapshot that an event carries. -/
def DownloadEvent.progress? : DownloadEvent → Option DownloadProgress
  | .rangeCompleted _ _ progress => some progress
  | _ => none

/-- The snapshots among the events of a download. -/
def snapshots (told : List DownloadEvent) : List DownloadProgress :=
  told.filterMap DownloadEvent.progress?

/-- Progress that is reported as it is. -/
structure ProgressSound (told : List DownloadEvent) : Prop where
  planned : ∀ p ∈ snapshots told, .planned p.rangesTotal p.totalLength ∈ told
  bounded : ∀ p ∈ snapshots told, p.rangesDone ≤ p.rangesTotal ∧ p.bytesDone ≤ p.totalLength
  counted : (snapshots told).IsChain DownloadProgress.Next
  last : ∀ before p after, snapshots told = before ++ p :: after → p.isComplete = true → after = []

theorem snapshots_append (told told' : List DownloadEvent) :
    snapshots (told ++ told') = snapshots told ++ snapshots told' := List.filterMap_append

/-- Effects without a snapshot. -/
theorem snapshots_events_append {trace more : List (Effect ResourceAsk)}
    (h : ∀ e ∈ more, e.event?.bind DownloadEvent.progress? = none) :
    snapshots (events (trace ++ more)) = snapshots (events trace) := by
  have hnone : snapshots (events more) = [] := by
    rw [snapshots, events, List.filterMap_filterMap]
    exact List.filterMap_eq_nil_iff.mpr h
  rw [events_append, snapshots_append, hnone, List.append_nil]

/-- A snapshot is reported exactly when the ledger has a completion. -/
theorem length_snapshots (trace : List (Effect ResourceAsk)) :
    (snapshots (events trace)).length = (ledger trace).countP Tally.isCompleted := by
  rw [snapshots, events, ledger, List.filterMap_filterMap, List.length_filterMap_eq_countP,
    List.countP_filterMap]
  refine List.countP_congr fun e _ => ?_
  cases e with
  | ask a =>
    cases a with
    | emit event => cases event <;> simp [Effect.event?, Effect.tally, DownloadEvent.progress?,
        Tally.isCompleted]
    | _ => simp [Effect.event?, Effect.tally, Tally.isCompleted]
  | _ => simp [Effect.event?, Effect.tally]

/-- A complete snapshot has none after it. -/
theorem last_of_counted {l before after : List DownloadProgress} {p : DownloadProgress}
    (hcounted : l.IsChain DownloadProgress.Next)
    (hbounded : ∀ p ∈ l, p.rangesDone ≤ p.rangesTotal) (hl : l = before ++ p :: after)
    (hcomplete : p.isComplete = true) : after = [] := by
  cases after with
  | nil => rfl
  | cons q after =>
    subst hl
    have hnext : p.Next q := (List.isChain_append_cons_cons.mp hcounted).2.1
    have hle := hbounded q (by simp)
    rw [DownloadProgress.isComplete, Bool.and_eq_true, beq_iff_eq] at hcomplete
    have := hnext.ranges
    have := hnext.rangesTotal
    omega

/-! ## The loop -/

section Loop

variable {seams : ResourceSeams} {content : ContentId} {commitment : ResourceCommitment}
  {w w' : JobWorld}

/-- What the snapshots of a run have to do with the job that goes on from it. -/
structure Reporting (config : DownloadConfig) (commitment : ResourceCommitment) (w : JobWorld) :
    Prop where
  counted : (snapshots (events w.trace)).IsChain DownloadProgress.Next
  current : ∀ p ∈ (snapshots (events w.trace)).getLast?,
    p.rangesDone = w.own.rangeState.countP (· = .done) ∧ p.bytesDone = w.own.bytesDone
  plan : ∀ p ∈ snapshots (events w.trace),
    p.rangesTotal = (planRanges commitment.layout config.window).length ∧
      p.totalLength = commitment.totalLength
  bounded : ∀ p ∈ snapshots (events w.trace),
    p.rangesDone ≤ p.rangesTotal ∧ p.bytesDone ≤ p.totalLength

/-- What a step does to the count of the done ranges it does to the ledger. -/
theorem Entry.countP_done (h : Entry w w') :
    w'.own.rangeState.countP (· = .done) + (ledger w.trace).countP Tally.isCompleted
      = w.own.rangeState.countP (· = .done) + (ledger w'.trace).countP Tally.isCompleted := by
  cases h with
  | none hledger hstate => rw [hledger, hstate]
  | relocated hledger hstate => simp [hledger, hstate, Tally.isCompleted]
  | issued range peer hledger hpending hstate =>
    obtain ⟨hlt, hget⟩ := List.getElem?_eq_some_iff.mp hpending
    simp [hledger, hstate, Tally.isCompleted, List.countP_set hlt, hget]
  | completed range peer hledger hold hstate =>
    obtain ⟨hlt, hget⟩ := List.getElem?_eq_some_iff.mp hold
    simp [hledger, hstate, Tally.isCompleted, List.countP_set hlt, hget]
    omega
  | failed range peer hledger hold hstate =>
    obtain ⟨hlt, hget⟩ := List.getElem?_eq_some_iff.mp hold
    simp [hledger, hstate, Tally.isCompleted, List.countP_set hlt, hget]

/-- Bytes are counted where a range completes, and nowhere else. -/
theorem Entry.bytesDone_eq (h : Entry w w')
    (hledger : (ledger w'.trace).countP Tally.isCompleted
      = (ledger w.trace).countP Tally.isCompleted) : w'.own.bytesDone = w.own.bytesDone := by
  cases h with
  | none _ _ _ _ _ hbytes => exact hbytes
  | relocated _ _ _ _ _ hbytes => exact hbytes
  | issued _ _ _ _ _ _ _ _ hbytes => exact hbytes
  | failed _ _ _ _ _ _ _ _ hbytes => exact hbytes
  | completed range peer hentry =>
    rw [hentry, List.countP_append] at hledger
    simp [Tally.isCompleted] at hledger

theorem Effect.IsLook.progress? {e : Effect ResourceAsk} (h : e.IsLook) :
    e.event?.bind DownloadEvent.progress? = none := by
  rw [Effect.IsLook.eq_def] at h
  split at h <;> first | rfl | exact h.elim

/-- A step reports nothing, or the job as it is after the step. -/
theorem JobStep.snapshots (hstep : JobStep seams content w w') :
    snapshots (events w'.trace) = snapshots (events w.trace) ∨
      snapshots (events w'.trace) = snapshots (events w.trace) ++ [w'.own.snapshot] := by
  cases hstep with
  | look he => exact .inl (snapshots_events_append fun e hmem => by
      rw [List.mem_singleton.mp hmem]
      exact he.progress?)
  | learn => exact .inl rfl
  | refresh => exact .inl rfl
  | relocate => exact .inl (snapshots_events_append (by simp [Effect.event?]))
  | relocated => exact .inl rfl
  | pause => exact .inl rfl
  | save => exact .inl (snapshots_events_append (by simp [Effect.event?]))
  | unsaved => exact .inl (snapshots_events_append (by simp [Effect.event?]))
  | issue => exact .inl (snapshots_events_append (by simp [Effect.event?]))
  | succeed =>
    refine .inr ?_
    rw [events_append, snapshots_append]
    rfl
  | fail =>
    refine .inl (snapshots_events_append ?_)
    simp [Effect.event?, DownloadEvent.progress?]

theorem JobStep.reporting (hstep : JobStep seams content w w')
    (hb : Books seams.config commitment w.own) (hb' : Books seams.config commitment w'.own)
    (h : Reporting seams.config commitment w) : Reporting seams.config commitment w' := by
  have hentry := hstep.entry hb
  have hdone := hentry.countP_done
  have hlength := length_snapshots w'.trace
  rw [← length_snapshots, ← length_snapshots] at hdone
  cases hstep.snapshots with
  | inl hsame =>
    rw [hsame] at hdone hlength
    have hbytes := hentry.bytesDone_eq (hlength.symm.trans (length_snapshots w.trace))
    refine ⟨?_, ?_, ?_, ?_⟩ <;> rw [hsame]
    · exact h.counted
    · rw [Nat.add_right_cancel hdone, hbytes]
      exact h.current
    · exact h.plan
    · exact h.bounded
  | inr htold =>
    -- the snapshot agrees with the books after the step
    have hinv := hb'.invariant
    have hplan : w'.own.snapshot.rangesTotal
          = (planRanges commitment.layout seams.config.window).length ∧
        w'.own.snapshot.totalLength = commitment.totalLength := by
      refine ⟨congrArg List.length hb'.planned.ranges, ?_⟩
      simp [Job.snapshot, hb'.planned.committed]
    have hcount : w'.own.rangeState.countP (· = .done) = w.own.rangeState.countP (· = .done) + 1 := by
      rw [htold, List.length_append, List.length_singleton] at hdone
      omega
    refine ⟨?_, ?_, ?_, ?_⟩ <;> rw [htold]
    · refine h.counted.append (List.isChain_singleton _) fun p hp q hq => ?_
      cases hq
      obtain ⟨hranges, hbytes⟩ := h.current p hp
      obtain ⟨hptotal, hplength⟩ := h.plan p (List.mem_of_getLast? hp)
      refine ⟨?_, ?_, hplan.1.trans hptotal.symm, hplan.2.trans hplength.symm⟩
      · rw [hranges]
        exact hcount
      · rw [hbytes]
        exact hentry.bytes_le
    · intro p hp
      rw [List.getLast?_concat] at hp
      cases hp
      exact ⟨rfl, rfl⟩
    · exact List.forall_mem_append.mpr ⟨h.plan, by simpa using hplan⟩
    · refine List.forall_mem_append.mpr ⟨h.bounded, ?_⟩
      rw [List.forall_mem_singleton, hplan.2]
      refine ⟨?_, hinv.total⟩
      show w'.own.rangeState.countP (· = .done) ≤ w'.own.ranges.length
      rw [← hb'.planned.states]
      exact List.countP_le_length

theorem JobSteps.reporting (hsteps : JobSteps seams content w w')
    (hb : Books seams.config commitment w.own) (h : Reporting seams.config commitment w) :
    Reporting seams.config commitment w' := by
  induction hsteps with
  | refl => exact h
  | tail hsteps hstep ih =>
    exact hstep.reporting (JobSteps.books hsteps hb) (JobSteps.books (hsteps.tail hstep) hb) ih

/-- A job that stops reports nothing more. -/
theorem JobEnds.snapshots {halt : Halt} (hends : JobEnds seams content w halt w') :
    snapshots (events w'.trace) = snapshots (events w.trace) := by
  cases hends with
  | pending => rfl
  | undownloadable => rfl
  | panicked | lost | unwritten | unsaved =>
    exact snapshots_events_append (by simp [Effect.event?])
  | cancelled | gaveUp | refused =>
    exact snapshots_events_append (by simp [Effect.event?, DownloadEvent.progress?])

end Loop

/-! ## The whole run -/

section Run

variable {seams : ResourceSeams} {target : Target} {sink : Sink} {store : StateStore}
  {turns : List Turn} {commitment : ResourceCommitment}

/-- The plan is announced, with the number of its ranges. -/
theorem wp_planDownload_announced (key : String) (w : JobWorld) :
    wp (planDownload seams key commitment)
      (fun _ w' => .planned w'.own.ranges.length commitment.totalLength ∈ events w'.trace)
      (fun _ _ => True) w := by
  rw [planDownload, wp_bind]
  refine wp_of_forall (fun _ w₁ => ?_) (fun _ _ => trivial)
  rw [wp_bind]
  refine wp_of_forall (fun _ w₂ => ?_) (fun _ _ => trivial)
  rw [wp_bind, wp_modifyJob, wp_bind, wp_getJob, wp_bind]
  refine wp_of_forall (fun _ w₃ => ?_) (fun _ _ => trivial)
  rw [wp_bind, wp_getJob, wp_emit]
  show _ ∈ events (w₃.trace ++ _)
  rw [events_append]
  exact List.mem_append_right _ List.mem_cons_self

theorem wp_entering_announced (seams : ResourceSeams) (target : Target) (w : JobWorld) :
    wp (entering seams target)
      (fun commitment w' => .planned w'.own.ranges.length commitment.totalLength ∈ events w'.trace)
      (fun _ _ => True) w := by
  rw [entering_eq, wp_bind]
  refine wp_of_forall (fun commitment w₁ => ?_) (fun _ _ => trivial)
  rw [wp_bind]
  exact (wp_planDownload_announced _ w₁).mono (fun _ _ h => h) fun _ _ _ => trivial

/-- Effects before the loop carry no snapshot. -/
theorem Effect.IsSetup.progress? {e : Effect ResourceAsk} (h : e.IsSetup) :
    e.event?.bind DownloadEvent.progress? = none := by
  rw [Effect.IsSetup.eq_def] at h
  split at h <;> first | rfl | exact h.elim

/-- Effects after the loop carry no snapshot. -/
theorem Effect.IsFinish.progress? {e : Effect ResourceAsk} (h : e.IsFinish) :
    e.event?.bind DownloadEvent.progress? = none := by
  rw [Effect.IsFinish.eq_def] at h
  split at h <;> first | rfl | exact h.elim

/-- A job that only sets up has reported nothing. -/
theorem snapshots_of_setup {w : JobWorld}
    (h : Appends Effect.IsSetup (JobWorld.start seams target sink store) w) :
    snapshots (events w.trace) = [] := by
  obtain ⟨seg, hseg, hsetup⟩ := h
  have hnone := @snapshots_events_append [] _ fun e he => (hsetup e he).progress?
  rwa [show w.trace = [] ++ seg from hseg]

/-- Where all ranges are done, a snapshot of the job is complete. -/
theorem Reporting.complete {w : JobWorld} (h : Reporting seams.config commitment w)
    (hplanned : w.own.Planned seams.config commitment) (hall : w.own.allDone = true) :
    ∀ p ∈ (snapshots (events w.trace)).getLast?,
      p.isComplete = true ∧ p.bytesDone = commitment.totalLength := by
  intro p hp
  obtain ⟨hranges, hbytes⟩ := h.current p hp
  obtain ⟨htotal, -⟩ := h.plan p (List.mem_of_getLast? hp)
  rw [← hplanned.ranges, ← hplanned.states] at htotal
  refine ⟨?_, hbytes.trans (hplanned.bytes_of_allDone hall)⟩
  rw [Job.allDone, Bool.and_eq_true, List.all_eq_true] at hall
  have hcount : w.own.rangeState.countP (· = .done) = w.own.rangeState.length :=
    List.countP_eq_length.mpr fun s hs => hall.2 s hs
  have hpos : 0 < w.own.rangeState.length := List.length_pos_iff.mpr (by simpa using hall.1)
  rw [DownloadProgress.isComplete, htotal, hranges, hcount]
  simpa using hpos

/-- The loop is entered with nothing reported. -/
theorem reporting_loopStart
    (henter : (entering seams target (JobWorld.start seams target sink store)).1 = .ok commitment) :
    Reporting seams.config commitment (loopStart seams target sink store) := by
  have hnone := snapshots_of_setup (loopStart_spec henter).2.2.2
  refine ⟨?_, ?_, ?_, ?_⟩ <;> rw [hnone]
  · exact .nil
  · intro p hp
    cases hp
  · exact fun p hp => absurd hp List.not_mem_nil
  · exact fun p hp => absurd hp List.not_mem_nil

/-- A trace whose snapshots those of a reporting job are reports soundly. -/
theorem Reporting.sound {w : JobWorld} (h : Reporting seams.config commitment w)
    {trace : List (Effect ResourceAsk)} (hsame : snapshots (events trace) = snapshots (events w.trace))
    (hannounced : .planned (planRanges commitment.layout seams.config.window).length
      commitment.totalLength ∈ events trace) : ProgressSound (events trace) := by
  refine ⟨?_, ?_, ?_, ?_⟩ <;> rw [hsame]
  · intro p hp
    obtain ⟨htotal, hlength⟩ := h.plan p hp
    rw [htotal, hlength]
    exact hannounced
  · exact h.bounded
  · exact h.counted
  · exact fun before p after hl =>
      last_of_counted h.counted (fun p hp => (h.bounded p hp).1) hl

theorem ProgressSound.of_nothing {told : List DownloadEvent} (h : snapshots told = []) :
    ProgressSound told := by
  refine ⟨?_, ?_, ?_, ?_⟩ <;> rw [h]
  · exact fun p hp => absurd hp List.not_mem_nil
  · exact fun p hp => absurd hp List.not_mem_nil
  · exact .nil
  · intro before p after hl
    exact absurd hl (by simp)

/-- The announcement of the plan is not taken back. -/
theorem announced_of_appends {w w' : JobWorld} {K : Effect ResourceAsk → Prop}
    {event : DownloadEvent} (happends : Appends K w w') (h : event ∈ events w.trace) :
    event ∈ events w'.trace := by
  obtain ⟨seg, hseg, -⟩ := happends
  rw [hseg, events_append]
  exact List.mem_append_left _ h

/-- The loop is entered after the plan was announced. -/
theorem loopStart_announced
    (henter : (entering seams target (JobWorld.start seams target sink store)).1 = .ok commitment) :
    .planned (planRanges commitment.layout seams.config.window).length commitment.totalLength
      ∈ events (loopStart seams target sink store).trace := by
  have hannounced : .planned (loopStart seams target sink store).own.ranges.length
      commitment.totalLength ∈ events (loopStart seams target sink store).trace :=
    (wp_entering_announced seams target _).ok henter
  rwa [(loopStart_spec henter).1.planned.ranges] at hannounced

/-- Whatever the holders, the selector and the owner do, and however a download ends, the
progress that it reports counts up range by range under the plan that it announced, never
overruns it, and is complete at the last report only. If the download succeeds, the last report
is complete, and the bytes of it are those of the resource. -/
theorem progress_sound (seams : ResourceSeams) (target : Target) (turns : List Turn) (sink : Sink)
    (store : StateStore) :
    ProgressSound (events (downloadResource seams target turns sink store).2.trace) ∧
      ∀ n, (downloadResource seams target turns sink store).1 = .ok n →
        ∀ p ∈ (snapshots (events (downloadResource seams target turns sink store).2.trace)).getLast?,
          p.isComplete = true ∧ p.bytesDone = n := by
  refine downloadResource_cases
    (Q := fun run => ProgressSound (events run.2.trace) ∧ ∀ n, run.1 = .ok n →
      ∀ p ∈ (snapshots (events run.2.trace)).getLast?, p.isComplete = true ∧ p.bytesDone = n)
    (fun halt w hsetup => ?_)
    (fun commitment halt w w' henter hsteps hends hloop => ?_)
    (fun commitment w henter hsteps hall hloop => ?_)
  · refine ⟨.of_nothing (snapshots_of_setup hsetup), fun n hn => ?_⟩
    cases hn
  · have hreporting := hsteps.reporting (loopStart_spec henter).1 (reporting_loopStart henter)
    have hannounced := announced_of_appends hloop (loopStart_announced henter)
    refine ⟨hreporting.sound hends.snapshots hannounced, fun n hn => ?_⟩
    cases hn
  · have hbooks := (loopStart_spec henter).1
    have hreporting := hsteps.reporting hbooks (reporting_loopStart henter)
    have hfinish := finish_appends seams (downloadKey seams target) commitment w
    have hannounced := announced_of_appends hfinish
      (announced_of_appends hloop (loopStart_announced henter))
    obtain ⟨seg, hseg, hfinishes⟩ := hfinish
    have hsame : snapshots (events (finish seams (downloadKey seams target) commitment w).2.trace)
        = snapshots (events w.trace) := by
      rw [hseg]
      exact snapshots_events_append fun e he => (hfinishes e he).progress?
    refine ⟨hreporting.sound hsame hannounced, fun n hn => ?_⟩
    have hlength : n = commitment.totalLength := (wp_finish_length _ _).ok hn
    rw [hsame, hlength]
    exact hreporting.complete (JobSteps.books hsteps hbooks).planned hall

theorem progress_sound_small :
    ProgressSound (events (downloadResource smallResourceSeams smallTarget
      [.completed 0, .completed 0] emptySink emptyStore).2.trace) ∧
    (snapshots (events (downloadResource smallResourceSeams smallTarget
      [.completed 0, .completed 0] emptySink emptyStore).2.trace)).map DownloadProgress.isComplete
        = [false, true] :=
  ⟨(progress_sound smallResourceSeams smallTarget [.completed 0, .completed 0] emptySink
    emptyStore).1, by decide +kernel⟩

end Run

end DigDownload
