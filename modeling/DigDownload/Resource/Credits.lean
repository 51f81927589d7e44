import DigDownload.Resource.Endings

/-!
# What sources are credited with

The selector is told of each success with the number of bytes that it brought. These successes
are, one for one, the ranges that complete, each with its length and its source, and the bytes
of them add up to what a download did not take over from an earlier one.
-/

namespace DigDownload

open Prog

/-- A success that the selector is told of: the source and the bytes. -/
def Effect.credit? : Effect ResourceAsk → Option (String × Nat)
  | .ask (.record peer bytes .ok) => some (peer, bytes)
  | _ => none

/-- A range that is reported complete: its source and its length. -/
def Effect.delivery? (plan : List Range) : Effect ResourceAsk → Option (String × Nat)
  | .ask (.emit (.rangeCompleted i peer _)) => plan[i]?.map fun range => (peer, range.length)
  | _ => none

/-- The successes that the selector was told of. -/
def credits (log : List (Effect ResourceAsk)) : List (String × Nat) :=
  log.filterMap Effect.credit?

/-- The ranges that were reported complete. -/
def deliveries (plan : List Range) (log : List (Effect ResourceAsk)) : List (String × Nat) :=
  log.filterMap (Effect.delivery? plan)

section Log

variable {plan : List Range} {log seg : List (Effect ResourceAsk)}

@[simp] theorem credits_append : credits (log ++ seg) = credits log ++ credits seg :=
  List.filterMap_append

@[simp] theorem deliveries_append :
    deliveries plan (log ++ seg) = deliveries plan log ++ deliveries plan seg :=
  List.filterMap_append

/-- An effect that neither credits nor delivers. -/
def Effect.IsUncredited (e : Effect ResourceAsk) : Prop :=
  e.credit? = none ∧ ∀ plan, e.delivery? plan = none

theorem credits_of_uncredited (h : ∀ e ∈ seg, e.IsUncredited) : credits (log ++ seg) = credits log := by
  have hnone : credits seg = [] := List.filterMap_eq_nil_iff.mpr fun e he => (h e he).1
  rw [credits_append, hnone, List.append_nil]

theorem deliveries_of_uncredited (h : ∀ e ∈ seg, e.IsUncredited) :
    deliveries plan (log ++ seg) = deliveries plan log := by
  have hnone : deliveries plan seg = [] := List.filterMap_eq_nil_iff.mpr fun e he => (h e he).2 plan
  rw [deliveries_append, hnone, List.append_nil]

end Log

/-! ## The loop -/

section Loop

variable {seams : ResourceSeams} {content : ContentId} {commitment : ResourceCommitment}
  {w w' : JobWorld} {resumed : Nat}

/-- The credits are the deliveries, and with the bytes that were taken over they are the bytes
that the job counts. -/
structure Credited (config : DownloadConfig) (commitment : ResourceCommitment) (resumed : Nat)
    (w : JobWorld) : Prop where
  delivered : credits w.trace = deliveries (planRanges commitment.layout config.window) w.trace
  counted : ((credits w.trace).map (·.2)).sum + resumed = w.own.bytesDone

theorem Credited.uncredited (h : Credited seams.config commitment resumed w)
    {seg : List (Effect ResourceAsk)} (htrace : w'.trace = w.trace ++ seg)
    (hseg : ∀ e ∈ seg, e.IsUncredited) (hbytes : w'.own.bytesDone = w.own.bytesDone) :
    Credited seams.config commitment resumed w' := by
  refine ⟨?_, ?_⟩ <;> rw [htrace, credits_of_uncredited hseg]
  · rw [deliveries_of_uncredited hseg]
    exact h.delivered
  · rw [hbytes]
    exact h.counted

theorem Effect.IsLook.isUncredited {e : Effect ResourceAsk} (h : e.IsLook) : e.IsUncredited := by
  rw [Effect.IsLook.eq_def] at h
  split at h <;> first | exact ⟨rfl, fun _ => rfl⟩ | exact h.elim

/-- A range that completes adds its length to the bytes that are done. -/
theorem bytesDone_complete {choice : Nat} {fetch : Fetch} {answer : Except DownloadError FetchedRange}
    {commitment' : ResourceCommitment} {range : Range} {job : Job} (bytes : Bytes)
    (hb : Books seams.config commitment w.own) (hb' : Books seams.config commitment job)
    (hended : Ended seams content w choice fetch answer commitment' range)
    (hjob : job = (w.own.taken choice fetch).complete range fetch.range fetch.peer bytes) :
    job.bytesDone = w.own.bytesDone + range.length := by
  have hinFlight := hb.inFlight hended.outstanding
  have hlt : fetch.range < w.own.rangeState.length := (List.getElem?_eq_some_iff.mp hinFlight).1
  have hlength := hb.planned.doneLength_set hended.planned hlt (by simp [hinFlight]) rfl
  have hdone : job.doneLength
      = { w.own with rangeState := w.own.rangeState.set fetch.range .done }.doneLength := by
    subst hjob
    simp [Job.doneLength, Job.doneRanges, Job.complete, Job.feed]
  rw [hb'.planned.bytes, hdone, hlength]
  exact congrArg (· + range.length) hb.planned.bytes.symm

/-- A failure brings no bytes. -/
theorem uncredited_failure (peer : String) (e : DownloadError) :
    Effect.IsUncredited (.ask (.record peer 0 (if e.isTimeout then .timedOut else .failed))) := by
  split
  · exact ⟨rfl, fun _ => rfl⟩
  · exact ⟨rfl, fun _ => rfl⟩

theorem JobStep.credited (hstep : JobStep seams content w w')
    (hb : Books seams.config commitment w.own) (hb' : Books seams.config commitment w'.own)
    (h : Credited seams.config commitment resumed w) :
    Credited seams.config commitment resumed w' := by
  cases hstep with
  | look he =>
    refine h.uncredited rfl (fun e hmem => ?_) rfl
    rw [List.mem_singleton.mp hmem]
    exact he.isUncredited
  | learn => exact ⟨h.delivered, h.counted⟩
  | refresh => exact ⟨h.delivered, h.counted⟩
  | relocated => exact ⟨h.delivered, h.counted⟩
  | pause => exact ⟨h.delivered, h.counted⟩
  | relocate | save | unsaved | issue =>
    exact h.uncredited rfl (by simp [Effect.IsUncredited, Effect.credit?, Effect.delivery?]) rfl
  | fail hended =>
    refine h.uncredited rfl ?_ (by simp [Job.requeue])
    simp only [List.forall_mem_cons, List.not_mem_nil, false_imp_iff, implies_true, and_true]
    exact ⟨⟨rfl, fun _ => rfl⟩, ⟨rfl, fun _ => rfl⟩, uncredited_failure _ _, ⟨rfl, fun _ => rfl⟩⟩
  | @succeed choice fetch fetched commitment' range job hended hverified hjob =>
    obtain ⟨hlength, -⟩ := length_of_verifyFetched hverified
    have hplan : (planRanges commitment.layout seams.config.window)[fetch.range]? = some range := by
      rw [← hb.planned.ranges]
      exact hended.planned
    have hbytes := bytesDone_complete fetched.bytes hb hb' hended hjob
    have hcredits : credits (w.trace ++ [
        .ask (.fetched fetch.range fetch.peer (some (.ok fetched))),
        .writeAt range.offset fetched.bytes true,
        .ask (.record fetch.peer fetched.bytes.length .ok), .save job.resume true,
        .ask (.emit (.rangeCompleted fetch.range fetch.peer job.snapshot))])
          = credits w.trace ++ [(fetch.peer, range.length)] := by
      rw [credits_append, ← hlength]
      rfl
    refine ⟨?_, ?_⟩ <;> rw [hcredits]
    · rw [deliveries_append, h.delivered, List.append_cancel_left_eq]
      simp [deliveries, List.filterMap_cons, Effect.delivery?, hplan]
    · rw [List.map_append, List.sum_append, hbytes, ← h.counted]
      simp only [List.map_cons, List.map_nil, List.sum_cons, List.sum_nil]
      omega

theorem JobSteps.credited (hsteps : JobSteps seams content w w')
    (hb : Books seams.config commitment w.own) (h : Credited seams.config commitment resumed w) :
    Credited seams.config commitment resumed w' := by
  induction hsteps with
  | refl => exact h
  | tail hsteps hstep ih =>
    exact hstep.credited (JobSteps.books hsteps hb) (JobSteps.books (hsteps.tail hstep) hb) ih

/-- The credits are the deliveries, and one more at most: of a range whose checkpoint could not be
saved, which is the last thing that was done. -/
def CreditsAhead (plan : List Range) (log : List (Effect ResourceAsk)) : Prop :=
  ∃ ahead, credits log = deliveries plan log ++ ahead ∧ ahead.length ≤ 1 ∧
    (ahead ≠ [] → ∃ state, log.getLast? = some (.save state false))

theorem creditsAhead_of_eq {plan : List Range} {log : List (Effect ResourceAsk)}
    (h : credits log = deliveries plan log) : CreditsAhead plan log :=
  ⟨[], by rwa [List.append_nil], Nat.zero_le _, fun hne => absurd rfl hne⟩

/-- A job that stops may have credited a range that it could not save and did not report. -/
theorem JobEnds.credited {halt : Halt} (hends : JobEnds seams content w halt w')
    (h : Credited seams.config commitment resumed w) :
    CreditsAhead (planRanges commitment.layout seams.config.window) w'.trace := by
  have huncredited : ∀ {seg : List (Effect ResourceAsk)}, (∀ e ∈ seg, e.IsUncredited) →
      CreditsAhead (planRanges commitment.layout seams.config.window) (w.trace ++ seg) := by
    intro seg hseg
    refine creditsAhead_of_eq ?_
    rw [credits_of_uncredited hseg, deliveries_of_uncredited hseg, h.delivered]
  cases hends with
  | pending | undownloadable => exact creditsAhead_of_eq h.delivered
  | panicked | cancelled | gaveUp | lost | refused | unwritten =>
    exact huncredited (by simp [Effect.IsUncredited, Effect.credit?, Effect.delivery?])
  | @unsaved choice fetch fetched commitment' range e job hended hverified hjob hraises =>
    refine ⟨[(fetch.peer, fetched.bytes.length)], ?_, by simp, fun _ => ⟨job.resume, by simp⟩⟩
    rw [credits_append, deliveries_append, h.delivered]
    simp [credits, deliveries, List.filterMap_cons, Effect.credit?, Effect.delivery?]

end Loop

/-! ## The whole run -/

section Run

variable {seams : ResourceSeams} {target : Target} {sink : Sink} {store : StateStore}
  {commitment : ResourceCommitment}

theorem Effect.IsSetup.isUncredited {e : Effect ResourceAsk} (h : e.IsSetup) : e.IsUncredited := by
  rw [Effect.IsSetup.eq_def] at h
  split at h <;> first | exact ⟨rfl, fun _ => rfl⟩ | exact h.elim

theorem Effect.IsFinish.isUncredited {e : Effect ResourceAsk} (h : e.IsFinish) :
    e.IsUncredited := by
  rw [Effect.IsFinish.eq_def] at h
  split at h <;> first | exact ⟨rfl, fun _ => rfl⟩ | exact h.elim

/-- The loop is entered with nothing credited. -/
theorem credited_loopStart
    (henter : (entering seams target (JobWorld.start seams target sink store)).1 = .ok commitment) :
    Credited seams.config commitment (loopStart seams target sink store).own.bytesDone
      (loopStart seams target sink store) := by
  obtain ⟨seg, hseg, hsetup⟩ := (loopStart_spec henter).2.2.2
  have huncredited : ∀ e ∈ seg, e.IsUncredited := fun e he => (hsetup e he).isUncredited
  refine ⟨?_, ?_⟩ <;> rw [hseg, credits_of_uncredited huncredited]
  · rw [deliveries_of_uncredited huncredited]
    rfl
  · exact Nat.zero_add _

/-- The successes of a run are its completions, with one more at most where a checkpoint could not
be saved, and none more and all its bytes if it succeeds. -/
structure CreditsAddUp (plan : List Range) (resumed : Nat) (run : Except Halt Nat × JobWorld) :
    Prop where
  delivered : CreditsAhead plan run.2.trace
  whole : ∀ n, run.1 = .ok n → credits run.2.trace = deliveries plan run.2.trace ∧
    ((credits run.2.trace).map (·.2)).sum + resumed = n

/-- Whatever the holders and the selector do, the successes that the selector is told of are the
ranges that the owner is told of, in the same order, each with the source and the length of the
range; only where the checkpoint of a range cannot be saved, which ends the download, is the
selector told of that range and the owner not. In a download that succeeds, the bytes of them and
those that were taken over make up the resource. -/
theorem credits_add_up (seams : ResourceSeams) (target : Target) (turns : List Turn) (sink : Sink)
    (store : StateStore) (commitment : ResourceCommitment)
    (henter : (entering seams target (JobWorld.start seams target sink store)).1 = .ok commitment) :
    CreditsAddUp (planRanges commitment.layout seams.config.window)
      (loopStart seams target sink store).own.bytesDone
      (downloadResource seams target turns sink store) := by
  have hbooks := (loopStart_spec henter).1
  refine downloadResource_cases (fun halt w hsetup => ?_)
    (fun commitment' halt w w' _ hsteps hends _ => ?_)
    (fun commitment' w henter' hsteps hall _ => ?_)
  · obtain ⟨seg, hseg, hkind⟩ := hsetup
    have huncredited : ∀ e ∈ seg, e.IsUncredited := fun e he => (hkind e he).isUncredited
    refine ⟨creditsAhead_of_eq ?_, fun n hn => ?_⟩
    · rw [hseg, credits_of_uncredited huncredited, deliveries_of_uncredited huncredited]
      rfl
    · cases hn
  · refine ⟨hends.credited (hsteps.credited hbooks (credited_loopStart henter)), fun n hn => ?_⟩
    cases hn
  · have hcommitment : commitment' = commitment := by
      rw [henter] at henter'
      exact (Except.ok.inj henter').symm
    subst hcommitment
    have hcredited := hsteps.credited hbooks (credited_loopStart henter)
    obtain ⟨seg, hseg, hkind⟩ := finish_appends seams (downloadKey seams target) commitment' w
    have huncredited : ∀ e ∈ seg, e.IsUncredited := fun e he => (hkind e he).isUncredited
    have hsame : credits (finish seams (downloadKey seams target) commitment' w).2.trace
        = credits w.trace := by
      rw [hseg, credits_of_uncredited huncredited]
    have hdelivered : credits (finish seams (downloadKey seams target) commitment' w).2.trace
        = deliveries (planRanges commitment'.layout seams.config.window)
          (finish seams (downloadKey seams target) commitment' w).2.trace := by
      rw [hsame, hseg, deliveries_of_uncredited huncredited]
      exact hcredited.delivered
    refine ⟨creditsAhead_of_eq hdelivered, fun n hn => ⟨hdelivered, ?_⟩⟩
    have hlength : n = commitment'.totalLength := (wp_finish_length _ _).ok hn
    rw [hsame, hcredited.counted, hlength]
    exact (JobSteps.books hsteps hbooks).planned.bytes_of_allDone hall

theorem credits_add_up_small :
    CreditsAddUp (planRanges smallCommitment.layout smallResourceSeams.config.window) 0
        (downloadResource smallResourceSeams smallTarget [.completed 0, .completed 0] emptySink
          emptyStore) ∧
      (credits (downloadResource smallResourceSeams smallTarget [.completed 0, .completed 0]
        emptySink emptyStore).2.trace).map (·.2) = [2, 1] := by
  have henter : (entering smallResourceSeams smallTarget
      (JobWorld.start smallResourceSeams smallTarget emptySink emptyStore)).1
        = .ok smallCommitment := by decide +kernel
  have hresumed : (loopStart smallResourceSeams smallTarget emptySink emptyStore).own.bytesDone
      = 0 := by decide +kernel
  rw [← hresumed]
  exact ⟨credits_add_up smallResourceSeams smallTarget [.completed 0, .completed 0] emptySink
    emptyStore smallCommitment henter, by decide +kernel⟩

end Run

end DigDownload
