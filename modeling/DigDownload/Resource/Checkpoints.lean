import DigDownload.Resource.Scheduling

/-!
# The checkpoints a run saves

A run takes up the checkpoint under its key, makes it the checkpoint of its own commitment,
and saves it whenever a range is done. What holds of the checkpoint it takes up, and is kept
when a range is done, holds of every checkpoint it saves, and so of the one that is stored
under its key when the run ends or is cut short.
-/

namespace DigDownload

open Prog Past Relation

/-! ## Where a commitment comes from -/

/-- The checkpoint that a download takes up. -/
def StateStore.resumed (store : StateStore) (key : String) : DownloadState :=
  (store.checkpoints key).getD (DownloadState.new key)

/-- A commitment is the one of the checkpoint, or one that a holder declared. -/
inductive Origin (seams : ResourceSeams) (content : ContentId) (resume : DownloadState) :
    ResourceCommitment → Prop where
  | restored {commitment : ResourceCommitment} {reserve : Nat → Option String}
      (hlens : resume.chunkLens ≠ [])
      (h : ResourceCommitment.fromFirstFrameBounded resume.totalLength resume.chunkLens resume.root
        resume.inclusionProof seams.config.maxResourceSize reserve = .ok commitment) :
      Origin seams content resume commitment
  | adopted {commitment : ResourceCommitment} {provider : ProviderRecord} {fetched : FetchedRange}
      {reserve : Nat → Option String}
      (h : adoptLayout seams content provider fetched reserve = .ok commitment) :
      Origin seams content resume commitment

section Committing

variable {seams : ResourceSeams} {content : ContentId} {key : String} {target : Target}
  {w : JobWorld}

theorem wp_loadCheckpoint {Q : Unit → JobWorld → Prop} {E : Halt → JobWorld → Prop}
    (hok : Q () { w.note (.load key true) with own := { w.own with resume := w.store.resumed key } })
    (herr : ∀ e, E (.failed e)
      ((w.note (.load key false)).note (.ask (.emit (.failed e.display))))) :
    wp (loadCheckpoint seams key) Q E w := by
  rw [loadCheckpoint, wp_bind, wp_attempt]
  exact wp_storeLoad hok herr

/-- The commitment that is restored is the one of the checkpoint. -/
theorem wp_restoreCommitment (content : ContentId) (w : JobWorld)
    (hfresh : w.own.commitment = none) :
    wp (restoreCommitment seams)
      (fun _ w' => w'.own.resume = w.own.resume ∧ ∀ commitment,
        w'.own.commitment = some commitment → Origin seams content w.own.resume commitment)
      (fun _ _ => False) w := by
  rw [restoreCommitment, wp_bind, wp_getJob]
  dsimp only
  split
  · refine ⟨rfl, fun commitment hc => ?_⟩
    rw [hfresh] at hc
    cases hc
  rename_i hlens
  rw [wp_bind, wp_askJob]
  split
  · rename_i commitment hrestored
    rw [wp_modifyJob]
    refine ⟨rfl, fun commitment' hc => ?_⟩
    cases hc
    exact .restored hlens hrestored
  · rw [wp_modifyJob]
    exact ⟨rfl, fun commitment' hc => by cases hc⟩

theorem wp_openJob (content : ContentId) (hfresh : w.own.commitment = none) :
    wp (openJob seams key)
      (fun _ w' => w'.own.resume = w.store.resumed key ∧ ∀ commitment,
        w'.own.commitment = some commitment → Origin seams content (w.store.resumed key) commitment)
      (fun _ _ => True) w := by
  rw [openJob, wp_bind]
  refine wp_loadCheckpoint ?_ (fun _ => trivial)
  rw [wp_bind]
  refine wp.mono (wp_restoreCommitment content _ hfresh) (fun _ w₁ h₁ => ?_) (fun _ _ h => h.elim)
  rw [claimStaging, wp_bind, wp_read]
  split
  · exact h₁
  · rw [wp_bind, wp_askJob]
    split
    · exact h₁
    · exact trivial

/-- Locating holders changes nothing but which of them are known. -/
theorem wp_discover (w : JobWorld) :
    wp (discover seams content)
      (fun _ w' => w'.own = { w.own with providers := w'.own.providers }) (fun _ _ => True) w := by
  rw [discover]
  split
  · exact trivial
  rw [wp_bind]
  have hlocate : Steps SameOwn (locateAndConfirm seams content) :=
    steps_locateAndConfirm closedUnder_sameOwn (fun _ => trivial) fun _ _ => trivial
  refine (hlocate.wp w).mono (fun providers w₁ hsame => ?_) (fun _ _ _ => trivial)
  rw [wp_bind, wp_modifyJob]
  have hown : w₁.own = w.own := hsame
  split
  · exact trivial
  · exact congrArg (fun own : Job => { own with providers }) hown

theorem wp_probeHolders (req : RangeRequest) (providers : List ProviderRecord) :
    ∀ (reasons : List String) (w : JobWorld),
      wp (probeHolders seams content req providers reasons)
        (fun answer w' => w'.own = w.own ∧ ∀ commitment, answer = .ok commitment →
          ∃ provider fetched reserve,
            adoptLayout seams content provider fetched reserve = .ok commitment)
        (fun _ _ => True) w := by
  induction providers with
  | nil => exact fun reasons w => ⟨rfl, fun commitment h => by cases h⟩
  | cons provider providers ih =>
    intro reasons w
    rw [probeHolders, wp_bind, wp_askJob]
    split
    · exact trivial
    · exact ih _ _
    · rw [wp_bind, wp_askJob]
      split
      · rename_i commitment hadopt
        refine ⟨rfl, fun commitment' h => ?_⟩
        cases h
        exact ⟨provider, _, _, hadopt⟩
      · exact ih _ _

/-- The commitment that a job obtains is in its memory, and comes from the checkpoint or from
a holder. -/
theorem wp_obtainCommitment_origin {resume : DownloadState}
    (h : ∀ commitment, w.own.commitment = some commitment →
      Origin seams content resume commitment) :
    wp (obtainCommitment seams content)
      (fun commitment w' => Origin seams content resume commitment ∧
        w'.own = { w.own with commitment := some commitment })
      (fun _ _ => True) w := by
  rw [obtainCommitment, wp_bind, wp_getJob]
  split
  · rename_i commitment hc
    exact ⟨h commitment hc, by rw [← hc]⟩
  rw [wp_bind, establishCommitment, wp_bind, wp_getJob]
  split
  · exact trivial
  · rw [wp_bind]
    refine (wp_probeHolders _ _ _ w).mono (fun answer w₁ h₁ => ?_) (fun _ _ _ => trivial)
    split
    · rename_i commitment
      obtain ⟨provider, fetched, reserve, hadopt⟩ := h₁.2 commitment rfl
      rw [wp_pure, wp_bind, wp_modifyJob, wp_pure]
      exact ⟨.adopted hadopt, congrArg (fun own : Job =>
        { own with commitment := some commitment }) h₁.1⟩
    · exact trivial

/-- What a job has before it plans: the checkpoint of its key, and a commitment that comes
from it or from a holder. -/
theorem wp_committing (hfresh : w.own.commitment = none) :
    wp (committing seams target)
      (fun commitment w' =>
        Origin seams target.content (w.store.resumed (downloadKey seams target)) commitment ∧
          w'.own.resume = w.store.resumed (downloadKey seams target) ∧
          w'.own.commitment = some commitment)
      (fun _ _ => True) w := by
  rw [committing, wp_bind]
  refine (wp_openJob target.content hfresh).mono (fun _ w₁ h₁ => ?_) (fun _ _ _ => trivial)
  rw [wp_bind]
  refine (wp_discover w₁).mono (fun _ w₂ h₂ => ?_) (fun _ _ _ => trivial)
  have horigin : ∀ commitment, w₂.own.commitment = some commitment →
      Origin seams target.content (w.store.resumed (downloadKey seams target)) commitment := by
    intro commitment hc
    rw [h₂] at hc
    exact h₁.2 commitment hc
  refine (wp_obtainCommitment_origin horigin).mono (fun commitment w₃ h₃ => ?_)
    (fun _ _ _ => trivial)
  exact ⟨h₃.1, by rw [h₃.2, h₂]; exact h₁.1, by rw [h₃.2]⟩

end Committing

/-! ## Before and after reading back -/

/-- What a job does before it reads back what an earlier run completed. -/
def beforeReadBack (seams : ResourceSeams) (target : Target) : JobM ResourceCommitment := do
  let commitment ← committing seams target
  discardBytesStagedForAnotherPlan seams (downloadKey seams target) commitment
  persistCommitment seams commitment
  modifyJob (·.planned seams.config commitment)
  pure commitment

/-- Reading back what an earlier run completed, once there is a plan. -/
def readBack (seams : ResourceSeams) (commitment : ResourceCommitment) : JobM Unit := do
  let job ← getJob
  rehydrateResumedRanges seams commitment job.doneRanges
  let job ← getJob
  emit (.planned job.ranges.length commitment.totalLength)

theorem entering_eq_readBack (seams : ResourceSeams) (target : Target) :
    entering seams target = (do
      let commitment ← beforeReadBack seams target
      readBack seams commitment
      pure commitment) := by
  simp only [entering_eq, beforeReadBack, readBack, planDownload, LawfulMonad.bind_assoc,
    pure_bind]

namespace DownloadState

/-- A checkpoint made that of a commitment. -/
def carried (resume : DownloadState) (commitment : ResourceCommitment) : DownloadState :=
  { resume.kept commitment.layout.chunkLens with
    totalLength := commitment.totalLength
    chunkLens := commitment.layout.chunkLens
    root := commitment.root
    inclusionProof := commitment.inclusionProof }

end DownloadState

/-! ## What is saved -/

/-- A checkpoint that is saved meets `P`, given what the run has done before. -/
def SavesOnly (P : List (Effect ResourceAsk) → DownloadState → Prop)
    (before : List (Effect ResourceAsk)) : Effect ResourceAsk → Prop
  | .save state true => P before state
  | _ => True

/-- What a run establishes of the checkpoint it takes up and keeps when a range is done. -/
structure SaveInvariant (seams : ResourceSeams) (content : ContentId) (resume : DownloadState)
    (P : List (Effect ResourceAsk) → DownloadState → Prop) : Prop where
  later : ∀ {before : List (Effect ResourceAsk)} {state : DownloadState}
    (more : List (Effect ResourceAsk)), P before state → P (before ++ more) state
  erase : ∀ {before : List (Effect ResourceAsk)} {state : DownloadState} (i : Nat),
    P before state → P before { state with doneRanges := state.doneRanges.erase i }
  start : ∀ {commitment : ResourceCommitment}, Origin seams content resume commitment →
    P [] (resume.carried commitment)
  done : ∀ {commitment : ResourceCommitment} {w : JobWorld} {choice : Nat} {fetch : Fetch}
    {fetched : FetchedRange} {range : Range} {before : List (Effect ResourceAsk)},
    Books seams.config commitment w.own →
    Ended seams content w choice fetch (.ok fetched) commitment range →
    verifyFetched seams commitment range fetched = .ok → P before w.own.resume →
    P (before ++ [.writeAt range.offset fetched.bytes true]) (w.own.resume.markDone fetch.range)

section Saves

variable {seams : ResourceSeams} {content : ContentId} {key : String} {target : Target}
  {commitment : ResourceCommitment} {resume : DownloadState} {w w' : JobWorld}
  {P : List (Effect ResourceAsk) → DownloadState → Prop}

/-- Effects that save nothing. -/
theorem SavesOnly.of_kind {K : Effect ResourceAsk → Prop} (hK : ∀ state, ¬ K (.save state true))
    (e : Effect ResourceAsk) (he : K e) (before : List (Effect ResourceAsk)) :
    SavesOnly P before e := by
  unfold SavesOnly
  split
  · exact absurd he (hK _)
  · trivial

/-- What was saved so far meets `P`, and what is in memory does too. -/
structure Saving (P : List (Effect ResourceAsk) → DownloadState → Prop) (w : JobWorld) : Prop where
  saved : AtEach (SavesOnly P) w.trace
  resume : P w.trace w.own.resume

theorem Saving.appends (h : Saving P w) (hP : SaveInvariant seams content resume P)
    {K : Effect ResourceAsk → Prop} (hK : ∀ state, ¬ K (.save state true)) (happ : Appends K w w')
    (hown : w'.own.resume = w.own.resume) : Saving P w' := by
  refine ⟨(AppendsEach.of_appends happ (SavesOnly.of_kind hK)).atEach h.saved, ?_⟩
  obtain ⟨seg, hseg, -⟩ := happ
  rw [hown, hseg]
  exact hP.later seg h.resume

/-- One step saves only what meets `P`. -/
theorem JobStep.saving (hP : SaveInvariant seams content resume P)
    (hstep : JobStep seams content w w') (hb : Books seams.config commitment w.own)
    (h : Saving P w) : Saving P w' := by
  have hlook : ∀ {w' : JobWorld} {e : Effect ResourceAsk}, (∀ state, e ≠ .save state true) →
      w'.trace = w.trace ++ [e] → w'.own.resume = w.own.resume → Saving P w' := by
    intro w' e he htrace hown
    refine h.appends hP (K := fun e => ∀ state, e ≠ .save state true) (fun state hs => hs state rfl)
      ⟨[e], htrace, by simpa using he⟩ hown
  cases hstep with
  | look he =>
    refine hlook (fun state heq => ?_) rfl rfl
    rw [heq] at he
    exact he
  | learn => exact ⟨h.saved, h.resume⟩
  | refresh => exact ⟨h.saved, h.resume⟩
  | relocate => exact hlook (by simp) rfl rfl
  | relocated => exact ⟨h.saved, h.resume⟩
  | pause => exact ⟨h.saved, h.resume⟩
  | save => exact ⟨atEach_concat.mpr ⟨h.saved, h.resume⟩, hP.later _ h.resume⟩
  | unsaved => exact hlook (by simp) rfl rfl
  | issue => exact hlook (by simp) rfl rfl
  | @succeed choice fetch fetched commitment' range job hended hverified hjob =>
    have hcommitted : commitment' = commitment := by
      have := hended.committed.symm.trans hb.planned.committed
      exact Option.some.inj this
    subst hcommitted
    have hresume : job.resume = w.own.resume.markDone fetch.range := by
      rw [hjob]
      simp [Job.complete, Job.feed]
    -- the write comes after the answer, and the save after what is recorded of it
    have hdone : P (w.trace ++ [.ask (.fetched fetch.range fetch.peer (some (.ok fetched)))] ++
        [.writeAt range.offset fetched.bytes true]) job.resume := by
      rw [hresume]
      exact hP.done hb hended hverified (hP.later _ h.resume)
    have hrecorded := hP.later [.ask (.record fetch.peer fetched.bytes.length .ok)] hdone
    simp only [List.append_assoc, List.singleton_append] at hrecorded
    have hquiet : AtEach (SavesOnly P) (w.trace ++ [
        .ask (.fetched fetch.range fetch.peer (some (.ok fetched))),
        .writeAt range.offset fetched.bytes true,
        .ask (.record fetch.peer fetched.bytes.length .ok)]) := by
      refine atEach_append.mpr ⟨h.saved, atEach_of_forall fun e he before => ?_⟩
      refine SavesOnly.of_kind (K := fun e => ∀ state, e ≠ .save state true)
        (fun state hs => hs state rfl) e (fun state heq => ?_) _
      simp [heq] at he
    refine ⟨?_, ?_⟩
    · show AtEach (SavesOnly P) (w.trace ++ _)
      rw [show ∀ a b c d e : Effect ResourceAsk,
        w.trace ++ [a, b, c, d, e] = ((w.trace ++ [a, b, c]) ++ [d]) ++ [e] by simp]
      exact atEach_concat.mpr ⟨atEach_concat.mpr ⟨hquiet, hrecorded⟩, trivial⟩
    · have hlater := hP.later [.save job.resume true,
        .ask (.emit (.rangeCompleted fetch.range fetch.peer job.snapshot))] hrecorded
      simpa using hlater
  | @fail choice fetch answer commitment' range e hended hfails hrecoverable =>
    refine h.appends hP (K := fun e => ∀ state, e ≠ .save state true) (fun state hs => hs state rfl)
      ⟨_, rfl, by simp⟩ ?_
    simp [Job.requeue]

theorem JobSteps.saving (hP : SaveInvariant seams content resume P)
    (hsteps : JobSteps seams content w w') (hb : Books seams.config commitment w.own)
    (h : Saving P w) : Saving P w' := by
  induction hsteps with
  | refl => exact h
  | tail hsteps hstep ih => exact hstep.saving hP (JobSteps.books hsteps hb) ih

/-- A job that stops saves nothing more. -/
theorem JobEnds.saved {halt : Halt} (hends : JobEnds seams content w halt w')
    (h : AtEach (SavesOnly P) w.trace) : AtEach (SavesOnly P) w'.trace := by
  have hquiet : ∀ seg : List (Effect ResourceAsk), (∀ e ∈ seg, ∀ state, e ≠ .save state true) →
      AtEach (SavesOnly P) (w.trace ++ seg) := by
    intro seg hseg
    refine atEach_append.mpr ⟨h, atEach_of_forall fun e he before => ?_⟩
    exact SavesOnly.of_kind (K := fun e => ∀ state, e ≠ .save state true)
      (fun state hs => hs state rfl) e (hseg e he) _
  cases hends with
  | pending => exact h
  | panicked => exact hquiet _ (by simp)
  | cancelled => exact hquiet _ (by simp)
  | gaveUp => exact hquiet _ (by simp)
  | lost => exact hquiet _ (by simp)
  | undownloadable => exact h
  | refused => exact hquiet _ (by simp)
  | unwritten => exact hquiet _ (by simp)
  | unsaved => exact hquiet _ (by simp)

/-- Planning makes the checkpoint that was taken up that of the commitment, and saves it. -/
theorem wp_beforeReadBack_saving
    (hP : SaveInvariant seams target.content (w.store.resumed (downloadKey seams target)) P)
    (htrace : w.trace = []) (hfresh : w.own.commitment = none) :
    wp (beforeReadBack seams target)
      (fun commitment w' => Saving P w' ∧
        w'.own.resume = (w.store.resumed (downloadKey seams target)).carried commitment ∧
        w'.own.rangeState = (planRanges commitment.layout seams.config.window).map (fun r =>
          if w'.own.resume.isDone r.index then .done else .pending) ∧
        w'.own.ranges = planRanges commitment.layout seams.config.window)
      (fun _ w' => AtEach (SavesOnly P) w'.trace) w := by
  have hkind : ∀ {K : Effect ResourceAsk → Prop} {w₁ w₂ : JobWorld}, Appends K w₁ w₂ →
      (∀ state, ¬ K (.save state true)) → AtEach (SavesOnly P) w₁.trace →
      AtEach (SavesOnly P) w₂.trace := fun happ hK h =>
    (AppendsEach.of_appends happ (SavesOnly.of_kind hK)).atEach h
  have hstart : AtEach (SavesOnly P) w.trace := by
    rw [htrace]
    exact atEach_nil
  have hcommitting : Steps (Appends Effect.IsCommitting) (committing seams target) :=
    steps_committing closedUnderSetup_appends
  rw [beforeReadBack, wp_bind]
  refine ((hcommitting.wp w).and (wp_committing hfresh)).mono (fun commitment w₁ h₁ => ?_)
    (fun _ w₁ h₁ => hkind h₁.1 (fun _ h => h) hstart)
  obtain ⟨happ₁, horigin, hresume₁, -⟩ := h₁
  have hsaved₁ := hkind happ₁ (fun _ h => h) hstart
  rw [wp_bind]
  refine (wp_discardBytes w₁).mono (fun _ w₂ h₂ => ?_) (fun _ _ h₂ => h₂.elim)
  obtain ⟨happ₂, hown₂⟩ := h₂
  have hsaved₂ := hkind happ₂ (fun _ h => h) hsaved₁
  have hcarried : ({ w₂.own.resume with
      totalLength := commitment.totalLength
      chunkLens := commitment.layout.chunkLens
      root := commitment.root
      inclusionProof := commitment.inclusionProof } : DownloadState)
        = (w.store.resumed (downloadKey seams target)).carried commitment := by
    rw [hown₂, hresume₁]
    rfl
  have hmeets : P w₂.trace ((w.store.resumed (downloadKey seams target)).carried commitment) := by
    have h := hP.later w₂.trace (hP.start horigin)
    rwa [List.nil_append] at h
  rw [wp_bind, persistCommitment, wp_bind, wp_modifyJob, wp_checkpoint]
  refine wp_storeSave ?_ (fun e => ?_)
  · rw [wp_bind, wp_modifyJob, wp_pure]
    refine ⟨⟨?_, ?_⟩, hcarried, rfl, rfl⟩
    · refine atEach_concat.mpr ⟨hsaved₂, ?_⟩
      show P w₂.trace _
      rw [hcarried]
      exact hmeets
    · refine hP.later _ ?_
      show P w₂.trace _
      rw [hcarried]
      exact hmeets
  · exact atEach_concat.mpr ⟨hsaved₂, trivial⟩

theorem Saving.readAt (h : Saving P w) (hP : SaveInvariant seams content resume P)
    (offset len : Nat) (answer : Option Bytes) : Saving P (w.note (.readAt offset len answer)) :=
  h.appends hP (K := Effect.IsReadBack) (fun _ h => h)
    ⟨[.readAt offset len answer], rfl, by simp [Effect.IsReadBack]⟩ rfl

/-- Reading back saves nothing, and takes ranges out of the done set only. -/
theorem wp_rehydrate_saving (hP : SaveInvariant seams content resume P) (resumed : List Range) :
    ∀ w : JobWorld, Saving P w →
      wp (rehydrateResumedRanges seams commitment resumed) (fun _ w' => Saving P w')
        (fun _ w' => AtEach (SavesOnly P) w'.trace) w := by
  induction resumed with
  | nil => exact fun w h => h
  | cons range resumed ih =>
    intro w h
    have hback : ∀ w₁ : JobWorld, Saving P w₁ →
        wp (modifyJob (·.unresume range) >>= fun _ =>
            rehydrateResumedRanges seams commitment resumed) (fun _ w' => Saving P w')
          (fun _ w' => AtEach (SavesOnly P) w'.trace) w₁ := by
      intro w₁ h₁
      rw [wp_bind, wp_modifyJob]
      exact ih _ ⟨h₁.saved, hP.erase _ h₁.resume⟩
    rw [rehydrateResumedRanges, wp_bind, wp_getJob, wp_bind, wp_attempt, stagedRange]
    split
    · refine wp_sinkReadAt (fun bytes _ => ?_) (fun e => hback _ (h.readAt hP _ _ _))
      dsimp only
      split
      · exact (h.readAt hP _ _ _).saved
      · exact hback _ (h.readAt hP _ _ _)
      · rw [wp_bind, wp_modifyJob]
        have hread := h.readAt hP range.offset range.length (some bytes)
        exact ih _ ⟨hread.saved, hread.resume⟩
    · exact hback w h

theorem wp_entering_saving
    (hP : SaveInvariant seams target.content (w.store.resumed (downloadKey seams target)) P)
    (htrace : w.trace = []) (hfresh : w.own.commitment = none) :
    wp (entering seams target) (fun _ w' => Saving P w')
      (fun _ w' => AtEach (SavesOnly P) w'.trace) w := by
  rw [entering_eq_readBack, wp_bind]
  refine (wp_beforeReadBack_saving hP htrace hfresh).mono (fun commitment w₁ h₁ => ?_)
    (fun _ _ h => h)
  rw [wp_bind, readBack, wp_bind, wp_getJob, wp_bind]
  refine (wp_rehydrate_saving hP _ w₁ h₁.1).mono (fun _ w₂ h₂ => ?_) (fun _ _ h => h)
  rw [wp_bind, wp_getJob, wp_emit, wp_pure]
  exact h₂.appends hP (K := fun e => ∀ state, e ≠ .save state true) (fun state hs => hs state rfl)
    ⟨[.ask (.emit (.planned w₂.own.ranges.length commitment.totalLength))], rfl, by simp⟩ rfl

end Saves

section Run

variable {seams : ResourceSeams} {target : Target} {sink : Sink} {store : StateStore}
  {P : List (Effect ResourceAsk) → DownloadState → Prop}

/-- Every checkpoint that a run saves meets the invariant. -/
theorem saves_of_run
    (hP : SaveInvariant seams target.content (store.resumed (downloadKey seams target)) P)
    (turns : List Turn) :
    AtEach (SavesOnly P) (downloadResource seams target turns sink store).2.trace := by
  have hentering := wp_entering_saving (w := JobWorld.start seams target sink store) hP rfl rfl
  rw [downloadResource, runJob_eq]
  refine (wp_same (P := fun w' : JobWorld => AtEach (SavesOnly P) w'.trace)).mp ?_
  rw [wp_bind]
  refine wp_iff.mpr ⟨fun commitment henter => ?_, fun halt henter => hentering.error henter⟩
  have hsaving := hentering.ok henter
  have hbooks := (loopStart_spec henter).1
  have hquiet : ∀ {K : Effect ResourceAsk → Prop} {w₁ w₂ : JobWorld}, Appends K w₁ w₂ →
      (∀ state, ¬ K (.save state true)) → AtEach (SavesOnly P) w₁.trace →
      AtEach (SavesOnly P) w₂.trace := fun happ hK h =>
    (AppendsEach.of_appends happ (SavesOnly.of_kind hK)).atEach h
  rw [entered, wp_bind]
  refine (wp_scheduleLoop turns).mono (fun _ w₁ hvisits => ?_) (fun halt w₁ hstops => ?_)
  · have hloop := (LoopSteps.steps hvisits).saving hP hbooks hsaving
    have hfinish : Steps (Appends Effect.IsFinish)
        (finish seams (downloadKey seams target) commitment) :=
      steps_finish commitment (closedUnderKeeping_appends.mono fun _ he => he.1)
    exact (hfinish.wp w₁).mono (fun _ w₂ h₂ => hquiet h₂ (fun _ h => h) hloop.saved)
      (fun _ w₂ h₂ => hquiet h₂ (fun _ h => h) hloop.saved)
  · obtain ⟨w₂, hsteps, hends⟩ := hstops.ends
    exact hends.saved (hsteps.saving hP hbooks hsaving).saved

end Run

/-! ## Sessions -/

/-- A download in a process that ends after so many of its effects. -/
structure Session where
  seams : ResourceSeams
  target : Target
  turns : List Turn
  sink : Sink
  lasts : Nat

namespace Session

variable {s : Session} {store : StateStore}

/-- The key it resumes under. -/
def key (s : Session) : String := downloadKey s.seams s.target

def run (s : Session) (store : StateStore) : Except Halt Nat × JobWorld :=
  downloadResource s.seams s.target s.turns s.sink store

/-- What it has done when the process ends. -/
def trace (s : Session) (store : StateStore) : List (Effect ResourceAsk) :=
  (s.run store).2.trace.take s.lasts

/-- The store that it leaves. -/
def leaves (s : Session) (store : StateStore) : StateStore :=
  { store with checkpoints := replayCheckpoints store.checkpoints (s.trace store) }

/-- A process that outlives the download leaves the store that the download leaves. -/
theorem leaves_of_le (h : (s.run store).2.trace.length ≤ s.lasts) :
    (s.leaves store).checkpoints = (s.run store).2.store.checkpoints := by
  have hreplays : Steps Replays (runJob s.seams s.target s.turns) :=
    steps_runJob ⟨closedUnder_replays, fun _ _ => ⟨[], by simp⟩⟩ _ _
  obtain ⟨seg, htrace, -, hstore⟩ := hreplays (JobWorld.start s.seams s.target s.sink store)
  have hseg : (s.run store).2.trace = seg := htrace
  show replayCheckpoints store.checkpoints ((s.run store).2.trace.take s.lasts) = _
  rw [List.take_of_length_le h, hseg]
  exact hstore.symm

end Session

namespace Effect

def isSave : Effect ResourceAsk → Bool
  | .save _ true => true
  | _ => false

end Effect

/-- Where the checkpoint that a list of effects leaves under a key comes from: it was there
before and no checkpoint was saved under the key, or it was saved. -/
theorem replayCheckpoints_eq_some {checkpoints : String → Option DownloadState} {key : String}
    {state : DownloadState} (log : List (Effect ResourceAsk))
    (h : replayCheckpoints checkpoints log key = some state) :
    (checkpoints key = some state ∧ ∀ saved, .save saved true ∈ log → saved.key ≠ key) ∨
      state.key = key ∧ ∃ before after, log = before ++ .save state true :: after := by
  induction log using List.reverseRecOn with
  | nil => exact Or.inl ⟨h, by simp⟩
  | append_singleton log e ih =>
    rw [replayCheckpoints_append, replayCheckpoints_singleton] at h
    -- an effect that leaves the key alone
    have hkeep : replayCheckpoints checkpoints log key = some state →
        (∀ saved, e = .save saved true → saved.key ≠ key) →
        (checkpoints key = some state ∧ ∀ saved, .save saved true ∈ log ++ [e] → saved.key ≠ key) ∨
          state.key = key ∧ ∃ before after, log ++ [e] = before ++ .save state true :: after := by
      intro hlog he
      cases ih hlog with
      | inl hold =>
        refine Or.inl ⟨hold.1, fun saved hmem => ?_⟩
        cases List.mem_append.mp hmem with
        | inl hmem => exact hold.2 saved hmem
        | inr hmem => exact he saved (List.mem_singleton.mp hmem).symm
      | inr hnew =>
        obtain ⟨hkey, before, after, rfl⟩ := hnew
        exact Or.inr ⟨hkey, before, after ++ [e], by simp⟩
    cases e with
    | save saved ok =>
      cases ok with
      | false => exact hkeep h (by simp)
      | true =>
        rw [Effect.onCheckpoints] at h
        by_cases hkey : key = saved.key
        · subst hkey
          rw [Function.update_self, Option.some.injEq] at h
          subst h
          exact Or.inr ⟨rfl, log, [], rfl⟩
        · rw [Function.update_of_ne hkey] at h
          refine hkeep h fun saved' heq => ?_
          cases heq
          exact fun h => hkey h.symm
    | clear cleared ok =>
      cases ok with
      | false => exact hkeep h (by simp)
      | true =>
        rw [Effect.onCheckpoints] at h
        by_cases hkey : key = cleared
        · subst hkey
          rw [Function.update_self] at h
          cases h
        · rw [Function.update_of_ne hkey] at h
          exact hkeep h (by simp)
    | _ => exact hkeep h (by simp)

namespace Session

variable {s : Session} {store : StateStore} {P : List (Effect ResourceAsk) → DownloadState → Prop}

/-- Whether it saved a checkpoint. -/
def saved (s : Session) (store : StateStore) : Bool := (s.trace store).any Effect.isSave

/-- Where a checkpoint that a session leaves comes from: it was there before, and the session
saved none under its key, or the session saved it under its own key. -/
theorem checkpoint_of_leaves (hP : SaveInvariant s.seams s.target.content (store.resumed s.key) P)
    (hkeyed : ∀ {before state}, P before state → state.key = s.key) {key : String}
    {state : DownloadState} (h : (s.leaves store).checkpoints key = some state) :
    (store.checkpoints key = some state ∧ (key = s.key → s.saved store = false)) ∨
      key = s.key ∧ s.saved store = true ∧
        ∃ before, before <+: s.trace store ∧ P before state := by
  have hsaves : AtEach (SavesOnly P) (s.trace store) := (saves_of_run hP s.turns).take s.lasts
  cases replayCheckpoints_eq_some _ h with
  | inl hold =>
    refine Or.inl ⟨hold.1, fun hkey => ?_⟩
    rw [saved, List.any_eq_false]
    intro e he hsave
    unfold Effect.isSave at hsave
    split at hsave
    · rename_i state'
      obtain ⟨before, after, hsplit⟩ := List.mem_iff_append.mp he
      have hmeets : P before state' := hsaves before _ after hsplit
      exact hold.2 state' he ((hkeyed hmeets).trans hkey.symm)
    · cases hsave
  | inr hnew =>
    obtain ⟨hkey, before, after, hsplit⟩ := hnew
    have hmeets : P before state := hsaves before _ after hsplit
    refine Or.inr ⟨hkey.symm.trans (hkeyed hmeets), ?_, before, ⟨_, hsplit.symm⟩, hmeets⟩
    rw [saved, hsplit]
    simp [Effect.isSave]

end Session

/-! ## Histories -/

/-- The sessions on one store, one after the other, from the empty one: the store they leave,
and for each key which session saved a checkpoint last. A session that finds a checkpoint
fits the one that saved it. -/
inductive History (fits : Session → DownloadState → Session → Prop) :
    StateStore → (String → Option Session) → List (Session × StateStore) → Prop
  | start {store : StateStore} (hempty : ∀ key, store.checkpoints key = none) :
      History fits store (fun _ => none) []
  | later {store : StateStore} {saver : String → Option Session}
      {past : List (Session × StateStore)} (h : History fits store saver past) (s : Session)
      (hfits : ∀ state last, store.checkpoints s.key = some state → saver s.key = some last →
        fits last state s) :
      History fits (s.leaves store)
        (if s.saved store then Function.update saver s.key (some s) else saver)
        (past ++ [(s, store)])

end DigDownload
