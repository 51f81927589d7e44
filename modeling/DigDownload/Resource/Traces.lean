import DigDownload.Resource.Visits

/-!
# What a job does to the outside

The kinds of effects that the parts of a run have: before the loop, at the head of an
iteration and in a turn. A relation that holds around every effect of a kind holds around
the programs of that kind.
-/

namespace DigDownload

open Prog

/-- What a job does before it schedules, up to the commitment it downloads under. -/
def entering (seams : ResourceSeams) (target : Target) : JobM ResourceCommitment := do
  openJob seams (downloadKey seams target)
  planInner seams target.content (downloadKey seams target)

/-- The part of a run that schedules and promotes. -/
def entered (seams : ResourceSeams) (target : Target) (turns : List Turn)
    (commitment : ResourceCommitment) : JobM Nat := do
  scheduleLoop seams target.content (downloadKey seams target) turns
  finish seams (downloadKey seams target) commitment

/-- What a job does before it plans: the commitment it downloads under. -/
def committing (seams : ResourceSeams) (target : Target) : JobM ResourceCommitment := do
  openJob seams (downloadKey seams target)
  discover seams target.content
  obtainCommitment seams target.content

theorem entering_eq (seams : ResourceSeams) (target : Target) :
    entering seams target = (do
      let commitment ← committing seams target
      planDownload seams (downloadKey seams target) commitment
      pure commitment) := by
  simp only [entering, committing, planInner, LawfulMonad.bind_assoc]

/-- A run is what sets it up, and then what schedules and promotes. -/
theorem runJob_eq (seams : ResourceSeams) (target : Target) (turns : List Turn) :
    runJob seams target turns = entering seams target >>= entered seams target turns := by
  simp only [runJob, runInner, entering, LawfulMonad.bind_assoc]
  rfl

/-! ## What happens before the loop -/

namespace Effect

/-- What a job does to the outside before it schedules. -/
def IsSetup : Effect ResourceAsk → Prop
  | .load _ _ | .save _ _ | .clear _ _ | .truncate _ _ | .readAt _ _ _ => True
  | .ask (.claim _ _) | .ask (.findProviders _) | .ask (.queryAvailability _ _) => True
  | .ask (.reserve _ _) | .ask (.probe _ _) => True
  | .ask (.emit (.planned _ _)) | .ask (.emit (.failed _)) => True
  | _ => False

/-- What a job does to the outside before it looks for holders. -/
def IsOpening : Effect ResourceAsk → Prop
  | .load _ _ => True
  | .ask (.claim _ _) | .ask (.reserve _ _) | .ask (.emit (.failed _)) => True
  | _ => False

/-- What a job does to the outside before it plans. -/
def IsCommitting : Effect ResourceAsk → Prop
  | .load _ _ => True
  | .ask (.claim _ _) | .ask (.findProviders _) | .ask (.queryAvailability _ _) => True
  | .ask (.reserve _ _) | .ask (.probe _ _) | .ask (.emit (.failed _)) => True
  | _ => False

/-- The kinds are nested: what opens a job also belongs to what commits it. -/
theorem IsOpening.isCommitting {e : Effect ResourceAsk} (h : e.IsOpening) : e.IsCommitting := by
  unfold IsOpening at h
  split at h <;> trivial

theorem IsCommitting.isSetup {e : Effect ResourceAsk} (h : e.IsCommitting) : e.IsSetup := by
  unfold IsCommitting at h
  split at h <;> trivial

/-- What reading back does to the outside. -/
def IsReadBack : Effect ResourceAsk → Prop
  | .readAt _ _ _ => True
  | _ => False

theorem IsReadBack.isSetup {e : Effect ResourceAsk} (h : e.IsReadBack) : e.IsSetup := by
  unfold IsReadBack at h
  split at h <;> trivial

/-- The locator is asked. -/
def isLocate : Effect ResourceAsk → Bool
  | .ask (.findProviders _) => true
  | _ => false

/-- What dropping the bytes and the checkpoint of another plan does to the outside. -/
def IsDiscard : Effect ResourceAsk → Prop
  | .clear _ _ | .truncate _ _ => True
  | _ => False

theorem IsDiscard.isSetup {e : Effect ResourceAsk} (h : e.IsDiscard) : e.IsSetup := by
  unfold IsDiscard at h
  split at h <;> trivial

end Effect

/-- The parts of the memory that only scheduling changes are the same. -/
structure SameIdle (job job' : Job) : Prop where
  tracker : job'.tracker = job.tracker
  inflightPerSource : job'.inflightPerSource = job.inflightPerSource
  inflight : job'.inflight = job.inflight
  paused : job'.paused = job.paused
  relocateAttempts : job'.relocateAttempts = job.relocateAttempts
  relocatedSinceProgress : job'.relocatedSinceProgress = job.relocatedSinceProgress
  totalFailures : job'.totalFailures = job.totalFailures
  lastRefresh : job'.lastRefresh = job.lastRefresh

theorem SameIdle.refl (job : Job) : SameIdle job job := ⟨rfl, rfl, rfl, rfl, rfl, rfl, rfl, rfl⟩

/-- What only scheduling changes stays the same along a stretch that does not schedule. -/
theorem SameIdle.trans {a b c : Job} (h : SameIdle a b) (h' : SameIdle b c) : SameIdle a c :=
  ⟨h'.tracker.trans h.tracker, h'.inflightPerSource.trans h.inflightPerSource,
    h'.inflight.trans h.inflight, h'.paused.trans h.paused,
    h'.relocateAttempts.trans h.relocateAttempts,
    h'.relocatedSinceProgress.trans h.relocatedSinceProgress,
    h'.totalFailures.trans h.totalFailures, h'.lastRefresh.trans h.lastRefresh⟩

instance : Std.Refl fun w w' : JobWorld => SameIdle w.own w'.own := ⟨fun w => .refl w.own⟩

instance : IsTrans JobWorld fun w w' => SameIdle w.own w'.own := ⟨fun _ _ _ => .trans⟩

/-- `R` relates the states around every call of kind `K` and every change of memory that a
job makes before it schedules. -/
structure ClosedUnderSetup (K : Effect ResourceAsk → Prop) (R : JobWorld → JobWorld → Prop) :
    Prop where
  calls : ClosedUnder K R
  own : ∀ w own, SameIdle w.own own → R w { w with own }

/-- As `ClosedUnderSetup`, but for the calls and the changes of memory by which no holders come to
be known. -/
structure ClosedUnderPlanning (K : Effect ResourceAsk → Prop) (R : JobWorld → JobWorld → Prop) :
    Prop where
  calls : ClosedUnder (fun e => K e ∧ e.isLocate = false) R
  own : ∀ w own, SameIdle w.own own → own.providers = w.own.providers → R w { w with own }

section Closed

variable {K K' : Effect ResourceAsk → Prop} {R : JobWorld → JobWorld → Prop}

theorem ClosedUnderSetup.planning (h : ClosedUnderSetup K R) : ClosedUnderPlanning K R :=
  ⟨h.calls.mono fun _ he => he.1, fun w own hidle _ => h.own w own hidle⟩

/-- A relation that holds around more effects holds around fewer. -/
theorem ClosedUnderPlanning.mono (h : ClosedUnderPlanning K' R) (hK : ∀ e, K e → K' e) :
    ClosedUnderPlanning K R :=
  ⟨h.calls.mono fun e he => ⟨hK e he.1, he.2⟩, h.own⟩

theorem ClosedUnderSetup.mono (h : ClosedUnderSetup K' R) (hK : ∀ e, K e → K' e) :
    ClosedUnderSetup K R :=
  ⟨h.calls.mono hK, h.own⟩

theorem closedUnderSetup_appends : ClosedUnderSetup K (Appends K) :=
  ⟨closedUnder_appends, fun w _ _ => ⟨[], by simp, by simp⟩⟩

theorem closedUnderPlanning_appends : ClosedUnderPlanning K (Appends K) :=
  closedUnderSetup_appends.planning

/-- Nothing that sets a job up touches what only the loop keeps. -/
theorem closedUnderSetup_idle :
    ClosedUnderSetup K fun w w' : JobWorld => SameIdle w.own w'.own :=
  ⟨fun w _ _ _ _ => .refl w.own, fun _ _ h => h⟩

end Closed

/-- The same memory. -/
def SameOwn (w w' : JobWorld) : Prop := w'.own = w.own

instance : Std.Refl SameOwn := ⟨fun _ => rfl⟩

instance : IsTrans JobWorld SameOwn := ⟨fun _ _ _ h h' => Eq.trans h' h⟩

theorem closedUnder_sameOwn : ClosedUnder (fun _ => True) SameOwn := fun _ _ _ _ _ => rfl

section Setup

variable {seams : ResourceSeams} {content : ContentId} {key : String} {target : Target}
  {R : JobWorld → JobWorld → Prop} {α : Type}

theorem steps_askJob (hR : ClosedUnder K R) {seam : Nat → α} {asked : α → ResourceAsk}
    (hk : ∀ a, K (.ask (asked a))) : Steps R (askJob seam asked) := fun w =>
  hR.note w (hk _) trivial

theorem steps_emit (hR : ClosedUnder K R) {event : DownloadEvent} (hk : K (.ask (.emit event))) :
    Steps R (emit event) := fun w => hR.note w hk trivial

/-- A change of the memory that leaves what only scheduling changes, and the holders. -/
theorem steps_modifyJob (hR : ClosedUnderPlanning K R) {f : Job → Job}
    (h : ∀ job, SameIdle job (f job)) (hknown : ∀ job, (f job).providers = job.providers) :
    Steps R (modifyJob f) := fun w => hR.own w (f w.own) (h w.own) (hknown w.own)

theorem steps_getJob [Std.Refl R] : Steps R getJob := fun w => Std.Refl.refl w

variable [Std.Refl R] [IsTrans JobWorld R]

/-- An error is told to the owner before it ends the job. -/
theorem steps_orFail {m : RunM ResourceAsk Job α} (hm : Steps R m) : Steps R (orFail m) :=
  Steps.handle hm fun r => by
    cases r with
    | ok a => exact Steps.pure a
    | error e => exact Steps.fail _

theorem steps_failWith (hR : ClosedUnder K R) {reason : String} {e : DownloadError}
    (hk : K (.ask (.emit (.failed reason)))) : Steps R (failWith reason e : JobM α) :=
  Steps.bind (steps_emit hR hk) fun _ => Steps.fail _

theorem steps_checkpoint (hR : ClosedUnder K R) (hk : ∀ state ok, K (.save state ok)) :
    Steps R (checkpoint seams) :=
  Steps.bind steps_getJob fun job => steps_orFail (steps_storeSave hR (hk job.resume))

/-- Holder after holder, by induction on the list. -/
theorem steps_confirmHolders (hR : ClosedUnder K R)
    (hk : ∀ peer answer, K (.ask (.queryAvailability peer answer))) (item : AvailabilityItem) :
    ∀ found, Steps R (confirmHolders seams item found)
  | [] => Steps.pure _
  | p :: found => by
      refine Steps.bind (steps_askJob hR (hk _)) fun answer => ?_
      split
      · exact Steps.bind (steps_confirmHolders hR hk item found) fun _ => Steps.pure _
      · exact steps_confirmHolders hR hk item found

/-- The locator, and then the holders that it names. -/
theorem steps_locateAndConfirm (hR : ClosedUnder K R)
    (hf : ∀ answer, K (.ask (.findProviders answer)))
    (hk : ∀ peer answer, K (.ask (.queryAvailability peer answer))) :
    Steps R (locateAndConfirm seams content) := by
  refine Steps.bind (steps_askJob hR hf) fun answer => ?_
  split
  · exact Steps.fail _
  split
  · exact Steps.fail _
  · exact steps_confirmHolders hR hk _ _

theorem steps_discardUnverifiableAssembly (hR : ClosedUnder K R) (hc : ∀ ok, K (.clear key ok))
    (ht : ∀ ok, K (.truncate 0 ok)) : Steps R (discardUnverifiableAssembly seams key) :=
  Steps.bind (steps_ignoringFailure (steps_storeClear hR hc)) fun _ =>
    steps_ignoringFailure (steps_sinkTruncate hR ht)

/-- The layout of a checkpoint, taken over or dropped. -/
theorem steps_restoreCommitment (hR : ClosedUnderPlanning Effect.IsOpening R) :
    Steps R (restoreCommitment seams) := by
  refine Steps.bind steps_getJob fun job => ?_
  dsimp only
  split
  · exact Steps.pure _
  · refine Steps.bind (steps_askJob hR.calls fun _ => ⟨trivial, rfl⟩) fun reserved => ?_
    split
    · exact steps_modifyJob hR (fun _ => ⟨rfl, rfl, rfl, rfl, rfl, rfl, rfl, rfl⟩) fun _ => rfl
    · exact steps_modifyJob hR (fun _ => ⟨rfl, rfl, rfl, rfl, rfl, rfl, rfl, rfl⟩) fun _ => rfl

theorem steps_claimStaging (hR : ClosedUnderPlanning Effect.IsOpening R) :
    Steps R (claimStaging seams) := by
  refine Steps.bind Steps.read fun w => ?_
  split
  · exact Steps.pure _
  · refine Steps.bind (steps_askJob hR.calls fun _ => ⟨trivial, rfl⟩) fun granted => ?_
    split
    · exact Steps.pure _
    · exact steps_failWith hR.calls ⟨trivial, rfl⟩

/-- The checkpoint is loaded, and the staging area claimed. -/
theorem steps_openJob (hR : ClosedUnderPlanning Effect.IsOpening R) : Steps R (openJob seams key) := by
  refine Steps.bind ?_ fun _ => Steps.bind (steps_restoreCommitment hR) fun _ => steps_claimStaging hR
  refine Steps.bind (Steps.attempt (steps_storeLoad hR.calls fun _ => ⟨trivial, rfl⟩)) fun loaded => ?_
  split
  · exact steps_failWith hR.calls ⟨trivial, rfl⟩
  · exact steps_modifyJob hR (fun _ => ⟨rfl, rfl, rfl, rfl, rfl, rfl, rfl, rfl⟩) fun _ => rfl

theorem steps_discover (hR : ClosedUnderSetup Effect.IsCommitting R) :
    Steps R (discover seams content) := by
  unfold discover
  split
  · exact Steps.fail _
  · refine Steps.bind (steps_locateAndConfirm hR.calls (fun _ => trivial) fun _ _ => trivial)
      fun providers => ?_
    refine Steps.bind (m := modifyJob _)
      (fun w => hR.own w _ ⟨rfl, rfl, rfl, rfl, rfl, rfl, rfl, rfl⟩) fun _ => ?_
    split
    · exact steps_failWith hR.calls trivial
    · exact Steps.pure _

/-- Holder after holder, until one gives a commitment. -/
theorem steps_probeHolders (hR : ClosedUnderPlanning Effect.IsCommitting R) (req : RangeRequest) :
    ∀ providers reasons, Steps R (probeHolders seams content req providers reasons)
  | [], _ => Steps.pure _
  | provider :: providers, reasons => by
      refine Steps.bind (steps_askJob hR.calls fun _ => ⟨trivial, rfl⟩) fun answer => ?_
      split
      · exact Steps.fail _
      · exact steps_probeHolders hR req providers _
      · refine Steps.bind (steps_askJob hR.calls fun _ => ⟨trivial, rfl⟩) fun reserved => ?_
        split
        · exact Steps.pure _
        · exact steps_probeHolders hR req providers _

theorem steps_obtainCommitment (hR : ClosedUnderPlanning Effect.IsCommitting R) :
    Steps R (obtainCommitment seams content) := by
  refine Steps.bind steps_getJob fun job => ?_
  split
  · exact Steps.pure _
  · refine Steps.bind ?_ fun commitment => ?_
    · refine Steps.bind steps_getJob fun job => ?_
      split
      · exact Steps.fail _
      · refine Steps.bind (steps_probeHolders hR _ _ _) fun answer => ?_
        split
        · exact Steps.pure _
        · exact steps_failWith hR.calls ⟨trivial, rfl⟩
    · exact Steps.bind (steps_modifyJob hR (fun _ => ⟨rfl, rfl, rfl, rfl, rfl, rfl, rfl, rfl⟩)
        fun _ => rfl)
        fun _ => Steps.pure _

/-- What is staged of each resumed range is read back, range after range. -/
theorem steps_rehydrateResumedRanges (hR : ClosedUnderPlanning Effect.IsReadBack R)
    (commitment : ResourceCommitment) :
    ∀ resumed, Steps R (rehydrateResumedRanges seams commitment resumed)
  | [] => Steps.pure _
  | range :: resumed => by
      refine Steps.bind steps_getJob fun job => ?_
      refine Steps.bind (Steps.attempt ?_) fun staged => ?_
      · unfold stagedRange
        split
        · exact steps_sinkReadAt hR.calls fun _ => ⟨trivial, rfl⟩
        · exact Steps.fail _
      · have hunresume : Steps R (modifyJob (·.unresume range)) :=
          steps_modifyJob hR (fun _ => ⟨rfl, rfl, rfl, rfl, rfl, rfl, rfl, rfl⟩) fun _ => rfl
        have hfeed : ∀ bytes, Steps R (modifyJob (·.feed range.offset bytes)) := fun bytes =>
          steps_modifyJob hR (fun _ => ⟨rfl, rfl, rfl, rfl, rfl, rfl, rfl, rfl⟩) fun _ => rfl
        have hrest := steps_rehydrateResumedRanges hR commitment resumed
        split
        · exact Steps.bind hunresume fun _ => hrest
        · split
          · exact Steps.bind (Steps.fail _) fun _ => hrest
          · exact Steps.bind hunresume fun _ => hrest
          · exact Steps.bind (hfeed _) fun _ => hrest

theorem steps_discardBytesStagedForAnotherPlan (hR : ClosedUnderPlanning Effect.IsDiscard R)
    (commitment : ResourceCommitment) :
    Steps R (discardBytesStagedForAnotherPlan seams key commitment) := by
  refine Steps.bind steps_getJob fun job => ?_
  split
  · exact Steps.pure _
  · refine Steps.bind (steps_modifyJob hR (fun _ => ⟨rfl, rfl, rfl, rfl, rfl, rfl, rfl, rfl⟩) fun _ => rfl)
      fun _ => ?_
    exact steps_discardUnverifiableAssembly hR.calls (fun _ => ⟨trivial, rfl⟩) fun _ => ⟨trivial, rfl⟩

/-- What is staged for another plan goes, and the ranges that are left are planned. -/
theorem steps_planDownload (hR : ClosedUnderPlanning Effect.IsSetup R)
    (commitment : ResourceCommitment) : Steps R (planDownload seams key commitment) := by
  have hread := hR.mono fun _ he => Effect.IsReadBack.isSetup he
  have hdiscard := hR.mono fun _ he => Effect.IsDiscard.isSetup he
  refine Steps.bind (steps_discardBytesStagedForAnotherPlan hdiscard _) fun _ =>
    Steps.bind ?_ fun _ => Steps.bind ?_ fun _ =>
    Steps.bind steps_getJob fun job => Steps.bind (steps_rehydrateResumedRanges hread _ _) fun _ =>
    Steps.bind steps_getJob fun job => steps_emit hR.calls ⟨trivial, rfl⟩
  · exact Steps.bind (steps_modifyJob hR (fun _ => ⟨rfl, rfl, rfl, rfl, rfl, rfl, rfl, rfl⟩) fun _ => rfl)
      fun _ => steps_checkpoint hR.calls fun _ _ => ⟨trivial, rfl⟩
  · exact steps_modifyJob hR (fun _ => ⟨rfl, rfl, rfl, rfl, rfl, rfl, rfl, rfl⟩) fun _ => rfl

theorem steps_committing (hR : ClosedUnderSetup Effect.IsCommitting R) :
    Steps R (committing seams target) :=
  Steps.bind (steps_openJob (hR.planning.mono fun _ he => he.isCommitting)) fun _ =>
    Steps.bind (steps_discover hR) fun _ => steps_obtainCommitment hR.planning

theorem steps_planInner (hR : ClosedUnderSetup Effect.IsSetup R) :
    Steps R (planInner seams content key) := by
  have hcommitting := hR.mono fun _ he => Effect.IsCommitting.isSetup he
  exact Steps.bind (steps_discover hcommitting) fun _ =>
    Steps.bind (steps_obtainCommitment hcommitting.planning) fun commitment =>
    Steps.bind (steps_planDownload hR.planning commitment) fun _ => Steps.pure _

/-- All that comes before the loop. -/
theorem steps_entering (hR : ClosedUnderSetup Effect.IsSetup R) :
    Steps R (entering seams target) := by
  rw [entering_eq]
  have hcommitting := hR.mono fun _ he => Effect.IsCommitting.isSetup he
  exact Steps.bind (steps_committing hcommitting) fun commitment =>
    Steps.bind (steps_planDownload hR.planning commitment) fun _ => Steps.pure _

end Setup

/-- A checkpoint under a list of chunks: its done set is kept if it is about the same ones. -/
def DownloadState.kept (resume : DownloadState) (chunkLens : List Nat) : DownloadState :=
  if resume.chunkLens = [] ∨ resume.chunkLens = chunkLens then resume else resume.takeDone

/-- Dropping what belongs to another plan does not fail. -/
theorem wp_discardBytes {seams : ResourceSeams} {key : String} {commitment : ResourceCommitment}
    (w : JobWorld) :
    wp (discardBytesStagedForAnotherPlan seams key commitment)
      (fun _ w' => Appends Effect.IsDiscard w w' ∧
        w'.own = { w.own with resume := w.own.resume.kept commitment.layout.chunkLens })
      (fun _ _ => False) w := by
  have happends : Steps (Appends Effect.IsDiscard)
      (discardBytesStagedForAnotherPlan seams key commitment : JobM Unit) :=
    steps_discardBytesStagedForAnotherPlan closedUnderSetup_appends.planning commitment
  have hown : wp (discardBytesStagedForAnotherPlan seams key commitment)
      (fun _ w' =>
        w'.own = { w.own with resume := w.own.resume.kept commitment.layout.chunkLens })
      (fun _ _ => False) w := by
    rw [discardBytesStagedForAnotherPlan, wp_bind, wp_getJob, DownloadState.kept]
    split
    · exact rfl
    · rw [wp_bind, wp_modifyJob, wp_bind, wp_ignoringFailure]
      refine wp_storeClear ?_ (fun e => ?_)
      · rw [wp_ignoringFailure]
        exact wp_sinkTruncate rfl (fun e => rfl)
      · rw [wp_ignoringFailure]
        exact wp_sinkTruncate rfl (fun e => rfl)
  exact ((happends.wp w).and hown).mono (fun _ _ h => h) (fun _ _ h => h.2)

/-! ## What the loop does to the outside -/

namespace Effect

/-- What a turn does to the outside. -/
def IsTurn : Effect ResourceAsk → Prop
  | .save _ _ | .writeAt _ _ _ => True
  | .ask (.findProviders _) | .ask (.queryAvailability _ _) | .ask .clock => True
  | .ask (.fetched _ _ _) | .ask (.record _ _ _) | .ask (.emit _) => True
  | _ => False

/-- What the answer of a fetch leads to. -/
def IsSettling : Effect ResourceAsk → Prop
  | .save _ _ | .writeAt _ _ _ => True
  | .ask .clock | .ask (.record _ _ _) | .ask (.emit _) => True
  | _ => False

theorem IsSettling.isTurn {e : Effect ResourceAsk} (h : e.IsSettling) : e.IsTurn := by
  unfold IsSettling at h
  split at h <;> trivial

/-- What a turn that is not the end of a fetch does to the outside. -/
def IsAside : Effect ResourceAsk → Prop
  | .save _ _ => True
  | .ask (.findProviders _) | .ask (.queryAvailability _ _) | .ask .clock => True
  | .ask (.emit (.providersRefreshed _)) | .ask (.emit .paused) | .ask (.emit .resumed) => True
  | .ask (.emit (.failed _)) => True
  | _ => False

theorem IsAside.isTurn {e : Effect ResourceAsk} (h : e.IsAside) : e.IsTurn := by
  unfold IsAside at h
  split at h <;> trivial

/-- What filling does to the outside. -/
def IsFill : Effect ResourceAsk → Prop
  | .ask .clock | .ask (.select _ _) | .ask (.issue _ _) => True
  | _ => False

/-- What the head of an iteration does to the outside. -/
def IsHead : Effect ResourceAsk → Prop
  | .ask .clock | .ask (.select _ _) | .ask (.issue _ _) | .ask .relocate => True
  | .ask (.findProviders _) | .ask (.queryAvailability _ _) => True
  | .ask (.emit (.providersRefreshed _)) | .ask (.emit (.failed _)) => True
  | _ => False

/-- What handing out ranges under a plan does to the outside. -/
def IsIssue : Effect ResourceAsk → Prop
  | .ask (.issue _ _) => True
  | _ => False

theorem IsIssue.isFill {e : Effect ResourceAsk} (h : e.IsIssue) : e.IsFill := by
  unfold IsIssue at h
  split at h <;> trivial

/-- A pass belongs to the head of an iteration. -/
theorem IsFill.isHead {e : Effect ResourceAsk} (h : e.IsFill) : e.IsHead := by
  unfold IsFill at h
  split at h <;> trivial

/-- What refusing an assembly does to the outside. -/
def IsRefused : Effect ResourceAsk → Prop
  | .clear _ _ | .truncate _ _ | .ask (.emit (.failed _)) => True
  | _ => False

/-- What the check of the whole resource does to the outside. -/
def IsBackstop : Effect ResourceAsk → Prop
  | .ask (.verifyInclusion _ _ _ _) | .clear _ _ | .truncate _ _ => True
  | .ask (.emit (.failed _)) => True
  | _ => False

/-- What the check and the promotion of the whole resource do to the outside. -/
def IsFinish : Effect ResourceAsk → Prop
  | .ask (.verifyInclusion _ _ _ _) | .clear _ _ | .truncate _ _ => True
  | .readAt _ _ _ | .finalize _ | .ask (.emit (.failed _)) | .ask (.emit (.completed _)) => True
  | _ => False

theorem IsBackstop.isFinish {e : Effect ResourceAsk} (h : e.IsBackstop) : e.IsFinish := by
  unfold IsBackstop at h
  split at h <;> trivial

/-- A proof that is checked is checked against a given root. -/
def ChecksRoot (root : Option String) : Effect ResourceAsk → Prop
  | .ask (.verifyInclusion _ _ root' _) => root' = root
  | _ => True

theorem IsRefused.isBackstop {e : Effect ResourceAsk} (h : e.IsRefused) : e.IsBackstop := by
  unfold IsRefused at h
  split at h <;> trivial

theorem IsRefused.not_isLocate {e : Effect ResourceAsk} (h : e.IsRefused) : e.isLocate = false := by
  unfold IsRefused at h
  split at h
  · rfl
  · rfl
  · rfl
  · exact h.elim

theorem IsRefused.checksRoot {e : Effect ResourceAsk} (h : e.IsRefused) (root : Option String) :
    e.ChecksRoot root := by
  unfold IsRefused at h
  split at h <;> trivial

/-- What the scheduling loop does to the outside. -/
def IsLoop (e : Effect ResourceAsk) : Prop := e.IsHead ∨ e.IsTurn

end Effect

/-- `R` relates the states around every call of kind `K` and every change of memory. -/
structure ClosedUnderLoop (K : Effect ResourceAsk → Prop) (R : JobWorld → JobWorld → Prop) :
    Prop where
  calls : ClosedUnder K R
  own : ∀ w own, R w { w with own }

theorem ClosedUnderLoop.mono {K K' : Effect ResourceAsk → Prop} {R : JobWorld → JobWorld → Prop}
    (h : ClosedUnderLoop K' R) (hK : ∀ e, K e → K' e) : ClosedUnderLoop K R :=
  ⟨h.calls.mono hK, h.own⟩

/-- As `ClosedUnderLoop`, but for the calls and the changes of memory by which no holders come to
be known. -/
structure ClosedUnderKeeping (K : Effect ResourceAsk → Prop) (R : JobWorld → JobWorld → Prop) :
    Prop where
  calls : ClosedUnder (fun e => K e ∧ e.isLocate = false) R
  own : ∀ w own, own.providers = w.own.providers → R w { w with own }

theorem ClosedUnderLoop.keeping {K : Effect ResourceAsk → Prop} {R : JobWorld → JobWorld → Prop}
    (h : ClosedUnderLoop K R) : ClosedUnderKeeping K R :=
  ⟨h.calls.mono fun _ he => he.1, fun w own _ => h.own w own⟩

theorem ClosedUnderKeeping.mono {K K' : Effect ResourceAsk → Prop}
    {R : JobWorld → JobWorld → Prop} (h : ClosedUnderKeeping K' R) (hK : ∀ e, K e → K' e) :
    ClosedUnderKeeping K R :=
  ⟨h.calls.mono fun e he => ⟨hK e he.1, he.2⟩, h.own⟩

/-- The parts of the memory that only the search for holders changes are the same. -/
structure SameSearch (job job' : Job) : Prop where
  providers : job'.providers = job.providers
  relocateAttempts : job'.relocateAttempts = job.relocateAttempts
  lastRefresh : job'.lastRefresh = job.lastRefresh

/-- As `ClosedUnderKeeping`, but for the changes of memory by which holders are searched for. -/
structure ClosedUnderServing (K : Effect ResourceAsk → Prop) (R : JobWorld → JobWorld → Prop) :
    Prop where
  calls : ClosedUnder (fun e => K e ∧ e.isLocate = false) R
  own : ∀ w own, SameSearch w.own own → R w { w with own }

theorem ClosedUnderKeeping.serving {K : Effect ResourceAsk → Prop}
    {R : JobWorld → JobWorld → Prop} (h : ClosedUnderKeeping K R) : ClosedUnderServing K R :=
  ⟨h.calls, fun w own hsame => h.own w own hsame.providers⟩

theorem ClosedUnderServing.mono {K K' : Effect ResourceAsk → Prop}
    {R : JobWorld → JobWorld → Prop} (h : ClosedUnderServing K' R) (hK : ∀ e, K e → K' e) :
    ClosedUnderServing K R :=
  ⟨h.calls.mono fun e he => ⟨hK e he.1, he.2⟩, h.own⟩

theorem closedUnderLoop_appends {K : Effect ResourceAsk → Prop} :
    ClosedUnderLoop K (Appends K) :=
  ⟨closedUnder_appends, fun _ _ => ⟨[], by simp, by simp⟩⟩

theorem closedUnderKeeping_appends {K : Effect ResourceAsk → Prop} :
    ClosedUnderKeeping K (Appends K) := closedUnderLoop_appends.keeping

section Loop

variable {seams : ResourceSeams} {content : ContentId} {key : String}
  {R : JobWorld → JobWorld → Prop} [Std.Refl R] [IsTrans JobWorld R]

theorem steps_discoverMore {K : Effect ResourceAsk → Prop} (hR : ClosedUnderLoop K R)
    (hf : ∀ answer, K (.ask (.findProviders answer)))
    (hk : ∀ peer answer, K (.ask (.queryAvailability peer answer)))
    (he : ∀ n, K (.ask (.emit (.providersRefreshed n)))) :
    Steps R (discoverMore seams content) := by
  refine Steps.bind (steps_locateAndConfirm hR.calls hf hk) fun more => ?_
  refine Steps.bind steps_getJob fun job => ?_
  refine Steps.bind (m := modifyJob _) (fun w => hR.own w _) fun _ => ?_
  split
  · exact Steps.bind (steps_emit hR.calls (he _)) fun _ => Steps.pure _
  · exact Steps.pure _

theorem steps_rangeFailed (hR : ClosedUnderServing Effect.IsSettling R) (index : Nat) (peer : String)
    (e : DownloadError) : Steps R (rangeFailed seams index peer e) := by
  rw [rangeFailed]
  split
  · refine Steps.bind (steps_askJob hR.calls fun _ => ⟨trivial, rfl⟩) fun now => ?_
    refine Steps.bind (m := modifyJob _) (fun w => hR.own w _ ⟨rfl, rfl, rfl⟩) fun _ => ?_
    refine Steps.bind (m := noteJob _) (fun w => hR.calls.note w ⟨trivial, rfl⟩ trivial) fun _ => ?_
    exact steps_emit hR.calls ⟨trivial, rfl⟩
  · exact steps_failWith hR.calls ⟨trivial, rfl⟩

/-- A result is taken up: a range that is done, or one that failed. -/
theorem steps_handleResult (hR : ClosedUnderServing Effect.IsSettling R) (index : Nat) (peer : String)
    (answer : Except DownloadError FetchedRange) : Steps R (handleResult seams index peer answer) := by
  have hrelease : ∀ job : Job, SameSearch job (job.release peer) := by
    intro job
    rw [Job.release]
    split <;> exact ⟨rfl, rfl, rfl⟩
  refine Steps.bind (m := modifyJob _) (fun w => hR.own w _ (hrelease w.own)) fun _ => ?_
  refine Steps.bind steps_getJob fun job => ?_
  split
  · split
    · exact steps_rangeFailed hR _ _ _
    · split
      · exact Steps.fail _
      · exact steps_rangeFailed hR _ _ _
      · refine Steps.bind (steps_orFail (steps_sinkWriteAt hR.calls fun _ _ => ⟨trivial, rfl⟩)) fun _ => ?_
        refine Steps.bind (m := modifyJob _) (fun w => hR.own w _ ⟨rfl, rfl, rfl⟩) fun _ => ?_
        refine Steps.bind (m := noteJob _) (fun w => hR.calls.note w ⟨trivial, rfl⟩ trivial) fun _ => ?_
        refine Steps.bind (steps_checkpoint hR.calls fun _ _ => ⟨trivial, rfl⟩) fun _ => ?_
        exact Steps.bind steps_getJob fun job => steps_emit hR.calls ⟨trivial, rfl⟩
  · exact Steps.fail _

/-- The owner's message: pause, resume or cancel, or the end of its handle. -/
theorem steps_controlTurn (hR : ClosedUnderServing Effect.IsAside R) (message : Option Control) :
    Steps R (controlTurn seams message) := by
  have hsave : Steps R (tryCheckpoint seams) := Steps.bind steps_getJob fun job =>
    steps_ignoringFailure (steps_storeSave hR.calls fun _ => ⟨trivial, rfl⟩)
  have hcancel : Steps R (do tryCheckpoint seams; failWith "cancelled" .cancelled : JobM Unit) :=
    Steps.bind hsave fun _ => steps_failWith hR.calls ⟨trivial, rfl⟩
  cases message with
  | none => exact hcancel
  | some message =>
    cases message with
    | cancel => exact hcancel
    | pause =>
      refine Steps.bind steps_getJob fun job => ?_
      split
      · exact Steps.pure _
      · refine Steps.bind (m := modifyJob _) (fun w => hR.own w _ ⟨rfl, rfl, rfl⟩) fun _ => ?_
        exact Steps.bind hsave fun _ => steps_emit hR.calls ⟨trivial, rfl⟩
    | resume =>
      refine Steps.bind steps_getJob fun job => ?_
      split
      · refine Steps.bind (m := modifyJob _) (fun w => hR.own w _ ⟨rfl, rfl, rfl⟩) fun _ => ?_
        exact steps_emit hR.calls ⟨trivial, rfl⟩
      · exact Steps.pure _

theorem steps_refreshTurn (hR : ClosedUnderKeeping Effect.IsAside R)
    (hmore : Steps R (discoverMore seams content)) :
    Steps R (refreshTurn seams content) := by
  refine Steps.bind (steps_askJob hR.calls fun _ => ⟨trivial, rfl⟩) fun now => ?_
  refine Steps.bind (m := modifyJob _) (fun w => hR.own w _ rfl) fun _ => ?_
  refine Steps.handle hmore fun r => ?_
  split
  · exact Steps.fail _
  · exact Steps.fail _
  · exact Steps.pure _

/-- A turn in which no fetch ends. -/
theorem steps_takeTurn_aside_keeping (hR : ClosedUnderKeeping Effect.IsAside R)
    (hmore : Steps R (discoverMore seams content)) (wakeup : Option Nat)
    {turn : Turn} (hturn : ∀ choice, turn ≠ .completed choice) :
    Steps R (takeTurn seams content wakeup turn) := by
  cases turn with
  | control message => exact Steps.bind (steps_controlTurn hR.serving message) fun _ => Steps.pure _
  | wake => exact Steps.bind Steps.read fun w => Steps.pure _
  | refresh =>
    refine Steps.bind Steps.read fun w => ?_
    split
    · exact Steps.bind (steps_refreshTurn hR hmore) fun _ => Steps.pure _
    · exact Steps.pure _
  | completed choice => exact absurd rfl (hturn choice)

/-- A turn in which a fetch ends. -/
theorem steps_takeTurn_completed (hR : ClosedUnderServing Effect.IsTurn R) (wakeup : Option Nat)
    (choice : Nat) : Steps R (takeTurn seams content wakeup (.completed choice)) := by
  refine Steps.bind Steps.read fun w => ?_
  split
  · exact Steps.pure _
  split
  · exact Steps.pure _
  · refine Steps.bind (m := modifyJob _) (fun w => hR.own w _ ⟨rfl, rfl, rfl⟩) fun _ => ?_
    refine Steps.bind (m := noteJob _) (fun w => hR.calls.note w ⟨trivial, rfl⟩ trivial) fun _ => ?_
    exact Steps.bind (steps_handleResult (hR.mono fun _ he => Effect.IsSettling.isTurn he) _ _ _)
      fun _ => Steps.pure _

theorem steps_takeTurn_keeping (hR : ClosedUnderKeeping Effect.IsTurn R)
    (hmore : Steps R (discoverMore seams content)) (wakeup : Option Nat) (turn : Turn) :
    Steps R (takeTurn seams content wakeup turn) := by
  have haside := hR.mono fun _ he => Effect.IsAside.isTurn he
  cases turn with
  | control message => exact steps_takeTurn_aside_keeping haside hmore wakeup (by simp)
  | wake => exact steps_takeTurn_aside_keeping haside hmore wakeup (by simp)
  | refresh => exact steps_takeTurn_aside_keeping haside hmore wakeup (by simp)
  | completed choice => exact steps_takeTurn_completed hR.serving wakeup choice

theorem steps_waitOut (hR : ClosedUnderServing Effect.IsHead R) : Steps R (waitOut seams) := by
  refine Steps.bind (steps_askJob hR.calls fun _ => ⟨trivial, rfl⟩) fun now => ?_
  refine Steps.bind steps_getJob fun job => ?_
  split
  · exact Steps.pure _
  · exact steps_failWith hR.calls ⟨trivial, rfl⟩

/-- A stalled loop relocates where it may, and waits out a backoff or gives up. -/
theorem steps_stalled (hR : ClosedUnderKeeping Effect.IsHead R)
    (hmore : Steps R (discoverMore seams content)) : Steps R (stalled seams content) := by
  refine Steps.bind steps_getJob fun job => ?_
  split
  · refine Steps.bind ?_ fun added => ?_
    · refine Steps.bind (m := noteJob _) (fun w => hR.calls.note w ⟨trivial, rfl⟩ trivial) fun _ => ?_
      refine Steps.bind (m := modifyJob _) (fun w => hR.own w _ rfl) fun _ => ?_
      exact hmore
    · refine Steps.bind (m := modifyJob _) (fun w => hR.own w _ rfl) fun _ => ?_
      split
      · exact Steps.pure _
      · exact steps_waitOut hR.serving
  · exact steps_waitOut hR.serving

theorem steps_fillFrom_closed (hR : ClosedUnderServing Effect.IsIssue R) (plan : SelectPlan)
    (fuel : Nat) : Steps R (fillFrom seams plan fuel) := by
  induction fuel with
  | zero => exact Steps.pure _
  | succ fuel ih =>
    refine Steps.bind steps_getJob fun job => ?_
    split
    · exact Steps.pure _
    split
    · exact Steps.pure _
    split
    · exact Steps.pure _
    · refine Steps.bind (m := modifyJob _) (fun w => hR.own w _ ⟨rfl, rfl, rfl⟩) fun _ => ?_
      exact Steps.bind (m := noteJob _) (fun w => hR.calls.note w ⟨trivial, rfl⟩ trivial) fun _ => ih

theorem steps_fillUnlessPaused_closed (hR : ClosedUnderServing Effect.IsFill R) :
    Steps R (fillUnlessPaused seams key) := by
  refine Steps.bind steps_getJob fun job => ?_
  split
  · exact Steps.pure _
  · refine Steps.bind (steps_askJob hR.calls fun _ => ⟨trivial, rfl⟩) fun now => ?_
    refine Steps.bind steps_getJob fun job => ?_
    refine Steps.bind (steps_askJob hR.calls fun _ => ⟨trivial, rfl⟩) fun plan => ?_
    exact steps_fillFrom_closed (hR.mono fun _ he => he.isFill) _ _

theorem steps_loopHead_of_stalled (hR : ClosedUnderServing Effect.IsHead R)
    (hstalled : Steps R (stalled seams content)) : Steps R (loopHead seams content key) := by
  have hfill : Steps R (fillUnlessPaused seams key) :=
    steps_fillUnlessPaused_closed (hR.mono fun _ he => Effect.IsFill.isHead he)
  refine Steps.bind hfill fun _ => Steps.bind steps_getJob fun job => ?_
  split
  · exact Steps.pure _
  split
  · exact steps_failWith hR.calls ⟨trivial, rfl⟩
  split
  · exact hstalled
  · exact Steps.pure _

theorem steps_settledHead_of_loopHead (hhead : Steps R (loopHead seams content key)) :
    Steps R (settledHead seams content key) := by
  refine Steps.bind hhead fun head => ?_
  cases head with
  | again => exact hhead
  | finished => exact Steps.pure _
  | waiting wakeup => exact Steps.pure _

/-- What the head of an iteration and every turn do, the loop does. -/
theorem steps_scheduleFrom_of_turns (hhead : Steps R (loopHead seams content key))
    (hturn : ∀ wakeup turn, Steps R (takeTurn seams content wakeup turn)) (turns : List Turn) :
    ∀ wakeup, Steps R (scheduleFrom seams content key turns wakeup) := by
  induction turns with
  | nil => exact fun wakeup => Steps.fail _
  | cons turn turns ih =>
    intro wakeup
    refine Steps.bind (hturn wakeup turn) fun happened => ?_
    cases happened with
    | false => exact ih wakeup
    | true =>
      refine Steps.bind (steps_settledHead_of_loopHead hhead) fun head => ?_
      cases head with
      | finished => exact Steps.pure _
      | waiting wakeup => exact ih wakeup
      | again => exact Steps.fail _

theorem steps_scheduleLoop_of_turns (hhead : Steps R (loopHead seams content key))
    (hturn : ∀ wakeup turn, Steps R (takeTurn seams content wakeup turn)) (turns : List Turn) :
    Steps R (scheduleLoop seams content key turns) := by
  refine Steps.bind (steps_settledHead_of_loopHead hhead) fun head => ?_
  cases head with
  | finished => exact Steps.pure _
  | waiting wakeup => exact steps_scheduleFrom_of_turns hhead hturn turns wakeup
  | again => exact Steps.fail _

theorem steps_loopHead_keeping (hR : ClosedUnderKeeping Effect.IsHead R)
    (hmore : Steps R (discoverMore seams content)) :
    Steps R (loopHead seams content key) :=
  steps_loopHead_of_stalled hR.serving (steps_stalled hR hmore)

theorem steps_settledHead_keeping (hR : ClosedUnderKeeping Effect.IsHead R)
    (hmore : Steps R (discoverMore seams content)) :
    Steps R (settledHead seams content key) :=
  steps_settledHead_of_loopHead (steps_loopHead_keeping hR hmore)

/-- Iteration after iteration, by induction on the turns. -/
theorem steps_scheduleFrom_keeping (hR : ClosedUnderKeeping Effect.IsLoop R)
    (hmore : Steps R (discoverMore seams content)) (turns : List Turn) :
    ∀ wakeup, Steps R (scheduleFrom seams content key turns wakeup) :=
  steps_scheduleFrom_of_turns (steps_loopHead_keeping (hR.mono fun _ => Or.inl) hmore)
    (steps_takeTurn_keeping (hR.mono fun _ => Or.inr) hmore) turns

theorem steps_scheduleLoop_keeping (hR : ClosedUnderKeeping Effect.IsLoop R)
    (hmore : Steps R (discoverMore seams content)) (turns : List Turn) :
    Steps R (scheduleLoop seams content key turns) :=
  steps_scheduleLoop_of_turns (steps_loopHead_keeping (hR.mono fun _ => Or.inl) hmore)
    (steps_takeTurn_keeping (hR.mono fun _ => Or.inr) hmore) turns

theorem steps_refuse (hR : ClosedUnder Effect.IsRefused R) {α : Type} (reason : String)
    (e : DownloadError) :
    Steps R (do discardUnverifiableAssembly seams key; failWith reason e : JobM α) :=
  Steps.bind (steps_discardUnverifiableAssembly hR (fun _ => trivial) fun _ => trivial)
    fun _ => steps_failWith hR trivial

/-- The check of the whole resource, where the node is to make one. -/
theorem steps_backstop (commitment : ResourceCommitment)
    (hR : ClosedUnderKeeping (fun e => e.IsBackstop ∧ e.ChecksRoot commitment.root) R) :
    Steps R (backstop seams key commitment) := by
  refine Steps.bind steps_getJob fun job => ?_
  split
  · exact Steps.pure _
  refine Steps.bind (m := modifyJob _) (fun w => hR.own w _ rfl) fun _ => ?_
  refine Steps.bind ?_ fun verdict => ?_
  · unfold verifyResourceLeaf
    split
    · exact Steps.pure _
    · refine Steps.bind (steps_askJob hR.calls fun _ => ⟨⟨trivial, rfl⟩, rfl⟩) fun accepted => ?_
      split
      · exact Steps.pure _
      · exact Steps.pure _
  · split
    · exact Steps.pure _
    · exact steps_refuse
        (hR.calls.mono fun _ he => ⟨⟨he.isBackstop, he.checksRoot _⟩, he.not_isLocate⟩) _ _

/-- The check, the promotion, and the checkpoint dropped after it. -/
theorem steps_finish (commitment : ResourceCommitment)
    (hR : ClosedUnderKeeping (fun e => e.IsFinish ∧ e.ChecksRoot commitment.root) R) :
    Steps R (finish seams key commitment) := by
  have hbackstop := hR.mono fun _ he => And.imp_left Effect.IsBackstop.isFinish he
  refine Steps.bind (steps_backstop commitment hbackstop) fun _ => ?_
  refine Steps.bind (Steps.attempt (steps_promoteVerified hR.calls ?_ ?_ ?_)) fun promoted => ?_
  · exact fun _ => ⟨⟨trivial, trivial⟩, rfl⟩
  · exact fun _ _ _ => ⟨⟨trivial, trivial⟩, rfl⟩
  · exact fun _ => ⟨⟨trivial, trivial⟩, rfl⟩
  · split
    · exact steps_refuse (hbackstop.calls.mono fun _ he =>
        ⟨⟨he.isBackstop, he.checksRoot _⟩, he.not_isLocate⟩) _ _
    · refine Steps.bind (steps_ignoringFailure (steps_storeClear hR.calls fun _ =>
        ⟨⟨trivial, trivial⟩, rfl⟩)) fun _ => ?_
      exact Steps.bind (steps_emit hR.calls ⟨⟨trivial, trivial⟩, rfl⟩) fun _ => Steps.pure _

/-! ## Where every change of memory is allowed -/

theorem steps_takeTurn_aside (hR : ClosedUnderLoop Effect.IsAside R) (wakeup : Option Nat)
    {turn : Turn} (hturn : ∀ choice, turn ≠ .completed choice) :
    Steps R (takeTurn seams content wakeup turn) :=
  steps_takeTurn_aside_keeping hR.keeping
    (steps_discoverMore hR (fun _ => trivial) (fun _ _ => trivial) fun _ => trivial) wakeup hturn

theorem steps_takeTurn (hR : ClosedUnderLoop Effect.IsTurn R) (wakeup : Option Nat) (turn : Turn) :
    Steps R (takeTurn seams content wakeup turn) :=
  steps_takeTurn_keeping hR.keeping
    (steps_discoverMore hR (fun _ => trivial) (fun _ _ => trivial) fun _ => trivial) wakeup turn

theorem steps_loopHead (hR : ClosedUnderLoop Effect.IsHead R) :
    Steps R (loopHead seams content key) :=
  steps_loopHead_keeping hR.keeping
    (steps_discoverMore hR (fun _ => trivial) (fun _ _ => trivial) fun _ => trivial)

theorem steps_settledHead (hR : ClosedUnderLoop Effect.IsHead R) :
    Steps R (settledHead seams content key) :=
  steps_settledHead_keeping hR.keeping
    (steps_discoverMore hR (fun _ => trivial) (fun _ _ => trivial) fun _ => trivial)

theorem steps_scheduleFrom (hR : ClosedUnderLoop Effect.IsLoop R) (turns : List Turn)
    (wakeup : Option Nat) : Steps R (scheduleFrom seams content key turns wakeup) :=
  steps_scheduleFrom_keeping hR.keeping
    (steps_discoverMore hR (fun _ => Or.inl trivial) (fun _ _ => Or.inl trivial) fun _ =>
      Or.inl trivial) turns wakeup

/-- The whole loop. -/
theorem steps_scheduleLoop (hR : ClosedUnderLoop Effect.IsLoop R) (turns : List Turn) :
    Steps R (scheduleLoop seams content key turns) :=
  steps_scheduleLoop_keeping hR.keeping
    (steps_discoverMore hR (fun _ => Or.inl trivial) (fun _ _ => Or.inl trivial) fun _ =>
      Or.inl trivial) turns

/-- What holds around every call and every change of memory holds around a whole run. -/
theorem steps_runJob (hR : ClosedUnderLoop (fun _ => True) R) (target : Target)
    (turns : List Turn) : Steps R (runJob seams target turns) := by
  rw [runJob_eq]
  have hsetup : ClosedUnderSetup Effect.IsSetup R :=
    ⟨fun w store e _ hc => hR.calls w store e trivial hc, fun w own _ => hR.own w own⟩
  refine Steps.bind (steps_entering hsetup) fun commitment => ?_
  exact Steps.bind (steps_scheduleLoop (hR.mono fun _ _ => trivial) turns) fun _ =>
    steps_finish commitment (hR.keeping.mono fun _ _ => trivial)

end Loop

end DigDownload
