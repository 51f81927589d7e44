import DigDownload.Calls
import DigDownload.Resource.Download

/-!
# What a job can do

`JobStep` lists everything a job does to its world while it schedules: it hands a range
out, a fetch succeeds or fails, it looks around, learns of holders, spends a relocate,
pauses, resumes and saves its checkpoint. `JobEnds` lists the ways in which it stops. The
functions of the scheduling loop are walks along these steps, and what follows about the
loop is derived from the two lists.
-/

namespace DigDownload

open Prog Relation

/-! ## The calls of a job -/

section JobCalls

variable {α : Type} {seams : ResourceSeams} {w : JobWorld} {E : Halt → JobWorld → Prop}

/-- A seam answers by the tick, and its answer is noted. -/
@[simp] theorem wp_askJob {seam : Nat → α} {asked : α → ResourceAsk} {Q : α → JobWorld → Prop} :
    wp (askJob seam asked) Q E w ↔ Q (seam w.tick) (w.note (.ask (asked (seam w.tick)))) := Iff.rfl

@[simp] theorem wp_noteJob {a : ResourceAsk} {Q : Unit → JobWorld → Prop} :
    wp (noteJob a) Q E w ↔ Q () (w.note (.ask a)) := Iff.rfl

@[simp] theorem wp_emit {event : DownloadEvent} {Q : Unit → JobWorld → Prop} :
    wp (emit event) Q E w ↔ Q () (w.note (.ask (.emit event))) := Iff.rfl

@[simp] theorem wp_modifyJob {f : Job → Job} {Q : Unit → JobWorld → Prop} :
    wp (modifyJob f) Q E w ↔ Q () { w with own := f w.own } := Iff.rfl

@[simp] theorem wp_getJob {Q : Job → JobWorld → Prop} : wp getJob Q E w ↔ Q w.own w := Iff.rfl

@[simp] theorem wp_readClock {Q : Nat → JobWorld → Prop} :
    wp (readClock seams) Q E w ↔ Q (seams.now w.tick) (w.note (.ask .clock)) := Iff.rfl

/-- The owner is told before the job ends. -/
@[simp] theorem wp_failWith {reason : String} {e : DownloadError} {Q : α → JobWorld → Prop} :
    wp (failWith reason e : JobM α) Q E w ↔
      E (.failed e) (w.note (.ask (.emit (.failed reason)))) := Iff.rfl

@[simp] theorem wp_orFail {m : RunM ResourceAsk Job α} {Q : α → JobWorld → Prop} :
    wp (orFail m) Q E w ↔ wp m Q (fun e => E (.failed e)) w := by
  unfold orFail
  rw [wp_handle]
  rfl

/-- A checkpoint that cannot be saved ends the job. -/
@[simp] theorem wp_checkpoint {Q : Unit → JobWorld → Prop} :
    wp (checkpoint seams) Q E w ↔
      wp (storeSave seams.host w.own.resume) Q (fun e => E (.failed e)) w := by
  unfold checkpoint
  rw [wp_bind, wp_getJob, wp_orFail]

/-- Here one that cannot be saved does not. -/
@[simp] theorem wp_tryCheckpoint {Q : Unit → JobWorld → Prop} :
    wp (tryCheckpoint seams) Q E w ↔
      wp (storeSave seams.host w.own.resume) (fun _ => Q ()) (fun _ => Q ()) w := by
  unfold tryCheckpoint
  rw [wp_bind, wp_getJob, wp_ignoringFailure]

end JobCalls

/-! ## The errors of the sink and the store -/

/-- An error of a call to the sink or to the state store. -/
inductive Host.Raises (host : Host) : DownloadError → Prop where
  | writeAt {t n : Nat} {e : DownloadError} (h : host.writeAt t = some (n, e)) : Raises host e
  | truncate {t : Nat} {e : DownloadError} (h : host.truncate t = some e) : Raises host e
  | finalize {t : Nat} {e : DownloadError} (h : host.finalize t = some e) : Raises host e
  | load {t : Nat} {e : DownloadError} (h : host.load t = some e) : Raises host e
  | save {t : Nat} {e : DownloadError} (h : host.save t = some e) : Raises host e
  | bounds (reason : String) : Raises host (.sink reason)

section Raises

variable {Ask Own : Type} {host : Host} {w : World Ask Own} {E : DownloadError → World Ask Own → Prop}

/-- An error of a write is one that the host raises, or one of the bounds. -/
theorem wp_sinkWriteAt_raises {offset : Nat} {bytes : Bytes} {Q : Unit → World Ask Own → Prop}
    (hok : Q () ({ w with sink := w.sink.write offset bytes }.note (.writeAt offset bytes true)))
    (herr : ∀ e n, host.Raises e → E e ({ w with sink := w.sink.write offset (bytes.take n) }.note
      (.writeAt offset (bytes.take n) false))) :
    wp (sinkWriteAt host offset bytes) Q E w := by
  unfold wp sinkWriteAt readBackBounds
  cases checkedAdd offset bytes.length with
  | none => exact herr _ 0 (.bounds _)
  | some stop =>
    cases hw : host.writeAt w.tick with
    | none => exact hok
    | some f => exact herr f.2 f.1 (.writeAt hw)

theorem wp_sinkTruncate_raises {len : Nat} {Q : Unit → World Ask Own → Prop}
    (hok : Q () ({ w with sink := w.sink.shorten len }.note (.truncate len true)))
    (herr : ∀ e, host.Raises e → E e (w.note (.truncate len false))) :
    wp (sinkTruncate host len) Q E w := by
  unfold wp sinkTruncate
  cases hf : host.truncate w.tick with
  | some e => exact herr e (.truncate hf)
  | none => exact hok

theorem wp_sinkFinalize_raises {Q : Unit → World Ask Own → Prop}
    (hok : Q () ({ w with sink := w.sink.promote }.note (.finalize true)))
    (herr : ∀ e, host.Raises e → E e (w.note (.finalize false))) :
    wp (sinkFinalize host) Q E w := by
  unfold wp sinkFinalize
  cases hf : host.finalize w.tick with
  | some e => exact herr e (.finalize hf)
  | none => exact hok

theorem wp_storeSave_raises {state : DownloadState} {Q : Unit → World Ask Own → Prop}
    (hok : Q () ({ w with store := w.store.put state.key (some state) }.note (.save state true)))
    (herr : ∀ e, host.Raises e → E e (w.note (.save state false))) :
    wp (storeSave host state) Q E w := by
  unfold wp storeSave
  cases hf : host.save w.tick with
  | some e => exact herr e (.save hf)
  | none => exact hok

end Raises

/-! ## The steps -/

namespace Effect

/-- A call that neither moves a range nor touches what persists. -/
def IsLook : Effect ResourceAsk → Prop
  | .ask (.findProviders _) | .ask (.queryAvailability _ _) | .ask (.select _ _) | .ask .clock => True
  | .ask (.emit (.providersRefreshed _)) | .ask (.emit .paused) | .ask (.emit .resumed) => True
  | .ask (.emit (.failed _)) => True
  | _ => False

end Effect

/-- The memory of a job once a fetch has ended, before its answer is looked at. -/
def Job.taken (job : Job) (choice : Nat) (fetch : Fetch) : Job :=
  { job with inflight := job.inflight.eraseIdx choice }.release fetch.peer

namespace Job

variable {job : Job} {choice : Nat} {fetch : Fetch}

/-- To take a fetch is to take it off the list and to release its source. -/
theorem release_eraseIdx :
    ({ job with inflight := job.inflight.eraseIdx choice } : Job).release fetch.peer =
      job.taken choice fetch := rfl

/-- The fields that taking a fetch leaves as they are. -/
theorem taken_eq : job.taken choice fetch = { job with
    inflight := job.inflight.eraseIdx choice
    inflightPerSource := (job.taken choice fetch).inflightPerSource } := by
  unfold taken release
  split <;> rfl

/-- To take a fetch up changes what is in flight, and none of the fields below. -/
@[simp] theorem taken_inflight :
    (job.taken choice fetch).inflight = job.inflight.eraseIdx choice := by rw [taken_eq]

@[simp] theorem taken_rangeState : (job.taken choice fetch).rangeState = job.rangeState := by
  rw [taken_eq]

@[simp] theorem taken_ranges : (job.taken choice fetch).ranges = job.ranges := by rw [taken_eq]

@[simp] theorem taken_resume : (job.taken choice fetch).resume = job.resume := by rw [taken_eq]

@[simp] theorem taken_commitment : (job.taken choice fetch).commitment = job.commitment := by
  rw [taken_eq]

@[simp] theorem taken_bytesDone : (job.taken choice fetch).bytesDone = job.bytesDone := by
  rw [taken_eq]

@[simp] theorem taken_hasher : (job.taken choice fetch).hasher = job.hasher := by rw [taken_eq]

@[simp] theorem taken_totalFailures :
    (job.taken choice fetch).totalFailures = job.totalFailures := by rw [taken_eq]

@[simp] theorem taken_relocateAttempts :
    (job.taken choice fetch).relocateAttempts = job.relocateAttempts := by rw [taken_eq]

@[simp] theorem taken_tracker : (job.taken choice fetch).tracker = job.tracker := by rw [taken_eq]

@[simp] theorem taken_paused : (job.taken choice fetch).paused = job.paused := by rw [taken_eq]

@[simp] theorem taken_providers : (job.taken choice fetch).providers = job.providers := by
  rw [taken_eq]

end Job

/-- An answer that a download survives is a failure of the range: an error that is
recoverable, or a range that does not pass the check. -/
inductive FailsWith (seams : ResourceSeams) (commitment : ResourceCommitment) (range : Range) :
    Except DownloadError FetchedRange → DownloadError → Prop where
  | refused (e : DownloadError) : FailsWith seams commitment range (.error e) e
  | rejected {fetched : FetchedRange} {e : VerifyError}
      (h : verifyFetched seams commitment range fetched = .rejected e) :
      FailsWith seams commitment range (.ok fetched) (.verify e)

/-- An outstanding fetch that has ended, with what it was for. -/
structure Ended (seams : ResourceSeams) (content : ContentId) (w : JobWorld) (choice : Nat)
    (fetch : Fetch) (answer : Except DownloadError FetchedRange) (commitment : ResourceCommitment)
    (range : Range) : Prop where
  outstanding : w.own.inflight[choice]? = some fetch
  answered : fetchOutcome seams content w.own fetch w.tick = some answer
  committed : w.own.commitment = some commitment
  planned : w.own.ranges[fetch.range]? = some range

section Steps

variable (seams : ResourceSeams) (content : ContentId)

/-- One step of a job while it schedules. -/
inductive JobStep : JobWorld → JobWorld → Prop where
  | look {w : JobWorld} {e : Effect ResourceAsk} (he : e.IsLook) : JobStep w (w.note e)
  | learn {w : JobWorld} (fresh : List ProviderRecord) :
      JobStep w { w with own := { w.own with providers := w.own.providers ++ fresh } }
  | refresh {w : JobWorld} (now : Nat) :
      JobStep w { w with own := { w.own with lastRefresh := now } }
  | relocate {w : JobWorld} (hsince : w.own.relocatedSinceProgress = false)
      (hleft : w.own.relocateAttempts < seams.config.maxRelocateAttempts) :
      JobStep w { w.note (.ask .relocate) with
        own := { w.own with relocateAttempts := w.own.relocateAttempts + 1 } }
  | relocated {w : JobWorld} :
      JobStep w { w with own := { w.own with relocatedSinceProgress := true } }
  | pause {w : JobWorld} (paused : Bool) : JobStep w { w with own := { w.own with paused } }
  | save {w : JobWorld} :
      JobStep w ({ w with store := w.store.put w.own.resume.key (some w.own.resume) }.note
        (.save w.own.resume true))
  | unsaved {w : JobWorld} : JobStep w (w.note (.save w.own.resume false))
  | issue {w : JobWorld} {range : Nat} {peer : String} (hpaused : w.own.paused = false)
      (hroom : w.own.inflight.length < seams.config.maxConcurrency)
      (hpending : w.own.nextPending = some range)
      (hcap : w.own.underCap seams.config peer = true) :
      JobStep w ({ w with own := w.own.issue range peer }.note (.ask (.issue range peer)))
  | succeed {w : JobWorld} {choice : Nat} {fetch : Fetch} {fetched : FetchedRange}
      {commitment : ResourceCommitment} {range : Range} {job : Job}
      (hended : Ended seams content w choice fetch (.ok fetched) commitment range)
      (hverified : verifyFetched seams commitment range fetched = .ok)
      (hjob : job = (w.own.taken choice fetch).complete range fetch.range fetch.peer fetched.bytes) :
      JobStep w {
        sink := w.sink.write range.offset fetched.bytes
        store := w.store.put job.resume.key (some job.resume)
        own := job
        trace := w.trace ++ [
          .ask (.fetched fetch.range fetch.peer (some (.ok fetched))),
          .writeAt range.offset fetched.bytes true,
          .ask (.record fetch.peer fetched.bytes.length .ok),
          .save job.resume true,
          .ask (.emit (.rangeCompleted fetch.range fetch.peer job.snapshot))] }
  | fail {w : JobWorld} {choice : Nat} {fetch : Fetch}
      {answer : Except DownloadError FetchedRange} {commitment : ResourceCommitment}
      {range : Range} {e : DownloadError}
      (hended : Ended seams content w choice fetch answer commitment range)
      (hfails : FailsWith seams commitment range answer e) (hrecoverable : e.isRecoverable = true) :
      JobStep w { w with
        own := (w.own.taken choice fetch).requeue fetch.range fetch.peer (seams.now (w.tick + 1))
        trace := w.trace ++ [
          .ask (.fetched fetch.range fetch.peer (some answer)),
          .ask .clock,
          .ask (.record fetch.peer 0 (if e.isTimeout then .timedOut else .failed)),
          .ask (.emit (.rangeFailed fetch.range fetch.peer e.display))] }

/-- Any number of steps. -/
abbrev JobSteps : JobWorld → JobWorld → Prop := ReflTransGen (JobStep seams content)

end Steps

/-- How a job stops while it schedules: what stopped it, and the world it leaves. -/
inductive JobEnds (seams : ResourceSeams) (content : ContentId) :
    JobWorld → Halt → JobWorld → Prop where
  | pending {w : JobWorld} : JobEnds seams content w .pending w
  | panicked {w : JobWorld} {own : Job} {range : Nat} {peer : String} {answer : FetchAnswer} :
      JobEnds seams content w .panicked { w.note (.ask (.fetched range peer answer)) with own }
  | cancelled {w : JobWorld} :
      JobEnds seams content w (.failed .cancelled) (w.note (.ask (.emit (.failed "cancelled"))))
  | gaveUp {w : JobWorld} (reason : String) :
      JobEnds seams content w (.failed (.noProviders w.own.pendingCount))
        (w.note (.ask (.emit (.failed reason))))
  | lost {w : JobWorld} {e : DownloadError} (hrelocate : ∃ before, w.trace = before ++ [.ask .relocate])
      (hfind : seams.findProviders w.tick content = .error e) :
      JobEnds seams content w (.failed e) (w.note (.ask (.findProviders (.error e))))
  | undownloadable {w : JobWorld} {e : DownloadError} (hitem : availabilityItem content = .error e) :
      JobEnds seams content w (.failed e) w
  | refused {w : JobWorld} {choice : Nat} {fetch : Fetch} {e : DownloadError}
      {commitment : ResourceCommitment} {range : Range}
      (hended : Ended seams content w choice fetch (.error e) commitment range)
      (hfinal : e.isRecoverable = false) :
      JobEnds seams content w (.failed e) { w with
        own := w.own.taken choice fetch
        trace := w.trace ++ [
          .ask (.fetched fetch.range fetch.peer (some (.error e))),
          .ask (.emit (.failed e.display))] }
  | unwritten {w : JobWorld} {choice n : Nat} {fetch : Fetch} {fetched : FetchedRange}
      {commitment : ResourceCommitment} {range : Range} {e : DownloadError}
      (hended : Ended seams content w choice fetch (.ok fetched) commitment range)
      (hverified : verifyFetched seams commitment range fetched = .ok)
      (hraises : seams.host.Raises e) :
      JobEnds seams content w (.failed e) { w with
        sink := w.sink.write range.offset (fetched.bytes.take n)
        own := w.own.taken choice fetch
        trace := w.trace ++ [
          .ask (.fetched fetch.range fetch.peer (some (.ok fetched))),
          .writeAt range.offset (fetched.bytes.take n) false] }
  | unsaved {w : JobWorld} {choice : Nat} {fetch : Fetch} {fetched : FetchedRange}
      {commitment : ResourceCommitment} {range : Range} {e : DownloadError} {job : Job}
      (hended : Ended seams content w choice fetch (.ok fetched) commitment range)
      (hverified : verifyFetched seams commitment range fetched = .ok)
      (hjob : job = (w.own.taken choice fetch).complete range fetch.range fetch.peer fetched.bytes)
      (hraises : seams.host.Raises e) :
      JobEnds seams content w (.failed e) { w with
        sink := w.sink.write range.offset fetched.bytes
        own := job
        trace := w.trace ++ [
          .ask (.fetched fetch.range fetch.peer (some (.ok fetched))),
          .writeAt range.offset fetched.bytes true,
          .ask (.record fetch.peer fetched.bytes.length .ok),
          .save job.resume false] }

/-! ## Walks -/

section Walks

variable (seams : ResourceSeams) (content : ContentId)

/-- `m`, started in `w`, only takes steps of a job, and if it stops, stops as a job does. -/
def Walks {α : Type} (m : JobM α) (w : JobWorld) : Prop :=
  wp m (fun _ w' => JobSteps seams content w w')
    (fun halt w' => ∃ w₁, JobSteps seams content w w₁ ∧ JobEnds seams content w₁ halt w') w

variable {seams content} {α β : Type} {w w' : JobWorld}

theorem Walks.pure (a : α) : Walks seams content (pure a : JobM α) w := ReflTransGen.refl

theorem Walks.read : Walks seams content (Prog.read : JobM JobWorld) w := ReflTransGen.refl

theorem Walks.ends {halt : Halt} (h : JobEnds seams content w halt w) :
    Walks seams content (Prog.fail halt : JobM α) w := ⟨w, ReflTransGen.refl, h⟩

theorem Walks.update {f : JobWorld → JobWorld} (h : JobStep seams content w (f w)) :
    Walks seams content (Prog.update f : JobM Unit) w := ReflTransGen.single h

/-- A walk goes on where its first part stopped. -/
theorem Walks.bind {m : JobM α} {k : α → JobM β} (hm : Walks seams content m w)
    (hk : ∀ a w', m w = (.ok a, w') → Walks seams content (k a) w') :
    Walks seams content (m >>= k) w := by
  show wp (m >>= k) _ _ w
  rw [wp_bind]
  cases hr : m w with
  | mk r w₁ =>
    cases r with
    | error e =>
      rw [wp_of_run_error hr]
      exact (wp_of_run_error hr).mp hm
    | ok a =>
      have hsteps : JobSteps seams content w w₁ := (wp_of_run_ok hr).mp hm
      rw [wp_of_run_ok hr]
      refine (hk a w₁ hr).mono (fun b w₂ h => hsteps.trans h) ?_
      intro halt w₂ h
      obtain ⟨w', hw', hends⟩ := h
      exact ⟨w', hsteps.trans hw', hends⟩

/-- Where a program walks, its success is reached by steps. -/
theorem Walks.ok {m : JobM α} {a : α} (h : Walks seams content m w) (hm : m w = (.ok a, w')) :
    JobSteps seams content w w' := (wp_of_run_ok hm).mp h

/-- Where a program walks, its end is reached by steps. -/
theorem Walks.error {m : JobM α} {halt : Halt} (h : Walks seams content m w)
    (hm : m w = (.error halt, w')) :
    ∃ w₁, JobSteps seams content w w₁ ∧ JobEnds seams content w₁ halt w' :=
  (wp_of_run_error hm).mp h

theorem walks_getJob : Walks seams content getJob w := ReflTransGen.refl

/-- Asking a seam that only looks around. -/
theorem walks_askJob {seam : Nat → α} {asked : α → ResourceAsk}
    (h : ∀ a, (Effect.ask (asked a)).IsLook) : Walks seams content (askJob seam asked) w :=
  ReflTransGen.single (.look (h _))

theorem walks_noteJob {a : ResourceAsk} (h : (Effect.ask a).IsLook) :
    Walks seams content (noteJob a) w := ReflTransGen.single (.look h)

theorem walks_readClock : Walks seams content (readClock seams) w :=
  walks_askJob fun _ => trivial

theorem walks_tryCheckpoint : Walks seams content (tryCheckpoint seams) w := by
  show wp (tryCheckpoint seams) _ _ w
  rw [wp_tryCheckpoint]
  exact wp_storeSave (ReflTransGen.single .save) (fun _ => ReflTransGen.single .unsaved)

/-! ## Discovery -/

theorem wp_confirmHolders (content : ContentId) (item : AvailabilityItem) (found : List ProviderRecord) :
    ∀ w, wp (confirmHolders seams item found) (fun _ w' => JobSteps seams content w w')
      (fun _ _ => False) w := by
  induction found with
  | nil => exact fun w => ReflTransGen.refl
  | cons p found ih =>
    intro w
    unfold confirmHolders
    rw [wp_bind, wp_askJob]
    have hlook : JobStep seams content w (w.note (.ask (.queryAvailability p.providerPeerId
      (seams.queryAvailability w.tick p item)))) := .look trivial
    have hrest := (ih (w.note (.ask (.queryAvailability p.providerPeerId
      (seams.queryAvailability w.tick p item))))).mono
        (fun _ _ h => ReflTransGen.head hlook h) (fun _ _ h => h)
    split
    · rw [wp_bind]
      exact hrest
    · exact hrest

/-- Looking for holders stops the job only when the locator fails. -/
theorem wp_locateAndConfirm {Q : List ProviderRecord → JobWorld → Prop}
    {E : Halt → JobWorld → Prop} {w : JobWorld}
    (hok : ∀ more w', JobSteps seams content w w' → Q more w')
    (hfind : ∀ e, seams.findProviders w.tick content = .error e →
      E (.failed e) (w.note (.ask (.findProviders (.error e)))))
    (hitem : ∀ e w', availabilityItem content = .error e → JobSteps seams content w w' →
      E (.failed e) w') :
    wp (locateAndConfirm seams content) Q E w := by
  unfold locateAndConfirm
  rw [wp_bind, wp_askJob]
  have hlook : JobStep seams content w
      (w.note (.ask (.findProviders (seams.findProviders w.tick content)))) := .look trivial
  cases hf : seams.findProviders w.tick content with
  | error e => exact hfind e hf
  | ok found =>
    rw [hf] at hlook
    dsimp only
    cases hi : availabilityItem content with
    | error e => exact hitem e _ hi (ReflTransGen.single hlook)
    | ok item =>
      exact (wp_confirmHolders content item found _).mono
        (fun more w' h => hok more w' (ReflTransGen.head hlook h)) (fun _ _ h => h.elim)

/-- Locating more holders stops the job only when the locator fails. -/
theorem wp_discoverMore {Q : Nat → JobWorld → Prop} {E : Halt → JobWorld → Prop} {w : JobWorld}
    (hok : ∀ n w', JobSteps seams content w w' → Q n w')
    (hfind : ∀ e, seams.findProviders w.tick content = .error e →
      E (.failed e) (w.note (.ask (.findProviders (.error e)))))
    (hitem : ∀ e w', availabilityItem content = .error e → JobSteps seams content w w' →
      E (.failed e) w') :
    wp (discoverMore seams content) Q E w := by
  unfold discoverMore
  rw [wp_bind]
  refine wp_locateAndConfirm (fun more w₁ h₁ => ?_) hfind hitem
  rw [wp_bind, wp_getJob, wp_bind, wp_modifyJob]
  have hlearn := h₁.tail (.learn (more.filter fun p =>
    !(w₁.own.providers.map (·.providerPeerId)).contains p.providerPeerId))
  split
  · rw [wp_bind, wp_emit]
    exact hok _ _ (hlearn.tail (.look trivial))
  · exact hok _ _ hlearn

/-! ## The loop -/

/-- Each fetch of a pass is a step, by induction on the fuel. -/
theorem walks_fillFrom (plan : SelectPlan) (fuel : Nat) :
    ∀ w : JobWorld, w.own.paused = false → Walks seams content (fillFrom seams plan fuel) w := by
  induction fuel with
  | zero => exact fun w _ => Walks.pure ()
  | succ fuel ih =>
    intro w hpaused
    refine Walks.bind walks_getJob fun job w₁ hread => ?_
    cases hread
    split
    · exact Walks.pure ()
    rename_i hroom
    split
    · exact Walks.pure ()
    rename_i range hpending
    split
    · exact Walks.pure ()
    rename_i peer hpick
    have hcap : w.own.underCap seams.config peer = true := by
      unfold Job.pickFromPlan at hpick
      split at hpick
      · split at hpick
        · cases hpick
          assumption
        · exact List.find?_some hpick
      · exact List.find?_some hpick
    have hissue : JobStep seams content w
        ({ w with own := w.own.issue range peer }.note (.ask (.issue range peer))) :=
      .issue hpaused (Nat.lt_of_not_le hroom) hpending hcap
    have hrest := ih _ (show ({ w with own := w.own.issue range peer }.note
      (.ask (.issue range peer))).own.paused = false from hpaused)
    exact Walks.bind (m := do modifyJob (·.issue range peer); noteJob (.issue range peer))
      (ReflTransGen.single hissue) fun _ w₁ h => by cases h; exact hrest

theorem walks_fill (key : String) (hpaused : w.own.paused = false) :
    Walks seams content (fill seams key) w := by
  refine Walks.bind walks_readClock fun now w₁ h₁ => ?_
  cases h₁
  refine Walks.bind walks_getJob fun job w₂ h₂ => ?_
  cases h₂
  refine Walks.bind (walks_askJob fun _ => trivial) fun plan w₃ h₃ => ?_
  cases h₃
  exact walks_fillFrom _ _ _ hpaused

theorem walks_fillUnlessPaused (key : String) :
    Walks seams content (fillUnlessPaused seams key) w := by
  refine Walks.bind walks_getJob fun job w₁ h₁ => ?_
  cases h₁
  split
  · exact Walks.pure ()
  · rename_i hpaused
    exact walks_fill key (by simpa using hpaused)

/-- To wait a backoff out is a look at the clock; with nothing to wait for, the job gives up. -/
theorem walks_waitOut : Walks seams content (waitOut seams) w := by
  refine Walks.bind walks_readClock fun now w₁ h₁ => ?_
  refine Walks.bind walks_getJob fun job w₂ h₂ => ?_
  cases h₂
  split
  · exact Walks.pure _
  · exact ⟨w₁, ReflTransGen.refl, .gaveUp _⟩

/-- A relocate stops the job only when the locator fails. -/
theorem walks_relocate (hsince : w.own.relocatedSinceProgress = false)
    (hleft : w.own.relocateAttempts < seams.config.maxRelocateAttempts) :
    Walks seams content (relocate seams content) w := by
  have hstep : JobStep seams content w { w.note (.ask .relocate) with
      own := { w.own with relocateAttempts := w.own.relocateAttempts + 1 } } :=
    .relocate hsince hleft
  show wp (relocate seams content) _ _ w
  rw [relocate, wp_bind, wp_noteJob, wp_bind, wp_modifyJob]
  refine wp_discoverMore (fun n w' h => ReflTransGen.head hstep h) (fun e he => ?_)
    (fun e w' hitem h => ⟨w', ReflTransGen.head hstep h, .undownloadable hitem⟩)
  exact ⟨_, ReflTransGen.single hstep, .lost ⟨w.trace, rfl⟩ he⟩

/-- A stalled loop relocates step by step, or ends. -/
theorem walks_stalled : Walks seams content (stalled seams content) w := by
  refine Walks.bind walks_getJob fun job w₁ h₁ => ?_
  cases h₁
  split
  · rename_i hrelocate
    refine Walks.bind (walks_relocate hrelocate.1 hrelocate.2) fun added w₂ h₂ => ?_
    refine Walks.bind (m := modifyJob _) (Walks.update .relocated) fun _ w₃ h₃ => ?_
    split
    · exact Walks.pure _
    · exact walks_waitOut
  · exact walks_waitOut

/-- The head of an iteration. -/
theorem walks_loopHead (key : String) : Walks seams content (loopHead seams content key) w := by
  refine Walks.bind (walks_fillUnlessPaused key) fun _ w₂ h₂ => ?_
  refine Walks.bind walks_getJob fun job w₃ h₃ => ?_
  cases h₃
  split
  · exact Walks.pure _
  split
  · exact ⟨w₂, ReflTransGen.refl, .gaveUp _⟩
  split
  · exact walks_stalled
  · exact Walks.pure _

/-! ## The turns -/

/-- What the owner says is a step, and a cancel the end. -/
theorem walks_controlTurn (message : Option Control) :
    Walks seams content (controlTurn seams message) w := by
  have hcancel : Walks seams content (do
      tryCheckpoint seams; failWith "cancelled" .cancelled : JobM Unit) w :=
    Walks.bind walks_tryCheckpoint fun _ w₁ _ => ⟨w₁, ReflTransGen.refl, .cancelled⟩
  cases message with
  | none => exact hcancel
  | some message =>
    cases message with
    | cancel => exact hcancel
    | pause =>
      refine Walks.bind walks_getJob fun job w₁ h₁ => ?_
      split
      · exact Walks.pure ()
      · refine Walks.bind (m := modifyJob _) (Walks.update (.pause true)) fun _ w₂ _ => ?_
        exact Walks.bind walks_tryCheckpoint fun _ w₃ _ => walks_noteJob trivial
    | resume =>
      refine Walks.bind walks_getJob fun job w₁ h₁ => ?_
      split
      · refine Walks.bind (m := modifyJob _) (Walks.update (.pause false)) fun _ w₂ _ => ?_
        exact walks_noteJob trivial
      · exact Walks.pure ()

theorem walks_refreshTurn : Walks seams content (refreshTurn seams content) w := by
  refine Walks.bind walks_readClock fun now w₁ h₁ => ?_
  refine Walks.bind (m := modifyJob _) (Walks.update (.refresh now)) fun _ w₂ h₂ => ?_
  show wp (Prog.handle _ _) _ _ w₂
  rw [wp_handle]
  refine wp_discoverMore (fun n w' h => h) (fun e he => ?_) (fun e w' hitem h => h)
  exact ReflTransGen.single (.look trivial)

/-- The world in which the answer of a fetch is looked at. -/
def afterTake (w : JobWorld) (choice : Nat) (fetch : Fetch)
    (answer : Except DownloadError FetchedRange) : JobWorld :=
  { w with
    own := w.own.taken choice fetch
    trace := w.trace ++ [.ask (.fetched fetch.range fetch.peer (some answer))] }

section Answers

variable {choice : Nat} {fetch : Fetch} {commitment : ResourceCommitment} {range : Range}

/-- A range that failed is pending again if its error is recoverable, and ends the job if not. -/
theorem wp_rangeFailed {answer : Except DownloadError FetchedRange} {e : DownloadError}
    (hended : Ended seams content w choice fetch answer commitment range)
    (hfails : FailsWith seams commitment range answer e) :
    wp (rangeFailed seams fetch.range fetch.peer e)
      (fun _ w' => JobStep seams content w w' ∧
        w'.own.inflight = w.own.inflight.eraseIdx choice)
      (fun halt w' => JobEnds seams content w halt w') (afterTake w choice fetch answer) := by
  simp only [rangeFailed]
  split
  · rename_i hrecoverable
    rw [wp_bind, wp_readClock, wp_bind, wp_modifyJob, wp_bind, wp_noteJob, wp_emit]
    have hstep : JobStep seams content w _ := .fail hended hfails hrecoverable
    refine ⟨by simpa [afterTake, World.note, World.tick] using hstep, ?_⟩
    simp [afterTake, Job.requeue]
  · rename_i hfinal
    cases hfails with
    | rejected hv => exact absurd rfl hfinal
    | refused e =>
      rw [wp_failWith]
      have hends : JobEnds seams content w _ _ := .refused hended (by simpa using hfinal)
      simpa [afterTake, World.note] using hends

/-- A range that came whole is written, marked and checkpointed, in this order. -/
theorem wp_rangeSucceeded {fetched : FetchedRange}
    (hended : Ended seams content w choice fetch (.ok fetched) commitment range)
    (hverified : verifyFetched seams commitment range fetched = .ok) :
    wp (rangeSucceeded seams range fetch.range fetch.peer fetched.bytes)
      (fun _ w' => JobStep seams content w w' ∧
        w'.own.inflight = w.own.inflight.eraseIdx choice)
      (fun halt w' => JobEnds seams content w halt w') (afterTake w choice fetch (.ok fetched)) := by
  rw [rangeSucceeded, wp_bind, wp_orFail]
  refine wp_sinkWriteAt_raises ?_ fun e n he => ?_
  · rw [wp_bind, wp_modifyJob, wp_bind, wp_noteJob, wp_bind, wp_checkpoint]
    refine wp_storeSave_raises ?_ fun e he => ?_
    · rw [wp_bind, wp_getJob, wp_emit]
      have hstep : JobStep seams content w _ := .succeed hended hverified rfl
      refine ⟨by simpa [afterTake, World.note] using hstep, ?_⟩
      simp [afterTake, Job.complete, Job.feed]
    · have hends : JobEnds seams content w _ _ := .unsaved hended hverified rfl he
      simpa [afterTake, World.note] using hends
  · have hends : JobEnds seams content w _ _ := .unwritten (n := n) hended hverified he
    simpa [afterTake, World.note] using hends

end Answers

/-- What a fetch that has ended comes to. -/
theorem walks_handleResult {choice : Nat} {fetch : Fetch}
    {answer : Except DownloadError FetchedRange}
    (hfetch : w.own.inflight[choice]? = some fetch)
    (hanswer : fetchOutcome seams content w.own fetch w.tick = some answer) :
    wp (handleResult seams fetch.range fetch.peer answer)
      (fun _ w' => JobStep seams content w w' ∧
        w'.own.inflight = w.own.inflight.eraseIdx choice)
      (fun halt w' => JobEnds seams content w halt w')
      ({ w with own := { w.own with inflight := w.own.inflight.eraseIdx choice } }.note
        (.ask (.fetched fetch.range fetch.peer (some answer)))) := by
  rw [handleResult, wp_bind, wp_modifyJob, wp_bind, wp_getJob]
  simp only [World.note_own, Job.release_eraseIdx, Job.taken_commitment, Job.taken_ranges]
  split
  · rename_i commitment range hc hr
    have hended : Ended seams content w choice fetch answer commitment range :=
      ⟨hfetch, hanswer, hc, hr⟩
    cases answer with
    | error e => exact wp_rangeFailed hended (.refused e)
    | ok fetched =>
      dsimp only
      cases hv : verifyFetched seams commitment range fetched with
      | assertionFailed => exact .panicked
      | rejected e => exact wp_rangeFailed hended (.rejected hv)
      | ok => exact wp_rangeSucceeded hended hv
  · exact .panicked

section Judged

variable {choice : Nat} {fetch : Fetch} {commitment : ResourceCommitment} {range : Range}
  {Q : Unit → JobWorld → Prop} {E : Halt → JobWorld → Prop}

/-- The end of a fetch of a planned range that is refused. -/
theorem wp_handleResult_refused {e : DownloadError} (hcommitted : w.own.commitment = some commitment)
    (hplanned : w.own.ranges[fetch.range]? = some range)
    (h : wp (rangeFailed seams fetch.range fetch.peer e) Q E (afterTake w choice fetch (.error e))) :
    wp (handleResult seams fetch.range fetch.peer (.error e)) Q E
      ({ w with own := { w.own with inflight := w.own.inflight.eraseIdx choice } }.note
        (.ask (.fetched fetch.range fetch.peer (some (.error e))))) := by
  rw [handleResult, wp_bind, wp_modifyJob, wp_bind, wp_getJob]
  simp only [World.note_own, Job.release_eraseIdx, Job.taken_commitment, Job.taken_ranges]
  rw [hcommitted, hplanned]
  exact h

/-- The end of a fetch of a planned range whose bytes verify. -/
theorem wp_handleResult_served {fetched : FetchedRange}
    (hcommitted : w.own.commitment = some commitment)
    (hplanned : w.own.ranges[fetch.range]? = some range)
    (hverified : verifyFetched seams commitment range fetched = .ok)
    (h : wp (rangeSucceeded seams range fetch.range fetch.peer fetched.bytes) Q E
      (afterTake w choice fetch (.ok fetched))) :
    wp (handleResult seams fetch.range fetch.peer (.ok fetched)) Q E
      ({ w with own := { w.own with inflight := w.own.inflight.eraseIdx choice } }.note
        (.ask (.fetched fetch.range fetch.peer (some (.ok fetched))))) := by
  rw [handleResult, wp_bind, wp_modifyJob, wp_bind, wp_getJob]
  simp only [World.note_own, Job.release_eraseIdx, Job.taken_commitment, Job.taken_ranges]
  rw [hcommitted, hplanned]
  dsimp only
  rw [hverified]
  exact h

end Judged

/-- The end of an outstanding fetch is one step, unless it stops the job. -/
theorem wp_takeTurn_completed (wakeup : Option Nat) (choice : Nat) :
    wp (takeTurn seams content wakeup (.completed choice))
      (fun happened w' => if happened then JobStep seams content w w' ∧
        w.own.inflight.length = w'.own.inflight.length + 1 else w' = w)
      (fun halt w' => JobEnds seams content w halt w') w := by
  rw [takeTurn, wp_bind, wp_read]
  split
  · exact rfl
  rename_i fetch hfetch
  split
  · exact rfl
  rename_i answer hanswer
  rw [wp_bind, wp_modifyJob, wp_bind, wp_noteJob, wp_bind]
  refine (walks_handleResult hfetch hanswer).mono (fun _ w' h => ⟨h.1, ?_⟩) (fun halt w' h => h)
  obtain ⟨hlt, -⟩ := List.getElem?_eq_some_iff.mp hfetch
  rw [h.2, List.length_eraseIdx_of_lt hlt]
  omega

/-- The end of a fetch that is refused, in full. -/
theorem wp_takeTurn_refused {choice : Nat} {fetch : Fetch} {e : DownloadError}
    {commitment : ResourceCommitment} {range : Range} {Q : Bool → JobWorld → Prop}
    {E : Halt → JobWorld → Prop} (wakeup : Option Nat)
    (hended : Ended seams content w choice fetch (.error e) commitment range)
    (hrecoverable : e.isRecoverable = true)
    (h : Q true { w with
      own := (w.own.taken choice fetch).requeue fetch.range fetch.peer (seams.now (w.tick + 1))
      trace := w.trace ++ [
        .ask (.fetched fetch.range fetch.peer (some (.error e))),
        .ask .clock,
        .ask (.record fetch.peer 0 (if e.isTimeout then .timedOut else .failed)),
        .ask (.emit (.rangeFailed fetch.range fetch.peer e.display))] }) :
    wp (takeTurn seams content wakeup (.completed choice)) Q E w := by
  obtain ⟨hlt, -⟩ := List.getElem?_eq_some_iff.mp hended.outstanding
  have hhandle : wp (handleResult seams fetch.range fetch.peer (.error e)) (fun _ => Q true) E
      ({ w with own := { w.own with inflight := w.own.inflight.eraseIdx choice } }.note
        (.ask (.fetched fetch.range fetch.peer (some (.error e))))) := by
    refine wp_handleResult_refused hended.committed hended.planned ?_
    rw [rangeFailed, if_pos hrecoverable, wp_bind, wp_readClock, wp_bind, wp_modifyJob, wp_bind,
      wp_noteJob, wp_emit]
    simpa [afterTake, World.note, World.tick] using h
  rw [takeTurn, wp_bind, wp_read, Nat.mod_eq_of_lt hlt, hended.outstanding]
  dsimp only
  rw [hended.answered]
  dsimp only
  rw [wp_bind, wp_modifyJob, wp_bind, wp_noteJob, wp_bind, Nat.mod_eq_of_lt hlt]
  exact hhandle

/-- Whatever happens in a turn is a step. -/
theorem walks_takeTurn (wakeup : Option Nat) (turn : Turn) :
    Walks seams content (takeTurn seams content wakeup turn) w := by
  cases turn with
  | control message => exact Walks.bind (walks_controlTurn message) fun _ w₁ _ => Walks.pure _
  | wake => exact Walks.bind Walks.read fun w₁ w₂ _ => Walks.pure _
  | refresh =>
    refine Walks.bind Walks.read fun w₁ w₂ h => ?_
    cases h
    split
    · exact Walks.bind walks_refreshTurn fun _ w₃ _ => Walks.pure _
    · exact Walks.pure _
  | completed choice =>
    refine (wp_takeTurn_completed wakeup choice).mono (fun happened w' h => ?_)
      (fun halt w' h => ⟨w, ReflTransGen.refl, h⟩)
    cases happened with
    | true => exact ReflTransGen.single h.1
    | false =>
      obtain rfl : w' = w := h
      exact ReflTransGen.refl

end Walks

end DigDownload
