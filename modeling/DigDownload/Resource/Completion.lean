import DigDownload.Resource.Honest

/-!
# What honest holders bring about

With honest holders, and without a control message, a download from an empty checkpoint
returns the resource, in whatever order its fetches end. There are three exceptions: a
download that was started paused stays paused, a resource without a chunk has no range that
could ever be done, and a build with debug assertions stops at a range that starts after an
empty chunk.
-/

namespace DigDownload

open Prog Slices Tiling

variable {seams : ResourceSeams} {content : ContentId} {key : String} {target : Target}
  {sink : Sink} {store : StateStore} {bytes : Bytes} {commitment : ResourceCommitment}
  {wanted : Nat → Prop} {own : Range → Bytes} {w w' : JobWorld} {turns : List Turn}

/-! ## The promotion of what is proven -/

/-- The hash of a job, if it has one, has read what is staged of a resource. -/
def HashedWhole (total : Nat) (w : JobWorld) : Prop :=
  ∀ hasher, w.own.hasher = some hasher →
    hasher.nextOffset = total ∧ hasher.absorbed = w.sink.staged.take total

/-- The proof of what is staged of a resource is checked, and answered so at some moment. -/
def Checked (seams : ResourceSeams) (commitment : ResourceCommitment) (w : JobWorld)
    (answer : Bool) : Prop :=
  w.own.hasher.isSome = true ∧ ∃ t, seams.verifyInclusion t
    (seams.sha256 (w.sink.staged.take commitment.totalLength)) commitment.inclusionProof
    commitment.root = answer

/-- A resource whose proof is refused is dropped, with what is staged and the checkpoint. -/
structure Dropped (key : String) (w w' : JobWorld) (halt : Halt) : Prop where
  halt_eq : halt = .failed (.verify .root)
  cleared : w'.store.checkpoints key = none
  sink_eq : w'.sink = { w.sink with staged := [] }

/-- The check of the whole resource passes if its proof is accepted, and drops what is staged
if not. -/
theorem wp_backstop_settled (hs : seams.host.Sound) (key : String)
    (hhashed : HashedWhole commitment.totalLength w) :
    wp (backstop seams key commitment)
      (fun _ w' => w'.sink = w.sink ∧
        (w.own.hasher.isSome = true → Checked seams commitment w true))
      (fun halt w' => Dropped key w w' halt ∧ Checked seams commitment w false) w := by
  rw [backstop, wp_bind, wp_getJob]
  cases hhasher : w.own.hasher with
  | none => exact ⟨rfl, fun hsome => by cases hsome⟩
  | some hasher =>
    obtain ⟨hlength, habsorbed⟩ := hhashed hasher hhasher
    have hsome : w.own.hasher.isSome = true := by rw [hhasher]; rfl
    dsimp only
    rw [wp_bind, wp_modifyJob, wp_bind, verifyResourceLeaf, if_neg (not_not.mpr hlength), wp_bind,
      wp_askJob, habsorbed]
    split
    · rename_i hverified
      rw [wp_pure]
      exact ⟨rfl, fun _ => ⟨hsome, _, hverified⟩⟩
    · rename_i hverified
      rw [wp_pure]
      dsimp only
      rw [wp_bind, discardUnverifiableAssembly, wp_bind, wp_ignoringFailure]
      refine wp_storeClear_sound hs ?_
      rw [wp_ignoringFailure]
      refine wp_sinkTruncate_sound hs ?_
      rw [wp_failWith]
      refine ⟨⟨rfl, Function.update_self .., ?_⟩, hsome, _, Bool.not_eq_true _ ▸ hverified⟩
      show w.sink.shorten 0 = _
      rw [Sink.shorten, List.take_zero]

/-- What is staged of the resource is promoted, unless its proof is refused. -/
theorem wp_finish_settled (hs : seams.host.Sound) (key : String)
    (hsup : w.sink.supportsReadBack = true)
    (hlen : commitment.totalLength ≤ w.sink.staged.length)
    (hhashed : HashedWhole commitment.totalLength w) :
    wp (finish seams key commitment)
      (fun n w' => (n = commitment.totalLength ∧
        w'.sink.artifacts = w.sink.artifacts ++ [w.sink.staged.take commitment.totalLength] ∧
        w'.store.checkpoints key = none) ∧
        (w.own.hasher.isSome = true → Checked seams commitment w true))
      (fun halt w' => Dropped key w w' halt ∧ Checked seams commitment w false) w := by
  rw [finish, wp_bind]
  refine (wp_backstop_settled hs key hhashed).mono (fun _ w₁ h₁ => ?_) (fun _ _ h => h)
  obtain ⟨hsink, hchecked⟩ := h₁
  rw [wp_bind, wp_attempt]
  refine wp_promoteVerified_sound hs (hsink ▸ hsup) (hsink ▸ hlen) commitment.fits
    fun w₂ _ _ hsink₂ => ?_
  dsimp only
  rw [wp_bind, wp_ignoringFailure]
  refine wp_storeClear_sound hs ?_
  rw [wp_bind, wp_emit, wp_pure]
  refine ⟨⟨rfl, ?_, Function.update_self ..⟩, hchecked⟩
  show w₂.sink.artifacts = _
  rw [hsink₂, hsink]
  rfl

/-! ## A smooth run -/

/-- Whether a sink can read back does not change. -/
def SameReadBack (w w' : JobWorld) : Prop :=
  w'.sink.supportsReadBack = w.sink.supportsReadBack

instance : Std.Refl SameReadBack := ⟨fun _ => rfl⟩

instance : IsTrans JobWorld SameReadBack := ⟨fun _ _ _ h h' => Eq.trans h' h⟩

theorem closedUnder_sameReadBack {K : Effect ResourceAsk → Prop} : ClosedUnder K SameReadBack := by
  intro w store e _ _
  show (e.onSink w.sink).supportsReadBack = w.sink.supportsReadBack
  unfold Effect.onSink
  split
  · unfold Sink.write
    split <;> rfl
  · rfl
  · rfl
  · rfl

theorem loopRun_readBack (sink : Sink) (store : StateStore) (turns : List Turn) :
    (loopRun seams target sink store turns).2.sink.supportsReadBack = sink.supportsReadBack := by
  have hsetup : Steps SameReadBack (entering seams target) :=
    steps_entering ⟨closedUnder_sameReadBack, fun _ _ _ => rfl⟩
  have hloop : Steps SameReadBack
      (scheduleLoop seams target.content (downloadKey seams target) turns) :=
    steps_scheduleLoop ⟨closedUnder_sameReadBack, fun _ _ => rfl⟩ turns
  exact Eq.trans (hloop _) (hsetup _)

/-- A loop that is over has hashed all that is staged of the resource, if it hashes. -/
theorem loopRun_hashedWhole
    (henter : (entering seams target (JobWorld.start seams target sink store)).1 = .ok commitment)
    (hrun : (loopRun seams target sink store turns).1 = .ok ()) :
    HashedWhole commitment.totalLength (loopRun seams target sink store turns).2 ∧
      (loopRun seams target sink store turns).2.own.hasher.isSome
        = seams.config.verifyWholeResource := by
  have hbooks := (loopStart_spec henter).1
  have hvisits : Visits seams target.content (downloadKey seams target)
      (loopStart seams target sink store) .over (loopRun seams target sink store turns).2 :=
    (wp_scheduleLoop turns).ok hrun
  have hsteps := LoopSteps.steps hvisits
  cases hverify : seams.config.verifyWholeResource with
  | false =>
    have halike : Alike (JobWorld.start seams target sink store)
        (JobWorld.start seams target sink store) := ⟨rfl, rfl, rfl, rfl, rfl⟩
    have hentered : Alike (loopStart seams target sink store)
        (loopStart seams target sink store) := (blind_entering hverify _ _ halike).2
    have hended : Alike (loopRun seams target sink store turns).2
        (loopRun seams target sink store turns).2 := (blind_scheduleLoop turns _ _ hentered).2
    rw [HashedWhole, hended.unhashed]
    refine ⟨fun hasher hsome => ?_, rfl⟩
    cases hsome
  | true =>
    have hhashing : Hashing (loopStart seams target sink store).own.IsDone
        (loopStart seams target sink store) := (wp_entering_hashing hverify target _).ok henter
    obtain ⟨hasher, hsome, hfollows, hdrained⟩ := hsteps.hashing hbooks hhashing
    have hplanned := (hsteps.books hbooks).planned
    have hall : ∀ i < (rangeLens (loopRun seams target sink store turns).2.own.ranges).length,
        (loopRun seams target sink store turns).2.own.IsDone i := by
      intro i hi
      refine Job.isDone_of_allDone hvisits.allDone ?_
      rw [hplanned.states]
      simpa [rangeLens] using hi
    have hlast := planRanges_onlyLastEmpty commitment.layout seams.config.window
    rw [← hplanned.ranges] at hlast
    have hread := hfollows.complete hlast hall hdrained
    rw [hplanned.sum_rangeLens] at hread
    rw [HashedWhole, hsome]
    refine ⟨fun hasher' hsome' => ?_, rfl⟩
    cases hsome'
    exact ⟨hread, hread ▸ hfollows.reads.absorbed⟩

/-- The job enters the loop smoothly, with what it could read back. -/
theorem smooth_loopStart
    (henter : (entering seams target (JobWorld.start seams target sink store)).1 = .ok commitment)
    (hrunning : target.startPaused = false)
    (hknown : (loopStart seams target sink store).own.providers ≠ [])
    (hlocated : ∀ p ∈ (loopStart seams target sink store).own.providers,
      Located seams target.content p)
    (hunwanted : ∀ i < (planRanges commitment.layout seams.config.window).length, ¬ wanted i →
      (loopStart seams target sink store).own.IsDone i)
    (hstaged : Staged own (loopStart seams target sink store)) :
    Smooth seams target.content commitment wanted own (loopStart seams target sink store) := by
  obtain ⟨hbooks, -, hidle, -⟩ := loopStart_spec henter
  exact {
    books := hbooks
    running := hidle.paused.trans hrunning
    known := hknown
    located := hlocated
    healthy := by
      intro peer now
      rw [hidle.tracker]
      rfl
    unfailed := hidle.totalFailures
    issued := by
      rw [hidle.inflight]
      intro fetch hfetch
      cases hfetch
    unwanted := by
      rw [hbooks.planned.ranges]
      exact hunwanted
    staged := hstaged }

/-- A smooth run comes to its promotion, with the bytes of all its ranges staged, as soon as as
many fetches have ended as ranges were missing; until then it waits. -/
theorem download_smooth (ho : Obliging seams target.content commitment wanted own)
    (henter : (entering seams target (JobWorld.start seams target sink store)).1 = .ok commitment)
    (h : Smooth seams target.content commitment wanted own (loopStart seams target sink store))
    (hplan : planRanges commitment.layout seams.config.window ≠ [])
    (hturns : ∀ message, .control message ∉ turns) :
    (∃ w, Smooth seams target.content commitment wanted own w ∧ w.own.allDone = true ∧
        HashedWhole commitment.totalLength w ∧
        w.own.hasher.isSome = seams.config.verifyWholeResource ∧
        w.sink.supportsReadBack = sink.supportsReadBack ∧ w.sink.artifacts = sink.artifacts ∧
        downloadResource seams target turns sink store
          = finish seams (downloadKey seams target) commitment w) ∨
      (downloadResource seams target turns sink store).1 = .error .pending ∧
        turns.countP Turn.isCompletion < (loopStart seams target sink store).own.pendingCount := by
  have hplan' : (loopStart seams target sink store).own.ranges ≠ [] := by
    rw [h.books.planned.ranges]
    exact hplan
  have hloop := wp_scheduleLoop_smooth ho h hplan' hturns (downloadKey seams target)
  rw [downloadResource_of_entered henter]
  cases hrun : (loopRun seams target sink store turns).1 with
  | ok =>
    obtain ⟨hsmooth, hall⟩ := hloop.ok hrun
    obtain ⟨hhashed, hsome⟩ := loopRun_hashedWhole henter hrun
    exact Or.inl ⟨_, hsmooth, hall, hhashed, hsome, loopRun_readBack sink store turns,
      loopRun_artifacts sink store turns, entered_of_scheduled hrun⟩
  | error halt =>
    obtain ⟨rfl, hcount⟩ := hloop.error hrun
    exact Or.inr ⟨by rw [entered_of_not_scheduled hrun], hcount⟩

/-! ## Honest completion -/

/-- The download returns the length of the resource, has promoted the resource, and has
cleared the checkpoint. -/
structure Delivers (seams : ResourceSeams) (target : Target) (turns : List Turn) (sink : Sink)
    (store : StateStore) (bytes : Bytes) : Prop where
  returned : (downloadResource seams target turns sink store).1 = .ok bytes.length
  promoted : (downloadResource seams target turns sink store).2.sink.artifacts
    = sink.artifacts ++ [bytes]
  cleared : (downloadResource seams target turns sink store).2.store.checkpoints
    (downloadKey seams target) = none

/-- Without a control message the download never fails, and it delivers the resource once `n`
fetches have ended, whichever they are and whatever happens in between. -/
def CompletesAfter (n : Nat) (seams : ResourceSeams) (target : Target) (sink : Sink)
    (store : StateStore) (bytes : Bytes) : Prop :=
  ∀ turns : List Turn, (∀ message, .control message ∉ turns) →
    (∀ halt, (downloadResource seams target turns sink store).1 = .error halt → halt = .pending) ∧
    (n ≤ turns.countP Turn.isCompletion → Delivers seams target turns sink store bytes)

/-- A download that has staged the resource delivers it. -/
theorem delivers_of_staged (hs : seams.host.Sound) (hsup : sink.supportsReadBack = true)
    (hres : IsResource seams target.content bytes commitment)
    (hlen : commitment.totalLength ≤ w.sink.staged.length)
    (htake : w.sink.staged.take commitment.totalLength = bytes)
    (hhashed : HashedWhole commitment.totalLength w)
    (hsome : w.own.hasher.isSome = seams.config.verifyWholeResource)
    (hsup' : w.sink.supportsReadBack = sink.supportsReadBack)
    (hartifacts : w.sink.artifacts = sink.artifacts)
    (hrun : downloadResource seams target turns sink store
      = finish seams (downloadKey seams target) commitment w) :
    Delivers seams target turns sink store bytes := by
  have hproof : ¬ Checked seams commitment w false := by
    rintro ⟨hhash, t, hrefused⟩
    rw [htake, hres.proven (hsome ▸ hhash) t] at hrefused
    cases hrefused
  obtain ⟨n, hn, rfl, hpromoted, hcleared⟩ :=
    ((wp_finish_settled hs _ (hsup'.trans hsup) hlen hhashed).mono (fun _ _ h => h.1)
      fun _ _ h => hproof h.2).exists_ok
  rw [htake, hartifacts] at hpromoted
  refine ⟨?_, ?_, ?_⟩
  · rw [hrun, hn, hres.length_eq]
  · rw [hrun, hpromoted]
  · rw [hrun, hcleared]

/-- How a job enters the loop where nothing stands in its way. -/
theorem loopStart_honest {resume : DownloadState}
    (hw : Favourable seams target sink store bytes commitment)
    (hres : IsResource seams target.content bytes commitment)
    (hresume : store.resumed (downloadKey seams target) = resume)
    (hasserts : ∀ adopted, adopted = commitment ∨ resume.Restores seams adopted →
      ∀ r ∈ planRanges adopted.layout seams.config.window,
      r.index ∈ resume.doneRanges → seams.debugAssertions = true →
      FollowsBytes adopted.layout.chunkLens r.chunkStart) :
    ∃ adopted, (entering seams target (JobWorld.start seams target sink store)).1 = .ok adopted ∧
      (adopted = commitment ∨ resume.Restores seams adopted) ∧
      (loopStart seams target sink store).sink
        = resume.keptStaging adopted.layout.chunkLens sink ∧
      (loopStart seams target sink store).own.providers ≠ [] ∧
      (∀ p ∈ (loopStart seams target sink store).own.providers, Located seams target.content p) ∧
      ∀ i range, (planRanges adopted.layout seams.config.window)[i]? = some range →
        ((loopStart seams target sink store).own.IsDone i ↔
          i ∈ (resume.kept adopted.layout.chunkLens).doneRanges ∧
            ReadsWhole seams.config.verifyWholeResource (loopStart seams target sink store).sink
              range) :=
  (wp_entering_truthful hw hres hresume hasserts).exists_ok

/-- A range that is done is one of the plan. -/
theorem Books.exists_range {config : DownloadConfig} {job : Job}
    (h : Books config commitment job) {i : Nat} (hdone : job.IsDone i) :
    ∃ range, (planRanges commitment.layout config.window)[i]? = some range := by
  obtain ⟨hlt, -⟩ := List.getElem?_eq_some_iff.mp hdone
  rw [h.planned.states, h.planned.ranges] at hlt
  exact ⟨_, List.getElem?_eq_getElem hlt⟩

/-! ### With what was staged before -/

/-- A range is taken from the staging area: the checkpoint has it as done, and all of it can
be read back. -/
def ReadsBack (hashes : Bool) (resume : DownloadState) (sink : Sink) (range : Range) : Prop :=
  range.index ∈ resume.doneRanges ∧ ReadsWhole hashes sink range

instance {hashes : Bool} {resume : DownloadState} {range : Range} :
    Decidable (ReadsBack hashes resume sink range) :=
  inferInstanceAs (Decidable (_ ∧ _ ∧ _))

/-- The bytes that a range of a resource comes to: those that are read back, if it is, and
those of the resource otherwise. -/
def resumedBytes (hashes : Bool) (resume : DownloadState) (sink : Sink) (bytes : Bytes)
    (range : Range) : Bytes :=
  if ReadsBack hashes resume sink range then slice sink.staged range.offset range.length
  else bytesOf bytes range

/-- What is read back of a plan are the bytes of the resource. -/
def Intact (hashes : Bool) (resume : DownloadState) (sink : Sink) (bytes : Bytes)
    (ranges : List Range) : Prop :=
  ∀ range ∈ ranges, ReadsBack hashes resume sink range →
    slice sink.staged range.offset range.length = bytesOf bytes range

instance {hashes : Bool} {resume : DownloadState} {ranges : List Range} :
    Decidable (Intact hashes resume sink bytes ranges) :=
  inferInstanceAs (Decidable (∀ range ∈ ranges, _ → _ = _))

/-- A job that enters the loop under a commitment with holders that serve it, and with what
it has read back of a staging area. -/
structure Prepared (seams : ResourceSeams) (target : Target) (sink : Sink) (store : StateStore)
    (bytes : Bytes) (resume : DownloadState) (staging : Sink) (adopted : ResourceCommitment) :
    Prop where
  entered : (entering seams target (JobWorld.start seams target sink store)).1 = .ok adopted
  staging_eq : (loopStart seams target sink store).sink = staging
  known : (loopStart seams target sink store).own.providers ≠ []
  located : ∀ p ∈ (loopStart seams target sink store).own.providers, Located seams target.content p
  done : ∀ i range, (planRanges adopted.layout seams.config.window)[i]? = some range →
    ((loopStart seams target sink store).own.IsDone i ↔
      ReadsBack seams.config.verifyWholeResource resume staging range)
  serves : ∀ p, Located seams target.content p →
    ServesRanges seams target.content adopted (fun _ => True) (bytesOf bytes) p
  fits : adopted.totalLength ≤ bytes.length

section Prepared

variable {resume : DownloadState} {staging : Sink} {adopted : ResourceCommitment}
  (hw : Favourable seams target sink store bytes commitment)
  (hres : IsResource seams target.content bytes commitment)
  (h : Prepared seams target sink store bytes resume staging adopted)

include hw hres h in
/-- Every range that is not read back is served. -/
theorem Prepared.obliging :
    Obliging seams target.content adopted
      (fun i => ¬ (loopStart seams target sink store).own.IsDone i)
      (resumedBytes seams.config.verifyWholeResource resume staging bytes) where
  room := hw.room
  orders := hw.orders
  chooses := hw.chooses
  host := hw.host
  item := hres.item
  serves p hp t range req hplan hmissing hreq := by
    obtain ⟨i, hi⟩ := List.mem_iff_getElem?.mp hplan
    obtain ⟨-, -, -, hindex⟩ := planRanges_span hi
    rw [hindex, h.done i range hi] at hmissing
    rw [resumedBytes, if_neg hmissing]
    exact h.serves p hp t range req hplan trivial hreq
  length range hplan := by
    rw [resumedBytes]
    split
    · rename_i hback
      exact length_slice_of_le hback.2.2
    · exact length_bytesOf h.fits hplan

include h in
/-- The job enters the loop smoothly, with what it has read back. -/
theorem Prepared.smooth (hrunning : target.startPaused = false) :
    Smooth seams target.content adopted
      (fun i => ¬ (loopStart seams target sink store).own.IsDone i)
      (resumedBytes seams.config.verifyWholeResource resume staging bytes)
      (loopStart seams target sink store) := by
  refine smooth_loopStart h.entered hrunning h.known h.located (fun i _ hi => not_not.mp hi)
    fun i range hi hrange => ?_
  rw [(loopStart_spec h.entered).1.planned.ranges] at hrange
  rw [h.staging_eq, resumedBytes, if_pos ((h.done i range hrange).mp hi)]

include hw hres h in
/-- The run comes to its promotion once a fetch has ended for each range of the plan; until
then it waits. -/
theorem Prepared.download (hrunning : target.startPaused = false)
    (hlens : adopted.layout.chunkLens ≠ []) (hturns : ∀ message, .control message ∉ turns) :
    (∃ w, Smooth seams target.content adopted
          (fun i => ¬ (loopStart seams target sink store).own.IsDone i)
          (resumedBytes seams.config.verifyWholeResource resume staging bytes) w ∧
        w.own.allDone = true ∧ HashedWhole adopted.totalLength w ∧
        w.own.hasher.isSome = seams.config.verifyWholeResource ∧
        w.sink.supportsReadBack = sink.supportsReadBack ∧ w.sink.artifacts = sink.artifacts ∧
        downloadResource seams target turns sink store
          = finish seams (downloadKey seams target) adopted w) ∨
      (downloadResource seams target turns sink store).1 = .error .pending ∧
        turns.countP Turn.isCompletion < (planRanges adopted.layout seams.config.window).length := by
  have hsmooth := h.smooth hrunning
  have hplan : planRanges adopted.layout seams.config.window ≠ [] := fun hnil =>
    hlens (planRanges_eq_nil.mp hnil)
  cases download_smooth (h.obliging hw hres) h.entered hsmooth hplan hturns with
  | inl hended => exact Or.inl hended
  | inr hwaiting =>
    obtain ⟨hpending, hcount⟩ := hwaiting
    refine Or.inr ⟨hpending, Nat.lt_of_lt_of_le hcount ?_⟩
    rw [← hsmooth.books.planned.ranges, ← hsmooth.books.planned.states]
    exact List.countP_le_length

end Prepared

section Resumed

variable {resume : DownloadState}
  (hw : Favourable seams target sink store bytes commitment)
  (hres : IsResource seams target.content bytes commitment)
  (hresume : store.resumed (downloadKey seams target) = resume)
  (hagrees : resume.AgreesWith commitment)
include hw hres hresume hagrees

/-- Over a checkpoint that agrees with the resource, the job enters the loop with what it reads
back of what was staged. -/
theorem loopStart_truthful
    (hasserts : ∀ r ∈ planRanges commitment.layout seams.config.window,
      r.index ∈ resume.doneRanges → seams.debugAssertions = true →
      FollowsBytes commitment.layout.chunkLens r.chunkStart) :
    (entering seams target (JobWorld.start seams target sink store)).1 = .ok commitment ∧
      (loopStart seams target sink store).sink = sink ∧
      (loopStart seams target sink store).own.providers ≠ [] ∧
      (∀ p ∈ (loopStart seams target sink store).own.providers, Located seams target.content p) ∧
      ∀ i range, (planRanges commitment.layout seams.config.window)[i]? = some range →
        ((loopStart seams target sink store).own.IsDone i ↔
          ReadsBack seams.config.verifyWholeResource resume sink range) := by
  have hsame : ∀ {adopted}, adopted = commitment ∨ resume.Restores seams adopted →
      adopted = commitment := fun h => h.elim id hagrees.eq_of_restores
  obtain ⟨adopted, henter, hadopted, hsink, hknown, hlocated, hdone⟩ :=
    loopStart_honest hw hres hresume fun adopted h => hsame h ▸ hasserts
  obtain rfl := hsame hadopted
  rw [hagrees.keptStaging] at hsink
  refine ⟨henter, hsink, hknown, hlocated, fun i range hrange => ?_⟩
  obtain ⟨-, -, -, hindex⟩ := planRanges_span hrange
  rw [hdone i range hrange, hsink, hagrees.kept, ReadsBack, hindex]

theorem prepared_resumed (hasserts : AssertionsHold seams commitment) :
    Prepared seams target sink store bytes resume sink commitment := by
  obtain ⟨henter, hsink, hknown, hlocated, hdone⟩ :=
    loopStart_truthful hw hres hresume hagrees fun r hr _ hdebug => hasserts hdebug r hr
  exact {
    entered := henter
    staging_eq := hsink
    known := hknown
    located := hlocated
    done := hdone
    serves := fun p hp => (hw.honest p hp).servesRanges (hw.honest p hp).unopposed
      hres.length_eq.ge hasserts
    fits := hres.length_eq.ge }

/-- A download that reads back bytes of the resource only, if any, delivers the resource. -/
theorem completesAfter_of_intact (hasserts : AssertionsHold seams commitment)
    (hrunning : target.startPaused = false) (hlens : commitment.layout.chunkLens ≠ [])
    (hintact : Intact seams.config.verifyWholeResource resume sink bytes
      (planRanges commitment.layout seams.config.window)) :
    CompletesAfter (planRanges commitment.layout seams.config.window).length seams target sink
      store bytes := by
  intro turns hturns
  have hprepared := prepared_resumed hw hres hresume hagrees hasserts
  have ho := hprepared.obliging hw hres
  have hown : ∀ range ∈ planRanges commitment.layout seams.config.window,
      resumedBytes seams.config.verifyWholeResource resume sink bytes range
        = bytesOf bytes range := by
    intro range hrange
    rw [resumedBytes]
    split
    · rename_i hback
      exact hintact range hrange hback
    · rfl
  cases hprepared.download hw hres hrunning hlens hturns with
  | inl hended =>
    obtain ⟨w, hsmooth, hall, hhashed, hsome, hsup, hartifacts, hrun⟩ := hended
    have htake := hsmooth.take_staged ho hall
    rw [ResourceHasher.planBytes, List.map_congr_left hown, ← ResourceHasher.planBytes,
      planBytes_bytesOf hres.length_eq] at htake
    have hdelivers := delivers_of_staged hw.host hw.readBack hres (hsmooth.total_le ho hall) htake
      hhashed hsome hsup hartifacts hrun
    refine ⟨fun halt hhalt => ?_, fun _ => hdelivers⟩
    rw [hdelivers.returned] at hhalt
    cases hhalt
  | inr hwaiting =>
    obtain ⟨hpending, hcount⟩ := hwaiting
    refine ⟨fun halt hhalt => ?_, fun henough => absurd hcount (Nat.not_lt_of_le henough)⟩
    rw [hpending] at hhalt
    cases hhalt
    rfl

end Resumed

/-- The checkpoint that a download starts with under a key that has none. -/
theorem resumed_of_none {key : String} (hempty : store.checkpoints key = none) :
    store.resumed key = .new key := by
  rw [StateStore.resumed, hempty]
  rfl

/-- A job with an empty checkpoint has nothing done. -/
theorem loopStart_fresh (hw : Favourable seams target sink store bytes commitment)
    (hres : IsResource seams target.content bytes commitment)
    (hempty : store.checkpoints (downloadKey seams target) = none) :
    (entering seams target (JobWorld.start seams target sink store)).1 = .ok commitment ∧
      ∀ i, ¬ (loopStart seams target sink store).own.IsDone i := by
  obtain ⟨henter, -, -, -, hdone⟩ :=
    loopStart_truthful hw hres (resumed_of_none hempty) (Or.inl rfl) (by simp [DownloadState.new])
  refine ⟨henter, fun i hi => ?_⟩
  obtain ⟨range, hrange⟩ := (loopStart_spec henter).1.exists_range hi
  obtain ⟨hmem, -⟩ := (hdone i range hrange).mp hi
  cases hmem

/-- From an empty checkpoint nothing is read back. -/
theorem intact_of_fresh {hashes : Bool} {key : String} {ranges : List Range} :
    Intact hashes (.new key) sink bytes ranges := by
  intro range _ hback
  cases hback.1

/-! ### Without progress -/

/-- No fetch ends while none is outstanding. -/
theorem scheduleFrom_idle (hidle : w.own.inflight = []) (n : Nat) (wakeup : Option Nat) :
    scheduleFrom seams content key (List.replicate n (.completed 0)) wakeup w
      = (.error .pending, w) := by
  induction n with
  | zero => rfl
  | succ n ih =>
    have hturn : takeTurn seams content wakeup (.completed 0) w = (.ok false, w) := by
      have hread : (Prog.read : JobM JobWorld) w = (.ok w, w) := rfl
      rw [takeTurn, bind_of_ok hread, hidle]
      rfl
    rw [List.replicate_succ, scheduleFrom, bind_of_ok hturn, if_neg Bool.false_ne_true, ih]

/-- A download that is paused and has something missing stays where it is. -/
theorem scheduleLoop_paused (hpaused : w.own.paused = true) (hidle : w.own.inflight = [])
    (hmissing : w.own.allDone = false) (n : Nat) (h : w.own.totalFailures = 0) :
    (scheduleLoop seams content key (List.replicate n (.completed 0)) w).1 = .error .pending := by
  have hhead : loopHead seams content key w = (.ok (.waiting none), w) := by
    have hget : getJob w = (.ok w.own, w) := rfl
    rw [loopHead, bind_of_ok (fillUnlessPaused_paused hpaused), bind_of_ok hget, hmissing,
      if_neg (fun hall => Bool.false_ne_true hall.1), if_neg (by rw [h]; exact Nat.not_lt_zero _),
      hpaused, if_neg (fun hnone => by cases hnone.1)]
    rfl
  have hsettled : settledHead seams content key w = (.ok (.waiting none), w) :=
    settledHead_of_head (by simp) hhead
  rw [scheduleLoop, bind_of_ok hsettled]
  dsimp only
  rw [scheduleFrom_idle hidle]

theorem Job.allDone_eq_false {job : Job} (h : ∀ i, ¬ job.IsDone i) : job.allDone = false := by
  cases hall : job.allDone with
  | false => rfl
  | true =>
    have hne : job.rangeState ≠ [] := by
      intro hnil
      rw [Job.allDone, hnil] at hall
      cases hall
    exact absurd (Job.isDone_of_allDone hall (List.length_pos_iff.mpr hne)) (h 0)

/-- A loop that is over had ranges, and each of them passed its check. -/
theorem verified_of_over
    (hbooks : Books seams.config commitment (loopStart seams target sink store).own)
    (hfresh : ∀ i, ¬ (loopStart seams target sink store).own.IsDone i)
    (hrun : (loopRun seams target sink store turns).1 = .ok ()) :
    planRanges commitment.layout seams.config.window ≠ [] ∧ AssertionsHold seams commitment := by
  have hvisits : Visits seams target.content (downloadKey seams target)
      (loopStart seams target sink store) .over (loopRun seams target sink store turns).2 :=
    (wp_scheduleLoop turns).ok hrun
  have hsteps := LoopSteps.steps hvisits
  have hall := hvisits.allDone
  have hbooks' := hsteps.books hbooks
  have hsourced : Sourced seams commitment (loopRun seams target sink store turns).2 :=
    hsteps.sourced hbooks fun i _ hi _ => absurd hi (hfresh i)
  constructor
  · intro hnil
    have hstates := hbooks'.planned.states
    rw [hbooks'.planned.ranges, hnil] at hstates
    rw [Job.allDone, List.eq_nil_of_length_eq_zero hstates] at hall
    cases hall
  · intro hdebug range hrange
    obtain ⟨i, hi⟩ := List.mem_iff_getElem?.mp hrange
    obtain ⟨hlt, -⟩ := List.getElem?_eq_some_iff.mp hi
    rw [← hbooks'.planned.ranges] at hi hlt
    obtain ⟨fetched, -, hverified, -⟩ :=
      hsourced i range (Job.isDone_of_allDone hall (hbooks'.planned.states ▸ hlt)) hi
    exact (verifyRange_eq_ok.mp (length_of_verifyFetched hverified).2).2.2.2 hdebug

/-- Where nothing stands in its way, a download of a resource from an empty checkpoint
delivers it once as many fetches have ended as it has ranges, if and only if the resource
has a chunk, the download was not started paused, and no assertion of its build fails. -/
theorem completesAfter_iff (hw : Favourable seams target sink store bytes commitment)
    (hres : IsResource seams target.content bytes commitment)
    (hempty : store.checkpoints (downloadKey seams target) = none) :
    CompletesAfter (planRanges commitment.layout seams.config.window).length seams target sink
        store bytes ↔
      commitment.layout.chunkLens ≠ [] ∧ target.startPaused = false ∧
        AssertionsHold seams commitment := by
  obtain ⟨henter, hfresh⟩ := loopStart_fresh hw hres hempty
  obtain ⟨hbooks, -, hidle, -⟩ := loopStart_spec henter
  constructor
  · intro hcompletes
    -- as many completions as there are ranges, and nothing else
    have hturns : ∀ message, Turn.control message ∉ List.replicate
        (planRanges commitment.layout seams.config.window).length (Turn.completed 0) := by
      intro message hmem
      cases (List.mem_replicate.mp hmem).2
    have hdelivers := (hcompletes _ hturns).2 (by simp [List.countP_replicate, Turn.isCompletion])
    have hreturned := hdelivers.returned
    rw [downloadResource_of_entered henter] at hreturned
    have hrun : (loopRun seams target sink store (List.replicate
        (planRanges commitment.layout seams.config.window).length (.completed 0))).1 = .ok () := by
      cases hrun : (loopRun seams target sink store (List.replicate
          (planRanges commitment.layout seams.config.window).length (.completed 0))).1 with
      | ok => rfl
      | error halt =>
        rw [entered_of_not_scheduled hrun] at hreturned
        cases hreturned
    obtain ⟨hplan, hasserts⟩ := verified_of_over hbooks hfresh hrun
    refine ⟨fun hnil => hplan (planRanges_eq_nil.mpr hnil), ?_, hasserts⟩
    cases hpaused : target.startPaused with
    | false => rfl
    | true =>
      have hpending : (scheduleLoop seams target.content (downloadKey seams target)
          (List.replicate (planRanges commitment.layout seams.config.window).length (.completed 0))
          (loopStart seams target sink store)).1 = .error .pending :=
        scheduleLoop_paused (hidle.paused.trans hpaused) hidle.inflight
          (Job.allDone_eq_false hfresh) _ hidle.totalFailures
      have hrun' := hrun
      rw [loopRun, hpending] at hrun'
      cases hrun'
  · rintro ⟨hlens, hrunning, hasserts⟩
    exact completesAfter_of_intact hw hres (resumed_of_none hempty) (Or.inl rfl) hasserts
      hrunning hlens intact_of_fresh

theorem honestSeams_small : IsResource (honestSeams smallResource smallCommitment) smallTarget.content
    smallResource smallCommitment where
  root := ⟨_, rfl, rfl⟩
  accepted _ := rfl
  proven _ _ := by simp [honestSeams, smallResourceSeams, smallCommitment]

/-- The small resource is delivered once a fetch has ended for each of its ranges. -/
theorem completesAfter_small :
    CompletesAfter (planRanges smallCommitment.layout 2).length
      (honestSeams smallResource smallCommitment) smallTarget emptySink emptyStore smallResource :=
  (completesAfter_iff (honestSeams_favourable rfl rfl rfl rfl emptyStore smallResourceSeams.now)
    honestSeams_small rfl).mpr
    ⟨by decide, rfl, fun h => by cases h⟩

/-- The commitment to the empty resource, which has no chunks. -/
def nothingCommitment : ResourceCommitment where
  layout := { chunkLens := [], offsets := [0], offsets_eq := by decide, fits := by decide }
  totalLength := 0
  root := some (hexOf smallRoot)
  inclusionProof := some "proof"
  total := by decide

theorem honestSeams_nothing : IsResource (honestSeams [] nothingCommitment) smallTarget.content []
    nothingCommitment where
  root := ⟨_, rfl, rfl⟩
  accepted _ := rfl
  proven _ _ := by simp [honestSeams, smallResourceSeams, nothingCommitment]

/-- The empty resource is accepted, its only holder is honest, and the download of it gives
up without a fetch that is outstanding. -/
theorem gives_up_on_nothing :
    Favourable (honestSeams [] nothingCommitment) smallTarget emptySink emptyStore [] nothingCommitment ∧
      IsResource (honestSeams [] nothingCommitment) smallTarget.content [] nothingCommitment ∧
      (downloadResource (honestSeams [] nothingCommitment) smallTarget [] emptySink emptyStore).1
        = .error (.failed (.noProviders 0)) ∧
      ¬ CompletesAfter (planRanges nothingCommitment.layout 2).length (honestSeams [] nothingCommitment)
        smallTarget emptySink emptyStore [] := by
  have hgivesUp : (downloadResource (honestSeams [] nothingCommitment) smallTarget [] emptySink
    emptyStore).1
      = .error (.failed (.noProviders 0)) := by decide +kernel
  refine ⟨honestSeams_favourable rfl rfl rfl rfl emptyStore smallResourceSeams.now,
    honestSeams_nothing, hgivesUp, ?_⟩
  intro hcompletes
  cases (hcompletes [] (by simp)).1 _ hgivesUp

end DigDownload
