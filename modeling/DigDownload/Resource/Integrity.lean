import DigDownload.Resource.Checkpoints
import DigDownload.Resource.Hashing

/-!
# What a download promotes

With the check of the whole resource enabled, the hash follows the staging area: it was fed
exactly the ranges that are done, from their answers or from the bytes read back, and it
has read nothing that is not staged. So what a download promotes is what was hashed, and
what was hashed is what the proof was accepted for.
-/

namespace DigDownload

open Prog Past Relation Tiling Slices

/-! ## The hash of a job -/

/-- The range of an index is done. -/
def Job.IsDone (job : Job) (i : Nat) : Prop := job.rangeState[i]? = some .done

/-- The hash of a job was fed the ranges that `fed` names, and holds nothing that it could
absorb. -/
def Hashing (fed : Nat → Prop) (w : JobWorld) : Prop :=
  ∃ hasher, w.own.hasher = some hasher ∧
    hasher.Follows (rangeLens w.own.ranges) fed w.sink.staged ∧
    hasher.pending.lookup hasher.nextOffset = none

section Hashing

variable {seams : ResourceSeams} {content : ContentId} {key : String}
  {commitment : ResourceCommitment} {fed fed' : Nat → Prop} {w w' : JobWorld}

/-- The hash depends on the ranges, on what was fed and on the staging area only. -/
theorem Hashing.keep (h : Hashing fed w) (hhasher : w'.own.hasher = w.own.hasher)
    (hranges : w'.own.ranges = w.own.ranges) (hsink : w'.sink = w.sink)
    (hfed : ∀ i < w.own.ranges.length, (fed' i ↔ fed i)) : Hashing fed' w' := by
  obtain ⟨hasher, hsome, hfollows, hdrained⟩ := h
  refine ⟨hasher, hhasher.trans hsome, ?_, hdrained⟩
  rw [hranges, hsink]
  exact hfollows.congr fun i hi => hfed i (by simpa [rangeLens] using hi)

/-- A range of a plan that is fed to the hash. -/
theorem Hashing.feed (h : Hashing fed w) {window : Nat} {range : Range} {bytes : Bytes}
    (hranges : w.own.ranges = planRanges commitment.layout window)
    (hrange : w.own.ranges[range.index]? = some range) (hunfed : ¬ fed range.index)
    (hlen : bytes.length = range.length)
    (hbytes : bytes = slice w.sink.staged range.offset bytes.length)
    (hhasher : w'.own.hasher = w.own.hasher.map (·.feed range.offset bytes))
    (hranges' : w'.own.ranges = w.own.ranges) (hsink : w'.sink = w.sink)
    (hfed : ∀ i < w.own.ranges.length, (fed' i ↔ fed i ∨ i = range.index)) : Hashing fed' w' := by
  obtain ⟨hasher, hsome, hfollows, -⟩ := h
  rw [hranges] at hrange hfollows
  obtain ⟨hi, hoffset, hlens, -⟩ := planRanges_span hrange
  have hlast := planRanges_onlyLastEmpty commitment.layout window
  have hfits : (rangeLens (planRanges commitment.layout window)).sum ≤ u64Max := by
    rw [planRanges_sum, commitment.total]
    exact commitment.fits
  rw [hoffset] at hbytes
  obtain ⟨hfollows', hdrained⟩ := hfollows.feed hlast hfits hi hunfed (hlen.trans hlens) hbytes
  refine ⟨hasher.feed range.offset bytes, by rw [hhasher, hsome]; rfl, ?_,
    by rw [hoffset]; exact hdrained⟩
  rw [hranges', hranges, hsink, hoffset]
  exact hfollows'.congr fun i hi => hfed i (by simpa [rangeLens, hranges] using hi)

/-- What was written is what is staged there. -/
theorem Sink.slice_write (s : Sink) (offset : Nat) (bytes : Bytes) :
    slice (s.write offset bytes).staged offset bytes.length = bytes := by
  unfold Sink.write
  split
  · rename_i hempty
    rw [hempty]
    rfl
  · exact slice_overwrite_self 0 s.staged offset bytes

/-- A range of a plan that is written before it is fed. -/
theorem Hashing.write (h : Hashing fed w) {window : Nat} {range : Range} {bytes : Bytes}
    (hranges : w.own.ranges = planRanges commitment.layout window)
    (hrange : w.own.ranges[range.index]? = some range) (hunfed : ¬ fed range.index)
    (hlen : bytes.length = range.length) :
    Hashing fed { w with sink := w.sink.write range.offset bytes } := by
  obtain ⟨hasher, hsome, hfollows, hdrained⟩ := h
  refine ⟨hasher, hsome, ?_, hdrained⟩
  rw [hranges] at hrange hfollows
  obtain ⟨hi, hoffset, hlens, -⟩ := planRanges_span hrange
  dsimp only
  rw [hranges]
  unfold Sink.write
  split
  · exact hfollows
  · rw [hoffset]
    exact hfollows.write hi hunfed (hlen.trans hlens)

/-- One step keeps the hash to the ranges that are done. -/
theorem JobStep.hashing (hstep : JobStep seams content w w')
    (hb : Books seams.config commitment w.own) (h : Hashing w.own.IsDone w) :
    Hashing w'.own.IsDone w' := by
  cases hstep with
  | look => exact h.keep rfl rfl rfl fun _ _ => Iff.rfl
  | learn => exact h.keep rfl rfl rfl fun _ _ => Iff.rfl
  | refresh => exact h.keep rfl rfl rfl fun _ _ => Iff.rfl
  | relocate => exact h.keep rfl rfl rfl fun _ _ => Iff.rfl
  | relocated => exact h.keep rfl rfl rfl fun _ _ => Iff.rfl
  | pause => exact h.keep rfl rfl rfl fun _ _ => Iff.rfl
  | save => exact h.keep rfl rfl rfl fun _ _ => Iff.rfl
  | unsaved => exact h.keep rfl rfl rfl fun _ _ => Iff.rfl
  | issue _ _ hpending =>
    have hstate := Job.nextPending_eq_some hpending
    exact h.keep rfl rfl rfl fun i _ => Job.done_set_iff (by simp [hstate]) (by simp) i
  | @succeed choice fetch fetched commitment' range job hended hverified hjob =>
    have hstate := hb.inFlight hended.outstanding
    have hindex : range.index = fetch.range := hb.planned.index_eq hended.planned
    have hrange : w.own.ranges[range.index]? = some range := hindex ▸ hended.planned
    have hunfed : ¬ w.own.IsDone range.index := by
      rw [Job.IsDone, hindex, hstate]
      simp
    have hlen : fetched.bytes.length = range.length := by
      unfold verifyFetched at hverified
      split at hverified
      · cases hverified
      · exact length_of_verifyRange hverified
    have hwritten := h.write hb.planned.ranges hrange hunfed hlen
    subst hjob
    refine hwritten.feed hb.planned.ranges hrange hunfed hlen
      (Sink.slice_write ..).symm ?_ ?_ rfl fun i _ => ?_
    · simp [Job.complete, Job.feed]
    · simp [Job.complete, Job.feed]
    · obtain ⟨hlt, -⟩ := List.getElem?_eq_some_iff.mp hstate
      simp only [Job.IsDone, Job.complete, Job.feed, Job.taken_rangeState, ← hindex]
      by_cases hi : range.index = i
      · subst hi
        simp [hindex, hlt]
      · rw [List.getElem?_set_ne hi]
        exact ⟨Or.inl, fun h => h.resolve_right fun heq => hi heq.symm⟩
  | @fail choice fetch answer commitment' range e hended hfails hrecoverable =>
    have hstate := hb.inFlight hended.outstanding
    refine h.keep (by simp [Job.requeue]) (by simp [Job.requeue]) rfl fun i _ => ?_
    simp only [Job.IsDone, Job.requeue, Job.taken_rangeState]
    exact Job.done_set_iff (by simp [hstate]) (by simp) i

theorem JobSteps.hashing (hsteps : JobSteps seams content w w')
    (hb : Books seams.config commitment w.own) (h : Hashing w.own.IsDone w) :
    Hashing w'.own.IsDone w' := by
  induction hsteps with
  | refl => exact h
  | tail hsteps hstep ih => exact hstep.hashing (JobSteps.books hsteps hb) ih

/-! ## Reading back -/

/-- What the hash was fed while some of the done ranges are still to be read back. -/
def Job.IsReadBack (job : Job) (rest : List Range) (i : Nat) : Prop :=
  job.IsDone i ∧ ∀ range ∈ rest, range.index ≠ i

/-- Reading back feeds the hash the ranges that stay done. -/
theorem wp_rehydrate_hashing (resumed : List Range) :
    ∀ w : JobWorld, w.own.ranges = planRanges commitment.layout seams.config.window →
      (∀ r ∈ resumed, w.own.ranges[r.index]? = some r ∧ w.own.IsDone r.index) →
      (resumed.map (·.index)).Nodup → Hashing (w.own.IsReadBack resumed) w →
      wp (rehydrateResumedRanges seams commitment resumed)
        (fun _ w' => Hashing w'.own.IsDone w') (fun _ _ => True) w := by
  induction resumed with
  | nil =>
    intro w _ _ _ h
    exact h.keep rfl rfl rfl fun i _ => by simp [Job.IsReadBack]
  | cons range resumed ih =>
    intro w hranges hresumed hnodup h
    obtain ⟨hfirst, hrest⟩ := List.forall_mem_cons.mp hresumed
    rw [List.map_cons, List.nodup_cons] at hnodup
    have hother : ∀ r ∈ resumed, range.index ≠ r.index := fun r hr heq =>
      hnodup.1 (heq ▸ List.mem_map_of_mem hr)
    obtain ⟨hlt, -⟩ := List.getElem?_eq_some_iff.mp hfirst.2
    -- the range is sent back to the queue
    have hback : ∀ w₁ : JobWorld, w₁.own = w.own → w₁.sink = w.sink →
        wp (modifyJob (·.unresume range) >>= fun _ =>
            rehydrateResumedRanges seams commitment resumed)
          (fun _ w' => Hashing w'.own.IsDone w') (fun _ _ => True) w₁ := by
      intro w₁ hown hsink
      rw [wp_bind, wp_modifyJob, hown]
      refine ih _ hranges (fun r hr => ⟨(hrest r hr).1, ?_⟩) hnodup.2 ?_
      · show (w.own.rangeState.set range.index .pending)[r.index]? = some .done
        rw [List.getElem?_set_ne (hother r hr)]
        exact (hrest r hr).2
      · refine h.keep rfl rfl hsink fun i _ => ?_
        show (w.own.rangeState.set range.index .pending)[i]? = some .done ∧ _ ↔ _
        by_cases hi : range.index = i
        · subst hi
          simp [Job.IsReadBack, hlt]
        · rw [List.getElem?_set_ne hi]
          simp [Job.IsReadBack, Job.IsDone, hi]
    -- the range is fed to the hash
    have hfeed : ∀ (w₁ : JobWorld) (bytes : Bytes), w₁.own = w.own → w₁.sink = w.sink →
        w.sink.read range.offset range.length = .ok bytes →
        wp (modifyJob (·.feed range.offset bytes) >>= fun _ =>
            rehydrateResumedRanges seams commitment resumed)
          (fun _ w' => Hashing w'.own.IsDone w') (fun _ _ => True) w₁ := by
      intro w₁ bytes hown hsink hread
      obtain ⟨hbytes, hend, -, -⟩ := Sink.read_ok hread
      have hlen : bytes.length = range.length := by
        rw [hbytes]
        exact length_slice_of_le hend
      have hunfed : ¬ w.own.IsReadBack (range :: resumed) range.index := fun hread =>
        hread.2 range (List.mem_cons_self ..) rfl
      rw [wp_bind, wp_modifyJob, hown]
      refine ih _ hranges hrest hnodup.2 (h.feed hranges hfirst.1 hunfed hlen ?_ rfl rfl hsink ?_)
      · rw [hlen]
        exact hbytes
      · intro i _
        by_cases hi : i = range.index
        · subst hi
          simp only [or_true, iff_true]
          exact ⟨hfirst.2, fun r hr heq => hother r hr heq.symm⟩
        · have hi' : range.index ≠ i := fun heq => hi heq.symm
          simp [Job.IsReadBack, Job.IsDone, hi, hi', Job.feed]
    rw [rehydrateResumedRanges, wp_bind, wp_getJob, wp_bind, wp_attempt, stagedRange]
    split
    · refine wp_sinkReadAt (fun bytes hread => ?_) (fun e => hback _ rfl rfl)
      dsimp only
      split
      · exact trivial
      · exact hback _ rfl rfl
      · exact hfeed _ bytes rfl rfl hread
    · exact hback w rfl rfl

/-- A job enters the scheduling loop with a hash of what it read back. -/
theorem wp_entering_hashing (hverify : seams.config.verifyWholeResource = true) (target : Target)
    (w : JobWorld) :
    wp (entering seams target) (fun _ w' => Hashing w'.own.IsDone w') (fun _ _ => True) w := by
  rw [entering_eq_readBack, wp_bind, beforeReadBack, wp_bind]
  refine wp_of_forall (fun commitment w₁ => ?_) (fun _ _ => trivial)
  rw [wp_bind]
  refine wp_of_forall (fun _ w₂ => ?_) (fun _ _ => trivial)
  rw [wp_bind]
  refine wp_of_forall (fun _ w₃ => ?_) (fun _ _ => trivial)
  rw [wp_bind, wp_modifyJob, wp_pure, wp_bind, readBack, wp_bind, wp_getJob, wp_bind]
  have hindex : ∀ r ∈ (w₃.own.planned seams.config commitment).doneRanges,
      (planRanges commitment.layout seams.config.window)[r.index]? = some r := by
    intro r hr
    obtain ⟨i, hi, rfl⟩ := List.mem_iff_getElem.mp (Job.mem_doneRanges.mp hr).1
    have hi' : i < (planRanges commitment.layout seams.config.window).length := hi
    show (planRanges commitment.layout seams.config.window)[
      (planRanges commitment.layout seams.config.window)[i].index]? = _
    rw [planRanges_index hi', List.getElem?_eq_getElem hi']
    rfl
  refine wp.mono (wp_rehydrate_hashing _ _ rfl (fun r hr => ⟨hindex r hr,
    (Job.mem_doneRanges.mp hr).2⟩) ?_ ?_) (fun _ w₄ h₄ => ?_) (fun _ _ _ => trivial)
  · have hsub : ((w₃.own.planned seams.config commitment).doneRanges.map (·.index)).Sublist
        ((planRanges commitment.layout seams.config.window).map (·.index)) :=
      List.filter_sublist.map _
    rw [planRanges_map_index] at hsub
    exact hsub.nodup List.nodup_range
  · -- nothing was fed yet: every done range is still to be read back
    refine ⟨.new, ?_, .new _ (fun i hread => ?_) _, AList.lookup_empty _⟩
    · show (if seams.config.verifyWholeResource then some ResourceHasher.new else none) = _
      rw [if_pos hverify]
    · have hdone := hread.1
      obtain ⟨hi, -⟩ := List.getElem?_eq_some_iff.mp hdone
      have hi' : i < (planRanges commitment.layout seams.config.window).length := by
        simpa [Job.planned] using hi
      refine hread.2 (planRanges commitment.layout seams.config.window)[i] ?_ (planRanges_index hi')
      refine Job.mem_doneRanges.mpr ⟨List.getElem_mem hi', ?_⟩
      rw [planRanges_index hi']
      exact hdone
  · rw [wp_bind, wp_getJob, wp_emit, wp_pure]
    exact h₄.keep rfl rfl rfl fun _ _ => Iff.rfl

end Hashing

/-! ## Promoting -/

namespace Effect

/-- A call of `finalize`. -/
def isFinalize : Effect ResourceAsk → Bool
  | .finalize _ => true
  | _ => false

/-- A proof that was accepted. -/
def IsAcceptance : Effect ResourceAsk → Prop
  | .ask (.verifyInclusion _ _ _ true) => True
  | _ => False

end Effect

/-- The staging area is finalized only once a proof was accepted. -/
def FinalizesAccepted (before : List (Effect ResourceAsk)) (e : Effect ResourceAsk) : Prop :=
  e.isFinalize = true → ∃ accepted ∈ before, accepted.IsAcceptance

theorem FinalizesAccepted.of_kind {K : Effect ResourceAsk → Prop} (hK : ∀ ok, ¬ K (.finalize ok))
    (e : Effect ResourceAsk) (he : K e) (before : List (Effect ResourceAsk)) :
    FinalizesAccepted before e := by
  intro hfinalize
  cases e with
  | finalize ok => exact absurd he (hK ok)
  | _ => cases hfinalize

/-- Once a proof was accepted, whatever follows is in order. -/
theorem FinalizesAccepted.after {log : List (Effect ResourceAsk)} {accepted : Effect ResourceAsk}
    (hlog : AtEach FinalizesAccepted log) (haccepted : accepted.IsAcceptance)
    (more : List (Effect ResourceAsk)) : AtEach FinalizesAccepted (log ++ [accepted] ++ more) := by
  rw [List.append_assoc]
  refine atEach_append.mpr ⟨hlog, ?_⟩
  rw [List.singleton_append]
  intro before e after hsplit hfinalize
  cases before with
  | nil =>
    obtain ⟨rfl, -⟩ := List.cons.inj hsplit
    cases accepted with
    | finalize ok => exact haccepted.elim
    | _ => cases hfinalize
  | cons first before =>
    obtain ⟨rfl, -⟩ := List.cons.inj hsplit
    exact ⟨accepted, List.mem_append_right _ (List.mem_cons_self ..), haccepted⟩

/-- What a download that returns has promoted, next to the artifacts there were. -/
structure PromotesResource (seams : ResourceSeams) (commitment : ResourceCommitment)
    (artifacts : List Bytes) (w : JobWorld) (artifact : Bytes) : Prop where
  length : artifact.length = commitment.totalLength
  promoted : w.sink.artifacts = artifacts ++ [artifact]
  once : w.trace.countP Effect.isFinalize = 1
  accepted : .ask (.verifyInclusion (seams.sha256 artifact) commitment.inclusionProof
    commitment.root true) ∈ w.trace

/-- The same artifacts. -/
def SameArtifacts (w w' : JobWorld) : Prop := w'.sink.artifacts = w.sink.artifacts

instance : Std.Refl SameArtifacts := ⟨fun _ => rfl⟩

instance : IsTrans JobWorld SameArtifacts := ⟨fun _ _ _ h h' => Eq.trans h' h⟩

theorem closedUnder_sameArtifacts {K : Effect ResourceAsk → Prop} (hK : ¬ K (.finalize true)) :
    ClosedUnder K SameArtifacts := by
  intro w store e he _
  show (e.onSink w.sink).artifacts = w.sink.artifacts
  unfold Effect.onSink
  split
  · unfold Sink.write
    split <;> rfl
  · rfl
  · exact absurd he hK
  · rfl

section Finish

variable {seams : ResourceSeams} {key : String} {commitment : ResourceCommitment} {w : JobWorld}

/-- A refusal drops the checkpoint and the staged bytes, and fails. -/
theorem wp_refuse {α : Type} (reason : String) (e : DownloadError) (w : JobWorld) :
    wp (do discardUnverifiableAssembly seams key; failWith reason e : JobM α) (fun _ _ => False)
      (fun halt w' => halt = .failed e ∧ Appends Effect.IsRefused w w') w := by
  have happends : Steps (Appends Effect.IsRefused)
      (do discardUnverifiableAssembly seams key; failWith reason e : JobM α) :=
    steps_refuse closedUnder_appends reason e
  have hfails : wp (do discardUnverifiableAssembly seams key; failWith reason e : JobM α)
      (fun _ _ => False) (fun halt _ => halt = .failed e) w := by
    rw [wp_bind, discardUnverifiableAssembly, wp_bind, wp_ignoringFailure]
    refine wp_of_forall (fun _ w₁ => ?_) (fun _ w₁ => ?_)
    · rw [wp_ignoringFailure]
      exact wp_of_forall (fun _ _ => rfl) (fun _ _ => rfl)
    · rw [wp_ignoringFailure]
      exact wp_of_forall (fun _ _ => rfl) (fun _ _ => rfl)
  exact (hfails.and (happends.wp w)).mono (fun _ _ h => h.1) (fun _ _ h => h)

/-- The check of the whole resource passes only if everything was hashed and the proof is
accepted for it. -/
theorem wp_backstop_accepts {hasher : ResourceHasher} (hsome : w.own.hasher = some hasher)
    {Q : Unit → JobWorld → Prop} {E : Halt → JobWorld → Prop}
    (hok : hasher.nextOffset = commitment.totalLength →
      Q () ({ w with own := { w.own with hasher := none } }.note (.ask (.verifyInclusion
        (seams.sha256 hasher.absorbed) commitment.inclusionProof commitment.root true))))
    (herr : ∀ e w', Appends Effect.IsBackstop w w' → E (.failed (.verify e)) w') :
    wp (backstop seams key commitment) Q E w := by
  rw [backstop, wp_bind, wp_getJob, hsome]
  dsimp only
  rw [wp_bind, wp_modifyJob, wp_bind]
  unfold verifyResourceLeaf
  split
  · rw [wp_pure]
    refine wp.mono (wp_refuse _ _ _) (fun _ _ h => h.elim) (fun halt w' h => ?_)
    obtain ⟨rfl, happ⟩ := h
    exact herr _ w' (happ.mono fun _ he => he.isBackstop)
  rename_i hlength
  rw [wp_bind, wp_askJob]
  split
  · rename_i haccepted
    rw [haccepted]
    exact hok (not_not.mp hlength)
  · rw [wp_pure]
    refine wp.mono (wp_refuse _ _ _) (fun _ _ h => h.elim) (fun halt w' h => ?_)
    obtain ⟨rfl, happ⟩ := h
    refine herr _ w' (IsTrans.trans _ _ _ ?_ (happ.mono fun _ he => he.isBackstop))
    exact ⟨[_], rfl, by simp [Effect.IsBackstop]⟩

/-- What is promoted is what was hashed, and it was promoted once its proof was accepted. -/
theorem wp_finish_accepts {hasher : ResourceHasher} (hsome : w.own.hasher = some hasher)
    (hreads : hasher.Reads w.sink.staged) (hnone : ∀ e ∈ w.trace, e.isFinalize = false) :
    wp (finish seams key commitment)
      (fun n w' => n = commitment.totalLength ∧ AtEach FinalizesAccepted w'.trace ∧
        ∃ artifact, PromotesResource seams commitment w.sink.artifacts w' artifact)
      (fun _ w' => AtEach FinalizesAccepted w'.trace) w := by
  have hstart : AtEach FinalizesAccepted w.trace := atEach_of_forall fun e he before hfinalize => by
    rw [hnone e he] at hfinalize
    cases hfinalize
  have hcount : w.trace.countP Effect.isFinalize = 0 := List.countP_eq_zero.mpr fun e he => by
    rw [hnone e he]
    simp
  -- the proof that was accepted
  obtain ⟨accepted, haccepted⟩ : ∃ accepted : Effect ResourceAsk, accepted =
    .ask (.verifyInclusion (seams.sha256 hasher.absorbed) commitment.inclusionProof
      commitment.root true) := ⟨_, rfl⟩
  have hafter : ∀ more, AtEach FinalizesAccepted (w.trace ++ [accepted] ++ more) :=
    FinalizesAccepted.after hstart (haccepted ▸ trivial)
  rw [finish, wp_bind]
  refine wp_backstop_accepts hsome (fun hlength => ?_) (fun e w' happ => ?_)
  · rw [← haccepted, wp_bind, wp_attempt]
    refine wp_promoteVerified (fun reads hlen _ hreads' => ?_) (fun e w' _ _ _ htrace => ?_)
    · have hpromotes : ∀ (cleared : Bool) (w' : JobWorld),
          w'.sink = (w.sink.shorten commitment.totalLength).promote →
          w'.trace = w.trace ++ [accepted] ++ ([.truncate commitment.totalLength true] ++ reads ++
            [.finalize true, .clear key cleared,
              .ask (.emit (.completed commitment.totalLength))]) →
          commitment.totalLength = commitment.totalLength ∧ AtEach FinalizesAccepted w'.trace ∧
            ∃ artifact, PromotesResource seams commitment w.sink.artifacts w' artifact := by
        intro cleared w' hsink htrace
        refine ⟨rfl, htrace ▸ hafter _, w.sink.staged.take commitment.totalLength, ?_, ?_, ?_, ?_⟩
        · rw [List.length_take]
          exact Nat.min_eq_left hlen
        · rw [hsink]
          rfl
        · have hquiet : reads.countP Effect.isFinalize = 0 := by
            refine List.countP_eq_zero.mpr fun e he => ?_
            obtain ⟨off, n, b, rfl⟩ := hreads' e he
            simp [Effect.isFinalize]
          rw [htrace, haccepted]
          simp only [List.countP_append, hcount, hquiet]
          rfl
        · rw [htrace, haccepted, hreads.absorbed, hlength]
          simp
      rw [wp_bind, wp_ignoringFailure]
      refine wp_storeClear ?_ (fun _ => ?_)
      · rw [wp_bind, wp_emit, wp_pure]
        exact hpromotes true _ rfl (by simp [World.note])
      · rw [wp_bind, wp_emit, wp_pure]
        exact hpromotes false _ rfl (by simp [World.note])
    · have hpromoting : AtEach FinalizesAccepted w'.trace := by
        rcases htrace with htrace | ⟨reads, fin, -, -, htrace⟩
        · exact htrace ▸ hafter [.truncate commitment.totalLength false]
        · have h := hafter ([.truncate commitment.totalLength true] ++ reads ++ fin)
          simp only [← List.append_assoc] at h
          exact htrace ▸ h
      refine wp.mono (wp_refuse _ _ _) (fun _ _ h => h.elim) (fun halt w'' h => ?_)
      exact (AppendsEach.of_appends h.2 (FinalizesAccepted.of_kind fun _ h => h)).atEach hpromoting
  · exact (AppendsEach.of_appends happ (FinalizesAccepted.of_kind fun _ h => h)).atEach hstart

end Finish

/-! ## A whole run -/

section Run

variable {seams : ResourceSeams} {target : Target} {sink : Sink} {store : StateStore}
  {K : Effect ResourceAsk → Prop} {w w' : JobWorld}

/-- A part of a run that finalizes nothing. -/
theorem Appends.unfinalized (h : Appends K w w') (hK : ∀ ok, ¬ K (.finalize ok))
    (hw : ∀ e ∈ w.trace, e.isFinalize = false) : ∀ e ∈ w'.trace, e.isFinalize = false := by
  obtain ⟨seg, hseg, hkind⟩ := h
  rw [hseg]
  intro e he
  cases List.mem_append.mp he with
  | inl hold => exact hw e hold
  | inr hnew =>
    cases e with
    | finalize ok => exact absurd (hkind _ hnew) (hK ok)
    | _ => rfl

theorem isLoop_not_finalize (ok : Bool) : ¬ (Effect.finalize ok : Effect ResourceAsk).IsLoop := by
  intro h
  cases h with
  | inl h => exact h
  | inr h => exact h

/-- A download with the check of the whole resource that returns a length has called
`finalize` exactly once, and promoted that many bytes, whose hash the proof was accepted
for under the commitment of the download. No run calls `finalize` before a proof was
accepted. -/
theorem resource_integrity (seams : ResourceSeams) (target : Target) (turns : List Turn)
    (sink : Sink) (store : StateStore) (hverify : seams.config.verifyWholeResource = true) :
    (∀ n, (downloadResource seams target turns sink store).1 = .ok n →
      ∃ commitment artifact,
        (entering seams target (JobWorld.start seams target sink store)).1 = .ok commitment ∧
          n = commitment.totalLength ∧
          PromotesResource seams commitment sink.artifacts
            (downloadResource seams target turns sink store).2 artifact) ∧
      AtEach FinalizesAccepted (downloadResource seams target turns sink store).2.trace := by
  have hsetup : Steps (Appends Effect.IsSetup) (entering seams target) :=
    steps_entering closedUnderSetup_appends
  have hsetup' : Steps SameArtifacts (entering seams target) :=
    steps_entering ⟨closedUnder_sameArtifacts (K := Effect.IsSetup) id, fun _ _ _ => rfl⟩
  have hquiet : ∀ w : JobWorld, (∀ e ∈ w.trace, e.isFinalize = false) →
      AtEach FinalizesAccepted w.trace := fun w hw =>
    atEach_of_forall fun e he before hfinalize => by
      rw [hw e he] at hfinalize
      cases hfinalize
  have hstart : ∀ e ∈ (JobWorld.start seams target sink store).trace, e.isFinalize = false := by
    simp [JobWorld.start]
  have hrun : wp (runJob seams target turns)
      (fun n w' => (∃ commitment artifact,
        (entering seams target (JobWorld.start seams target sink store)).1 = .ok commitment ∧
          n = commitment.totalLength ∧ PromotesResource seams commitment sink.artifacts w' artifact) ∧
        AtEach FinalizesAccepted w'.trace)
      (fun _ w' => AtEach FinalizesAccepted w'.trace) (JobWorld.start seams target sink store) := by
    rw [runJob_eq, wp_bind]
    refine wp_iff.mpr ⟨fun commitment henter => ?_, fun halt _ => ?_⟩
    · have hfresh := (hsetup _).unfinalized (fun _ => id) hstart
      have hsame : (loopStart seams target sink store).sink.artifacts = sink.artifacts := hsetup' _
      have hbooks := (loopStart_spec henter).1
      have hhashing : Hashing (loopStart seams target sink store).own.IsDone
          (loopStart seams target sink store) := (wp_entering_hashing hverify target _).ok henter
      have hloop : Steps (Appends Effect.IsLoop)
          (scheduleLoop seams target.content (downloadKey seams target) turns) :=
        steps_scheduleLoop closedUnderLoop_appends turns
      have hloop' : Steps SameArtifacts
          (scheduleLoop seams target.content (downloadKey seams target) turns) :=
        steps_scheduleLoop ⟨closedUnder_sameArtifacts (isLoop_not_finalize true), fun _ _ => rfl⟩ turns
      rw [entered, wp_bind]
      have hscheduled := ((hloop.wp (loopStart seams target sink store)).and
        ((hloop'.wp (loopStart seams target sink store)).and (wp_scheduleLoop turns)))
      refine hscheduled.mono (fun _ w₁ h₁ => ?_) (fun _ w₁ h₁ => ?_)
      · obtain ⟨happ, hartifacts, hvisits⟩ := h₁
        obtain ⟨hasher, hsome, hfollows, -⟩ := (LoopSteps.steps hvisits).hashing hbooks hhashing
        refine (wp_finish_accepts hsome hfollows.reads
          (happ.unfinalized isLoop_not_finalize hfresh)).mono (fun n w₂ h₂ => ?_) (fun _ _ h => h)
        obtain ⟨hn, heach, artifact, hpromotes⟩ := h₂
        have hartifacts' : w₁.sink.artifacts = sink.artifacts := hartifacts.trans hsame
        rw [hartifacts'] at hpromotes
        exact ⟨⟨commitment, artifact, henter, hn, hpromotes⟩, heach⟩
      · exact hquiet _ (h₁.1.unfinalized isLoop_not_finalize hfresh)
    · exact hquiet _ ((hsetup _).unfinalized (fun _ => id) hstart)
  obtain ⟨hok, herror⟩ := wp_iff.mp hrun
  refine ⟨fun n hn => (hok n hn).1, ?_⟩
  cases hend : (downloadResource seams target turns sink store).1 with
  | ok n => exact (hok n hend).2
  | error halt => exact herror halt hend

/-- The small resource is promoted as it is. -/
theorem resource_integrity_small :
    ∃ artifact, PromotesResource smallResourceSeams smallCommitment [] (downloadResource smallResourceSeams
      smallTarget [.completed 0, .completed 0] emptySink emptyStore).2 artifact := by
  have hrun : (downloadResource smallResourceSeams smallTarget [.completed 0, .completed 0]
      emptySink emptyStore).1 = .ok 3 := by decide +kernel
  have henter : (entering smallResourceSeams smallTarget
      (JobWorld.start smallResourceSeams smallTarget emptySink emptyStore)).1
        = .ok smallCommitment := by decide +kernel
  obtain ⟨commitment, artifact, henter', -, hpromotes⟩ := (resource_integrity smallResourceSeams
    smallTarget [.completed 0, .completed 0] emptySink emptyStore rfl).1 3 hrun
  obtain rfl : smallCommitment = commitment := by
    rw [henter] at henter'
    exact Except.ok.inj henter'
  exact ⟨artifact, hpromotes⟩

end Run

end DigDownload
