import DigDownload.Resource.Alike
import DigDownload.Resource.Integrity
import DigDownload.Resource.Inheritance

/-!
# Staging is not trusted without the backstop

With the check of the whole resource disabled a resumed range is fetched again, whatever is
staged for it. So every range that is done was served in this run, what is staged there are
the bytes that it was served with, and the artifact is made of these: two runs that are told
the same over two staging areas do the same and promote the same.
-/

namespace DigDownload

open Prog Relation Tiling Slices

variable {seams : ResourceSeams} {content : ContentId} {key : String} {target : Target}
  {commitment : ResourceCommitment} {w w' : JobWorld}

/-! ## Nothing is resumed -/

/-- Without a hash every resumed range goes back to the queue. -/
theorem wp_rehydrate_unhashed (resumed : List Range) :
    ∀ w : JobWorld, w.own.hasher = none → (∀ i, w.own.IsDone i → ∃ r ∈ resumed, r.index = i) →
      wp (rehydrateResumedRanges seams commitment resumed)
        (fun _ w' => ∀ i, ¬ w'.own.IsDone i) (fun _ _ => True) w := by
  induction resumed with
  | nil =>
    intro w _ hdone i hi
    obtain ⟨r, hr, -⟩ := hdone i hi
    cases hr
  | cons range resumed ih =>
    intro w hnone hdone
    rw [rehydrateResumedRanges, wp_bind, wp_getJob, wp_bind, wp_attempt, stagedRange, hnone]
    show wp (modifyJob (·.unresume range) >>= fun _ =>
      rehydrateResumedRanges seams commitment resumed) _ _ w
    rw [wp_bind, wp_modifyJob]
    refine ih _ hnone fun i hi => ?_
    have hi' : (w.own.rangeState.set range.index .pending)[i]? = some .done := hi
    by_cases hsame : range.index = i
    · subst hsame
      rw [List.getElem?_set_self'] at hi'
      cases hs : w.own.rangeState[range.index]? with
      | none =>
        rw [hs] at hi'
        cases hi'
      | some state =>
        rw [hs] at hi'
        cases hi'
    · rw [List.getElem?_set_ne hsame] at hi'
      obtain ⟨r, hr, hindex⟩ := hdone i hi'
      cases hr with
      | head => exact absurd hindex hsame
      | tail _ hmem => exact ⟨r, hmem, hindex⟩

/-- A job that hashes nothing enters the loop with nothing done. -/
theorem wp_entering_unhashed (hverify : seams.config.verifyWholeResource = false)
    (target : Target) (w : JobWorld) :
    wp (entering seams target) (fun _ w' => ∀ i, ¬ w'.own.IsDone i) (fun _ _ => True) w := by
  rw [entering_eq_readBack, wp_bind, beforeReadBack, wp_bind]
  refine wp_of_forall (fun commitment w₁ => ?_) (fun _ _ => trivial)
  rw [wp_bind]
  refine wp_of_forall (fun _ w₂ => ?_) (fun _ _ => trivial)
  rw [wp_bind]
  refine wp_of_forall (fun _ w₃ => ?_) (fun _ _ => trivial)
  rw [wp_bind, wp_modifyJob, wp_pure, wp_bind, readBack, wp_bind, wp_getJob, wp_bind]
  refine wp.mono (wp_rehydrate_unhashed _ _ ?_ fun i hi => ?_) (fun _ w₄ h₄ => ?_)
    (fun _ _ _ => trivial)
  · show (if seams.config.verifyWholeResource then some ResourceHasher.new else none) = none
    rw [hverify]
    rfl
  · have hi' : ((planRanges commitment.layout seams.config.window).map fun r =>
        if w₃.own.resume.isDone r.index then RangeState.done else .pending)[i]? = some .done := hi
    obtain ⟨hlt, -⟩ := List.getElem?_eq_some_iff.mp hi'
    have hlt' : i < (planRanges commitment.layout seams.config.window).length := by
      simpa using hlt
    refine ⟨(planRanges commitment.layout seams.config.window)[i], ?_, planRanges_index hlt'⟩
    refine Job.mem_doneRanges.mpr ⟨List.getElem_mem hlt', ?_⟩
    rw [planRanges_index hlt']
    exact hi'
  · rw [wp_bind, wp_getJob, wp_emit, wp_pure]
    exact h₄

/-! ## Where the staged bytes of a range come from -/

/-- The answer that came for a range. -/
def Effect.answerFor (i : Nat) : Effect ResourceAsk → Option FetchedRange
  | .ask (.fetched range _ (some (.ok fetched))) => if range = i then some fetched else none
  | _ => none

theorem Effect.answerFor_eq_some {e : Effect ResourceAsk} {i : Nat} {fetched : FetchedRange}
    (h : e.answerFor i = some fetched) :
    ∃ peer, e = .ask (.fetched i peer (some (.ok fetched))) := by
  unfold Effect.answerFor at h
  split at h
  · rename_i range peer answer
    split at h
    · rename_i hrange
      cases h
      exact ⟨peer, by rw [hrange]⟩
    · cases h
  · cases h

/-- The last answer that came for a range. -/
def served (log : List (Effect ResourceAsk)) (i : Nat) : Option FetchedRange :=
  (log.filterMap (Effect.answerFor i)).getLast?

section Served

variable {log more : List (Effect ResourceAsk)} {i : Nat} {fetched : FetchedRange}

theorem served_append : served (log ++ more) i = (served more i).or (served log i) := by
  rw [served, List.filterMap_append, List.getLast?_append]
  rfl

theorem served_concat_of_none {e : Effect ResourceAsk} (h : e.answerFor i = none) :
    served (log ++ [e]) i = served log i := by
  rw [served_append, served, List.filterMap_cons, h]
  rfl

/-- Nothing that comes after an answer is another one. -/
theorem served_cons_of_rest {e : Effect ResourceAsk} {rest : List (Effect ResourceAsk)}
    (h : ∀ e ∈ rest, e.answerFor i = none) : served (e :: rest) i = e.answerFor i := by
  have hrest : rest.filterMap (Effect.answerFor i) = [] := List.filterMap_eq_nil_iff.mpr h
  rw [served, List.filterMap_cons, hrest]
  cases e.answerFor i <;> rfl

/-- It came from somebody. -/
theorem mem_of_served (h : served log i = some fetched) :
    ∃ peer, .ask (.fetched i peer (some (.ok fetched))) ∈ log := by
  have hmem := List.mem_of_getLast? h
  obtain ⟨e, he, hanswer⟩ := List.mem_filterMap.mp hmem
  obtain ⟨peer, rfl⟩ := Effect.answerFor_eq_some hanswer
  exact ⟨peer, he⟩

end Served

/-- What is staged for every range that is done are the bytes that it was last served with,
and they passed its check. -/
def Sourced (seams : ResourceSeams) (commitment : ResourceCommitment) (w : JobWorld) : Prop :=
  ∀ i range, w.own.IsDone i → w.own.ranges[i]? = some range →
    ∃ fetched, served w.trace i = some fetched ∧
      verifyFetched seams commitment range fetched = .ok ∧
      slice w.sink.staged range.offset range.length = fetched.bytes

theorem length_of_verifyFetched {range : Range} {fetched : FetchedRange}
    (h : verifyFetched seams commitment range fetched = .ok) :
    fetched.bytes.length = range.length ∧
      verifyRange seams.debugAssertions commitment range.chunkStart range.length fetched.bytes
        = .ok := by
  rw [verifyFetched] at h
  split at h
  · cases h
  · exact ⟨length_of_verifyRange h, h⟩

/-- A step that writes nothing and makes nothing done. -/
theorem Sourced.keep (h : Sourced seams commitment w) (hsink : w'.sink = w.sink)
    (hranges : w'.own.ranges = w.own.ranges) (hdone : ∀ i, w'.own.IsDone i → w.own.IsDone i)
    (htrace : ∀ i, w.own.IsDone i → served w'.trace i = served w.trace i) :
    Sourced seams commitment w' := by
  intro i range hi hrange
  rw [hranges] at hrange
  obtain ⟨fetched, hserved, hverified, hstaged⟩ := h i range (hdone i hi) hrange
  refine ⟨fetched, ?_, hverified, ?_⟩
  · rw [htrace i (hdone i hi), hserved]
  · rw [hsink, hstaged]

/-- A look around brings no bytes. -/
theorem Effect.IsLook.answerFor {e : Effect ResourceAsk} (h : e.IsLook) (i : Nat) :
    e.answerFor i = none := by
  cases hanswer : e.answerFor i with
  | none => rfl
  | some fetched =>
    obtain ⟨peer, rfl⟩ := Effect.answerFor_eq_some hanswer
    exact h.elim

/-- Two ranges of a plan lie apart. -/
theorem planRanges_disjoint {window i j : Nat} {range other : Range}
    (hi : (planRanges commitment.layout window)[i]? = some range)
    (hj : (planRanges commitment.layout window)[j]? = some other) (hne : i ≠ j) :
    range.offset + range.length ≤ other.offset ∨ other.offset + other.length ≤ range.offset := by
  obtain ⟨hi', hoffset, hlen, -⟩ := planRanges_span hi
  obtain ⟨hj', hoffset', hlen', -⟩ := planRanges_span hj
  rw [hoffset, hlen, hoffset', hlen']
  exact spans_disjoint hi' hj' hne

/-- A range is written over none of the bytes of another. -/
theorem slice_write_other {window i j : Nat} {range other : Range} {bytes staged : Bytes}
    {s : Sink} (hi : (planRanges commitment.layout window)[i]? = some range)
    (hj : (planRanges commitment.layout window)[j]? = some other) (hne : i ≠ j)
    (hlen : bytes.length = range.length) (hstaged : slice s.staged other.offset other.length = staged)
    (hfull : staged.length = other.length) :
    slice (s.write range.offset bytes).staged other.offset other.length = staged := by
  rw [Sink.write]
  split
  · exact hstaged
  · by_cases hempty : other.length = 0
    · rw [hempty] at hstaged hfull ⊢
      rw [List.length_eq_zero_iff] at hfull
      rw [hfull]
      exact List.take_zero
    · have hroom : other.offset + other.length ≤ s.staged.length := by
        rw [← hstaged, length_slice] at hfull
        omega
      have hapart := planRanges_disjoint hi hj hne
      rw [← hlen] at hapart
      have hdisjoint := slice_overwrite_disjoint 0 bytes hapart.symm hroom
      exact hdisjoint.trans hstaged

theorem JobStep.sourced (hstep : JobStep seams content w w')
    (hb : Books seams.config commitment w.own) (h : Sourced seams commitment w) :
    Sourced seams commitment w' := by
  cases hstep with
  | look he => exact h.keep rfl rfl (fun _ hi => hi) fun i _ => served_concat_of_none (he.answerFor i)
  | learn => exact h.keep rfl rfl (fun _ hi => hi) fun _ _ => rfl
  | refresh => exact h.keep rfl rfl (fun _ hi => hi) fun _ _ => rfl
  | relocate => exact h.keep rfl rfl (fun _ hi => hi) fun _ _ => served_concat_of_none rfl
  | relocated => exact h.keep rfl rfl (fun _ hi => hi) fun _ _ => rfl
  | pause => exact h.keep rfl rfl (fun _ hi => hi) fun _ _ => rfl
  | save => exact h.keep rfl rfl (fun _ hi => hi) fun _ _ => served_concat_of_none rfl
  | unsaved => exact h.keep rfl rfl (fun _ hi => hi) fun _ _ => served_concat_of_none rfl
  | issue _ _ hpending =>
    have hstate := Job.nextPending_eq_some hpending
    exact h.keep rfl rfl (fun i hi => (Job.done_set_iff (by simp [hstate]) (by simp) i).mp hi)
      fun _ _ => served_concat_of_none rfl
  | @succeed choice fetch fetched commitment' range job hended hverified hjob =>
    obtain rfl : commitment = commitment' := by
      have hcommitted := hb.planned.committed
      rw [hended.committed] at hcommitted
      exact (Option.some.inj hcommitted).symm
    obtain ⟨hlen, -⟩ := length_of_verifyFetched hverified
    have hranges' : job.ranges = w.own.ranges := by rw [hjob]; simp [Job.complete, Job.feed]
    have hdone' : ∀ i, job.IsDone i → i ≠ fetch.range → w.own.IsDone i := by
      intro i hi hne
      have hi' : (w.own.rangeState.set fetch.range .done)[i]? = some .done := by
        rw [hjob] at hi
        simpa [Job.IsDone, Job.complete, Job.feed] using hi
      rwa [List.getElem?_set_ne (Ne.symm hne)] at hi'
    intro i other hi hother
    have hquiet : ∀ e ∈ [Effect.writeAt range.offset fetched.bytes true,
        .ask (.record fetch.peer fetched.bytes.length .ok), .save job.resume true,
        .ask (.emit (.rangeCompleted fetch.range fetch.peer job.snapshot))],
        e.answerFor i = none := by
      simp [Effect.answerFor]
    have hother' : w.own.ranges[i]? = some other := hranges' ▸ hother
    by_cases hsame : i = fetch.range
    · -- the range that was just written
      subst hsame
      obtain rfl : other = range := Option.some.inj (hother'.symm.trans hended.planned)
      refine ⟨fetched, ?_, hverified, ?_⟩
      · show served (w.trace ++ _) fetch.range = some fetched
        rw [served_append, served_cons_of_rest hquiet]
        simp [Effect.answerFor]
      · show slice (w.sink.write other.offset fetched.bytes).staged other.offset other.length = _
        rw [← hlen]
        exact Sink.slice_write ..
    · obtain ⟨earlier, hserved, hverified', hstaged⟩ := h i other (hdone' i hi hsame) hother'
      obtain ⟨hlen', -⟩ := length_of_verifyFetched hverified'
      refine ⟨earlier, ?_, hverified', ?_⟩
      · show served (w.trace ++ _) i = some earlier
        rw [served_append, served_cons_of_rest hquiet, hserved]
        simp [Effect.answerFor, Ne.symm hsame]
      · have hrange := hended.planned
        rw [hb.planned.ranges] at hrange hother'
        exact slice_write_other hrange hother' (Ne.symm hsame) hlen hstaged hlen'
  | @fail choice fetch answer commitment' range e hended hfails hrecoverable =>
    have hstate := hb.inFlight hended.outstanding
    refine h.keep rfl (by simp [Job.requeue]) (fun i hi => ?_) fun i hi => ?_
    · simp only [Job.IsDone, Job.requeue, Job.taken_rangeState] at hi
      exact (Job.done_set_iff (by simp [hstate]) (by simp) i).mp hi
    · have hne : fetch.range ≠ i := by
        intro heq
        subst heq
        rw [Job.IsDone, hstate] at hi
        cases hi
      have hquiet : ∀ e' ∈ [Effect.ask .clock,
          .ask (.record fetch.peer 0 (if e.isTimeout then .timedOut else .failed)),
          .ask (.emit (.rangeFailed fetch.range fetch.peer e.display))], e'.answerFor i = none := by
        simp [Effect.answerFor]
      show served (w.trace ++ _) i = _
      rw [served_append, served_cons_of_rest hquiet]
      cases answer <;> simp [Effect.answerFor, hne]

theorem JobSteps.sourced (hsteps : JobSteps seams content w w')
    (hb : Books seams.config commitment w.own) (h : Sourced seams commitment w) :
    Sourced seams commitment w' := by
  induction hsteps with
  | refl => exact h
  | tail hsteps hstep ih => exact hstep.sourced (JobSteps.books hsteps hb) ih

/-! ## The end of the loop -/

/-- The loop is over only when everything is done. -/
theorem wp_loopHead_finished (seams : ResourceSeams) (content : ContentId) (key : String)
    (w : JobWorld) :
    wp (loopHead seams content key) (fun head w' => head = .finished → w'.own.allDone = true)
      (fun _ _ => True) w := by
  refine wp_loopHead fun w₁ _ _ => ?_
  split
  · rename_i hall
    exact fun _ => hall.1
  split
  · simp
  split
  · rw [stalled, wp_bind, wp_getJob]
    split
    · rw [wp_bind]
      refine wp_of_forall (fun added w₂ => ?_) (fun _ _ => trivial)
      rw [wp_bind, wp_modifyJob]
      split
      · simp
      · refine (wp_waitOut seams _).mono ?_ (fun _ _ h => h)
        rintro _ w₃ ⟨wakeup, rfl⟩ hfinished
        cases hfinished
    · refine (wp_waitOut seams _).mono ?_ (fun _ _ h => h)
      rintro _ w₃ ⟨wakeup, rfl⟩ hfinished
      cases hfinished
  · simp

theorem Visits.allDone {w₀ : JobWorld} (h : Visits seams content key w₀ .over w) :
    w.own.allDone = true := by
  cases h with
  | tail hsteps hstep =>
    cases hstep with
    | finish hrun => exact (wp_of_run_ok hrun).mp (wp_loopHead_finished seams content key _) rfl

theorem Job.isDone_of_allDone {job : Job} (h : job.allDone = true) {i : Nat}
    (hi : i < job.rangeState.length) : job.IsDone i := by
  rw [Job.allDone, Bool.and_eq_true, List.all_eq_true] at h
  have hdone := h.2 _ (List.getElem_mem hi)
  rw [Job.IsDone, List.getElem?_eq_getElem hi]
  simpa using hdone

/-- The loop ends with every byte of the resource staged as it was served. -/
theorem loopRun_sourced {sink : Sink} {store : StateStore} {turns : List Turn}
    (hverify : seams.config.verifyWholeResource = false)
    (henter : (entering seams target (JobWorld.start seams target sink store)).1 = .ok commitment)
    (hrun : (loopRun seams target sink store turns).1 = .ok ()) :
    (loopRun seams target sink store turns).2.own.Planned seams.config commitment ∧
      Sourced seams commitment (loopRun seams target sink store turns).2 ∧
      (loopRun seams target sink store turns).2.own.allDone = true := by
  have hbooks := (loopStart_spec henter).1
  have hnothing : ∀ i, ¬ (loopStart seams target sink store).own.IsDone i :=
    (wp_entering_unhashed hverify target _).ok henter
  have hvisits : Visits seams target.content (downloadKey seams target)
      (loopStart seams target sink store) .over (loopRun seams target sink store turns).2 :=
    (wp_scheduleLoop turns).ok hrun
  have hsteps := LoopSteps.steps hvisits
  have hstart : Sourced seams commitment (loopStart seams target sink store) :=
    fun i _ hi _ => absurd hi (hnothing i)
  exact ⟨(JobSteps.books hsteps hbooks).planned, hsteps.sourced hbooks hstart, hvisits.allDone⟩

section Bytes

variable {i pos : Nat} {range : Range}

/-- A position of the resource lies in a range of the plan. -/
theorem Job.Planned.exists_covers {job : Job} (h : job.Planned seams.config commitment)
    (hpos : pos < commitment.totalLength) :
    ∃ (i : Nat) (range : Range), job.ranges[i]? = some range ∧ i < job.rangeState.length ∧
      range.Covers pos := by
  rw [← h.sum_rangeLens] at hpos
  obtain ⟨i, hi, hfrom, hto⟩ := exists_span hpos
  have hi' : i < job.ranges.length := by simpa [rangeLens] using hi
  obtain ⟨range, hrange⟩ : ∃ range, job.ranges[i]? = some range :=
    ⟨_, List.getElem?_eq_getElem hi'⟩
  have hplan := hrange
  rw [h.ranges] at hplan
  obtain ⟨hlt, hoffset, hlen, -⟩ := planRanges_span hplan
  simp only [h.ranges] at hfrom hto
  rw [← hoffset] at hfrom
  rw [← hoffset, ← hlen] at hto
  exact ⟨i, range, hrange, h.states ▸ hi', hfrom, hto⟩

/-- The staged byte of a position is the one that its range was served with. -/
theorem Sourced.staged_eq (h : Sourced seams commitment w) (hdone : w.own.IsDone i)
    (hrange : w.own.ranges[i]? = some range) (hcovers : range.Covers pos) :
    ∃ fetched, served w.trace i = some fetched ∧
      verifyFetched seams commitment range fetched = .ok ∧
      pos - range.offset < fetched.bytes.length ∧
      w.sink.staged[pos]? = fetched.bytes[pos - range.offset]? := by
  obtain ⟨fetched, hserved, hverified, hstaged⟩ := h i range hdone hrange
  obtain ⟨hlen, -⟩ := length_of_verifyFetched hverified
  have hlt : pos - range.offset < range.length := Nat.sub_lt_left_of_lt_add hcovers.1 hcovers.2
  refine ⟨fetched, hserved, hverified, hlen ▸ hlt, ?_⟩
  rw [← hstaged, slice, List.getElem?_take_of_lt hlt, List.getElem?_drop,
    Nat.add_sub_cancel' hcovers.1]

/-- Two jobs that were told the same have the same bytes staged for the resource. -/
theorem Sourced.take_eq (h : Sourced seams commitment w) (h' : Sourced seams commitment w')
    (halike : Alike w w') (hplanned : w.own.Planned seams.config commitment)
    (hall : w.own.allDone = true) :
    w'.sink.staged.take commitment.totalLength = w.sink.staged.take commitment.totalLength := by
  apply List.ext_getElem?
  intro pos
  by_cases hpos : pos < commitment.totalLength
  · obtain ⟨i, range, hrange, hi, hcovers⟩ := hplanned.exists_covers hpos
    have hdone := Job.isDone_of_allDone hall hi
    have hdone' : w'.own.IsDone i := by rw [halike.own]; exact hdone
    have hrange' : w'.own.ranges[i]? = some range := by rw [halike.own]; exact hrange
    obtain ⟨fetched, hserved, -, -, hstaged⟩ := h.staged_eq hdone hrange hcovers
    obtain ⟨fetched', hserved', -, -, hstaged'⟩ := h'.staged_eq hdone' hrange' hcovers
    rw [halike.trace, hserved] at hserved'
    obtain rfl := Option.some.inj hserved'
    rw [List.getElem?_take_of_lt hpos, List.getElem?_take_of_lt hpos, hstaged, hstaged']
  · rw [List.getElem?_take_eq_none (Nat.le_of_not_lt hpos),
      List.getElem?_take_eq_none (Nat.le_of_not_lt hpos)]

end Bytes

/-! ## The promotion -/

/-- Without a hash there is nothing to check. -/
theorem backstop_unhashed (hnone : w.own.hasher = none) :
    backstop seams key commitment w = (.ok (), w) := by
  rw [backstop]
  have hget : getJob w = (.ok w.own, w) := rfl
  rw [bind_of_ok hget, hnone]
  rfl

/-- What is promoted is what is staged, as far as the resource goes. -/
theorem wp_finish_unhashed (hnone : w.own.hasher = none) :
    wp (finish seams key commitment)
      (fun n w' => n = commitment.totalLength ∧ n ≤ w.sink.staged.length ∧
        w'.sink.artifacts = w.sink.artifacts ++ [w.sink.staged.take n] ∧
        ∃ more, w'.trace = w.trace ++ more)
      (fun _ _ => True) w := by
  rw [finish, wp_bind, wp_of_run_ok (backstop_unhashed hnone), wp_bind, wp_attempt]
  refine wp_promoteVerified (fun reads hlen _ _ => ?_) (fun e w' _ _ _ _ => ?_)
  · rw [wp_bind, wp_ignoringFailure]
    refine wp_storeClear ?_ (fun _ => ?_)
    · rw [wp_bind, wp_emit, wp_pure]
      exact ⟨rfl, hlen, rfl, _, by simp [World.note]; rfl⟩
    · rw [wp_bind, wp_emit, wp_pure]
      exact ⟨rfl, hlen, rfl, _, by simp [World.note]; rfl⟩
  · exact (wp_refuse _ _ _).mono (fun _ _ h => h.elim) (fun _ _ _ => trivial)

/-- Two jobs that have staged the same for the resource finish alike; what the staging areas
hold past its end is cut off before it is looked at. -/
theorem finish_alike (h : Alike w w')
    (htake : w'.sink.staged.take commitment.totalLength
      = w.sink.staged.take commitment.totalLength) :
    (finish seams key commitment w').1 = (finish seams key commitment w).1 ∧
      (finish seams key commitment w').2.trace = (finish seams key commitment w).2.trace ∧
      ∀ n, (finish seams key commitment w).1 = .ok n →
        (finish seams key commitment w').2 = (finish seams key commitment w).2 := by
  have hnone' : w'.own.hasher = none := h.own ▸ h.unhashed
  rw [finish, bind_of_ok (backstop_unhashed h.unhashed), bind_of_ok (backstop_unhashed hnone')]
  cases hfault : seams.host.truncate w.tick with
  | none =>
    -- what is left of the two staging areas is the same
    have htruncated : sinkTruncate seams.host commitment.totalLength w
        = (.ok (), { w with sink := w.sink.shorten commitment.totalLength }.note
          (.truncate commitment.totalLength true)) := by rw [sinkTruncate, hfault]
    have htruncated' : sinkTruncate seams.host commitment.totalLength w'
        = (.ok (), { w with sink := w.sink.shorten commitment.totalLength }.note
          (.truncate commitment.totalLength true)) := by
      have hsink : w'.sink.shorten commitment.totalLength
          = w.sink.shorten commitment.totalLength := by
        rw [Sink.shorten, Sink.shorten, h.sink]
        dsimp only
        rw [htake]
      rw [sinkTruncate, h.tick, hfault]
      dsimp only [World.note]
      rw [hsink, h.store, h.trace, h.own]
    have hpromoted : promoteVerified seams.host commitment.totalLength w'
        = promoteVerified seams.host commitment.totalLength w := by
      rw [promoteVerified, bind_of_ok htruncated, bind_of_ok htruncated']
    have hattempted : (Prog.attempt (promoteVerified seams.host commitment.totalLength) :
        JobM (Except DownloadError Unit)) w'
          = Prog.attempt (promoteVerified seams.host commitment.totalLength) w :=
      attempt_of_same hpromoted
    rw [bind_of_same hattempted]
    exact ⟨rfl, rfl, fun _ _ => rfl⟩
  | some e =>
    have hrefused : ∀ v : JobWorld, v.tick = w.tick →
        (Prog.attempt (promoteVerified seams.host commitment.totalLength) :
          JobM (Except DownloadError Unit)) v
            = (.ok (.error e), v.note (.truncate commitment.totalLength false)) := by
      intro v hv
      have htruncated : sinkTruncate seams.host commitment.totalLength v
          = (.error e, v.note (.truncate commitment.totalLength false)) := by
        rw [sinkTruncate, hv, hfault]
      rw [promoteVerified, attempt_of_run (bind_of_error htruncated)]
    rw [bind_of_ok (hrefused w rfl), bind_of_ok (hrefused w' h.tick)]
    dsimp only
    obtain ⟨hanswer, hend⟩ : _ ∧ Alike _ _ :=
      Respects.bind blind_discardUnverifiableAssembly (fun _ => blind_failWith) _ _ (h.note _)
    refine ⟨hanswer.symm, hend.trace, fun n hn => ?_⟩
    exact ((wp_refuse _ _ _).ok hn).elim

/-! ## The parts of a run -/

section Parts

variable {sink : Sink} {store : StateStore} {turns : List Turn} {halt : Halt}

theorem downloadResource_of_not_entered
    (h : (entering seams target (JobWorld.start seams target sink store)).1 = .error halt) :
    downloadResource seams target turns sink store
      = (.error halt, loopStart seams target sink store) := by
  rw [downloadResource, runJob_eq]
  exact bind_of_error (Prod.ext h rfl)

theorem entered_of_not_scheduled (h : (loopRun seams target sink store turns).1 = .error halt) :
    entered seams target turns commitment (loopStart seams target sink store)
      = (.error halt, (loopRun seams target sink store turns).2) :=
  bind_of_error (Prod.ext h rfl)

theorem entered_of_scheduled (h : (loopRun seams target sink store turns).1 = .ok ()) :
    entered seams target turns commitment (loopStart seams target sink store)
      = finish seams (downloadKey seams target) commitment
        (loopRun seams target sink store turns).2 :=
  bind_of_ok (Prod.ext h rfl)

end Parts

/-! ## Two runs -/

/-- The byte of a position was fetched in a run, as part of a range whose bytes passed the
check. -/
def FetchedByte (seams : ResourceSeams) (commitment : ResourceCommitment)
    (log : List (Effect ResourceAsk)) (pos : Nat) (byte : UInt8) : Prop :=
  ∃ range ∈ planRanges commitment.layout seams.config.window, range.Covers pos ∧
    ∃ peer fetched, .ask (.fetched range.index peer (some (.ok fetched))) ∈ log ∧
      verifyRange seams.debugAssertions commitment range.chunkStart range.length fetched.bytes
        = .ok ∧
      fetched.bytes[pos - range.offset]? = some byte

/-- The promoted artifact, all of it fetched in the run. -/
structure PromotesFetched (seams : ResourceSeams) (commitment : ResourceCommitment)
    (artifacts : List Bytes) (w : JobWorld) (artifact : Bytes) : Prop where
  length : artifact.length = commitment.totalLength
  promoted : w.sink.artifacts = artifacts ++ [artifact]
  fetched : ∀ (pos : Nat) (byte : UInt8), artifact[pos]? = some byte →
    FetchedByte seams commitment w.trace pos byte

/-- What is promoted once everything is staged as it was served. -/
theorem promotesFetched_of_finish {n : Nat} (hplanned : w.own.Planned seams.config commitment)
    (hsourced : Sourced seams commitment w) (hall : w.own.allDone = true)
    (hnone : w.own.hasher = none) (hn : (finish seams key commitment w).1 = .ok n) :
    commitment.totalLength = n ∧ PromotesFetched seams commitment w.sink.artifacts
      (finish seams key commitment w).2 (w.sink.staged.take n) := by
  obtain ⟨rfl, hlen, hartifacts, more, htrace⟩ := (wp_finish_unhashed hnone).ok hn
  refine ⟨rfl, ?_, hartifacts, fun pos byte hbyte => ?_⟩
  · rw [List.length_take, Nat.min_eq_left hlen]
  · have hpos : pos < commitment.totalLength := by
      obtain ⟨hlt, -⟩ := List.getElem?_eq_some_iff.mp hbyte
      rw [List.length_take] at hlt
      exact Nat.lt_of_lt_of_le hlt (Nat.min_le_left _ _)
    rw [List.getElem?_take_of_lt hpos] at hbyte
    obtain ⟨i, range, hrange, hi, hcovers⟩ := hplanned.exists_covers hpos
    obtain ⟨fetched, hserved, hverified, -, hstaged⟩ :=
      hsourced.staged_eq (Job.isDone_of_allDone hall hi) hrange hcovers
    obtain ⟨peer, hmem⟩ := mem_of_served hserved
    have hindex := hplanned.index_eq hrange
    refine ⟨range, hplanned.ranges ▸ List.mem_of_getElem? hrange, hcovers, peer, fetched, ?_,
      (length_of_verifyFetched hverified).2, hstaged ▸ hbyte⟩
    rw [htrace, hindex]
    exact List.mem_append_left _ hmem

/-- The loop promotes nothing. -/
theorem loopRun_artifacts (sink : Sink) (store : StateStore) (turns : List Turn) :
    (loopRun seams target sink store turns).2.sink.artifacts = sink.artifacts := by
  have hsetup : Steps SameArtifacts (entering seams target) :=
    steps_entering ⟨closedUnder_sameArtifacts (K := Effect.IsSetup) id, fun _ _ _ => rfl⟩
  have hloop : Steps SameArtifacts
      (scheduleLoop seams target.content (downloadKey seams target) turns) :=
    steps_scheduleLoop ⟨closedUnder_sameArtifacts (isLoop_not_finalize true), fun _ _ => rfl⟩ turns
  exact Eq.trans (hloop _) (hsetup _)

/-- Without the backstop, two runs over two staging areas that are told the same have the
same trace, so they issue the same fetches, and come to the same end; one that returns a
length promotes the same bytes as the other, and each of them was fetched in the run and
passed the check of its range, whatever checkpoint and staging area it started from. -/
theorem staging_never_trusted (seams : ResourceSeams) (target : Target) (turns : List Turn)
    (sink : Sink) (staged : Bytes) (store : StateStore)
    (hverify : seams.config.verifyWholeResource = false) :
    (downloadResource seams target turns { sink with staged } store).1
        = (downloadResource seams target turns sink store).1 ∧
      (downloadResource seams target turns { sink with staged } store).2.trace
        = (downloadResource seams target turns sink store).2.trace ∧
      ∀ n, (downloadResource seams target turns sink store).1 = .ok n →
        ∃ commitment artifact, commitment.totalLength = n ∧
          PromotesFetched seams commitment sink.artifacts
            (downloadResource seams target turns sink store).2 artifact ∧
          PromotesFetched seams commitment sink.artifacts
            (downloadResource seams target turns { sink with staged } store).2 artifact := by
  have halike : Alike (JobWorld.start seams target sink store)
      (JobWorld.start seams target { sink with staged } store) := ⟨rfl, rfl, rfl, rfl, rfl⟩
  obtain ⟨hentered, hloop⟩ : _ ∧ Alike (loopStart seams target sink store)
      (loopStart seams target { sink with staged } store) := blind_entering hverify _ _ halike
  obtain ⟨hscheduled, hended⟩ : _ ∧ Alike (loopRun seams target sink store turns).2
      (loopRun seams target { sink with staged } store turns).2 :=
    blind_scheduleLoop turns _ _ hloop
  cases henter : (entering seams target (JobWorld.start seams target sink store)).1 with
  | error halt =>
    have henter' := hentered.symm.trans henter
    rw [downloadResource_of_not_entered henter, downloadResource_of_not_entered henter']
    exact ⟨rfl, hloop.trace, fun n hn => by cases hn⟩
  | ok commitment =>
    have henter' := hentered.symm.trans henter
    rw [downloadResource_of_entered henter, downloadResource_of_entered henter']
    cases hover : (loopRun seams target sink store turns).1 with
    | error halt =>
      have hover' := hscheduled.symm.trans hover
      rw [entered_of_not_scheduled hover, entered_of_not_scheduled hover']
      exact ⟨rfl, hended.trace, fun n hn => by cases hn⟩
    | ok =>
      have hover' := hscheduled.symm.trans hover
      rw [entered_of_scheduled hover, entered_of_scheduled hover']
      obtain ⟨hplanned, hsourced, hall⟩ := loopRun_sourced hverify henter hover
      obtain ⟨-, hsourced', -⟩ := loopRun_sourced hverify henter' hover'
      have htake := hsourced.take_eq hsourced' hended hplanned hall
      obtain ⟨hanswer, htrace, hsame⟩ := finish_alike hended htake
      refine ⟨hanswer, htrace, fun n hn => ?_⟩
      rw [hsame n hn]
      obtain ⟨htotal, hpromotes⟩ :=
        promotesFetched_of_finish hplanned hsourced hall hended.unhashed hn
      rw [loopRun_artifacts] at hpromotes
      exact ⟨commitment, _, htotal, hpromotes, hpromotes⟩

/-- The small resource without the backstop. -/
def unhashedSeams : ResourceSeams :=
  { smallResourceSeams with config := { smallResourceSeams.config with verifyWholeResource := false } }

/-- A checkpoint that says that all of the small resource is done. -/
def doneStore : StateStore where
  checkpoints key := if key = "small" then some {
    key
    totalLength := 3
    chunkLens := [2, 1]
    root := some (hexOf smallRoot)
    inclusionProof := some "proof"
    doneRanges := {0, 1} } else none
  verdicts _ := []

/-- Garbage of the right length that is staged under it is not what is promoted. -/
theorem staging_never_trusted_small :
    (downloadResource unhashedSeams smallTarget [.completed 0, .completed 0]
        { emptySink with staged := [170, 170, 170] } doneStore).1 = .ok 3 ∧
      ∃ commitment artifact, commitment.totalLength = 3 ∧
        PromotesFetched unhashedSeams commitment []
          (downloadResource unhashedSeams smallTarget [.completed 0, .completed 0]
            { emptySink with staged := [170, 170, 170] } doneStore).2 artifact := by
  have hrun : (downloadResource unhashedSeams smallTarget [.completed 0, .completed 0]
      emptySink doneStore).1 = .ok 3 := by decide +kernel
  obtain ⟨hanswer, -, hpromotes⟩ := staging_never_trusted unhashedSeams smallTarget
    [.completed 0, .completed 0] emptySink [170, 170, 170] doneStore rfl
  obtain ⟨commitment, artifact, htotal, -, hfetched⟩ := hpromotes 3 hrun
  exact ⟨hanswer.trans hrun, commitment, artifact, htotal, hfetched⟩

end DigDownload
