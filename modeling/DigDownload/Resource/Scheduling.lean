import Mathlib.Data.List.Count
import DigDownload.Resource.Planning

/-!
# The scheduler's bookkeeping

The range states, the counters per source, the outstanding fetches, the byte counter and
the checkpoint are updated by different steps of the loop. `Job.Scheduled` says how they
agree; with `Job.Planned` it is kept by every step.
-/

namespace DigDownload

open Prog Relation

/-! ## Handing out and taking back -/

/-- Whether the range is with a source. -/
def RangeState.isInFlight : RangeState → Bool
  | inFlight _ => true
  | _ => false

namespace Job

variable {job : Job} {choice range : Nat} {fetch : Fetch} {peer : String}

/-- A job whose fetches, counters and range states agree, within the caps. -/
structure Scheduled (config : DownloadConfig) (job : Job) : Prop where
  nodup : (job.inflight.map (·.range)).Nodup
  state : ∀ fetch ∈ job.inflight, job.rangeState[fetch.range]? = some (.inFlight fetch.peer)
  count : ∀ peer, job.rangeState.countP (· = .inFlight peer) = job.inflight.countP (·.peer = peer)
  total : job.rangeState.countP RangeState.isInFlight = job.inflight.length
  perSource : ∀ peer, job.inflightOf peer = job.inflight.countP (·.peer = peer)
  cap : ∀ peer, job.inflightOf peer ≤ config.maxInflightPerSource
  room : job.inflight.length ≤ config.maxConcurrency

theorem inflightOf_taken :
    (job.taken choice fetch).inflightOf peer
      = if peer = fetch.peer then job.inflightOf peer - 1 else job.inflightOf peer := by
  unfold taken release inflightOf
  dsimp only
  cases hlookup : job.inflightPerSource.lookup fetch.peer with
  | none =>
    by_cases hp : peer = fetch.peer
    · subst hp
      simp [hlookup]
    · simp [hp]
  | some n =>
    by_cases hp : peer = fetch.peer
    · subst hp
      simp [hlookup]
    · simp [hp, AList.lookup_insert_ne hp]

theorem inflightOf_issue :
    (job.issue range peer).inflightOf q
      = if q = peer then job.inflightOf peer + 1 else job.inflightOf q := by
  unfold issue inflightOf
  by_cases hp : q = peer
  · subst hp
    simp
  · simp [hp, AList.lookup_insert_ne hp]

/-- Fetches are counted whether they are taken out of the list or not. -/
theorem countP_eraseIdx (hfetch : job.inflight[choice]? = some fetch) (p : Fetch → Bool) :
    job.inflight.countP p = (job.inflight.eraseIdx choice).countP p + if p fetch then 1 else 0 := by
  obtain ⟨hlt, rfl⟩ := List.getElem?_eq_some_iff.mp hfetch
  rw [← (List.getElem_cons_eraseIdx_perm hlt).countP_eq p, List.countP_cons]

theorem length_eraseIdx (hfetch : job.inflight[choice]? = some fetch) :
    job.inflight.length = (job.inflight.eraseIdx choice).length + 1 := by
  obtain ⟨hlt, rfl⟩ := List.getElem?_eq_some_iff.mp hfetch
  rw [List.length_eraseIdx_of_lt hlt]
  omega

namespace Scheduled

variable {config : DownloadConfig}

/-- Handing out a pending range within the caps keeps the counters in agreement. -/
theorem issue (h : job.Scheduled config) (hroom : job.inflight.length < config.maxConcurrency)
    (hpending : job.nextPending = some range) (hcap : job.underCap config peer = true) :
    (job.issue range peer).Scheduled config := by
  have hstate := nextPending_eq_some hpending
  obtain ⟨hlt, hget⟩ := List.getElem?_eq_some_iff.mp hstate
  have hfresh : ∀ fetch ∈ job.inflight, fetch.range ≠ range := by
    intro fetch hmem heq
    have := h.state fetch hmem
    rw [heq, hstate] at this
    cases this
  refine ⟨?_, ?_, fun q => ?_, ?_, fun q => ?_, fun q => ?_, ?_⟩
  · show ((job.inflight ++ [(_ : Fetch)]).map (·.range)).Nodup
    rw [List.map_append, List.nodup_append]
    refine ⟨h.nodup, by simp, fun i hi j hj heq => ?_⟩
    obtain ⟨fetch, hmem, rfl⟩ := List.mem_map.mp hi
    rw [List.map_singleton, List.mem_singleton] at hj
    exact hfresh fetch hmem (heq.trans hj)
  · intro fetch hmem
    show (job.rangeState.set range (.inFlight peer))[fetch.range]? = _
    rcases List.mem_append.mp hmem with hold | hnew
    · rw [List.getElem?_set_ne (hfresh fetch hold).symm, h.state fetch hold]
    · rw [List.mem_singleton.mp hnew]
      simp [hlt]
  · show (job.rangeState.set range (.inFlight peer)).countP (· = .inFlight q)
      = (job.inflight ++ [(_ : Fetch)]).countP (·.peer = q)
    rw [List.countP_set hlt, h.count, hget, List.countP_append]
    simp [eq_comm]
  · show (job.rangeState.set range (.inFlight peer)).countP RangeState.isInFlight
      = (job.inflight ++ [(_ : Fetch)]).length
    rw [List.countP_set hlt, h.total, hget, List.length_append]
    rfl
  · show _ = (job.inflight ++ [(_ : Fetch)]).countP (·.peer = q)
    rw [inflightOf_issue, List.countP_append]
    by_cases hq : q = peer
    · subst hq
      simp [h.perSource]
    · simp [hq, h.perSource, Ne.symm hq]
  · rw [inflightOf_issue]
    split
    · exact of_decide_eq_true hcap
    · exact h.cap q
  · show (job.inflight ++ [(_ : Fetch)]).length ≤ _
    rw [List.length_append]
    exact hroom

/-- What is left of a job when the fetch of a range has ended and the range has another
state. -/
theorem settle (h : job.Scheduled config) (hfetch : job.inflight[choice]? = some fetch)
    {job' : Job} (state : RangeState) (hstate : state.isInFlight = false)
    (hinflight : job'.inflight = job.inflight.eraseIdx choice)
    (hper : ∀ q, job'.inflightOf q = (job.taken choice fetch).inflightOf q)
    (hrange : job'.rangeState = job.rangeState.set fetch.range state) :
    job'.Scheduled config := by
  have hmem : fetch ∈ job.inflight := List.mem_of_getElem? hfetch
  obtain ⟨hlt, hget⟩ := List.getElem?_eq_some_iff.mp (h.state fetch hmem)
  have hperm : (fetch :: job.inflight.eraseIdx choice).Perm job.inflight := by
    obtain ⟨hlt', rfl⟩ := List.getElem?_eq_some_iff.mp hfetch
    exact List.getElem_cons_eraseIdx_perm hlt'
  have hnodup := ((hperm.map (·.range)).nodup_iff).mpr h.nodup
  rw [List.map_cons, List.nodup_cons] at hnodup
  have hne : ∀ q, state ≠ .inFlight q := fun q heq => by
    rw [heq] at hstate
    cases hstate
  refine ⟨by rw [hinflight]; exact hnodup.2, fun other hother => ?_, fun q => ?_, ?_,
    fun q => ?_, fun q => ?_, ?_⟩
  · rw [hinflight] at hother
    have hother' : fetch.range ≠ other.range := fun heq =>
      hnodup.1 (heq ▸ List.mem_map_of_mem hother)
    rw [hrange, List.getElem?_set_ne hother']
    exact h.state other (hperm.subset (List.mem_cons_of_mem _ hother))
  · have hcount := countP_eraseIdx hfetch (·.peer = q)
    rw [hrange, List.countP_set hlt, h.count, hget, hinflight, hcount]
    simp [hne q, eq_comm]
  · rw [hrange, List.countP_set hlt, h.total, hget, hinflight, length_eraseIdx hfetch, hstate]
    simp [RangeState.isInFlight]
  · have hcount := countP_eraseIdx hfetch (·.peer = q)
    rw [hper, inflightOf_taken, h.perSource, hinflight, hcount]
    by_cases hq : q = fetch.peer
    · subst hq
      simp
    · simp [hq, Ne.symm hq]
  · rw [hper, inflightOf_taken]
    have := h.cap q
    split <;> omega
  · rw [hinflight]
    have := length_eraseIdx hfetch
    have := h.room
    omega

end Scheduled

namespace Planned

variable {config : DownloadConfig} {commitment : ResourceCommitment}

/-- A change that makes no range done and no done range undone. -/
theorem keep (h : job.Planned config commitment) {job' : Job}
    (hcommitment : job'.commitment = job.commitment) (hranges : job'.ranges = job.ranges)
    (hlen : job'.rangeState.length = job.rangeState.length)
    (hdone : ∀ i : Nat, job'.rangeState[i]? = some .done ↔ job.rangeState[i]? = some .done)
    (hresume : job'.resume = job.resume) (hbytes : job'.bytesDone = job.bytesDone) :
    job'.Planned config commitment := by
  have hlength : job'.doneLength = job.doneLength := by
    unfold doneLength doneRanges
    rw [hranges]
    exact congrArg (fun l : List Range => (l.map (·.length)).sum)
      (List.filter_congr fun r _ => decide_eq_decide.mpr (hdone r.index))
  refine ⟨hcommitment.trans h.committed, hranges.trans h.ranges, ?_, fun i hi => ?_, ?_, ?_, ?_, ?_, ?_⟩
  · rw [hlen, h.states, hranges]
  · rw [hranges] at hi
    rw [hdone, hresume, h.done i hi]
  · rw [hbytes, h.bytes, hlength]
  · rw [hresume, h.chunkLens]
  · rw [hresume, h.totalLength]
  · rw [hresume, h.root]
  · rw [hresume, h.proof]

/-- A verified range is done from then on. -/
theorem complete (h : job.Planned config commitment) {r : Range} (hr : job.ranges[range]? = some r)
    (hstate : job.rangeState[range]? ≠ some .done) (bytes : Bytes) :
    (job.complete r range peer bytes).Planned config commitment := by
  obtain ⟨hi, -⟩ := List.getElem?_eq_some_iff.mp hr
  have hlt : range < job.rangeState.length := by rw [h.states]; exact hi
  have hlength := h.doneLength_set hr hlt hstate rfl
  refine ⟨h.committed, h.ranges, ?_, fun i hi => ?_, ?_, h.chunkLens, h.totalLength, h.root,
    h.proof⟩
  · show (job.rangeState.set range .done).length = job.ranges.length
    rw [List.length_set, h.states]
  · show (job.rangeState.set range .done)[i]? = some .done ↔
      i ∈ insert range job.resume.doneRanges
    rw [Finset.mem_insert]
    by_cases hri : range = i
    · subst hri
      simp [hlt]
    · rw [List.getElem?_set_ne hri, h.done i hi]
      exact ⟨Or.inr, fun hd => hd.resolve_left fun heq => hri heq.symm⟩
  · show saturatingAdd job.bytesDone r.length
      = { job with rangeState := job.rangeState.set range .done }.doneLength
    rw [hlength, h.bytes]
    -- the done bytes are bytes of the resource, so the counter does not saturate
    have hle := Job.doneLength_le_sum { job with rangeState := job.rangeState.set range .done }
    rw [hlength, h.sum_rangeLens] at hle
    exact Nat.min_eq_left (Nat.le_trans hle commitment.fits)

end Planned

end Job

/-! ## Every step keeps the books -/

/-- The bookkeeping of a world whose job has a plan. -/
structure Books (config : DownloadConfig) (commitment : ResourceCommitment) (job : Job) : Prop where
  planned : job.Planned config commitment
  scheduled : job.Scheduled config

section Books

variable {seams : ResourceSeams} {content : ContentId} {commitment : ResourceCommitment}
  {w w' : JobWorld} {job job' : Job}

/-- The books do not depend on the rest of the memory. -/
theorem Books.aside (h : Books seams.config commitment job)
    (hjob : job' = { job with
      providers := job'.providers
      tracker := job'.tracker
      hasher := job'.hasher
      paused := job'.paused
      relocateAttempts := job'.relocateAttempts
      relocatedSinceProgress := job'.relocatedSinceProgress
      totalFailures := job'.totalFailures
      lastRefresh := job'.lastRefresh }) : Books seams.config commitment job' := by
  rw [hjob]
  exact ⟨h.planned.keep rfl rfl rfl (fun _ => Iff.rfl) rfl rfl,
    ⟨h.scheduled.nodup, h.scheduled.state, h.scheduled.count, h.scheduled.total,
      h.scheduled.perSource, h.scheduled.cap, h.scheduled.room⟩⟩

/-- The state of a range whose fetch has ended. -/
theorem Books.inFlight (h : Books seams.config commitment w.own) {choice : Nat} {fetch : Fetch}
    (hfetch : w.own.inflight[choice]? = some fetch) :
    w.own.rangeState[fetch.range]? = some (.inFlight fetch.peer) :=
  h.scheduled.state fetch (List.mem_of_getElem? hfetch)

theorem JobStep.books (hstep : JobStep seams content w w')
    (h : Books seams.config commitment w.own) : Books seams.config commitment w'.own := by
  cases hstep with
  | look => exact h
  | learn => exact h.aside rfl
  | refresh => exact h.aside rfl
  | relocate => exact h.aside rfl
  | relocated => exact h.aside rfl
  | pause => exact h.aside rfl
  | save => exact h
  | unsaved => exact h
  | @issue range peer _ hroom hpending hcap =>
    have hstate := Job.nextPending_eq_some hpending
    refine ⟨h.planned.keep rfl rfl (List.length_set ..) (fun i => ?_) rfl rfl,
      h.scheduled.issue hroom hpending hcap⟩
    exact Job.done_set_iff (by simp [hstate]) (by simp) i
  | @succeed choice fetch fetched commitment' range job hended hverified hjob =>
    have hstate := h.inFlight hended.outstanding
    have htaken : (w.own.taken choice fetch).Planned seams.config commitment :=
      h.planned.keep (by simp) (by simp) (by simp) (fun i => by simp) (by simp) (by simp)
    subst hjob
    refine ⟨htaken.complete (by simpa using hended.planned) (by simp [hstate]) _, ?_⟩
    exact h.scheduled.settle hended.outstanding .done rfl
      (by simp [Job.complete, Job.feed]) (fun q => rfl) (by simp [Job.complete, Job.feed])
  | @fail choice fetch answer commitment' range e hended hfails hrecoverable =>
    have hstate := h.inFlight hended.outstanding
    refine ⟨h.planned.keep (by simp [Job.requeue]) (by simp [Job.requeue])
      (by simp [Job.requeue]) (fun i => ?_) (by simp [Job.requeue]) (by simp [Job.requeue]), ?_⟩
    · simp only [Job.requeue, Job.taken_rangeState]
      exact Job.done_set_iff (by simp [hstate]) (by simp) i
    · exact h.scheduled.settle hended.outstanding .pending rfl
        (by simp [Job.requeue]) (fun q => rfl) (by simp [Job.requeue])

theorem JobSteps.books (hsteps : JobSteps seams content w w')
    (h : Books seams.config commitment w.own) : Books seams.config commitment w'.own := by
  induction hsteps with
  | refl => exact h
  | tail _ hstep ih => exact hstep.books ih

/-- A job that has just planned has nothing handed out. -/
theorem Books.start (h : job.Planned seams.config commitment) (hinflight : job.inflight = [])
    (hper : job.inflightPerSource = ∅) (hunissued : job.Unissued) :
    Books seams.config commitment job := by
  have hof : ∀ peer, job.inflightOf peer = 0 := fun peer => by simp [Job.inflightOf, hper]
  refine ⟨h, by simp [hinflight], by simp [hinflight], fun peer => ?_, ?_, fun peer => ?_,
    fun peer => ?_, ?_⟩
  · rw [hinflight, List.countP_nil, List.countP_eq_zero]
    intro state hmem heq
    exact hunissued peer (of_decide_eq_true heq ▸ hmem)
  · rw [hinflight, List.length_nil, List.countP_eq_zero]
    intro state hmem hwith
    cases state with
    | inFlight peer => exact hunissued peer hmem
    | _ => cases hwith
  · rw [hof, hinflight, List.countP_nil]
  · rw [hof]
    exact Nat.zero_le _
  · rw [hinflight]
    exact Nat.zero_le _

end Books

/-! ## The ledger -/

/-- What the scheduler does to ranges, as it can be read off the trace. -/
inductive Tally where
  | issued (range : Nat)
  | completed (range : Nat)
  | failed (range : Nat)
  | relocated
  deriving DecidableEq, Repr

namespace Tally

def isIssued : Tally → Bool
  | issued _ => true
  | _ => false

def isCompleted : Tally → Bool
  | completed _ => true
  | _ => false

def isFailed : Tally → Bool
  | failed _ => true
  | _ => false

def isRelocated : Tally → Bool
  | relocated => true
  | _ => false

end Tally

def Effect.tally : Effect ResourceAsk → Option Tally
  | .ask (.issue range _) => some (.issued range)
  | .ask (.emit (.rangeCompleted range _ _)) => some (.completed range)
  | .ask (.emit (.rangeFailed range _ _)) => some (.failed range)
  | .ask .relocate => some .relocated
  | _ => none

/-- The entries of a trace that the bookkeeping is about. -/
def ledger (trace : List (Effect ResourceAsk)) : List Tally := trace.filterMap Effect.tally

@[simp] theorem ledger_append (trace trace' : List (Effect ResourceAsk)) :
    ledger (trace ++ trace') = ledger trace ++ ledger trace' := List.filterMap_append

theorem Effect.IsLook.tally {e : Effect ResourceAsk} (h : e.IsLook) : e.tally = none := by
  unfold Effect.IsLook at h
  split at h <;> first | rfl | exact h.elim

theorem Effect.IsSetup.tally {e : Effect ResourceAsk} (h : e.IsSetup) : e.tally = none := by
  unfold Effect.IsSetup at h
  split at h <;> first | rfl | exact h.elim

theorem ledger_eq_nil {trace : List (Effect ResourceAsk)} (h : ∀ e ∈ trace, e.tally = none) :
    ledger trace = [] := List.filterMap_eq_nil_iff.mpr h

/-- The books and the ledger: what was issued has come back or is outstanding, a range is
completed once at most, and failures and relocates are counted. -/
structure Accounts (w : JobWorld) : Prop where
  balance : (ledger w.trace).countP Tally.isIssued = (ledger w.trace).countP Tally.isCompleted +
    (ledger w.trace).countP Tally.isFailed + w.own.inflight.length
  once : ∀ i : Nat, (ledger w.trace).count (.completed i) ≤
    if w.own.rangeState[i]? = some .done then 1 else 0
  completed : (ledger w.trace).countP Tally.isCompleted ≤ w.own.rangeState.countP (· = .done)
  failures : w.own.totalFailures = min ((ledger w.trace).countP Tally.isFailed) usizeMax
  relocates : (ledger w.trace).countP Tally.isRelocated = w.own.relocateAttempts

section Accounts

variable {seams : ResourceSeams} {content : ContentId} {commitment : ResourceCommitment}
  {w w' : JobWorld}

/-- What one step enters into the ledger, and what it does to the counters and the range
states that the ledger speaks of. -/
inductive Entry (w w' : JobWorld) : Prop where
  | none (hledger : ledger w'.trace = ledger w.trace)
      (hstate : w'.own.rangeState = w.own.rangeState) (hinflight : w'.own.inflight = w.own.inflight)
      (hfailures : w'.own.totalFailures = w.own.totalFailures)
      (hrelocates : w'.own.relocateAttempts = w.own.relocateAttempts)
      (hbytes : w'.own.bytesDone = w.own.bytesDone)
  | issued (range : Nat) (peer : String) (hledger : ledger w'.trace = ledger w.trace ++ [.issued range])
      (hpending : w.own.rangeState[range]? = some .pending)
      (hstate : w'.own.rangeState = w.own.rangeState.set range (.inFlight peer))
      (hinflight : w'.own.inflight.length = w.own.inflight.length + 1)
      (hfailures : w'.own.totalFailures = w.own.totalFailures)
      (hrelocates : w'.own.relocateAttempts = w.own.relocateAttempts)
      (hbytes : w'.own.bytesDone = w.own.bytesDone)
  | completed (range : Nat) (peer : String)
      (hledger : ledger w'.trace = ledger w.trace ++ [.completed range])
      (hold : w.own.rangeState[range]? = some (.inFlight peer))
      (hstate : w'.own.rangeState = w.own.rangeState.set range .done)
      (hinflight : w.own.inflight.length = w'.own.inflight.length + 1)
      (hfailures : w'.own.totalFailures = w.own.totalFailures)
      (hrelocates : w'.own.relocateAttempts = w.own.relocateAttempts)
      (hbytes : w.own.bytesDone ≤ w'.own.bytesDone)
  | failed (range : Nat) (peer : String)
      (hledger : ledger w'.trace = ledger w.trace ++ [.failed range])
      (hold : w.own.rangeState[range]? = some (.inFlight peer))
      (hstate : w'.own.rangeState = w.own.rangeState.set range .pending)
      (hinflight : w.own.inflight.length = w'.own.inflight.length + 1)
      (hfailures : w'.own.totalFailures = min (w.own.totalFailures + 1) usizeMax)
      (hrelocates : w'.own.relocateAttempts = w.own.relocateAttempts)
      (hbytes : w'.own.bytesDone = w.own.bytesDone)
  | relocated (hledger : ledger w'.trace = ledger w.trace ++ [.relocated])
      (hstate : w'.own.rangeState = w.own.rangeState) (hinflight : w'.own.inflight = w.own.inflight)
      (hfailures : w'.own.totalFailures = w.own.totalFailures)
      (hrelocates : w'.own.relocateAttempts = w.own.relocateAttempts + 1)
      (hbytes : w'.own.bytesDone = w.own.bytesDone)

theorem JobStep.entry (hstep : JobStep seams content w w')
    (h : Books seams.config commitment w.own) : Entry w w' := by
  cases hstep with
  | look he => exact .none (by simp [ledger, List.filterMap_append, he.tally]) rfl rfl rfl rfl rfl
  | learn => exact .none rfl rfl rfl rfl rfl rfl
  | refresh => exact .none rfl rfl rfl rfl rfl rfl
  | relocate => exact .relocated (by simp [ledger, Effect.tally]) rfl rfl rfl rfl rfl
  | relocated => exact .none rfl rfl rfl rfl rfl rfl
  | pause => exact .none rfl rfl rfl rfl rfl rfl
  | save => exact .none (by simp [ledger, Effect.tally]) rfl rfl rfl rfl rfl
  | unsaved => exact .none (by simp [ledger, Effect.tally]) rfl rfl rfl rfl rfl
  | @issue range peer _ _ hpending _ =>
    exact .issued range peer (by simp [ledger, Effect.tally]) (Job.nextPending_eq_some hpending) rfl
      (by simp [Job.issue]) rfl rfl rfl
  | @succeed choice fetch fetched commitment' range job hended _ hjob =>
    subst hjob
    refine .completed fetch.range fetch.peer (by rw [ledger_append]; rfl)
      (h.inFlight hended.outstanding) (by simp [Job.complete, Job.feed])
      (by simpa [Job.complete, Job.feed] using Job.length_eraseIdx hended.outstanding)
      (by simp [Job.complete, Job.feed]) (by simp [Job.complete, Job.feed]) ?_
    show w.own.bytesDone ≤ saturatingAdd (w.own.taken choice fetch).bytesDone range.length
    have hle := Job.doneLength_le_sum w.own
    have hfits := commitment.fits
    rw [h.planned.sum_rangeLens, ← h.planned.bytes] at hle
    rw [Job.taken_bytesDone]
    unfold saturatingAdd
    omega
  | @fail choice fetch answer commitment' range e hended _ _ =>
    exact .failed fetch.range fetch.peer (by rw [ledger_append]; rfl)
      (h.inFlight hended.outstanding) (by simp [Job.requeue])
      (by simpa [Job.requeue] using Job.length_eraseIdx hended.outstanding)
      (by simp [Job.requeue]) (by simp [Job.requeue]) (by simp [Job.requeue])

/-- A range that is done stays done. -/
theorem Entry.done (h : Entry w w') {i : Nat} (hdone : w.own.rangeState[i]? = some .done) :
    w'.own.rangeState[i]? = some .done := by
  have hset : ∀ {range : Nat} {old new : RangeState}, w.own.rangeState[range]? = some old →
      old ≠ .done → w'.own.rangeState = w.own.rangeState.set range new →
      w'.own.rangeState[i]? = some .done := by
    intro range old new hold hne hstate
    rw [hstate, List.getElem?_set_ne, hdone]
    rintro rfl
    rw [hold, Option.some.injEq] at hdone
    exact hne hdone
  cases h with
  | none _ hstate => rwa [hstate]
  | relocated _ hstate => rwa [hstate]
  | issued range peer _ hpending hstate => exact hset hpending (by simp) hstate
  | completed range peer _ hold hstate => exact hset hold (by simp) hstate
  | failed range peer _ hold hstate => exact hset hold (by simp) hstate

/-- A range that is done is not issued. -/
theorem Entry.not_issued (h : Entry w w') {i : Nat} (hdone : w.own.rangeState[i]? = some .done) :
    (ledger w'.trace).count (.issued i) = (ledger w.trace).count (.issued i) := by
  cases h with
  | none hledger => rw [hledger]
  | completed range peer hledger => simp [hledger]
  | failed range peer hledger => simp [hledger]
  | relocated hledger => simp [hledger]
  | issued range peer hledger hpending =>
    have hne : range ≠ i := by
      rintro rfl
      rw [hpending] at hdone
      cases hdone
    simp [hledger, hne]

theorem Entry.bytes_le (h : Entry w w') : w.own.bytesDone ≤ w'.own.bytesDone := by
  cases h with
  | none _ _ _ _ _ hbytes => exact Nat.le_of_eq hbytes.symm
  | issued _ _ _ _ _ _ _ _ hbytes => exact Nat.le_of_eq hbytes.symm
  | completed _ _ _ _ _ _ _ _ hbytes => exact hbytes
  | failed _ _ _ _ _ _ _ _ hbytes => exact Nat.le_of_eq hbytes.symm
  | relocated _ _ _ _ _ hbytes => exact Nat.le_of_eq hbytes.symm

/-- A counter that saturates counts one more. -/
theorem min_succ_min (a b : Nat) : min (min a b + 1) b = min (a + 1) b := by omega

theorem Entry.accounts (h : Entry w w') (ha : Accounts w) : Accounts w' := by
  obtain ⟨hbalance, honce, hcompleted, hfailed, hrelocated⟩ := ha
  cases h with
  | none hledger hstate hinflight hfailures hrelocates =>
    refine ⟨?_, ?_, ?_, ?_, ?_⟩ <;> rw [hledger]
    · rw [hbalance, hinflight]
    · rwa [hstate]
    · rwa [hstate]
    · rw [hfailures, hfailed]
    · rw [hrelocates, hrelocated]
  | relocated hledger hstate hinflight hfailures hrelocates =>
    refine ⟨?_, fun i => ?_, ?_, ?_, ?_⟩ <;> rw [hledger]
    · simpa [Tally.isIssued, Tally.isCompleted, Tally.isFailed, hinflight] using hbalance
    · simpa [hstate] using honce i
    · simpa [Tally.isCompleted, hstate] using hcompleted
    · simpa [Tally.isFailed, hfailures] using hfailed
    · simpa [Tally.isRelocated, hrelocates] using hrelocated
  | issued range peer hledger hpending hstate hinflight hfailures hrelocates =>
    obtain ⟨hlt, hget⟩ := List.getElem?_eq_some_iff.mp hpending
    refine ⟨?_, fun i => ?_, ?_, ?_, ?_⟩ <;> rw [hledger]
    · simp [Tally.isIssued, Tally.isCompleted, Tally.isFailed, hinflight]
      omega
    · have := honce i
      have hold : w.own.rangeState[range]? ≠ some .done := by simp [hpending]
      have hnew : RangeState.inFlight peer ≠ .done := by simp
      have hiff := Job.done_set_iff hold hnew i
      simpa [hstate, hiff] using this
    · simpa [Tally.isCompleted, hstate, List.countP_set hlt, hget] using hcompleted
    · simpa [Tally.isFailed, hfailures] using hfailed
    · simpa [Tally.isRelocated, hrelocates] using hrelocated
  | completed range peer hledger hold hstate hinflight hfailures hrelocates =>
    obtain ⟨hlt, hget⟩ := List.getElem?_eq_some_iff.mp hold
    refine ⟨?_, fun i => ?_, ?_, ?_, ?_⟩ <;> rw [hledger]
    · simp [Tally.isIssued, Tally.isCompleted, Tally.isFailed]
      omega
    · have := honce i
      by_cases hi : range = i
      · subst hi
        rw [hold] at this
        simp at this
        simp [hstate, hlt, this]
      · simp only [List.count_append, List.count_singleton, hstate, List.getElem?_set_ne hi]
        simpa [hi] using this
    · simp [Tally.isCompleted, hstate, List.countP_set hlt, hget]
      exact hcompleted
    · simpa [Tally.isFailed, hfailures] using hfailed
    · simpa [Tally.isRelocated, hrelocates] using hrelocated
  | failed range peer hledger hold hstate hinflight hfailures hrelocates =>
    obtain ⟨hlt, hget⟩ := List.getElem?_eq_some_iff.mp hold
    refine ⟨?_, fun i => ?_, ?_, ?_, ?_⟩ <;> rw [hledger]
    · simp [Tally.isIssued, Tally.isCompleted, Tally.isFailed]
      omega
    · have := honce i
      have hold' : w.own.rangeState[range]? ≠ some .done := by simp [hold]
      have hnew : RangeState.pending ≠ .done := by simp
      have hiff := Job.done_set_iff hold' hnew i
      simpa [hstate, hiff] using this
    · simpa [Tally.isCompleted, hstate, List.countP_set hlt, hget] using hcompleted
    · have hcount : [Tally.failed range].countP Tally.isFailed = 1 := rfl
      rw [hfailures, hfailed, List.countP_append, hcount, min_succ_min]
    · simpa [Tally.isRelocated, hrelocates] using hrelocated

/-- The entries of a kind are as many as before. -/
def SameCount (p : Tally → Bool) (w w' : JobWorld) : Prop :=
  (ledger w'.trace).countP p = (ledger w.trace).countP p

instance {p : Tally → Bool} : Std.Refl (SameCount p) := ⟨fun _ => rfl⟩

instance {p : Tally → Bool} : IsTrans JobWorld (SameCount p) := ⟨fun _ _ _ h h' => Eq.trans h' h⟩

/-- Effects that are no entries of a kind do not change their number. -/
theorem closedUnderLoop_sameCount {p : Tally → Bool} :
    ClosedUnderLoop (fun e => ∀ t, e.tally = some t → p t = false) (SameCount p) := by
  refine ⟨fun w store e he _ => ?_, fun w own => rfl⟩
  show (ledger (w.trace ++ [e])).countP p = _
  rw [ledger_append, List.countP_append]
  cases ht : e.tally with
  | none => simp [ledger, ht]
  | some t => simp [ledger, ht, he t ht]

/-- What holds between two worlds that steps of a job connect. -/
theorem JobSteps.accounts (hsteps : JobSteps seams content w w')
    (hb : Books seams.config commitment w.own) (ha : Accounts w) : Accounts w' := by
  induction hsteps with
  | refl => exact ha
  | tail hsteps hstep ih => exact (hstep.entry (JobSteps.books hsteps hb)).accounts ih

theorem JobSteps.bytes_le (hsteps : JobSteps seams content w w')
    (hb : Books seams.config commitment w.own) : w.own.bytesDone ≤ w'.own.bytesDone := by
  induction hsteps with
  | refl => exact Nat.le_refl _
  | tail hsteps hstep ih =>
    exact Nat.le_trans ih (hstep.entry (JobSteps.books hsteps hb)).bytes_le

theorem JobSteps.done (hsteps : JobSteps seams content w w')
    (hb : Books seams.config commitment w.own) {i : Nat}
    (hdone : w.own.rangeState[i]? = some .done) :
    w'.own.rangeState[i]? = some .done ∧
      (ledger w'.trace).count (.issued i) = (ledger w.trace).count (.issued i) := by
  induction hsteps with
  | refl => exact ⟨hdone, rfl⟩
  | tail hsteps hstep ih =>
    have hentry := hstep.entry (JobSteps.books hsteps hb)
    exact ⟨hentry.done ih.1, (hentry.not_issued ih.1).trans ih.2⟩

end Accounts

/-! ## Entering with balanced books -/

/-- The world in which a download of a target enters the scheduling loop. -/
def loopStart (seams : ResourceSeams) (target : Target) (sink : Sink) (store : StateStore) :
    JobWorld := (entering seams target (JobWorld.start seams target sink store)).2

/-- The run of the scheduling loop of a download under a list of turns. -/
def loopRun (seams : ResourceSeams) (target : Target) (sink : Sink) (store : StateStore)
    (turns : List Turn) : Except Halt Unit × JobWorld :=
  scheduleLoop seams target.content (downloadKey seams target) turns
    (loopStart seams target sink store)

section Start

variable {seams : ResourceSeams} {target : Target} {sink : Sink} {store : StateStore}
  {commitment : ResourceCommitment}

/-- A job that only sets up has issued nothing. -/
theorem ledger_of_setup {w : JobWorld}
    (h : Appends Effect.IsSetup (JobWorld.start seams target sink store) w) : ledger w.trace = [] := by
  obtain ⟨seg, hseg, hsetup⟩ := h
  rw [show w.trace = [] ++ seg from hseg, List.nil_append]
  exact ledger_eq_nil fun e he => (hsetup e he).tally

/-- How the loop is entered: nothing was issued, and the plan is the one of the commitment. -/
theorem loopStart_spec
    (h : (entering seams target (JobWorld.start seams target sink store)).1 = .ok commitment) :
    Books seams.config commitment (loopStart seams target sink store).own ∧
      Accounts (loopStart seams target sink store) ∧
      SameIdle (Job.new seams target) (loopStart seams target sink store).own ∧
      Appends Effect.IsSetup (JobWorld.start seams target sink store)
        (loopStart seams target sink store) := by
  obtain ⟨⟨hplanned, hunissued⟩, hidle, happends⟩ :=
    (wp_entering seams target (JobWorld.start seams target sink store)).ok h
  have hidle' : SameIdle (Job.new seams target) (loopStart seams target sink store).own := hidle
  have hledger : ledger (loopStart seams target sink store).trace = [] := ledger_of_setup happends
  refine ⟨Books.start hplanned hidle'.inflight hidle'.inflightPerSource hunissued,
    ⟨?_, fun i => ?_, ?_, ?_, ?_⟩, hidle', happends⟩
  · rw [hledger, hidle'.inflight]
    rfl
  · rw [hledger, List.count_nil]
    exact Nat.zero_le _
  · rw [hledger, List.countP_nil]
    exact Nat.zero_le _
  · rw [hledger, hidle'.totalFailures]
    exact (Nat.zero_min _).symm
  · rw [hledger, hidle'.relocateAttempts]
    rfl

/-- A download that has entered the loop goes on from there. -/
theorem downloadResource_of_entered {turns : List Turn}
    (h : (entering seams target (JobWorld.start seams target sink store)).1 = .ok commitment) :
    downloadResource seams target turns sink store
      = entered seams target turns commitment (loopStart seams target sink store) := by
  rw [downloadResource, runJob_eq]
  exact bind_of_ok (Prod.ext h rfl)

end Start

/-! ## The invariant of the scheduler -/

/-- The caps, the counters and the progress of a job agree with its range states. -/
structure SchedulerInvariant (config : DownloadConfig) (commitment : ResourceCommitment)
    (job : Job) : Prop where
  perSource : ∀ peer, job.inflightOf peer = job.rangeState.countP (· = .inFlight peer) ∧
    job.inflightOf peer = job.inflight.countP (·.peer = peer) ∧
    job.inflightOf peer ≤ config.maxInflightPerSource
  outstanding : job.inflight.length ≤ config.maxConcurrency
  once : (job.inflight.map (·.range)).Nodup
  bytes : job.bytesDone = (job.doneRanges.map (·.length)).sum
  total : job.bytesDone ≤ commitment.totalLength

theorem Books.invariant {config : DownloadConfig} {commitment : ResourceCommitment} {job : Job}
    (h : Books config commitment job) : SchedulerInvariant config commitment job := by
  refine ⟨fun peer => ⟨?_, h.scheduled.perSource peer, h.scheduled.cap peer⟩, h.scheduled.room,
    h.scheduled.nodup, h.planned.bytes, ?_⟩
  · rw [h.scheduled.count, h.scheduled.perSource]
  · have hle := job.doneLength_le_sum
    rwa [h.planned.sum_rangeLens, ← h.planned.bytes] at hle

section Loop

variable {seams : ResourceSeams} {content : ContentId} {key : String}

/-- A turn issues nothing. -/
theorem takeTurn_issues (seams : ResourceSeams) (content : ContentId) (wakeup : Option Nat)
    (turn : Turn) (w : JobWorld) :
    SameCount Tally.isIssued w (takeTurn seams content wakeup turn w).2 := by
  refine steps_takeTurn (closedUnderLoop_sameCount.mono fun e he => ?_) wakeup turn w
  unfold Effect.IsTurn at he
  split at he <;> intro t ht
  · cases ht
  · cases ht
  · cases ht
  · cases ht
  · cases ht
  · cases ht
  · cases ht
  · rename_i event
    cases event <;> cases ht <;> rfl
  · exact he.elim

/-- The head of an iteration does nothing while the download is paused. -/
theorem wp_loopHead_paused {w : JobWorld} (hpaused : w.own.paused = true) :
    wp (loopHead seams content key) (fun _ w' => w' = w) (fun _ _ => True) w := by
  rw [loopHead, wp_bind, wp_of_run_ok (fillUnlessPaused_paused hpaused), wp_bind, wp_getJob]
  split
  · exact rfl
  split
  · exact trivial
  split
  · rename_i hrunning
    rw [hpaused] at hrunning
    cases hrunning.1
  · exact rfl

/-- While the download is paused the loop issues nothing. -/
theorem LoopStep.paused {s s' : LoopPoint × JobWorld} (h : LoopStep seams content key s s')
    (hpaused : s.2.own.paused = true) :
    (ledger s'.2.trace).countP Tally.isIssued = (ledger s.2.trace).countP Tally.isIssued := by
  have hhead : ∀ {w w' : JobWorld} {head : Head}, w.own.paused = true →
      loopHead seams content key w = (.ok head, w') → w' = w := by
    intro w w' head hp hrun
    exact (wp_of_run_ok hrun).mp (wp_loopHead_paused hp)
  cases h with
  | again hrun => rw [hhead hpaused hrun]
  | wait hrun => rw [hhead hpaused hrun]
  | finish hrun => rw [hhead hpaused hrun]
  | @turn w w' wakeup turn hrun =>
    have hissues := takeTurn_issues seams content wakeup turn w
    rw [hrun] at hissues
    exact hissues

end Loop

section Invariant

variable {seams : ResourceSeams} {target : Target} {sink : Sink} {store : StateStore}
  {commitment : ResourceCommitment} {point : LoopPoint} {w : JobWorld}

/-- In every state of the scheduling loop the caps hold and the counters agree, a range is
completed once at most, nothing is issued while the download is paused, and in every later
state what was done is done and has not been fetched again. -/
theorem scheduler_invariant
    (henter : (entering seams target (JobWorld.start seams target sink store)).1 = .ok commitment)
    (hvisit : Visits seams target.content (downloadKey seams target)
      (loopStart seams target sink store) point w) :
    SchedulerInvariant seams.config commitment w.own ∧
      (∀ i, (ledger w.trace).count (.completed i) ≤ 1) ∧
      (∀ s, LoopStep seams target.content (downloadKey seams target) (point, w) s →
        w.own.paused = true →
        (ledger s.2.trace).countP Tally.isIssued = (ledger w.trace).countP Tally.isIssued) ∧
      ∀ s, LoopSteps seams target.content (downloadKey seams target) (point, w) s →
        w.own.bytesDone ≤ s.2.own.bytesDone ∧
        ∀ i : Nat, w.own.rangeState[i]? = some .done →
          s.2.own.rangeState[i]? = some .done ∧
            (ledger s.2.trace).count (.issued i) = (ledger w.trace).count (.issued i) := by
  obtain ⟨hbooks₀, haccounts₀, -, -⟩ := loopStart_spec henter
  have hsteps := LoopSteps.steps hvisit
  have hbooks := hsteps.books hbooks₀
  have haccounts := hsteps.accounts hbooks₀ haccounts₀
  refine ⟨hbooks.invariant, fun i => Nat.le_trans (haccounts.once i) ?_, fun s hstep hpaused =>
    hstep.paused hpaused,
    fun s hlater => ?_⟩
  · split <;> simp
  · have hlater' := LoopSteps.steps hlater
    exact ⟨hlater'.bytes_le hbooks, fun i hdone => hlater'.done hbooks hdone⟩

end Invariant

/-- The small download, waiting for its first answers. -/
def smallWaiting : JobWorld :=
  (loopHead smallResourceSeams smallTarget.content (downloadKey smallResourceSeams smallTarget)
    (loopStart smallResourceSeams smallTarget emptySink emptyStore)).2

theorem scheduler_invariant_small :
    smallWaiting.own.inflight.length = 2 ∧
      SchedulerInvariant smallResourceSeams.config smallCommitment smallWaiting.own := by
  have henter : (entering smallResourceSeams smallTarget
      (JobWorld.start smallResourceSeams smallTarget emptySink emptyStore)).1
        = .ok smallCommitment := by decide +kernel
  have hwait : LoopStep smallResourceSeams smallTarget.content
      (downloadKey smallResourceSeams smallTarget)
      (.head, loopStart smallResourceSeams smallTarget emptySink emptyStore)
      (.waiting none, smallWaiting) := .wait (Prod.ext (by decide +kernel) rfl)
  exact ⟨by decide +kernel, (scheduler_invariant henter (ReflTransGen.single hwait)).1⟩

end DigDownload
