import Mathlib.Data.List.Rotate
import DigDownload.Resource.Scheduling

/-!
# How much a download does

Every fetch that was issued has succeeded, has failed or is outstanding; at most one success
a range, and the loop ends once the failures exceed the retry budget. So the budget bounds
the fetches, unless it saturates: then the failures, which saturate at the same value,
never exceed it.
-/

namespace DigDownload

open Prog Relation

/-- How many fetches were issued, how many failed, and how often holders were located again. -/
def issues (trace : List (Effect ResourceAsk)) : Nat := (ledger trace).countP Tally.isIssued

def failures (trace : List (Effect ResourceAsk)) : Nat := (ledger trace).countP Tally.isFailed

def relocates (trace : List (Effect ResourceAsk)) : Nat := (ledger trace).countP Tally.isRelocated

section Counting

variable {seams : ResourceSeams} {content : ContentId} {key : String}
  {commitment : ResourceCommitment} {w w' : JobWorld}

/-- A range that is done is not with a source. -/
theorem countP_done_add_isInFlight_le (states : List RangeState) :
    states.countP (· = .done) + states.countP RangeState.isInFlight ≤ states.length := by
  induction states with
  | nil => exact Nat.zero_le _
  | cons s states ih =>
    have hone : (if (decide (s = .done)) then 1 else 0) + (if s.isInFlight then 1 else 0) ≤ 1 := by
      cases s <;> simp [RangeState.isInFlight]
    rw [List.countP_cons, List.countP_cons, List.length_cons]
    omega

/-- The fetches are bounded by the ranges and the failures. -/
theorem issues_le (hb : Books seams.config commitment w.own) (ha : Accounts w) :
    issues w.trace ≤ w.own.ranges.length + failures w.trace := by
  have hbalance := ha.balance
  have hcompleted := ha.completed
  have hlen := countP_done_add_isInFlight_le w.own.rangeState
  rw [hb.planned.states, hb.scheduled.total] at hlen
  show (ledger w.trace).countP Tally.isIssued ≤ _ + (ledger w.trace).countP Tally.isFailed
  omega

theorem JobEnds.ledger {halt : Halt} (h : JobEnds seams content w halt w') :
    ledger w'.trace = ledger w.trace := by
  cases h with
  | pending => rfl
  | panicked => simp [DigDownload.ledger, Effect.tally]
  | cancelled => simp [DigDownload.ledger, Effect.tally]
  | gaveUp => simp [DigDownload.ledger, Effect.tally]
  | lost => simp [DigDownload.ledger, Effect.tally]
  | undownloadable => rfl
  | refused => simp [DigDownload.ledger, Effect.tally]
  | unwritten => simp [DigDownload.ledger, Effect.tally]
  | unsaved => simp [DigDownload.ledger, Effect.tally]

/-- Relocates are made within their bound. -/
theorem JobSteps.relocateAttempts_le (hsteps : JobSteps seams content w w')
    (h : w.own.relocateAttempts ≤ seams.config.maxRelocateAttempts) :
    w'.own.relocateAttempts ≤ seams.config.maxRelocateAttempts := by
  induction hsteps with
  | refl => exact h
  | tail _ hstep ih =>
    cases hstep with
    | relocate _ hleft => exact hleft
    | succeed _ _ hjob =>
      subst hjob
      simpa [Job.complete, Job.feed] using ih
    | fail => simpa [Job.requeue] using ih
    | _ => exact ih

end Counting

/-! ## The head of an iteration -/

section Head

variable {seams : ResourceSeams} {content : ContentId} {key : String} {w w' : JobWorld}

/-- The head of an iteration sees no failure. -/
theorem loopHead_failures (seams : ResourceSeams) (content : ContentId) (key : String)
    (w : JobWorld) : SameCount Tally.isFailed w (loopHead seams content key w).2 := by
  refine steps_loopHead (closedUnderLoop_sameCount.mono fun e he => ?_) w
  unfold Effect.IsHead at he
  split at he <;> intro t ht
  · cases ht
  · cases ht
  · cases ht
    rfl
  · cases ht
    rfl
  · cases ht
  · cases ht
  · cases ht
  · cases ht
  · exact he.elim

/-- What the loop goes on to wait for: an outstanding fetch, the end of a backoff window,
or, while it is paused, a control message. An iteration that starts over at once has spent
a relocate, and one that goes on at all is within the budget. -/
theorem wp_loopHead_goesOn (seams : ResourceSeams) (content : ContentId) (key : String)
    (w : JobWorld) :
    wp (loopHead seams content key)
      (fun head w' => match head with
        | .finished => True
        | .again => w.own.totalFailures ≤ w.own.budget seams.config ∧
            relocates w'.trace = relocates w.trace + 1
        | .waiting wakeup => w.own.totalFailures ≤ w.own.budget seams.config ∧
            (w'.own.inflight ≠ [] ∨ wakeup.isSome = true ∨ w'.own.paused = true))
      (fun _ _ => True) w := by
  have hwait : ∀ w₁ : JobWorld, w.own.totalFailures ≤ w.own.budget seams.config →
      wp (waitOut seams)
        (fun head w' => match head with
          | .finished => True
          | .again => w.own.totalFailures ≤ w.own.budget seams.config ∧
              relocates w'.trace = relocates w.trace + 1
          | .waiting wakeup => w.own.totalFailures ≤ w.own.budget seams.config ∧
              (w'.own.inflight ≠ [] ∨ wakeup.isSome = true ∨ w'.own.paused = true))
        (fun _ _ => True) w₁ := by
    intro w₁ hbudget
    rw [waitOut, wp_bind, wp_readClock, wp_bind, wp_getJob]
    split
    · exact ⟨hbudget, Or.inr (Or.inl rfl)⟩
    · exact trivial
  have hfill : SameCount Tally.isRelocated w (fillUnlessPaused seams key w).2 := by
    refine steps_fillUnlessPaused_closed (closedUnderLoop_sameCount.keeping.serving.mono fun e he => ?_) w
    unfold Effect.IsFill at he
    split at he <;> intro t ht
    · cases ht
    · cases ht
    · cases ht
      rfl
    · exact he.elim
  refine wp_loopHead fun w₁ hrun hfills => ?_
  rw [hrun] at hfill
  split
  · exact trivial
  rename_i hunfinished
  split
  · exact trivial
  rename_i hwithin
  have hbudget : w.own.totalFailures ≤ w.own.budget seams.config := by
    have hle := Nat.le_of_not_lt hwithin
    rw [hfills.own] at hle
    exact hle
  split
  · rw [stalled, wp_bind, wp_getJob]
    split
    · have hdiscover : Steps (SameCount Tally.isRelocated) (discoverMore seams content) :=
        steps_discoverMore closedUnderLoop_sameCount (fun _ t ht => by cases ht)
          (fun _ _ t ht => by cases ht) fun _ t ht => by cases ht
      rw [relocate, wp_bind, wp_bind, wp_noteJob, wp_bind, wp_modifyJob]
      refine (hdiscover.wp _).mono (fun added w₂ h₂ => ?_) (fun _ _ _ => trivial)
      rw [wp_bind, wp_modifyJob]
      split
      · refine ⟨hbudget, ?_⟩
        show (ledger w₂.trace).countP Tally.isRelocated = _
        rw [h₂]
        show (ledger (w₁.trace ++ [.ask .relocate])).countP Tally.isRelocated = _
        rw [ledger_append, List.countP_append, hfill]
        rfl
      · exact hwait _ hbudget
    · exact hwait _ hbudget
  · rename_i hrunning
    refine ⟨hbudget, ?_⟩
    by_cases hinflight : w₁.own.inflight = []
    · refine Or.inr (Or.inr ?_)
      by_contra hpaused
      refine hrunning ⟨by simpa using hpaused, hinflight, ?_⟩
      by_contra hdone
      exact hunfinished ⟨by simpa using hdone, hinflight⟩
    · exact Or.inl hinflight

end Head

/-! ## A turn -/

/-- What a turn waited for. -/
def TurnCause (seams : ResourceSeams) (wakeup : Option Nat) (turn : Turn) (w w' : JobWorld) :
    Prop :=
  match turn with
  | .control _ => True
  | .completed _ => w.own.inflight.length = w'.own.inflight.length + 1
  | .wake => ∃ t, wakeup = some t ∧ t ≤ seams.now w.tick
  | .refresh => w.own.paused = false ∧
      ∃ interval, seams.config.refreshInterval = some interval ∧
        w.own.lastRefresh + interval ≤ seams.now w.tick

section Turn

variable {seams : ResourceSeams} {content : ContentId} {commitment : ResourceCommitment}
  {w w' : JobWorld}

/-- A turn sees one failure at most, and no relocate. -/
theorem takeTurn_failures (content : ContentId) (hb : Books seams.config commitment w.own)
    (wakeup : Option Nat)
    (turn : Turn) :
    failures (takeTurn seams content wakeup turn w).2.trace ≤ failures w.trace + 1 := by
  have haside : (∀ choice, turn ≠ .completed choice) →
      failures (takeTurn seams content wakeup turn w).2.trace ≤ failures w.trace + 1 := by
    intro hturn
    have hsame : SameCount Tally.isFailed w (takeTurn seams content wakeup turn w).2 := by
      refine steps_takeTurn_aside (closedUnderLoop_sameCount.mono fun e he => ?_) wakeup hturn w
      unfold Effect.IsAside at he
      split at he <;> intro t ht
      · cases ht
      · cases ht
      · cases ht
      · cases ht
      · cases ht
      · cases ht
      · cases ht
      · cases ht
      · exact he.elim
    exact Nat.le_succ_of_le (Nat.le_of_eq hsame)
  cases turn with
  | completed choice =>
    have hwp : wp (takeTurn seams content wakeup (.completed choice))
        (fun _ w' => failures w'.trace ≤ failures w.trace + 1)
        (fun _ w' => failures w'.trace ≤ failures w.trace + 1) w := by
      refine (wp_takeTurn_completed wakeup choice).mono (fun happened w' h => ?_)
        (fun halt w' h => ?_)
      · cases happened with
        | false =>
          obtain rfl : w' = w := h
          exact Nat.le_succ _
        | true =>
          have hentry : Entry w w' := JobStep.entry h.1 hb
          show (ledger w'.trace).countP Tally.isFailed ≤ (ledger w.trace).countP Tally.isFailed + 1
          cases hentry with
          | none hledger => rw [hledger]; exact Nat.le_succ _
          | issued _ _ hledger => rw [hledger, List.countP_append]; exact Nat.le_succ _
          | completed _ _ hledger => rw [hledger, List.countP_append]; exact Nat.le_succ _
          | failed _ _ hledger => rw [hledger, List.countP_append]; exact Nat.le_refl _
          | relocated hledger => rw [hledger, List.countP_append]; exact Nat.le_succ _
      · show (ledger w'.trace).countP Tally.isFailed ≤ _
        rw [JobEnds.ledger h]
        exact Nat.le_succ _
    exact wp_same.mp hwp
  | control message => exact haside (by simp)
  | wake => exact haside (by simp)
  | refresh => exact haside (by simp)

/-- A turn that happens has a cause. -/
theorem wp_takeTurn_cause (wakeup : Option Nat) (turn : Turn) (w : JobWorld) :
    wp (takeTurn seams content wakeup turn)
      (fun happened w' => happened = true → TurnCause seams wakeup turn w w') (fun _ _ => True) w := by
  cases turn with
  | control message => exact wp_of_forall (fun _ _ _ => trivial) (fun _ _ => trivial)
  | wake =>
    rw [takeTurn, wp_bind, wp_read, wp_pure]
    intro hwake
    cases wakeup with
    | none => cases hwake
    | some t => exact ⟨t, rfl, of_decide_eq_true hwake⟩
  | refresh =>
    rw [takeTurn, wp_bind, wp_read]
    split
    · rename_i hdue
      refine wp_of_forall (fun _ w' _ => ⟨hdue.1, ?_⟩) (fun _ _ => trivial)
      cases hinterval : seams.config.refreshInterval with
      | none =>
        rw [hinterval] at hdue
        cases hdue.2
      | some interval =>
        rw [hinterval] at hdue
        exact ⟨interval, rfl, of_decide_eq_true hdue.2⟩
    · exact fun h => by cases h
  | completed choice =>
    refine (wp_takeTurn_completed wakeup choice).mono (fun happened w' h hhappened => ?_)
      (fun _ _ _ => trivial)
    rw [hhappened] at h
    exact h.2

end Turn

/-! ## The loop -/

/-- How many failures a download of `n` ranges survives. -/
def retryBudget (config : DownloadConfig) (n : Nat) : Nat :=
  max (n * config.maxRangeAttempts) config.maxRangeAttempts

/-- Below the largest counter value the budget does not saturate. -/
theorem Job.budget_eq {config : DownloadConfig} {job : Job}
    (h : retryBudget config job.ranges.length < usizeMax) :
    job.budget config = retryBudget config job.ranges.length := by
  unfold Job.budget saturatingMul
  unfold retryBudget at *
  generalize usizeMax = limit at *
  omega

section Run

variable {seams : ResourceSeams} {content : ContentId} {key : String}
  {commitment : ResourceCommitment} {w₀ w w' : JobWorld} {n : Nat}

/-- A job within a budget that does not saturate has seen no more failures than the budget. -/
theorem failures_le_of_within (ha : Accounts w)
    (hn : w.own.ranges.length = n) (hsmall : retryBudget seams.config n < usizeMax)
    (h : w.own.totalFailures ≤ w.own.budget seams.config) :
    failures w.trace ≤ retryBudget seams.config n := by
  subst hn
  rw [Job.budget_eq hsmall, ha.failures] at h
  show (ledger w.trace).countP Tally.isFailed ≤ _
  generalize usizeMax = limit at *
  omega

/-- The failures at a point of the loop: within the budget while it waits, and one more once
a turn has been taken. -/
def LoopPoint.allowance (budget : Nat) : LoopPoint → Nat
  | .waiting _ => budget
  | _ => budget + 1

theorem loopSteps_failures_le {s : LoopPoint × JobWorld}
    (h : LoopSteps seams content key (.head, w₀) s)
    (hb : Books seams.config commitment w₀.own) (ha : Accounts w₀)
    (hzero : failures w₀.trace = 0) (hn : w₀.own.ranges.length = n)
    (hsmall : retryBudget seams.config n < usizeMax) :
    failures s.2.trace ≤ s.1.allowance (retryBudget seams.config n) := by
  induction h with
  | refl => exact hzero ▸ Nat.zero_le _
  | @tail s s' hsteps hstep ih =>
    have hbooks := (LoopSteps.steps hsteps).books hb
    have haccounts := (LoopSteps.steps hsteps).accounts hb ha
    have hlen : s.2.own.ranges.length = n := by
      rw [hbooks.planned.ranges, ← hb.planned.ranges, hn]
    -- the head of an iteration lets through what is within the budget
    have hhead : ∀ {w w' : JobWorld} {head : Head}, s = (.head, w) →
        loopHead seams content key w = (.ok head, w') →
        failures w'.trace = failures w.trace ∧ (w.own.totalFailures ≤ w.own.budget seams.config →
          failures w.trace ≤ retryBudget seams.config n) := by
      intro w w' head hs hrun
      subst hs
      have hsame := loopHead_failures seams content key w
      rw [hrun] at hsame
      exact ⟨hsame, failures_le_of_within haccounts hlen hsmall⟩
    cases hstep with
    | again hrun =>
      obtain ⟨hsame, hwithin⟩ := hhead rfl hrun
      have hgoes := (wp_of_run_ok hrun).mp (wp_loopHead_goesOn seams content key _)
      exact hsame ▸ Nat.le_succ_of_le (hwithin hgoes.1)
    | wait hrun =>
      obtain ⟨hsame, hwithin⟩ := hhead rfl hrun
      have hgoes := (wp_of_run_ok hrun).mp (wp_loopHead_goesOn seams content key _)
      exact hsame ▸ hwithin hgoes.1
    | finish hrun =>
      obtain ⟨hsame, -⟩ := hhead rfl hrun
      exact hsame ▸ ih
    | @turn w w' wakeup turn hrun =>
      have hturn := takeTurn_failures content hbooks wakeup turn
      rw [hrun] at hturn
      exact Nat.le_trans hturn (Nat.succ_le_succ ih)

/-- What is issued in a whole run of the loop, whatever turns it takes. -/
theorem scheduleLoop_work (hb : Books seams.config commitment w₀.own) (ha : Accounts w₀)
    (hzero : failures w₀.trace = 0) (hattempts : w₀.own.relocateAttempts = 0)
    (hn : w₀.own.ranges.length = n) (hsmall : retryBudget seams.config n < usizeMax)
    (turns : List Turn) :
    issues (scheduleLoop seams content key turns w₀).2.trace ≤ n + retryBudget seams.config n + 1 ∧
      relocates (scheduleLoop seams content key turns w₀).2.trace
        ≤ seams.config.maxRelocateAttempts := by
  -- the bounds in a world that steps of a job lead to, from the failures seen in it
  have hbound : ∀ w, JobSteps seams content w₀ w →
      failures w.trace ≤ retryBudget seams.config n + 1 →
      issues w.trace ≤ n + retryBudget seams.config n + 1 ∧
        relocates w.trace ≤ seams.config.maxRelocateAttempts := by
    intro w hsteps hfailures
    have hbooks := hsteps.books hb
    have haccounts := hsteps.accounts hb ha
    have hlen : w.own.ranges.length = n := by
      rw [hbooks.planned.ranges, ← hb.planned.ranges, hn]
    have hissues := issues_le hbooks haccounts
    have hrelocates := hsteps.relocateAttempts_le (by rw [hattempts]; exact Nat.zero_le _)
    rw [← haccounts.relocates] at hrelocates
    exact ⟨by omega, hrelocates⟩
  have hends : ∀ {halt : Halt} {w w' : JobWorld}, JobSteps seams content w₀ w →
      JobEnds seams content w halt w' → failures w'.trace ≤ retryBudget seams.config n + 1 →
      issues w'.trace ≤ n + retryBudget seams.config n + 1 ∧
        relocates w'.trace ≤ seams.config.maxRelocateAttempts := by
    intro halt w w' hsteps hends hfailures
    have hledger := JobEnds.ledger hends
    unfold issues failures relocates at *
    rw [hledger] at hfailures ⊢
    exact hbound w hsteps hfailures
  have hrun : wp (scheduleLoop seams content key turns)
      (fun _ w' => issues w'.trace ≤ n + retryBudget seams.config n + 1 ∧
        relocates w'.trace ≤ seams.config.maxRelocateAttempts)
      (fun _ w' => issues w'.trace ≤ n + retryBudget seams.config n + 1 ∧
        relocates w'.trace ≤ seams.config.maxRelocateAttempts) w₀ := by
    refine (wp_scheduleLoop turns).mono (fun _ w' hover => ?_) (fun halt w' hstops => ?_)
    · exact hbound w' (LoopSteps.steps hover) (loopSteps_failures_le hover hb ha hzero hn hsmall)
    · cases hstops with
      | waiting hvisit =>
        exact hbound w' (LoopSteps.steps hvisit)
          (Nat.le_succ_of_le (loopSteps_failures_le hvisit hb ha hzero hn hsmall))
      | @head w _ _ hvisit hrun =>
        obtain ⟨w₁, hsteps, hend⟩ := (walks_loopHead key).error hrun
        have hsame := loopHead_failures seams content key w
        rw [hrun] at hsame
        refine hends ((LoopSteps.steps hvisit).trans hsteps) hend ?_
        exact Nat.le_trans (Nat.le_of_eq hsame)
          (loopSteps_failures_le hvisit hb ha hzero hn hsmall)
      | @turn w _ wakeup turn _ hvisit hrun =>
        obtain ⟨w₁, hsteps, hend⟩ := (walks_takeTurn wakeup turn).error hrun
        have hturn := takeTurn_failures content ((LoopSteps.steps hvisit).books hb)
          wakeup turn
        rw [hrun] at hturn
        refine hends ((LoopSteps.steps hvisit).trans hsteps) hend ?_
        exact Nat.le_trans hturn
          (Nat.succ_le_succ (loopSteps_failures_le hvisit hb ha hzero hn hsmall))
  exact wp_same.mp hrun

end Run

/-! ## Bounded work -/

section Bounded

variable {seams : ResourceSeams} {target : Target} {sink : Sink} {store : StateStore}
  {commitment : ResourceCommitment} {n : Nat}

theorem Fills.allDone_eq {w w' : JobWorld} (h : Fills w w') : w'.own.allDone = w.own.allDone := by
  have hall : ∀ states : List RangeState, states.all (· = .done) = true ↔
      ∀ i < states.length, states[i]? = some .done := by
    intro states
    rw [List.all_eq_true]
    constructor
    · intro hs i hi
      rw [List.getElem?_eq_getElem hi, of_decide_eq_true (hs _ (List.getElem_mem hi))]
    · intro hs state hmem
      obtain ⟨i, hi, rfl⟩ := List.mem_iff_getElem.mp hmem
      have := hs i hi
      rw [List.getElem?_eq_getElem hi, Option.some.injEq] at this
      exact decide_eq_true this
  have hempty : w'.own.rangeState.isEmpty = w.own.rangeState.isEmpty := by
    rw [Bool.eq_iff_iff, List.isEmpty_iff_length_eq_zero, List.isEmpty_iff_length_eq_zero, h.length]
  unfold Job.allDone
  rw [hempty]
  congr 1
  rw [Bool.eq_iff_iff, hall, hall, h.length]
  exact forall_congr' fun i => imp_congr_right fun _ => h.done i

/-- With more failures than the budget and a range missing, the loop ends. -/
theorem loopHead_exhausted {content : ContentId} {key : String} {w : JobWorld}
    (hdone : w.own.allDone = false) (hmore : w.own.budget seams.config < w.own.totalFailures) :
    wp (loopHead seams content key) (fun _ _ => False)
      (fun halt _ => ∃ needed, halt = .failed (.noProviders needed)) w := by
  refine wp_loopHead fun w₁ _ hfills => ?_
  have hdone₁ : w₁.own.allDone = false := by rw [hfills.allDone_eq, hdone]
  have hmore₁ : w₁.own.budget seams.config < w₁.own.totalFailures := by
    rw [hfills.own]
    exact hmore
  rw [if_neg (by simp [hdone₁]), if_pos hmore₁]
  exact ⟨_, rfl⟩

/-- The work of a download of `n` ranges is bounded by its retry budget and its relocates,
and the loop never goes round without a cause: while it waits it has failures left, and
waits for a fetch, a timer, or, paused, for a control message; it starts over at once only
for the price of a relocate; every turn it takes has a cause; and when the failures exceed
the budget with a range missing, it ends. -/
theorem bounded_work
    (henter : (entering seams target (JobWorld.start seams target sink store)).1 = .ok commitment)
    (hn : (planRanges commitment.layout seams.config.window).length = n)
    (hsmall : retryBudget seams.config n < usizeMax) :
    (∀ turns,
      issues (scheduleLoop seams target.content (downloadKey seams target) turns
          (loopStart seams target sink store)).2.trace ≤ n + retryBudget seams.config n + 1 ∧
        relocates (scheduleLoop seams target.content (downloadKey seams target) turns
          (loopStart seams target sink store)).2.trace ≤ seams.config.maxRelocateAttempts) ∧
      (∀ wakeup w, Visits seams target.content (downloadKey seams target)
          (loopStart seams target sink store) (.waiting wakeup) w →
        failures w.trace ≤ retryBudget seams.config n ∧
          (w.own.inflight ≠ [] ∨ wakeup.isSome = true ∨ w.own.paused = true)) ∧
      (∀ w w', LoopStep seams target.content (downloadKey seams target) (.head, w) (.head, w') →
        relocates w'.trace = relocates w.trace + 1) ∧
      (∀ wakeup turn w w', takeTurn seams target.content wakeup turn w = (.ok true, w') →
        TurnCause seams wakeup turn w w') ∧
      ∀ w, Visits seams target.content (downloadKey seams target)
          (loopStart seams target sink store) .head w →
        w.own.allDone = false → retryBudget seams.config n < failures w.trace →
        ∃ needed, (loopHead seams target.content (downloadKey seams target) w).1
          = .error (.failed (.noProviders needed)) := by
  obtain ⟨hbooks, haccounts, hidle, happends⟩ := loopStart_spec henter
  have hlen : (loopStart seams target sink store).own.ranges.length = n := by
    rw [hbooks.planned.ranges, hn]
  have hzero : failures (loopStart seams target sink store).trace = 0 := by
    rw [failures, ledger_of_setup happends]
    rfl
  refine ⟨fun turns => scheduleLoop_work hbooks haccounts hzero hidle.relocateAttempts hlen hsmall
    turns, fun wakeup w hvisit => ⟨loopSteps_failures_le hvisit hbooks haccounts hzero hlen hsmall, ?_⟩,
    fun w w' hstep => ?_, fun wakeup turn w w' hrun => ?_, fun w hvisit hdone hmore => ?_⟩
  · cases hvisit.cases_tail with
    | inl h => cases h
    | inr h =>
      obtain ⟨s, -, hstep⟩ := h
      cases hstep with
      | wait hrun =>
        exact ((wp_of_run_ok hrun).mp (wp_loopHead_goesOn seams _ _ _)).2
  · cases hstep with
    | again hrun => exact ((wp_of_run_ok hrun).mp (wp_loopHead_goesOn seams _ _ _)).2
  · exact (wp_of_run_ok hrun).mp (wp_takeTurn_cause wakeup turn w) rfl
  · have hbooks' := (LoopSteps.steps hvisit).books hbooks
    have haccounts' := (LoopSteps.steps hvisit).accounts hbooks haccounts
    have hlen' : w.own.ranges.length = n := by rw [hbooks'.planned.ranges, hn]
    have hbudget : w.own.budget seams.config < w.own.totalFailures := by
      subst hlen'
      have hfailures : w.own.totalFailures = min (failures w.trace) usizeMax :=
        haccounts'.failures
      rw [Job.budget_eq hsmall, hfailures]
      generalize usizeMax = limit at *
      omega
    obtain ⟨halt, hhalt, needed, rfl⟩ := (loopHead_exhausted hdone hbudget).exists_error
    exact ⟨needed, hhalt⟩

end Bounded

/-- In the small download, no more than nineteen fetches are issued. -/
theorem bounded_work_small :
    issues (scheduleLoop smallResourceSeams smallTarget.content
      (downloadKey smallResourceSeams smallTarget) [.completed 1, .completed 0]
      (loopStart smallResourceSeams smallTarget emptySink emptyStore)).2.trace ≤ 2 + 16 + 1 := by
  have henter : (entering smallResourceSeams smallTarget
      (JobWorld.start smallResourceSeams smallTarget emptySink emptyStore)).1
        = .ok smallCommitment := by decide +kernel
  have hn : (planRanges smallCommitment.layout smallResourceSeams.config.window).length = 2 := by
    decide +kernel
  exact ((bounded_work henter hn (by decide +kernel)).1 _).1

/-! ## A budget that is never spent -/

/-- One holder of the small resource, in one range, that answers the probe and refuses every
range at once, without a backoff, and a budget as large as the counter of the failures. -/
def stubbornSeams : ResourceSeams :=
  { smallResourceSeams with
    fetchRange := fun _ p req =>
      if req.skipLayout then some (.error (.transport p.providerPeerId "refused"))
      else some (.ok (honestRange smallResource [2, 1] (some "proof") req))
    now := fun _ => 0
    config := { smallResourceSeams.config with
      window := 3, baseBackoff := 0, maxBackoff := 0, maxRangeAttempts := usizeMax } }

/-- A download with one holder and one range of it, in a state and with a number of
outstanding fetches. -/
structure Stubborn (state : RangeState) (outstanding : List Fetch) (w : JobWorld) : Prop where
  commitment : w.own.commitment = some smallCommitment
  ranges : ∃ range, w.own.ranges = [range]
  rangeState : w.own.rangeState = [state]
  providers : w.own.providers = [{ providerPeerId := holderA, addresses := [] }]
  inflight : w.own.inflight = outstanding
  inflightOf : w.own.inflightOf holderA = outstanding.length
  running : w.own.paused = false
  atOnce : w.own.tracker.maxBackoff = 0
  available : w.own.tracker.isAvailable holderA 0 = true
  failures : w.own.totalFailures ≤ usizeMax

/-- The fetch of the one range from the one holder. -/
def stubbornFetch : Fetch where
  range := 0
  peer := holderA
  provider := some { providerPeerId := holderA, addresses := [] }

section Stubborn

variable {content : ContentId} {key : String} {w : JobWorld}

theorem wp_fillUnlessPaused_stubborn (h : Stubborn .pending [] w) :
    wp (fillUnlessPaused stubbornSeams key)
      (fun _ w' => Stubborn (.inFlight holderA) [stubbornFetch] w' ∧
        issues w'.trace = issues w.trace + 1)
      (fun _ _ => False) w := by
  have hcandidates : (w.own.selectRequest key 0).candidates.map (·.peerId) = [holderA] := by
    simp [Job.selectRequest, Job.candidates, h.providers, h.available, CandidateRef.ofProvider]
  have hpick : ∀ t, w.own.pickFromPlan stubbornSeams.config
      (stubbornSeams.select t (w.own.selectRequest key 0)) 0 = some holderA := by
    intro t
    have hcap : w.own.underCap stubbornSeams.config holderA = true := by
      rw [Job.underCap, h.inflightOf]
      rfl
    show w.own.pickFromPlan _ (nullSelect t _) 0 = _
    rw [nullSelect, hcandidates, List.rotate_singleton]
    simp [Job.pickFromPlan, hcap]
  have hnext : w.own.nextPending = some 0 := by simp [Job.nextPending, h.rangeState]
  have hroom : ¬ stubbornSeams.config.maxConcurrency ≤ w.own.inflight.length := by
    simp [h.inflight, stubbornSeams, smallResourceSeams]
  rw [fillUnlessPaused, wp_bind, wp_getJob, h.running, if_neg Bool.false_ne_true, fill, wp_bind,
    wp_readClock, wp_bind, wp_getJob, wp_bind, wp_askJob, World.note_own, h.rangeState,
    List.length_singleton, fillFrom, wp_bind, wp_getJob, World.note_own, World.note_own,
    if_neg hroom, hnext]
  dsimp only
  rw [show stubbornSeams.now w.tick = 0 from rfl, hpick]
  dsimp only
  rw [wp_bind, wp_modifyJob, wp_bind, wp_noteJob, fillFrom, wp_pure]
  refine ⟨⟨h.commitment, h.ranges, ?_, h.providers, ?_, ?_, h.running, h.atOnce, h.available,
    h.failures⟩, ?_⟩
  · simp [Job.issue, h.rangeState]
  · simp [Job.issue, h.inflight, h.providers, stubbornFetch]
  · have hzero := h.inflightOf
    unfold Job.inflightOf at hzero
    simp [Job.issue, Job.inflightOf, hzero]
  · simp only [issues, ledger, World.note_trace, List.filterMap_append, List.countP_append]
    rfl

/-- The head of an iteration hands the range out again: the budget is never exceeded. -/
theorem wp_settledHead_stubborn (h : Stubborn .pending [] w) :
    wp (settledHead stubbornSeams content key)
      (fun head w' => head = .waiting none ∧ Stubborn (.inFlight holderA) [stubbornFetch] w' ∧
        issues w'.trace = issues w.trace + 1)
      (fun _ _ => False) w := by
  rw [settledHead, wp_bind]
  refine wp_loopHead fun w₁ hrun _ => ?_
  obtain ⟨h₁, hissues⟩ := (wp_of_run_ok hrun).mp (wp_fillUnlessPaused_stubborn h)
  have hbudget : ¬ w₁.own.budget stubbornSeams.config < w₁.own.totalFailures := by
    have hfailures := h₁.failures
    show ¬ max _ usizeMax < _
    generalize usizeMax = limit at *
    omega
  rw [if_neg (by simp [h₁.inflight]), if_neg hbudget, if_neg (by simp [h₁.inflight])]
  exact ⟨rfl, h₁, hissues⟩

/-- The holder refuses the range, which is told, and the range is pending again. -/
theorem wp_takeTurn_stubborn (h : Stubborn (.inFlight holderA) [stubbornFetch] w) :
    wp (takeTurn stubbornSeams smallTarget.content none (.completed 0))
      (fun happened w' => happened = true ∧ Stubborn .pending [] w' ∧
        issues w'.trace = issues w.trace ∧
        ∃ seg event, w'.trace = w.trace ++ seg ∧ Effect.ask (.emit event) ∈ seg)
      (fun _ _ => False) w := by
  obtain ⟨range, hranges⟩ := h.ranges
  have hrequest : ∃ req, rangeRequest smallTarget.content range.offset range.length true = .ok req ∧
      req.skipLayout = true := ⟨_, rfl, rfl⟩
  obtain ⟨req, hrequest, hskip⟩ := hrequest
  have hended : Ended stubbornSeams smallTarget.content w 0 stubbornFetch
      (.error (.transport holderA "refused")) smallCommitment range := by
    refine ⟨by rw [h.inflight]; rfl, ?_, h.commitment, by rw [hranges]; rfl⟩
    simp only [fetchOutcome, stubbornFetch, hranges, List.getElem?_cons_zero, hrequest]
    simp [stubbornSeams, hskip, underTimeout]
  have hnow : (w.own.taken 0 stubbornFetch).tracker.backoffAfter
      (min (((w.own.taken 0 stubbornFetch).tracker.health holderA).failures + 1) (2 ^ 32 - 1)) = 0 := by
    have hle := SourceTracker.backoffAfter_le (t := (w.own.taken 0 stubbornFetch).tracker)
      (min (((w.own.taken 0 stubbornFetch).tracker.health holderA).failures + 1) (2 ^ 32 - 1))
    rw [Job.taken_tracker, h.atOnce] at hle
    rw [Job.taken_tracker]
    exact Nat.le_zero.mp hle
  refine wp_takeTurn_refused none hended rfl
    ⟨rfl, ⟨?_, ⟨range, ?_⟩, ?_, ?_, ?_, ?_, ?_, ?_, ?_, ?_⟩, ?_, _,
      .rangeFailed 0 holderA (DownloadError.transport holderA "refused").display, rfl, ?_⟩
  · simpa [Job.requeue] using h.commitment
  · simpa [Job.requeue] using hranges
  · simp [Job.requeue, h.rangeState, stubbornFetch]
  · simpa [Job.requeue] using h.providers
  · simp [Job.requeue, h.inflight]
  · show (w.own.taken 0 stubbornFetch).inflightOf holderA = 0
    rw [Job.inflightOf_taken, if_pos (show holderA = stubbornFetch.peer from rfl), h.inflightOf]
    rfl
  · simpa [Job.requeue] using h.running
  · simpa [Job.requeue, SourceTracker.recordFailure] using h.atOnce
  · show (SourceTracker.recordFailure (w.own.taken 0 stubbornFetch).tracker holderA 0).isAvailable
      holderA 0 = true
    rw [SourceTracker.isAvailable_recordFailure_self, hnow]
  · exact Nat.min_le_right _ _
  · simp only [issues, ledger, List.filterMap_append, List.countP_append]
    rfl
  · exact List.mem_append_right [_, _, _] (List.mem_singleton.mpr rfl)

theorem wp_scheduleFrom_stubborn (n : Nat) :
    ∀ w, Stubborn (.inFlight holderA) [stubbornFetch] w →
      wp (scheduleFrom stubbornSeams smallTarget.content key (List.replicate n (.completed 0)) none)
        (fun _ _ => False) (fun _ w' => issues w'.trace = issues w.trace + n) w := by
  induction n with
  | zero => exact fun w _ => rfl
  | succ n ih =>
    intro w h
    rw [List.replicate_succ, scheduleFrom, wp_bind]
    refine (wp_takeTurn_stubborn h).mono (fun happened w₁ h₁ => ?_) (fun _ _ h => h.elim)
    obtain ⟨rfl, h₁, hissues₁, -⟩ := h₁
    rw [if_pos rfl, wp_bind]
    refine (wp_settledHead_stubborn h₁).mono (fun head w₂ h₂ => ?_) (fun _ _ h => h.elim)
    obtain ⟨rfl, h₂, hissues₂⟩ := h₂
    refine (ih w₂ h₂).mono (fun _ _ h => h) (fun _ w' hissues => ?_)
    omega

theorem stubborn_start :
    Stubborn .pending [] (loopStart stubbornSeams smallTarget emptySink emptyStore) :=
  ⟨by decide +kernel, ⟨_, by rfl⟩, by decide +kernel, by decide +kernel, by decide +kernel,
    by decide +kernel, by decide +kernel, by decide +kernel, by decide +kernel, by decide +kernel⟩

/-- Every refused fetch is followed by another one. -/
theorem issues_stubborn (n : Nat) :
    issues (scheduleLoop stubbornSeams smallTarget.content (downloadKey stubbornSeams smallTarget)
      (List.replicate n (.completed 0)) (loopStart stubbornSeams smallTarget emptySink emptyStore)).2.trace
      = n + 1 := by
  have hzero : issues (loopStart stubbornSeams smallTarget emptySink emptyStore).trace = 0 := by
    decide +kernel
  have hrun : wp (scheduleLoop stubbornSeams smallTarget.content
      (downloadKey stubbornSeams smallTarget) (List.replicate n (.completed 0)))
      (fun _ _ => False) (fun _ w' => issues w'.trace = n + 1)
      (loopStart stubbornSeams smallTarget emptySink emptyStore) := by
    rw [scheduleLoop, wp_bind]
    refine (wp_settledHead_stubborn stubborn_start).mono (fun head w₁ h₁ => ?_) (fun _ _ h => h.elim)
    obtain ⟨rfl, h₁, hissues₁⟩ := h₁
    refine (wp_scheduleFrom_stubborn n w₁ h₁).mono (fun _ _ h => h) (fun _ w' hissues => ?_)
    rw [hissues, hissues₁, hzero]
    omega
  obtain ⟨halt, -, hcount⟩ := hrun.exists_error
  exact hcount

/-- A budget of the largest counter value is never exceeded, because the counter of the
failures stays at that value: the download goes on for as long as it is let. -/
theorem budget_never_spent :
    ¬ ∀ seams target sink store commitment turns,
      (entering seams target (JobWorld.start seams target sink store)).1 = .ok commitment →
      issues (scheduleLoop seams target.content (downloadKey seams target) turns
          (loopStart seams target sink store)).2.trace
        ≤ (planRanges commitment.layout seams.config.window).length
          + retryBudget seams.config (planRanges commitment.layout seams.config.window).length
          + 1 := by
  intro hall
  have henter : (entering stubbornSeams smallTarget
      (JobWorld.start stubbornSeams smallTarget emptySink emptyStore)).1 = .ok smallCommitment := by
    decide +kernel
  have hbudget : (planRanges smallCommitment.layout stubbornSeams.config.window).length
      + retryBudget stubbornSeams.config
        (planRanges smallCommitment.layout stubbornSeams.config.window).length + 1
      = usizeMax + 2 := by decide +kernel
  obtain ⟨n, hn⟩ : ∃ n, n = usizeMax + 2 := ⟨_, rfl⟩
  have hbound := hall stubbornSeams smallTarget emptySink emptyStore smallCommitment
    (List.replicate n (.completed 0)) henter
  rw [hbudget, ← hn, issues_stubborn] at hbound
  omega

end Stubborn

end DigDownload
