import DigDownload.Resource.Schedule
import DigDownload.Lib.Runs

/-!
# Waking up from a backoff

A failure puts a source into a window that ends as long after it as the number of consecutive
failures says. A job that has nothing to schedule steps from now on until it is past the end of a
window. Every addition to an instant has to give an instant: the clock has a last one, and past
it the code panics, which is no result here.
-/

namespace DigDownload

/-- The longest duration: 64 bits of seconds, and less than a second. -/
def durationMax : Nat := 2 ^ 64 * 10 ^ 9 - 1

/-- `Duration::checked_mul`. -/
def checkedMul (duration n : Nat) : Option Nat :=
  if duration * n ≤ durationMax then some (duration * n) else none

/-- `Instant + Duration`, on a clock whose last instant is `latest`. -/
def addInstant (latest instant duration : Nat) : Option Nat :=
  if instant + duration ≤ latest then some (instant + duration) else none

theorem addInstant_eq_some {latest instant duration t : Nat} :
    addInstant latest instant duration = some t ↔
      instant + duration ≤ latest ∧ t = instant + duration := by
  rw [addInstant]
  split <;> simp_all [eq_comm]

/-! ## The tracker -/

/-- A call that changes a tracker. -/
inductive TrackerCall where
  | success (peer : String)
  | failure (peer : String) (now : Nat)
  deriving DecidableEq, Repr

/-- A failure is recorded no later than an instant. -/
def TrackerCall.NotAfter (now : Nat) : TrackerCall → Prop
  | .success _ => True
  | .failure _ recorded => recorded ≤ now

namespace SourceTracker

/-- The backoff as it is computed: a product that is no duration counts as the cap. -/
def computedBackoff (t : SourceTracker) (failures : Nat) : Nat :=
  let shift := min (failures - 1) 16
  min ((checkedMul t.baseBackoff (2 ^ shift)).getD t.maxBackoff) t.maxBackoff

/-- `record_failure`. -/
def tryRecordFailure (latest : Nat) (t : SourceTracker) (peer : String) (now : Nat) :
    Option SourceTracker :=
  let failures := min ((t.health peer).failures + 1) (2 ^ 32 - 1)
  (addInstant latest now (t.computedBackoff failures)).map fun backoffUntil =>
    { t with
      health := Function.update t.health peer
        { t.health peer with failures, backoffUntil := some backoffUntil } }

def call (latest : Nat) (t : SourceTracker) : TrackerCall → Option SourceTracker
  | .success peer => some (t.recordSuccess peer)
  | .failure peer now => t.tryRecordFailure latest peer now

end SourceTracker

/-! ## What a history says -/

/-- The consecutive failures of a source, and when the last of them was. -/
def streakStep (peer : String) (streak : Option (Nat × Nat)) : TrackerCall → Option (Nat × Nat)
  | .success other => if other = peer then none else streak
  | .failure other now =>
      if other = peer then some ((streak.elim 0 Prod.fst) + 1, now) else streak

def streak (peer : String) (calls : List TrackerCall) : Option (Nat × Nat) :=
  calls.foldl (streakStep peer) none

/-- The window after a number of consecutive failures: it doubles with each up to a cap on the
shift, and never exceeds the longest one. -/
def backoffWindow (base max failures : Nat) : Nat := min (base * 2 ^ min (failures - 1) 16) max

/-- When the window of a source ends. -/
def windowEnd (base max : Nat) (calls : List TrackerCall) (peer : String) : Option Nat :=
  (streak peer calls).map fun (failures, last) => last + backoffWindow base max failures

/-- The health of a source with some streak. -/
structure Reflects (base max : Nat) (streak : Option (Nat × Nat)) (health : SourceHealth) :
    Prop where
  failures : health.failures = min (streak.elim 0 Prod.fst) (2 ^ 32 - 1)
  backoffUntil : health.backoffUntil =
    streak.map fun (failures, last) => last + backoffWindow base max failures

/-- A tracker remembers what a history of its calls says. -/
structure KeepsHistory (base max : Nat) (calls : List TrackerCall) (t : SourceTracker) : Prop where
  baseBackoff : t.baseBackoff = base
  maxBackoff : t.maxBackoff = max
  health : ∀ peer, Reflects base max (streak peer calls) (t.health peer)

section Tracking

variable {base max latest now : Nat} {calls : List TrackerCall} {t t' : SourceTracker}
variable {c : TrackerCall} {peer : String}

theorem streak_concat : streak peer (calls ++ [c]) = streakStep peer (streak peer calls) c := by
  simp [streak]

/-- The checked product gives the window of the statement. -/
theorem computedBackoff_eq (hmax : max ≤ durationMax) (h : KeepsHistory base max calls t)
    (failures : Nat) : t.computedBackoff failures = backoffWindow base max failures := by
  simp only [SourceTracker.computedBackoff, backoffWindow, checkedMul, h.baseBackoff, h.maxBackoff]
  split
  · rfl
  · rw [Option.getD_none]
    omega

/-- The count that is stored saturates far above the cap on the shift. -/
theorem backoffWindow_saturating (failures : Nat) :
    backoffWindow base max (min failures (2 ^ 32 - 1)) = backoffWindow base max failures := by
  have hshift : min (min failures (2 ^ 32 - 1) - 1) 16 = min (failures - 1) 16 := by omega
  rw [backoffWindow, backoffWindow, hshift]

theorem backoffWindow_le (failures : Nat) : backoffWindow base max failures ≤ max :=
  Nat.min_le_right _ _

theorem keepsHistory_new : KeepsHistory base max [] (.new base max) where
  baseBackoff := rfl
  maxBackoff := rfl
  health _ := ⟨rfl, rfl⟩

/-- A call changes the health of one source, by what it adds to the streak of that one. -/
theorem KeepsHistory.update {health : SourceHealth} (h : KeepsHistory base max calls t)
    (hself : Reflects base max (streak peer (calls ++ [c])) health)
    (hother : ∀ other, other ≠ peer →
      streakStep other (streak other calls) c = streak other calls) :
    KeepsHistory base max (calls ++ [c])
      { t with health := Function.update t.health peer health } := by
  refine ⟨h.baseBackoff, h.maxBackoff, fun other => ?_⟩
  change Reflects base max _ (Function.update t.health peer health other)
  cases Classical.em (other = peer) with
  | inl heq =>
    subst heq
    rw [Function.update_self]
    exact hself
  | inr hne =>
    rw [Function.update_of_ne hne, streak_concat, hother other hne]
    exact h.health other

/-- A success ends the window of its source. -/
theorem KeepsHistory.recordSuccess (h : KeepsHistory base max calls t) :
    KeepsHistory base max (calls ++ [.success peer]) (t.recordSuccess peer) := by
  refine h.update ?_ fun other hne => if_neg (Ne.symm hne)
  rw [streak_concat, streakStep, if_pos rfl]
  exact ⟨rfl, rfl⟩

/-- A failure that is recorded begins the next window of its source. -/
theorem KeepsHistory.tryRecordFailure (hmax : max ≤ durationMax) (h : KeepsHistory base max calls t)
    (hrecord : t.tryRecordFailure latest peer now = some t') :
    KeepsHistory base max (calls ++ [.failure peer now]) t' := by
  obtain ⟨backoffUntil, hadd, rfl⟩ := Option.map_eq_some_iff.mp hrecord
  obtain ⟨-, rfl⟩ := addInstant_eq_some.mp hadd
  have hcount : min ((t.health peer).failures + 1) (2 ^ 32 - 1) =
      min ((streak peer calls).elim 0 Prod.fst + 1) (2 ^ 32 - 1) := by
    rw [(h.health peer).failures]
    omega
  refine h.update ?_ fun other hne => if_neg (Ne.symm hne)
  rw [streak_concat, streakStep, if_pos rfl, hcount, computedBackoff_eq hmax h,
    backoffWindow_saturating]
  exact ⟨rfl, rfl⟩

theorem KeepsHistory.call (hmax : max ≤ durationMax) (h : KeepsHistory base max calls t)
    (hcall : t.call latest c = some t') : KeepsHistory base max (calls ++ [c]) t' := by
  cases c with
  | success peer =>
    cases hcall
    exact h.recordSuccess
  | failure peer now => exact h.tryRecordFailure hmax hcall

/-- A failure is recorded if its window ends on the clock. -/
theorem tryRecordFailure_isSome (hmax : max ≤ durationMax) (h : KeepsHistory base max calls t)
    (hroom : ∀ failures, now + backoffWindow base max failures ≤ latest) :
    ∃ t', t.tryRecordFailure latest peer now = some t' := by
  refine ⟨_, Option.map_eq_some_iff.mpr ⟨_, addInstant_eq_some.mpr ⟨?_, rfl⟩, rfl⟩⟩
  rw [computedBackoff_eq hmax h]
  exact hroom _

/-- Every history runs through, and the tracker remembers it. -/
theorem run_call (hmax : max ≤ durationMax)
    (hroom : ∀ failures, now + backoffWindow base max failures ≤ latest)
    (hcalls : ∀ c ∈ calls, c.NotAfter now) :
    ∃ t, Runs.run (SourceTracker.call latest) (.new base max) calls = some t ∧
      KeepsHistory base max calls t := by
  induction calls using List.reverseRecOn with
  | nil => exact ⟨_, rfl, keepsHistory_new⟩
  | append_singleton calls c ih =>
    obtain ⟨t, hrun, ht⟩ := ih fun c hc => hcalls c (List.mem_append_left _ hc)
    have hstep : ∃ t', t.call latest c = some t' := by
      cases c with
      | success peer => exact ⟨_, rfl⟩
      | failure peer recorded =>
        have hrecorded : recorded ≤ now := hcalls (.failure peer recorded) (by simp)
        exact tryRecordFailure_isSome hmax ht fun failures =>
          (Nat.add_le_add_right hrecorded _).trans (hroom failures)
    obtain ⟨t', hcall⟩ := hstep
    exact ⟨t', Runs.run_append_eq_some.mpr ⟨t, hrun, Runs.run_cons hcall⟩, ht.call hmax hcall⟩

theorem streak_le {failures last : Nat} (hcalls : ∀ c ∈ calls, c.NotAfter now)
    (h : streak peer calls = some (failures, last)) : last ≤ now := by
  induction calls using List.reverseRecOn generalizing failures last with
  | nil => cases h
  | append_singleton calls c ih =>
    have hbefore : streak peer calls = some (failures, last) → last ≤ now :=
      ih fun c hc => hcalls c (List.mem_append_left _ hc)
    rw [streak_concat] at h
    cases c with
    | success other =>
      rw [streakStep] at h
      split at h
      · cases h
      · exact hbefore h
    | failure other recorded =>
      rw [streakStep] at h
      split at h
      · cases h
        exact hcalls (.failure other last) (by simp)
      · exact hbefore h

/-- No window ends later than the longest one does that begins now. -/
theorem windowEnd_le {ends : Nat} (hcalls : ∀ c ∈ calls, c.NotAfter now)
    (h : windowEnd base max calls peer = some ends) : ends ≤ now + max := by
  obtain ⟨⟨failures, last⟩, hstreak, rfl⟩ := Option.map_eq_some_iff.mp h
  exact Nat.add_le_add (streak_le hcalls hstreak) (backoffWindow_le failures)

end Tracking

/-! ## The scan -/

/-- The scan for the end of a window, with the sums as they are computed. -/
def tryScanAvailable (latest : Nat) (tracker : SourceTracker) (peer : String) (step limit : Nat) :
    Nat → Nat → Option Nat
  | 0, _ => none
  | fuel + 1, t =>
      if limit < t then some limit
      else if tracker.isAvailable peer t then some t
      else (addInstant latest t step).bind (tryScanAvailable latest tracker peer step limit fuel)

namespace Job

variable (latest : Nat) (config : DownloadConfig) (job : Job)

/-- `next_available_at`. -/
def tryNextAvailableAt (peer : String) (now : Nat) : Option Nat :=
  let step := max config.baseBackoff (10 ^ 6)
  (addInstant latest now config.maxBackoff).bind fun capped =>
    (addInstant latest capped step).bind fun limit =>
      tryScanAvailable latest job.tracker peer step limit
        ((config.maxBackoff + step) / step + 1) now

/-- `earliest_backoff`. -/
def tryEarliestBackoff (now : Nat) : Option (Option Nat) :=
  ((job.providers.filter fun p => !job.tracker.isAvailable p.providerPeerId now).mapM fun p =>
    job.tryNextAvailableAt latest config p.providerPeerId now).map List.min?

end Job

section Scan

variable {tracker : SourceTracker} {peer : String} {latest step limit fuel t ends : Nat}

/-- The scan that computes its sums is the scan, where it has a result. -/
theorem scanAvailable_of_tryScanAvailable {r : Nat}
    (h : tryScanAvailable latest tracker peer step limit fuel t = some r) :
    Job.scanAvailable tracker peer step limit fuel t = r := by
  induction fuel generalizing t with
  | zero => cases h
  | succ fuel ih =>
    rw [tryScanAvailable] at h
    rw [Job.scanAvailable]
    split at h
    · rename_i hpast
      cases h
      exact if_pos hpast
    · rename_i hnot
      rw [if_neg hnot]
      split at h
      · rename_i havailable
        cases h
        exact if_pos havailable
      · rename_i hbacking
        rw [if_neg hbacking]
        obtain ⟨next, hnext, hrest⟩ := Option.bind_eq_some_iff.mp h
        obtain ⟨-, rfl⟩ := addInstant_eq_some.mp hnext
        exact ih hrest

/-- A scan that begins less than a step past the end of a window stops less than a step past it,
within the limit, and no sum on the way leaves the clock. -/
theorem tryScanAvailable_spec
    (hends : ∀ t, tracker.isAvailable peer t = true ↔ ends ≤ t)
    (hlimit : ends + step ≤ limit) (hlatest : limit ≤ latest) (hbegin : t < ends + step)
    (hfuel : ends ≤ t + fuel * step) :
    ∃ r, tryScanAvailable latest tracker peer step limit (fuel + 1) t = some r ∧
      ends ≤ r ∧ r < ends + step := by
  induction fuel generalizing t with
  | zero =>
    have hdone : ends ≤ t := by omega
    refine ⟨t, ?_, hdone, hbegin⟩
    rw [tryScanAvailable, if_neg (by omega), if_pos ((hends t).mpr hdone)]
  | succ fuel ih =>
    rw [tryScanAvailable, if_neg (by omega)]
    cases Nat.lt_or_ge t ends with
    | inr hdone =>
      rw [if_pos ((hends t).mpr hdone)]
      exact ⟨t, rfl, hdone, hbegin⟩
    | inl hbefore =>
      rw [if_neg (fun h => Nat.not_le.mpr hbefore ((hends t).mp h)),
        addInstant_eq_some.mpr ⟨by omega, rfl⟩, Option.bind_some]
      refine ih (by omega) ?_
      rw [Nat.succ_mul] at hfuel
      omega

end Scan

/-! ## Waking up -/

/-- A source is inside its window at an instant. -/
def BackingOff (config : DownloadConfig) (calls : List TrackerCall) (now : Nat) (peer : String)
    (ends : Nat) : Prop :=
  windowEnd config.baseBackoff config.maxBackoff calls peer = some ends ∧ now < ends

/-- The step of the scan. -/
def scanStep (config : DownloadConfig) : Nat := max config.baseBackoff (10 ^ 6)

/-- The instant that a job is to wake up at: there is one exactly when a holder is inside its
window, a holder that is gets available by then, and it is less than a step past the end of each
window. -/
structure WakesUp (config : DownloadConfig) (calls : List TrackerCall) (job : Job) (now : Nat)
    (earliest : Option Nat) : Prop where
  isSome_iff : earliest.isSome = true ↔
    ∃ p ∈ job.providers, ∃ ends, BackingOff config calls now p.providerPeerId ends
  available : ∀ t, earliest = some t →
    ∃ p ∈ job.providers, (∃ ends, BackingOff config calls now p.providerPeerId ends) ∧
      job.tracker.isAvailable p.providerPeerId t = true
  near : ∀ t, earliest = some t → ∀ p ∈ job.providers, ∀ ends,
    BackingOff config calls now p.providerPeerId ends → t < ends + scanStep config

section Waking

variable {config : DownloadConfig} {calls : List TrackerCall} {job : Job} {now latest : Nat}
variable {peer : String}

theorem isAvailable_iff {t ends : Nat}
    (h : KeepsHistory config.baseBackoff config.maxBackoff calls job.tracker)
    (hends : windowEnd config.baseBackoff config.maxBackoff calls peer = some ends) :
    job.tracker.isAvailable peer t = true ↔ ends ≤ t := by
  rw [windowEnd, ← (h.health peer).backoffUntil] at hends
  rw [SourceTracker.isAvailable, hends]
  exact decide_eq_true_iff

/-- Not to be available is to be inside the window. -/
theorem backingOff_iff (h : KeepsHistory config.baseBackoff config.maxBackoff calls job.tracker) :
    job.tracker.isAvailable peer now = false ↔ ∃ ends, BackingOff config calls now peer ends := by
  cases hends : windowEnd config.baseBackoff config.maxBackoff calls peer with
  | none =>
    have hnone : (job.tracker.health peer).backoffUntil = none :=
      (h.health peer).backoffUntil.trans hends
    simp [SourceTracker.isAvailable, hnone, BackingOff, hends]
  | some ends =>
    rw [← Bool.not_eq_true, isAvailable_iff h hends]
    simp [BackingOff, hends]

/-- A window that the limit of the scan is past: the scan stops at most a step after its end. -/
theorem tryNextAvailableAt_spec {ends : Nat} (hcalls : ∀ c ∈ calls, c.NotAfter now)
    (h : KeepsHistory config.baseBackoff config.maxBackoff calls job.tracker)
    (hroom : now + config.maxBackoff + scanStep config ≤ latest)
    (hback : BackingOff config calls now peer ends) :
    job.tryNextAvailableAt latest config peer now = some (job.nextAvailableAt config peer now) ∧
      ends ≤ job.nextAvailableAt config peer now ∧
      job.nextAvailableAt config peer now < ends + scanStep config := by
  have hstep : 0 < scanStep config := by
    rw [scanStep]
    omega
  have hle : ends ≤ now + config.maxBackoff := windowEnd_le hcalls hback.1
  have hfuel : config.maxBackoff ≤
      (config.maxBackoff + scanStep config) / scanStep config * scanStep config := by
    have hdiv := Nat.div_add_mod' (config.maxBackoff + scanStep config) (scanStep config)
    have hmod := Nat.mod_lt (config.maxBackoff + scanStep config) hstep
    omega
  obtain ⟨r, hscan, hafter, hnear⟩ := tryScanAvailable_spec
    (fun t => isAvailable_iff h hback.1)
    (Nat.add_le_add_right hle (scanStep config)) hroom
    (Nat.lt_of_lt_of_le hback.2 (Nat.le_add_right _ _))
    (hle.trans (Nat.add_le_add_left hfuel now))
  have hnext : job.nextAvailableAt config peer now = r := scanAvailable_of_tryScanAvailable hscan
  rw [hnext]
  refine ⟨?_, hafter, hnear⟩
  rw [Job.tryNextAvailableAt, addInstant_eq_some.mpr ⟨by omega, rfl⟩, Option.bind_some]
  change (addInstant latest (now + config.maxBackoff) (scanStep config)).bind _ = _
  rw [addInstant_eq_some.mpr ⟨hroom, rfl⟩, Option.bind_some]
  exact hscan

theorem mapM_eq_map {α β : Type} {l : List α} {f : α → Option β} {g : α → β}
    (h : ∀ a ∈ l, f a = some (g a)) : l.mapM f = some (l.map g) := by
  induction l with
  | nil => rfl
  | cons a l ih =>
    have hhead := h a List.mem_cons_self
    have hrest := ih fun b hb => h b (List.mem_cons_of_mem a hb)
    simp [hhead, hrest]

/-- The instant to wake up at is computed if the limits of the scans are on the clock, and is what
the loop waits for. -/
theorem tryEarliestBackoff_eq (hcalls : ∀ c ∈ calls, c.NotAfter now)
    (h : KeepsHistory config.baseBackoff config.maxBackoff calls job.tracker)
    (hroom : (∃ p ∈ job.providers, ∃ ends, BackingOff config calls now p.providerPeerId ends) →
      now + config.maxBackoff + scanStep config ≤ latest) :
    job.tryEarliestBackoff latest config now = some (job.earliestBackoff config now) := by
  refine congrArg (Option.map List.min?) (mapM_eq_map fun p hp => ?_)
  obtain ⟨hmem, hnot⟩ := List.mem_filter.mp hp
  have hback := (backingOff_iff h).mp (Bool.not_eq_true' _ ▸ hnot)
  obtain ⟨ends, hends⟩ := hback
  exact (tryNextAvailableAt_spec hcalls h (hroom ⟨p, hmem, ends, hends⟩) hends).1

theorem wakesUp (hcalls : ∀ c ∈ calls, c.NotAfter now)
    (h : KeepsHistory config.baseBackoff config.maxBackoff calls job.tracker)
    (hroom : (∃ p ∈ job.providers, ∃ ends, BackingOff config calls now p.providerPeerId ends) →
      now + config.maxBackoff + scanStep config ≤ latest) :
    WakesUp config calls job now (job.earliestBackoff config now) := by
  constructor
  case isSome_iff =>
    rw [Option.isSome_iff_ne_none, Ne, Job.earliestBackoff_eq_none]
    simp only [← backingOff_iff h, not_forall, Bool.not_eq_true, exists_prop]
  case available =>
    intro t ht
    obtain ⟨p, hp, rfl⟩ := List.mem_map.mp (List.min?_mem ht)
    obtain ⟨hmem, hnot⟩ := List.mem_filter.mp hp
    obtain ⟨ends, hends⟩ := (backingOff_iff h).mp (Bool.not_eq_true' _ ▸ hnot)
    obtain ⟨-, hafter, -⟩ := tryNextAvailableAt_spec hcalls h (hroom ⟨p, hmem, ends, hends⟩) hends
    exact ⟨p, hmem, ⟨ends, hends⟩, (isAvailable_iff h hends.1).mpr hafter⟩
  case near =>
    intro t ht p hp ends hends
    obtain ⟨-, -, hnear⟩ := tryNextAvailableAt_spec hcalls h (hroom ⟨p, hp, ends, hends⟩) hends
    have hnot := (backingOff_iff h).mpr ⟨ends, hends⟩
    have hlisted : job.nextAvailableAt config p.providerPeerId now ∈
        (job.providers.filter fun p => !job.tracker.isAvailable p.providerPeerId now).map fun p =>
          job.nextAvailableAt config p.providerPeerId now :=
      List.mem_map.mpr ⟨p, List.mem_filter.mpr ⟨hp, by simp [hnot]⟩, rfl⟩
    exact Nat.lt_of_le_of_lt ((List.min?_eq_some_iff.mp ht).2 _ hlisted) hnear

end Waking

/-- What holds of a tracker and of the jobs that wait by it at an instant, whatever was recorded by
then: no sum leaves the clock, the windows are those of the history, each scan finds the end of its
window before its limit, and the jobs wake up at the right moment. -/
def BackoffSound (latest : Nat) (config : DownloadConfig) (now : Nat) : Prop :=
  ∀ calls : List TrackerCall, (∀ c ∈ calls, c.NotAfter now) →
    ∃ tracker, Runs.run (SourceTracker.call latest) (.new config.baseBackoff config.maxBackoff)
        calls = some tracker ∧
      KeepsHistory config.baseBackoff config.maxBackoff calls tracker ∧
      ∀ job : Job, job.tracker = tracker →
        (∀ p ∈ job.providers, ∀ ends, BackingOff config calls now p.providerPeerId ends →
          ∃ t, job.tryNextAvailableAt latest config p.providerPeerId now = some t ∧
            t < now + config.maxBackoff + scanStep config ∧
            tracker.isAvailable p.providerPeerId t = true) ∧
        ∃ earliest, job.tryEarliestBackoff latest config now = some earliest ∧
          WakesUp config calls job now earliest

/-- A job that knows one source and has done nothing. -/
def idleJob (tracker : SourceTracker) (peer : String) : Job where
  providers := [⟨peer, []⟩]
  commitment := none
  ranges := []
  rangeState := []
  tracker := tracker
  inflightPerSource := ∅
  inflight := []
  resume := .new ""
  paused := false
  bytesDone := 0
  hasher := none
  relocateAttempts := 0
  relocatedSinceProgress := false
  totalFailures := 0
  lastRefresh := 0

/-- Where there are windows, the limit of a scan is on the clock, for a source may have failed just
now and a job wait for it. -/
theorem BackoffSound.limit_le {latest now : Nat} {config : DownloadConfig}
    (h : BackoffSound latest config now) (hbase : config.baseBackoff ≠ 0)
    (hcap : config.maxBackoff ≠ 0) : now + config.maxBackoff + scanStep config ≤ latest := by
  have hcalls : ∀ c ∈ [TrackerCall.failure "" now], c.NotAfter now := by
    intro c hc
    rw [List.mem_singleton.mp hc]
    exact Nat.le_refl now
  obtain ⟨tracker, -, -, hjobs⟩ := h [.failure "" now] hcalls
  have hwindow : backoffWindow config.baseBackoff config.maxBackoff 1 =
      min config.baseBackoff config.maxBackoff := by simp [backoffWindow]
  have hback : BackingOff config [.failure "" now] now ""
      (now + backoffWindow config.baseBackoff config.maxBackoff 1) := by
    refine ⟨by simp [windowEnd, streak, streakStep], ?_⟩
    rw [hwindow]
    omega
  obtain ⟨t, hnext, -, -⟩ := (hjobs (idleJob tracker "") rfl).1 _ List.mem_cons_self _ hback
  obtain ⟨capped, hcapped, hrest⟩ := Option.bind_eq_some_iff.mp hnext
  obtain ⟨limit, hlimit, -⟩ := Option.bind_eq_some_iff.mp hrest
  obtain ⟨-, rfl⟩ := addInstant_eq_some.mp hcapped
  exact (addInstant_eq_some.mp hlimit).1

/-- Backoff is sound at an instant exactly when there are no windows, or the limit of a scan that
begins then is still on the clock. -/
theorem backoffSound_iff (latest : Nat) (config : DownloadConfig) (now : Nat)
    (hnow : now ≤ latest) (hmax : config.maxBackoff ≤ durationMax) :
    BackoffSound latest config now ↔
      config.baseBackoff = 0 ∨ config.maxBackoff = 0 ∨
        now + config.maxBackoff + max config.baseBackoff (10 ^ 6) ≤ latest := by
  constructor
  · intro hsound
    by_contra hnot
    simp only [not_or] at hnot
    obtain ⟨hbase, hcap, hpast⟩ := hnot
    exact hpast (hsound.limit_le hbase hcap)
  · intro hcond calls hcalls
    have hzero : ∀ failures, config.baseBackoff = 0 ∨ config.maxBackoff = 0 →
        backoffWindow config.baseBackoff config.maxBackoff failures = 0 := by
      intro failures hnone
      cases hnone with
      | inl hbase => rw [backoffWindow, hbase, Nat.zero_mul, Nat.zero_min]
      | inr hcap => rw [backoffWindow, hcap, Nat.min_zero]
    have hclock : ∀ failures,
        now + backoffWindow config.baseBackoff config.maxBackoff failures ≤ latest := by
      intro failures
      have hle : backoffWindow config.baseBackoff config.maxBackoff failures ≤ config.maxBackoff :=
        backoffWindow_le failures
      have hnone := hzero failures
      omega
    obtain ⟨tracker, hrun, hkeeps⟩ := run_call hmax hclock hcalls
    refine ⟨tracker, hrun, hkeeps, ?_⟩
    rintro job rfl
    have hroom : ∀ peer ends, BackingOff config calls now peer ends →
        now + config.maxBackoff + scanStep config ≤ latest := by
      intro peer ends hback
      obtain ⟨hends, hinside⟩ := hback
      obtain ⟨⟨failures, last⟩, hstreak, rfl⟩ := Option.map_eq_some_iff.mp hends
      change now < last + backoffWindow config.baseBackoff config.maxBackoff failures at hinside
      have hlast := streak_le hcalls hstreak
      have hnone := hzero failures
      rw [scanStep]
      omega
    refine ⟨fun p hp ends hback => ?_, job.earliestBackoff config now, ?_, ?_⟩
    · obtain ⟨hnext, hafter, hnear⟩ :=
        tryNextAvailableAt_spec hcalls hkeeps (hroom _ _ hback) hback
      have hle : ends ≤ now + config.maxBackoff := windowEnd_le hcalls hback.1
      exact ⟨_, hnext, Nat.lt_of_lt_of_le hnear (Nat.add_le_add_right hle _),
        (isAvailable_iff hkeeps hback.1).mpr hafter⟩
    · exact tryEarliestBackoff_eq hcalls hkeeps fun ⟨p, _, ends, hends⟩ => hroom _ ends hends
    · exact wakesUp hcalls hkeeps fun ⟨p, _, ends, hends⟩ => hroom _ ends hends

/-- The configuration of a download that sets nothing. -/
def DownloadConfig.default : DownloadConfig where
  window := 3 * 1024 * 1024
  maxConcurrency := 8
  maxInflightPerSource := 4
  baseBackoff := 200 * 10 ^ 6
  maxBackoff := 10 * 10 ^ 9
  maxRelocateAttempts := 4
  maxRangeAttempts := 6
  maxResourceSize := 512 * 1024 * 1024
  verifyWholeResource := true
  rangeTimeout := some (30 * 10 ^ 9)
  refreshInterval := some (15 * 10 ^ 9)

/-- The last instant of a clock with 63 bits of seconds. -/
def lastInstant : Nat := 2 ^ 63 * 10 ^ 9 - 1

/-- The default configuration, when such a clock begins. -/
theorem backoffSound_default :
    0 ≤ lastInstant ∧ DownloadConfig.default.maxBackoff ≤ durationMax ∧
      BackoffSound lastInstant .default 0 :=
  ⟨by decide, by decide,
    (backoffSound_iff lastInstant .default 0 (by decide) (by decide)).mpr (by decide)⟩

/-- With the longest duration as the cap, on the other hand, a scan has no limit to compute. -/
theorem not_backoffSound_uncapped :
    ¬ BackoffSound lastInstant { DownloadConfig.default with maxBackoff := durationMax } 0 := by
  intro h
  have hlimit := h.limit_le (by decide) (by decide)
  revert hlimit
  decide

end DigDownload
