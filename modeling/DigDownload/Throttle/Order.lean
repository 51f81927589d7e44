import DigDownload.Lib.Past
import DigDownload.Throttle.Cancellation

/-!
# First come, first served

The gate lets the calls through in the order in which they arrive. Nothing is charged for a call,
and none but a call for nothing returns, before every call that arrived earlier has returned or
was dropped; and no call is lost on the way or ends twice.
-/

namespace DigDownload

open Past Runs

namespace FcfsRateLimiter

/-- Every call that arrived before this one has returned or was dropped. -/
def EarlierEnded (log : List LimiterEvent) (call : AcquireCall) : Prop :=
  ∀ id < call.id, id ∈ log.filterMap endedBy

/-- What is seen of a call is seen when it is its turn. -/
def InTurn (before : List LimiterEvent) : LimiterEvent → Prop
  | .charged _ call _ | .slept call _ => EarlierEnded before call
  | .returned call _ _ => call.bytes ≠ 0 → EarlierEnded before call
  | .dropped _ => True

/-- The calls are served in the order of their arrival, and each that has arrived is in line or
has ended, once. -/
structure ServesInOrder (s : FcfsRateLimiter) : Prop where
  inTurn : AtEach InTurn s.log
  once : ∀ id < s.arrived,
    (s.calls.map (·.id)).count id + (s.log.filterMap endedBy).count id = 1

/-- The calls in line stand in the order of their arrival, and all others have ended. -/
structure Lined (s : FcfsRateLimiter) : Prop where
  numbered : s.Numbered
  endsOnce : s.EndsOnce
  sorted : (s.calls.map (·.id)).Pairwise (· < ·)
  accounted : ∀ id < s.arrived, (∃ call ∈ s.calls, call.id = id) ∨ id ∈ s.log.filterMap endedBy
  inTurn : AtEach InTurn s.log

variable {globalBps perConnBps : ℕ} {start : ℚ} {s s' : FcfsRateLimiter} {act : Act}
  {call : AcquireCall} {p : AwaitPoint} {log events : List LimiterEvent}

theorem EarlierEnded.append (h : EarlierEnded log call) : EarlierEnded (log ++ events) call := by
  intro id hid
  rw [List.filterMap_append]
  exact List.mem_append_left _ (h id hid)

theorem new_lined : (new globalBps perConnBps start).Lined where
  numbered := new_numbered ..
  endsOnce := new_endsOnce
  sorted := List.Pairwise.nil
  accounted id hid := by cases hid
  inTurn := atEach_nil

/-- It is the turn of the call at the head of the line. -/
theorem Lined.earlierEnded (h : s.Lined) (hholder : s.holder = some (call, p)) :
    EarlierEnded s.log call := by
  intro id hid
  have harrived := h.numbered.arrived call (mem_calls_of_holder hholder)
  cases h.accounted id (hid.trans harrived) with
  | inr hended => exact hended
  | inl hline =>
    obtain ⟨other, hother, rfl⟩ := hline
    have hsorted := h.sorted
    rw [calls_holder hholder] at hother hsorted
    cases List.mem_cons.mp hother with
    | inl hsame =>
      rw [hsame] at hid
      exact absurd hid (lt_irrefl _)
    | inr hbehind =>
      have hlater := (List.pairwise_cons.mp hsorted).1 other.id
        (List.mem_map_of_mem hbehind)
      exact absurd hid hlater.not_gt

/-- A step keeps the line in order. -/
theorem Lined.sorted_step (h : s.Lined) (hmoves : s.Moves act s') :
    (s'.calls.map (·.id)).Pairwise (· < ·) := by
  obtain ⟨-, hsub | ⟨-, call, hid, hcalls⟩⟩ := calls_step hmoves
  · exact h.sorted.sublist (hsub.map _)
  · rw [hcalls, List.map_append, List.pairwise_append]
    refine ⟨h.sorted, List.pairwise_singleton _ _, ?_⟩
    intro id hold _ hnew
    obtain ⟨other, hother, rfl⟩ := List.mem_map.mp hold
    rw [List.map_singleton, List.mem_singleton] at hnew
    rw [hnew, hid]
    exact h.numbered.arrived other hother

/-- A call that leaves the line has ended. -/
theorem ended_of_left (hmoves : s.Moves act s') (hcall : call ∈ s.calls) :
    call ∈ s'.calls ∨ call.id ∈ s'.log.filterMap endedBy := by
  cases hmoves with
  | nothing connKey => exact Or.inl hcall
  | queue hbytes =>
    refine Or.inl ?_
    rcases List.mem_append.mp hcall with hholder | hwaits
    · exact List.mem_append_left _ hholder
    · exact List.mem_append_right _ (List.mem_append_left _ hwaits)
  | enter hfree hfirst =>
    rw [calls_free hfree, hfirst] at hcall
    exact Or.inl hcall
  | askGlobal hholder | askPerConn hholder | sleep hholder | chargeGlobal hholder
  | wake hholder =>
    rw [calls_holder hholder] at hcall
    exact Or.inl hcall
  | chargePerConn hholder | chargeNone hholder | dropHolder hholder =>
    rw [calls_holder hholder] at hcall
    rcases List.mem_cons.mp hcall with rfl | hwaits
    · exact Or.inr (by simp [endedBy])
    · rw [calls_free rfl]
      exact Or.inl hwaits
  | @dropWaiting dropped hother hwaits =>
    by_cases hsame : call.id = dropped.id
    · exact Or.inr (by simp [endedBy, hsame])
    · refine Or.inl ?_
      rcases List.mem_append.mp hcall with hholder | hwaits'
      · exact List.mem_append_left _ hholder
      · exact List.mem_append_right _ (List.mem_filter.mpr ⟨hwaits', by simpa using hsame⟩)
  | tick helapsed => exact Or.inl hcall

/-- Each call that arrives is in line, or has ended at once. -/
theorem arrived_step (hmoves : s.Moves act s') {id : ℕ} (hid : id < s'.arrived) :
    id < s.arrived ∨ (∃ call ∈ s'.calls, call.id = id) ∨ id ∈ s'.log.filterMap endedBy := by
  cases hmoves with
  | nothing connKey =>
    rcases Nat.lt_succ_iff_lt_or_eq.mp hid with hold | rfl
    · exact Or.inl hold
    · exact Or.inr (Or.inr (by simp [endedBy]))
  | @queue connKey bytes hbytes =>
    rcases Nat.lt_succ_iff_lt_or_eq.mp hid with hold | rfl
    · exact Or.inl hold
    · refine Or.inr (Or.inl ⟨⟨s.arrived, connKey, bytes⟩, ?_, rfl⟩)
      exact List.mem_append_right _ (List.mem_append_right _ List.mem_cons_self)
  | enter | askGlobal | askPerConn | sleep | chargeGlobal | chargePerConn | chargeNone | wake
  | dropHolder | dropWaiting | tick => exact Or.inl hid

theorem Lined.accounted_step (h : s.Lined) (hmoves : s.Moves act s') {id : ℕ}
    (hid : id < s'.arrived) :
    (∃ call ∈ s'.calls, call.id = id) ∨ id ∈ s'.log.filterMap endedBy := by
  rcases arrived_step hmoves hid with hold | hnew
  · rcases h.accounted id hold with ⟨call, hcall, rfl⟩ | hended
    · rcases ended_of_left hmoves hcall with hline | hended
      · exact Or.inl ⟨call, hline, rfl⟩
      · exact Or.inr hended
    · obtain ⟨events, hlog, -⟩ := events_step hmoves
      rw [hlog, List.filterMap_append]
      exact Or.inr (List.mem_append_left _ hended)
  · exact hnew

/-- What is seen of a step is seen in turn. -/
theorem Lined.inTurn_step (h : s.Lined) (hmoves : s.Moves act s') : AtEach InTurn s'.log := by
  cases hmoves with
  | nothing connKey => exact atEach_concat.mpr ⟨h.inTurn, fun hbytes => absurd rfl hbytes⟩
  | queue | enter | askGlobal | askPerConn | wake | tick => exact h.inTurn
  | sleep hholder | chargeGlobal hholder =>
    exact atEach_concat.mpr ⟨h.inTurn, h.earlierEnded hholder⟩
  | chargeNone hholder => exact atEach_concat.mpr ⟨h.inTurn, fun _ => h.earlierEnded hholder⟩
  | dropHolder | dropWaiting => exact atEach_concat.mpr ⟨h.inTurn, trivial⟩
  | chargePerConn hholder hold =>
    have hturn := h.earlierEnded hholder
    refine atEach_append.mpr ⟨h.inTurn, ?_⟩
    rw [← List.singleton_append]
    exact atEach_append.mpr ⟨atEach_singleton.mpr hturn.append,
      atEach_singleton.mpr fun _ => hturn.append⟩

theorem Lined.step (h : s.Lined) (hmoves : s.Moves act s') : s'.Lined where
  numbered := h.numbered.step hmoves
  endsOnce := h.endsOnce.step h.numbered hmoves
  sorted := h.sorted_step hmoves
  accounted _ hid := h.accounted_step hmoves hid
  inTurn := h.inTurn_step hmoves

theorem Lined.once (h : s.Lined) {id : ℕ} (hid : id < s.arrived) :
    (s.calls.map (·.id)).count id + (s.log.filterMap endedBy).count id = 1 := by
  rcases h.accounted id hid with ⟨call, hcall, rfl⟩ | hended
  · have hline : (s.calls.map (·.id)).count call.id = 1 :=
      List.count_eq_one_of_mem h.numbered.nodup (List.mem_map_of_mem hcall)
    have hnone : (s.log.filterMap endedBy).count call.id = 0 :=
      List.count_eq_zero.mpr fun hended => (h.endsOnce.gone _ hended).left call hcall rfl
    rw [hline, hnone]
  · have hgone := h.endsOnce.gone id hended
    have hline : (s.calls.map (·.id)).count id = 0 := by
      refine List.count_eq_zero.mpr fun hmem => ?_
      obtain ⟨call, hcall, hsame⟩ := List.mem_map.mp hmem
      exact hgone.left call hcall hsame
    rw [hline, List.count_eq_one_of_mem h.endsOnce.nodup hended]

/-- Whatever the caps, whichever calls are dropped and however their steps interleave, a limiter
serves first who came first, and loses no call. -/
theorem serves_in_order (globalBps perConnBps : ℕ) (start : ℚ) (acts : List Act)
    (s : FcfsRateLimiter) (hrun : Runs.run step (new globalBps perConnBps start) acts = some s) :
    s.ServesInOrder := by
  have h : s.Lined :=
    invariant (fun _ _ _ hs hstep => hs.step (moves_of_step hstep)) new_lined hrun
  exact ⟨h.inTurn, fun id hid => h.once hid⟩

/-- The call at the head of the line is dropped, the one behind it returns, and one for nothing
does not wait for the last. -/
def mixedCalls : List Act :=
  [.arrive "peer" 1, .arrive "peer" 1, .arrive "other" 2, .enter, .poll, .drop 0, .enter, .poll,
    .arrive "peer" 0, .poll, .poll, .poll, .enter]

theorem serves_in_order_mixed : ∃ s, Runs.run step (new 1 1 0) mixedCalls = some s ∧
    s.log.filterMap endedBy = [0, 3, 1] ∧ s.ServesInOrder := by
  have hsome : (Runs.run step (new 1 1 0) mixedCalls).isSome := by decide +kernel
  obtain ⟨s, hs⟩ := Option.isSome_iff_exists.mp hsome
  have hended : ((Runs.run step (new 1 1 0) mixedCalls).map fun s => s.log.filterMap endedBy)
      = some [0, 3, 1] := by decide +kernel
  rw [hs, Option.map_some, Option.some.injEq] at hended
  exact ⟨s, hs, hended, serves_in_order 1 1 0 mixedCalls s hs⟩

end FcfsRateLimiter

end DigDownload
