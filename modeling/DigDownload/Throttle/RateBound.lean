import DigDownload.Lib.Metering
import DigDownload.Throttle.Limiter

/-!
# The rate that is kept

Each of the two caps is a meter. A call takes its grant from the bucket of the cap at the
clock reading that finds both buckets ready; the global bucket is charged one await point
before the call returns, so until then the tokens are on their way.
-/

namespace DigDownload

open Function Runs Metering

/-! ## One bucket as a meter -/

namespace Bucket

/-- The bucket of a cap of `rate`, with `credit` tokens charged for a grant still to come. -/
structure Meters (rate credit : ℚ) (b : Bucket) (gs : List (Grant ℚ)) : Prop where
  rate_eq : b.rate = rate
  capacity_eq : b.capacity = rate
  full : b.tokens ≤ rate
  metered : Metered rate b.lastRefill (b.tokens + credit) gs

/-- How far the call at the head of the line is with one of the caps. -/
inductive Stage where
  | out
  | asking (now : ℚ)
  | asked (need now wait : ℚ)
  | charged (need now : ℚ)

/-- The bucket of a cap of `rate` at a stage. -/
def Meeting (rate clock : ℚ) (b : Bucket) (gs : List (Grant ℚ)) : Stage → Prop
  | .out => b.Meters rate 0 gs ∧ b.lastRefill ≤ clock
  | .asking now => b.Meters rate 0 gs ∧ b.lastRefill ≤ now ∧ now ≤ clock
  | .asked need now wait =>
      b.Meters rate 0 gs ∧ b.lastRefill = now ∧ now ≤ clock ∧ 0 ≤ need ∧
        (wait ≤ 0 → min need rate ≤ b.tokens)
  | .charged need now =>
      b.Meters rate need gs ∧ b.lastRefill = now ∧ now ≤ clock ∧ 0 ≤ need ∧
        min need rate ≤ b.tokens + need

variable {rate credit need now later wait wait' clock : ℚ} {bps : ℕ} {b : Bucket}
variable {gs : List (Grant ℚ)} {stage : Stage}

theorem new_meters : (Bucket.new bps now).Meters bps 0 [] where
  rate_eq := rfl
  capacity_eq := rfl
  full := le_rfl
  metered := by
    have hrate : (0 : ℚ) ≤ bps := Nat.cast_nonneg bps
    exact Metered.start (by rw [add_zero]; exact le_rfl) hrate

theorem Meters.refill (h : b.Meters rate 0 gs) (hrate : 0 < rate) (hnow : b.lastRefill ≤ now) :
    (b.refill now).Meters rate 0 gs where
  rate_eq := refill_rate.trans h.rate_eq
  capacity_eq := refill_capacity.trans h.capacity_eq
  full := by
    rw [refill_tokens hnow (h.capacity_eq.symm ▸ h.full), h.capacity_eq]
    exact min_le_right _ _
  metered := by
    rw [refill_lastRefill hnow, refill_tokens hnow (h.capacity_eq.symm ▸ h.full),
      h.capacity_eq, h.rate_eq, add_zero]
    have hmetered := h.metered
    rw [add_zero] at hmetered
    exact hmetered.pass hnow hrate.le (min_le_left _ _) (min_le_right _ _)

theorem Meters.consume (h : b.Meters rate 0 gs) (hrate : 0 < rate) (hneed : 0 ≤ need) :
    (b.consume need).Meters rate need gs := by
  have htokens : (b.consume need).tokens = b.tokens - need :=
    consume_tokens (h.rate_eq.symm ▸ hrate)
  constructor
  · rw [consume_rate, h.rate_eq]
  · rw [consume_capacity, h.capacity_eq]
  · rw [htokens]
    linarith [h.full]
  · rw [consume_lastRefill, htokens, sub_add_cancel]
    have hmetered := h.metered
    rwa [add_zero] at hmetered

/-- The grant that the tokens on their way were for. -/
theorem Meters.settle (h : b.Meters rate need gs) (hready : min need rate ≤ b.tokens + need) :
    b.Meters rate 0 (gs ++ [⟨b.lastRefill, need⟩]) where
  rate_eq := h.rate_eq
  capacity_eq := h.capacity_eq
  full := h.full
  metered := by
    have hgrant := h.metered.grant hready
    rwa [add_sub_cancel_right, ← add_zero b.tokens] at hgrant

/-- The call the tokens were taken for is dropped. -/
theorem Meters.forgo (h : b.Meters rate credit gs) (hcredit : 0 ≤ credit) :
    b.Meters rate 0 gs where
  rate_eq := h.rate_eq
  capacity_eq := h.capacity_eq
  full := h.full
  metered := h.metered.lose (by linarith)

theorem Meeting.tick (h : b.Meeting rate clock gs stage) (hclock : clock ≤ later) :
    b.Meeting rate later gs stage := by
  cases stage with
  | out => exact ⟨h.1, h.2.trans hclock⟩
  | asking now => exact ⟨h.1, h.2.1, h.2.2.trans hclock⟩
  | asked need now wait => exact ⟨h.1, h.2.1, h.2.2.1.trans hclock, h.2.2.2⟩
  | charged need now => exact ⟨h.1, h.2.1, h.2.2.1.trans hclock, h.2.2.2⟩

theorem Meeting.ask (h : b.Meeting rate clock gs .out) : b.Meeting rate clock gs (.asking clock) :=
  ⟨h.1, h.2, le_rfl⟩

theorem Meeting.answer (h : b.Meeting rate clock gs (.asking now)) (hrate : 0 < rate)
    (hneed : 0 ≤ need) :
    (b.waitFor need now).2.Meeting rate clock gs (.asked need now (b.waitFor need now).1) := by
  obtain ⟨hmeters, hlast, hclock⟩ := h
  have hcap : 0 < b.rate := hmeters.rate_eq.symm ▸ hrate
  rw [waitFor_snd hcap]
  refine ⟨hmeters.refill hrate hlast, refill_lastRefill hlast, hclock, hneed, fun hwait => ?_⟩
  rw [← hmeters.capacity_eq]
  exact ready_of_waitFor hcap hwait

theorem Meeting.asked_of_imp (h : b.Meeting rate clock gs (.asked need now wait))
    (hwait : wait' ≤ 0 → wait ≤ 0) : b.Meeting rate clock gs (.asked need now wait') :=
  ⟨h.1, h.2.1, h.2.2.1, h.2.2.2.1, fun h0 => h.2.2.2.2 (hwait h0)⟩

theorem Meeting.charge (h : b.Meeting rate clock gs (.asked need now 0)) (hrate : 0 < rate) :
    (b.consume need).Meeting rate clock gs (.charged need now) := by
  obtain ⟨hmeters, hlast, hclock, hneed, hready⟩ := h
  have htokens : (b.consume need).tokens = b.tokens - need :=
    consume_tokens (hmeters.rate_eq.symm ▸ hrate)
  refine ⟨hmeters.consume hrate hneed, consume_lastRefill.trans hlast, hclock, hneed, ?_⟩
  rw [htokens, sub_add_cancel]
  exact hready le_rfl

theorem Meeting.grant (h : b.Meeting rate clock gs (.charged need now)) :
    b.Meeting rate clock (gs ++ [⟨now, need⟩]) .out := by
  obtain ⟨hmeters, hlast, hclock, -, hready⟩ := h
  refine ⟨?_, hlast.trans_le hclock⟩
  rw [← hlast]
  exact hmeters.settle hready

/-- Whatever the stage, the call may leave. -/
theorem Meeting.leave (h : b.Meeting rate clock gs stage) : b.Meeting rate clock gs .out := by
  cases stage with
  | out => exact h
  | asking now => exact ⟨h.1, h.2.1.trans h.2.2⟩
  | asked need now wait => exact ⟨h.1, h.2.1.trans_le h.2.2.1⟩
  | charged need now => exact ⟨h.1.forgo h.2.2.2.1, h.2.1.trans_le h.2.2.1⟩

theorem Meeting.each_within (h : b.Meeting rate clock gs stage) : EachWithin rate gs :=
  h.leave.1.metered.within

/-- A bucket that nobody has used yet is full whenever it is first asked. -/
theorem waitFor_new (hbps : 0 < bps) (hnow : now ≤ later) :
    (Bucket.new bps later).waitFor need later = (Bucket.new bps now).waitFor need later := by
  have hrefill : (Bucket.new bps later).refill later = (Bucket.new bps now).refill later := by
    have hfull : min ((bps : ℚ) + (later - now) * bps) bps = bps :=
      min_eq_right (le_add_of_nonneg_right
        (mul_nonneg (sub_nonneg.mpr hnow) (Nat.cast_nonneg bps)))
    rw [refill, refill, new, new]
    dsimp only
    rw [sub_self, max_self, if_neg (lt_irrefl 0), max_eq_right (sub_nonneg.mpr hnow), hfull]
    split
    · rfl
    · rw [le_antisymm hnow (by linarith)]
  have hcap (t : ℚ) : ¬ (Bucket.new bps t).rate ≤ 0 := not_le_of_gt (Nat.cast_pos.mpr hbps)
  rw [waitFor, if_neg (hcap later), waitFor, if_neg (hcap now), hrefill]

end Bucket

/-! ## What the log says was served -/

namespace Cap

/-- The bytes a second of a cap. -/
def bps (globalBps perConnBps : ℕ) : Cap → ℕ
  | .global => globalBps
  | .perConn _ => perConnBps

/-- The calls a cap is for. -/
def Concerns (cap : Cap) (call : AcquireCall) : Bool :=
  match cap with
  | .global => true
  | .perConn connKey => call.connKey == connKey

end Cap

/-- The calls of a cap that returned, and when. -/
def returns (cap : Cap) (log : List LimiterEvent) : List (Grant ℚ) :=
  log.filterMap fun
    | .returned call _ time => if cap.Concerns call then some ⟨time, call.bytes⟩ else none
    | _ => none

/-- The calls of a cap that returned with something, by the clock reading that let them. -/
def admissions (cap : Cap) (log : List LimiterEvent) : List (Grant ℚ) :=
  log.filterMap fun
    | .returned call now _ =>
        if cap.Concerns call ∧ call.bytes ≠ 0 then some ⟨now, call.bytes⟩ else none
    | _ => none

section

variable {cap : Cap} {log : List LimiterEvent} {call : AcquireCall} {now time tokens wait : ℚ}
variable {other : Cap}

theorem admissions_append (events : List LimiterEvent) :
    admissions cap (log ++ events) = admissions cap log ++ admissions cap events := by
  rw [admissions, List.filterMap_append]
  rfl

@[simp] theorem admissions_nil : admissions cap [] = [] := rfl

@[simp] theorem admissions_charged :
    admissions cap (.charged other call tokens :: log) = admissions cap log := rfl

@[simp] theorem admissions_slept :
    admissions cap (.slept call wait :: log) = admissions cap log := rfl

@[simp] theorem admissions_dropped :
    admissions cap (.dropped call :: log) = admissions cap log := rfl

theorem admissions_returned (hcap : cap.Concerns call) (hbytes : call.bytes ≠ 0) :
    admissions cap [.returned call now time] = [⟨now, call.bytes⟩] := by
  simp [admissions, hcap, hbytes]

theorem admissions_other (hcap : ¬ (cap.Concerns call ∧ call.bytes ≠ 0)) :
    admissions cap [.returned call now time] = [] := by
  rw [admissions, List.filterMap_cons_none]
  · rfl
  · exact if_neg hcap

theorem size_nonneg_of_admission {g : Grant ℚ} (h : g ∈ admissions cap log) : 0 ≤ g.size := by
  obtain ⟨event, -, hevent⟩ := List.mem_filterMap.mp h
  cases event with
  | returned call now time =>
    obtain ⟨-, hg⟩ := Option.ite_none_right_eq_some.mp hevent
    cases hg
    exact Nat.cast_nonneg _
  | charged | slept | dropped => cases hevent

end

/-! ## The two caps of the limiter -/

namespace FcfsRateLimiter

/-- The bucket of a cap. -/
def bucketOf (s : FcfsRateLimiter) (start : ℚ) : Cap → Bucket
  | .global => s.global
  | .perConn connKey => s.connBucket connKey start

end FcfsRateLimiter

/-- How far a call of `need` bytes is with a cap at an await point. -/
def AwaitPoint.stage (need : ℚ) : Cap → AwaitPoint → Bucket.Stage
  | _, .lockGlobal now => .asking now
  | .global, .lockPerConn now wait => .asked need now wait
  | .perConn _, .lockPerConn now _ => .asking now
  | _, .chargeGlobal now => .asked need now 0
  | .global, .chargePerConn now => .charged need now
  | .perConn _, .chargePerConn now => .asked need now 0
  | _, .sleep _ => .out

@[simp] theorem AwaitPoint.stage_sleep {need deadline : ℚ} {cap : Cap} :
    (AwaitPoint.sleep deadline).stage need cap = .out := by
  cases cap <;> rfl

/-- The clock that a call has read and still goes by. -/
def AwaitPoint.reading : AwaitPoint → Option ℚ
  | .lockGlobal now | .lockPerConn now _ | .chargeGlobal now | .chargePerConn now => some now
  | .sleep _ => none

namespace FcfsRateLimiter

/-- How far the call at the head of the line is with a cap. -/
def stageOf (s : FcfsRateLimiter) (cap : Cap) : Bucket.Stage :=
  match s.holder with
  | some (call, p) => if cap.Concerns call then p.stage call.bytes cap else .out
  | none => .out

/-- The cap is a meter of `rate` for what was admitted under it. -/
def Meters (rate start : ℚ) (cap : Cap) (s : FcfsRateLimiter) : Prop :=
  (s.bucketOf start cap).Meeting rate s.clock (admissions cap s.log) (s.stageOf cap)

variable {s s' : FcfsRateLimiter} {act : Act} {call : AcquireCall} {p : AwaitPoint}
variable {cap : Cap} {connKey : String} {rate start : ℚ}

theorem stageOf_holder (h : s.holder = some (call, p)) :
    s.stageOf cap = if cap.Concerns call then p.stage call.bytes cap else .out := by
  rw [stageOf, h]

theorem stageOf_free (h : s.holder = none) : s.stageOf cap = .out := by
  rw [stageOf, h]

/-- Every step keeps the meter of the global cap. -/
theorem meters_global_step (h : s.Meters rate start .global) (hrate : 0 < rate)
    (hwf : s.WellFormed) (hmoves : s.Moves act s') : s'.Meters rate start .global := by
  cases hmoves with
  | nothing connKey =>
    rw [Meters, admissions_append, admissions_other (by simp), List.append_nil]
    exact h
  | queue hbytes => exact h
  | enter hfree hfirst =>
    rw [Meters, stageOf_free hfree] at h
    exact h.ask
  | askGlobal hholder =>
    rw [Meters, stageOf_holder hholder] at h
    exact h.answer hrate (Nat.cast_nonneg _)
  | askPerConn hholder hready =>
    rw [Meters, stageOf_holder hholder] at h
    refine h.asked_of_imp fun _ => ?_
    exact (le_max_left _ _).trans_eq hready
  | sleep hholder hwait hshort =>
    rw [Meters, admissions_append, admissions_slept, admissions_nil, List.append_nil]
    exact h.leave
  | chargeGlobal hholder =>
    rw [Meters, stageOf_holder hholder] at h
    rw [Meters, admissions_append, admissions_charged, admissions_nil, List.append_nil]
    exact h.charge hrate
  | chargePerConn hholder hold =>
    rw [Meters, stageOf_holder hholder] at h
    rw [Meters, admissions_append, admissions_charged,
      admissions_returned rfl (hwf.holder _ _ hholder)]
    exact h.grant
  | chargeNone hholder hnone => exact absurd hnone (hwf.present _ _ hholder trivial)
  | wake hholder hpast =>
    rw [Meters, stageOf_holder hholder] at h
    exact h.ask
  | dropHolder hholder =>
    rw [Meters, admissions_append, admissions_dropped, admissions_nil, List.append_nil]
    exact h.leave
  | dropWaiting hother hwaits =>
    rw [Meters, admissions_append, admissions_dropped, admissions_nil, List.append_nil]
    exact h
  | tick helapsed => exact h.tick (le_add_of_nonneg_right helapsed)

theorem connBucket_of_perConn {b : Bucket} {now : ℚ} (h : s.perConn connKey = some b) :
    s.connBucket connKey now = b := by
  rw [connBucket, h]
  rfl

/-- A call finds the bucket of its connection as if it had been there from the start. -/
theorem waitFor_connBucket {need now : ℚ} (hbps : 0 < s.perConnBps)
    (hnow : (s.connBucket connKey start).lastRefill ≤ now) :
    (s.connBucket connKey now).waitFor need now
      = (s.connBucket connKey start).waitFor need now := by
  cases hperConn : s.perConn connKey with
  | some b => rw [connBucket_of_perConn hperConn, connBucket_of_perConn hperConn]
  | none =>
    rw [connBucket, hperConn] at hnow ⊢
    rw [connBucket, hperConn]
    exact Bucket.waitFor_new hbps hnow

theorem perConnBps_step (hmoves : s.Moves act s') : s'.perConnBps = s.perConnBps := by
  cases hmoves <;> rfl

/-- The connection of the call, or another one. -/
theorem concerns_perConn : (Cap.perConn connKey).Concerns call ↔ call.connKey = connKey :=
  beq_iff_eq

/-- Every step keeps the meter of every connection. -/
theorem meters_perConn_step (h : s.Meters s.perConnBps start (.perConn connKey))
    (hbps : 0 < s.perConnBps) (hwf : s.WellFormed) (hmoves : s.Moves act s') :
    s'.Meters s.perConnBps start (.perConn connKey) := by
  have hrate : (0 : ℚ) < s.perConnBps := Nat.cast_pos.mpr hbps
  cases hmoves with
  | nothing _ =>
    rw [Meters, admissions_append, admissions_other (by simp), List.append_nil]
    exact h
  | queue hbytes => exact h
  | @enter call rest hfree hfirst =>
    rw [Meters, stageOf_free hfree] at h
    rw [Meters, stageOf_holder rfl]
    split
    · exact h.ask
    · exact h
  | askGlobal hholder =>
    rw [Meters, stageOf_holder hholder] at h
    exact h
  | @askPerConn call now waitGlobal hholder hready =>
    rw [Meters, stageOf_holder hholder] at h
    rw [Meters, stageOf_holder rfl]
    by_cases hkey : call.connKey = connKey
    · rw [if_pos (concerns_perConn.mpr hkey)] at h ⊢
      subst hkey
      show Bucket.Meeting _ _ ((update s.perConn call.connKey _ call.connKey).getD _) _ _
      rw [update_self, Option.getD_some, waitFor_connBucket hbps h.2.1]
      refine (h.answer hrate (Nat.cast_nonneg _)).asked_of_imp fun _ => ?_
      show ((s.connBucket call.connKey start).waitFor call.bytes now).1 ≤ 0
      rw [← waitFor_connBucket hbps h.2.1]
      exact (le_max_right _ _).trans_eq hready
    · rw [if_neg fun hc => hkey (concerns_perConn.mp hc)] at h ⊢
      show Bucket.Meeting _ _ ((update s.perConn call.connKey _ connKey).getD _) _ _
      rw [update_of_ne (Ne.symm hkey)]
      exact h
  | @sleep call now waitGlobal wait hholder hwait hshort =>
    rw [Meters, stageOf_holder hholder] at h
    rw [Meters, admissions_append, admissions_slept, admissions_nil, List.append_nil,
      stageOf_holder rfl, AwaitPoint.stage_sleep, ite_self]
    by_cases hkey : call.connKey = connKey
    · rw [if_pos (concerns_perConn.mpr hkey)] at h
      subst hkey
      show Bucket.Meeting _ _ ((update s.perConn call.connKey _ call.connKey).getD _) _ _
      rw [update_self, Option.getD_some, waitFor_connBucket hbps h.2.1]
      exact (h.answer hrate (Nat.cast_nonneg call.bytes)).leave
    · show Bucket.Meeting _ _ ((update s.perConn call.connKey _ connKey).getD _) _ _
      rw [update_of_ne (Ne.symm hkey)]
      exact h.leave
  | chargeGlobal hholder =>
    rw [Meters, stageOf_holder hholder] at h
    rw [Meters, admissions_append, admissions_charged, admissions_nil, List.append_nil]
    exact h
  | @chargePerConn call now old hholder hold =>
    rw [Meters, stageOf_holder hholder] at h
    rw [Meters, admissions_append, admissions_charged]
    by_cases hkey : call.connKey = connKey
    · rw [if_pos (concerns_perConn.mpr hkey)] at h
      rw [admissions_returned (concerns_perConn.mpr hkey) (hwf.holder _ _ hholder)]
      subst hkey
      rw [bucketOf, connBucket_of_perConn hold] at h
      show Bucket.Meeting _ _ ((update s.perConn call.connKey _ call.connKey).getD _) _ _
      rw [update_self]
      exact (h.charge hrate).grant
    · rw [if_neg fun hc => hkey (concerns_perConn.mp hc)] at h
      rw [admissions_other fun hc => hkey (concerns_perConn.mp hc.1), List.append_nil]
      show Bucket.Meeting _ _ ((update s.perConn call.connKey _ connKey).getD _) _ _
      rw [update_of_ne (Ne.symm hkey)]
      exact h
  | chargeNone hholder hnone => exact absurd hnone (hwf.present _ _ hholder trivial)
  | wake hholder hpast =>
    rw [Meters, stageOf_holder hholder, AwaitPoint.stage_sleep, ite_self] at h
    rw [Meters, stageOf_holder rfl]
    split
    · exact h.ask
    · exact h
  | dropHolder hholder =>
    rw [Meters, admissions_append, admissions_dropped, admissions_nil, List.append_nil]
    exact h.leave
  | dropWaiting hother hwaits =>
    rw [Meters, admissions_append, admissions_dropped, admissions_nil, List.append_nil]
    exact h
  | tick helapsed => exact h.tick (le_add_of_nonneg_right helapsed)

/-! ## Over a run -/

variable {globalBps perConnBps : ℕ} {acts : List Act}

/-- Every capped bucket is a meter, and it has been in use since `start` at the earliest. -/
structure Metering (globalBps perConnBps : ℕ) (start : ℚ) (s : FcfsRateLimiter) : Prop where
  wellFormed : s.WellFormed
  perConnBps_eq : s.perConnBps = perConnBps
  meters : ∀ cap : Cap, 0 < cap.bps globalBps perConnBps →
    s.Meters (cap.bps globalBps perConnBps) start cap

theorem new_metering : (new globalBps perConnBps start).Metering globalBps perConnBps start where
  wellFormed := new_wellFormed globalBps perConnBps start
  perConnBps_eq := rfl
  meters cap _ := by
    cases cap with
    | global => exact ⟨Bucket.new_meters, le_rfl⟩
    | perConn connKey => exact ⟨Bucket.new_meters, le_rfl⟩

theorem Metering.step (h : s.Metering globalBps perConnBps start) (hmoves : s.Moves act s') :
    s'.Metering globalBps perConnBps start where
  wellFormed := h.wellFormed.step hmoves
  perConnBps_eq := (perConnBps_step hmoves).trans h.perConnBps_eq
  meters cap hcap := by
    have hmeters := h.meters cap hcap
    cases cap with
    | global => exact meters_global_step hmeters (Nat.cast_pos.mpr hcap) h.wellFormed hmoves
    | perConn connKey =>
      have hbps := h.perConnBps_eq
      subst hbps
      exact meters_perConn_step hmeters hcap h.wellFormed hmoves

theorem metering_of_run (h : run FcfsRateLimiter.step (new globalBps perConnBps start) acts = some s) :
    s.Metering globalBps perConnBps start :=
  invariant (fun _ _ _ hs hstep => hs.step (moves_of_step hstep)) new_metering h

/-- What is admitted under a cap keeps to its rate. -/
theorem Metering.withinRate (h : s.Metering globalBps perConnBps start)
    (hcap : 0 < cap.bps globalBps perConnBps) :
    WithinRate (cap.bps globalBps perConnBps : ℚ) (admissions cap s.log) :=
  (h.meters cap hcap).each_within.withinRate (Nat.cast_nonneg _)
    fun _ hg => size_nonneg_of_admission hg

/-! ## While nothing holds up the call at the head of the line -/

/-- Time passes at the head of the line in sleep only, and no longer than the sleep. -/
def Prompt (s : FcfsRateLimiter) : Act → Prop
  | .tick elapsed => ∀ call p, s.holder = some (call, p) →
      ∃ deadline, p = .sleep deadline ∧ s.clock + elapsed ≤ deadline
  | .arrive _ _ | .enter | .poll | .drop _ => True

/-- The clock that a call has read is the present one, also when it returns. -/
structure OnTime (s : FcfsRateLimiter) : Prop where
  holder : ∀ call p, s.holder = some (call, p) → ∀ now ∈ p.reading, now = s.clock
  returned : ∀ call now time, .returned call now time ∈ s.log → now = time

theorem new_onTime : (new globalBps perConnBps start).OnTime where
  holder call p h := by cases h
  returned call now time h := by cases h

theorem OnTime.step (h : s.OnTime) (hprompt : s.Prompt act) (hmoves : s.Moves act s') :
    s'.OnTime := by
  have hlog {events : List LimiterEvent} {call : AcquireCall} {now time : ℚ}
      (hmem : .returned call now time ∈ s.log ++ events)
      (hevents : .returned call now time ∈ events → now = time) : now = time :=
    (List.mem_append.mp hmem).elim (h.returned call now time) hevents
  cases hmoves with
  | nothing connKey =>
    refine ⟨h.holder, fun call now time hmem => hlog hmem fun hnew => ?_⟩
    cases List.mem_singleton.mp hnew
    rfl
  | queue hbytes => exact ⟨h.holder, h.returned⟩
  | enter hfree hfirst =>
    refine ⟨?_, h.returned⟩
    rintro _ _ ⟨⟩ now ⟨⟩
    rfl
  | askGlobal hholder =>
    refine ⟨?_, h.returned⟩
    rintro _ _ ⟨⟩ now ⟨⟩
    exact h.holder _ _ hholder _ rfl
  | askPerConn hholder hready =>
    refine ⟨?_, h.returned⟩
    rintro _ _ ⟨⟩ now ⟨⟩
    exact h.holder _ _ hholder _ rfl
  | sleep hholder hwait hshort =>
    refine ⟨?_, fun call now time hmem => hlog hmem fun hnew => ?_⟩
    · rintro _ _ ⟨⟩ now ⟨⟩
    · cases List.mem_singleton.mp hnew
  | chargeGlobal hholder =>
    refine ⟨?_, fun call now time hmem => hlog hmem fun hnew => ?_⟩
    · rintro _ _ ⟨⟩ now ⟨⟩
      exact h.holder _ _ hholder _ rfl
    · cases List.mem_singleton.mp hnew
  | chargePerConn hholder hold =>
    refine ⟨nofun, fun call now time hmem => hlog hmem fun hnew => ?_⟩
    rcases List.mem_cons.mp hnew with hcharged | hreturned
    · cases hcharged
    · cases List.mem_singleton.mp hreturned
      exact h.holder _ _ hholder _ rfl
  | chargeNone hholder hnone =>
    refine ⟨nofun, fun call now time hmem => hlog hmem fun hnew => ?_⟩
    cases List.mem_singleton.mp hnew
    exact h.holder _ _ hholder _ rfl
  | wake hholder hpast =>
    refine ⟨?_, h.returned⟩
    rintro _ _ ⟨⟩ now ⟨⟩
    rfl
  | dropHolder hholder =>
    refine ⟨nofun, fun call now time hmem => hlog hmem fun hnew => ?_⟩
    cases List.mem_singleton.mp hnew
  | dropWaiting hother hwaits =>
    refine ⟨h.holder, fun call now time hmem => hlog hmem fun hnew => ?_⟩
    cases List.mem_singleton.mp hnew
  | tick helapsed =>
    refine ⟨fun call p hholder now hnow => ?_, h.returned⟩
    obtain ⟨deadline, rfl, -⟩ := hprompt call p hholder
    cases hnow

/-- Then what was admitted is what returned with something. -/
theorem admissions_eq_returns {log : List LimiterEvent}
    (h : ∀ call now time, .returned call now time ∈ log → now = time) :
    admissions cap log = (returns cap log).filter fun g => g.size ≠ 0 := by
  induction log with
  | nil => rfl
  | cons event log ih =>
    have hrest := ih fun call now time hmem => h call now time (List.mem_cons_of_mem _ hmem)
    cases event with
    | charged | slept | dropped => exact hrest
    | returned call now time =>
      have hnow := h call now time List.mem_cons_self
      subst hnow
      rw [admissions, returns] at hrest ⊢
      by_cases hcap : cap.Concerns call
      · by_cases hbytes : call.bytes = 0
        · simp [hcap, hbytes, hrest]
        · simp [hcap, hbytes, hrest]
      · simp [hcap, hrest]

end FcfsRateLimiter

end DigDownload
