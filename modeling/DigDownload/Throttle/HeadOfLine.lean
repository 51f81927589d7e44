import DigDownload.Throttle.RateBound

/-!
# The wait at the head of the line

Nobody else charges a bucket while a call is at the head of the line, so the wait it reads off
is all it takes: when it wakes, both buckets hold what it needs or are full. It sleeps once at
most, and no longer than either cap takes to give what the call needs and what is owed.
-/

namespace DigDownload

open Function Runs Metering

/-! ## One bucket -/

namespace Bucket

/-- From `now` on the bucket lets `need` through. -/
def ReadyBy (b : Bucket) (need now : ℚ) : Prop :=
  ∀ later, now ≤ later → (b.waitFor need later).1 = 0

/-- A bucket with a cap was last refilled before `now`, and holds no more than its capacity. -/
structure Filling (b : Bucket) (now : ℚ) : Prop where
  last : 0 < b.rate → b.lastRefill ≤ now
  full : 0 < b.rate → b.tokens ≤ b.capacity

/-- What a call needs of the bucket and what is owed to it, by the rate. -/
def delayBound (b : Bucket) (need now : ℚ) : ℚ :=
  if b.rate ≤ 0 then 0
  else (min need b.capacity + max 0 (-(b.refill now).tokens)) / b.rate

variable {b : Bucket} {need now later : ℚ}

theorem ReadyBy.mono (h : b.ReadyBy need now) (hlater : now ≤ later) : b.ReadyBy need later :=
  fun t ht => h t (hlater.trans ht)

theorem waitFor_le_delayBound (hneed : 0 ≤ need) (hcap : 0 ≤ b.capacity) :
    (b.waitFor need now).1 ≤ b.delayBound need now := by
  cases le_or_gt b.rate 0 with
  | inl hnone => rw [waitFor_of_unlimited hnone, delayBound, if_pos hnone]
  | inr hcapped =>
    rw [waitFor_fst hcapped, delayBound, if_neg (not_le_of_gt hcapped)]
    have hdebt := le_max_left 0 (-(b.refill now).tokens)
    have howed := le_max_right 0 (-(b.refill now).tokens)
    have heffective : 0 ≤ min need b.capacity := le_min hneed hcap
    refine max_le (div_nonneg (by linarith) hcapped.le) ?_
    exact div_le_div_of_nonneg_right (by linarith) hcapped.le

/-- After the wait it has read off, a call finds the bucket ready. -/
theorem Filling.readyBy (h : b.Filling now) :
    (b.waitFor need now).2.ReadyBy need (now + (b.waitFor need now).1) := by
  intro later hlater
  cases le_or_gt b.rate 0 with
  | inl hnone =>
    rw [waitFor_of_unlimited hnone]
    rw [waitFor_of_unlimited hnone]
  | inr hcapped =>
    have hlast := refill_lastRefill (h.last hcapped)
    have hwait := le_max_right 0 ((min need b.capacity - (b.refill now).tokens) / b.rate)
    have hnonneg := le_max_left 0 ((min need b.capacity - (b.refill now).tokens) / b.rate)
    rw [waitFor_fst hcapped] at hlater
    rw [waitFor_snd hcapped, waitFor_fst (refill_rate.symm ▸ hcapped), refill_capacity,
      refill_rate]
    have hfull : (b.refill now).tokens ≤ (b.refill now).capacity := by
      rw [refill_capacity, refill_tokens (h.last hcapped) (h.full hcapped)]
      exact min_le_right _ _
    have hrefilled := refill_tokens (hlast.trans_le (by linarith : now ≤ later)) hfull
    rw [hlast, refill_rate, refill_capacity] at hrefilled
    have hgrown : min need b.capacity ≤ (b.refill now).tokens + (later - now) * b.rate := by
      rw [div_le_iff₀ hcapped] at hwait
      have hpassed := mul_le_mul_of_nonneg_right
        (by linarith : max 0 ((min need b.capacity - (b.refill now).tokens) / b.rate)
          ≤ later - now) hcapped.le
      linarith
    rw [max_eq_left]
    refine div_nonpos_of_nonpos_of_nonneg ?_ hcapped.le
    rw [hrefilled]
    linarith [le_min hgrown (min_le_right need b.capacity)]

theorem waitFor_rated {bps : ℕ} (h : b.rate = bps ∧ b.capacity = bps) :
    (b.waitFor need now).2.rate = bps ∧ (b.waitFor need now).2.capacity = bps := by
  cases le_or_gt b.rate 0 with
  | inl hnone =>
    rw [waitFor_of_unlimited hnone]
    exact h
  | inr hcapped =>
    rw [waitFor_snd hcapped, refill_rate, refill_capacity]
    exact h

end Bucket

/-! ## The time a call sleeps -/

/-- How long the call slept. -/
def sleptBy (call : AcquireCall) (log : List LimiterEvent) : ℚ :=
  (log.map fun
    | .slept sleeper wait => if sleeper.id = call.id then wait else 0
    | _ => 0).sum

section

variable {call : AcquireCall} {log events : List LimiterEvent} {wait : ℚ}

@[simp] theorem sleptBy_nil : sleptBy call [] = 0 := rfl

theorem sleptBy_append : sleptBy call (log ++ events) = sleptBy call log + sleptBy call events := by
  rw [sleptBy, List.map_append, List.sum_append]
  rfl

theorem sleptBy_slept : sleptBy call [.slept call wait] = wait := by
  simp [sleptBy]

theorem sleptBy_eq_zero (h : ∀ e ∈ events, e.call.id = call.id → ∀ c w, e ≠ .slept c w) :
    sleptBy call events = 0 := by
  rw [sleptBy]
  refine List.sum_eq_zero fun t ht => ?_
  obtain ⟨e, he, rfl⟩ := List.mem_map.mp ht
  cases e with
  | slept c w =>
    dsimp only
    split
    · rename_i hid
      exact absurd rfl (h _ he hid c w)
    · rfl
  | charged | returned | dropped => rfl

/-- Where nobody sleeps, the call does not. -/
theorem sleptBy_of_awake (h : ∀ c w, .slept c w ∉ events) : sleptBy call events = 0 := by
  refine sleptBy_eq_zero ?_
  rintro e he _ c w rfl
  exact h c w he

theorem sleptBy_append_of_awake (h : ∀ c w, .slept c w ∉ events) :
    sleptBy call (log ++ events) = sleptBy call log := by
  rw [sleptBy_append, sleptBy_of_awake h, add_zero]

/-- What the others do is not the call's sleep. -/
theorem sleptBy_append_of_others (h : ∀ e ∈ events, e.call.id ≠ call.id) :
    sleptBy call (log ++ events) = sleptBy call log := by
  rw [sleptBy_append, sleptBy_eq_zero fun e he hid => absurd hid (h e he), add_zero]

end

namespace FcfsRateLimiter

/-! ## What the caps say -/

variable {s s' t t' : FcfsRateLimiter} {act : Act} {call : AcquireCall} {p : AwaitPoint}
variable {globalBps perConnBps : ℕ} {start : ℚ} {acts : List Act}
variable {seen : List LimiterEvent}

/-- The buckets fill up by the caps, and a cap of zero delays nobody. -/
structure Rated (globalBps perConnBps : ℕ) (s : FcfsRateLimiter) : Prop where
  perConnBps_eq : s.perConnBps = perConnBps
  global : s.global.rate = globalBps ∧ s.global.capacity = globalBps
  perConn : ∀ connKey b, s.perConn connKey = some b →
    b.rate = perConnBps ∧ b.capacity = perConnBps
  unlimited : globalBps = 0 → ∀ call now wait,
    s.holder = some (call, .lockPerConn now wait) → wait = 0
  undelayed : globalBps = 0 → perConnBps = 0 → ∀ call wait, .slept call wait ∉ s.log

theorem new_rated : (new globalBps perConnBps start).Rated globalBps perConnBps :=
  ⟨rfl, ⟨rfl, rfl⟩, nofun, fun _ => nofun, fun _ _ _ _ => nofun⟩

theorem Rated.connBucket (h : s.Rated globalBps perConnBps) (connKey : String) (now : ℚ) :
    (s.connBucket connKey now).rate = perConnBps ∧
      (s.connBucket connKey now).capacity = perConnBps := by
  rw [FcfsRateLimiter.connBucket, h.perConnBps_eq]
  cases hperConn : s.perConn connKey with
  | none => exact ⟨rfl, rfl⟩
  | some b => exact h.perConn connKey b hperConn

theorem Rated.step (h : s.Rated globalBps perConnBps) (hmoves : s.Moves act s') :
    s'.Rated globalBps perConnBps := by
  have hperConn {connKey : String} {new : Bucket}
      (hnew : new.rate = perConnBps ∧ new.capacity = perConnBps) (key : String) (b : Bucket)
      (hb : update s.perConn connKey (some new) key = some b) :
      b.rate = perConnBps ∧ b.capacity = perConnBps := by
    by_cases hkey : key = connKey
    · subst hkey
      rw [update_self] at hb
      cases hb
      exact hnew
    · rw [update_of_ne hkey] at hb
      exact h.perConn key b hb
  have hlog {events : List LimiterEvent} (hevents : ∀ call wait, .slept call wait ∉ events)
      (hglobal : globalBps = 0) (hconn : perConnBps = 0) (call : AcquireCall) (wait : ℚ) :
      .slept call wait ∉ s.log ++ events := by
    intro hmem
    rcases List.mem_append.mp hmem with hold | hnew
    · exact h.undelayed hglobal hconn call wait hold
    · exact hevents call wait hnew
  cases hmoves with
  | nothing connKey => exact ⟨h.1, h.2, h.3, h.4, hlog (by simp)⟩
  | queue hbytes => exact ⟨h.1, h.2, h.3, h.4, h.5⟩
  | enter hfree hfirst => exact ⟨h.1, h.2, h.3, fun _ => nofun, h.5⟩
  | askGlobal hholder =>
    refine ⟨h.1, Bucket.waitFor_rated h.global, h.3, ?_, h.5⟩
    rintro hzero _ _ _ ⟨⟩
    rw [Bucket.waitFor_of_unlimited]
    rw [h.global.1, hzero]
    exact le_rfl
  | askPerConn hholder hready =>
    exact ⟨h.1, h.2, hperConn (Bucket.waitFor_rated (h.connBucket _ _)), fun _ => nofun, h.5⟩
  | @sleep call now waitGlobal wait hholder hwait hshort =>
    refine ⟨h.1, h.2, hperConn (Bucket.waitFor_rated (h.connBucket _ _)), fun _ => nofun, ?_⟩
    intro hglobal hconn
    have hzero := h.unlimited hglobal _ _ _ hholder
    rw [hzero, Bucket.waitFor_of_unlimited, max_self] at hwait
    · exact absurd hwait hshort
    · rw [(h.connBucket _ _).1, hconn]
      exact le_rfl
  | chargeGlobal hholder =>
    refine ⟨h.1, ?_, h.3, fun _ => nofun, hlog (by simp)⟩
    rw [Bucket.consume_rate, Bucket.consume_capacity]
    exact h.global
  | chargePerConn hholder hold =>
    refine ⟨h.1, h.2, hperConn ?_, fun _ => nofun, hlog (by simp)⟩
    rw [Bucket.consume_rate, Bucket.consume_capacity]
    exact h.perConn _ _ hold
  | chargeNone hholder hnone => exact ⟨h.1, h.2, h.3, fun _ => nofun, hlog (by simp)⟩
  | wake hholder hpast => exact ⟨h.1, h.2, h.3, fun _ => nofun, h.5⟩
  | dropHolder hholder => exact ⟨h.1, h.2, h.3, fun _ => nofun, hlog (by simp)⟩
  | dropWaiting hother hwaits => exact ⟨h.1, h.2, h.3, h.4, hlog (by simp)⟩
  | tick helapsed => exact ⟨h.1, h.2, h.3, h.4, h.5⟩

/-! ## The way to the return -/

/-- What a call that passes the gate in `s` needs and what is owed, by the slower cap. -/
def delayBound (s : FcfsRateLimiter) (call : AcquireCall) : ℚ :=
  max (s.global.delayBound call.bytes s.clock)
    ((s.connBucket call.connKey s.clock).delayBound call.bytes s.clock)

/-- The call returned. -/
def Returned (call : AcquireCall) (seen : List LimiterEvent) : Prop :=
  ∃ now time, .returned call now time ∈ seen

/-- Where the call is that passed the gate in `s`, what was seen since, and how many more times
it runs on before it returns. -/
inductive AtHead (s : FcfsRateLimiter) (call : AcquireCall) (t : FcfsRateLimiter)
    (seen : List LimiterEvent) : ℕ → Prop where
  | first (hholder : t.holder = some (call, .lockGlobal s.clock)) (hclock : s.clock ≤ t.clock)
      (hglobal : t.global = s.global)
      (hperConn : t.connBucket call.connKey s.clock = s.connBucket call.connKey s.clock)
      (hslept : sleptBy call seen = 0) : AtHead s call t seen 7
  | asked
      (hholder : t.holder
        = some (call, .lockPerConn s.clock (s.global.waitFor call.bytes s.clock).1))
      (hclock : s.clock ≤ t.clock)
      (hglobal : t.global = (s.global.waitFor call.bytes s.clock).2)
      (hperConn : t.connBucket call.connKey s.clock = s.connBucket call.connKey s.clock)
      (hslept : sleptBy call seen = 0) : AtHead s call t seen 6
  | asleep {deadline : ℚ} {b : Bucket} (hholder : t.holder = some (call, .sleep deadline))
      (hglobal : t.global.ReadyBy call.bytes deadline)
      (hperConn : t.perConn call.connKey = some b) (hready : b.ReadyBy call.bytes deadline)
      (hslept : sleptBy call seen ≤ s.delayBound call) : AtHead s call t seen 5
  | awake {now : ℚ} {b : Bucket} (hholder : t.holder = some (call, .lockGlobal now))
      (hglobal : t.global.ReadyBy call.bytes now)
      (hperConn : t.perConn call.connKey = some b) (hready : b.ReadyBy call.bytes now)
      (hslept : sleptBy call seen ≤ s.delayBound call) : AtHead s call t seen 4
  | askedAgain {now : ℚ} {b : Bucket} (hholder : t.holder = some (call, .lockPerConn now 0))
      (hperConn : t.perConn call.connKey = some b) (hready : b.ReadyBy call.bytes now)
      (hslept : sleptBy call seen ≤ s.delayBound call) : AtHead s call t seen 3
  | ready {now : ℚ} (hholder : t.holder = some (call, .chargeGlobal now))
      (hslept : sleptBy call seen ≤ s.delayBound call) : AtHead s call t seen 2
  | charged {now : ℚ} (hholder : t.holder = some (call, .chargePerConn now))
      (hslept : sleptBy call seen ≤ s.delayBound call) : AtHead s call t seen 1
  | returned (hgone : t.Gone call.id) (hreturned : Returned call seen)
      (hslept : sleptBy call seen ≤ s.delayBound call) : AtHead s call t seen 0

variable {n : ℕ}

theorem AtHead.holder (h : AtHead s call t seen n) (hn : n ≠ 0) :
    ∃ p, t.holder = some (call, p) := by
  cases h with
  | first hholder | asked hholder | asleep hholder | awake hholder | askedAgain hholder
  | ready hholder | charged hholder => exact ⟨_, hholder⟩
  | returned => exact absurd rfl hn

/-- What leaves the call and the buckets as they are keeps the call where it is. -/
theorem AtHead.stay (h : AtHead s call t seen n) (hholder : t'.holder = t.holder)
    (hglobal : t'.global = t.global) (hperConn : t'.perConn = t.perConn)
    (hbps : t'.perConnBps = t.perConnBps) (hclock : t.clock ≤ t'.clock)
    (hgone : n = 0 → t'.Gone call.id) {events : List LimiterEvent}
    (hevents : sleptBy call events = 0) : AtHead s call t' (seen ++ events) n := by
  have hconn : t'.connBucket = t.connBucket := by
    funext connKey now
    rw [connBucket, hperConn, hbps]
    rfl
  have hsame : sleptBy call (seen ++ events) = sleptBy call seen := by
    rw [sleptBy_append, hevents, add_zero]
  cases h with
  | first h1 h2 h3 h4 h5 =>
    exact .first (hholder.trans h1) (h2.trans hclock) (hglobal.trans h3) (hconn ▸ h4)
      (hsame.trans h5)
  | asked h1 h2 h3 h4 h5 =>
    exact .asked (hholder.trans h1) (h2.trans hclock) (hglobal.trans h3) (hconn ▸ h4)
      (hsame.trans h5)
  | asleep h1 h2 h3 h4 h5 =>
    exact .asleep (hholder.trans h1) (hglobal ▸ h2) (hperConn ▸ h3) h4 (hsame.trans_le h5)
  | awake h1 h2 h3 h4 h5 =>
    exact .awake (hholder.trans h1) (hglobal ▸ h2) (hperConn ▸ h3) h4 (hsame.trans_le h5)
  | askedAgain h1 h2 h3 h4 =>
    exact .askedAgain (hholder.trans h1) (hperConn ▸ h2) h3 (hsame.trans_le h4)
  | ready h1 h2 => exact .ready (hholder.trans h1) (hsame.trans_le h2)
  | charged h1 h2 => exact .charged (hholder.trans h1) (hsame.trans_le h2)
  | returned h1 h2 h3 =>
    obtain ⟨now, time, hreturned⟩ := h2
    exact .returned (hgone rfl) ⟨now, time, List.mem_append_left _ hreturned⟩
      (hsame.trans_le h3)

/-- Where a call passes the gate the buckets have not been refilled since. -/
structure Poised (s : FcfsRateLimiter) (call : AcquireCall) : Prop where
  global : s.global.Filling s.clock ∧ 0 ≤ s.global.capacity
  perConn : (s.connBucket call.connKey s.clock).Filling s.clock ∧
    0 ≤ (s.connBucket call.connKey s.clock).capacity

theorem Poised.delayBound_nonneg (h : s.Poised call) : 0 ≤ s.delayBound call :=
  Bucket.waitFor_nonneg.trans
    ((Bucket.waitFor_le_delayBound (Nat.cast_nonneg _) h.global.2).trans (le_max_left _ _))

/-- The call runs on from one await point to the next, and gets nearer to its return. -/
theorem AtHead.poll (h : AtHead s call t seen n) (hn : n ≠ 0) (hs : s.Poised call)
    (hnumbered : t.Numbered) (hstep : FcfsRateLimiter.step t .poll = some t') :
    ∃ events m, t'.log = t.log ++ events ∧ m < n ∧ AtHead s call t' (seen ++ events) m := by
  obtain ⟨p, hholder⟩ := h.holder hn
  have hpoll : ∀ {p}, t.holder = some (call, p) → t.resume call p = some t' := by
    intro p hp
    rw [FcfsRateLimiter.step, hp] at hstep
    exact hstep
  cases h with
  | first hholder hclock hglobal hperConn hslept =>
    have hresume := hpoll hholder
    rw [resume] at hresume
    dsimp only at hresume
    rw [hglobal, Option.some.injEq] at hresume
    subst hresume
    refine ⟨[], 6, (List.append_nil _).symm, by decide, .asked rfl hclock rfl hperConn ?_⟩
    rw [List.append_nil]
    exact hslept
  | asked hholder hclock hglobal hperConn hslept =>
    have hresume := hpoll hholder
    rw [resume] at hresume
    dsimp only at hresume
    rw [hperConn] at hresume
    split at hresume
    · cases hresume
      refine ⟨[], 2, (List.append_nil _).symm, by decide, .ready rfl ?_⟩
      rw [List.append_nil, hslept]
      exact hs.delayBound_nonneg
    · -- the wait covers what either bucket lacks
      cases hresume
      refine ⟨_, 5, rfl, by decide, .asleep rfl ?_ (update_self ..) ?_ ?_⟩
      · show t.global.ReadyBy _ _
        rw [hglobal]
        exact hs.global.1.readyBy.mono (add_le_add hclock (le_max_left _ _))
      · exact hs.perConn.1.readyBy.mono (add_le_add hclock (le_max_right _ _))
      · rw [sleptBy_append, hslept, zero_add, sleptBy_slept]
        exact max_le_max
          (Bucket.waitFor_le_delayBound (Nat.cast_nonneg _) hs.global.2)
          (Bucket.waitFor_le_delayBound (Nat.cast_nonneg _) hs.perConn.2)
  | asleep hholder hglobal hperConn hready hslept =>
    have hresume := hpoll hholder
    rw [resume, Option.ite_none_right_eq_some] at hresume
    obtain ⟨hpast, hresume⟩ := hresume
    cases hresume
    refine ⟨[], 4, (List.append_nil _).symm, by decide,
      .awake rfl (hglobal.mono hpast) hperConn (hready.mono hpast) ?_⟩
    rw [List.append_nil]
    exact hslept
  | @awake now b hholder hglobal hperConn hready hslept =>
    have hresume := hpoll hholder
    rw [resume] at hresume
    dsimp only at hresume
    rw [hglobal now le_rfl, Option.some.injEq] at hresume
    subst hresume
    refine ⟨[], 3, (List.append_nil _).symm, by decide, .askedAgain rfl hperConn hready ?_⟩
    rw [List.append_nil]
    exact hslept
  | @askedAgain now b hholder hperConn hready hslept =>
    have hresume := hpoll hholder
    rw [resume] at hresume
    dsimp only at hresume
    rw [connBucket_of_perConn hperConn, hready now le_rfl, max_self, if_pos rfl] at hresume
    cases hresume
    refine ⟨[], 2, (List.append_nil _).symm, by decide, .ready rfl ?_⟩
    rw [List.append_nil]
    exact hslept
  | ready hholder hslept =>
    cases hpoll hholder
    refine ⟨_, 1, rfl, by decide, .charged rfl ?_⟩
    rw [sleptBy_append_of_awake (by simp)]
    exact hslept
  | charged hholder hslept =>
    have hresume := hpoll hholder
    rw [resume] at hresume
    split at hresume
    · cases hresume
      refine ⟨_, 0, rfl, by decide, .returned ?_ ⟨_, _, List.mem_append_right _
        (List.mem_cons_of_mem _ List.mem_cons_self)⟩ ?_⟩
      · exact hnumbered.gone hholder (calls_free rfl) rfl
      · rw [sleptBy_append_of_awake (by simp)]
        exact hslept
    · cases hresume
      refine ⟨_, 0, rfl, by decide, .returned ?_ ⟨_, _, List.mem_append_right _
        List.mem_cons_self⟩ ?_⟩
      · exact hnumbered.gone hholder (calls_free rfl) rfl
      · rw [sleptBy_append_of_awake (by simp)]
        exact hslept
  | returned => exact absurd rfl hn

/-- Any other step leaves it where it is. -/
theorem AtHead.step (h : AtHead s call t seen n) (hs : s.Poised call) (hnumbered : t.Numbered)
    (hdrop : act ≠ .drop call.id) (hstep : FcfsRateLimiter.step t act = some t') :
    ∃ events m, t'.log = t.log ++ events ∧ AtHead s call t' (seen ++ events) m ∧
      m ≤ n ∧ (act = .poll → m < n ∨ m = 0) := by
  have hmoves := moves_of_step hstep
  by_cases hn : n = 0
  · subst hn
    cases h with
    | returned hgone hreturned hslept =>
      obtain ⟨events, hlog, hother⟩ := hgone.not_seen hmoves
      obtain ⟨now, time, hreturned⟩ := hreturned
      refine ⟨events, 0, hlog, .returned (hgone.step hmoves) ?_ ?_, le_rfl, fun _ => Or.inr rfl⟩
      · exact ⟨now, time, List.mem_append_left _ hreturned⟩
      · rw [sleptBy_append_of_others hother]
        exact hslept
  · obtain ⟨p, hholder⟩ := h.holder hn
    have hstay (hact : act ≠ .poll) (hholder : t'.holder = t.holder)
        (hglobal : t'.global = t.global) (hperConn : t'.perConn = t.perConn)
        (hbps : t'.perConnBps = t.perConnBps) (hclock : t.clock ≤ t'.clock)
        (events : List LimiterEvent) (hlog : t'.log = t.log ++ events)
        (hevents : ∀ c w, .slept c w ∉ events) :
        ∃ events m, t'.log = t.log ++ events ∧ AtHead s call t' (seen ++ events) m ∧
          m ≤ n ∧ (act = .poll → m < n ∨ m = 0) := by
      refine ⟨events, n, hlog, h.stay hholder hglobal hperConn hbps hclock
        (fun h0 => absurd h0 hn) (sleptBy_of_awake hevents), le_rfl, fun hpoll => absurd hpoll hact⟩
    cases act with
    | poll =>
      obtain ⟨events, m, hlog, hm, hhead⟩ := h.poll hn hs hnumbered hstep
      exact ⟨events, m, hlog, hhead, hm.le, fun _ => Or.inl hm⟩
    | arrive connKey bytes =>
      cases hmoves with
      | nothing => exact hstay nofun rfl rfl rfl rfl le_rfl _ rfl (by simp)
      | queue => exact hstay nofun rfl rfl rfl rfl le_rfl [] (List.append_nil _).symm nofun
    | enter =>
      cases hmoves with
      | enter hfree =>
        rw [hfree] at hholder
        cases hholder
    | drop id =>
      cases hmoves with
      | dropHolder hother =>
        rw [hholder] at hother
        cases hother
        exact absurd rfl hdrop
      | dropWaiting => exact hstay nofun rfl rfl rfl rfl le_rfl _ rfl (by simp)
    | tick elapsed =>
      cases hmoves with
      | tick helapsed =>
        exact hstay nofun rfl rfl rfl rfl (le_add_of_nonneg_right helapsed) []
          (List.append_nil _).symm nofun

/-- Each time the call runs on over a run, it is one step nearer to its return. -/
theorem AtHead.run (h : AtHead s call t seen n) (hs : s.Poised call) (hnumbered : t.Numbered)
    (hdrop : .drop call.id ∉ acts) (hrun : Runs.run FcfsRateLimiter.step t acts = some t') :
    ∃ events m, t'.log = t.log ++ events ∧ AtHead s call t' (seen ++ events) m ∧ t'.Numbered ∧
      (m + acts.count .poll ≤ n ∨ m = 0) := by
  induction acts generalizing t seen n with
  | nil =>
    cases hrun
    exact ⟨[], n, (List.append_nil _).symm, by rwa [List.append_nil], hnumbered, Or.inl le_rfl⟩
  | cons act acts ih =>
    obtain ⟨u, hstep, hrest⟩ := run_cons_eq_some.mp hrun
    rw [List.mem_cons, not_or] at hdrop
    obtain ⟨events, k, hlog, hhead, hle, hpoll⟩ := h.step hs hnumbered (Ne.symm hdrop.1) hstep
    obtain ⟨later, m, hlater, hend, hnumbered', hcount⟩ :=
      ih hhead (hnumbered.step (moves_of_step hstep)) hdrop.2 hrest
    refine ⟨events ++ later, m, by rw [hlater, hlog, List.append_assoc], ?_, hnumbered', ?_⟩
    · rw [← List.append_assoc]
      exact hend
    · rw [List.count_cons]
      cases hcount with
      | inr hdone => exact Or.inr hdone
      | inl hcount =>
        by_cases hact : act = .poll
        · have := hpoll hact
          simp only [hact, BEq.rfl, if_true]
          omega
        · simp only [beq_iff_eq, hact, if_false]
          omega

/-! ## On time -/

/-- While nothing holds it up, the call is late by no more than it has slept. -/
structure InTime (s : FcfsRateLimiter) (call : AcquireCall) (t : FcfsRateLimiter)
    (seen : List LimiterEvent) : Prop where
  reading : ∀ p, t.holder = some (call, p) → ∀ now ∈ p.reading,
    t.clock ≤ s.clock + sleptBy call seen
  asleep : ∀ deadline, t.holder = some (call, .sleep deadline) →
    t.clock ≤ deadline ∧ deadline ≤ s.clock + sleptBy call seen
  returned : ∀ now time, .returned call now time ∈ seen → time ≤ s.clock + sleptBy call seen

section InTime

variable {events : List LimiterEvent}

/-- What the call has returned so far was in time, and stays so when it has slept longer. -/
theorem InTime.returned_more (h : InTime s call t seen)
    (hgrown : sleptBy call seen ≤ sleptBy call (seen ++ events))
    (hnew : ∀ now time, .returned call now time ∈ events →
      time ≤ s.clock + sleptBy call (seen ++ events)) (now time : ℚ)
    (hmem : .returned call now time ∈ seen ++ events) :
    time ≤ s.clock + sleptBy call (seen ++ events) := by
  rcases List.mem_append.mp hmem with hold | hlast
  · exact (h.returned now time hold).trans (by linarith)
  · exact hnew now time hlast

/-- The call is over, and what it has returned is in time. -/
theorem InTime.letGo (h : InTime s call t seen) (hleft : ∀ p, t'.holder ≠ some (call, p))
    (hsame : sleptBy call (seen ++ events) = sleptBy call seen)
    (hnew : ∀ now time, .returned call now time ∈ events → time ≤ s.clock + sleptBy call seen) :
    InTime s call t' (seen ++ events) := by
  refine ⟨fun p hp => absurd hp (hleft p), fun d hp => absurd hp (hleft _),
    h.returned_more hsame.ge fun now time hmem => ?_⟩
  rw [hsame]
  exact hnew now time hmem

/-- The call stays where it is while another arrives or gives up. -/
theorem InTime.stay (h : InTime s call t seen) (hholder : t'.holder = t.holder)
    (hclock : t'.clock = t.clock) (hsame : sleptBy call (seen ++ events) = sleptBy call seen)
    (hnew : ∀ now time, .returned call now time ∉ events) : InTime s call t' (seen ++ events) := by
  refine ⟨?_, ?_, h.returned_more hsame.ge fun now time hmem => absurd hmem (hnew now time)⟩
  · rw [hholder, hclock, hsame]
    exact h.reading
  · rw [hholder, hclock, hsame]
    exact h.asleep

/-- The call goes on at once, with a reading of the clock that was in time. -/
theorem InTime.goOn (h : InTime s call t seen) (hholder : t'.holder = some (call, p))
    (hclock : t'.clock = t.clock) (hawake : ∀ deadline, p ≠ .sleep deadline)
    (hreading : ∀ now ∈ p.reading, t.clock ≤ s.clock + sleptBy call seen)
    (hsame : sleptBy call (seen ++ events) = sleptBy call seen)
    (hnew : ∀ now time, .returned call now time ∉ events) : InTime s call t' (seen ++ events) := by
  refine ⟨fun q hq now hnow => ?_, fun deadline hq => ?_,
    h.returned_more hsame.ge fun now time hmem => absurd hmem (hnew now time)⟩
  · cases hholder.symm.trans hq
    rw [hclock, hsame]
    exact hreading now hnow
  · cases hholder.symm.trans hq
    exact absurd rfl (hawake deadline)

/-- The call goes to sleep for as long as it has to wait. -/
theorem InTime.sleep {wait : ℚ} (h : InTime s call t seen) (hwait : 0 ≤ wait)
    (hreading : t.clock ≤ s.clock + sleptBy call seen)
    (hholder : t'.holder = some (call, .sleep (t.clock + wait))) (hclock : t'.clock = t.clock) :
    InTime s call t' (seen ++ [.slept call wait]) := by
  have hslept : sleptBy call (seen ++ [.slept call wait]) = sleptBy call seen + wait := by
    rw [sleptBy_append, sleptBy_slept]
  refine ⟨fun q hq now hnow => ?_, fun deadline hq => ?_,
    h.returned_more (by linarith) (by simp)⟩
  · cases hholder.symm.trans hq
    cases hnow
  · cases hholder.symm.trans hq
    rw [hslept, hclock]
    constructor
    · exact le_add_of_nonneg_right hwait
    · linarith

/-- While the call is at the head of the line, no move makes it late. -/
theorem InTime.step_holder (h : InTime s call t seen) (hholder : t.holder = some (call, p))
    (hnumbered : t.Numbered) (hdrop : act ≠ .drop call.id) (hprompt : t.Prompt act)
    (hmoves : t.Moves act t') (hlog : t'.log = t.log ++ events) :
    InTime s call t' (seen ++ events) := by
  have hevents {new : List LimiterEvent} (hnew : t'.log = t.log ++ new) : new = events :=
    List.append_cancel_left (hnew.symm.trans hlog)
  cases hmoves with
  | nothing connKey =>
    cases hevents rfl
    have harrived := hnumbered.arrived call (mem_calls_of_holder hholder)
    refine h.stay rfl rfl (sleptBy_append_of_awake (by simp)) ?_
    -- the call that arrives is another one
    intro now time hnew
    cases List.mem_singleton.mp hnew
    exact absurd harrived (lt_irrefl _)
  | queue hbytes =>
    cases hevents (List.append_nil _).symm
    exact h.stay rfl rfl (sleptBy_append_of_awake nofun) nofun
  | enter hfree hfirst =>
    rw [hfree] at hholder
    cases hholder
  | askGlobal hask | askPerConn hask =>
    cases hevents (List.append_nil _).symm
    cases hholder.symm.trans hask
    refine h.goOn rfl rfl nofun ?_ (sleptBy_append_of_awake nofun) nofun
    rintro now ⟨⟩
    exact h.reading _ hask _ rfl
  | @sleep _ now waitGlobal wait hask hwait hshort =>
    cases hevents rfl
    cases hholder.symm.trans hask
    have hnonneg : 0 ≤ wait := hwait ▸ Bucket.waitFor_nonneg.trans (le_max_right _ _)
    exact h.sleep hnonneg (h.reading _ hask _ rfl) rfl rfl
  | chargeGlobal hcharge =>
    cases hevents rfl
    cases hholder.symm.trans hcharge
    refine h.goOn rfl rfl nofun ?_ (sleptBy_append_of_awake (by simp)) (by simp)
    rintro now ⟨⟩
    exact h.reading _ hcharge _ rfl
  | @chargePerConn _ admitted old hcharge hold =>
    cases hevents rfl
    cases hholder.symm.trans hcharge
    refine h.letGo nofun (sleptBy_append_of_awake (by simp)) fun now time hnew => ?_
    rcases List.mem_cons.mp hnew with hcharged | hreturned
    · cases hcharged
    · cases List.mem_singleton.mp hreturned
      exact h.reading _ hcharge _ rfl
  | @chargeNone _ admitted hcharge hnone =>
    cases hevents rfl
    cases hholder.symm.trans hcharge
    refine h.letGo nofun (sleptBy_append_of_awake (by simp)) fun now time hnew => ?_
    cases List.mem_singleton.mp hnew
    exact h.reading _ hcharge _ rfl
  | wake hasleep hpast =>
    cases hevents (List.append_nil _).symm
    cases hholder.symm.trans hasleep
    obtain ⟨hclock, hdeadline⟩ := h.asleep _ hasleep
    refine h.goOn rfl rfl nofun ?_ (sleptBy_append_of_awake nofun) nofun
    rintro now ⟨⟩
    exact hclock.trans hdeadline
  | dropHolder hask =>
    cases hholder.symm.trans hask
    exact absurd rfl hdrop
  | @dropWaiting other hother hwaits =>
    cases hevents rfl
    exact h.stay rfl rfl (sleptBy_append_of_awake (by simp)) (by simp)
  | tick helapsed =>
    cases hevents (List.append_nil _).symm
    rw [List.append_nil]
    obtain ⟨deadline, rfl, hwake⟩ := hprompt _ _ hholder
    refine ⟨fun p hp now hnow => ?_, fun d hp => ?_, h.returned⟩
    · cases hholder.symm.trans hp
      cases hnow
    · cases hholder.symm.trans hp
      exact ⟨hwake, (h.asleep _ hholder).2⟩

theorem InTime.step (h : InTime s call t seen) (hhead : AtHead s call t seen n)
    (hnumbered : t.Numbered) (hdrop : act ≠ .drop call.id) (hprompt : t.Prompt act)
    (hmoves : t.Moves act t') (hlog : t'.log = t.log ++ events) :
    InTime s call t' (seen ++ events) := by
  by_cases hn : n = 0
  · subst hn
    cases hhead with
    | returned hgone hreturned hslept =>
      obtain ⟨events', hlog', hother⟩ := hgone.not_seen hmoves
      have hsame : events' = events := List.append_cancel_left (hlog'.symm.trans hlog)
      subst hsame
      have hleft : ∀ p, t'.holder ≠ some (call, p) := fun p hp =>
        (hgone.step hmoves).left call (mem_calls_of_holder hp) rfl
      exact h.letGo hleft (sleptBy_append_of_others hother) fun now time hnew =>
        absurd rfl (hother _ hnew)
  · obtain ⟨p, hholder⟩ := hhead.holder hn
    exact h.step_holder hholder hnumbered hdrop hprompt hmoves hlog

end InTime

/-- On time over a run. -/
theorem InTime.run (h : InTime s call t seen) (hhead : AtHead s call t seen n)
    (hs : s.Poised call) (hnumbered : t.Numbered) (hdrop : .drop call.id ∉ acts)
    (hprompt : Along FcfsRateLimiter.step Prompt t acts)
    (hrun : Runs.run FcfsRateLimiter.step t acts = some t') {events : List LimiterEvent}
    (hlog : t'.log = t.log ++ events) : InTime s call t' (seen ++ events) := by
  induction acts generalizing t seen n events with
  | nil =>
    cases hrun
    rw [List.self_eq_append_right.mp hlog, List.append_nil]
    exact h
  | cons act acts ih =>
    obtain ⟨u, hstep, hrest⟩ := run_cons_eq_some.mp hrun
    rw [List.mem_cons, not_or] at hdrop
    have hmoves := moves_of_step hstep
    obtain ⟨first, k, hfirst, hnext, -, -⟩ := hhead.step hs hnumbered (Ne.symm hdrop.1) hstep
    obtain ⟨later, m, hlater, -, -, -⟩ :=
      hnext.run hs (hnumbered.step hmoves) hdrop.2 hrest
    have hevents : first ++ later = events := by
      rw [hlater, hfirst, List.append_assoc] at hlog
      exact List.append_cancel_left hlog
    rw [← hevents, ← List.append_assoc]
    exact ih (h.step hhead hnumbered (Ne.symm hdrop.1) hprompt.1 hmoves hfirst) hnext
      (hnumbered.step hmoves) hdrop.2 (hprompt.2 u hstep) hrest hlater

/-! ## The call returns -/

/-- The call can always run on, once its sleep is over. -/
theorem AtHead.exists_poll (h : AtHead s call t seen n) (hn : n ≠ 0) :
    ∃ acts t', Along FcfsRateLimiter.step Prompt t acts ∧ .drop call.id ∉ acts ∧
      acts.count .poll = 1 ∧ Runs.run FcfsRateLimiter.step t acts = some t' := by
  have hnow {p : AwaitPoint} (hholder : t.holder = some (call, p))
      (hresume : (t.resume call p).isSome) :
      ∃ acts t', Along FcfsRateLimiter.step Prompt t acts ∧ .drop call.id ∉ acts ∧
        acts.count .poll = 1 ∧ Runs.run FcfsRateLimiter.step t acts = some t' := by
    obtain ⟨t', ht'⟩ := Option.isSome_iff_exists.mp hresume
    refine ⟨[.poll], t', ⟨trivial, fun _ _ => trivial⟩, by simp, by simp, ?_⟩
    rw [Runs.run, FcfsRateLimiter.step, hholder]
    show (t.resume call p).bind _ = _
    rw [ht']
    rfl
  obtain ⟨p, hholder⟩ := h.holder hn
  cases p with
  | lockGlobal now => exact hnow hholder rfl
  | lockPerConn now wait =>
    refine hnow hholder ?_
    rw [resume]
    dsimp only
    split <;> rfl
  | chargeGlobal now => exact hnow hholder rfl
  | chargePerConn now =>
    refine hnow hholder ?_
    rw [resume]
    split <;> rfl
  | sleep deadline =>
    cases le_or_gt deadline t.clock with
    | inl hpast =>
      refine hnow hholder ?_
      rw [resume, if_pos hpast]
      rfl
    | inr hearly =>
      have htick : FcfsRateLimiter.step t (.tick (deadline - t.clock))
          = some { t with clock := deadline } := by
        rw [FcfsRateLimiter.step, if_pos (by linarith), add_sub_cancel]
      refine ⟨[.tick (deadline - t.clock), .poll], { t with
        clock := deadline, holder := some (call, .lockGlobal deadline) }, ⟨?_, ?_⟩, by simp,
        rfl, ?_⟩
      · intro c p hp
        cases hholder.symm.trans hp
        exact ⟨deadline, rfl, by linarith⟩
      · exact fun _ _ => ⟨trivial, fun _ _ => trivial⟩
      · rw [run_cons htick, Runs.run, FcfsRateLimiter.step]
        dsimp only
        rw [hholder]
        show ((FcfsRateLimiter.resume { t with clock := deadline } call (.sleep deadline)).bind _)
          = _
        rw [resume, if_pos le_rfl]
        rfl

/-- Wherever the call is, it can be made to return without delay. -/
theorem AtHead.completes (h : AtHead s call t seen n) (hs : s.Poised call)
    (hnumbered : t.Numbered) :
    ∃ acts t' events, Along FcfsRateLimiter.step Prompt t acts ∧
      Runs.run FcfsRateLimiter.step t acts = some t' ∧ t'.log = t.log ++ events ∧
      Returned call (seen ++ events) := by
  induction n using Nat.strong_induction_on generalizing t seen with
  | _ n ih =>
    by_cases hn : n = 0
    · subst hn
      cases h with
      | returned hgone hreturned hslept =>
        refine ⟨[], t, [], trivial, rfl, (List.append_nil _).symm, ?_⟩
        rw [List.append_nil]
        exact hreturned
    · obtain ⟨acts, u, halong, hdrop, hpolls, hrun⟩ := h.exists_poll hn
      obtain ⟨events, m, hlog, hnext, hnumbered', hcount⟩ := h.run hs hnumbered hdrop hrun
      obtain ⟨more, t', later, halong', hrun', hlog', hreturned⟩ :=
        ih m (by omega) hnext hnumbered'
      refine ⟨acts ++ more, t', events ++ later, ?_, ?_, ?_, ?_⟩
      · refine along_append.mpr ⟨halong, fun v hv => ?_⟩
        rw [hrun, Option.some.injEq] at hv
        exact hv ▸ halong'
      · exact run_append_eq_some.mpr ⟨u, hrun, hrun'⟩
      · rw [hlog', hlog, List.append_assoc]
      · rw [← List.append_assoc]
        exact hreturned

/-! ## Every run -/

/-- The call that passes the gate next sleeps no longer than it takes to give it what it needs
and what is owed, and returns once it has run on seven times. Where nothing holds it up it
returns within that time. -/
def ServesNext (s : FcfsRateLimiter) (call : AcquireCall) : Prop :=
  ∀ acts t, Runs.run step s (.enter :: acts) = some t → .drop call.id ∉ acts →
    ∃ seen, t.log = s.log ++ seen ∧
      sleptBy call seen ≤ s.delayBound call ∧
      (7 ≤ acts.count .poll → Returned call seen) ∧
      (Along step Prompt s (.enter :: acts) → ∀ now time, .returned call now time ∈ seen →
        time ≤ s.clock + s.delayBound call) ∧
      ∃ more u later, Along step Prompt t more ∧ Runs.run step t more = some u ∧
        u.log = t.log ++ later ∧ Returned call (seen ++ later)

theorem Bucket.Meeting.filling {rate clock : ℚ} {b : Bucket} {gs : List (Grant ℚ)}
    {stage : Bucket.Stage} (h : b.Meeting rate clock gs stage) : b.Filling clock where
  last _ := h.leave.2
  full _ := h.leave.1.capacity_eq.symm ▸ h.leave.1.full

/-- Whatever has happened, the next call finds the buckets as they should be. -/
theorem Metering.poised (h : s.Metering globalBps perConnBps start)
    (hrated : s.Rated globalBps perConnBps) (call : AcquireCall) : s.Poised call := by
  have hunlimited {b : Bucket} {bps : ℕ} (hrate : b.rate = bps) (hzero : ¬ 0 < bps) :
      b.Filling s.clock := by
    have hnone : ¬ 0 < b.rate := by
      rw [hrate, Nat.cast_pos]
      exact hzero
    exact ⟨fun hcap => absurd hcap hnone, fun hcap => absurd hcap hnone⟩
  obtain ⟨hglobal, hglobalCap⟩ := hrated.global
  obtain ⟨hperConn, hperConnCap⟩ := hrated.connBucket call.connKey s.clock
  refine ⟨⟨?_, hglobalCap.symm ▸ Nat.cast_nonneg _⟩, ?_, hperConnCap.symm ▸ Nat.cast_nonneg _⟩
  · by_cases hcap : 0 < globalBps
    · exact Bucket.Meeting.filling (h.meters .global hcap)
    · exact hunlimited hglobal hcap
  · by_cases hcap : 0 < perConnBps
    · have hmeters := h.meters (.perConn call.connKey) hcap
      cases hb : s.perConn call.connKey with
      | none =>
        rw [connBucket, hb]
        exact ⟨fun _ => le_rfl, fun _ => le_rfl⟩
      | some b =>
        rw [Meters, bucketOf, connBucket_of_perConn hb] at hmeters
        rw [connBucket_of_perConn hb]
        exact Bucket.Meeting.filling hmeters
    · exact hunlimited hperConn hcap

theorem Metering.servesNext (h : s.Metering globalBps perConnBps start)
    (hrated : s.Rated globalBps perConnBps) (hnumbered : s.Numbered) (hfree : s.holder = none)
    {rest : List AcquireCall} (hfirst : s.waiting = call :: rest) : s.ServesNext call := by
  intro acts t hrun hdrop
  obtain ⟨s', henter, hrest⟩ := run_cons_eq_some.mp hrun
  have hs := h.poised hrated call
  have hmoves := moves_of_step henter
  have hstart : AtHead s call s' [] 7 ∧ InTime s call s' [] ∧ s'.log = s.log := by
    rw [FcfsRateLimiter.step, hfree, hfirst, Option.some.injEq] at henter
    subst henter
    refine ⟨.first rfl le_rfl rfl rfl rfl, ⟨fun p _ now _ => ?_, by rintro _ ⟨⟩,
      fun _ _ hmem => absurd hmem List.not_mem_nil⟩, rfl⟩
    rw [sleptBy_nil, add_zero]
  obtain ⟨hhead, htime, hlog⟩ := hstart
  obtain ⟨seen, m, hseen, hend, hnumbered', hcount⟩ :=
    hhead.run hs (hnumbered.step hmoves) hdrop hrest
  rw [List.nil_append] at hend
  have hslept : sleptBy call seen ≤ s.delayBound call := by
    cases hend with
    | first _ _ _ _ hslept | asked _ _ _ _ hslept => exact hslept.trans_le hs.delayBound_nonneg
    | asleep _ _ _ _ hslept | awake _ _ _ _ hslept | askedAgain _ _ _ hslept
    | ready _ hslept | charged _ hslept | returned _ _ hslept => exact hslept
  refine ⟨seen, hlog ▸ hseen, hslept, fun hpolls => ?_, fun hprompt now time hmem => ?_,
    hend.completes hs hnumbered'⟩
  · have hm : m = 0 := by omega
    subst hm
    cases hend with
    | returned _ hreturned => exact hreturned
  · have hlate := htime.run hhead hs (hnumbered.step hmoves) hdrop (hprompt.2 s' henter) hrest
      hseen
    rw [List.nil_append] at hlate
    exact (hlate.returned now time hmem).trans (by linarith)

/-- What the limiter promises over a run with its two caps: what is admitted in a window of time
keeps to the rate, and where nothing holds up the head of the line so does what returns in it; a
cap of zero delays nobody; and the next call returns in time. -/
theorem keeps_rate (globalBps perConnBps : ℕ) (start : ℚ) (acts : List Act) (s : FcfsRateLimiter)
    (h : Runs.run step (new globalBps perConnBps start) acts = some s) :
    (∀ cap : Cap, 0 < cap.bps globalBps perConnBps →
      WithinRate (cap.bps globalBps perConnBps : ℚ) (admissions cap s.log) ∧
      (Along step Prompt (new globalBps perConnBps start) acts →
        WithinRate (cap.bps globalBps perConnBps : ℚ)
          ((returns cap s.log).filter fun g => g.size ≠ 0))) ∧
    (∀ cap : Cap, cap.bps globalBps perConnBps = 0 → ∀ need now,
      ((s.bucketOf start cap).waitFor need now).1 = 0) ∧
    (globalBps = 0 → perConnBps = 0 → ∀ call wait, .slept call wait ∉ s.log) ∧
    ∀ call rest, s.holder = none → s.waiting = call :: rest → s.ServesNext call := by
  have hmetering := metering_of_run h
  have hrated : s.Rated globalBps perConnBps :=
    invariant (fun _ _ _ hs hstep => hs.step (moves_of_step hstep)) new_rated h
  have hnumbered : s.Numbered :=
    invariant (fun _ _ _ hs hstep => hs.step (moves_of_step hstep))
      (new_numbered globalBps perConnBps start) h
  refine ⟨fun cap hcap => ⟨hmetering.withinRate hcap, fun hprompt => ?_⟩, fun cap hcap need now => ?_,
    hrated.undelayed, fun call rest hfree hfirst => ?_⟩
  · have honTime : s.OnTime :=
      invariant_along (fun _ _ _ hs hnow hstep => hs.step hnow (moves_of_step hstep))
        new_onTime hprompt h
    rw [← admissions_eq_returns honTime.returned]
    exact hmetering.withinRate hcap
  · rw [Bucket.waitFor_of_unlimited]
    cases cap with
    | global =>
      have hzero : globalBps = 0 := hcap
      exact (hrated.global.1.trans (by rw [hzero, Nat.cast_zero])).le
    | perConn connKey =>
      have hzero : perConnBps = 0 := hcap
      exact ((hrated.connBucket connKey start).1.trans (by rw [hzero, Nat.cast_zero])).le
  · exact hmetering.servesNext hrated hnumbered hfree hfirst

/-- An oversized call, behind it one for nothing and one that is still in line. -/
def oversizedCall : List Act :=
  [.arrive "peer" 2, .enter, .poll, .poll, .poll, .poll, .arrive "peer" 0, .arrive "peer" 1]

theorem keeps_rate_oversized : ∃ s, Runs.run step (new 1 1 0) oversizedCall = some s ∧
    (∀ cap : Cap, WithinRate (cap.bps 1 1 : ℚ) (admissions cap s.log)) ∧
    s.ServesNext ⟨2, "peer", 1⟩ := by
  have hsome : (Runs.run step (new 1 1 0) oversizedCall).isSome := by decide +kernel
  obtain ⟨s, hs⟩ := Option.isSome_iff_exists.mp hsome
  have hline : ((Runs.run step (new 1 1 0) oversizedCall).map fun s => s.waiting.map fun call =>
      (call.id, call.connKey, call.bytes)) = some [(2, "peer", 1)] := by decide +kernel
  have hfree : ((Runs.run step (new 1 1 0) oversizedCall).map fun s => s.holder.isNone)
      = some true := by decide +kernel
  rw [hs, Option.map_some, Option.some.injEq] at hline hfree
  obtain ⟨call, hcall, heq⟩ := List.map_eq_singleton_iff.mp hline
  refine ⟨s, hs, fun cap => ?_, ?_⟩
  · refine ((keeps_rate 1 1 0 oversizedCall s hs).1 cap ?_).1
    cases cap <;> exact Nat.one_pos
  · have hserves := (keeps_rate 1 1 0 oversizedCall s hs).2.2.2 call [] (by simpa using hfree) hcall
    obtain ⟨id, connKey, bytes⟩ := call
    obtain ⟨rfl, hrest⟩ := Prod.mk.inj heq
    obtain ⟨rfl, rfl⟩ := Prod.mk.inj hrest
    exact hserves

/-- A call that is held up between its clock reading and its return, and one behind it. -/
def delayedCall : List Act :=
  [.arrive "peer" 1, .enter, .tick 1, .poll, .poll, .poll, .poll,
    .arrive "peer" 1, .enter, .poll, .poll, .poll, .poll]

/-- A call for nothing that returns last lets an oversized one exceed the window, and so does a
call that is held up on its way out. -/
theorem exceeds_window :
    (∃ s, Runs.run step (new 1 0 0) oversizedCall = some s ∧
      ¬ WithinRate 1 (returns .global s.log)) ∧
    ∃ s, Runs.run step (new 1 0 0) delayedCall = some s ∧
      ¬ WithinRate 1 ((returns .global s.log).filter fun g => g.size ≠ 0) := by
  constructor
  · have hsome : (Runs.run step (new 1 0 0) oversizedCall).isSome := by decide +kernel
    obtain ⟨s, hs⟩ := Option.isSome_iff_exists.mp hsome
    refine ⟨s, hs, fun hwithin => ?_⟩
    have hsizes : ((Runs.run step (new 1 0 0) oversizedCall).map fun s =>
        (total (window (0 : ℚ) 0 (returns .global s.log)),
          lastSize (window (0 : ℚ) 0 (returns .global s.log)))) = some (2, 0) := by
      decide +kernel
    rw [hs, Option.map_some, Option.some.injEq, Prod.mk.injEq] at hsizes
    have hbound := hwithin 0 0 le_rfl
    rw [hsizes.1, hsizes.2] at hbound
    norm_num at hbound
  · have hsome : (Runs.run step (new 1 0 0) delayedCall).isSome := by decide +kernel
    obtain ⟨s, hs⟩ := Option.isSome_iff_exists.mp hsome
    refine ⟨s, hs, fun hwithin => ?_⟩
    have hsizes : ((Runs.run step (new 1 0 0) delayedCall).map fun s =>
        (total (window (1 : ℚ) 0 ((returns .global s.log).filter fun g => g.size ≠ 0)),
          lastSize (window (1 : ℚ) 0 ((returns .global s.log).filter fun g => g.size ≠ 0))))
          = some (2, 1) := by
      decide +kernel
    rw [hs, Option.map_some, Option.some.injEq, Prod.mk.injEq] at hsizes
    have hbound := hwithin 1 0 le_rfl
    rw [hsizes.1, hsizes.2] at hbound
    norm_num at hbound

end FcfsRateLimiter

end DigDownload
