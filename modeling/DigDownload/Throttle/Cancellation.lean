import DigDownload.Throttle.HeadOfLine

/-!
# Dropped calls

A call charges the global bucket, and the bucket of its connection only after one more await
point. Dropped there it has charged one bucket and returns nothing; dropped anywhere else it has
charged neither.
-/

namespace DigDownload

open Function Runs

/-! ## What the log adds up to -/

def tally (f : LimiterEvent → ℚ) (log : List LimiterEvent) : ℚ := (log.map f).sum

/-- The tokens that an event takes from the bucket of a cap, for the calls in question. -/
def chargeOf (cap : Cap) (who : AcquireCall → Bool) : LimiterEvent → ℚ
  | .charged charged call tokens => if charged = cap ∧ who call then tokens else 0
  | .slept _ _ | .returned _ _ _ | .dropped _ => 0

/-- The bytes of a call that count under a cap. -/
def Cap.size (globalBps perConnBps : ℕ) (cap : Cap) (call : AcquireCall) : ℚ :=
  if cap.Concerns call ∧ 0 < cap.bps globalBps perConnBps then call.bytes else 0

/-- The bytes that an event serves under a cap, for the calls in question. -/
def returnOf (globalBps perConnBps : ℕ) (cap : Cap) (who : AcquireCall → Bool) :
    LimiterEvent → ℚ
  | .returned call _ _ => if who call then cap.size globalBps perConnBps call else 0
  | .charged _ _ _ | .slept _ _ | .dropped _ => 0

section

variable {f : LimiterEvent → ℚ} {log events : List LimiterEvent} {e : LimiterEvent}

theorem tally_append : tally f (log ++ events) = tally f log + tally f events := by
  rw [tally, List.map_append, List.sum_append]
  rfl

@[simp] theorem tally_nil : tally f [] = 0 := rfl

@[simp] theorem tally_cons : tally f (e :: log) = f e + tally f log := by
  simp [tally]

theorem tally_eq_zero (h : ∀ e ∈ log, f e = 0) : tally f log = 0 := by
  rw [tally]
  refine List.sum_eq_zero fun t ht => ?_
  obtain ⟨e, he, rfl⟩ := List.mem_map.mp ht
  exact h e he

end

namespace FcfsRateLimiter

/-- No call that was dropped has charged a bucket, each that returned has charged the buckets of
its caps its size, and while nobody is at the head of the line what is charged is what was
served. -/
structure ChargesServed (globalBps perConnBps : ℕ) (s : FcfsRateLimiter) : Prop where
  dropped : ∀ call, .dropped call ∈ s.log → ∀ cap,
    tally (chargeOf cap fun other => other.id = call.id) s.log = 0
  returned : ∀ call now time, .returned call now time ∈ s.log → ∀ cap : Cap,
    tally (chargeOf cap fun other => other.id = call.id) s.log
      = cap.size globalBps perConnBps call
  drained : s.holder = none → ∀ cap,
    tally (chargeOf cap fun _ => true) s.log
      = tally (returnOf globalBps perConnBps cap fun _ => true) s.log

/-- A step drops no call between its two charges, unless there is no global cap. -/
def DropsUncharged (globalBps : ℕ) (s : FcfsRateLimiter) (act : Act) : Prop :=
  ∀ call now, s.holder = some (call, .chargePerConn now) → act = .drop call.id → globalBps = 0

/-! ## Charges and returns balance -/

/-- What a call has been charged but not yet returned for. -/
def due (globalBps perConnBps : ℕ) (s : FcfsRateLimiter) (cap : Cap)
    (who : AcquireCall → Bool) : ℚ :=
  match s.holder with
  | some (call, .chargePerConn _) =>
      if cap = .global ∧ who call then cap.size globalBps perConnBps call else 0
  | _ => 0

/-- What has been charged is what was served and what is still due. -/
def Balanced (globalBps perConnBps : ℕ) (s : FcfsRateLimiter) : Prop :=
  ∀ cap who, tally (chargeOf cap who) s.log
    = tally (returnOf globalBps perConnBps cap who) s.log + s.due globalBps perConnBps cap who

variable {s s' : FcfsRateLimiter} {act : Act} {call : AcquireCall} {p : AwaitPoint}
variable {globalBps perConnBps : ℕ} {start : ℚ} {acts : List Act} {cap : Cap}
variable {who : AcquireCall → Bool}

theorem due_free (h : s.holder = none) : s.due globalBps perConnBps cap who = 0 := by
  rw [due, h]

/-- What a bucket of a cap gives up for a call. -/
theorem Bucket.charged_eq {b : Bucket} {bps : ℕ} (h : b.rate = bps) (need : ℚ) :
    b.tokens - (b.consume need).tokens = if 0 < bps then need else 0 := by
  split
  · rename_i hcap
    rw [Bucket.consume_tokens (by rw [h]; exact Nat.cast_pos.mpr hcap)]
    ring
  · rename_i hnone
    rw [Bucket.consume_of_unlimited (by rw [h, Nat.eq_zero_of_not_pos hnone, Nat.cast_zero])]
    ring

theorem new_balanced : (new globalBps perConnBps start).Balanced globalBps perConnBps :=
  fun _ _ => (add_zero 0).symm

theorem Balanced.step (h : s.Balanced globalBps perConnBps)
    (hrated : s.Rated globalBps perConnBps) (hwf : s.WellFormed)
    (hdrop : s.DropsUncharged globalBps act) (hmoves : s.Moves act s') :
    s'.Balanced globalBps perConnBps := by
  intro cap who
  have hbefore := h cap who
  cases hmoves with
  | nothing connKey =>
    rw [tally_append, tally_append]
    have hsize : cap.size globalBps perConnBps ⟨s.arrived, connKey, 0⟩ = 0 := by
      rw [Cap.size]
      split <;> simp
    simp only [tally_cons, tally_nil, chargeOf, returnOf, hsize, ite_self, add_zero]
    exact hbefore
  | queue hbytes => exact hbefore
  | enter hfree hfirst =>
    rw [due_free hfree] at hbefore
    exact hbefore
  | askGlobal hholder | askPerConn hholder | wake hholder =>
    rw [due, hholder] at hbefore
    exact hbefore
  | sleep hholder hwait hshort =>
    rw [due, hholder] at hbefore
    rw [tally_append, tally_append]
    simp only [tally_cons, tally_nil, chargeOf, returnOf, add_zero]
    exact hbefore
  | @chargeGlobal call now hholder =>
    rw [due, hholder] at hbefore
    rw [tally_append, tally_append, due]
    simp only [tally_cons, tally_nil, chargeOf, returnOf, add_zero]
    dsimp only at hbefore
    rw [hbefore, Bucket.charged_eq hrated.global.1, add_zero]
    cases cap with
    | global => simp [Cap.size, Cap.Concerns, Cap.bps]
    | perConn connKey => simp
  | @chargePerConn call now old hholder hold =>
    rw [due, hholder] at hbefore
    rw [tally_append, tally_append, due_free rfl]
    simp only [tally_cons, tally_nil, chargeOf, returnOf, add_zero, zero_add]
    dsimp only at hbefore
    rw [hbefore, Bucket.charged_eq (hrated.perConn _ _ hold).1]
    cases cap with
    | global => simp
    | perConn connKey =>
      by_cases hwho : who call
      · simp [hwho, Cap.size, Cap.Concerns, Cap.bps, ite_and]
      · simp [hwho]
  | chargeNone hholder hnone => exact absurd hnone (hwf.present _ _ hholder trivial)
  | @dropHolder call p hholder =>
    rw [tally_append, tally_append, due_free rfl]
    simp only [tally_cons, tally_nil, chargeOf, returnOf, add_zero]
    rw [hbefore]
    suffices hdue : s.due globalBps perConnBps cap who = 0 by rw [hdue, add_zero]
    rw [due, hholder]
    cases p with
    | chargePerConn now =>
      have hzero := hdrop call now hholder rfl
      dsimp only
      rw [Cap.size]
      split
      · rename_i hglobal
        rw [hglobal.1, if_neg]
        rintro ⟨-, hcap⟩
        rw [Cap.bps, hzero] at hcap
        exact lt_irrefl 0 hcap
      · rfl
    | lockGlobal | lockPerConn | chargeGlobal | sleep => rfl
  | dropWaiting hother hwaits =>
    rw [tally_append, tally_append]
    simp only [tally_cons, tally_nil, chargeOf, returnOf, add_zero]
    exact hbefore
  | tick helapsed => exact hbefore

/-! ## A call ends once -/

/-- The call that an event is the end of. -/
def endedBy : LimiterEvent → Option ℕ
  | .returned call _ _ | .dropped call => some call.id
  | .charged _ _ _ | .slept _ _ => none

/-- The calls that returned or were dropped did so once, and are gone. -/
structure EndsOnce (s : FcfsRateLimiter) : Prop where
  nodup : (s.log.filterMap endedBy).Nodup
  gone : ∀ id ∈ s.log.filterMap endedBy, s.Gone id

theorem new_endsOnce : (new globalBps perConnBps start).EndsOnce where
  nodup := List.nodup_nil
  gone id hid := by cases hid

/-- A step ends one call at most, and that call is gone then. -/
theorem ended_step (hnumbered : s.Numbered) (hmoves : s.Moves act s') :
    ∃ events, s'.log = s.log ++ events ∧ (events.filterMap endedBy = [] ∨
      ∃ id, events.filterMap endedBy = [id] ∧ ¬ s.Gone id ∧ s'.Gone id) := by
  have hinLine {call : AcquireCall} (hcall : call ∈ s.calls) : ¬ s.Gone call.id :=
    fun hgone => hgone.left call hcall rfl
  cases hmoves with
  | nothing connKey =>
    refine ⟨_, rfl, Or.inr ⟨s.arrived, rfl, fun hgone => ?_, ?_⟩⟩
    · exact lt_irrefl _ hgone.arrived
    · exact ⟨Nat.lt_succ_self _, fun call hcall => (hnumbered.arrived call hcall).ne⟩
  | queue | enter | askGlobal | askPerConn | wake | tick =>
    exact ⟨[], (List.append_nil _).symm, Or.inl rfl⟩
  | sleep | chargeGlobal => exact ⟨_, rfl, Or.inl rfl⟩
  | chargePerConn hholder | chargeNone hholder | dropHolder hholder =>
    refine ⟨_, rfl, Or.inr ⟨_, rfl, hinLine (mem_calls_of_holder hholder), ?_⟩⟩
    exact hnumbered.gone hholder (calls_free rfl) rfl
  | @dropWaiting call hother hwaits =>
    have hcall : call ∈ s.calls := List.mem_append_right _ hwaits
    refine ⟨_, rfl, Or.inr ⟨_, rfl, hinLine hcall, hnumbered.arrived call hcall, ?_⟩⟩
    intro other hmem
    rcases List.mem_append.mp hmem with hholder | hwaits'
    · obtain ⟨⟨holder, p⟩, hpassed, rfl⟩ :=
        Option.map_eq_some_iff.mp (Option.mem_toList.mp hholder)
      exact hother holder p hpassed
    · simpa using (List.mem_filter.mp hwaits').2

theorem EndsOnce.step (h : s.EndsOnce) (hnumbered : s.Numbered) (hmoves : s.Moves act s') :
    s'.EndsOnce := by
  obtain ⟨events, hlog, hends⟩ := ended_step hnumbered hmoves
  have hended : s'.log.filterMap endedBy
      = s.log.filterMap endedBy ++ events.filterMap endedBy := by
    rw [hlog, List.filterMap_append]
  rcases hends with hnone | ⟨id, hone, hline, hgone⟩
  · rw [hnone, List.append_nil] at hended
    exact ⟨hended ▸ h.nodup, hended ▸ fun id hid => (h.gone id hid).step hmoves⟩
  · rw [hone] at hended
    constructor
    · rw [hended, List.nodup_append]
      refine ⟨h.nodup, List.nodup_singleton _, fun other hother _ hnew => ?_⟩
      rw [List.mem_singleton.mp hnew]
      exact fun hsame => hline (hsame ▸ h.gone other hother)
    · intro other hother
      rw [hended] at hother
      rcases List.mem_append.mp hother with hold | hnew
      · exact (h.gone other hold).step hmoves
      · exact List.mem_singleton.mp hnew ▸ hgone

/-- The end of a call is the only one in the log. -/
theorem EndsOnce.only (h : s.EndsOnce) {e : LimiterEvent} {id : ℕ} (he : e ∈ s.log)
    (hid : endedBy e = some id) :
    ∃ before after, s.log = before ++ e :: after ∧
      ∀ other ∈ before ++ after, endedBy other ≠ some id := by
  obtain ⟨before, after, hlog⟩ := List.append_of_mem he
  refine ⟨before, after, hlog, fun other hother hsame => ?_⟩
  have hnodup := h.nodup
  rw [hlog, List.filterMap_append, List.filterMap_cons_some hid, List.nodup_append] at hnodup
  obtain ⟨-, hafter, hapart⟩ := hnodup
  rcases List.mem_append.mp hother with hbefore | hlater
  · exact hapart id (List.mem_filterMap.mpr ⟨other, hbefore, hsame⟩) id List.mem_cons_self rfl
  · exact (List.nodup_cons.mp hafter).1 (List.mem_filterMap.mpr ⟨other, hlater, hsame⟩)

/-- Of the returns in the log only its own counts for a call. -/
theorem returnOf_eq_zero {e : LimiterEvent} {id : ℕ} (h : endedBy e ≠ some id) :
    returnOf globalBps perConnBps cap (fun other => other.id = id) e = 0 := by
  cases e with
  | returned call now time =>
    have hid : call.id ≠ id := fun hsame => h (congrArg some hsame)
    rw [returnOf, if_neg (by simpa using hid)]
  | charged | slept | dropped => rfl

theorem due_gone {id : ℕ} (h : s.Gone id) :
    s.due globalBps perConnBps cap (fun other => other.id = id) = 0 := by
  rw [due]
  split
  · rename_i call now hholder
    rw [if_neg]
    rintro ⟨-, hid⟩
    exact h.left call (mem_calls_of_holder hholder) (by simpa using hid)
  · rfl

/-- What a call was served with is what its end says. -/
theorem EndsOnce.tally_returnOf (h : s.EndsOnce) {e : LimiterEvent} {id : ℕ} (he : e ∈ s.log)
    (hid : endedBy e = some id) :
    tally (returnOf globalBps perConnBps cap fun other => other.id = id) s.log
      = returnOf globalBps perConnBps cap (fun other => other.id = id) e := by
  obtain ⟨before, after, hlog, hothers⟩ := h.only he hid
  rw [hlog, tally_append, tally_cons,
    tally_eq_zero fun e he => returnOf_eq_zero (hothers e (List.mem_append_left _ he)),
    tally_eq_zero fun e he => returnOf_eq_zero (hothers e (List.mem_append_right _ he)),
    zero_add, add_zero]

/-- A call that has ended was charged what its end says. -/
theorem Balanced.charged_of_ended (h : s.Balanced globalBps perConnBps) (hends : s.EndsOnce)
    {e : LimiterEvent} {id : ℕ} (he : e ∈ s.log) (hid : endedBy e = some id) :
    tally (chargeOf cap fun other => other.id = id) s.log
      = returnOf globalBps perConnBps cap (fun other => other.id = id) e := by
  have hgone : s.Gone id := hends.gone _ (List.mem_filterMap.mpr ⟨e, he, hid⟩)
  rw [h cap, due_gone hgone, add_zero, hends.tally_returnOf he hid]

/-- Where charges and returns balance, each call was charged what it returned with. -/
theorem Balanced.chargesServed (h : s.Balanced globalBps perConnBps) (hends : s.EndsOnce) :
    s.ChargesServed globalBps perConnBps where
  dropped call hdropped cap := by
    rw [h.charged_of_ended hends hdropped rfl]
    rfl
  returned call now time hreturned cap := by
    rw [h.charged_of_ended hends hreturned rfl]
    simp [returnOf]
  drained hfree cap := by rw [h cap, due_free hfree, add_zero]

/-! ## Every run -/

/-- What every step that drops no call between its charges keeps. -/
structure Orderly (globalBps perConnBps : ℕ) (s : FcfsRateLimiter) : Prop where
  wellFormed : s.WellFormed
  numbered : s.Numbered
  rated : s.Rated globalBps perConnBps
  endsOnce : s.EndsOnce
  balanced : s.Balanced globalBps perConnBps

theorem new_orderly : (new globalBps perConnBps start).Orderly globalBps perConnBps :=
  ⟨new_wellFormed .., new_numbered .., new_rated, new_endsOnce, new_balanced⟩

theorem Orderly.step (h : s.Orderly globalBps perConnBps) (hdrop : s.DropsUncharged globalBps act)
    (hstep : FcfsRateLimiter.step s act = some s') : s'.Orderly globalBps perConnBps where
  wellFormed := h.wellFormed.step (moves_of_step hstep)
  numbered := h.numbered.step (moves_of_step hstep)
  rated := h.rated.step (moves_of_step hstep)
  endsOnce := h.endsOnce.step h.numbered (moves_of_step hstep)
  balanced := h.balanced.step h.rated h.wellFormed hdrop (moves_of_step hstep)

/-- A call dropped between its charges has charged the global bucket for nothing. -/
theorem Orderly.charged_of_drop (h : s.Orderly globalBps perConnBps) {now : ℚ}
    (hholder : s.holder = some (call, .chargePerConn now)) (hcap : 0 < globalBps)
    (hstep : FcfsRateLimiter.step s (.drop call.id) = some s') :
    ¬ s'.ChargesServed globalBps perConnBps := by
  intro hserved
  have hlog : s'.log = s.log ++ [.dropped call] := by
    rw [FcfsRateLimiter.step, hholder, Option.filter_some, if_pos (by simp)] at hstep
    cases hstep
    rfl
  have hnone := hserved.dropped call (hlog ▸ List.mem_append_right _ List.mem_cons_self) .global
  have hreturns : 0 ≤ tally (returnOf globalBps perConnBps .global
      fun other => other.id = call.id) s.log := by
    refine List.sum_nonneg fun t ht => ?_
    obtain ⟨e, -, rfl⟩ := List.mem_map.mp ht
    cases e with
    | returned other _ _ =>
      rw [returnOf, Cap.size]
      split_ifs
      · exact Nat.cast_nonneg _
      · exact le_rfl
      · exact le_rfl
    | charged | slept | dropped => exact le_rfl
  have hdue : s.due globalBps perConnBps .global (fun other => other.id = call.id)
      = call.bytes := by
    rw [due, hholder]
    simp [Cap.size, Cap.Concerns, Cap.bps, hcap]
  have hbytes : (0 : ℚ) < call.bytes :=
    Nat.cast_pos.mpr (Nat.pos_of_ne_zero (h.wellFormed.holder _ _ hholder))
  rw [hlog, tally_append, h.balanced .global, hdue] at hnone
  simp only [tally_cons, tally_nil, chargeOf, add_zero] at hnone
  linarith

/-- Everywhere in a run dropped calls have charged nothing and the others what they serve, if and
only if the run drops no call between its charges while there is a global cap. -/
theorem chargesServed_iff (globalBps perConnBps : ℕ) (start : ℚ) (acts : List Act) :
    (∀ before after s, acts = before ++ after →
      Runs.run step (new globalBps perConnBps start) before = some s →
      s.ChargesServed globalBps perConnBps) ↔
    Along step (DropsUncharged globalBps) (new globalBps perConnBps start) acts := by
  constructor
  · have hrun (t : FcfsRateLimiter) (ht : t.Orderly globalBps perConnBps)
        (hserved : ∀ before after s, acts = before ++ after → Runs.run step t before = some s →
          s.ChargesServed globalBps perConnBps) :
        Along step (DropsUncharged globalBps) t acts := by
      induction acts generalizing t with
      | nil => trivial
      | cons act acts ih =>
        have hdrop : t.DropsUncharged globalBps act := by
          rintro call now hholder rfl
          by_contra hcap
          have hstep : step t (.drop call.id)
              = some { t with holder := none, log := t.log ++ [.dropped call] } := by
            rw [step, hholder, Option.filter_some, if_pos (by simp)]
          refine ht.charged_of_drop hholder (Nat.pos_of_ne_zero hcap) hstep ?_
          exact hserved [.drop call.id] acts _ rfl (by rw [run_cons hstep]; rfl)
        refine ⟨hdrop, fun t' hstep => ih t' (ht.step hdrop hstep) ?_⟩
        intro before after s hacts hrun
        refine hserved (act :: before) after s (by rw [hacts]; rfl) ?_
        rw [run_cons hstep]
        exact hrun
    exact hrun _ new_orderly
  · intro halong before after s hacts hrun
    rw [hacts, along_append] at halong
    have hs : s.Orderly globalBps perConnBps :=
      invariant_along (fun _ _ _ ht hdrop hstep => ht.step hdrop hstep) new_orderly halong.1 hrun
    exact hs.balanced.chargesServed hs.endsOnce

/-- A call that is dropped while it waits to charge the bucket of its connection drains the global
bucket and serves nothing. -/
theorem dropped_call_drains : ∃ s,
    Runs.run step (new 1000 1000 0)
      [.arrive "peer" 500, .enter, .poll, .poll, .poll, .drop 0] = some s ∧
    s.global.tokens = 500 ∧ returns .global s.log = [] ∧ ¬ s.ChargesServed 1000 1000 := by
  have hsome : (Runs.run step (new 1000 1000 0)
      [.arrive "peer" 500, .enter, .poll, .poll, .poll, .drop 0]).isSome := by decide +kernel
  obtain ⟨s, hs⟩ := Option.isSome_iff_exists.mp hsome
  have hseen : ((Runs.run step (new 1000 1000 0)
      [.arrive "peer" 500, .enter, .poll, .poll, .poll, .drop 0]).map fun s =>
        (s.global.tokens, (returns .global s.log).length, s.holder.isNone,
          tally (chargeOf .global fun _ => true) s.log,
          tally (returnOf 1000 1000 .global fun _ => true) s.log))
      = some (500, 0, true, 500, 0) := by decide +kernel
  rw [hs, Option.map_some, Option.some.injEq] at hseen
  obtain ⟨htokens, hseen⟩ := Prod.mk.inj hseen
  obtain ⟨hreturns, hseen⟩ := Prod.mk.inj hseen
  obtain ⟨hfree, hseen⟩ := Prod.mk.inj hseen
  obtain ⟨hcharged, hserved⟩ := Prod.mk.inj hseen
  refine ⟨s, hs, htokens, List.eq_nil_of_length_eq_zero hreturns, fun hall => ?_⟩
  have hdrained := hall.drained (Option.isNone_iff_eq_none.mp hfree) .global
  rw [hcharged, hserved] at hdrained
  norm_num at hdrained

end FcfsRateLimiter

end DigDownload
