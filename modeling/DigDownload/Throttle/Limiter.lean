import DigDownload.Lib.Runs
import Mathlib.Algebra.Order.Field.Rat
import Mathlib.Data.List.Nodup
import Mathlib.Data.Rat.Cast.Order
import Mathlib.Logic.Function.Basic
import Mathlib.Tactic.Linarith
import Mathlib.Tactic.Ring

/-!
# The rate limiter of the serve path

A call of `acquire` waits at the gate in the order of arrival. At the head of the line it
reads the clock, asks both token buckets how long to wait, and either sleeps and tries again
or charges both buckets and returns. Tokens, rates and times are exact rationals.

Between two of its await points a call runs without interruption, so a step of the machine
takes the call at the head of the line from one await point to the next. Whoever waits may be
dropped at any of them, and time may pass at any of them.
-/

namespace DigDownload

open Function

/-! ## A token bucket -/

/-- A token bucket: `capacity`-bounded tokens refilling at `rate` bytes a second. -/
structure Bucket where
  rate : ℚ
  capacity : ℚ
  tokens : ℚ
  lastRefill : ℚ

namespace Bucket

def new (rateBps : ℕ) (now : ℚ) : Bucket where
  rate := rateBps
  capacity := rateBps
  tokens := rateBps
  lastRefill := now

/-- Tokens for the time elapsed since the last refill, capped at `capacity`. -/
def refill (b : Bucket) (now : ℚ) : Bucket :=
  let elapsed := max 0 (now - b.lastRefill)
  if 0 < elapsed then
    { b with tokens := min (b.tokens + elapsed * b.rate) b.capacity, lastRefill := now }
  else b

/-- The wait from `now` until `need` tokens, or a full bucket, are there. -/
def waitFor (b : Bucket) (need now : ℚ) : ℚ × Bucket :=
  if b.rate ≤ 0 then (0, b)
  else
    let b := b.refill now
    let effective := min need b.capacity
    if effective ≤ b.tokens then (0, b) else ((effective - b.tokens) / b.rate, b)

/-- Take `need` tokens; this may leave a debt. -/
def consume (b : Bucket) (need : ℚ) : Bucket :=
  if 0 < b.rate then { b with tokens := b.tokens - need } else b

variable {b : Bucket} {need now : ℚ}

@[simp] theorem refill_rate : (b.refill now).rate = b.rate := by
  rw [refill]
  split <;> rfl

@[simp] theorem refill_capacity : (b.refill now).capacity = b.capacity := by
  rw [refill]
  split <;> rfl

theorem refill_lastRefill (h : b.lastRefill ≤ now) : (b.refill now).lastRefill = now := by
  rw [refill, max_eq_right (sub_nonneg.mpr h)]
  split
  · rfl
  · linarith

theorem refill_tokens (h : b.lastRefill ≤ now) (hcap : b.tokens ≤ b.capacity) :
    (b.refill now).tokens = min (b.tokens + (now - b.lastRefill) * b.rate) b.capacity := by
  rw [refill, max_eq_right (sub_nonneg.mpr h)]
  split
  · rfl
  · rename_i hnot
    have hsame : now - b.lastRefill = 0 := by linarith
    rw [hsame, zero_mul, add_zero, min_eq_left hcap]

/-- A bucket without a cap never delays. -/
theorem waitFor_of_unlimited (h : b.rate ≤ 0) : b.waitFor need now = (0, b) := by
  rw [waitFor, if_pos h]

theorem waitFor_snd (h : 0 < b.rate) : (b.waitFor need now).2 = b.refill now := by
  rw [waitFor, if_neg (not_le_of_gt h)]
  dsimp only
  split <;> rfl

theorem waitFor_fst (h : 0 < b.rate) :
    (b.waitFor need now).1
      = max 0 ((min need b.capacity - (b.refill now).tokens) / b.rate) := by
  rw [waitFor, if_neg (not_le_of_gt h)]
  dsimp only
  rw [refill_capacity, refill_rate]
  split
  · rename_i hready
    rw [max_eq_left]
    exact div_nonpos_of_nonpos_of_nonneg (by linarith) h.le
  · rename_i hshort
    rw [max_eq_right]
    exact div_nonneg (by linarith) h.le

theorem waitFor_nonneg : 0 ≤ (b.waitFor need now).1 := by
  cases le_or_gt b.rate 0 with
  | inl hnone => rw [waitFor_of_unlimited hnone]
  | inr hcap =>
    rw [waitFor_fst hcap]
    exact le_max_left _ _

/-- No wait: the bucket holds what is needed, or is full. -/
theorem ready_of_waitFor (h : 0 < b.rate) (hwait : (b.waitFor need now).1 ≤ 0) :
    min need b.capacity ≤ (b.refill now).tokens := by
  rw [waitFor_fst h, max_le_iff, div_le_iff₀ h, zero_mul] at hwait
  linarith

@[simp] theorem consume_rate : (b.consume need).rate = b.rate := by
  rw [consume]
  split <;> rfl

@[simp] theorem consume_capacity : (b.consume need).capacity = b.capacity := by
  rw [consume]
  split <;> rfl

@[simp] theorem consume_lastRefill : (b.consume need).lastRefill = b.lastRefill := by
  rw [consume]
  split <;> rfl

theorem consume_tokens (h : 0 < b.rate) : (b.consume need).tokens = b.tokens - need := by
  rw [consume, if_pos h]

theorem consume_of_unlimited (h : b.rate ≤ 0) : b.consume need = b := by
  rw [consume, if_neg (not_lt_of_ge h)]

end Bucket

/-! ## The limiter -/

/-- A call of `acquire`, by the order in which the calls arrive. -/
structure AcquireCall where
  id : ℕ
  connKey : String
  bytes : ℕ

/-- Where the call at the head of the line is suspended: before one of the four locks, with the
clock it has read, or asleep. -/
inductive AwaitPoint where
  | lockGlobal (now : ℚ)
  | lockPerConn (now waitGlobal : ℚ)
  | chargeGlobal (now : ℚ)
  | chargePerConn (now : ℚ)
  | sleep (deadline : ℚ)

/-- The call is about to charge one of the buckets. -/
def AwaitPoint.Charging : AwaitPoint → Prop
  | .chargeGlobal _ | .chargePerConn _ => True
  | .lockGlobal _ | .lockPerConn _ _ | .sleep _ => False

/-- One of the two caps: across all connections, or of one connection. -/
inductive Cap where
  | global
  | perConn (connKey : String)
  deriving DecidableEq

/-- What is seen of the limiter: a bucket is charged, a call goes to sleep for a time, it
returns after reading the clock at `now`, or it is dropped. -/
inductive LimiterEvent where
  | charged (cap : Cap) (call : AcquireCall) (tokens : ℚ)
  | slept (call : AcquireCall) (wait : ℚ)
  | returned (call : AcquireCall) (now time : ℚ)
  | dropped (call : AcquireCall)

/-- The two caps and the gate: who waits at it, in the order of arrival, and who has passed it
and where that call is; with the clock, how many calls have arrived, and what was seen. -/
structure FcfsRateLimiter where
  waiting : List AcquireCall
  holder : Option (AcquireCall × AwaitPoint)
  global : Bucket
  perConn : String → Option Bucket
  perConnBps : ℕ
  clock : ℚ
  arrived : ℕ
  log : List LimiterEvent

namespace FcfsRateLimiter

def new (globalBps perConnBps : ℕ) (now : ℚ) : FcfsRateLimiter where
  waiting := []
  holder := none
  global := Bucket.new globalBps now
  perConn := fun _ => none
  perConnBps := perConnBps
  clock := now
  arrived := 0
  log := []

/-- The bucket of a connection, a fresh one if it has none yet. -/
def connBucket (s : FcfsRateLimiter) (connKey : String) (now : ℚ) : Bucket :=
  (s.perConn connKey).getD (Bucket.new s.perConnBps now)

/-- The call at the head of the line runs on from the await point `p` to the next one, or
returns. It cannot run on from a sleep before the deadline. -/
def resume (s : FcfsRateLimiter) (call : AcquireCall) (p : AwaitPoint) :
    Option FcfsRateLimiter :=
  match p with
  | .lockGlobal now =>
      let (waitGlobal, bucket) := s.global.waitFor call.bytes now
      some { s with holder := some (call, .lockPerConn now waitGlobal), global := bucket }
  | .lockPerConn now waitGlobal =>
      let (waitConn, bucket) := (s.connBucket call.connKey now).waitFor call.bytes now
      let s := { s with perConn := update s.perConn call.connKey (some bucket) }
      let wait := max waitGlobal waitConn
      if wait = 0 then
        some { s with holder := some (call, .chargeGlobal now) }
      else
        some { s with
          holder := some (call, .sleep (s.clock + wait))
          log := s.log ++ [.slept call wait] }
  | .chargeGlobal now =>
      let bucket := s.global.consume call.bytes
      some { s with
        holder := some (call, .chargePerConn now)
        global := bucket
        log := s.log ++ [.charged .global call (s.global.tokens - bucket.tokens)] }
  | .chargePerConn now =>
      match s.perConn call.connKey with
      | some old =>
          let bucket := old.consume call.bytes
          some { s with
            holder := none
            perConn := update s.perConn call.connKey (some bucket)
            log := s.log ++ [.charged (.perConn call.connKey) call (old.tokens - bucket.tokens),
              .returned call now s.clock] }
      | none => some { s with holder := none, log := s.log ++ [.returned call now s.clock] }
  | .sleep deadline =>
      if deadline ≤ s.clock then some { s with holder := some (call, .lockGlobal s.clock) }
      else none

/-- What can happen next: a call arrives, the first in line passes the gate, the one that has
passed it runs on, a call is dropped, or time passes. -/
inductive Act where
  | arrive (connKey : String) (bytes : ℕ)
  | enter
  | poll
  | drop (id : ℕ)
  | tick (elapsed : ℚ)
  deriving DecidableEq

/-- A call for nothing returns at once. A dropped call leaves the line, or opens the gate. -/
def step (s : FcfsRateLimiter) : Act → Option FcfsRateLimiter
  | .arrive connKey bytes =>
      let call : AcquireCall := ⟨s.arrived, connKey, bytes⟩
      let s := { s with arrived := s.arrived + 1 }
      if bytes = 0 then some { s with log := s.log ++ [.returned call s.clock s.clock] }
      else some { s with waiting := s.waiting ++ [call] }
  | .enter =>
      match s.holder, s.waiting with
      | none, call :: rest =>
          some { s with waiting := rest, holder := some (call, .lockGlobal s.clock) }
      | _, _ => none
  | .poll => s.holder.bind fun (call, p) => s.resume call p
  | .drop id =>
      match s.holder.filter fun (call, _) => call.id = id with
      | some (call, _) => some { s with holder := none, log := s.log ++ [.dropped call] }
      | none =>
          (s.waiting.find? fun call => call.id = id).map fun call =>
            { s with
              waiting := s.waiting.filter fun call => call.id ≠ id
              log := s.log ++ [.dropped call] }
  | .tick elapsed =>
      if 0 ≤ elapsed then some { s with clock := s.clock + elapsed } else none

/-- What a step does, case by case. -/
inductive Moves (s : FcfsRateLimiter) : Act → FcfsRateLimiter → Prop where
  | nothing (connKey : String) : Moves s (.arrive connKey 0)
      { s with
        arrived := s.arrived + 1
        log := s.log ++ [.returned ⟨s.arrived, connKey, 0⟩ s.clock s.clock] }
  | queue {connKey : String} {bytes : ℕ} (hbytes : bytes ≠ 0) : Moves s (.arrive connKey bytes)
      { s with
        arrived := s.arrived + 1
        waiting := s.waiting ++ [⟨s.arrived, connKey, bytes⟩] }
  | enter {call : AcquireCall} {rest : List AcquireCall} (hfree : s.holder = none)
      (hfirst : s.waiting = call :: rest) : Moves s .enter
      { s with waiting := rest, holder := some (call, .lockGlobal s.clock) }
  | askGlobal {call : AcquireCall} {now : ℚ}
      (hholder : s.holder = some (call, .lockGlobal now)) : Moves s .poll
      { s with
        holder := some (call, .lockPerConn now (s.global.waitFor call.bytes now).1)
        global := (s.global.waitFor call.bytes now).2 }
  | askPerConn {call : AcquireCall} {now waitGlobal : ℚ}
      (hholder : s.holder = some (call, .lockPerConn now waitGlobal))
      (hready : max waitGlobal ((s.connBucket call.connKey now).waitFor call.bytes now).1 = 0) :
      Moves s .poll
      { s with
        holder := some (call, .chargeGlobal now)
        perConn := update s.perConn call.connKey
          (some ((s.connBucket call.connKey now).waitFor call.bytes now).2) }
  | sleep {call : AcquireCall} {now waitGlobal wait : ℚ}
      (hholder : s.holder = some (call, .lockPerConn now waitGlobal))
      (hwait : wait
        = max waitGlobal ((s.connBucket call.connKey now).waitFor call.bytes now).1)
      (hshort : wait ≠ 0) : Moves s .poll
      { s with
        holder := some (call, .sleep (s.clock + wait))
        perConn := update s.perConn call.connKey
          (some ((s.connBucket call.connKey now).waitFor call.bytes now).2)
        log := s.log ++ [.slept call wait] }
  | chargeGlobal {call : AcquireCall} {now : ℚ}
      (hholder : s.holder = some (call, .chargeGlobal now)) : Moves s .poll
      { s with
        holder := some (call, .chargePerConn now)
        global := s.global.consume call.bytes
        log := s.log ++ [.charged .global call
          (s.global.tokens - (s.global.consume call.bytes).tokens)] }
  | chargePerConn {call : AcquireCall} {now : ℚ} {old : Bucket}
      (hholder : s.holder = some (call, .chargePerConn now))
      (hold : s.perConn call.connKey = some old) : Moves s .poll
      { s with
        holder := none
        perConn := update s.perConn call.connKey (some (old.consume call.bytes))
        log := s.log ++ [.charged (.perConn call.connKey) call
          (old.tokens - (old.consume call.bytes).tokens), .returned call now s.clock] }
  | chargeNone {call : AcquireCall} {now : ℚ}
      (hholder : s.holder = some (call, .chargePerConn now))
      (hnone : s.perConn call.connKey = none) : Moves s .poll
      { s with holder := none, log := s.log ++ [.returned call now s.clock] }
  | wake {call : AcquireCall} {deadline : ℚ}
      (hholder : s.holder = some (call, .sleep deadline)) (hpast : deadline ≤ s.clock) :
      Moves s .poll { s with holder := some (call, .lockGlobal s.clock) }
  | dropHolder {call : AcquireCall} {p : AwaitPoint} (hholder : s.holder = some (call, p)) :
      Moves s (.drop call.id) { s with holder := none, log := s.log ++ [.dropped call] }
  | dropWaiting {call : AcquireCall}
      (hother : ∀ holder p, s.holder = some (holder, p) → holder.id ≠ call.id)
      (hwaits : call ∈ s.waiting) : Moves s (.drop call.id)
      { s with
        waiting := s.waiting.filter fun other => other.id ≠ call.id
        log := s.log ++ [.dropped call] }
  | tick {elapsed : ℚ} (helapsed : 0 ≤ elapsed) : Moves s (.tick elapsed)
      { s with clock := s.clock + elapsed }

variable {s s' : FcfsRateLimiter} {act : Act} {call : AcquireCall} {p : AwaitPoint}

theorem moves_of_resume (hholder : s.holder = some (call, p)) (h : s.resume call p = some s') :
    s.Moves .poll s' := by
  cases p with
  | lockGlobal now =>
    cases h
    exact .askGlobal hholder
  | lockPerConn now waitGlobal =>
    rw [resume] at h
    dsimp only at h
    split at h
    · rename_i hready
      cases h
      exact .askPerConn hholder hready
    · rename_i hshort
      cases h
      exact .sleep hholder rfl hshort
  | chargeGlobal now =>
    cases h
    exact .chargeGlobal hholder
  | chargePerConn now =>
    rw [resume] at h
    split at h
    · rename_i old hold
      cases h
      exact .chargePerConn hholder hold
    · rename_i hnone
      cases h
      exact .chargeNone hholder hnone
  | sleep deadline =>
    rw [resume, Option.ite_none_right_eq_some] at h
    obtain ⟨hpast, h⟩ := h
    cases h
    exact .wake hholder hpast

theorem moves_of_step (h : step s act = some s') : s.Moves act s' := by
  cases act with
  | arrive connKey bytes =>
    rw [step] at h
    dsimp only at h
    split at h
    · rename_i hzero
      cases h
      subst hzero
      exact .nothing connKey
    · rename_i hbytes
      cases h
      exact .queue hbytes
  | enter =>
    rw [step] at h
    split at h
    · rename_i call rest hfree hfirst
      cases h
      exact .enter hfree hfirst
    · cases h
  | poll =>
    obtain ⟨⟨call, p⟩, hholder, h⟩ := Option.bind_eq_some_iff.mp h
    exact moves_of_resume hholder h
  | drop id =>
    rw [step] at h
    split at h
    · rename_i call p hfilter
      obtain ⟨hholder, hid⟩ := Option.filter_eq_some_iff.mp hfilter
      cases h
      rw [← of_decide_eq_true hid]
      exact .dropHolder hholder
    · rename_i hfilter
      obtain ⟨call, hfind, h⟩ := Option.map_eq_some_iff.mp h
      have hid : call.id = id := by simpa using List.find?_some hfind
      subst hid
      cases h
      refine .dropWaiting (fun holder p hholder hsame => ?_) (List.mem_of_find?_eq_some hfind)
      rw [hholder, Option.filter_some, if_pos (by simpa using hsame)] at hfilter
      cases hfilter
  | tick elapsed =>
    rw [step, Option.ite_none_right_eq_some] at h
    obtain ⟨helapsed, h⟩ := h
    cases h
    exact .tick helapsed

/-- Whoever waits or has passed the gate asks for something, and whoever is about to charge
finds the bucket of its connection. -/
structure WellFormed (s : FcfsRateLimiter) : Prop where
  waiting : ∀ call ∈ s.waiting, call.bytes ≠ 0
  holder : ∀ call p, s.holder = some (call, p) → call.bytes ≠ 0
  present : ∀ call p, s.holder = some (call, p) → p.Charging → s.perConn call.connKey ≠ none

theorem new_wellFormed (globalBps perConnBps : ℕ) (now : ℚ) :
    (new globalBps perConnBps now).WellFormed := ⟨nofun, nofun, nofun⟩

theorem WellFormed.step (h : s.WellFormed) (hmoves : s.Moves act s') : s'.WellFormed := by
  cases hmoves with
  | nothing connKey => exact ⟨h.waiting, h.holder, h.present⟩
  | queue hbytes =>
    refine ⟨?_, h.holder, h.present⟩
    intro call hcall
    rcases List.mem_append.mp hcall with hold | hnew
    · exact h.waiting call hold
    · rw [List.mem_singleton.mp hnew]
      exact hbytes
  | enter hfree hfirst =>
    have hall := h.waiting
    rw [hfirst] at hall
    refine ⟨fun call hcall => hall call (List.mem_cons_of_mem _ hcall), ?_, ?_⟩
    · rintro _ _ ⟨⟩
      exact hall _ List.mem_cons_self
    · rintro _ _ ⟨⟩ ⟨⟩
  | askGlobal hholder =>
    refine ⟨h.waiting, ?_, ?_⟩
    · rintro _ _ ⟨⟩
      exact h.holder _ _ hholder
    · rintro _ _ ⟨⟩ ⟨⟩
  | askPerConn hholder hready =>
    refine ⟨h.waiting, ?_, ?_⟩
    · rintro _ _ ⟨⟩
      exact h.holder _ _ hholder
    · rintro _ _ ⟨⟩ _
      show update s.perConn _ _ _ ≠ none
      rw [update_self]
      nofun
  | sleep hholder hwait hshort =>
    refine ⟨h.waiting, ?_, ?_⟩
    · rintro _ _ ⟨⟩
      exact h.holder _ _ hholder
    · rintro _ _ ⟨⟩ ⟨⟩
  | chargeGlobal hholder =>
    refine ⟨h.waiting, ?_, ?_⟩
    · rintro _ _ ⟨⟩
      exact h.holder _ _ hholder
    · rintro _ _ ⟨⟩ _
      exact h.present _ _ hholder trivial
  | chargePerConn hholder hold => exact ⟨h.waiting, nofun, nofun⟩
  | chargeNone hholder hnone => exact ⟨h.waiting, nofun, nofun⟩
  | wake hholder hpast =>
    refine ⟨h.waiting, ?_, ?_⟩
    · rintro _ _ ⟨⟩
      exact h.holder _ _ hholder
    · rintro _ _ ⟨⟩ ⟨⟩
  | dropHolder hholder => exact ⟨h.waiting, nofun, nofun⟩
  | dropWaiting hother hwaits =>
    exact ⟨fun call hcall => h.waiting call (List.mem_of_mem_filter hcall), h.holder, h.present⟩
  | tick helapsed => exact ⟨h.waiting, h.holder, h.present⟩

/-! ## Which call is which -/

/-- The call at the head of the line and those behind it. -/
def calls (s : FcfsRateLimiter) : List AcquireCall := (s.holder.map (·.1)).toList ++ s.waiting

/-- The calls in line are told apart by the order in which they arrived. -/
structure Numbered (s : FcfsRateLimiter) : Prop where
  arrived : ∀ call ∈ s.calls, call.id < s.arrived
  nodup : (s.calls.map (·.id)).Nodup

/-- The call has arrived and is no longer in line. -/
structure Gone (s : FcfsRateLimiter) (id : ℕ) : Prop where
  arrived : id < s.arrived
  left : ∀ call ∈ s.calls, call.id ≠ id

theorem calls_holder (h : s.holder = some (call, p)) : s.calls = call :: s.waiting := by
  rw [calls, h]
  rfl

theorem calls_free (h : s.holder = none) : s.calls = s.waiting := by
  rw [calls, h]
  rfl

/-- A step keeps the calls in line but for those that leave, or takes in the next one. -/
theorem calls_step (hmoves : s.Moves act s') :
    s.arrived ≤ s'.arrived ∧
      (s'.calls.Sublist s.calls ∨
        s'.arrived = s.arrived + 1 ∧
          ∃ call : AcquireCall, call.id = s.arrived ∧ s'.calls = s.calls ++ [call]) := by
  cases hmoves with
  | nothing connKey => exact ⟨Nat.le_succ _, Or.inl (List.Sublist.refl _)⟩
  | queue hbytes =>
    exact ⟨Nat.le_succ _, Or.inr ⟨rfl, _, rfl, (List.append_assoc _ _ _).symm⟩⟩
  | enter hfree hfirst =>
    refine ⟨le_rfl, Or.inl ?_⟩
    rw [calls_holder rfl, calls_free hfree, hfirst]
  | askGlobal hholder | askPerConn hholder | sleep hholder | chargeGlobal hholder
  | wake hholder =>
    refine ⟨le_rfl, Or.inl ?_⟩
    rw [calls_holder rfl, calls_holder hholder]
  | chargePerConn hholder | chargeNone hholder | dropHolder hholder =>
    refine ⟨le_rfl, Or.inl ?_⟩
    rw [calls_free rfl, calls_holder hholder]
    exact List.sublist_cons_self _ _
  | dropWaiting hother hwaits =>
    exact ⟨le_rfl, Or.inl (List.Sublist.append_left List.filter_sublist _)⟩
  | tick helapsed => exact ⟨le_rfl, Or.inl (List.Sublist.refl _)⟩

theorem new_numbered (globalBps perConnBps : ℕ) (now : ℚ) :
    (new globalBps perConnBps now).Numbered := ⟨nofun, List.nodup_nil⟩

theorem Numbered.step (h : s.Numbered) (hmoves : s.Moves act s') : s'.Numbered := by
  obtain ⟨harrived, hsub | ⟨hnext, call, hid, hcalls⟩⟩ := calls_step hmoves
  · constructor
    · exact fun call hcall => (h.arrived call (hsub.subset hcall)).trans_le harrived
    · exact h.nodup.sublist (hsub.map _)
  · constructor
    · intro other hother
      rw [hcalls] at hother
      rcases List.mem_append.mp hother with hold | hnew
      · exact (h.arrived other hold).trans_le harrived
      · rw [List.mem_singleton.mp hnew, hid, hnext]
        exact Nat.lt_succ_self _
    · rw [hcalls, List.map_append, List.nodup_append]
      refine ⟨h.nodup, List.nodup_singleton _, ?_⟩
      intro id hold _ hnew
      obtain ⟨other, hother, rfl⟩ := List.mem_map.mp hold
      rw [List.map_singleton, List.mem_singleton] at hnew
      rw [hnew, hid]
      exact (h.arrived other hother).ne

theorem Gone.step {id : ℕ} (h : s.Gone id) (hmoves : s.Moves act s') : s'.Gone id := by
  obtain ⟨harrived, hsub | ⟨hnext, call, hid, hcalls⟩⟩ := calls_step hmoves
  · exact ⟨h.arrived.trans_le harrived, fun call hcall => h.left call (hsub.subset hcall)⟩
  · refine ⟨h.arrived.trans_le harrived, fun other hother => ?_⟩
    rw [hcalls] at hother
    rcases List.mem_append.mp hother with hold | hnew
    · exact h.left other hold
    · rw [List.mem_singleton.mp hnew, hid]
      exact h.arrived.ne'

end FcfsRateLimiter

/-- The call that an event is about. -/
def LimiterEvent.call : LimiterEvent → AcquireCall
  | .charged _ call _ | .slept call _ | .returned call _ _ | .dropped call => call

namespace FcfsRateLimiter

variable {s s' : FcfsRateLimiter} {act : Act} {call : AcquireCall} {p : AwaitPoint}

theorem mem_calls_of_holder (h : s.holder = some (call, p)) : call ∈ s.calls := by
  rw [calls_holder h]
  exact List.mem_cons_self

/-- What is seen of a step is about calls in line, or about one that arrives. -/
theorem events_step (hmoves : s.Moves act s') :
    ∃ events, s'.log = s.log ++ events ∧
      ∀ e ∈ events, e.call ∈ s.calls ∨ e.call.id = s.arrived := by
  cases hmoves with
  | nothing connKey =>
    refine ⟨_, rfl, fun e he => Or.inr ?_⟩
    rw [List.mem_singleton.mp he]
    rfl
  | queue | enter | askGlobal | askPerConn | wake | tick =>
    exact ⟨[], (List.append_nil _).symm, nofun⟩
  | sleep hholder | chargeGlobal hholder | chargeNone hholder | dropHolder hholder =>
    refine ⟨_, rfl, fun e he => Or.inl ?_⟩
    rw [List.mem_singleton.mp he]
    exact mem_calls_of_holder hholder
  | chargePerConn hholder hold =>
    refine ⟨_, rfl, fun e he => Or.inl ?_⟩
    rcases List.mem_cons.mp he with rfl | he
    · exact mem_calls_of_holder hholder
    · rw [List.mem_singleton.mp he]
      exact mem_calls_of_holder hholder
  | dropWaiting hother hwaits =>
    refine ⟨_, rfl, fun e he => Or.inl ?_⟩
    rw [List.mem_singleton.mp he]
    exact List.mem_append_right _ hwaits

/-- Nothing more is seen of a call that has gone. -/
theorem Gone.not_seen {id : ℕ} (h : s.Gone id) (hmoves : s.Moves act s') :
    ∃ events, s'.log = s.log ++ events ∧ ∀ e ∈ events, e.call.id ≠ id := by
  obtain ⟨events, hlog, hevents⟩ := events_step hmoves
  refine ⟨events, hlog, fun e he => ?_⟩
  rcases hevents e he with hcall | hnew
  · exact h.left _ hcall
  · rw [hnew]
    exact h.arrived.ne'

/-- The call at the head of the line is gone once it has left it. -/
theorem Numbered.gone (h : s.Numbered) (hholder : s.holder = some (call, p))
    (hcalls : s'.calls = s.waiting) (harrived : s'.arrived = s.arrived) : s'.Gone call.id := by
  have hnodup := h.nodup
  rw [calls_holder hholder, List.map_cons, List.nodup_cons] at hnodup
  constructor
  · rw [harrived]
    exact h.arrived call (mem_calls_of_holder hholder)
  · intro other hother hsame
    rw [hcalls] at hother
    exact hnodup.1 (List.mem_map.mpr ⟨other, hother, hsame⟩)

end FcfsRateLimiter

end DigDownload
