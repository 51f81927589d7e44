import Mathlib.Algebra.Order.BigOperators.Group.List
import Mathlib.Algebra.Order.Field.Basic
import Mathlib.Tactic.Linarith
import Mathlib.Tactic.Ring

/-!
# Metering by a level that fills up

A meter has a level that grows at a rate, up to what the rate gives in one unit of time, and
each grant takes its size off the level. A grant larger than the cap is made when the level is
full and leaves a debt. What has been granted since any moment, together with the level left,
is at most what the rate gives from one unit of time before that moment on. From this potential
follows the bound on every window of time.
-/

namespace Metering

/-- What was granted, and when. -/
structure Grant (K : Type) where
  time : K
  size : K

variable {K : Type}

section

variable [AddMonoid K]

def total (gs : List (Grant K)) : K := (gs.map (·.size)).sum

/-- The size of the last grant, zero where there is none. -/
def lastSize (gs : List (Grant K)) : K := (gs.getLast?.map (·.size)).getD 0

variable {gs hs : List (Grant K)} {g : Grant K}

@[simp] theorem total_nil : total ([] : List (Grant K)) = 0 := rfl

@[simp] theorem total_append : total (gs ++ hs) = total gs + total hs := by
  simp [total]

@[simp] theorem total_singleton : total [g] = g.size := by
  simp [total]

theorem lastSize_concat : lastSize (gs ++ [g]) = g.size := by
  simp [lastSize]

end

section

variable [LinearOrder K] {gs hs : List (Grant K)} {g : Grant K} {a : K}

/-- The grants made at `a` or later. -/
def since (a : K) (gs : List (Grant K)) : List (Grant K) := gs.filter fun g => a ≤ g.time

theorem since_append : since a (gs ++ hs) = since a gs ++ since a hs := by
  rw [since, List.filter_append]
  rfl

theorem since_singleton (h : a ≤ g.time) : since a [g] = [g] := by
  simp [since, h]

theorem since_eq_nil (h : ∀ g ∈ gs, g.time < a) : since a gs = [] := by
  rw [since, List.filter_eq_nil_iff]
  intro g hg
  simpa using h g hg

end

variable [Field K] [LinearOrder K]

/-- The grants made between `a` and `a + d`. -/
def window (a d : K) (gs : List (Grant K)) : List (Grant K) :=
  gs.filter fun g => a ≤ g.time ∧ g.time ≤ a + d

/-- Each grant comes, with all before it since some moment, to no more than the rate gives
from that moment on and one burst or the grant itself. -/
def EachWithin (rate : K) (gs : List (Grant K)) : Prop :=
  ∀ pre g post, gs = pre ++ g :: post → ∀ a ≤ g.time,
    total (since a (pre ++ [g])) ≤ rate * (g.time - a) + max rate g.size

/-- In every window of time the grants come to no more than the rate gives in that time and
one burst or the last grant. -/
def WithinRate (rate : K) (gs : List (Grant K)) : Prop :=
  ∀ a d, 0 ≤ d → total (window a d gs) ≤ rate * d + max rate (lastSize (window a d gs))

/-- A meter at `now` with the level `level` left, after the grants `gs`. -/
structure Metered (rate now level : K) (gs : List (Grant K)) : Prop where
  past : ∀ g ∈ gs, g.time ≤ now
  budget : ∀ a ≤ now, total (since a gs) + level ≤ rate * (1 + (now - a))
  within : EachWithin rate gs

variable [IsStrictOrderedRing K]
variable {rate now later level level' size : K} {gs : List (Grant K)}


namespace Metered

/-- A meter starts with at most one burst. -/
theorem start (h : level ≤ rate) (hrate : 0 ≤ rate) : Metered rate now level [] where
  past g hg := by cases hg
  budget a ha := by
    have hpassed : 0 ≤ rate * (now - a) := mul_nonneg hrate (sub_nonneg.mpr ha)
    show 0 + level ≤ rate * (1 + (now - a))
    rw [mul_add]
    linarith
  within pre g post h := by simp at h

/-- While time passes, the level grows at the rate, up to one burst. -/
theorem pass (h : Metered rate now level gs) (hlater : now ≤ later) (hrate : 0 ≤ rate)
    (hgrown : level' ≤ level + (later - now) * rate) (hfull : level' ≤ rate) :
    Metered rate later level' gs where
  past g hg := (h.past g hg).trans hlater
  budget a ha := by
    cases le_or_gt a now with
    | inl hbefore =>
      have hbudget := h.budget a hbefore
      calc total (since a gs) + level'
          ≤ total (since a gs) + level + (later - now) * rate := by linarith
        _ ≤ rate * (1 + (now - a)) + (later - now) * rate := by linarith
        _ = rate * (1 + (later - a)) := by ring
    | inr hafter =>
      rw [since_eq_nil fun g hg => (h.past g hg).trans_lt hafter, total_nil, mul_add]
      have hpassed : 0 ≤ rate * (later - a) := mul_nonneg hrate (sub_nonneg.mpr ha)
      linarith
  within := h.within

/-- A level that is given up only tightens the budget. -/
theorem lose (h : Metered rate now level gs) (hlevel : level' ≤ level) :
    Metered rate now level' gs where
  past := h.past
  budget a ha := (add_le_add le_rfl hlevel).trans (h.budget a ha)
  within := h.within

/-- A grant takes its size off a level that holds it, or that is full. -/
theorem grant (h : Metered rate now level gs) (hready : min size rate ≤ level) :
    Metered rate now (level - size) (gs ++ [⟨now, size⟩]) where
  past g hg := by
    rcases List.mem_append.mp hg with hg | hg
    · exact h.past g hg
    · rw [List.mem_singleton.mp hg]
  budget a ha := by
    rw [since_append, since_singleton (by exact ha), total_append, total_singleton]
    have hbudget := h.budget a ha
    show total (since a gs) + size + (level - size) ≤ rate * (1 + (now - a))
    linarith
  within := by
    intro pre g post heq a ha
    rcases List.eq_nil_or_concat post with rfl | ⟨post', last, rfl⟩
    · -- the grant just made: the budget before it bounds it and all since `a`
      have hg : [⟨now, size⟩] = [g] := List.append_inj_right' heq rfl
      cases hg
      rw [← List.append_inj_left' heq rfl]
      rw [since_append, since_singleton ha, total_append, total_singleton]
      have hbudget := h.budget a ha
      have hburst : size - level ≤ max rate size - rate := by
        cases le_total size rate with
        | inl hle =>
          rw [min_eq_left hle] at hready
          rw [max_eq_left hle]
          linarith
        | inr hge =>
          rw [min_eq_right hge] at hready
          rw [max_eq_right hge]
          linarith
      show total (since a gs) + size ≤ rate * (now - a) + max rate size
      rw [mul_add] at hbudget
      linarith
    · rw [List.concat_eq_append, ← List.cons_append, ← List.append_assoc] at heq
      exact h.within pre g post' (List.append_inj_left' heq rfl) a ha

end Metered

/-- The bound on each grant gives the bound on every window. -/
theorem EachWithin.withinRate (h : EachWithin rate gs) (hrate : 0 ≤ rate)
    (hsize : ∀ g ∈ gs, 0 ≤ g.size) : WithinRate rate gs := by
  intro a d hd
  rcases List.eq_nil_or_concat (window a d gs) with hnone | ⟨ws, g, hws⟩
  · rw [hnone, total_nil]
    exact add_nonneg (mul_nonneg hrate hd) (le_max_of_le_left hrate)
  · -- up to the last grant in the window, the grants since `a` are all that count
    rw [hws, List.concat_eq_append, lastSize_concat, ← List.concat_eq_append, ← hws]
    obtain ⟨l, m, hgs, hl, hm⟩ := List.filter_eq_append_iff.mp (hws.trans List.concat_eq_append)
    obtain ⟨m', post, hm', hskip, hin, hpost⟩ := List.filter_eq_cons_iff.mp hm
    have hsplit : gs = (l ++ m') ++ g :: post := by rw [hgs, hm', List.append_assoc]
    have hwindow : window a d gs = window a d ((l ++ m') ++ [g]) := by
      rw [hsplit, List.append_cons, window, List.filter_append, hpost, List.append_nil]
      rfl
    obtain ⟨hge, hle⟩ := of_decide_eq_true hin
    have hsub : (window a d ((l ++ m') ++ [g])).Sublist (since a ((l ++ m') ++ [g])) := by
      refine List.monotone_filter_right _ fun x hx => ?_
      rw [decide_eq_true_eq] at hx ⊢
      exact hx.1
    have hsince : total (window a d gs) ≤ total (since a ((l ++ m') ++ [g])) := by
      rw [hwindow]
      refine (hsub.map _).sum_le_sum fun x hx => ?_
      obtain ⟨y, hy, rfl⟩ := List.mem_map.mp hx
      refine hsize y ?_
      rw [hsplit, List.append_cons]
      exact List.mem_append_left _ (List.mem_of_mem_filter hy)
    have hbound := h (l ++ m') g post hsplit a hge
    have hspan : rate * (g.time - a) ≤ rate * d :=
      mul_le_mul_of_nonneg_left (by linarith) hrate
    linarith

end Metering
