import Mathlib.Algebra.BigOperators.Group.List.Basic
import Mathlib.Algebra.GroupWithZero.Nat
import DigDownload.Lib.Slices

/-!
# Consecutive spans

A list of lengths cuts an array into consecutive spans; span `i` starts where the
lengths before it end. Spans of different indices do not meet, the first `n` of
them cover exactly a prefix, and reading them one after the other reads that
prefix.
-/

namespace Tiling

open Slices

variable {α : Type}

/-- Where span `i` starts. -/
def start (lens : List Nat) (i : Nat) : Nat := (lens.take i).sum

@[simp] theorem start_zero (lens : List Nat) : start lens 0 = 0 := rfl

theorem start_succ {lens : List Nat} {i : Nat} (h : i < lens.length) :
    start lens (i + 1) = start lens i + lens[i] := by
  unfold start
  rw [List.take_succ_eq_append_getElem h, List.sum_append, List.sum_singleton]

theorem start_length (lens : List Nat) : start lens lens.length = lens.sum := by
  simp [start]

theorem start_mono {lens : List Nat} {i j : Nat} (h : i ≤ j) : start lens i ≤ start lens j := by
  obtain ⟨k, rfl⟩ := Nat.exists_eq_add_of_le h
  unfold start
  rw [List.take_add, List.sum_append]
  exact Nat.le_add_right _ _

theorem start_le_sum (lens : List Nat) (i : Nat) : start lens i ≤ lens.sum := by
  rcases Nat.le_total i lens.length with h | h
  · rw [← start_length]
    exact start_mono h
  · simp [start, List.take_of_length_le h]

/-- A span ends before any later one starts. -/
theorem span_end_le {lens : List Nat} {i j : Nat} (hi : i < lens.length) (h : i < j) :
    start lens i + lens[i] ≤ start lens j := by
  rw [← start_succ hi]
  exact start_mono h

theorem span_end_le_sum {lens : List Nat} {i : Nat} (hi : i < lens.length) :
    start lens i + lens[i] ≤ lens.sum := by
  rw [← start_succ hi]
  exact start_le_sum lens (i + 1)

/-- Two spans never meet. -/
theorem spans_disjoint {lens : List Nat} {i j : Nat} (hi : i < lens.length)
    (hj : j < lens.length) (h : i ≠ j) :
    start lens i + lens[i] ≤ start lens j ∨ start lens j + lens[j] ≤ start lens i := by
  rcases Nat.lt_or_gt_of_ne h with h | h
  · exact Or.inl (span_end_le hi h)
  · exact Or.inr (span_end_le hj h)

/-- The first `i + 1` spans are the first `i` and then span `i`. -/
theorem take_start_succ (l : List α) {lens : List Nat} {i : Nat} (h : i < lens.length) :
    l.take (start lens (i + 1)) = l.take (start lens i) ++ slice l (start lens i) lens[i] := by
  rw [start_succ h, take_add_slice]

/-- Every position lies in a span. -/
theorem exists_span {lens : List Nat} {pos : Nat} (h : pos < lens.sum) :
    ∃ i, ∃ hi : i < lens.length, start lens i ≤ pos ∧ pos < start lens i + lens[i] := by
  induction lens generalizing pos with
  | nil => cases h
  | cons len lens ih =>
    by_cases hfirst : pos < len
    · exact ⟨0, Nat.succ_pos _, Nat.zero_le _, by simpa [start] using hfirst⟩
    · have hle := Nat.le_of_not_lt hfirst
      rw [List.sum_cons] at h
      have hrest : pos - len < lens.sum := by omega
      obtain ⟨i, hi, hfrom, hto⟩ := ih hrest
      refine ⟨i + 1, Nat.succ_lt_succ hi, ?_, ?_⟩
      · simp only [start, List.take_succ_cons, List.sum_cons] at hfrom ⊢
        omega
      · simp only [start, List.take_succ_cons, List.sum_cons, List.getElem_cons_succ] at hto ⊢
        omega

/-- What is put together from pieces shows each of them at the span of its length. -/
theorem slice_flatten (pieces : List (List α)) {i : Nat} (h : i < pieces.length) :
    slice pieces.flatten (start (pieces.map List.length) i) pieces[i].length = pieces[i] := by
  induction pieces generalizing i with
  | nil => cases h
  | cons piece pieces ih =>
    cases i with
    | zero => simp [slice]
    | succ i =>
      have hpiece := ih (Nat.lt_of_succ_lt_succ h)
      rw [slice] at hpiece ⊢
      rw [List.map_cons, start, List.take_succ_cons, List.sum_cons, List.flatten_cons,
        List.drop_length_add_append]
      exact hpiece

/-- A list that shows every piece at the span of its length begins with all of them. -/
theorem take_sum_eq_flatten (l : List α) (pieces : List (List α))
    (h : ∀ (i : Nat) (hi : i < pieces.length),
      slice l (start (pieces.map List.length) i) pieces[i].length = pieces[i]) :
    l.take (pieces.map List.length).sum = pieces.flatten := by
  induction pieces generalizing l with
  | nil => rfl
  | cons piece pieces ih =>
    have hfirst : l.take piece.length = piece := h 0 (Nat.succ_pos _)
    have hrest := ih (l.drop piece.length) fun i hi => by
      have hpiece := h (i + 1) (by simpa using hi)
      rw [slice, List.map_cons, start, List.take_succ_cons, List.sum_cons] at hpiece
      rw [slice, List.drop_drop]
      exact hpiece
    rw [List.map_cons, List.sum_cons, List.take_add, hfirst, hrest, List.flatten_cons]

end Tiling
