import Mathlib.Data.List.Basic

/-!
# Windows of a growing array

A byte store that is read and written by offset: `slice l off len` is the window
a read returns, `overwrite z l off b` the array after `b` is written at `off`.
A write past the end fills the gap with `z`; no write shortens the array. The
frame facts say which windows a write leaves alone.
-/

namespace Slices

variable {α : Type}

/-- The window `[off, off + len)`, cut short where the array ends. -/
def slice (l : List α) (off len : Nat) : List α := (l.drop off).take len

/-- Write `b` at `off`, growing the array with `z` where it is too short. -/
def overwrite (z : α) (l : List α) (off : Nat) (b : List α) : List α :=
  l.take off ++ List.replicate (off - l.length) z ++ b ++ l.drop (off + b.length)

/-! ## Lengths -/

theorem length_slice (l : List α) (off len : Nat) :
    (slice l off len).length = min len (l.length - off) := by
  simp [slice]

theorem length_slice_of_le {l : List α} {off len : Nat} (h : off + len ≤ l.length) :
    (slice l off len).length = len := by
  rw [length_slice]
  omega

theorem length_overwrite (z : α) (l : List α) (off : Nat) (b : List α) :
    (overwrite z l off b).length = max l.length (off + b.length) := by
  simp only [overwrite, List.length_append, List.length_take, List.length_replicate,
    List.length_drop]
  omega

theorem le_length_overwrite (z : α) (l : List α) (off : Nat) (b : List α) :
    l.length ≤ (overwrite z l off b).length := by
  rw [length_overwrite]
  exact Nat.le_max_left _ _

/-! ## Prefixes and windows -/

theorem take_add_slice (l : List α) (off len : Nat) :
    l.take (off + len) = l.take off ++ slice l off len :=
  List.take_add

theorem slice_take {l : List α} {off len n : Nat} (h : off + len ≤ n) :
    slice (l.take n) off len = slice l off len := by
  unfold slice
  rw [List.drop_take, List.take_take, Nat.min_eq_left (by omega)]

/-- A window is known once a prefix that covers it is. -/
theorem slice_congr_take {l l' : List α} {off len n : Nat} (hn : l.take n = l'.take n)
    (h : off + len ≤ n) : slice l off len = slice l' off len := by
  rw [← slice_take h, hn, slice_take h]

theorem slice_zero_length (l : List α) : slice l 0 l.length = l := by
  simp [slice]

theorem take_slice (l : List α) (off len n : Nat) :
    (slice l off len).take n = slice l off (min n len) := by
  simp [slice, List.take_take]

theorem drop_slice (l : List α) (off len n : Nat) :
    (slice l off len).drop n = slice l (off + n) (len - n) := by
  simp [slice, List.drop_take, List.drop_drop]

theorem slice_slice (l : List α) (off len off' len' : Nat) :
    slice (slice l off len) off' len' = slice l (off + off') (min len' (len - off')) := by
  show ((slice l off len).drop off').take len' = _
  rw [drop_slice, take_slice]

theorem slice_append_slice (l : List α) (off m n : Nat) :
    slice l off m ++ slice l (off + m) n = slice l off (m + n) := by
  unfold slice
  rw [List.take_add, List.drop_drop]

/-! ## Writing -/

theorem getElem?_overwrite (z : α) (l : List α) (off : Nat) (b : List α) (i : Nat) :
    (overwrite z l off b)[i]? =
      if i < off then (if i < l.length then l[i]? else some z)
      else if i < off + b.length then b[i - off]? else l[i]? := by
  have hlen : (l.take off ++ List.replicate (off - l.length) z).length = off := by
    simp only [List.length_append, List.length_take, List.length_replicate]
    omega
  unfold overwrite
  by_cases h₁ : i < off
  · rw [if_pos h₁, List.append_assoc, List.getElem?_append_left (by omega)]
    by_cases h₂ : i < l.length
    · rw [if_pos h₂, List.getElem?_append_left (by simp; omega), List.getElem?_take_of_lt h₁]
    · rw [if_neg h₂, List.getElem?_append_right (by simp; omega)]
      simp only [List.length_take]
      rw [List.getElem?_replicate, if_pos (by omega)]
  · rw [if_neg h₁, List.append_assoc, List.getElem?_append_right (by omega), hlen]
    by_cases h₂ : i < off + b.length
    · rw [if_pos h₂, List.getElem?_append_left (by omega)]
    · rw [if_neg h₂, List.getElem?_append_right (by omega), List.getElem?_drop]
      congr 1
      omega

/-- A write of nothing changes an array only if it starts past the end. -/
theorem overwrite_nil_eq_iff (z : α) (l : List α) (off : Nat) :
    overwrite z l off [] = l ↔ off ≤ l.length := by
  constructor
  · intro h
    have hlen := congrArg List.length h
    rw [length_overwrite] at hlen
    have hle : off + ([] : List α).length ≤ l.length := Nat.le_trans (Nat.le_max_right _ _)
      (Nat.le_of_eq hlen)
    exact hle
  · intro h
    have hgap : off - l.length = 0 := Nat.sub_eq_zero_of_le h
    rw [overwrite, hgap]
    simp

/-- What is read back where something was just written. -/
theorem slice_overwrite_self (z : α) (l : List α) (off : Nat) (b : List α) :
    slice (overwrite z l off b) off b.length = b := by
  apply List.ext_getElem?
  intro i
  unfold slice
  by_cases hi : i < b.length
  · rw [List.getElem?_take_of_lt hi, List.getElem?_drop, getElem?_overwrite,
      if_neg (by omega), if_pos (by omega)]
    congr 1
    omega
  · rw [List.getElem?_take_eq_none (by omega), List.getElem?_eq_none (by omega)]

/-- A write leaves a window of the old array alone that it does not meet. -/
theorem slice_overwrite_disjoint (z : α) {l : List α} {off off' len' : Nat} (b : List α)
    (hd : off' + len' ≤ off ∨ off + b.length ≤ off') (hl : off' + len' ≤ l.length) :
    slice (overwrite z l off b) off' len' = slice l off' len' := by
  apply List.ext_getElem?
  intro i
  unfold slice
  by_cases hi : i < len'
  · rw [List.getElem?_take_of_lt hi, List.getElem?_take_of_lt hi, List.getElem?_drop,
      List.getElem?_drop, getElem?_overwrite]
    rcases hd with hd | hd
    · rw [if_pos (by omega), if_pos (by omega)]
    · rw [if_neg (by omega), if_neg (by omega)]
  · rw [List.getElem?_take_eq_none (by omega), List.getElem?_take_eq_none (by omega)]

/-- A write changes nothing behind it. -/
theorem drop_overwrite (z : α) (l : List α) {off n : Nat} (b : List α) (h : off + b.length ≤ n) :
    (overwrite z l off b).drop n = l.drop n := by
  apply List.ext_getElem?
  intro i
  rw [List.getElem?_drop, List.getElem?_drop, getElem?_overwrite, if_neg (by omega),
    if_neg (by omega)]

theorem take_overwrite (z : α) {l : List α} {off n : Nat} (b : List α) (ho : n ≤ off)
    (hl : n ≤ l.length) : (overwrite z l off b).take n = l.take n := by
  have hd : 0 + n ≤ off ∨ off + b.length ≤ 0 := Or.inl (by omega)
  have hn : 0 + n ≤ l.length := by omega
  simpa [slice] using slice_overwrite_disjoint z b hd hn

end Slices
