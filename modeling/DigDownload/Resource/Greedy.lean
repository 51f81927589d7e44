import DigDownload.Resource.Plan

/-!
# The plan is greedy

A range takes whole chunks for as long as they fit into the window. What stops it is the
end of the resource, or a chunk that would take it over the window: so no range but the
last could be extended, and a range over the window holds one chunk with bytes in it,
after which it takes nothing more, not even an empty chunk.
-/

namespace DigDownload

open Tiling

/-- The lengths of the chunks that a range is made of. -/
def Range.chunkLens (r : Range) (lens : List Nat) : List Nat :=
  (lens.drop r.chunkStart).take (r.chunkEnd - r.chunkStart)

/-- `ranges` cuts the chunks into consecutive intervals, packed greedily into ranges of at
most the window. -/
structure GreedyTiling (lens : List Nat) (window : Nat) (ranges : List Range) : Prop where
  index : ∀ (j : Nat) (hj : j < ranges.length), ranges[j].index = j
  eq_nil : ranges = [] ↔ lens = []
  first : ∀ hj : 0 < ranges.length, ranges[0].chunkStart = 0
  next : ∀ (j : Nat) (hj : j + 1 < ranges.length), ranges[j + 1].chunkStart = ranges[j].chunkEnd
  last : ∀ hne : ranges ≠ [], (ranges.getLast hne).chunkEnd = lens.length
  nonempty : ∀ r ∈ ranges, r.chunkStart < r.chunkEnd ∧ r.chunkEnd ≤ lens.length
  offset : ∀ r ∈ ranges, r.offset = (lens.take r.chunkStart).sum
  length : ∀ r ∈ ranges, r.length = (r.chunkLens lens).sum
  tiles : ∀ (j : Nat) (hj : j < ranges.length),
    ranges[j].offset = ((ranges.take j).map (·.length)).sum
  covers : (ranges.map (·.length)).sum = lens.sum
  oversized : ∀ r ∈ ranges, max window 1 < r.length → (r.chunkLens lens).countP (0 < ·) = 1
  maximal : ∀ (j : Nat) (hj : j + 1 < ranges.length),
    ∃ clen, lens[ranges[j].chunkEnd]? = some clen ∧ max window 1 < ranges[j].length + clen

/-! ## One range -/

section Pack

variable {window length clen : Nat} {lens : List Nat}

theorem packWindow_of_full (hfits : length + (clen :: lens).sum ≤ u64Max)
    (hfull : 0 < length ∧ window < length + clen) :
    packWindow window length (clen :: lens) = (length, 0) := by
  have hsat : saturatingAdd length clen = length + clen := by
    rw [List.sum_cons] at hfits
    unfold saturatingAdd
    omega
  rw [packWindow, hsat, if_pos hfull]

theorem packWindow_of_room (hfits : length + (clen :: lens).sum ≤ u64Max)
    (hroom : ¬ (0 < length ∧ window < length + clen)) :
    packWindow window length (clen :: lens)
      = ((packWindow window (length + clen) lens).1,
          (packWindow window (length + clen) lens).2 + 1) := by
  have hsat : saturatingAdd length clen = length + clen := by
    rw [List.sum_cons] at hfits
    unfold saturatingAdd
    omega
  rw [packWindow, hsat, if_neg hroom]

theorem fits_tail (hfits : length + (clen :: lens).sum ≤ u64Max) :
    length + clen + lens.sum ≤ u64Max := by
  rwa [List.sum_cons, ← Nat.add_assoc] at hfits

/-- What stops a range short of the last chunk is a chunk that would take it over. -/
theorem packWindow_stops (hfits : length + lens.sum ≤ u64Max)
    (h : (packWindow window length lens).2 < lens.length) :
    window < (packWindow window length lens).1 + lens[(packWindow window length lens).2] := by
  induction lens generalizing length with
  | nil => simp at h
  | cons clen lens ih =>
    by_cases hfull : 0 < length ∧ window < length + clen
    · simp only [packWindow_of_full hfits hfull]
      exact hfull.2
    · simp only [packWindow_of_room hfits hfull] at h ⊢
      exact ih (fits_tail hfits) (Nat.lt_of_succ_lt_succ h)

/-- A range over the window takes no more chunks. -/
theorem packWindow_of_over (hfits : length + lens.sum ≤ u64Max) (hpos : 0 < length)
    (hover : window < length) : packWindow window length lens = (length, 0) := by
  cases lens with
  | nil => rfl
  | cons clen lens =>
    exact packWindow_of_full hfits ⟨hpos, Nat.lt_of_lt_of_le hover (Nat.le_add_right _ _)⟩

/-- A range with bytes in it is not taken over the window. -/
theorem packWindow_le (hfits : length + lens.sum ≤ u64Max) (hpos : 0 < length)
    (hle : length ≤ window) : (packWindow window length lens).1 ≤ window := by
  induction lens generalizing length with
  | nil => exact hle
  | cons clen lens ih =>
    by_cases hfull : 0 < length ∧ window < length + clen
    · rw [packWindow_of_full hfits hfull]
      exact hle
    · rw [packWindow_of_room hfits hfull]
      exact ih (fits_tail hfits) (by omega) (by omega)

/-- A range over the window holds one chunk with bytes in it. -/
theorem packWindow_oversized (hfits : lens.sum ≤ u64Max)
    (hover : window < (packWindow window 0 lens).1) :
    (lens.take (packWindow window 0 lens).2).countP (0 < ·) = 1 := by
  induction lens with
  | nil => simp [packWindow] at hover
  | cons clen lens ih =>
    have hfits' : 0 + (clen :: lens).sum ≤ u64Max := by rwa [Nat.zero_add]
    have hroom : ¬ (0 < 0 ∧ window < 0 + clen) := fun h => Nat.lt_irrefl 0 h.1
    have htail := fits_tail hfits'
    rw [packWindow_of_room hfits' hroom] at hover ⊢
    rw [Nat.zero_add] at hover htail ⊢
    rw [List.take_succ_cons]
    cases Nat.eq_zero_or_pos clen with
    | inl hempty =>
      subst hempty
      rw [List.countP_cons_of_neg (by simp)]
      exact ih (by omega) hover
    | inr hpos =>
      by_cases hlarge : window < clen
      · -- an oversized chunk: nothing follows it
        rw [packWindow_of_over htail hpos hlarge]
        simp [hpos]
      · have := packWindow_le htail hpos (Nat.le_of_not_lt hlarge)
        exact absurd hover (Nat.not_lt.mpr this)

end Pack

/-! ## Consecutive intervals -/

namespace Consecutive

variable {lens : List Nat} {i index : Nat} {ranges : List Range}

theorem first (h : Consecutive lens i index ranges) (hj : 0 < ranges.length) :
    ranges[0].chunkStart = i := by
  cases h with
  | nil => cases hj
  | cons => rfl

theorem next (h : Consecutive lens i index ranges) :
    ∀ (j : Nat) (hj : j + 1 < ranges.length),
      ranges[j + 1].chunkStart = ranges[j].chunkEnd := by
  induction h with
  | nil => exact fun j hj => absurd hj (Nat.not_lt_zero _)
  | @cons r rs _ _ _ _ _ rest ih =>
    intro j hj
    cases j with
    | zero => exact rest.first (Nat.lt_of_succ_lt_succ hj)
    | succ j => exact ih j (Nat.lt_of_succ_lt_succ hj)

theorem last (h : Consecutive lens i index ranges) :
    ∀ hne : ranges ≠ [], (ranges.getLast hne).chunkEnd = lens.length := by
  induction h with
  | nil => exact fun hne => absurd rfl hne
  | @cons r rs _ hle _ _ _ rest ih =>
    intro hne
    cases rs with
    | nil => exact Nat.le_antisymm hle (rest.eq_nil.mp rfl)
    | cons r' rs =>
      rw [List.getLast_cons (List.cons_ne_nil r' rs)]
      exact ih (List.cons_ne_nil r' rs)

end Consecutive

/-! ## The plan -/

/-- The range is packed greedily. -/
structure Packed (lens : List Nat) (window : Nat) (r : Range) : Prop where
  length : r.length = (r.chunkLens lens).sum
  oversized : window < r.length → (r.chunkLens lens).countP (0 < ·) = 1
  maximal : ∀ h : r.chunkEnd < lens.length, window < r.length + lens[r.chunkEnd]

theorem planFrom_packed (l : ChunkLayout) (window left i index : Nat) :
    ∀ r ∈ planFrom l window left i index, Packed l.chunkLens window r := by
  induction left generalizing i index with
  | zero => simp [planFrom]
  | succ left ih =>
    intro r hr
    rw [planFrom] at hr
    split at hr
    · cases hr
    · cases hr with
      | tail _ hr => exact ih _ _ r hr
      | head =>
        have hfits : (l.chunkLens.drop i).sum ≤ u64Max := by
          have hsplit : l.chunkLens.sum
              = (l.chunkLens.take i).sum + (l.chunkLens.drop i).sum := by
            rw [← List.sum_append, List.take_append_drop]
          have := l.fits
          omega
        have hfits' : 0 + (l.chunkLens.drop i).sum ≤ u64Max := by rwa [Nat.zero_add]
        constructor
        · have hlength : (packWindow window 0 (l.chunkLens.drop i)).1 = _ :=
            packWindow_length hfits'
          simpa [Range.chunkLens] using hlength
        · intro hover
          simpa [Range.chunkLens] using packWindow_oversized hfits hover
        · intro hmore
          have hleft : (packWindow window 0 (l.chunkLens.drop i)).2
              < (l.chunkLens.drop i).length := by
            rw [List.length_drop]
            exact Nat.lt_sub_of_add_lt (by rwa [Nat.add_comm])
          simpa using packWindow_stops hfits' hleft

theorem planRanges_packed (l : ChunkLayout) (window : Nat) :
    ∀ r ∈ planRanges l window, Packed l.chunkLens (max window 1) r :=
  planFrom_packed l _ _ 0 0

/-- For every layout that `try_new` accepts and every window, `plan_ranges` is an exact
greedy tiling. -/
theorem greedyTiling_of_tryNew {lens : List Nat} {reserve : Nat → Option String}
    {l : ChunkLayout} (h : ChunkLayout.tryNew lens reserve = .ok l) (window : Nat) :
    GreedyTiling lens window (planRanges l window) ∧
      ((planRanges l window).map (·.length)).sum = l.totalLength := by
  obtain rfl := ChunkLayout.tryNew_ok h
  have hplan := planRanges_consecutive l window
  have hpacked := planRanges_packed l window
  refine ⟨?_, planRanges_sum⟩
  constructor
  · intro j hj
    exact planRanges_index hj
  · exact planRanges_eq_nil
  · exact hplan.first
  · exact hplan.next
  · exact hplan.last
  · intro r hr
    exact ⟨(hplan.chunks r hr).1, (hplan.chunks r hr).2.1⟩
  · intro r hr
    exact (hplan.chunks r hr).2.2.1
  · intro r hr
    exact (hpacked r hr).length
  · intro j hj
    rw [planRanges_offset hj, start, rangeLens, List.map_take]
  · rw [← l.totalLength_eq]
    exact planRanges_sum
  · intro r hr
    exact (hpacked r hr).oversized
  · intro j hj
    have hmore : (planRanges l window)[j].chunkEnd < l.chunkLens.length := by
      obtain ⟨hlt, hle, -⟩ := hplan.chunks _ (List.getElem_mem hj)
      rw [hplan.next j hj] at hlt
      exact Nat.lt_of_lt_of_le hlt hle
    have hr : (planRanges l window)[j] ∈ planRanges l window := List.getElem_mem _
    exact ⟨_, List.getElem?_eq_getElem hmore, (hpacked _ hr).maximal hmore⟩

/-- Empty chunks before, between and after two that are larger than the window. -/
theorem greedyTiling_of_empty_chunks :
    ∃ l, ChunkLayout.tryNew [0, 5, 0, 0, 7, 0] (fun _ => none) = .ok l ∧
      GreedyTiling [0, 5, 0, 0, 7, 0] 0 (planRanges l 0) ∧
      ((planRanges l 0).map (·.length)).sum = l.totalLength := by
  obtain ⟨l, hl, -⟩ : ∃ l, ChunkLayout.tryNew [0, 5, 0, 0, 7, 0] (fun _ => none) = .ok l ∧
      l.chunkLens = [0, 5, 0, 0, 7, 0] :=
    ChunkLayout.tryNew_of_le (by decide) (by decide) rfl
  exact ⟨l, hl, greedyTiling_of_tryNew hl 0⟩

end DigDownload
