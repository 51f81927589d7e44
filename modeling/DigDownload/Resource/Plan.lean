import DigDownload.Basic

/-!
# The ranges of a resource

A resource is a sequence of chunks, and a layout says where each of them lies. The
planner packs whole chunks greedily into ranges of at most a window; a chunk larger
than the window is a range of its own. The ranges of a plan are consecutive spans that
tile the resource, and only the last of them can be empty.
-/

namespace DigDownload

open Tiling

/-- The bound on the number of chunks a layout may declare. -/
def maxResourceChunkCount : Nat := 1024 * 1024

/-! ## The chunk layout -/

/-- The ends of consecutive chunks, summed with checked additions. -/
def pushEnds : Nat → List Nat → Option (List Nat)
  | _, [] => some []
  | acc, len :: lens => do
      let acc' ← checkedAdd acc len
      let ends ← pushEnds acc' lens
      some (acc' :: ends)

theorem pushEnds_eq_some {acc : Nat} {lens ends : List Nat} (h : pushEnds acc lens = some ends) :
    acc + lens.sum ≤ max acc u64Max ∧
      ends = (List.range lens.length).map fun i => acc + start lens (i + 1) := by
  induction lens generalizing acc ends with
  | nil =>
    simp only [pushEnds, Option.some.injEq] at h
    subst h
    exact ⟨Nat.le_max_left _ _, rfl⟩
  | cons len lens ih =>
    simp only [pushEnds, Option.bind_eq_bind, Option.bind_eq_some_iff, Option.some.injEq] at h
    obtain ⟨acc', hacc, rest, hrest, rfl⟩ := h
    obtain ⟨hle, rfl⟩ := checkedAdd_eq_some.mp hacc
    obtain ⟨hsum, rfl⟩ := ih hrest
    constructor
    · rw [List.sum_cons]
      omega
    · rw [List.length_cons, List.range_succ_eq_map, List.map_cons, List.map_map]
      congr 1
      apply List.map_congr_left
      intro i _
      simp [start, Nat.add_assoc]

theorem pushEnds_of_le {acc : Nat} {lens : List Nat} (h : acc + lens.sum ≤ u64Max) :
    ∃ ends, pushEnds acc lens = some ends := by
  induction lens generalizing acc with
  | nil => exact ⟨[], rfl⟩
  | cons len lens ih =>
    rw [List.sum_cons, ← Nat.add_assoc] at h
    obtain ⟨rest, hrest⟩ := ih h
    refine ⟨(acc + len) :: rest, ?_⟩
    simp [pushEnds, checkedAdd_of_le (Nat.le_trans (Nat.le_add_right _ _) h), hrest]

/-- The boundaries of the chunks of a resource: `offsets` has one entry more than there are
chunks, the last of which is the length of the resource. -/
structure ChunkLayout where
  chunkLens : List Nat
  offsets : List Nat
  offsets_eq : offsets = (List.range (chunkLens.length + 1)).map (start chunkLens)
  fits : chunkLens.sum ≤ u64Max
  deriving DecidableEq

namespace ChunkLayout

def chunkCount (l : ChunkLayout) : Nat := l.chunkLens.length

def totalLength (l : ChunkLayout) : Nat := l.offsets.getLastD 0

def chunkOffset (l : ChunkLayout) (index : Nat) : Option Nat := l.offsets[index]?

def chunkLen (l : ChunkLayout) (index : Nat) : Option Nat := l.chunkLens[index]?

/-- `ChunkLayout::try_new`: the layout of untrusted lengths. `reserve` is what the
allocator answers when asked for room for that many offsets. -/
def tryNew (chunkLens : List Nat) (reserve : Nat → Option String) :
    Except VerifyError ChunkLayout :=
  if maxResourceChunkCount < chunkLens.length then
    .error (.metadata (s!"declared chunk_lens count {chunkLens.length} exceeds the maximum " ++
      s!"{maxResourceChunkCount}"))
  else
    match reserve (chunkLens.length + 1) with
    | some reason =>
        .error (.metadata (s!"cannot allocate a {chunkLens.length + 1}-entry chunk layout: " ++
          reason))
    | none =>
        match h : pushEnds 0 chunkLens with
        | none =>
            .error (.metadata "chunk_lens cumulative length overflows u64 (hostile metadata)")
        | some ends =>
            .ok {
              chunkLens
              offsets := 0 :: ends
              offsets_eq := by
                rw [List.range_succ_eq_map, List.map_cons, List.map_map, (pushEnds_eq_some h).2]
                congr 1
                apply List.map_congr_left
                intro i _
                simp
              fits := by simpa using (pushEnds_eq_some h).1 }

/-- The chunks that a window of bytes covers, if it starts and ends at chunk boundaries:
the first boundary at either place. -/
def chunksForRange (l : ChunkLayout) (offset length : Nat) : Except VerifyError (Nat × Nat) :=
  let stop := saturatingAdd offset length
  match l.offsets.findIdx? (· = offset) with
  | none => .error (.alignment s!"offset {offset} is not a chunk boundary")
  | some startIdx =>
      match l.offsets.findIdx? (· = stop) with
      | none => .error (.alignment s!"end {stop} is not a chunk boundary")
      | some endIdx =>
          if endIdx < startIdx then
            .error (.alignment s!"range end {stop} precedes start {offset}")
          else
            .ok (startIdx, endIdx)

section Layout

variable {l : ChunkLayout} {i : Nat}

@[simp] theorem length_offsets (l : ChunkLayout) : l.offsets.length = l.chunkLens.length + 1 := by
  simp [l.offsets_eq]

theorem getElem?_offsets (h : i ≤ l.chunkCount) : l.offsets[i]? = some (start l.chunkLens i) := by
  rw [l.offsets_eq]
  have : i < l.chunkLens.length + 1 := Nat.lt_succ_of_le h
  simp [this]

theorem chunkOffset_of_le (h : i ≤ l.chunkCount) :
    l.chunkOffset i = some (start l.chunkLens i) := getElem?_offsets h

theorem totalLength_eq (l : ChunkLayout) : l.totalLength = l.chunkLens.sum := by
  unfold totalLength
  rw [l.offsets_eq, List.range_succ, List.map_append]
  simp [start_length]

/-- A layout is known by its chunks. -/
theorem eq_of_chunkLens {l l' : ChunkLayout} (h : l.chunkLens = l'.chunkLens) : l = l' := by
  obtain ⟨lens, offsets, heq, _⟩ := l
  obtain ⟨lens', offsets', heq', _⟩ := l'
  obtain rfl : lens = lens' := h
  obtain rfl : offsets = offsets' := heq.trans heq'.symm
  rfl

theorem tryNew_ok {lens : List Nat} {reserve : Nat → Option String}
    (h : tryNew lens reserve = .ok l) : l.chunkLens = lens := by
  unfold tryNew at h
  split at h
  · cases h
  split at h
  · cases h
  split at h
  · cases h
  · cases h
    rfl

theorem tryNew_of_le {lens : List Nat} {reserve : Nat → Option String}
    (hcount : lens.length ≤ maxResourceChunkCount) (hfits : lens.sum ≤ u64Max)
    (hreserve : reserve (lens.length + 1) = none) :
    ∃ l, tryNew lens reserve = .ok l ∧ l.chunkLens = lens := by
  have hfits' : 0 + lens.sum ≤ u64Max := by rwa [Nat.zero_add]
  obtain ⟨ends, hends⟩ := pushEnds_of_le hfits'
  have hok : ∃ l, tryNew lens reserve = .ok l := by
    unfold tryNew
    rw [if_neg (Nat.not_lt.mpr hcount), hreserve]
    dsimp only
    split
    · rename_i hnone
      rw [hends] at hnone
      cases hnone
    · exact ⟨_, rfl⟩
  obtain ⟨l, hl⟩ := hok
  exact ⟨l, hl, tryNew_ok hl⟩

end Layout

end ChunkLayout

/-! ## The plan -/

/-- A range of whole chunks, fetched as a unit. -/
structure Range where
  index : Nat
  offset : Nat
  length : Nat
  chunkStart : Nat
  chunkEnd : Nat
  deriving DecidableEq, Repr

/-- Take whole chunks while the range stays within the window, the first one whatever its
length: the length taken, and how many chunks. -/
def packWindow (window : Nat) : Nat → List Nat → Nat × Nat
  | length, [] => (length, 0)
  | length, clen :: lens =>
      if 0 < length ∧ window < saturatingAdd length clen then (length, 0)
      else
        let packed := packWindow window (saturatingAdd length clen) lens
        (packed.1, packed.2 + 1)

/-- The ranges from chunk `i` on, with `left` bounding how many are still to come. -/
def planFrom (l : ChunkLayout) (window : Nat) : Nat → Nat → Nat → List Range
  | 0, _, _ => []
  | left + 1, i, index =>
      if l.chunkCount ≤ i then []
      else
        let packed := packWindow window 0 (l.chunkLens.drop i)
        { index
          offset := (l.chunkOffset i).getD 0
          length := packed.1
          chunkStart := i
          chunkEnd := i + packed.2 } :: planFrom l window left (i + packed.2) (index + 1)

/-- `plan_ranges`: partition a resource into ranges of at most the window. -/
def planRanges (l : ChunkLayout) (window : Nat) : List Range :=
  planFrom l (max window 1) l.chunkCount 0 0

/-- The scheduling state of one range. -/
inductive RangeState where
  | pending
  | inFlight (peer : String)
  | done
  deriving DecidableEq, Repr

namespace RangeState

/-- Whether the range still needs work. -/
def isIncomplete : RangeState → Bool
  | done => false
  | _ => true

end RangeState

/-! ## What a plan covers -/

section Pack

variable {window length : Nat} {lens : List Nat}

theorem packWindow_count_le : (packWindow window length lens).2 ≤ lens.length := by
  induction lens generalizing length with
  | nil => simp [packWindow]
  | cons clen lens ih =>
    simp only [packWindow]
    split
    · exact Nat.zero_le _
    · exact Nat.succ_le_succ ih

/-- What is taken is the sum of the chunks taken. -/
theorem packWindow_length (hfits : length + lens.sum ≤ u64Max) :
    (packWindow window length lens).1
      = length + (lens.take (packWindow window length lens).2).sum := by
  induction lens generalizing length with
  | nil => simp [packWindow]
  | cons clen lens ih =>
    rw [List.sum_cons, ← Nat.add_assoc] at hfits
    have hsat : saturatingAdd length clen = length + clen := by
      unfold saturatingAdd
      omega
    simp only [packWindow]
    split
    · simp
    · rw [hsat, ih hfits, List.take_succ_cons, List.sum_cons, Nat.add_assoc]

/-- An empty range takes the next chunk. -/
theorem packWindow_count_pos (h : lens ≠ []) : 0 < (packWindow window 0 lens).2 := by
  cases lens with
  | nil => exact absurd rfl h
  | cons clen lens => simp [packWindow]

/-- A range that leaves chunks for later is not empty. -/
theorem packWindow_length_pos (hfits : length + lens.sum ≤ u64Max)
    (h : (packWindow window length lens).2 < lens.length) :
    0 < (packWindow window length lens).1 := by
  induction lens generalizing length with
  | nil => simp at h
  | cons clen lens ih =>
    rw [List.sum_cons, ← Nat.add_assoc] at hfits
    have hsat : saturatingAdd length clen = length + clen := by
      unfold saturatingAdd
      omega
    simp only [packWindow] at h ⊢
    split at h
    · rename_i hfull
      rw [if_pos hfull]
      exact hfull.1
    · rename_i hroom
      rw [if_neg hroom]
      rw [hsat] at h ⊢
      exact ih hfits (Nat.lt_of_succ_lt_succ h)

end Pack

/-- The list is made of ranges of whole chunks, from chunk `i` to the last one, numbered
from `index` on, and only the last range can be empty. -/
inductive Consecutive (lens : List Nat) : Nat → Nat → List Range → Prop where
  | nil (index : Nat) : Consecutive lens lens.length index []
  | cons {r : Range} {rs : List Range} (hchunks : r.chunkStart < r.chunkEnd)
      (hle : r.chunkEnd ≤ lens.length) (hoffset : r.offset = start lens r.chunkStart)
      (hlength : r.offset + r.length = start lens r.chunkEnd) (hpos : rs ≠ [] → 0 < r.length)
      (rest : Consecutive lens r.chunkEnd (r.index + 1) rs) :
      Consecutive lens r.chunkStart r.index (r :: rs)

theorem planFrom_consecutive (l : ChunkLayout) (window : Nat) :
    ∀ (left i index : Nat), i ≤ l.chunkCount → l.chunkCount ≤ i + left →
      Consecutive l.chunkLens i index (planFrom l window left i index)
  | 0, i, index, hi, hleft => by
      have : i = l.chunkLens.length := Nat.le_antisymm hi hleft
      subst this
      exact .nil index
  | left + 1, i, index, hi, hleft => by
      unfold planFrom
      split
      · rename_i hdone
        have : i = l.chunkLens.length := Nat.le_antisymm hi hdone
        subst this
        exact .nil index
      rename_i hmore
      have hi' : i < l.chunkLens.length := Nat.lt_of_not_le hmore
      have hfits : 0 + (l.chunkLens.drop i).sum ≤ u64Max := by
        have hsplit : l.chunkLens.sum = (l.chunkLens.take i).sum + (l.chunkLens.drop i).sum := by
          rw [← List.sum_append, List.take_append_drop]
        have := l.fits
        omega
      have hne : l.chunkLens.drop i ≠ [] := by simpa using hi'
      have hcount : (packWindow window 0 (l.chunkLens.drop i)).2 ≤ (l.chunkLens.drop i).length :=
        packWindow_count_le
      rw [List.length_drop] at hcount
      have hpos : 0 < (packWindow window 0 (l.chunkLens.drop i)).2 := packWindow_count_pos hne
      have hlength : (packWindow window 0 (l.chunkLens.drop i)).1
          = 0 + ((l.chunkLens.drop i).take (packWindow window 0 (l.chunkLens.drop i)).2).sum :=
        packWindow_length hfits
      rw [Nat.zero_add] at hlength
      dsimp only
      refine .cons (r := ⟨_, _, _, _, _⟩) (Nat.lt_add_of_pos_right hpos) (by dsimp only; omega)
        (by dsimp only; rw [l.chunkOffset_of_le hi]; rfl) ?_ ?_ ?_
      · dsimp only
        rw [l.chunkOffset_of_le hi, hlength]
        simp only [Option.getD_some, start]
        rw [List.take_add, List.sum_append]
      · intro hrest
        refine packWindow_length_pos hfits ?_
        rw [List.length_drop]
        by_contra hlast
        apply hrest
        have hend : l.chunkCount ≤ i + (packWindow window 0 (l.chunkLens.drop i)).2 := by
          show l.chunkLens.length ≤ _
          omega
        cases left with
        | zero => rfl
        | succ left =>
          unfold planFrom
          exact if_pos hend
      · have hcc : l.chunkCount = l.chunkLens.length := rfl
        exact planFrom_consecutive l window left
          (i + (packWindow window 0 (l.chunkLens.drop i)).2) (index + 1) (by omega) (by omega)

theorem planRanges_consecutive (l : ChunkLayout) (window : Nat) :
    Consecutive l.chunkLens 0 0 (planRanges l window) :=
  planFrom_consecutive l _ _ 0 0 (Nat.zero_le _) (by omega)

/-- The lengths of the ranges, which tile the resource. -/
def rangeLens (ranges : List Range) : List Nat := ranges.map (·.length)

namespace Consecutive

variable {lens : List Nat} {i index j : Nat} {ranges : List Range}

theorem index_eq (h : Consecutive lens i index ranges) :
    ∀ (j : Nat) (hj : j < ranges.length), ranges[j].index = index + j := by
  induction h with
  | nil => exact fun j hj => absurd hj (Nat.not_lt_zero j)
  | @cons r rs _ _ _ _ _ _ ih =>
    intro j hj
    cases j with
    | zero => rfl
    | succ j =>
      rw [List.getElem_cons_succ, ih j (Nat.lt_of_succ_lt_succ hj)]
      omega

/-- The ranges are the spans of the tiling. -/
theorem offset_eq (h : Consecutive lens i index ranges) :
    ∀ (j : Nat) (hj : j < ranges.length),
      ranges[j].offset = start lens i + start (rangeLens ranges) j := by
  induction h with
  | nil => exact fun j hj => absurd hj (Nat.not_lt_zero j)
  | @cons r rs _ _ hoffset hlength _ _ ih =>
    intro j hj
    cases j with
    | zero => simpa using hoffset
    | succ j =>
      rw [List.getElem_cons_succ, ih j (Nat.lt_of_succ_lt_succ hj), ← hlength, hoffset]
      simp [start, rangeLens, Nat.add_assoc]

theorem sum_eq (h : Consecutive lens i index ranges) :
    start lens i + (rangeLens ranges).sum = lens.sum := by
  induction h with
  | nil => simp [rangeLens, start_length]
  | @cons r rs _ _ hoffset hlength _ _ ih =>
    rw [← hlength] at ih
    rw [← ih, hoffset]
    simp [rangeLens, Nat.add_assoc]

/-- Every range is made of whole chunks. -/
theorem chunks (h : Consecutive lens i index ranges) :
    ∀ r ∈ ranges, r.chunkStart < r.chunkEnd ∧ r.chunkEnd ≤ lens.length ∧
      r.offset = start lens r.chunkStart ∧ r.offset + r.length = start lens r.chunkEnd := by
  induction h with
  | nil => simp
  | @cons r rs hchunks hle hoffset hlength _ _ ih =>
    intro r' hr'
    cases hr' with
    | head => exact ⟨hchunks, hle, hoffset, hlength⟩
    | tail _ hr' => exact ih r' hr'

/-- A range that another one follows is not empty. -/
theorem length_pos (h : Consecutive lens i index ranges) :
    ∀ (j : Nat) (hlt : j < ranges.length), j + 1 < ranges.length → 0 < ranges[j].length := by
  induction h with
  | nil => exact fun j hlt _ => absurd hlt (Nat.not_lt_zero j)
  | @cons r rs _ _ _ _ hpos _ ih =>
    intro j hlt hj
    cases j with
    | zero =>
      refine hpos ?_
      rintro rfl
      simp at hj
    | succ j => exact ih j (Nat.lt_of_succ_lt_succ hlt) (Nat.lt_of_succ_lt_succ hj)

theorem eq_nil (h : Consecutive lens i index ranges) : ranges = [] ↔ lens.length ≤ i := by
  cases h with
  | nil => simp
  | cons hchunks hle => simpa using Nat.lt_of_lt_of_le hchunks hle

end Consecutive

section Planned

variable {l : ChunkLayout} {window j : Nat}

theorem planRanges_index (hj : j < (planRanges l window).length) :
    (planRanges l window)[j].index = j := by
  simpa using (planRanges_consecutive l window).index_eq j hj

theorem planRanges_offset (hj : j < (planRanges l window).length) :
    (planRanges l window)[j].offset = start (rangeLens (planRanges l window)) j := by
  simpa using (planRanges_consecutive l window).offset_eq j hj

theorem planRanges_sum : (rangeLens (planRanges l window)).sum = l.totalLength := by
  rw [l.totalLength_eq]
  simpa using (planRanges_consecutive l window).sum_eq

theorem planRanges_eq_nil : planRanges l window = [] ↔ l.chunkLens = [] := by
  simpa using (planRanges_consecutive l window).eq_nil

end Planned

end DigDownload
