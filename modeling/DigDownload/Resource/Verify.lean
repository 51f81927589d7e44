import Mathlib.Data.List.AList
import DigDownload.Lib.Slices
import DigDownload.Resource.Plan

/-!
# What a resource is verified against

A commitment is the layout that a holder declared, with the root and the proof it gave.
Adopting it checks only that it is consistent; a fetched range is checked against it for
its length and its alignment, and the whole resource by its hash, which is computed as
the ranges arrive, in whatever order they do.
-/

namespace DigDownload

open Tiling Slices

/-! ## The commitment -/

/-- The shape of a resource as one holder declared it. -/
structure ResourceCommitment where
  layout : ChunkLayout
  totalLength : Nat
  root : Option String
  inclusionProof : Option String
  total : layout.totalLength = totalLength
  deriving DecidableEq

namespace ResourceCommitment

/-- Build a commitment from declared metadata: bounded, and consistent. -/
def fromFirstFrameBounded (totalLength : Nat) (chunkLens : List Nat)
    (root inclusionProof : Option String) (maxResourceSize : Nat)
    (reserve : Nat → Option String) : Except VerifyError ResourceCommitment :=
  if maxResourceSize < totalLength then
    .error (.metadata
      s!"declared total_length {totalLength} exceeds the maximum {maxResourceSize}")
  else
    match ChunkLayout.tryNew chunkLens reserve with
    | .error e => .error e
    | .ok layout =>
        if h : layout.totalLength = totalLength then
          .ok { layout, totalLength, root, inclusionProof, total := h }
        else
          .error (.metadata
            s!"chunk_lens sum {layout.totalLength} != total_length {totalLength}")

/-- Check what a range's first frame declares against the commitment. -/
def checkConsistent (c : ResourceCommitment) (totalLength : Option Nat)
    (chunkLens : Option (List Nat)) (root : Option String) : Except VerifyError Unit :=
  match totalLength.filter (· ≠ c.totalLength) with
  | some t => .error (.metadata s!"total_length {t} != committed {c.totalLength}")
  | none =>
      if (chunkLens.filter (· ≠ c.layout.chunkLens)).isSome then
        .error (.metadata "chunk_lens differ")
      else
        match root, c.root with
        | some r, some committed =>
            if r ≠ committed then .error (.metadata s!"root {r} != committed {committed}")
            else .ok ()
        | _, _ => .ok ()

variable {c : ResourceCommitment} {total max : Nat} {lens : List Nat} {root proof : Option String}
  {reserve : Nat → Option String}

theorem fromFirstFrameBounded_ok
    (h : fromFirstFrameBounded total lens root proof max reserve = .ok c) :
    c.layout.chunkLens = lens ∧ c.totalLength = total ∧ c.root = root ∧
      c.inclusionProof = proof := by
  unfold fromFirstFrameBounded at h
  split at h
  · cases h
  split at h
  · cases h
  rename_i layout hlayout
  split at h
  · cases h
    exact ⟨ChunkLayout.tryNew_ok hlayout, rfl, rfl, rfl⟩
  · cases h

theorem sum_chunkLens (c : ResourceCommitment) : c.layout.chunkLens.sum = c.totalLength := by
  rw [← c.layout.totalLength_eq, c.total]

theorem fits (c : ResourceCommitment) : c.totalLength ≤ u64Max :=
  c.sum_chunkLens ▸ c.layout.fits

end ResourceCommitment

/-! ## One range -/

/-- How the check of a fetched range comes out. A build with debug assertions stops when
the range does not start at the first boundary of its offset. -/
inductive RangeVerdict where
  | ok
  | rejected (e : VerifyError)
  | assertionFailed
  deriving DecidableEq

/-- `MerkleVerifier::verify_range`: the length that was asked for, and whole chunks. -/
def verifyRange (debugAssertions : Bool) (c : ResourceCommitment)
    (firstChunkIndex expectedLen : Nat) (bytes : Bytes) : RangeVerdict :=
  if bytes.length ≠ expectedLen then
    .rejected (.length expectedLen bytes.length)
  else if c.layout.chunkCount ≤ firstChunkIndex then
    .rejected (.alignment (s!"chunk_index {firstChunkIndex} out of range (chunk_count " ++
      s!"{c.layout.chunkCount})"))
  else
    match c.layout.chunkOffset firstChunkIndex with
    | none => .rejected (.alignment "chunk_index has no offset")
    | some offset =>
        match c.layout.chunksForRange offset bytes.length with
        | .error e => .rejected e
        | .ok (start, _) =>
            if debugAssertions ∧ start ≠ firstChunkIndex then .assertionFailed else .ok

/-- No chunk boundary before the first chunk of the range lies at the same offset. -/
def Range.StartsFirst (l : ChunkLayout) (r : Range) : Prop :=
  ∀ i < r.chunkStart, start l.chunkLens i ≠ r.offset

instance (l : ChunkLayout) (r : Range) : Decidable (r.StartsFirst l) := by
  unfold Range.StartsFirst
  infer_instance

namespace ChunkLayout

variable {l : ChunkLayout} {o i j length : Nat}

/-- A chunk, or the resource, starts or ends there. -/
def IsBoundary (l : ChunkLayout) (o : Nat) : Prop := ∃ j ≤ l.chunkCount, start l.chunkLens j = o

theorem getElem_offsets (h : i < l.offsets.length) : l.offsets[i] = start l.chunkLens i := by
  have hle : i ≤ l.chunkCount := by
    rw [l.length_offsets] at h
    exact Nat.le_of_lt_succ h
  have hget := getElem?_offsets hle
  rwa [List.getElem?_eq_getElem h, Option.some.injEq] at hget

theorem mem_offsets : o ∈ l.offsets ↔ l.IsBoundary o := by
  rw [List.mem_iff_getElem]
  constructor
  · intro ⟨j, hj, hget⟩
    rw [getElem_offsets hj] at hget
    rw [l.length_offsets] at hj
    exact ⟨j, Nat.le_of_lt_succ hj, hget⟩
  · intro ⟨j, hj, hget⟩
    have hj' : j < l.offsets.length := by
      rw [l.length_offsets]
      exact Nat.lt_succ_of_le hj
    exact ⟨j, hj', by rw [getElem_offsets hj', hget]⟩

/-- A boundary is found at the first chunk that starts there. -/
theorem findIdx?_offsets (h : l.IsBoundary o) :
    ∃ j, l.offsets.findIdx? (· = o) = some j ∧ start l.chunkLens j = o ∧
      ∀ k < j, start l.chunkLens k ≠ o := by
  cases hfind : l.offsets.findIdx? (· = o) with
  | none =>
    rw [List.findIdx?_eq_none_iff] at hfind
    have := hfind o (mem_offsets.mpr h)
    simp at this
  | some j =>
    rw [List.findIdx?_eq_some_iff_getElem] at hfind
    obtain ⟨hj, hfound, hbefore⟩ := hfind
    rw [getElem_offsets hj] at hfound
    refine ⟨j, rfl, by simpa using hfound, ?_⟩
    intro k hk
    have := hbefore k hk
    rw [getElem_offsets (Nat.lt_trans hk hj)] at this
    simpa using this

/-- What starts and ends at boundaries is found, from the first chunk at its offset. -/
theorem chunksForRange_of_boundary (hi : i ≤ l.chunkCount)
    (hstop : l.IsBoundary (saturatingAdd (start l.chunkLens i) length)) :
    ∃ first last, l.chunksForRange (start l.chunkLens i) length = .ok (first, last) ∧
      (first = i ↔ ∀ k < i, start l.chunkLens k ≠ start l.chunkLens i) := by
  obtain ⟨first, hfirst, hfirst_eq, hfirst_min⟩ := findIdx?_offsets ⟨i, hi, rfl⟩
  obtain ⟨last, hlast, hlast_eq, -⟩ := findIdx?_offsets hstop
  have hle : first ≤ i := Nat.le_of_not_lt fun hlt => hfirst_min i hlt rfl
  refine ⟨first, last, ?_, ?_⟩
  · rw [chunksForRange, hfirst, hlast]
    show (if last < first then _ else _) = _
    rw [if_neg]
    intro hlt
    have hmono : start l.chunkLens last ≤ start l.chunkLens first :=
      start_mono (Nat.le_of_lt hlt)
    have hstart : start l.chunkLens i ≤ u64Max := Nat.le_trans (start_le_sum _ _) l.fits
    refine hfirst_min last hlt ?_
    unfold saturatingAdd at hlast_eq
    omega
  · constructor
    · intro heq k hk
      exact hfirst_min k (heq ▸ hk)
    · intro hfirst'
      by_contra hne
      exact hfirst' first (Nat.lt_of_le_of_ne hle hne) hfirst_eq

/-- What ends elsewhere is not. -/
theorem chunksForRange_of_not_boundary (hi : i ≤ l.chunkCount)
    (hstop : ¬ l.IsBoundary (saturatingAdd (start l.chunkLens i) length)) :
    ∃ e, l.chunksForRange (start l.chunkLens i) length = .error e := by
  obtain ⟨first, hfirst, -⟩ := findIdx?_offsets (l := l) ⟨i, hi, rfl⟩
  have hnone : l.offsets.findIdx? (· = saturatingAdd (start l.chunkLens i) length) = none := by
    rw [List.findIdx?_eq_none_iff]
    intro o ho
    simp only [decide_eq_false_iff_not]
    intro heq
    exact hstop (heq ▸ mem_offsets.mp ho)
  rw [chunksForRange, hfirst, hnone]
  exact ⟨_, rfl⟩

end ChunkLayout

section VerifyRange

variable {debug : Bool} {c : ResourceCommitment} {r : Range} {bytes : Bytes}

theorem length_of_verifyRange {first expected : Nat}
    (h : verifyRange debug c first expected bytes = .ok) : bytes.length = expected := by
  unfold verifyRange at h
  split at h
  · cases h
  · rename_i hlen
    exact not_not.mp hlen

/-- A range of whole chunks is found in the layout at the first boundary of its offset. -/
theorem ChunkLayout.chunksForRange_planned {l : ChunkLayout}
    (hchunks : r.chunkStart < r.chunkEnd ∧ r.chunkEnd ≤ l.chunkLens.length ∧
      r.offset = start l.chunkLens r.chunkStart ∧
      r.offset + r.length = start l.chunkLens r.chunkEnd) :
    ∃ first last, l.chunksForRange r.offset r.length = .ok (first, last) ∧
      (first = r.chunkStart ↔ r.StartsFirst l) := by
  obtain ⟨hlt, hle, hoffset, hlength⟩ := hchunks
  have hstart : r.chunkStart ≤ l.chunkCount := Nat.le_trans (Nat.le_of_lt hlt) hle
  have hfits : r.offset + r.length ≤ u64Max := by
    rw [hlength]
    exact Nat.le_trans (start_le_sum _ _) l.fits
  have hstop : saturatingAdd r.offset r.length = r.offset + r.length := Nat.min_eq_left hfits
  have hboundary : l.IsBoundary (saturatingAdd r.offset r.length) :=
    ⟨r.chunkEnd, hle, by rw [hstop, hlength]⟩
  rw [hoffset] at hboundary ⊢
  obtain ⟨first, last, hok, hfirst⟩ := chunksForRange_of_boundary hstart hboundary
  refine ⟨first, last, hok, hfirst.trans ?_⟩
  rw [Range.StartsFirst, hoffset]

/-- Bytes of the length of a planned range are accepted, unless the assertion fails. -/
theorem verifyRange_planned
    (hchunks : r.chunkStart < r.chunkEnd ∧ r.chunkEnd ≤ c.layout.chunkLens.length ∧
      r.offset = start c.layout.chunkLens r.chunkStart ∧
      r.offset + r.length = start c.layout.chunkLens r.chunkEnd)
    (hlen : bytes.length = r.length) :
    verifyRange debug c r.chunkStart r.length bytes
      = if debug = true ∧ ¬ r.StartsFirst c.layout then .assertionFailed else .ok := by
  obtain ⟨first, last, hfound, hfirst⟩ := ChunkLayout.chunksForRange_planned hchunks
  unfold verifyRange
  rw [if_neg (by simpa using hlen), if_neg (by simp [ChunkLayout.chunkCount]; omega),
    c.layout.chunkOffset_of_le (by simp [ChunkLayout.chunkCount]; omega)]
  dsimp only
  rw [← hchunks.2.2.1, hlen, hfound]
  dsimp only
  by_cases hd : debug = true
  · by_cases hs : r.StartsFirst c.layout
    · rw [if_neg (by simp [hfirst.mpr hs]), if_neg (by simp [hs])]
    · rw [if_pos ⟨hd, fun h => hs (hfirst.mp h)⟩, if_pos ⟨hd, hs⟩]
  · rw [if_neg (by simp [hd]), if_neg (by simp [hd])]

end VerifyRange

/-! ## The whole resource -/

/-- The running hash of a resource: what was absorbed, the offset up to which it was, and
the ranges that arrived ahead of it. -/
structure ResourceHasher where
  absorbed : Bytes
  nextOffset : Nat
  pending : AList fun _ : Nat => Bytes

namespace ResourceHasher

def new : ResourceHasher := { absorbed := [], nextOffset := 0, pending := ∅ }

/-- Absorb the pending ranges that have become contiguous, `fuel` of them at most. -/
def drain : Nat → ResourceHasher → ResourceHasher
  | 0, h => h
  | fuel + 1, h =>
      match h.pending.lookup h.nextOffset with
      | none => h
      | some chunk =>
          drain fuel {
            absorbed := h.absorbed ++ chunk
            nextOffset := saturatingAdd h.nextOffset chunk.length
            pending := h.pending.erase h.nextOffset }

/-- Feed one verified range. A range that starts before the frontier is ignored. -/
def feed (h : ResourceHasher) (offset : Nat) (bytes : Bytes) : ResourceHasher :=
  if offset < h.nextOffset then h
  else
    let pending := h.pending.insert offset bytes
    drain pending.entries.length { h with pending }

end ResourceHasher

end DigDownload
