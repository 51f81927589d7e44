import DigDownload.Resource.Verify

/-!
# What the check of a range accepts

A range is accepted when it is as long as was asked for and ends where a chunk does. The
check looks its first chunk up again, by the offset, and asserts that it finds the same
one. An empty chunk starts where the next one does, so a range that starts after an empty
chunk is found there, and a build with debug assertions stops. The planner makes such
ranges.
-/

namespace DigDownload

open Tiling

/-- What the check is for: it accepts the bytes if they are as long as was asked for, from a
chunk of the layout up to a chunk boundary, and its assertion does not fail. -/
def VerifyExact (debugAssertions : Bool) (c : ResourceCommitment)
    (firstChunkIndex expectedLen : Nat) (bytes : Bytes) : Prop :=
  (verifyRange debugAssertions c firstChunkIndex expectedLen bytes = .ok ↔
    bytes.length = expectedLen ∧ firstChunkIndex < c.layout.chunkCount ∧
      c.layout.IsBoundary (start c.layout.chunkLens firstChunkIndex + expectedLen)) ∧
  verifyRange true c firstChunkIndex expectedLen bytes ≠ .assertionFailed

/-- The chunk is the first one, or the one before it has bytes in it. -/
def FollowsBytes (lens : List Nat) (k : Nat) : Prop :=
  k = 0 ∨ ∃ len, lens[k - 1]? = some len ∧ len ≠ 0

instance (lens : List Nat) (k : Nat) : Decidable (FollowsBytes lens k) :=
  match h : lens[k - 1]? with
  | none => decidable_of_iff (k = 0) (by simp [FollowsBytes, h])
  | some len => decidable_of_iff (k = 0 ∨ len ≠ 0) (by simp [FollowsBytes, h])

section Boundaries

variable {debug : Bool} {c : ResourceCommitment} {k expected : Nat} {bytes : Bytes}

/-- No chunk before one that follows bytes starts where it does. -/
theorem followsBytes_iff {lens : List Nat} (hk : k < lens.length) :
    FollowsBytes lens k ↔ ∀ i < k, start lens i ≠ start lens k := by
  cases k with
  | zero => simp [FollowsBytes]
  | succ k =>
    have hk' : k < lens.length := Nat.lt_of_succ_lt hk
    have hstep : start lens (k + 1) = start lens k + lens[k] := start_succ hk'
    constructor
    · intro hfollows i hi heq
      cases hfollows with
      | inl hzero => cases hzero
      | inr hprevious =>
        obtain ⟨len, hlen, hne⟩ := hprevious
        rw [Nat.add_sub_cancel, List.getElem?_eq_getElem hk', Option.some.injEq] at hlen
        have hmono : start lens i ≤ start lens k := start_mono (Nat.le_of_lt_succ hi)
        omega
    · intro hfirst
      refine .inr ⟨lens[k], by simp [hk'], ?_⟩
      intro hempty
      refine hfirst k (Nat.lt_succ_self k) ?_
      rw [hstep, hempty, Nat.add_zero]

/-- What ends at a boundary is accepted, unless the assertion fails. -/
theorem verifyRange_of_boundary (hlen : bytes.length = expected) (hk : k < c.layout.chunkCount)
    (hstop : c.layout.IsBoundary (saturatingAdd (start c.layout.chunkLens k) expected)) :
    verifyRange debug c k expected bytes
      = if debug = true ∧ ¬ FollowsBytes c.layout.chunkLens k then .assertionFailed else .ok := by
  subst hlen
  obtain ⟨first, last, hok, hfirst⟩ :=
    ChunkLayout.chunksForRange_of_boundary (Nat.le_of_lt hk) hstop
  rw [verifyRange, if_neg (not_not.mpr rfl), if_neg (Nat.not_le.mpr hk),
    c.layout.chunkOffset_of_le (Nat.le_of_lt hk)]
  dsimp only
  rw [hok]
  simp only [hfirst, followsBytes_iff hk, ne_eq]

/-- What ends elsewhere is not. -/
theorem verifyRange_of_not_boundary (hlen : bytes.length = expected)
    (hk : k < c.layout.chunkCount)
    (hstop : ¬ c.layout.IsBoundary (saturatingAdd (start c.layout.chunkLens k) expected)) :
    ∃ e, verifyRange debug c k expected bytes = .rejected e := by
  subst hlen
  obtain ⟨e, he⟩ := ChunkLayout.chunksForRange_of_not_boundary (Nat.le_of_lt hk) hstop
  rw [verifyRange, if_neg (not_not.mpr rfl), if_neg (Nat.not_le.mpr hk),
    c.layout.chunkOffset_of_le (Nat.le_of_lt hk)]
  dsimp only
  rw [he]
  exact ⟨e, rfl⟩

/-- Nor are bytes of another length, or from a chunk that there is not. -/
theorem verifyRange_of_mismatch (h : ¬ (bytes.length = expected ∧ k < c.layout.chunkCount)) :
    ∃ e, verifyRange debug c k expected bytes = .rejected e := by
  rw [verifyRange]
  split
  · exact ⟨_, rfl⟩
  · rename_i hlen
    rw [if_pos (Nat.le_of_not_lt fun hk => h ⟨not_not.mp hlen, hk⟩)]
    exact ⟨_, rfl⟩

/-- What the check accepts, in either build. -/
theorem verifyRange_eq_ok : verifyRange debug c k expected bytes = .ok ↔
    bytes.length = expected ∧ k < c.layout.chunkCount ∧
      c.layout.IsBoundary (saturatingAdd (start c.layout.chunkLens k) expected) ∧
      (debug = true → FollowsBytes c.layout.chunkLens k) := by
  by_cases hmatch : bytes.length = expected ∧ k < c.layout.chunkCount
  · obtain ⟨hlen, hk⟩ := hmatch
    by_cases hstop : c.layout.IsBoundary (saturatingAdd (start c.layout.chunkLens k) expected)
    · rw [verifyRange_of_boundary hlen hk hstop]
      by_cases hfails : debug = true ∧ ¬ FollowsBytes c.layout.chunkLens k
      · rw [if_pos hfails]
        exact iff_of_false nofun fun h => hfails.2 (h.2.2.2 hfails.1)
      · rw [if_neg hfails]
        exact iff_of_true rfl ⟨hlen, hk, hstop, fun hd => not_not.mp fun h => hfails ⟨hd, h⟩⟩
    · obtain ⟨e, he⟩ : ∃ e, verifyRange debug c k expected bytes = .rejected e :=
        verifyRange_of_not_boundary hlen hk hstop
      rw [he]
      exact iff_of_false nofun fun h => hstop h.2.2.1
  · obtain ⟨e, he⟩ : ∃ e, verifyRange debug c k expected bytes = .rejected e :=
      verifyRange_of_mismatch hmatch
    rw [he]
    exact iff_of_false nofun fun h => hmatch ⟨h.1, h.2.1⟩

/-- When its assertion fails. -/
theorem verifyRange_eq_assertionFailed :
    verifyRange true c k expected bytes = .assertionFailed ↔
      bytes.length = expected ∧ k < c.layout.chunkCount ∧
        c.layout.IsBoundary (saturatingAdd (start c.layout.chunkLens k) expected) ∧
        ¬ FollowsBytes c.layout.chunkLens k := by
  by_cases hmatch : bytes.length = expected ∧ k < c.layout.chunkCount
  · obtain ⟨hlen, hk⟩ := hmatch
    by_cases hstop : c.layout.IsBoundary (saturatingAdd (start c.layout.chunkLens k) expected)
    · rw [verifyRange_of_boundary hlen hk hstop]
      by_cases hfollows : FollowsBytes c.layout.chunkLens k
      · rw [if_neg fun h => h.2 hfollows]
        exact iff_of_false nofun fun h => h.2.2.2 hfollows
      · rw [if_pos ⟨rfl, hfollows⟩]
        exact iff_of_true rfl ⟨hlen, hk, hstop, hfollows⟩
    · obtain ⟨e, he⟩ : ∃ e, verifyRange true c k expected bytes = .rejected e :=
        verifyRange_of_not_boundary hlen hk hstop
      rw [he]
      exact iff_of_false nofun fun h => hstop h.2.2.1
  · obtain ⟨e, he⟩ : ∃ e, verifyRange true c k expected bytes = .rejected e :=
      verifyRange_of_mismatch hmatch
    rw [he]
    exact iff_of_false nofun fun h => hmatch ⟨h.1, h.2.1⟩

/-- A sum that reaches a boundary does not leave 64 bits. -/
theorem isBoundary_add {l : ChunkLayout} {a b : Nat} :
    l.IsBoundary (a + b) ↔ l.IsBoundary (saturatingAdd a b) ∧ a + b ≤ u64Max := by
  constructor
  · intro hsum
    obtain ⟨j, hj, heq⟩ := hsum
    have hfits : a + b ≤ u64Max := by
      rw [← heq]
      exact Nat.le_trans (start_le_sum _ _) l.fits
    exact ⟨⟨j, hj, heq.trans (Nat.min_eq_left hfits).symm⟩, hfits⟩
  · intro ⟨hsum, hfits⟩
    rwa [saturatingAdd, Nat.min_eq_left hfits] at hsum

/-- The check of a range is exact, and its assertion holds, if and only if what ends at a
chunk boundary ends within 64 bits and follows bytes. A planned range is accepted in a
build with debug assertions if and only if it follows bytes. -/
theorem verifyExact_iff (debug : Bool) (c : ResourceCommitment) :
    (∀ k expected bytes, VerifyExact debug c k expected bytes ↔
      (bytes.length = expected → k < c.layout.chunkCount →
        c.layout.IsBoundary (saturatingAdd (start c.layout.chunkLens k) expected) →
        start c.layout.chunkLens k + expected ≤ u64Max ∧ FollowsBytes c.layout.chunkLens k)) ∧
    ∀ window, ∀ r ∈ planRanges c.layout window, ∀ bytes, bytes.length = r.length →
      (verifyRange true c r.chunkStart r.length bytes = .ok ↔
        FollowsBytes c.layout.chunkLens r.chunkStart) := by
  constructor
  · intro k expected bytes
    rw [VerifyExact, ne_eq, verifyRange_eq_ok, verifyRange_eq_assertionFailed, isBoundary_add]
    constructor
    · intro ⟨hexact, hholds⟩ hlen hk hstop
      have hfollows : FollowsBytes c.layout.chunkLens k :=
        not_not.mp fun hfollows => hholds ⟨hlen, hk, hstop, hfollows⟩
      exact ⟨(hexact.mp ⟨hlen, hk, hstop, fun _ => hfollows⟩).2.2.2, hfollows⟩
    · intro hcond
      constructor
      · constructor
        · intro ⟨hlen, hk, hstop, _⟩
          exact ⟨hlen, hk, hstop, (hcond hlen hk hstop).1⟩
        · intro ⟨hlen, hk, hstop, _⟩
          exact ⟨hlen, hk, hstop, fun _ => (hcond hlen hk hstop).2⟩
      · intro ⟨hlen, hk, hstop, hfollows⟩
        exact hfollows (hcond hlen hk hstop).2
  · intro window r hr bytes hlen
    obtain ⟨hlt, hle, hoffset, hlength⟩ := (planRanges_consecutive c.layout window).chunks r hr
    have hstop : c.layout.IsBoundary (start c.layout.chunkLens r.chunkStart + r.length) :=
      ⟨r.chunkEnd, hle, by rw [← hoffset, hlength]⟩
    rw [verifyRange_eq_ok]
    constructor
    · intro haccepted
      exact haccepted.2.2.2 rfl
    · intro hfollows
      exact ⟨hlen, Nat.lt_of_lt_of_le hlt hle, (isBoundary_add.mp hstop).1, fun _ => hfollows⟩

/-- With an empty chunk between two of one byte, the planner starts a range after it, and
the assertion fails on the byte of that range. -/
theorem planned_range_stops_the_check :
    ∃ c, ResourceCommitment.fromFirstFrameBounded 2 [1, 0, 1] none none 2 (fun _ => none) = .ok c ∧
      (∃ r ∈ planRanges c.layout 1, r.chunkStart = 2 ∧ r.length = 1) ∧
      verifyRange true c 2 1 [7] = .assertionFailed ∧ ¬ VerifyExact true c 2 1 [7] := by
  refine ⟨⟨⟨[1, 0, 1], [0, 1, 1, 2], by decide, by decide⟩, 2, none, none, by decide⟩,
    by decide, ⟨⟨1, 1, 1, 2, 3⟩, by decide, rfl, rfl⟩, by decide, ?_⟩
  intro hexact
  exact hexact.2 (by decide)

end Boundaries

end DigDownload
