import DigDownload.Resource.Hashing

/-!
# Hashing a plan in any order

The ranges of a plan tile the resource, and only the last of them can be empty, so no two
of them share an offset. The hasher can therefore be fed them in any order, and any of them
again: once each was fed, it has read the concatenation of all of them and holds nothing.
-/

namespace DigDownload

open Tiling Slices

namespace ResourceHasher

/-- The length hashed so far: the frontier. -/
def hashedLen (h : ResourceHasher) : Nat := h.nextOffset

/-- Whether ranges are still held, ahead of the frontier. -/
def hasGap (h : ResourceHasher) : Bool := !h.pending.keys.isEmpty

/-- The digest of what was absorbed. -/
def finalize (sha256 : Bytes → Bytes) (h : ResourceHasher) : Bytes := sha256 h.absorbed

/-- A new hasher, fed the given ranges one after the other. -/
def ofFeeds (own : Range → Bytes) (feeds : List Range) : ResourceHasher :=
  feeds.foldl (fun h r => h.feed r.offset (own r)) new

section Feeds

variable {l : ChunkLayout} {window : Nat} {own : Range → Bytes} {h : ResourceHasher}

/-- The bytes of the ranges, in the order of their offsets. -/
def planBytes (l : ChunkLayout) (window : Nat) (own : Range → Bytes) : Bytes :=
  ((planRanges l window).map own).flatten

theorem slice_planBytes (hown : ∀ r ∈ planRanges l window, (own r).length = r.length) {i : Nat}
    (hi : i < (planRanges l window).length) :
    own (planRanges l window)[i]
      = slice (planBytes l window own) (start (rangeLens (planRanges l window)) i)
          (own (planRanges l window)[i]).length := by
  have hlens : ((planRanges l window).map own).map List.length
      = rangeLens (planRanges l window) := by
    rw [List.map_map, rangeLens]
    exact List.map_congr_left hown
  have hpiece := slice_flatten ((planRanges l window).map own) (i := i) (by simpa using hi)
  rw [hlens, List.getElem_map] at hpiece
  exact hpiece.symm

/-- What the hasher of a plan has read: its ranges among `fed`. -/
structure FedPlan (l : ChunkLayout) (window : Nat) (own : Range → Bytes) (fed : Nat → Prop)
    (h : ResourceHasher) : Prop where
  follows : h.Follows (rangeLens (planRanges l window)) fed (planBytes l window own)
  ahead : h.NothingBehind
  drained : h.pending.lookup h.nextOffset = none

theorem FedPlan.new : FedPlan l window own (fun _ => False) new :=
  ⟨.new _ (fun _ => id) _, .new, by simp [ResourceHasher.new]⟩

/-- Feeding a range of the plan its own bytes, whatever was fed before. -/
theorem FedPlan.feed {fed : Nat → Prop} (hfed : FedPlan l window own fed h)
    (hown : ∀ r ∈ planRanges l window, (own r).length = r.length) {i : Nat}
    (hi : i < (planRanges l window).length) :
    FedPlan l window own (fun k => fed k ∨ k = i)
      (h.feed (planRanges l window)[i].offset (own (planRanges l window)[i])) := by
  have hi' : i < (rangeLens (planRanges l window)).length := by simpa [rangeLens] using hi
  have hlen : (own (planRanges l window)[i]).length = (rangeLens (planRanges l window))[i] := by
    rw [hown _ (List.getElem_mem hi)]
    simp [rangeLens]
  have hfits : (rangeLens (planRanges l window)).sum ≤ u64Max := by
    rw [planRanges_sum, l.totalLength_eq]
    exact l.fits
  have hlast := planRanges_onlyLastEmpty l window
  rw [planRanges_offset hi]
  obtain ⟨hfollows, hdrained⟩ :=
    hfed.follows.refeed hlast hfits hfed.drained hi' hlen (slice_planBytes hown hi)
  exact ⟨hfollows, hfed.ahead.feed hfed.follows hlast hfits hi' hlen (slice_planBytes hown hi),
    hdrained⟩

/-- Over any sequence of feeds. -/
theorem FedPlan.foldl (hown : ∀ r ∈ planRanges l window, (own r).length = r.length)
    (feeds : List Range) (hplanned : ∀ r ∈ feeds, r ∈ planRanges l window) {fed : Nat → Prop}
    (hfed : FedPlan l window own fed h) :
    FedPlan l window own (fun k => fed k ∨ ∃ r ∈ feeds, (planRanges l window)[k]? = some r)
      (feeds.foldl (fun h r => h.feed r.offset (own r)) h) := by
  induction feeds generalizing h fed with
  | nil => simpa using hfed
  | cons r feeds ih =>
    obtain ⟨i, hi, rfl⟩ := List.getElem_of_mem (hplanned r List.mem_cons_self)
    have hrest := ih (fun r' hr' => hplanned r' (List.mem_cons_of_mem _ hr')) (hfed.feed hown hi)
    refine ⟨hrest.follows.congr fun k hk => ?_, hrest.ahead, hrest.drained⟩
    have hsame : (planRanges l window)[k]? = some (planRanges l window)[i] ↔ k = i := by
      constructor
      · intro hget
        obtain ⟨hk', heq⟩ := List.getElem?_eq_some_iff.mp hget
        rw [← planRanges_index hk', heq, planRanges_index hi]
      · intro heq
        rw [heq]
        exact List.getElem?_eq_getElem hi
    simp only [List.mem_cons, exists_eq_or_imp, hsame, or_assoc]

end Feeds

end ResourceHasher

/-- However often and in whatever order the ranges of a plan are fed, once each of them was,
the hasher holds nothing and has hashed their concatenation. -/
theorem resourceHasher_of_feeds (sha256 : Bytes → Bytes) (l : ChunkLayout) (window : Nat)
    (own : Range → Bytes) (hown : ∀ r ∈ planRanges l window, (own r).length = r.length)
    (feeds : List Range) (hplanned : ∀ r ∈ feeds, r ∈ planRanges l window)
    (hall : ∀ r ∈ planRanges l window, r ∈ feeds) :
    (ResourceHasher.ofFeeds own feeds).hasGap = false ∧
      (ResourceHasher.ofFeeds own feeds).hashedLen = l.totalLength ∧
      (ResourceHasher.ofFeeds own feeds).finalize sha256
        = sha256 ((planRanges l window).map own).flatten := by
  obtain ⟨hfollows, hahead, hdrained⟩ :=
    ResourceHasher.FedPlan.new.foldl hown feeds hplanned
  have hread : (ResourceHasher.ofFeeds own feeds).nextOffset
      = (rangeLens (planRanges l window)).sum := by
    refine hfollows.complete (planRanges_onlyLastEmpty l window) (fun i hi => ?_) hdrained
    have hi' : i < (planRanges l window).length := by simpa [rangeLens] using hi
    exact .inr ⟨_, hall _ (List.getElem_mem hi'), List.getElem?_eq_getElem hi'⟩
  have hempty : (ResourceHasher.ofFeeds own feeds).pending = ∅ :=
    hfollows.pending_eq_empty hahead hdrained hread
  refine ⟨by simp [ResourceHasher.hasGap, hempty], hread.trans planRanges_sum, ?_⟩
  have habsorbed : (ResourceHasher.ofFeeds own feeds).absorbed
      = (ResourceHasher.planBytes l window own).take
          (ResourceHasher.ofFeeds own feeds).nextOffset := hfollows.reads.absorbed
  have hlength : (ResourceHasher.planBytes l window own).length
      = (ResourceHasher.ofFeeds own feeds).nextOffset := by
    rw [hread, ResourceHasher.planBytes, List.length_flatten, List.map_map, rangeLens]
    exact congrArg List.sum (List.map_congr_left hown)
  rw [ResourceHasher.finalize, habsorbed, ← hlength, List.take_length]
  rfl

/-- Three ranges, the last of them empty, fed backwards and then again. -/
theorem resourceHasher_fed_twice :
    ∃ l, ChunkLayout.tryNew [1, 2, 0] (fun _ => none) = .ok l ∧
      let own := fun r : Range => slice [5, 6, 7] r.offset r.length
      let h := ResourceHasher.ofFeeds own ((planRanges l 1).reverse ++ planRanges l 1)
      h.hasGap = false ∧ h.hashedLen = l.totalLength ∧
        h.finalize List.reverse = (((planRanges l 1).map own).flatten).reverse := by
  let l : ChunkLayout := ⟨[1, 2, 0], [0, 1, 3, 3], by decide, by decide⟩
  refine ⟨l, by decide, ?_⟩
  exact resourceHasher_of_feeds List.reverse l 1 (fun r => slice [5, 6, 7] r.offset r.length)
    (by decide) _ (by simp) (by simp)

end DigDownload
