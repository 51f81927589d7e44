import DigDownload.Module.Plan
import DigDownload.Resource.Verify

/-!
# What a holder declares

Two validators read the sizes that a holder declares: one for the first frame of a
resource, one for the descriptor of a module. Both add the chunk lengths up with checked
additions. Over every 64-bit input they accept exactly what adds up to the declared total
in unbounded arithmetic, within the limits of this node; a sum that leaves 64 bits is
rejected, whatever it would wrap or saturate to.
-/

namespace DigDownload

open Tiling

/-! ## The first frame of a resource -/

namespace ChunkLayout

variable {lens : List Nat} {reserve : Nat → Option String}

theorem tryNew_isOk_iff : (∃ l, tryNew lens reserve = .ok l) ↔
    lens.length ≤ maxResourceChunkCount ∧ reserve (lens.length + 1) = none ∧
      lens.sum ≤ u64Max := by
  constructor
  · rintro ⟨l, h⟩
    obtain rfl := tryNew_ok h
    rw [tryNew] at h
    split at h
    · cases h
    · rename_i hcount
      split at h
      · cases h
      · rename_i hroom
        exact ⟨Nat.le_of_not_lt hcount, hroom, l.fits⟩
  · rintro ⟨hcount, hroom, hfits⟩
    obtain ⟨l, hl, -⟩ := tryNew_of_le hcount hfits hroom
    exact ⟨l, hl⟩

end ChunkLayout

namespace ResourceCommitment

variable {total max : Nat} {lens : List Nat} {root proof : Option String}
  {reserve : Nat → Option String}

theorem fromFirstFrameBounded_isOk_iff :
    (∃ c, fromFirstFrameBounded total lens root proof max reserve = .ok c) ↔
      total ≤ max ∧ (∃ l, ChunkLayout.tryNew lens reserve = .ok l) ∧ lens.sum = total := by
  constructor
  · rintro ⟨c, h⟩
    obtain ⟨hlens, htotal, -, -⟩ := fromFirstFrameBounded_ok h
    rw [fromFirstFrameBounded] at h
    split at h
    · cases h
    · rename_i hsize
      split at h
      · cases h
      · rename_i l hl
        refine ⟨Nat.le_of_not_lt hsize, ⟨l, hl⟩, ?_⟩
        rw [← hlens, ← htotal, c.sum_chunkLens]
  · rintro ⟨hsize, ⟨l, hl⟩, hsum⟩
    have htotal : l.totalLength = total := by
      rw [l.totalLength_eq, ChunkLayout.tryNew_ok hl, hsum]
    rw [fromFirstFrameBounded, if_neg (Nat.not_lt.mpr hsize), hl]
    dsimp only
    rw [dif_pos htotal]
    exact ⟨_, rfl⟩

end ResourceCommitment

/-! ## Both validators over 64 bits -/

/-- The lengths as unbounded numbers. -/
def exactLens (lens : List UInt64) : List Nat := lens.map UInt64.toNat

/-- Chunk `i` lies where the chunks before it end, within the total. -/
def SpansWithin (lens : List Nat) (total : Nat) (span : Nat → Nat × Nat) : Prop :=
  ∀ (i : Nat) (h : i < lens.length),
    span i = ((lens.take i).sum, lens[i]) ∧ (span i).1 + (span i).2 ≤ total

theorem toNat_le_u64Max (n : UInt64) : n.toNat ≤ u64Max := Nat.le_pred_of_lt n.toNat_lt

@[simp] theorem length_exactLens (lens : List UInt64) : (exactLens lens).length = lens.length :=
  List.length_map _

theorem exactLens_ne_nil {lens : List UInt64} : exactLens lens ≠ [] ↔ lens ≠ [] :=
  not_congr List.map_eq_nil_iff

/-- What a layout stores about a chunk. -/
theorem ChunkLayout.spansWithin (l : ChunkLayout) :
    SpansWithin l.chunkLens l.totalLength fun i =>
      ((l.chunkOffset i).getD 0, (l.chunkLen i).getD 0) := by
  intro i hi
  have hspan : ((l.chunkOffset i).getD 0, (l.chunkLen i).getD 0)
      = ((l.chunkLens.take i).sum, l.chunkLens[i]) := by
    rw [l.chunkOffset_of_le (Nat.le_of_lt hi), chunkLen, List.getElem?_eq_getElem hi]
    rfl
  refine ⟨hspan, ?_⟩
  rw [l.totalLength_eq]
  show ((l.chunkOffset i).getD 0, (l.chunkLen i).getD 0).1
    + ((l.chunkOffset i).getD 0, (l.chunkLen i).getD 0).2 ≤ _
  rw [hspan]
  exact span_end_le_sum hi

/-- What a plan stores about a chunk. -/
theorem ChunkPlan.spansWithin (p : ChunkPlan) :
    SpansWithin p.chunkLens p.totalSize p.chunkSpan := by
  intro i hi
  exact ⟨p.chunkSpan_of_lt hi, p.chunkSpan_le hi⟩

/-- The commitment of a first frame, on a machine with memory for its layout. -/
def firstFrame (total ceiling : UInt64) (lens : List UInt64) (root proof : Option String) :
    Except VerifyError ResourceCommitment :=
  ResourceCommitment.fromFirstFrameBounded total.toNat (exactLens lens) root proof ceiling.toNat
    fun _ => none

/-- The plan of a module descriptor, on a machine with memory for it. -/
def descriptorPlan (total ceiling : UInt64) (lens : List UInt64) (moduleHash : String)
    (hashes : List String) : Except PullFailure ChunkPlan :=
  ChunkPlan.fromInfo ⟨total.toNat, moduleHash, hashes, exactLens lens⟩ ceiling.toNat fun _ => none

/-- The validators of declared metadata accept exactly what adds up, and what they store is
where the chunks lie. -/
theorem validators_exact (total ceiling : UInt64) (lens : List UInt64) (root proof : Option String)
    (moduleHash : String) (hashes : List String) :
    ((∃ c, firstFrame total ceiling lens root proof = .ok c) ↔
        total ≤ ceiling ∧ lens.length ≤ maxResourceChunkCount ∧
        (exactLens lens).sum = total.toNat) ∧
      ((∃ p, descriptorPlan total ceiling lens moduleHash hashes = .ok p) ↔
        total ≤ ceiling ∧ lens.length ≤ maxModuleChunkCount ∧
        lens ≠ [] ∧ lens.length = hashes.length ∧ (exactLens lens).sum = total.toNat) ∧
      (∀ c, firstFrame total ceiling lens root proof = .ok c →
        c.totalLength = total.toNat ∧ c.layout.chunkLens = exactLens lens ∧
        c.layout.offsets
          = (List.range (lens.length + 1)).map (fun i => ((exactLens lens).take i).sum) ∧
        SpansWithin (exactLens lens) total.toNat fun i =>
          ((c.layout.chunkOffset i).getD 0, (c.layout.chunkLen i).getD 0)) ∧
      (∀ p, descriptorPlan total ceiling lens moduleHash hashes = .ok p →
        p.totalSize = total.toNat ∧ p.chunkLens = exactLens lens ∧
        p.offsets = (List.range lens.length).map (fun i => ((exactLens lens).take i).sum) ∧
        SpansWithin (exactLens lens) total.toNat p.chunkSpan) ∧
      (u64Max < (exactLens lens).sum →
        (∃ e, firstFrame total ceiling lens root proof = .error e) ∧
          ∃ e, descriptorPlan total ceiling lens moduleHash hashes = .error e) := by
  have hframe : (∃ c, firstFrame total ceiling lens root proof = .ok c) ↔ total ≤ ceiling ∧
      lens.length ≤ maxResourceChunkCount ∧ (exactLens lens).sum = total.toNat := by
    rw [firstFrame, ResourceCommitment.fromFirstFrameBounded_isOk_iff, ChunkLayout.tryNew_isOk_iff,
      length_exactLens, UInt64.le_iff_toNat_le]
    constructor
    · rintro ⟨hsize, ⟨hcount, _, _⟩, hsum⟩
      exact ⟨hsize, hcount, hsum⟩
    · rintro ⟨hsize, hcount, hsum⟩
      exact ⟨hsize, ⟨hcount, rfl, hsum ▸ toNat_le_u64Max total⟩, hsum⟩
  have hplan : (∃ p, descriptorPlan total ceiling lens moduleHash hashes = .ok p) ↔
      total ≤ ceiling ∧ lens.length ≤ maxModuleChunkCount ∧
      lens ≠ [] ∧ lens.length = hashes.length ∧ (exactLens lens).sum = total.toNat := by
    rw [descriptorPlan, ChunkPlan.fromInfo_isOk_iff, UInt64.le_iff_toNat_le, ← length_exactLens lens,
      ← exactLens_ne_nil]
    constructor
    · rintro ⟨h, _⟩
      exact ⟨h.size_le, h.count_le, h.lens_ne_nil, h.hashes_length, h.lens_sum⟩
    · rintro ⟨hsize, hcount, hne, hhashes, hsum⟩
      exact ⟨⟨hsize, hne, hcount, hhashes, hsum, toNat_le_u64Max total⟩, rfl⟩
  refine ⟨hframe, hplan, ?_, ?_, ?_⟩
  · intro c hc
    obtain ⟨hlens, htotal, -, -⟩ := ResourceCommitment.fromFirstFrameBounded_ok hc
    refine ⟨htotal, hlens, ?_, ?_⟩
    · rw [c.layout.offsets_eq, hlens, length_exactLens]
      rfl
    · have hspans := c.layout.spansWithin
      rwa [c.total, hlens, htotal] at hspans
  · intro p hp
    obtain ⟨-, -, htotal, hlens⟩ := ChunkPlan.fromInfo_ok hp
    refine ⟨htotal, hlens, ?_, ?_⟩
    · rw [p.offsets_eq, hlens, length_exactLens]
      rfl
    · have hspans := p.spansWithin
      rwa [htotal, hlens] at hspans
  · -- the total fits into 64 bits, so a sum that does not is not the total
    intro hover
    have hne : (exactLens lens).sum ≠ total.toNat := by
      have := toNat_le_u64Max total
      omega
    constructor
    · cases hc : firstFrame total ceiling lens root proof with
      | error e => exact ⟨e, rfl⟩
      | ok c => exact absurd (hframe.mp ⟨c, hc⟩).2.2 hne
    · cases hp : descriptorPlan total ceiling lens moduleHash hashes with
      | error e => exact ⟨e, rfl⟩
      | ok p => exact absurd (hplan.mp ⟨p, hp⟩).2.2.2.2 hne

end DigDownload
