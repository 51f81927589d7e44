import DigDownload.Basic

/-!
# The chunk plan of a module

A holder describes a module by its size, its hash and, chunk by chunk, lengths and
hashes. The description is untrusted. `ChunkPlan.fromInfo` checks that it is
consistent and within this node's limits and derives from it where each chunk
lies; a plan that was accepted carries the facts that were checked.
-/

namespace DigDownload

open Tiling

/-- The bound on the number of chunks a descriptor may declare. -/
def maxModuleChunkCount : Nat := 1024 * 1024

/-- A holder's description of a module. -/
structure ModuleInfo where
  totalSize : Nat
  moduleHash : String
  chunkHashes : List String
  chunkLens : List Nat
  deriving DecidableEq

/-- Why the pull under one descriptor failed. -/
inductive PullFailure where
  | badDescriptor (e : DownloadError)
  | unsatisfiableDescriptor (e : DownloadError)
  | terminal (e : DownloadError)
  deriving DecidableEq

namespace PullFailure

def error : PullFailure → DownloadError
  | badDescriptor e | unsatisfiableDescriptor e | terminal e => e

/-- Whether the failure proves the descriptor false. -/
def isProvenFalse : PullFailure → Bool
  | badDescriptor _ => true
  | _ => false

end PullFailure

/-! ## Offsets -/

/-- The offsets of consecutive chunks, summed with checked additions. -/
def pushOffsets : Nat → List Nat → Option (List Nat)
  | _, [] => some []
  | acc, len :: lens => do
      let acc' ← checkedAdd acc len
      let offsets ← pushOffsets acc' lens
      some (acc :: offsets)

theorem pushOffsets_eq_some {acc : Nat} {lens offsets : List Nat}
    (h : pushOffsets acc lens = some offsets) :
    offsets = (List.range lens.length).map fun i => acc + start lens i := by
  induction lens generalizing acc offsets with
  | nil => simpa [pushOffsets, eq_comm] using h
  | cons len lens ih =>
    simp only [pushOffsets, Option.bind_eq_bind, Option.bind_eq_some_iff, Option.some.injEq] at h
    obtain ⟨acc', hacc, rest, hrest, rfl⟩ := h
    obtain ⟨-, rfl⟩ := checkedAdd_eq_some.mp hacc
    rw [ih hrest, List.length_cons, List.range_succ_eq_map, List.map_cons, List.map_map]
    congr 1
    apply List.map_congr_left
    intro i _
    simp [start, Nat.add_assoc]

theorem pushOffsets_of_le {acc : Nat} {lens : List Nat} (h : acc + lens.sum ≤ u64Max) :
    ∃ offsets, pushOffsets acc lens = some offsets := by
  induction lens generalizing acc with
  | nil => exact ⟨[], rfl⟩
  | cons len lens ih =>
    rw [List.sum_cons, ← Nat.add_assoc] at h
    obtain ⟨rest, hrest⟩ := ih h
    refine ⟨acc :: rest, ?_⟩
    simp [pushOffsets, checkedAdd_of_le (Nat.le_trans (Nat.le_add_right _ _) h), hrest]

/-! ## The plan -/

/-- A checked chunk layout: the lengths sum to the declared size, which is a `u64`, and
the offsets are where the chunks start. -/
structure ChunkPlan where
  totalSize : Nat
  chunkLens : List Nat
  offsets : List Nat
  lens_sum : chunkLens.sum = totalSize
  lens_ne_nil : chunkLens ≠ []
  lens_count : chunkLens.length ≤ maxModuleChunkCount
  offsets_eq : offsets = (List.range chunkLens.length).map (start chunkLens)
  fits : totalSize ≤ u64Max

namespace ChunkPlan

def chunkCount (p : ChunkPlan) : Nat := p.chunkLens.length

/-- The offset and the length of a chunk. -/
def chunkSpan (p : ChunkPlan) (index : Nat) : Nat × Nat :=
  (p.offsets.getD index 0, p.chunkLens.getD index 0)

/-- A rejection that speaks of the descriptor. -/
def falseDescriptor (reason : String) : PullFailure :=
  .badDescriptor (.verify (.metadata reason))

/-- Check a descriptor and derive its plan. `reserve` is what the allocator answers when
asked for room for that many offsets. -/
def fromInfo (info : ModuleInfo) (maxModuleSize : Nat) (reserve : Nat → Option String) :
    Except PullFailure ChunkPlan :=
  if maxModuleSize < info.totalSize then
    .error (falseDescriptor (s!"declared module total_size {info.totalSize} exceeds the " ++
      s!"maximum {maxModuleSize}"))
  else if hne : info.chunkLens = [] then
    .error (falseDescriptor
      "ModuleInfo carries no chunk_lens (cannot map ranges to chunk hashes)")
  else if hcount : maxModuleChunkCount < info.chunkLens.length then
    .error (falseDescriptor (s!"declared chunk_lens count {info.chunkLens.length} exceeds the " ++
      s!"maximum {maxModuleChunkCount}"))
  else if info.chunkLens.length ≠ info.chunkHashes.length then
    .error (falseDescriptor (s!"chunk_lens ({info.chunkLens.length}) != chunk_hashes " ++
      s!"({info.chunkHashes.length})"))
  else
    match hsum : checkedSum info.chunkLens with
    | none =>
        .error (falseDescriptor "chunk_lens sum overflows u64 (hostile descriptor)")
    | some sum =>
        if htotal : sum ≠ info.totalSize then
          .error (falseDescriptor s!"chunk_lens sum {sum} != total_size {info.totalSize}")
        else
          -- not evidence against the descriptor: this host ran out of memory
          match reserve info.chunkLens.length with
          | some e =>
              .error (.unsatisfiableDescriptor (.sink (s!"this host cannot allocate the " ++
                s!"{info.chunkLens.length}-entry chunk plan this descriptor declares: {e}")))
          | none =>
              match hoff : pushOffsets 0 info.chunkLens with
              | none =>
                  .error (falseDescriptor "chunk offsets overflow u64 (hostile descriptor)")
              | some offsets =>
                  .ok {
                    totalSize := info.totalSize
                    chunkLens := info.chunkLens
                    offsets
                    lens_sum := by
                      rw [← (checkedSum_eq_some.mp hsum).2]
                      exact not_not.mp htotal
                    lens_ne_nil := hne
                    lens_count := Nat.le_of_not_lt hcount
                    offsets_eq := by simpa using pushOffsets_eq_some hoff
                    fits := by
                      rw [← not_not.mp htotal, (checkedSum_eq_some.mp hsum).2]
                      exact (checkedSum_eq_some.mp hsum).1 }

/-! ## What an accepted plan says -/

section Spans

variable (p : ChunkPlan)

theorem chunkCount_pos : 0 < p.chunkCount := List.length_pos_of_ne_nil p.lens_ne_nil

theorem chunkSpan_of_lt {i : Nat} (h : i < p.chunkCount) :
    p.chunkSpan i = (start p.chunkLens i, p.chunkLens[i]) := by
  have hlen : i < p.chunkLens.length := h
  unfold chunkSpan
  rw [p.offsets_eq]
  simp [List.getD, hlen]
  rfl

theorem start_chunkCount : start p.chunkLens p.chunkCount = p.totalSize := by
  rw [chunkCount, start_length, p.lens_sum]

/-- A chunk lies within the module. -/
theorem chunkSpan_le {i : Nat} (h : i < p.chunkCount) :
    (p.chunkSpan i).1 + (p.chunkSpan i).2 ≤ p.totalSize := by
  rw [p.chunkSpan_of_lt h, ← p.lens_sum]
  exact span_end_le_sum h

theorem chunkSpan_fits {i : Nat} (h : i < p.chunkCount) :
    (p.chunkSpan i).1 + (p.chunkSpan i).2 ≤ u64Max :=
  Nat.le_trans (p.chunkSpan_le h) p.fits

end Spans

/-- When a descriptor is accepted: it is consistent, within the limits, and the plan can
be allocated. -/
structure Acceptable (info : ModuleInfo) (maxModuleSize : Nat) : Prop where
  size_le : info.totalSize ≤ maxModuleSize
  lens_ne_nil : info.chunkLens ≠ []
  count_le : info.chunkLens.length ≤ maxModuleChunkCount
  hashes_length : info.chunkLens.length = info.chunkHashes.length
  lens_sum : info.chunkLens.sum = info.totalSize
  fits : info.totalSize ≤ u64Max

variable {info : ModuleInfo} {maxModuleSize : Nat} {reserve : Nat → Option String}

theorem fromInfo_ok {p : ChunkPlan} (h : fromInfo info maxModuleSize reserve = .ok p) :
    Acceptable info maxModuleSize ∧ reserve info.chunkLens.length = none ∧
      p.totalSize = info.totalSize ∧ p.chunkLens = info.chunkLens := by
  unfold fromInfo at h
  split at h
  · cases h
  rename_i hsize
  split at h
  · cases h
  rename_i hne
  split at h
  · cases h
  rename_i hcount
  split at h
  · cases h
  rename_i hhashes
  split at h
  · cases h
  rename_i sum hsum
  split at h
  · cases h
  rename_i htotal
  split at h
  · cases h
  rename_i hreserve
  split at h
  · cases h
  cases h
  obtain ⟨hfits, rfl⟩ := checkedSum_eq_some.mp hsum
  refine ⟨⟨Nat.le_of_not_lt hsize, hne, Nat.le_of_not_lt hcount, not_not.mp hhashes,
    not_not.mp htotal, ?_⟩, hreserve, rfl, rfl⟩
  rwa [← not_not.mp htotal]

/-- Every rejection but the allocator's is proof that the descriptor is unacceptable, and
the allocator's concerns an acceptable one. -/
theorem fromInfo_error {f : PullFailure} (h : fromInfo info maxModuleSize reserve = .error f) :
    (f.isProvenFalse = true ∧ ¬ Acceptable info maxModuleSize) ∨
      ((∃ e, f = .unsatisfiableDescriptor e) ∧ Acceptable info maxModuleSize ∧
        reserve info.chunkLens.length ≠ none) := by
  unfold fromInfo at h
  split at h
  · rename_i hsize
    cases h
    exact Or.inl ⟨rfl, fun ha => absurd ha.size_le (Nat.not_le.mpr hsize)⟩
  rename_i hsize
  split at h
  · rename_i hne
    cases h
    exact Or.inl ⟨rfl, fun ha => ha.lens_ne_nil hne⟩
  rename_i hne
  split at h
  · rename_i hcount
    cases h
    exact Or.inl ⟨rfl, fun ha => absurd ha.count_le (Nat.not_le.mpr hcount)⟩
  rename_i hcount
  split at h
  · rename_i hhashes
    cases h
    exact Or.inl ⟨rfl, fun ha => hhashes ha.hashes_length⟩
  rename_i hhashes
  split at h
  · rename_i hsum
    cases h
    refine Or.inl ⟨rfl, fun ha => ?_⟩
    have hfits : info.chunkLens.sum ≤ u64Max := ha.lens_sum ▸ ha.fits
    rw [checkedSum_eq_some.mpr ⟨hfits, rfl⟩] at hsum
    cases hsum
  rename_i sum hsum
  split at h
  · rename_i htotal
    cases h
    refine Or.inl ⟨rfl, fun ha => htotal ?_⟩
    rw [(checkedSum_eq_some.mp hsum).2, ha.lens_sum]
  rename_i htotal
  obtain ⟨hfits, rfl⟩ := checkedSum_eq_some.mp hsum
  split at h
  · rename_i e hreserve
    cases h
    refine Or.inr ⟨⟨_, rfl⟩, ⟨Nat.le_of_not_lt hsize, hne, Nat.le_of_not_lt hcount,
      not_not.mp hhashes, not_not.mp htotal, ?_⟩, by simp [hreserve]⟩
    rwa [← not_not.mp htotal]
  split at h
  · rename_i hoff
    have hfits' : 0 + info.chunkLens.sum ≤ u64Max := by rwa [Nat.zero_add]
    obtain ⟨offsets, hoffsets⟩ := pushOffsets_of_le hfits'
    rw [hoffsets] at hoff
    cases hoff
  · cases h

/-- A descriptor is accepted exactly when it is acceptable and can be allocated. -/
theorem fromInfo_isOk_iff :
    (∃ p, fromInfo info maxModuleSize reserve = .ok p) ↔
      Acceptable info maxModuleSize ∧ reserve info.chunkLens.length = none := by
  constructor
  · rintro ⟨p, h⟩
    exact ⟨(fromInfo_ok h).1, (fromInfo_ok h).2.1⟩
  · rintro ⟨ha, hr⟩
    cases h : fromInfo info maxModuleSize reserve with
    | ok p => exact ⟨p, rfl⟩
    | error f =>
      rcases fromInfo_error h with ⟨-, hna⟩ | ⟨-, -, hnr⟩
      · exact absurd ha hna
      · exact absurd hr hnr

end ChunkPlan

end DigDownload
