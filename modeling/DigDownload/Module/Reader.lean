import Mathlib.Data.List.TakeWhile
import DigDownload.Module.Plan
import DigDownload.Storage

/-!
# Reading the staged module back

The anchor verifier does not get the module as one array: it reads windows of the
staging area through `StagedModuleReader`, which re-reads whole chunks, checks each
against the descriptor again, and refuses a window outside the module.
-/

namespace DigDownload

open Slices Tiling

/-- The bounded read-only view that an anchor verifier gets. -/
structure ModuleReader where
  len : Nat
  readAt : Nat → Nat → Except DownloadError Bytes

/-- A view of a staging area under a plan and its chunk hashes. `read` is what the sink
answers while the view is in use. -/
structure StagedModuleReader where
  sha256 : Bytes → Bytes
  read : Nat → Nat → Except DownloadError Bytes
  layout : ChunkPlan
  chunkHashes : List String

namespace StagedModuleReader

variable (r : StagedModuleReader)

/-- Read a chunk back and attribute it again. -/
def verifiedChunk (index : Nat) : Except DownloadError Bytes :=
  let span := r.layout.chunkSpan index
  match r.read span.1 span.2 with
  | .error e => .error e
  | .ok bytes =>
      if bytes.length ≠ span.2 then
        .error (.sink s!"staged chunk {index} reads {bytes.length} bytes, expected {span.2}")
      else if hexOf (r.sha256 bytes) ≠ r.chunkHashes.getD index "" then
        .error (.sink s!"staged chunk {index} no longer matches its verified hash")
      else
        .ok bytes

/-- The reading loop: `count` chunks are left, the next one is `index`, and `out` has
been read of the window so far. -/
def gather (offset len stop : Nat) : Nat → Nat → Bytes → Except DownloadError Bytes
  | count, index, out =>
      if len ≤ out.length then
        .ok out
      else
        match count with
        | 0 => .error (.sink s!"the staged chunk plan does not cover [{offset}, {stop})")
        | count + 1 =>
            let span := r.layout.chunkSpan index
            if span.2 = 0 then
              gather offset len stop count (index + 1) out
            else
              match r.verifiedChunk index with
              | .error e => .error e
              | .ok chunk =>
                  let skip := offset + out.length - span.1
                  let take := min (chunk.length - skip) (len - out.length)
                  gather offset len stop count (index + 1) (out ++ slice chunk skip take)

/-- The last chunk that begins at or before `offset`. -/
def firstChunk (offset : Nat) : Nat :=
  (r.layout.offsets.takeWhile fun s => decide (s ≤ offset)).length - 1

def readAt (offset len : Nat) : Except DownloadError Bytes :=
  if len = 0 then
    .ok []
  else
    match (checkedAdd offset len).filter fun stop => decide (stop ≤ r.layout.totalSize) with
    | none => .error (.sink (s!"read [{offset}, {offset}+{len}) falls outside the " ++
        s!"{r.layout.totalSize}-byte module"))
    | some stop =>
        let index := r.firstChunk offset
        r.gather offset len stop (r.layout.chunkCount - index) index []

def toModuleReader : ModuleReader := { len := r.layout.totalSize, readAt := r.readAt }

/-! ## What the view shows -/

variable {r}

theorem verifiedChunk_ok {index : Nat} {chunk : Bytes} (h : r.verifiedChunk index = .ok chunk) :
    r.read (r.layout.chunkSpan index).1 (r.layout.chunkSpan index).2 = .ok chunk ∧
      chunk.length = (r.layout.chunkSpan index).2 ∧
      hexOf (r.sha256 chunk) = r.chunkHashes.getD index "" := by
  unfold verifiedChunk at h
  dsimp only at h
  split at h
  · cases h
  rename_i bytes hread
  split at h
  · cases h
  rename_i hlen
  split at h
  · cases h
  rename_i hhash
  cases h
  exact ⟨hread, not_not.mp hlen, not_not.mp hhash⟩

/-- The sink behind the view answers with the bytes of `staged` or fails. -/
def Shows (r : StagedModuleReader) (staged : Bytes) : Prop :=
  ∀ off len bytes, r.read off len = .ok bytes → bytes = slice staged off len

/-- The first chunk read begins at or before the window. -/
theorem start_firstChunk_le (r : StagedModuleReader) (offset : Nat) :
    start r.layout.chunkLens (r.firstChunk offset) ≤ offset := by
  unfold firstChunk
  cases hn : (r.layout.offsets.takeWhile fun s => decide (s ≤ offset)).length with
  | zero => simp
  | succ n =>
    have hmem : (r.layout.offsets.takeWhile fun s => decide (s ≤ offset))[n] ≤ offset := by
      have := List.mem_takeWhile_imp (List.getElem_mem (by omega :
        n < (r.layout.offsets.takeWhile fun s => decide (s ≤ offset)).length))
      simpa using this
    have hget := (List.takeWhile_prefix (l := r.layout.offsets)
      fun s => decide (s ≤ offset)).getElem (by omega : n < _)
    rw [hget] at hmem
    simpa [r.layout.offsets_eq] using hmem

theorem firstChunk_le (r : StagedModuleReader) (offset : Nat) :
    r.firstChunk offset ≤ r.layout.chunkCount := by
  unfold firstChunk
  have h := (List.takeWhile_prefix (l := r.layout.offsets)
    fun s => decide (s ≤ offset)).length_le
  have hlen : r.layout.offsets.length = r.layout.chunkCount := by
    rw [r.layout.offsets_eq]
    simp [ChunkPlan.chunkCount]
  omega

/-! ## What the view depends on -/

/-- Two views of which every chunk reads the same are the same. -/
theorem readAt_congr (read : Nat → Nat → Except DownloadError Bytes)
    (h : ∀ i < r.layout.chunkCount, read (r.layout.chunkSpan i).1 (r.layout.chunkSpan i).2
      = r.read (r.layout.chunkSpan i).1 (r.layout.chunkSpan i).2) :
    readAt { r with read } = r.readAt := by
  have hchunk : ∀ i < r.layout.chunkCount,
      verifiedChunk { r with read } i = r.verifiedChunk i := by
    intro i hi
    unfold verifiedChunk
    dsimp only
    rw [h i hi]
  have hgather : ∀ (offset len stop count index : Nat) (out : Bytes),
      index + count = r.layout.chunkCount →
      gather { r with read } offset len stop count index out
        = r.gather offset len stop count index out := by
    intro offset len stop count
    induction count with
    | zero => exact fun index out _ => rfl
    | succ count ih =>
      intro index out hcount
      unfold gather
      rw [hchunk index (by omega)]
      split
      · rfl
      dsimp only
      split
      · exact ih _ _ (by omega)
      split
      · rfl
      · exact ih _ _ (by omega)
  funext offset len
  unfold readAt
  split
  · rfl
  cases hstop : (checkedAdd offset len).filter fun stop => decide (stop ≤ r.layout.totalSize) with
  | none => rfl
  | some stop =>
    exact hgather _ _ _ _ _ _ (Nat.add_sub_of_le (firstChunk_le r offset))

end StagedModuleReader

end DigDownload
