import DigDownload.Module.Reader

/-!
# The windows of the staged module

The view that an anchor verifier gets is the module that was verified: a window can be read
exactly when it lies within the module and every chunk with bytes in it reads back as it
was verified, and what is read is that part of the module. The reading loop starts at the
last chunk that begins at or before the window, steps over empty chunks, and never reads a
chunk that has no byte in the window; so the offsets it computes with stay within the
chunk that was read.
-/

namespace DigDownload

open Slices Tiling

namespace StagedModuleReader

/-! ## The reading loop with its bounds -/

variable (r : StagedModuleReader)

/-- `verified_chunk`, with its indexing: `none` where it would stop the program. -/
def verifiedChunkChecked (index : Nat) : Option (Except DownloadError Bytes) := do
  let offset ← r.layout.offsets[index]?
  let len ← r.layout.chunkLens[index]?
  match r.read offset len with
  | .error e => some (.error e)
  | .ok bytes =>
      if bytes.length ≠ len then
        some (.error (.sink s!"staged chunk {index} reads {bytes.length} bytes, expected {len}"))
      else do
        let hash ← r.chunkHashes[index]?
        if hexOf (r.sha256 bytes) ≠ hash then
          some (.error (.sink s!"staged chunk {index} no longer matches its verified hash"))
        else
          some (.ok bytes)

/-- The loop of `read_at`, with its indexing, its arithmetic and its slice: `none` where it
would stop the program, or where it goes on after `fuel` turns. -/
def gatherChecked (offset len stop : Nat) : Nat → Nat → Bytes → Option (Except DownloadError Bytes)
  | 0, _, _ => none
  | fuel + 1, index, out =>
      if len ≤ out.length then
        some (.ok out)
      else if r.layout.chunkCount ≤ index then
        some (.error (.sink s!"the staged chunk plan does not cover [{offset}, {stop})"))
      else do
        let chunkOffset ← r.layout.offsets[index]?
        let chunkLen ← r.layout.chunkLens[index]?
        if chunkLen = 0 then
          gatherChecked offset len stop fuel (index + 1) out
        else
          match ← r.verifiedChunkChecked index with
          | .error e => some (.error e)
          | .ok chunk =>
              let wantFrom ← checkedAdd offset out.length
              let skip ← checkedSub wantFrom chunkOffset
              let left ← checkedSub len out.length
              let piece ← checkedSlice chunk skip (skip + min (chunk.length - skip) left)
              gatherChecked offset len stop fuel (index + 1) (out ++ piece)

/-- `read_at`, with all of these. -/
def readAtChecked (offset len : Nat) : Option (Except DownloadError Bytes) :=
  if len = 0 then
    some (.ok [])
  else
    match (checkedAdd offset len).filter fun stop => decide (stop ≤ r.layout.totalSize) with
    | none => some (.error (.sink (s!"read [{offset}, {offset}+{len}) falls outside the " ++
        s!"{r.layout.totalSize}-byte module")))
    | some stop => r.gatherChecked offset len stop (r.layout.chunkCount + 1) (r.firstChunk offset) []

/-! ## Where the loop is -/

/-- The loop has read `out` of the window, and comes to chunk `index`: the window goes on in
that chunk, or where it begins; or it is full, and ends before that chunk. -/
structure At (offset len index : Nat) (out : Bytes) : Prop where
  le : out.length ≤ len
  full : out.length = len → offset + len ≤ start r.layout.chunkLens index
  begun : out.length < len → start r.layout.chunkLens index ≤ offset + out.length
  here : out.length < len → start r.layout.chunkLens index = offset + out.length ∨
    offset + out.length < start r.layout.chunkLens (index + 1)

variable {r} {offset len stop index count : Nat} {out piece chunk : Bytes}

/-- Stepping over an empty chunk. -/
theorem At.skip (h : r.At offset len index out)
    (hempty : start r.layout.chunkLens (index + 1) = start r.layout.chunkLens index) :
    r.At offset len (index + 1) out := by
  obtain ⟨hle, hfull, hbegun, hhere⟩ := h
  constructor
  · exact hle
  · intro hend
    rw [hempty]
    exact hfull hend
  · intro hmore
    rw [hempty]
    exact hbegun hmore
  · intro hmore
    have := hbegun hmore
    have := hhere hmore
    omega

/-- Reading on in a chunk. -/
theorem At.take (h : r.At offset len index out) (hmore : out.length < len)
    (hlen : piece.length
      = min (start r.layout.chunkLens (index + 1) - (offset + out.length)) (len - out.length))
    (hpast : offset + out.length < start r.layout.chunkLens (index + 1)) :
    r.At offset len (index + 1) (out ++ piece) := by
  have hbegun := h.begun hmore
  constructor <;> rw [List.length_append, hlen] <;> omega

/-- A chunk with bytes in it, where the window goes on. -/
theorem At.past (h : r.At offset len index out) (hmore : out.length < len)
    (hbytes : start r.layout.chunkLens index < start r.layout.chunkLens (index + 1)) :
    offset + out.length < start r.layout.chunkLens (index + 1) := by
  have := h.here hmore
  have := h.begun hmore
  omega

/-- Past the last chunk the window is full. -/
theorem At.index_lt (h : r.At offset len index out) (hmore : out.length < len)
    (hle : offset + len ≤ r.layout.totalSize) : index < r.layout.chunkCount := by
  by_contra hend
  have hstart : r.layout.totalSize ≤ start r.layout.chunkLens index := by
    rw [← r.layout.start_chunkCount]
    exact start_mono (Nat.le_of_not_lt hend)
  have := h.begun hmore
  omega

/-- The chunk after the first one that is read begins beyond the beginning of the window. -/
theorem lt_start_firstChunk_succ (r : StagedModuleReader) (h : offset < r.layout.totalSize) :
    offset < start r.layout.chunkLens (r.firstChunk offset + 1) := by
  have hlength : (r.layout.offsets.takeWhile fun s => decide (s ≤ offset)).length
      = r.layout.offsets.findIdx fun s => !decide (s ≤ offset) := by
    rw [List.takeWhile_eq_take_findIdx_not, List.length_take]
    exact Nat.min_eq_left List.findIdx_le_length
  have hcount : r.layout.offsets.length = r.layout.chunkCount := by
    rw [r.layout.offsets_eq, List.length_map, List.length_range]
    rfl
  have hpos := r.layout.chunkCount_pos
  rw [firstChunk, hlength]
  cases Nat.lt_or_ge (r.layout.offsets.findIdx fun s => !decide (s ≤ offset))
      r.layout.offsets.length with
  | inl hlt =>
    -- the first chunk that begins later
    have hfound := List.findIdx_getElem (w := hlt)
    have hlater : offset < start r.layout.chunkLens
        (r.layout.offsets.findIdx fun s => !decide (s ≤ offset)) := by
      simpa [r.layout.offsets_eq] using hfound
    exact Nat.lt_of_lt_of_le hlater (start_mono (by omega))
  | inr hall =>
    have hend := r.layout.start_chunkCount
    rw [← hcount] at hend
    exact Nat.lt_of_lt_of_le (hend.symm ▸ h) (start_mono (by omega))

/-- The loop begins at the chunk where the window does. -/
theorem At.first (r : StagedModuleReader) (hpos : 0 < len)
    (hle : offset + len ≤ r.layout.totalSize) : r.At offset len (r.firstChunk offset) [] := by
  constructor
  · exact Nat.zero_le _
  · intro hfull
    exact absurd hfull (Nat.ne_of_lt hpos)
  · intro _
    exact Nat.le_trans (start_firstChunk_le r offset) (Nat.le_add_right _ _)
  · intro _
    exact .inr (lt_start_firstChunk_succ r (by omega))

/-! ## One turn of the loop -/

theorem start_chunk (r : StagedModuleReader) (h : index < r.layout.chunkCount) :
    (r.layout.chunkSpan index).1 = start r.layout.chunkLens index := by
  rw [r.layout.chunkSpan_of_lt h]

theorem start_succ_chunk (r : StagedModuleReader) (h : index < r.layout.chunkCount) :
    start r.layout.chunkLens (index + 1)
      = (r.layout.chunkSpan index).1 + (r.layout.chunkSpan index).2 := by
  rw [r.layout.chunkSpan_of_lt h]
  exact start_succ h

theorem gather_of_full (hfull : len ≤ out.length) :
    r.gather offset len stop count index out = .ok out := by
  cases count with
  | zero => rw [gather, if_pos hfull]
  | succ count => rw [gather, if_pos hfull]

theorem gather_of_empty (hmore : out.length < len) (hempty : (r.layout.chunkSpan index).2 = 0) :
    r.gather offset len stop (count + 1) index out
      = r.gather offset len stop count (index + 1) out := by
  rw [gather, if_neg (Nat.not_le.mpr hmore)]
  dsimp only
  rw [if_pos hempty]

theorem gather_of_failed {e : DownloadError} (hmore : out.length < len)
    (hbytes : (r.layout.chunkSpan index).2 ≠ 0) (hchunk : r.verifiedChunk index = .error e) :
    r.gather offset len stop (count + 1) index out = .error e := by
  rw [gather, if_neg (Nat.not_le.mpr hmore)]
  dsimp only
  rw [if_neg hbytes, hchunk]

/-- What is taken of a chunk. -/
def pieceAt (r : StagedModuleReader) (offset len index : Nat) (out chunk : Bytes) : Bytes :=
  slice chunk (offset + out.length - (r.layout.chunkSpan index).1)
    (min (chunk.length - (offset + out.length - (r.layout.chunkSpan index).1))
      (len - out.length))

theorem gather_of_verified (hmore : out.length < len)
    (hbytes : (r.layout.chunkSpan index).2 ≠ 0) (hchunk : r.verifiedChunk index = .ok chunk) :
    r.gather offset len stop (count + 1) index out
      = r.gather offset len stop count (index + 1)
          (out ++ r.pieceAt offset len index out chunk) := by
  rw [gather, if_neg (Nat.not_le.mpr hmore)]
  dsimp only
  rw [if_neg hbytes, hchunk]
  rfl

/-- The loop after it has read on in a chunk. -/
theorem At.readOn (h : r.At offset len index out) (hmore : out.length < len)
    (hindex : index < r.layout.chunkCount) (hbytes : (r.layout.chunkSpan index).2 ≠ 0)
    (hchunk : r.verifiedChunk index = .ok chunk) :
    r.At offset len (index + 1) (out ++ r.pieceAt offset len index out chunk) := by
  obtain ⟨-, hclen, -⟩ := verifiedChunk_ok hchunk
  have hsucc := start_succ_chunk r hindex
  have hbegin := start_chunk r hindex
  have hbegun := h.begun hmore
  have hpast := h.past hmore (by omega)
  refine h.take hmore ?_ hpast
  rw [pieceAt, length_slice]
  omega

/-! ## What can be read -/

/-- Every chunk with bytes in it, from chunk `index` on, that begins before `stop` reads back
as it was verified. -/
def Intact (r : StagedModuleReader) (stop index : Nat) : Prop :=
  ∀ i, index ≤ i → i < r.layout.chunkCount → (r.layout.chunkSpan i).2 ≠ 0 →
    (r.layout.chunkSpan i).1 < stop → ∃ chunk, r.verifiedChunk i = .ok chunk

theorem gather_isOk_iff (hle : offset + len ≤ r.layout.totalSize)
    (h : r.At offset len index out) (hcount : index + count = r.layout.chunkCount) :
    (∃ b, r.gather offset len stop count index out = .ok b) ↔ r.Intact (offset + len) index := by
  induction count generalizing index out with
  | zero =>
    have hfull : len ≤ out.length := by
      by_contra hmore
      have := h.index_lt (Nat.lt_of_not_le hmore) hle
      omega
    rw [gather_of_full hfull]
    refine iff_of_true ⟨out, rfl⟩ fun i hi hlt => ?_
    omega
  | succ count ih =>
    have hindex : index < r.layout.chunkCount := by omega
    by_cases hfull : len ≤ out.length
    · rw [gather_of_full hfull]
      refine iff_of_true ⟨out, rfl⟩ fun i hi hlt _ hbegins => ?_
      -- a full window ends before the next chunk
      have hend := h.full (Nat.le_antisymm h.le hfull)
      have hmono : start r.layout.chunkLens index ≤ start r.layout.chunkLens i := start_mono hi
      have hbegin := start_chunk r hlt
      omega
    have hmore : out.length < len := Nat.lt_of_not_le hfull
    have hbegin := start_chunk r hindex
    have hsucc := start_succ_chunk r hindex
    by_cases hempty : (r.layout.chunkSpan index).2 = 0
    · rw [gather_of_empty hmore hempty, ih (h.skip (by omega)) (by omega)]
      constructor
      · intro hrest i hi
        cases Nat.eq_or_lt_of_le hi with
        | inl heq => exact fun _ hbytes => absurd (heq ▸ hempty) hbytes
        | inr hlt => exact hrest i hlt
      · exact fun hall i hi => hall i (Nat.le_of_succ_le hi)
    · have hbegins : (r.layout.chunkSpan index).1 < offset + len := by
        have := h.begun hmore
        omega
      cases hchunk : r.verifiedChunk index with
      | error e =>
        rw [gather_of_failed hmore hempty hchunk]
        refine iff_of_false nofun fun hall => ?_
        obtain ⟨chunk, hok⟩ := hall index (Nat.le_refl _) hindex hempty hbegins
        rw [hchunk] at hok
        cases hok
      | ok chunk =>
        rw [gather_of_verified hmore hempty hchunk,
          ih (h.readOn hmore hindex hempty hchunk) (by omega)]
        constructor
        · intro hrest i hi
          cases Nat.eq_or_lt_of_le hi with
          | inl heq => exact fun _ _ _ => ⟨chunk, heq ▸ hchunk⟩
          | inr hlt => exact hrest i hlt
        · exact fun hall i hi => hall i (Nat.le_of_succ_le hi)

/-- What the loop reads is the window of any array that shows the chunks it read. -/
theorem gather_eq_slice {whole b : Bytes}
    (hwhole : ∀ i < r.layout.chunkCount, ∀ chunk, r.verifiedChunk i = .ok chunk →
      chunk = slice whole (r.layout.chunkSpan i).1 (r.layout.chunkSpan i).2)
    (hle : offset + len ≤ r.layout.totalSize) (h : r.At offset len index out)
    (hcount : index + count = r.layout.chunkCount) (hout : out = slice whole offset out.length)
    (hok : r.gather offset len stop count index out = .ok b) : b = slice whole offset len := by
  induction count generalizing index out with
  | zero =>
    have hfull : len ≤ out.length := by
      by_contra hmore
      have := h.index_lt (Nat.lt_of_not_le hmore) hle
      omega
    rw [gather_of_full hfull] at hok
    cases hok
    rwa [Nat.le_antisymm h.le hfull] at hout
  | succ count ih =>
    have hindex : index < r.layout.chunkCount := by omega
    by_cases hfull : len ≤ out.length
    · rw [gather_of_full hfull] at hok
      cases hok
      rwa [Nat.le_antisymm h.le hfull] at hout
    have hmore : out.length < len := Nat.lt_of_not_le hfull
    have hbegin := start_chunk r hindex
    have hsucc := start_succ_chunk r hindex
    by_cases hempty : (r.layout.chunkSpan index).2 = 0
    · rw [gather_of_empty hmore hempty] at hok
      exact ih (h.skip (by omega)) (by omega) hout hok
    · cases hchunk : r.verifiedChunk index with
      | error e =>
        rw [gather_of_failed hmore hempty hchunk] at hok
        cases hok
      | ok chunk =>
        rw [gather_of_verified hmore hempty hchunk] at hok
        refine ih (h.readOn hmore hindex hempty hchunk) (by omega) ?_ hok
        -- the piece taken from this chunk continues the window where `out` ends
        have hbegun := h.begun hmore
        have hclen := (verifiedChunk_ok hchunk).2.1
        have hpiece : r.pieceAt offset len index out chunk
            = slice whole (offset + out.length) (r.pieceAt offset len index out chunk).length := by
          have hat : (r.layout.chunkSpan index).1
              + (offset + out.length - (r.layout.chunkSpan index).1) = offset + out.length := by
            omega
          have hcut : ∀ n, n ≤ chunk.length - (offset + out.length - (r.layout.chunkSpan index).1) →
              slice chunk (offset + out.length - (r.layout.chunkSpan index).1) n
                = slice whole (offset + out.length) n := by
            intro n hn
            rw [hclen] at hn
            rw [hwhole index hindex chunk hchunk, slice_slice, hat, Nat.min_eq_left hn]
          have hlen : (r.pieceAt offset len index out chunk).length
              = min (chunk.length - (offset + out.length - (r.layout.chunkSpan index).1))
                  (len - out.length) := by
            rw [pieceAt, length_slice]
            omega
          rw [hlen, pieceAt]
          exact hcut _ (Nat.min_le_left _ _)
        rw [List.length_append, ← slice_append_slice, ← hout, ← hpiece]

/-- The window goes over bytes of the chunk. -/
def Overlaps (r : StagedModuleReader) (offset len i : Nat) : Prop :=
  (r.layout.chunkSpan i).2 ≠ 0 ∧ (r.layout.chunkSpan i).1 < offset + len ∧
    offset < (r.layout.chunkSpan i).1 + (r.layout.chunkSpan i).2

/-- From where the loop begins, these are the chunks that begin before the window ends. -/
theorem intact_firstChunk (hlt : offset < r.layout.totalSize) :
    r.Intact (offset + len) (r.firstChunk offset) ↔
      ∀ i < r.layout.chunkCount, r.Overlaps offset len i →
        ∃ chunk, r.verifiedChunk i = .ok chunk := by
  constructor
  · intro hintact i hi ⟨hbytes, hbegins, hends⟩
    refine hintact i ?_ hi hbytes hbegins
    by_contra hbefore
    have hmono : start r.layout.chunkLens (i + 1) ≤ start r.layout.chunkLens (r.firstChunk offset) :=
      start_mono (Nat.lt_of_not_le hbefore)
    have hsucc := start_succ_chunk r hi
    have hfirst := start_firstChunk_le r offset
    omega
  · intro hall i hfirst hi hbytes hbegins
    refine hall i hi ⟨hbytes, hbegins, ?_⟩
    have hmono : start r.layout.chunkLens (r.firstChunk offset + 1) ≤ start r.layout.chunkLens (i + 1) :=
      start_mono (Nat.succ_le_succ hfirst)
    have hpast := lt_start_firstChunk_succ r hlt
    rw [← start_succ_chunk r hi]
    omega

/-- What is verified of a chunk; zeros where it is not. -/
def shown (r : StagedModuleReader) (i : Nat) : Bytes :=
  match r.verifiedChunk i with
  | .ok chunk => chunk
  | .error _ => List.replicate (r.layout.chunkSpan i).2 0

/-- The concatenation of the chunks. -/
def assembled (r : StagedModuleReader) : Bytes :=
  ((List.range r.layout.chunkCount).map r.shown).flatten

theorem length_shown (r : StagedModuleReader) (i : Nat) :
    (r.shown i).length = (r.layout.chunkSpan i).2 := by
  rw [shown]
  cases hchunk : r.verifiedChunk i with
  | ok chunk => exact (verifiedChunk_ok hchunk).2.1
  | error e => exact List.length_replicate

theorem slice_assembled (r : StagedModuleReader) {i : Nat} (h : i < r.layout.chunkCount) :
    slice r.assembled (r.layout.chunkSpan i).1 (r.layout.chunkSpan i).2 = r.shown i := by
  have hlens : ((List.range r.layout.chunkCount).map r.shown).map List.length
      = r.layout.chunkLens := by
    refine List.ext_getElem (by simp [ChunkPlan.chunkCount]) fun j _ hj => ?_
    rw [List.getElem_map, List.getElem_map, List.getElem_range, length_shown,
      r.layout.chunkSpan_of_lt hj]
  have hpiece := slice_flatten ((List.range r.layout.chunkCount).map r.shown) (i := i)
    (by simpa using h)
  rw [hlens, List.getElem_map, List.getElem_range, length_shown, ← start_chunk r h] at hpiece
  exact hpiece

/-! ## The view -/

theorem readAt_of_within (hpos : 0 < len) (hle : offset + len ≤ r.layout.totalSize) :
    r.readAt offset len = r.gather offset len (offset + len)
      (r.layout.chunkCount - r.firstChunk offset) (r.firstChunk offset) [] := by
  have hadd : (checkedAdd offset len).filter (fun stop => decide (stop ≤ r.layout.totalSize))
      = some (offset + len) := by
    rw [checkedAdd_of_le (Nat.le_trans hle r.layout.fits)]
    simpa using hle
  rw [readAt, if_neg (Nat.ne_of_gt hpos), hadd]

theorem readAt_of_outside (hpos : 0 < len) (hover : ¬ offset + len ≤ r.layout.totalSize) :
    ∃ e, r.readAt offset len = .error e := by
  have hadd : (checkedAdd offset len).filter (fun stop => decide (stop ≤ r.layout.totalSize))
      = none := by
    rw [Option.filter_eq_none_iff]
    intro stop hstop
    obtain ⟨-, rfl⟩ := checkedAdd_eq_some.mp hstop
    simpa using hover
  rw [readAt, if_neg (Nat.ne_of_gt hpos), hadd]
  exact ⟨_, rfl⟩

/-- A window can be read when it lies within the module and the chunks it goes over are
intact. -/
theorem readAt_isOk_iff (hpos : 0 < len) :
    (∃ b, r.readAt offset len = .ok b) ↔ offset + len ≤ r.layout.totalSize ∧
      ∀ i < r.layout.chunkCount, r.Overlaps offset len i →
        ∃ chunk, r.verifiedChunk i = .ok chunk := by
  by_cases hle : offset + len ≤ r.layout.totalSize
  · rw [readAt_of_within hpos hle, gather_isOk_iff hle (At.first r hpos hle)
      (Nat.add_sub_of_le (firstChunk_le r offset)), intact_firstChunk (by omega)]
    exact (and_iff_right hle).symm
  · obtain ⟨e, he⟩ := readAt_of_outside (r := r) hpos hle
    rw [he]
    exact iff_of_false nofun fun h => hle h.1

/-- What is read is the window of any array that shows the verified chunks. -/
theorem readAt_eq_slice {whole b : Bytes}
    (hwhole : ∀ i < r.layout.chunkCount, ∀ chunk, r.verifiedChunk i = .ok chunk →
      chunk = slice whole (r.layout.chunkSpan i).1 (r.layout.chunkSpan i).2)
    (hok : r.readAt offset len = .ok b) :
    b = slice whole offset len ∧ (len = 0 ∨ offset + len ≤ r.layout.totalSize) := by
  cases Nat.eq_zero_or_pos len with
  | inl hzero =>
    rw [readAt, if_pos hzero] at hok
    cases hok
    exact ⟨by simp [hzero, slice], .inl hzero⟩
  | inr hpos =>
    have hle := ((readAt_isOk_iff hpos).mp ⟨b, hok⟩).1
    rw [readAt_of_within hpos hle] at hok
    exact ⟨gather_eq_slice hwhole hle (At.first r hpos hle)
      (Nat.add_sub_of_le (firstChunk_le r offset)) (by simp [slice]) hok, .inr hle⟩

/-- Every byte the view lets out is the byte of the staging area at that position, and
no window reaches past the module. -/
theorem readAt_ok {staged : Bytes} (hs : r.Shows staged) {bytes : Bytes}
    (h : r.readAt offset len = .ok bytes) :
    bytes = slice staged offset len ∧ (len = 0 ∨ offset + len ≤ r.layout.totalSize) :=
  readAt_eq_slice (fun _ _ _ hchunk => hs _ _ _ (verifiedChunk_ok hchunk).1) h

/-- A window within the module can be read when every chunk is intact. -/
theorem readAt_total (hchunks : ∀ i < r.layout.chunkCount, ∃ chunk, r.verifiedChunk i = .ok chunk)
    (hle : offset + len ≤ r.layout.totalSize) : ∃ bytes, r.readAt offset len = .ok bytes := by
  cases Nat.eq_zero_or_pos len with
  | inl hzero => exact ⟨[], if_pos hzero⟩
  | inr hpos => exact (readAt_isOk_iff hpos).mpr ⟨hle, fun i hi _ => hchunks i hi⟩

/-! ## The program does not stop -/

theorem getElem?_span (r : StagedModuleReader) (h : index < r.layout.chunkCount) :
    r.layout.offsets[index]? = some (r.layout.chunkSpan index).1 ∧
      r.layout.chunkLens[index]? = some (r.layout.chunkSpan index).2 := by
  have h' : index < r.layout.chunkLens.length := h
  rw [r.layout.chunkSpan_of_lt h, r.layout.offsets_eq]
  constructor
  · simp [h']
  · exact List.getElem?_eq_getElem h'

theorem verifiedChunkChecked_eq (hhashes : r.chunkHashes.length = r.layout.chunkCount)
    (h : index < r.layout.chunkCount) :
    r.verifiedChunkChecked index = some (r.verifiedChunk index) := by
  obtain ⟨hoffset, hlen⟩ := getElem?_span r h
  have hhash : r.chunkHashes[index]? = some (r.chunkHashes.getD index "") := by
    rw [← hhashes] at h
    simp [h]
  rw [verifiedChunkChecked, hoffset, hlen, hhash, verifiedChunk]
  dsimp only [Option.bind_eq_bind, Option.bind_some]
  cases r.read (r.layout.chunkSpan index).1 (r.layout.chunkSpan index).2 with
  | error e => rfl
  | ok bytes =>
    dsimp only
    split
    · rfl
    · split <;> rfl

theorem gatherChecked_eq (hhashes : r.chunkHashes.length = r.layout.chunkCount)
    (hle : offset + len ≤ r.layout.totalSize) {fuel : Nat} (h : r.At offset len index out)
    (hcount : index + count = r.layout.chunkCount) (hfuel : count < fuel) :
    r.gatherChecked offset len stop fuel index out
      = some (r.gather offset len stop count index out) := by
  induction count generalizing fuel index out with
  | zero =>
    obtain ⟨fuel, rfl⟩ : ∃ k, fuel = k + 1 := ⟨fuel - 1, by omega⟩
    have hfull : len ≤ out.length := by
      by_contra hmore
      have := h.index_lt (Nat.lt_of_not_le hmore) hle
      omega
    rw [gather_of_full hfull, gatherChecked, if_pos hfull]
  | succ count ih =>
    obtain ⟨fuel, rfl⟩ : ∃ k, fuel = k + 1 := ⟨fuel - 1, by omega⟩
    by_cases hfull : len ≤ out.length
    · rw [gather_of_full hfull, gatherChecked, if_pos hfull]
    have hmore : out.length < len := Nat.lt_of_not_le hfull
    have hindex : index < r.layout.chunkCount := by omega
    have hbegin := start_chunk r hindex
    have hsucc := start_succ_chunk r hindex
    obtain ⟨hoffset, hlen⟩ := getElem?_span r hindex
    rw [gatherChecked, if_neg hfull, if_neg (Nat.not_le.mpr hindex), hoffset, hlen,
      verifiedChunkChecked_eq hhashes hindex]
    dsimp only [Option.bind_eq_bind, Option.bind_some]
    by_cases hempty : (r.layout.chunkSpan index).2 = 0
    · rw [if_pos hempty, gather_of_empty hmore hempty]
      exact ih (h.skip (by omega)) (by omega) (by omega)
    · rw [if_neg hempty]
      cases hchunk : r.verifiedChunk index with
      | error e => rw [gather_of_failed hmore hempty hchunk]
      | ok chunk =>
        have hbegun := h.begun hmore
        have hpast := h.past hmore (by omega)
        have hclen := (verifiedChunk_ok hchunk).2.1
        have hfits := r.layout.fits
        have hadd : checkedAdd offset out.length = some (offset + out.length) :=
          checkedAdd_of_le (by omega)
        have hsub : checkedSub (offset + out.length) (r.layout.chunkSpan index).1
            = some (offset + out.length - (r.layout.chunkSpan index).1) :=
          checkedSub_of_le (by omega)
        have hleft : checkedSub len out.length = some (len - out.length) := checkedSub_of_le h.le
        dsimp only
        rw [hadd, Option.bind_some, hsub, Option.bind_some, hleft, Option.bind_some,
          checkedSlice_of_le (by omega), Option.bind_some, gather_of_verified hmore hempty hchunk]
        exact ih (h.readOn hmore hindex hempty hchunk) (by omega) (by omega)

theorem readAtChecked_eq (hhashes : r.chunkHashes.length = r.layout.chunkCount) :
    r.readAtChecked offset len = some (r.readAt offset len) := by
  rw [readAtChecked, readAt]
  split
  · rfl
  · rename_i hzero
    cases hstop : (checkedAdd offset len).filter (· ≤ r.layout.totalSize) with
    | none => rfl
    | some stop =>
      obtain ⟨hadd, hle⟩ := Option.filter_eq_some_iff.mp hstop
      obtain ⟨-, rfl⟩ := checkedAdd_eq_some.mp hadd
      exact gatherChecked_eq hhashes (by simpa using hle)
        (At.first r (Nat.pos_of_ne_zero hzero) (by simpa using hle))
        (Nat.add_sub_of_le (firstChunk_le r offset)) (by omega)

end StagedModuleReader

/-- The view of a staged module under an accepted descriptor is the verified module: its
program does not stop, and a window is read if and only if it is empty, or lies within the
module and goes over chunks that read back as they were verified; it is then that part of
their concatenation. -/
theorem stagedModuleReader_exact (sha256 : Bytes → Bytes)
    (read : Nat → Nat → Except DownloadError Bytes) {info : ModuleInfo} {maxModuleSize : Nat}
    {reserve : Nat → Option String} {layout : ChunkPlan}
    (hplan : ChunkPlan.fromInfo info maxModuleSize reserve = .ok layout) (offset len : Nat) :
    let r : StagedModuleReader := ⟨sha256, read, layout, info.chunkHashes⟩
    r.readAtChecked offset len = some (r.readAt offset len) ∧
      ∀ b, r.readAt offset len = .ok b ↔ len = 0 ∧ b = [] ∨
        0 < len ∧ offset + len ≤ layout.totalSize ∧
          (∀ i < layout.chunkCount, r.Overlaps offset len i →
            ∃ chunk, r.verifiedChunk i = .ok chunk) ∧
          b = slice r.assembled offset len := by
  intro r
  obtain ⟨hacceptable, -, -, hlens⟩ := ChunkPlan.fromInfo_ok hplan
  have hhashes : r.chunkHashes.length = r.layout.chunkCount := by
    show info.chunkHashes.length = layout.chunkLens.length
    rw [hlens, hacceptable.hashes_length]
  refine ⟨StagedModuleReader.readAtChecked_eq hhashes, fun b => ?_⟩
  have hassembled : ∀ i < r.layout.chunkCount, ∀ chunk, r.verifiedChunk i = .ok chunk →
      chunk = slice r.assembled (r.layout.chunkSpan i).1 (r.layout.chunkSpan i).2 := by
    intro i hi chunk hchunk
    rw [StagedModuleReader.slice_assembled r hi, StagedModuleReader.shown, hchunk]
  constructor
  · intro hok
    have hslice := (StagedModuleReader.readAt_eq_slice hassembled hok).1
    cases Nat.eq_zero_or_pos len with
    | inl hzero => exact .inl ⟨hzero, by rw [hslice, hzero]; rfl⟩
    | inr hpos =>
      obtain ⟨hle, hchunks⟩ := (StagedModuleReader.readAt_isOk_iff hpos).mp ⟨b, hok⟩
      exact .inr ⟨hpos, hle, hchunks, hslice⟩
  · intro hread
    cases hread with
    | inl hzero =>
      obtain ⟨rfl, rfl⟩ := hzero
      exact if_pos rfl
    | inr hwithin =>
      obtain ⟨hpos, hle, hchunks, rfl⟩ := hwithin
      have hexists : ∃ b, r.readAt offset len = .ok b :=
        (StagedModuleReader.readAt_isOk_iff hpos).mpr ⟨hle, hchunks⟩
      obtain ⟨b, hok⟩ := hexists
      rw [hok, (StagedModuleReader.readAt_eq_slice hassembled hok).1]

/-- Empty chunks before, between and after two others, and a window over both of these. -/
theorem stagedModuleReader_over_empty_chunks :
    ∃ layout, ChunkPlan.fromInfo ⟨3, "", ["", hexOf [5, 6], "", hexOf [7], ""], [0, 2, 0, 1, 0]⟩ 3
        (fun _ => none) = .ok layout ∧
      let r : StagedModuleReader := ⟨id, fun off len => .ok (slice [5, 6, 7] off len), layout,
        ["", hexOf [5, 6], "", hexOf [7], ""]⟩
      r.readAtChecked 1 2 = some (r.readAt 1 2) ∧
        ∀ b, r.readAt 1 2 = .ok b ↔ 2 = 0 ∧ b = [] ∨
          0 < 2 ∧ 1 + 2 ≤ layout.totalSize ∧
            (∀ i < layout.chunkCount, r.Overlaps 1 2 i → ∃ chunk, r.verifiedChunk i = .ok chunk) ∧
            b = slice r.assembled 1 2 := by
  obtain ⟨layout, hlayout⟩ : ∃ layout, ChunkPlan.fromInfo
      ⟨3, "", ["", hexOf [5, 6], "", hexOf [7], ""], [0, 2, 0, 1, 0]⟩ 3 (fun _ => none)
        = .ok layout :=
    ChunkPlan.fromInfo_isOk_iff.mpr
      ⟨⟨by decide, by decide, by decide, by decide, by decide, by decide⟩, rfl⟩
  exact ⟨layout, hlayout, stagedModuleReader_exact id _ hlayout 1 2⟩

end DigDownload
