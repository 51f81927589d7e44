import DigDownload.Storage

/-!
# The sinks of the crate

`Sink` is a trait: what a download writes into is supplied by its caller. Two
implementations come with the crate, one in memory for the tests and one in a staging file.
Both are modelled on a machine that has the memory and the disk they ask for, where an
`usize` has 64 bits.
-/

namespace DigDownload

open Slices

/-- An implementation of the trait, over its own states. A call that is not overridden
fails, but for `finalize`, which does nothing. -/
structure SinkImpl (σ : Type) where
  writeAt : Nat → Bytes → Prog σ DownloadError Unit
  finalize : Prog σ DownloadError Unit := pure ()
  truncate : Nat → Prog σ DownloadError Unit := fun _ =>
    Prog.fail (.sink "truncation unsupported by this sink")
  supportsReadBack : σ → Bool := fun _ => false
  readAt : Nat → Nat → Prog σ DownloadError Bytes := fun _ _ =>
    Prog.fail (.sink "read-back unsupported by this sink")

theorem readBackBounds_eq_ok {offset len : Nat} {span : Nat × Nat} :
    readBackBounds offset len = .ok span ↔
      offset + len ≤ u64Max ∧ span = (offset, offset + len) := by
  rw [readBackBounds]
  cases hadd : checkedAdd offset len with
  | none =>
    have hover : ¬ offset + len ≤ u64Max := fun h => by
      rw [checkedAdd_of_le h] at hadd
      cases hadd
    simp [hover]
  | some stop =>
    obtain ⟨hfits, rfl⟩ := checkedAdd_eq_some.mp hadd
    simp [hfits, eq_comm]

/-! ## The sink in memory -/

/-- The buffer of a sink in memory. Its length is a `usize`. -/
structure Inner where
  buf : Bytes
  finalized : Bool
  fits : buf.length ≤ u64Max

namespace Inner

/-- Grow with zeros to `len` bytes, or cut back to them. -/
def resize (buf : Bytes) (len : Nat) : Bytes :=
  buf.take len ++ List.replicate (len - buf.length) 0

/-- Copy `bytes` over `buf[start..]`. -/
def copyFromSlice (buf : Bytes) (start : Nat) (bytes : Bytes) : Bytes :=
  buf.take start ++ bytes ++ buf.drop (start + bytes.length)

/-- The buffer after a write at `start`. -/
def place (buf : Bytes) (start : Nat) (bytes : Bytes) : Bytes :=
  copyFromSlice (if buf.length < start + bytes.length then resize buf (start + bytes.length)
    else buf) start bytes

theorem place_eq (buf : Bytes) (start : Nat) (bytes : Bytes) :
    place buf start bytes = overwrite 0 buf start bytes := by
  rw [place, overwrite]
  split
  · rename_i hshort
    rw [copyFromSlice, resize, List.take_of_length_le (Nat.le_of_lt hshort)]
    have hgap : (List.replicate (start + bytes.length - buf.length) (0 : UInt8)).take
        (start - buf.length) = List.replicate (start - buf.length) 0 := by
      rw [List.take_replicate, Nat.min_eq_left (by omega)]
    have hend : (buf ++ List.replicate (start + bytes.length - buf.length) (0 : UInt8)).drop
        (start + bytes.length) = [] := by
      apply List.drop_of_length_le
      rw [List.length_append, List.length_replicate]
      omega
    rw [List.take_append, hgap, hend, List.drop_of_length_le (Nat.le_of_lt hshort)]
  · rename_i hlong
    have hroom : start - buf.length = 0 := by omega
    rw [copyFromSlice, hroom, List.replicate_zero, List.append_nil]

theorem length_place (buf : Bytes) (start : Nat) (bytes : Bytes) :
    (place buf start bytes).length = max buf.length (start + bytes.length) := by
  rw [place_eq, length_overwrite]

end Inner

namespace InMemorySink

def new : Inner := ⟨[], false, Nat.zero_le _⟩

def writeAt (offset : Nat) (bytes : Bytes) : Prog Inner DownloadError Unit := fun inner =>
  match h : readBackBounds offset bytes.length with
  | .error e => (.error e, inner)
  | .ok (start, _) =>
      (.ok (), { inner with
        buf := Inner.place inner.buf start bytes
        fits := by
          obtain ⟨hfits, hspan⟩ := readBackBounds_eq_ok.mp h
          cases hspan
          rw [Inner.length_place]
          exact Nat.max_le.mpr ⟨inner.fits, hfits⟩ })

def finalize : Prog Inner DownloadError Unit := fun inner =>
  (.ok (), { inner with finalized := true })

def truncate (len : Nat) : Prog Inner DownloadError Unit := fun inner =>
  if len < inner.buf.length then
    (.ok (), { inner with
      buf := inner.buf.take len
      fits := (List.length_take_le' len inner.buf).trans inner.fits })
  else (.ok (), inner)

def readAt (offset len : Nat) : Prog Inner DownloadError Bytes := fun inner =>
  match readBackBounds offset len with
  | .error e => (.error e, inner)
  | .ok (start, stop) =>
      if inner.buf.length < stop then
        (.error (.sink (s!"read-back past staged end: want [{start}, {stop}), have " ++
          s!"{inner.buf.length}")), inner)
      else (.ok (slice inner.buf start (stop - start)), inner)

section Spec

variable {inner : Inner} {offset len : Nat} {bytes : Bytes}

theorem writeAt_of_le (h : offset + bytes.length ≤ u64Max) :
    (writeAt offset bytes inner).1 = .ok () ∧
      (writeAt offset bytes inner).2.buf = overwrite 0 inner.buf offset bytes := by
  have hspan := readBackBounds_eq_ok.mpr ⟨h, rfl⟩
  rw [writeAt]
  split
  · rename_i e he
    rw [hspan] at he
    cases he
  · rename_i start stop hok
    rw [hspan] at hok
    cases hok
    exact ⟨rfl, Inner.place_eq _ _ _⟩

theorem writeAt_of_lt (h : u64Max < offset + bytes.length) :
    ∃ e, writeAt offset bytes inner = (.error e, inner) := by
  rw [writeAt]
  split
  · exact ⟨_, rfl⟩
  · rename_i start stop hok
    exact absurd (readBackBounds_eq_ok.mp hok).1 (Nat.not_le.mpr h)

theorem buf_truncate : (truncate len inner).1 = .ok () ∧
    (truncate len inner).2.buf = inner.buf.take len := by
  rw [truncate]
  split
  · exact ⟨rfl, rfl⟩
  · rename_i hlong
    exact ⟨rfl, (List.take_of_length_le (Nat.le_of_not_lt hlong)).symm⟩

theorem readAt_of_le (h : offset + len ≤ inner.buf.length) :
    readAt offset len inner = (.ok (slice inner.buf offset len), inner) := by
  have hspan := readBackBounds_eq_ok.mpr ⟨h.trans inner.fits, rfl⟩
  simp only [readAt, hspan]
  rw [if_neg (Nat.not_lt.mpr h), Nat.add_sub_cancel_left]

theorem readAt_of_lt (h : inner.buf.length < offset + len) :
    ∃ e, readAt offset len inner = (.error e, inner) := by
  rw [readAt]
  cases hspan : readBackBounds offset len with
  | error e => exact ⟨e, rfl⟩
  | ok span =>
    obtain ⟨-, rfl⟩ := readBackBounds_eq_ok.mp hspan
    dsimp only
    rw [if_pos h]
    exact ⟨_, rfl⟩

theorem readAt_inner : (readAt offset len inner).2 = inner := by
  rw [readAt]
  split
  · rfl
  · split <;> rfl

end Spec

end InMemorySink

def inMemorySink : SinkImpl Inner where
  writeAt := InMemorySink.writeAt
  finalize := InMemorySink.finalize
  truncate := InMemorySink.truncate
  supportsReadBack _ := true
  readAt := InMemorySink.readAt

/-! ## The staging file -/

/-- The last position in a file. -/
def i64Max : Nat := 2 ^ 63 - 1

/-- A file. No byte lies past the last position. -/
structure StagedFile where
  bytes : Bytes
  fits : bytes.length ≤ i64Max

/-- The files of a sink: the staging file, and the one it is renamed to. -/
structure SinkFiles where
  tmp : Option StagedFile
  final : Option StagedFile

/-- The bytes of the staging file; an absent one has none. -/
def SinkFiles.staged (files : SinkFiles) : Bytes := (files.tmp.map StagedFile.bytes).getD []

namespace FileSink

/-- Nothing on disk yet. -/
def new : SinkFiles := ⟨none, none⟩

/-- The file that a write finds: a new one where there is none. -/
def createOrReuse (tmp : Option StagedFile) : StagedFile := tmp.getD ⟨[], Nat.zero_le _⟩

def notFound : DownloadError := .sink "No such file or directory (os error 2)"

def invalidArgument : DownloadError := .sink "Invalid argument (os error 22)"

def tryZeroedReadBuffer (len : Nat) : Except DownloadError Bytes :=
  if i64Max < len then
    .error (.sink (s!"cannot allocate a {len}-byte read-back buffer: memory allocation failed " ++
      "because the computed capacity exceeded the collection's maximum"))
  else .ok (List.replicate len 0)

/-- Fill a buffer from the file at `offset`; an empty one is full. -/
def readExact (file : StagedFile) (offset : Nat) (buf : Bytes) : Except DownloadError Bytes :=
  if buf = [] then .ok []
  else if file.bytes.length < offset + buf.length then
    .error (.sink (s!"read-back of {buf.length} bytes at {offset} failed: failed to fill whole " ++
      "buffer"))
  else .ok (slice file.bytes offset buf.length)

/-- A write opens the file first, so that one that fails leaves an empty file behind. A write
of no bytes seeks and writes nothing. -/
def writeAt (offset : Nat) (bytes : Bytes) : Prog SinkFiles DownloadError Unit := fun files =>
  let file := createOrReuse files.tmp
  if i64Max < offset then (.error invalidArgument, { files with tmp := some file })
  else if bytes = [] then (.ok (), { files with tmp := some file })
  else if h : offset + bytes.length ≤ i64Max then
    (.ok (), { files with
      tmp := some {
        bytes := overwrite 0 file.bytes offset bytes
        fits := by
          rw [length_overwrite]
          exact Nat.max_le.mpr ⟨file.fits, h⟩ } })
  else (.error invalidArgument, { files with tmp := some file })

/-- A read never creates the file. -/
def readAt (offset len : Nat) : Prog SinkFiles DownloadError Bytes := fun files =>
  match files.tmp with
  | none => (.error notFound, files)
  | some file =>
      if i64Max < offset then (.error invalidArgument, files)
      else
        match tryZeroedReadBuffer len with
        | .error e => (.error e, files)
        | .ok buf => (readExact file offset buf, files)

def truncate (len : Nat) : Prog SinkFiles DownloadError Unit := fun files =>
  match files.tmp with
  | none => (.ok (), files)
  | some file =>
      if len < file.bytes.length then
        (.ok (), { files with
          tmp := some {
            bytes := file.bytes.take len
            fits := (List.length_take_le' len file.bytes).trans file.fits } })
      else (.ok (), files)

def finalize : Prog SinkFiles DownloadError Unit := fun files =>
  match files.tmp with
  | none => (.error notFound, files)
  | some file => (.ok (), { tmp := none, final := some file })

section Spec

variable {files : SinkFiles} {file : StagedFile} {offset len : Nat} {bytes : Bytes}

theorem bytes_createOrReuse (files : SinkFiles) :
    (createOrReuse files.tmp).bytes = files.staged := by
  rw [createOrReuse, SinkFiles.staged]
  cases files.tmp <;> rfl

/-- A file cannot hold a byte past the last position. -/
theorem writeAt_of_lt (h : i64Max < offset + bytes.length) :
    (∃ e, (writeAt offset bytes files).1 = .error e) ∧
      (writeAt offset bytes files).2.staged = files.staged := by
  simp only [writeAt]
  by_cases hoffset : i64Max < offset
  · rw [if_pos hoffset]
    exact ⟨⟨_, rfl⟩, bytes_createOrReuse files⟩
  · have hne : bytes ≠ [] := by
      intro hnil
      subst hnil
      exact hoffset h
    rw [if_neg hoffset, if_neg hne, dif_neg (Nat.not_le.mpr h)]
    exact ⟨⟨_, rfl⟩, bytes_createOrReuse files⟩

theorem writeAt_nil (h : offset ≤ i64Max) :
    (writeAt offset [] files).1 = .ok () ∧ (writeAt offset [] files).2.staged = files.staged := by
  simp only [writeAt]
  rw [if_neg (Nat.not_lt.mpr h)]
  exact ⟨rfl, bytes_createOrReuse files⟩

theorem writeAt_of_le (hne : bytes ≠ []) (h : offset + bytes.length ≤ i64Max) :
    (writeAt offset bytes files).1 = .ok () ∧
      (writeAt offset bytes files).2.staged = overwrite 0 files.staged offset bytes := by
  have hoffset : offset ≤ i64Max := (Nat.le_add_right offset _).trans h
  simp only [writeAt]
  rw [if_neg (Nat.not_lt.mpr hoffset), if_neg hne, dif_pos h, ← bytes_createOrReuse files]
  exact ⟨rfl, rfl⟩

theorem readAt_of_none (h : files.tmp = none) :
    readAt offset len files = (.error notFound, files) := by
  rw [readAt, h]

theorem readAt_of_lt_i64Max (h : files.tmp = some file) (hoffset : i64Max < offset) :
    readAt offset len files = (.error invalidArgument, files) := by
  simp only [readAt, h]
  rw [if_pos hoffset]

/-- An empty buffer is filled wherever the file ends. -/
theorem readAt_zero (h : files.tmp = some file) (hoffset : offset ≤ i64Max) :
    readAt offset 0 files = (.ok [], files) := by
  simp only [readAt, h]
  rw [if_neg (Nat.not_lt.mpr hoffset)]
  rfl

theorem readAt_of_le (hlen : 0 < len) (hle : offset + len ≤ files.staged.length) :
    readAt offset len files = (.ok (slice files.staged offset len), files) := by
  have hne : List.replicate len (0 : UInt8) ≠ [] := by
    rw [Ne, List.replicate_eq_nil_iff]
    exact Nat.ne_of_gt hlen
  cases htmp : files.tmp with
  | none =>
    rw [SinkFiles.staged, htmp] at hle
    exact absurd hle (Nat.not_le.mpr (Nat.add_pos_right offset hlen))
  | some file =>
    have hstaged : files.staged = file.bytes := by rw [SinkFiles.staged, htmp]; rfl
    rw [hstaged] at hle ⊢
    have hoffset : offset ≤ i64Max := (Nat.le_add_right offset len).trans (hle.trans file.fits)
    have hbuf : len ≤ i64Max := (Nat.le_add_left len offset).trans (hle.trans file.fits)
    simp only [readAt, htmp, tryZeroedReadBuffer, readExact]
    rw [if_neg (Nat.not_lt.mpr hoffset), if_neg (Nat.not_lt.mpr hbuf)]
    simp only [List.length_replicate]
    rw [if_neg hne, if_neg (Nat.not_lt.mpr hle)]

theorem readAt_of_lt (h : files.staged.length < offset + len) (hlen : 0 < len) :
    ∃ e, readAt offset len files = (.error e, files) := by
  cases htmp : files.tmp with
  | none => exact ⟨_, readAt_of_none htmp⟩
  | some file =>
    rw [SinkFiles.staged, htmp] at h
    simp only [readAt, htmp, tryZeroedReadBuffer, readExact]
    split
    · exact ⟨_, rfl⟩
    · by_cases hbuf : i64Max < len
      · rw [if_pos hbuf]
        exact ⟨_, rfl⟩
      · have hne : List.replicate len (0 : UInt8) ≠ [] := by
          rw [Ne, List.replicate_eq_nil_iff]
          exact Nat.ne_of_gt hlen
        have hshort : file.bytes.length < offset + (List.replicate len (0 : UInt8)).length := by
          rw [List.length_replicate]
          exact h
        rw [if_neg hbuf]
        dsimp only
        rw [if_neg hne, if_pos hshort]
        exact ⟨_, rfl⟩

/-- A read changes no file. -/
theorem readAt_files : (readAt offset len files).2 = files := by
  rw [readAt]
  split
  · rfl
  · split
    · rfl
    · split <;> rfl

theorem staged_truncate : (truncate len files).1 = .ok () ∧
    (truncate len files).2.staged = files.staged.take len := by
  rw [truncate]
  cases htmp : files.tmp with
  | none =>
    have hempty : files.staged = [] := by rw [SinkFiles.staged, htmp]; rfl
    rw [hempty, List.take_nil]
    exact ⟨rfl, rfl⟩
  | some file =>
    have hstaged : files.staged = file.bytes := by rw [SinkFiles.staged, htmp]; rfl
    rw [hstaged]
    dsimp only
    split
    · exact ⟨rfl, rfl⟩
    · rename_i hlong
      rw [List.take_of_length_le (Nat.le_of_not_lt hlong)]
      exact ⟨rfl, hstaged⟩

end Spec

end FileSink

def fileSink : SinkImpl SinkFiles where
  writeAt := FileSink.writeAt
  finalize := FileSink.finalize
  truncate := FileSink.truncate
  supportsReadBack _ := true
  readAt := FileSink.readAt

end DigDownload
