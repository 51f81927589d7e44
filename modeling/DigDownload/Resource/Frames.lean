import DigDownload.Lib.Feed
import DigDownload.Lib.Slices
import DigDownload.Resource.Plan
import DigDownload.Resource.Source

/-!
# The frames of a range

A holder answers a range request with a stream of frames. `assembleRangeStream` puts their
bytes into a window, checks every later frame against the identity that the first one
declared, and puts a layout that was too large for one frame together from its pages.

The decoding of a frame and the assembler of the pages are not part of this repository: a
stream is the list of what decoding gives, and the assembler is a parameter.
-/

namespace DigDownload

open Feed Slices

/-! ## Frames -/

/-- A frame of a range stream. Its offset is relative to the range. -/
structure RangeFrame where
  offset : Nat
  bytes : Bytes
  complete : Bool
  totalLength : Option Nat
  chunkLens : Option (List Nat)
  chunkLensOffset : Option Nat
  chunkCount : Option Nat
  chunkIndex : Option Nat
  root : Option String
  inclusionProof : Option String
  deriving DecidableEq, Repr

namespace RangeFrame

/-- The entry at which the page of a frame begins. -/
def pageOffset (frame : RangeFrame) : Nat := frame.chunkLensOffset.getD 0

/-- How many entries the page of a frame has. -/
def pageEntries (frame : RangeFrame) : Nat := (frame.chunkLens.map List.length).getD 0

end RangeFrame

/-- The verification metadata that one frame declares. -/
def RangeMeta.fromFrame (frame : RangeFrame) : RangeMeta where
  totalLength := frame.totalLength
  chunkLens := frame.chunkLens
  chunkCount := frame.chunkCount
  chunkIndex := frame.chunkIndex
  root := frame.root
  inclusionProof := frame.inclusionProof

/-- What the reader uses of `ChunkLensAssembler`. -/
structure ChunkLensAssembler (Asm : Type) where
  new : Nat → Except String Asm
  acceptPage : Asm → Nat → List Nat → Except String Asm
  isComplete : Asm → Bool
  intoChunkLens : Asm → Option (List Nat)

/-- The machine that a stream is read on: the assembler of pages, the allocator, and how the
standard library quotes a text. -/
structure StreamSeams (Asm : Type) where
  assembler : ChunkLensAssembler Asm
  tryReserve : Nat → Option String
  debugStr : String → String

/-! ## The identity of a stream -/

/-- What the first frame declared, and how far the later ones got. -/
structure StreamIdentity where
  root : Option String
  totalLength : Option Nat
  chunkCount : Option Nat
  highestChunkIndex : Option Nat
  prologueFrontier : Nat
  deriving DecidableEq, Repr

/-- What a conforming later frame turned out to be. -/
inductive LaterFrame where
  | continuation
  | newProloguePage (offset entries : Nat)
  deriving DecidableEq, Repr

/-- Reject what a later frame declares unless it is what the first frame declared. -/
def checkUnrevised {T : Type} [DecidableEq T] (debug : T → String) (field : String)
    (committed declared : Option T) : Except String Unit :=
  match committed, declared with
  | _, none => .ok ()
  | some committed, some declared =>
      if committed = declared then .ok ()
      else .error (field ++ " changed mid-stream: first frame declared " ++ debug committed ++
        ", a later frame " ++ debug declared)
  | none, some declared =>
      .error (field ++ " " ++ debug declared ++
        " appears only on a later frame; the first frame left it unstated")

namespace StreamIdentity

def fromFirstFrame (frame : RangeFrame) : StreamIdentity where
  root := frame.root
  totalLength := frame.totalLength
  chunkCount := frame.chunkCount
  highestChunkIndex := frame.chunkIndex
  prologueFrontier := saturatingAdd frame.pageOffset frame.pageEntries

/-- The chunk index of a later frame may advance but not rewind. -/
def checkChunkIndex (identity : StreamIdentity) (frame : RangeFrame) :
    Except String StreamIdentity :=
  match frame.chunkIndex, identity.highestChunkIndex with
  | none, _ => .ok identity
  | some index, some highest =>
      if index < highest then
        .error s!"chunk_index {index} rewinds below {highest}; frames arrive in ascending offset"
      else .ok { identity with highestChunkIndex := some index }
  | some index, none => .ok { identity with highestChunkIndex := some index }

/-- The proof is stated once a stream. -/
def checkProof (frame : RangeFrame) : Except String Unit :=
  if frame.inclusionProof.isSome then
    .error "a later frame restates inclusion_proof, which is once-per-stream"
  else .ok ()

/-- A page of a later frame may not begin where an earlier one already was. -/
def checkPage (identity : StreamIdentity) (frame : RangeFrame) :
    Except String (LaterFrame × StreamIdentity) :=
  match frame.chunkLens with
  | none => .ok (.continuation, identity)
  | some page =>
      if frame.pageOffset < identity.prologueFrontier then
        .error (s!"a later frame's chunk_lens page at offset {frame.pageOffset} re-covers entries " ++
          s!"below {identity.prologueFrontier}, which an earlier page already filled; a paged " ++
          "prologue must ADVANCE, never restate")
      else
        .ok (.newProloguePage frame.pageOffset page.length,
          { identity with prologueFrontier := saturatingAdd frame.pageOffset page.length })

/-- Check a later frame, advance, and say what it is. -/
def checkLaterFrame (debugStr : String → String) (identity : StreamIdentity) (frame : RangeFrame) :
    Except String (LaterFrame × StreamIdentity) := do
  checkUnrevised debugStr "root" identity.root frame.root
  checkUnrevised toString "total_length" identity.totalLength frame.totalLength
  checkUnrevised toString "chunk_count" identity.chunkCount frame.chunkCount
  checkProof frame
  let identity ← identity.checkChunkIndex frame
  identity.checkPage frame

end StreamIdentity

/-! ## The assembly -/

/-- What the reader has put together so far. -/
structure Assembly (Asm : Type) where
  buf : Bytes
  rangeMeta : RangeMeta
  identity : Option StreamIdentity
  assembler : Option Asm
  byteFrontier : Nat

section Assemble

variable {Asm : Type}

def Assembly.start : Assembly Asm where
  buf := []
  rangeMeta := ⟨none, none, none, none, none, none⟩
  identity := none
  assembler := none
  byteFrontier := 0

/-- `chunk_lens_error`. -/
def chunkLensError (e : String) : DownloadError :=
  .transport "" s!"chunk_lens prologue rejected: {e}"

/-- Take up the identity that the first frame declares, and the first page if it is one of
several. Says whether a page was accepted. -/
def declareFirst (seams : StreamSeams Asm) (s : Assembly Asm) (frame : RangeFrame) :
    Except DownloadError (Assembly Asm × Bool) :=
  let s := { s with
    rangeMeta := .fromFrame frame
    identity := some (.fromFirstFrame frame) }
  match frame.chunkCount with
  | none => .ok (s, false)
  | some chunkCount =>
      if frame.pageEntries < chunkCount then
        match seams.assembler.new chunkCount with
        | .error e => .error (chunkLensError e)
        | .ok asm =>
            match frame.chunkLens with
            | none => .ok ({ s with assembler := some asm }, false)
            | some page =>
                match seams.assembler.acceptPage asm frame.pageOffset page with
                | .error e => .error (chunkLensError e)
                | .ok asm => .ok ({ s with assembler := some asm }, true)
      else .ok (s, false)

/-- Check a later frame against the identity, and accept its page. Says whether there was
one. -/
def declareLater (seams : StreamSeams Asm) (s : Assembly Asm) (identity : StreamIdentity)
    (frame : RangeFrame) : Except DownloadError (Assembly Asm × Bool) :=
  match identity.checkLaterFrame seams.debugStr frame with
  | .error reason => .error (.transport "" reason)
  | .ok (.continuation, identity) => .ok ({ s with identity := some identity }, false)
  | .ok (.newProloguePage offset _, identity) =>
      match s.assembler with
      | none =>
          .error (.pagedPrologueUnsupported "" (identity.chunkCount.getD 0)
            identity.prologueFrontier)
      | some asm =>
          match seams.assembler.acceptPage asm offset (frame.chunkLens.getD []) with
          | .error e => .error (chunkLensError e)
          | .ok asm => .ok ({ s with identity := some identity, assembler := some asm }, true)

def declareFrame (seams : StreamSeams Asm) (s : Assembly Asm) (frame : RangeFrame) :
    Except DownloadError (Assembly Asm × Bool) :=
  match s.identity with
  | none => declareFirst seams s frame
  | some identity => declareLater seams s identity frame

/-- Whether no page of the prologue is missing. -/
def Assembly.drained (assembler : ChunkLensAssembler Asm) (s : Assembly Asm) : Bool :=
  match s.assembler with
  | none => true
  | some asm => assembler.isComplete asm

/-- Where the bytes of a frame end in the window, which they are clipped to. -/
def RangeFrame.stop (frame : RangeFrame) (maxLen : Nat) : Nat :=
  frame.offset + min frame.bytes.length (maxLen - frame.offset)

/-- Reserve memory for a buffer that grows to a length: what fails. -/
def reserveFor (seams : StreamSeams Asm) (buf : Bytes) (stop : Nat) : Option String :=
  if buf.length < stop then seams.tryReserve (stop - buf.length) else none

/-- Put the bytes of a frame into the buffer, which is grown with zeros. -/
def Assembly.write (s : Assembly Asm) (maxLen : Nat) (frame : RangeFrame) : Assembly Asm :=
  { s with buf := overwrite 0 s.buf frame.offset (frame.bytes.take (maxLen - frame.offset)) }

/-- Place the bytes of a frame that was declared, and see whether it is enough. -/
def placeFrame (seams : StreamSeams Asm) (maxLen : Nat) (s : Assembly Asm) (frame : RangeFrame)
    (acceptedPage : Bool) : Except DownloadError (Flow (Assembly Asm)) :=
  let drained := s.drained seams.assembler
  if maxLen = 0 then
    -- metadata only, which the whole prologue is part of
    if drained then .ok (.stop s)
    else if acceptedPage then .ok (.next s)
    else .error (.transport "" "a metadata stream ended its prologue short without progressing")
  else if maxLen ≤ frame.offset then
    .error (.transport "" (s!"range frame at offset {frame.offset} starts beyond expected length " ++
      s!"{maxLen}"))
  else
    let stop := frame.stop maxLen
    match reserveFor seams s.buf stop with
    | some e => .error (.transport "" s!"cannot allocate a {stop}-byte range assembly buffer: {e}")
    | none =>
        let written := s.write maxLen frame
        if frame.complete ∨ (drained ∧ maxLen ≤ written.buf.length) then
          .ok (.stop written)
        else if stop ≤ s.byteFrontier ∧ acceptedPage = false then
          .error (.transport "" (s!"a frame at offset {frame.offset} extends the range to {stop}, " ++
            s!"past nothing (already at {s.byteFrontier}), and does not complete it; the stream " ++
            "cannot progress"))
        else .ok (.next { written with byteFrontier := max s.byteFrontier stop })

/-- What is made of one item of the stream: a frame, or a decoding error. -/
def takeFrame (seams : StreamSeams Asm) (maxLen : Nat) (s : Assembly Asm) :
    Except String RangeFrame → Except DownloadError (Flow (Assembly Asm))
  | .error e => .error (.transport "" s!"range frame decode: {e}")
  | .ok frame =>
      match declareFrame seams s frame with
      | .error e => .error e
      | .ok (s, acceptedPage) => placeFrame seams maxLen s frame acceptedPage

/-- Adopt the layout that was put together from pages, if all of them came. -/
def adoptPages (seams : StreamSeams Asm) (s : Assembly Asm) :
    Except DownloadError (Bytes × RangeMeta) :=
  match s.assembler with
  | none => .ok (s.buf, s.rangeMeta)
  | some asm =>
      match seams.assembler.intoChunkLens asm with
      | some full => .ok (s.buf, { s.rangeMeta with chunkLens := some full })
      | none =>
          .error (.pagedPrologueUnsupported "" (s.rangeMeta.chunkCount.getD 0)
            ((s.identity.map (·.prologueFrontier)).getD 0))

/-- `assemble_range_stream`: the bytes and the metadata of a range, and what was not read of
the stream. -/
def assembleRangeStream (seams : StreamSeams Asm) (maxLen : Nat)
    (stream : List (Except String RangeFrame)) :
    Except DownloadError (Bytes × RangeMeta) × List (Except String RangeFrame) :=
  match feed (takeFrame seams maxLen) Assembly.start stream with
  | (.error e, rest) => (.error e, rest)
  | (.ok s, rest) => (adoptPages seams s, rest)

end Assemble

/-! ## A small stream -/

section Small

/-- The entries of a layout that came in pages so far. -/
structure Pages where
  count : Nat
  filled : List Nat
  count_le : count ≤ maxResourceChunkCount

/-- An assembler that takes pages of a length in order. -/
def pageAssembler (pageLen : Nat) : ChunkLensAssembler Pages where
  new count :=
    if h : count ≤ maxResourceChunkCount then .ok { count, filled := [], count_le := h }
    else .error "too many chunks"
  acceptPage pages offset page :=
    if offset = pages.filled.length ∧ offset % pageLen = 0 ∧ page ≠ [] ∧
        page.length = min pageLen (pages.count - offset) then
      .ok { pages with filled := pages.filled ++ page }
    else .error "misplaced page"
  isComplete pages := pages.filled.length = pages.count
  intoChunkLens pages := if pages.filled.length = pages.count then some pages.filled else none

/-- A machine with memory to spare, and pages as long as they are in a range stream. -/
def smallStreamSeams : StreamSeams Pages where
  assembler := pageAssembler 2048
  tryReserve _ := none
  debugStr text := "\"" ++ text ++ "\""

/-- The first frame of a resource of 2049 chunks of one byte, with the first page of its layout. -/
def smallFirstFrame : RangeFrame where
  offset := 0
  bytes := [1]
  complete := false
  totalLength := some 2049
  chunkLens := some (List.replicate 2048 1)
  chunkLensOffset := some 0
  chunkCount := some 2049
  chunkIndex := some 0
  root := some "aa"
  inclusionProof := some "proof"

/-- The second page of its layout, and its second byte. -/
def smallSecondFrame : RangeFrame where
  offset := 1
  bytes := [2]
  complete := true
  totalLength := some 2049
  chunkLens := some [1]
  chunkLensOffset := some 2048
  chunkCount := some 2049
  chunkIndex := some 1
  root := some "aa"
  inclusionProof := none

end Small

end DigDownload
