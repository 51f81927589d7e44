import DigDownload.Resource.Download
import DigDownload.Resource.Readable

/-!
# Reading a scheduled range

A scheduled range is asked for without the layout, and a holder that conforms sends none. The
reader takes the stated number of chunks for the announcement of pages, which never come: no
answer of such a holder is read, unless it has no frame at all.
-/

namespace DigDownload

open Feed Past Slices Tiling

/-- What the reader relies on in the assembler: it starts empty, and gives a layout only once
all its entries are there. -/
structure FailsClosed {Asm : Type} (A : ChunkLensAssembler Asm)
    (Filled : Asm → Nat → List Nat → Prop) : Prop where
  new : ∀ {count asm}, A.new count = .ok asm → Filled asm count []
  into : ∀ {asm count filled lens}, Filled asm count filled → A.intoChunkLens asm = some lens →
    filled.length = count

/-- A stream of frames that serves the bytes of a range without the layout. -/
structure ServesBare (commitment : ResourceCommitment) (bytes : Bytes) (frames : List RangeFrame) :
    Prop where
  covers : payload frames = bytes
  placed : AtEach (fun before frame => frame.offset = (payload before).length) frames
  root : ∀ frame ∈ frames, frame.root = commitment.root
  totalLength : ∀ frame ∈ frames, frame.totalLength = some commitment.totalLength
  chunkCount : ∀ frame ∈ frames, frame.chunkCount = some commitment.layout.chunkCount
  chunkIndex : ∀ frame ∈ frames, frame.chunkIndex.isSome = true
  index : frames.Pairwise fun earlier frame =>
    ∀ i j, earlier.chunkIndex = some i → frame.chunkIndex = some j → i ≤ j
  chunkLens : ∀ frame ∈ frames, frame.chunkLens = none ∧ frame.chunkLensOffset = none
  proof : ∀ frame ∈ frames, frame.inclusionProof = none
  complete : ∀ frame ∈ frames.dropLast, frame.complete = false

section Bare

variable {Asm : Type} {seams : StreamSeams Asm} {Filled : Asm → Nat → List Nat → Prop}
  {maxLen count : Nat}

/-- The assembler waits for the pages of a layout. -/
def Waiting (Filled : Asm → Nat → List Nat → Prop) (count : Nat) (s : Assembly Asm) : Prop :=
  s.identity.isSome = true ∧ ∃ asm, s.assembler = some asm ∧ Filled asm count []

/-- The first frame of a stream without the layout makes the reader wait for its pages. -/
theorem waiting_of_first (hA : FailsClosed seams.assembler Filled) (hpos : 0 < count)
    {s s' : Assembly Asm} {frame : RangeFrame} {accepted : Bool} (hidentity : s.identity = none)
    (hcount : frame.chunkCount = some count) (hnone : frame.chunkLens = none)
    (hdeclare : declareFrame seams s frame = .ok (s', accepted)) : Waiting Filled count s' := by
  rw [declareFrame, hidentity] at hdeclare
  obtain ⟨asm, hstarts, rfl⟩ := declareFirst_ok.mp hdeclare
  cases hstarts with
  | whole hle =>
    have hzero := hle count hcount
    rw [RangeFrame.pageEntries, hnone] at hzero
    exact absurd hpos (Nat.not_lt.mpr hzero)
  | paged hcount' _ hnew htakes =>
    rw [hcount, Option.some.injEq] at hcount'
    cases htakes with
    | nothing _ => exact ⟨rfl, _, rfl, hcount' ▸ hA.new hnew⟩
    | page hpage _ => rw [hnone] at hpage; cases hpage

/-- A later frame without a page leaves the reader waiting. -/
theorem Waiting.declare {s s' : Assembly Asm} {frame : RangeFrame} {accepted : Bool}
    (h : Waiting Filled count s) (hnone : frame.chunkLens = none)
    (hdeclare : declareFrame seams s frame = .ok (s', accepted)) : Waiting Filled count s' := by
  obtain ⟨hidentity, hasm⟩ := h
  obtain ⟨identity, hsome⟩ := Option.isSome_iff_exists.mp hidentity
  rw [declareFrame, hsome] at hdeclare
  obtain ⟨-, asm, htakes, rfl⟩ := declareLater_ok.mp hdeclare
  refine ⟨rfl, ?_⟩
  show ∃ asm', asm = some asm' ∧ _
  generalize s.assembler = before at hasm htakes
  cases htakes with
  | nothing _ => exact hasm
  | page hpage _ => rw [hnone] at hpage; cases hpage

theorem Waiting.place {s : Assembly Asm} {frame : RangeFrame} {accepted : Bool}
    {flow : Flow (Assembly Asm)} (h : Waiting Filled count s)
    (hplace : placeFrame seams maxLen s frame accepted = .ok flow) :
    Waiting Filled count flow.state := by
  cases placeFrame_ok hplace with
  | inl hsame => exact hsame.2 ▸ h
  | inr hwritten =>
    obtain ⟨-, frontier, hstate⟩ := hwritten
    rw [hstate]
    exact h

/-- What is known of the assembler after some frames without the layout. -/
def AwaitsPages (Filled : Asm → Nat → List Nat → Prop) (count : Nat) (read : List RangeFrame)
    (s : Assembly Asm) : Prop :=
  (∀ frame ∈ read, frame.chunkCount = some count ∧ frame.chunkLens = none) →
    (read = [] ∧ s.identity = none) ∨ Waiting Filled count s

theorem AwaitsPages.step (hA : FailsClosed seams.assembler Filled) (hpos : 0 < count)
    {read : List RangeFrame} {s s' : Assembly Asm} {frame : RangeFrame} {accepted : Bool}
    {flow : Flow (Assembly Asm)} (h : AwaitsPages Filled count read s)
    (hdeclare : declareFrame seams s frame = .ok (s', accepted))
    (hplace : placeFrame seams maxLen s' frame accepted = .ok flow) :
    AwaitsPages Filled count (read ++ [frame]) flow.state := by
  intro hall
  have hframe := hall frame (by simp)
  refine Or.inr (Waiting.place ?_ hplace)
  cases h fun f hf => hall f (List.mem_append_left _ hf) with
  | inl hstart => exact waiting_of_first hA hpos hstart.2 hframe.1 hframe.2 hdeclare
  | inr hwaiting => exact hwaiting.declare hframe.2 hdeclare

/-- A stream whose frames announce chunks and bring none of their lengths is refused. -/
theorem refuses_bare (hA : FailsClosed seams.assembler Filled) (hpos : 0 < count)
    {frames : List RangeFrame} (hne : frames ≠ [])
    (hbare : ∀ frame ∈ frames, frame.chunkCount = some count ∧ frame.chunkLens = none)
    (result : Bytes × RangeMeta) :
    (assembleRangeStream seams maxLen (frames.map .ok)).1 ≠ .ok result := by
  intro hok
  obtain ⟨consumed, hstream, hlast⟩ : ∃ consumed, frames.map .ok = consumed
        ++ (assembleRangeStream seams maxLen (frames.map .ok)).2 ∧ ∀ result, _ → ∃ read s, _ ∧
      (fun (read : List RangeFrame) (s : Assembly Asm) => AwaitsPages Filled count read s) read s ∧ _ :=
    assembleRangeStream_keeps (fun _ => Or.inl ⟨rfl, rfl⟩)
      fun _ _ _ _ _ _ => AwaitsPages.step hA hpos
  obtain ⟨read, s, rfl, hread, hadopt⟩ := hlast result hok
  have hread_mem : ∀ frame ∈ read, frame ∈ frames := by
    intro frame hframe
    have hmem : Except.ok frame ∈ frames.map (Except.ok : RangeFrame → Except String RangeFrame) := by
      rw [hstream]
      exact List.mem_append_left _ (List.mem_map_of_mem hframe)
    obtain ⟨frame', hframe', heq⟩ := List.mem_map.mp hmem
    exact Except.ok.inj heq ▸ hframe'
  have hwaiting : Waiting Filled count s := by
    refine (hread fun frame hframe => hbare frame (hread_mem frame hframe)).resolve_left ?_
    rintro ⟨rfl, -⟩
    have hlength : (assembleRangeStream seams maxLen (frames.map .ok)).2.length
        ≤ (frames.map (Except.ok : RangeFrame → Except String RangeFrame)).length - 1 := by
      rw [assembleRangeStream_rest]
      exact feed_rest_length _ _
    have hall := congrArg List.length hstream
    rw [List.map_nil, List.nil_append] at hall
    have hpos' : 0 < (frames.map (Except.ok : RangeFrame → Except String RangeFrame)).length := by
      rw [List.length_map]
      exact List.length_pos_iff.mpr hne
    omega
  obtain ⟨-, asm, hasm, hfilled⟩ := hwaiting
  unfold adoptPages at hadopt
  rw [hasm] at hadopt
  dsimp only at hadopt
  split at hadopt
  · rename_i full hfull
    have hzero := hA.into hfilled hfull
    rw [List.length_nil] at hzero
    omega
  · cases hadopt

end Bare

section Scheduled

variable {Asm : Type} {streams : StreamSeams Asm} {Filled : Asm → Nat → List Nat → Prop}
  {seams : ResourceSeams} {commitment : ResourceCommitment} {range : Range}

/-- A holder that conforms answers a scheduled range with a stream that is read and verified
exactly if it has no frame, which the bytes of an empty range need not have. In a build with
debug assertions the range then has to start at the first boundary of its offset. -/
theorem reads_bare_iff (hA : FailsClosed streams.assembler Filled)
    (hplanned : range ∈ planRanges commitment.layout seams.config.window) {bytes : Bytes}
    (hlength : bytes.length = range.length) {frames : List RangeFrame}
    (hserves : ServesBare commitment bytes frames) :
    (∃ declared, (assembleRangeStream streams range.length (frames.map .ok)).1
        = .ok (bytes, declared) ∧
      verifyFetched seams commitment range
        { requestOffset := range.offset, bytes, rangeMeta := declared } = .ok) ↔
      frames = [] ∧ (seams.debugAssertions = true → range.StartsFirst commitment.layout) := by
  have hchunks := (planRanges_consecutive commitment.layout seams.config.window).chunks range hplanned
  have hcount : 0 < commitment.layout.chunkCount := by
    rw [ChunkLayout.chunkCount]
    omega
  constructor
  · rintro ⟨declared, hok, hverified⟩
    have hnone : frames = [] := by
      by_contra hne
      exact refuses_bare hA hcount hne
        (fun frame hframe => ⟨hserves.chunkCount frame hframe, (hserves.chunkLens frame hframe).1⟩)
        _ hok
    refine ⟨hnone, fun hdebug => ?_⟩
    unfold verifyFetched at hverified
    split at hverified
    · cases hverified
    · rw [verifyRange_planned hchunks hlength] at hverified
      by_contra hnot
      rw [if_pos ⟨hdebug, hnot⟩] at hverified
      cases hverified
  · rintro ⟨rfl, hdebug⟩
    obtain rfl : [] = bytes := hserves.covers
    refine ⟨_, rfl, ?_⟩
    show verifyRange seams.debugAssertions commitment range.chunkStart range.length [] = .ok
    rw [verifyRange_planned hchunks hlength, if_neg]
    rintro ⟨hd, hnot⟩
    exact hnot (hdebug hd)

end Scheduled

theorem pageAssembler_failsClosed (pageLen : Nat) :
    FailsClosed (pageAssembler pageLen)
      fun pages count filled => pages.count = count ∧ pages.filled = filled where
  new := by
    intro count pages hnew
    unfold pageAssembler at hnew
    dsimp only at hnew
    split at hnew
    · cases hnew
      exact ⟨rfl, rfl⟩
    · cases hnew
  into := by
    rintro pages count filled lens ⟨rfl, rfl⟩ hinto
    unfold pageAssembler at hinto
    dsimp only at hinto
    split at hinto
    · assumption
    · cases hinto

/-- The first range of the small resource. -/
def smallRange : Range where
  index := 0
  offset := 0
  length := 2
  chunkStart := 0
  chunkEnd := 1

/-- The frame that serves it. -/
def bareFrame : RangeFrame where
  offset := 0
  bytes := [1, 2]
  complete := true
  totalLength := some 3
  chunkLens := none
  chunkLensOffset := none
  chunkCount := some 2
  chunkIndex := some 0
  root := some (hexOf smallRoot)
  inclusionProof := none

theorem bareFrame_serves : ServesBare smallCommitment [1, 2] [bareFrame] :=
  ⟨rfl, atEach_singleton.mpr rfl, by simp [bareFrame, smallCommitment],
    by simp [bareFrame, smallCommitment], by simp [bareFrame, smallCommitment, ChunkLayout.chunkCount],
    by simp [bareFrame], by simp, by simp [bareFrame], by simp [bareFrame], by simp⟩

/-- The answer to the first range is not read. -/
theorem reads_bare_iff_small :
    ¬ ∃ declared, (assembleRangeStream smallStreamSeams 2 [.ok bareFrame]).1 = .ok ([1, 2], declared) ∧
      verifyFetched smallResourceSeams smallCommitment smallRange
        { requestOffset := 0, bytes := [1, 2], rangeMeta := declared } = .ok := by
  intro h
  have hplanned : smallRange ∈ planRanges smallCommitment.layout smallResourceSeams.config.window := by
    decide
  have hnone := (reads_bare_iff (pageAssembler_failsClosed 2048) hplanned rfl bareFrame_serves).mp h
  cases hnone.1

/-- What an honest holder answers is refused. -/
theorem refuses_honest_answer :
    ¬ ∀ (streams : StreamSeams Pages) (seams : ResourceSeams) (commitment : ResourceCommitment)
      (range : Range) (bytes : Bytes) (frames : List RangeFrame),
      range ∈ planRanges commitment.layout seams.config.window → bytes.length = range.length →
      ServesBare commitment bytes frames →
        ∃ declared, (assembleRangeStream streams range.length (frames.map .ok)).1
            = .ok (bytes, declared) ∧
          verifyFetched seams commitment range
            { requestOffset := range.offset, bytes, rangeMeta := declared } = .ok := by
  intro h
  obtain ⟨declared, hok, -⟩ := h smallStreamSeams smallResourceSeams smallCommitment smallRange
    [1, 2] [bareFrame] (by decide) rfl bareFrame_serves
  cases hok

end DigDownload
