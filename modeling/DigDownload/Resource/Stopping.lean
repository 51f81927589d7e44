import DigDownload.Resource.Assembly

/-!
# The reader of a stream stops

After every frame that is not the last one, the bytes reach further than before or a page of
the layout was accepted. The bytes do not reach past the window, and the array of the layout
fills up; so a holder cannot keep the reader, however long it sends. The buffer does not grow
past the window either, and no index of the program leaves it.
-/

namespace DigDownload

open Feed Slices

/-! ## The program with its bounds -/

section Checked

variable {Asm : Type}

/-- `declareLater`, with the page that its verdict promises. -/
def declareLaterChecked (seams : StreamSeams Asm) (s : Assembly Asm) (identity : StreamIdentity)
    (frame : RangeFrame) : Option (Except DownloadError (Assembly Asm × Bool)) :=
  match identity.checkLaterFrame seams.debugStr frame with
  | .error reason => some (.error (.transport "" reason))
  | .ok (.continuation, identity) => some (.ok ({ s with identity := some identity }, false))
  | .ok (.newProloguePage offset _, identity) => do
      let page ← frame.chunkLens
      match s.assembler with
      | none =>
          some (.error (.pagedPrologueUnsupported "" (identity.chunkCount.getD 0)
            identity.prologueFrontier))
      | some asm =>
          match seams.assembler.acceptPage asm offset page with
          | .error e => some (.error (chunkLensError e))
          | .ok asm => some (.ok ({ s with identity := some identity, assembler := some asm }, true))

/-- `declareFrame`, with it. -/
def declareFrameChecked (seams : StreamSeams Asm) (s : Assembly Asm) (frame : RangeFrame) :
    Option (Except DownloadError (Assembly Asm × Bool)) :=
  match s.identity with
  | none => some (declareFirst seams s frame)
  | some identity => declareLaterChecked seams s identity frame

/-- `placeFrame`, with its arithmetic, its slice of the frame and its copy into the buffer. -/
def placeFrameChecked (seams : StreamSeams Asm) (maxLen : Nat) (s : Assembly Asm)
    (frame : RangeFrame) (acceptedPage : Bool) :
    Option (Except DownloadError (Flow (Assembly Asm))) :=
  let drained := s.drained seams.assembler
  if maxLen = 0 then
    if drained then some (.ok (.stop s))
    else if acceptedPage then some (.ok (.next s))
    else some (.error (.transport ""
      "a metadata stream ended its prologue short without progressing"))
  else if maxLen ≤ frame.offset then
    some (.error (.transport "" (s!"range frame at offset {frame.offset} starts beyond expected length " ++
      s!"{maxLen}")))
  else do
    let window ← checkedSub maxLen frame.offset
    let take := min frame.bytes.length window
    let stop ← checkedAdd frame.offset take
    match reserveFor seams s.buf stop with
    | some e =>
        some (.error (.transport "" s!"cannot allocate a {stop}-byte range assembly buffer: {e}"))
    | none =>
        let grown := s.buf ++ List.replicate (stop - s.buf.length) 0
        let source ← checkedSlice frame.bytes 0 take
        let buf ← checkedCopy grown frame.offset stop source
        let written := { s with buf }
        if frame.complete ∨ (drained ∧ maxLen ≤ written.buf.length) then
          some (.ok (.stop written))
        else if stop ≤ s.byteFrontier ∧ acceptedPage = false then
          some (.error (.transport "" (s!"a frame at offset {frame.offset} extends the range to {stop}, " ++
            s!"past nothing (already at {s.byteFrontier}), and does not complete it; the stream " ++
            "cannot progress")))
        else some (.ok (.next { written with byteFrontier := max s.byteFrontier stop }))

/-- `takeFrame`, with all of these: `none` where the program would stop. -/
def takeFrameChecked (seams : StreamSeams Asm) (maxLen : Nat) (s : Assembly Asm) :
    Except String RangeFrame → Option (Except DownloadError (Flow (Assembly Asm)))
  | .error e => some (.error (.transport "" s!"range frame decode: {e}"))
  | .ok frame => do
      match ← declareFrameChecked seams s frame with
      | .error e => some (.error e)
      | .ok (s, acceptedPage) => placeFrameChecked seams maxLen s frame acceptedPage

end Checked

section Stopping

variable {Asm : Type} {seams : StreamSeams Asm} {maxLen : Nat} {s s' s₁ : Assembly Asm}
  {identity : StreamIdentity} {frame : RangeFrame} {accepted : Bool}

theorem declareLaterChecked_eq :
    declareLaterChecked seams s identity frame = some (declareLater seams s identity frame) := by
  rw [declareLaterChecked, declareLater]
  cases hcheck : identity.checkLaterFrame seams.debugStr frame with
  | error reason => rfl
  | ok checked =>
    obtain ⟨verdict, identity'⟩ := checked
    obtain ⟨-, hverdict, -⟩ := checkLaterFrame_ok.mp hcheck
    cases hpage : frame.chunkLens with
    | none =>
      rw [LaterFrame.of, hpage] at hverdict
      subst hverdict
      rfl
    | some page =>
      rw [LaterFrame.of, hpage] at hverdict
      subst hverdict
      dsimp only [Option.bind_eq_bind, Option.bind_some, Option.getD_some]
      cases s.assembler with
      | none => rfl
      | some asm =>
        dsimp only
        cases seams.assembler.acceptPage asm frame.pageOffset page <;> rfl

/-- Growing the buffer and copying the bytes of a frame into it. -/
theorem checkedCopy_write {buf bytes : Bytes} {offset take : Nat} (h : take ≤ bytes.length) :
    checkedCopy (buf ++ List.replicate (offset + take - buf.length) 0) offset (offset + take)
        (slice bytes 0 take)
      = some (overwrite 0 buf offset (bytes.take take)) := by
  have hlen : (slice bytes 0 take).length = take := length_slice_of_le (by omega)
  have hcopy : ∀ n, n = (slice bytes 0 take).length →
      checkedCopy (buf ++ List.replicate (offset + take - buf.length) 0) offset (offset + n)
          (slice bytes 0 take)
        = some ((buf ++ List.replicate (offset + take - buf.length) 0).take offset ++
            slice bytes 0 take ++
            (buf ++ List.replicate (offset + take - buf.length) 0).drop (offset + n)) := by
    rintro n rfl
    refine checkedCopy_of_le ?_
    rw [List.length_append, List.length_replicate, hlen]
    omega
  rw [hcopy take hlen.symm, overwrite, List.take_append, List.drop_append, List.take_replicate,
    List.drop_replicate, List.length_take, Nat.min_eq_left h]
  have htake : min (offset - buf.length) (offset + take - buf.length) = offset - buf.length := by
    omega
  have hdrop : offset + take - buf.length - (offset + take - buf.length) = 0 := Nat.sub_self _
  rw [htake, hdrop, List.replicate_zero, List.append_nil]
  rfl

theorem placeFrameChecked_eq (hmax : maxLen ≤ u64Max) :
    placeFrameChecked seams maxLen s frame accepted
      = some (placeFrame seams maxLen s frame accepted) := by
  rw [placeFrameChecked, placeFrame]
  dsimp only
  split
  · split
    · rfl
    · split <;> rfl
  split
  · rfl
  rename_i hbefore
  have hsub : checkedSub maxLen frame.offset = some (maxLen - frame.offset) :=
    checkedSub_of_le (by omega)
  have hadd : checkedAdd frame.offset (min frame.bytes.length (maxLen - frame.offset))
      = some (frame.stop maxLen) := checkedAdd_of_le (by omega)
  rw [hsub, Option.bind_eq_bind, Option.bind_some, hadd, Option.bind_eq_bind, Option.bind_some]
  cases reserveFor seams s.buf (frame.stop maxLen) with
  | some e => rfl
  | none =>
    have hslice : checkedSlice frame.bytes 0
        (0 + min frame.bytes.length (maxLen - frame.offset)) = some (slice frame.bytes 0 _) :=
      checkedSlice_of_le (by omega)
    have hcopy : checkedCopy (s.buf ++ List.replicate (frame.stop maxLen - s.buf.length) 0)
        frame.offset (frame.stop maxLen)
        (slice frame.bytes 0 (min frame.bytes.length (maxLen - frame.offset)))
          = some (s.write maxLen frame).buf := by
      refine (checkedCopy_write (Nat.min_le_left _ _)).trans ?_
      rw [Assembly.write, List.take_eq_take_min (l := frame.bytes) (i := maxLen - frame.offset),
        Nat.min_comm]
    rw [Nat.zero_add] at hslice
    dsimp only
    rw [hslice, Option.bind_some, hcopy, Option.bind_some]
    show (if _ then _ else _) = _
    split
    · rfl
    · split <;> rfl

theorem takeFrameChecked_eq (hmax : maxLen ≤ u64Max) (item : Except String RangeFrame) :
    takeFrameChecked seams maxLen s item = some (takeFrame seams maxLen s item) := by
  cases item with
  | error e => rfl
  | ok frame =>
    have hdeclared : declareFrameChecked seams s frame = some (declareFrame seams s frame) := by
      rw [declareFrameChecked, declareFrame]
      cases s.identity with
      | none => rfl
      | some identity => exact declareLaterChecked_eq
    rw [takeFrameChecked, takeFrame, hdeclared, Option.bind_eq_bind, Option.bind_some]
    cases declareFrame seams s frame with
    | error e => rfl
    | ok declared => exact placeFrameChecked_eq hmax

/-! ## What every frame gains -/

/-- The bytes of a frame in the window end there. -/
theorem stop_le (h : frame.offset < maxLen) : frame.stop maxLen ≤ maxLen := by
  rw [RangeFrame.stop]
  omega

/-- A frame after which the reader goes on has bytes past the ones before, or a page. -/
theorem placeFrame_next (h : placeFrame seams maxLen s frame accepted = .ok (.next s')) :
    s'.identity = s.identity ∧ s'.assembler = s.assembler ∧
      s.byteFrontier ≤ s'.byteFrontier ∧ s'.byteFrontier ≤ max s.byteFrontier maxLen ∧
      (accepted = true ∨ s.byteFrontier < s'.byteFrontier) := by
  rw [placeFrame] at h
  dsimp only at h
  split at h
  · split at h
    · cases h
    · split at h
      · rename_i hpage
        cases h
        exact ⟨rfl, rfl, Nat.le_refl _, Nat.le_max_left _ _, .inl hpage⟩
      · cases h
  split at h
  · cases h
  rename_i hbefore
  have hstop : frame.stop maxLen ≤ maxLen := stop_le (Nat.lt_of_not_le hbefore)
  split at h
  · cases h
  split at h
  · cases h
  split at h
  · cases h
  · rename_i hprogress
    cases h
    refine ⟨rfl, rfl, Nat.le_max_left _ _, by dsimp only; omega, ?_⟩
    cases accepted with
    | true => exact .inl rfl
    | false =>
      have : ¬ frame.stop maxLen ≤ s.byteFrontier := fun hle => hprogress ⟨hle, rfl⟩
      exact .inr (by dsimp only; omega)

theorem declareFrame_byteFrontier (h : declareFrame seams s frame = .ok (s', accepted)) :
    s'.byteFrontier = s.byteFrontier := by
  rw [declareFrame] at h
  split at h
  · obtain ⟨asm, -, rfl⟩ := declareFirst_ok.mp h
    rfl
  · obtain ⟨-, asm, -, rfl⟩ := declareLater_ok.mp h
    rfl

/-- How many pages the assembler accepts while the stream is read. -/
def pagesAccepted (seams : StreamSeams Asm) (maxLen : Nat) :
    Assembly Asm → List (Except String RangeFrame) → Nat
  | _, [] => 0
  | _, .error _ :: _ => 0
  | s, .ok frame :: rest =>
      match declareFrame seams s frame with
      | .error _ => 0
      | .ok (s, accepted) =>
          accepted.toNat + match placeFrame seams maxLen s frame accepted with
            | .ok (.next s) => pagesAccepted seams maxLen s rest
            | _ => 0

/-- A reader takes no more frames than there are bytes left in the window and pages that are
accepted, and the one that ends it. -/
theorem feed_consumed (stream : List (Except String RangeFrame)) :
    ∀ s : Assembly Asm, s.byteFrontier ≤ maxLen →
      stream.length - (feed (takeFrame seams maxLen) s stream).2.length
        ≤ maxLen - s.byteFrontier + pagesAccepted seams maxLen s stream + 1 := by
  induction stream with
  | nil => exact fun s _ => Nat.zero_le _
  | cons item rest ih =>
    intro s hs
    cases hflow : takeFrame seams maxLen s item with
    | error e =>
      rw [feed_cons_of_error hflow, List.length_cons]
      dsimp only
      omega
    | ok flow =>
      cases flow with
      | stop s₂ =>
        rw [feed_cons_of_stop hflow, List.length_cons]
        dsimp only
        omega
      | next s₂ =>
        obtain ⟨frame, s₁, accepted, rfl, hdeclare, hplace⟩ := takeFrame_ok.mp hflow
        obtain ⟨-, -, hle, hmax, hgain⟩ := placeFrame_next hplace
        rw [declareFrame_byteFrontier hdeclare] at hle hmax hgain
        have hrest := ih s₂ (by omega)
        have hpages : pagesAccepted seams maxLen s (.ok frame :: rest)
            = accepted.toNat + pagesAccepted seams maxLen s₂ rest := by
          rw [pagesAccepted, hdeclare]
          dsimp only
          rw [hplace]
        rw [feed_cons_of_next hflow, hpages, List.length_cons]
        cases hgain with
        | inl hpage =>
          rw [hpage, Bool.toNat_true]
          omega
        | inr hbytes => omega

/-! ## The reader stops -/

/-- What the reader relies on in the assembler: a page fills an entry at least of an array that
is bounded. -/
structure FillsEntries (A : ChunkLensAssembler Asm) (unfilled : Asm → Nat) : Prop where
  new : ∀ {count asm}, A.new count = .ok asm → unfilled asm ≤ maxResourceChunkCount
  accept : ∀ {asm asm' offset page}, A.acceptPage asm offset page = .ok asm' →
    unfilled asm' < unfilled asm

/-- How many pages can still be accepted. -/
def pagesLeft (unfilled : Asm → Nat) (s : Assembly Asm) : Nat :=
  match s.identity with
  | none => maxResourceChunkCount + 1
  | some _ => s.assembler.elim 0 unfilled

/-- What is between the frames: the bytes are within the window, and there is no assembler
before the first one. -/
structure Reading (maxLen : Nat) (s : Assembly Asm) : Prop where
  within : s.byteFrontier ≤ maxLen
  fresh : s.identity = none → s.assembler = none

variable {unfilled : Asm → Nat}

theorem pagesLeft_of_takesPage (hA : FillsEntries seams.assembler unfilled) {asm asm' : Option Asm}
    (htakes : TakesPage seams.assembler asm frame asm' accepted) {bound : Nat}
    (hbound : asm.elim 0 unfilled ≤ bound) :
    asm'.elim 0 unfilled + accepted.toNat ≤ bound := by
  cases htakes with
  | nothing => exact hbound
  | page _ haccept =>
    have := hA.accept haccept
    exact Nat.le_trans this hbound

theorem declareFrame_pagesLeft (hA : FillsEntries seams.assembler unfilled)
    (hs : Reading maxLen s) (h : declareFrame seams s frame = .ok (s', accepted)) :
    s'.identity ≠ none ∧ pagesLeft unfilled s' + accepted.toNat ≤ pagesLeft unfilled s := by
  rw [declareFrame] at h
  split at h
  · rename_i hnone
    obtain ⟨asm, hstarts, rfl⟩ := declareFirst_ok.mp h
    refine ⟨nofun, ?_⟩
    rw [hs.fresh hnone] at hstarts
    rw [pagesLeft, pagesLeft, hnone]
    show asm.elim 0 unfilled + accepted.toNat ≤ maxResourceChunkCount + 1
    cases hstarts with
    | whole => exact Nat.zero_le _
    | paged _ _ hnew htakes =>
      exact Nat.le_succ_of_le (pagesLeft_of_takesPage hA htakes (hA.new hnew))
  · rename_i identity hidentity
    obtain ⟨-, asm, htakes, rfl⟩ := declareLater_ok.mp h
    refine ⟨nofun, ?_⟩
    rw [pagesLeft, pagesLeft, hidentity]
    exact pagesLeft_of_takesPage hA htakes (Nat.le_refl _)

/-- Every frame after which the reader goes on leaves less to come. -/
theorem takeFrame_next (hA : FillsEntries seams.assembler unfilled) (hs : Reading maxLen s)
    {item : Except String RangeFrame} (h : takeFrame seams maxLen s item = .ok (.next s')) :
    Reading maxLen s' ∧ maxLen - s'.byteFrontier + pagesLeft unfilled s'
      < maxLen - s.byteFrontier + pagesLeft unfilled s := by
  obtain ⟨frame, s₁, accepted, rfl, hdeclare, hplace⟩ := takeFrame_ok.mp h
  obtain ⟨hidentity, hpages⟩ := declareFrame_pagesLeft hA hs hdeclare
  obtain ⟨hsame, hasm, hle, hmax, hgain⟩ := placeFrame_next hplace
  rw [declareFrame_byteFrontier hdeclare] at hle hmax hgain
  have hwithin := hs.within
  have hleft : pagesLeft unfilled s' = pagesLeft unfilled s₁ := by
    rw [pagesLeft, pagesLeft, hsame, hasm]
  refine ⟨⟨by omega, fun hnone => absurd (hsame ▸ hnone) hidentity⟩, ?_⟩
  rw [hleft]
  cases hgain with
  | inl hpage =>
    rw [hpage, Bool.toNat_true] at hpages
    omega
  | inr hbytes => omega

/-- No state of the reader has more in its buffer than the window. -/
theorem reached_buf (h : Reached (takeFrame seams maxLen) Assembly.start s) :
    s.buf.length ≤ maxLen := by
  refine h.keeps (I := fun s => s.buf.length ≤ maxLen) (Nat.zero_le _)
    fun s item flow hs htake => ?_
  obtain ⟨frame, s₁, accepted, rfl, hdeclare, hplace⟩ := takeFrame_ok.mp htake
  rw [← declareFrame_buf hdeclare] at hs
  cases placeFrame_ok hplace with
  | inl hsame => rwa [hsame.2]
  | inr hwritten =>
    obtain ⟨hbefore, frontier, hstate⟩ := hwritten
    rw [hstate]
    show (s₁.write maxLen frame).buf.length ≤ maxLen
    rw [Assembly.write, length_overwrite, List.length_take]
    omega

/-- Whatever a holder sends, the reader takes no more frames than there are bytes in the window
and pages that are accepted, and two; an endless stream is given up or read to its end as
well. At no time is there more in the buffer than the window, or an index out of bounds. -/
theorem assembleRangeStream_stops (hA : FillsEntries seams.assembler unfilled) (maxLen : UInt64) :
    (∀ stream : List (Except String RangeFrame), ∃ consumed,
      stream = consumed ++ (assembleRangeStream seams maxLen.toNat stream).2 ∧
        consumed.length
          ≤ maxLen.toNat + pagesAccepted seams maxLen.toNat Assembly.start stream + 2) ∧
    (∀ stream : Nat → Except String RangeFrame, ∃ n,
      n ≤ maxLen.toNat + pagesAccepted seams maxLen.toNat Assembly.start
          ((List.range n).map stream) + 2 ∧
        ∃ result, ∀ more, assembleRangeStream seams maxLen.toNat ((List.range n).map stream ++ more)
          = (result, more)) ∧
    ∀ s, Reached (takeFrame seams maxLen.toNat) Assembly.start s →
      s.buf.length ≤ maxLen.toNat ∧ ∀ item,
        takeFrameChecked seams maxLen.toNat s item = some (takeFrame seams maxLen.toNat s item) := by
  have hstart : Reading maxLen.toNat (Assembly.start : Assembly Asm) :=
    ⟨Nat.zero_le _, fun _ => rfl⟩
  have hbound : ∀ stream : List (Except String RangeFrame),
      stream.length - (feed (takeFrame seams maxLen.toNat) Assembly.start stream).2.length
        ≤ maxLen.toNat - 0 + pagesAccepted seams maxLen.toNat Assembly.start stream + 1 :=
    fun stream => feed_consumed stream Assembly.start hstart.within
  refine ⟨fun stream => ?_, fun stream => ?_, fun s hs => ⟨reached_buf hs, fun item => ?_⟩⟩
  · obtain ⟨consumed, hstream, -⟩ : ∃ consumed,
        stream = consumed ++ (assembleRangeStream seams maxLen.toNat stream).2 ∧
          ∀ result, _ → ∃ frames s, _ ∧ (fun _ _ => True) frames s ∧ _ :=
      assembleRangeStream_keeps trivial fun _ _ _ _ _ _ _ _ _ => trivial
    refine ⟨consumed, hstream, ?_⟩
    have hconsumed := hbound stream
    have hlength := congrArg List.length hstream
    rw [List.length_append, assembleRangeStream_rest] at hlength
    omega
  · obtain ⟨n, -, result, hresult⟩ := feed_stops (fun s item s' hs => takeFrame_next hA hs) _
      (Assembly.start : Assembly Asm) stream hstart (Nat.le_refl _)
    refine ⟨n, ?_, ?_⟩
    · have hconsumed := hbound ((List.range n).map stream)
      have hall := hresult []
      rw [List.append_nil] at hall
      rw [hall, List.length_map, List.length_range] at hconsumed
      dsimp only [List.length_nil] at hconsumed
      omega
    · cases result with
      | error e => exact ⟨.error e, fun more => by rw [assembleRangeStream, hresult more]⟩
      | ok s => exact ⟨adoptPages seams s, fun more => by rw [assembleRangeStream, hresult more]⟩
  · exact takeFrameChecked_eq (Nat.le_pred_of_lt maxLen.toNat_lt) item

end Stopping

theorem pageAssembler_fillsEntries (pageLen : Nat) :
    FillsEntries (pageAssembler pageLen) fun pages => pages.count - pages.filled.length := by
  constructor
  · intro count pages hnew
    simp only [pageAssembler] at hnew
    split at hnew
    · rename_i hle
      cases hnew
      exact hle
    · cases hnew
  · intro pages pages' offset page haccept
    obtain ⟨⟨hoffset, -, hne, hlength⟩, rfl⟩ := pageAssembler_accept haccept
    have hpos : 0 < page.length := List.length_pos_iff.mpr hne
    show pages.count - (pages.filled ++ page).length < pages.count - pages.filled.length
    rw [List.length_append]
    omega

/-- A holder that sends its first frame over and over. -/
theorem repeated_frame_stops : ∃ n,
    n ≤ (2 : UInt64).toNat + pagesAccepted smallStreamSeams (2 : UInt64).toNat Assembly.start
        ((List.range n).map fun _ => .ok smallFirstFrame) + 2 ∧
      ∃ result, ∀ more, assembleRangeStream smallStreamSeams (2 : UInt64).toNat
        ((List.range n).map (fun _ => .ok smallFirstFrame) ++ more) = (result, more) :=
  have hA : FillsEntries smallStreamSeams.assembler _ := pageAssembler_fillsEntries 2048
  (assembleRangeStream_stops hA 2).2.1 fun _ => .ok smallFirstFrame

end DigDownload
