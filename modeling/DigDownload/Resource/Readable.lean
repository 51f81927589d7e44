import DigDownload.Lib.Past
import DigDownload.Resource.Assembly

/-!
# Which streams are read

A holder that conforms splits the bytes of a window over frames as it likes, and states the
layout on the first frame or pages it in. Such a stream is read to its end, whatever the
split is. A stream without the layout, which is what a scheduled range is asked for, is not.
-/

namespace DigDownload

open Feed Past Slices

/-! ## The assembler -/

/-- What the reader relies on in the assembler: pages of a length are taken in order, and the
layout is complete once all its entries are there. -/
structure TakesPages {Asm : Type} (A : ChunkLensAssembler Asm) (pageLen : Nat)
    (Filled : Asm → Nat → List Nat → Prop) : Prop where
  new : ∀ count ≤ maxResourceChunkCount, ∃ asm, A.new count = .ok asm ∧ Filled asm count []
  accept : ∀ {asm count filled page}, Filled asm count filled → page ≠ [] →
    filled.length % pageLen = 0 → page.length = min pageLen (count - filled.length) →
      ∃ asm', A.acceptPage asm filled.length page = .ok asm' ∧ Filled asm' count (filled ++ page)
  isComplete : ∀ {asm count filled}, Filled asm count filled →
    (A.isComplete asm = true ↔ filled.length = count)
  into : ∀ {asm count filled}, Filled asm count filled → filled.length = count →
    A.intoChunkLens asm = some filled

/-! ## Streams that conform -/

/-- The bytes of frames, one after the other. -/
def payload (frames : List RangeFrame) : Bytes := frames.flatMap (·.bytes)

/-- The entries of the pages of frames, one after the other. -/
def entries (frames : List RangeFrame) : List Nat := frames.flatMap (·.chunkLens.getD [])

/-- A frame begins where the frames before it end, and in the window; one without bytes is at
the start. -/
def PlacedAfter (maxLen : Nat) (before : List RangeFrame) (frame : RangeFrame) : Prop :=
  if frame.bytes = [] then frame.offset = 0
  else frame.offset = (payload before).length ∧ (payload before).length < maxLen

/-- A page continues the ones before it. -/
def PagedAfter (lens : List Nat) (pageLen : Nat) (before : List RangeFrame) (frame : RangeFrame) :
    Prop :=
  match frame.chunkLens with
  | none => frame.bytes ≠ []
  | some page =>
      frame.pageOffset = (entries before).length ∧ page ≠ [] ∧
        page = (lens.drop (entries before).length).take pageLen

/-- The layout is stated whole on the first frame, or paged in. -/
inductive ServesLayout (lens : List Nat) (pageLen : Nat) (first : RangeFrame)
    (later : List RangeFrame) : Prop where
  | whole (hlens : first.chunkLens = some lens)
      (hcount : ∀ count, first.chunkCount = some count → count = lens.length)
      (hlater : ∀ frame ∈ later, frame.chunkLens = none)
      (hbytes : ∀ frame ∈ first :: later, frame.bytes ≠ [])
  | paged (hcount : first.chunkCount = some lens.length)
      (hbounded : lens.length ≤ maxResourceChunkCount) (hlt : first.pageEntries < lens.length)
      (hstamp : first.chunkLens = none → first.pageOffset = 0)
      (hpages : AtEach (PagedAfter lens pageLen) (first :: later))
      (hall : entries (first :: later) = lens)

/-- A stream of frames that serves a window together with the layout. -/
structure ServesWindow (window : Bytes) (lens : List Nat) (pageLen : Nat) (first : RangeFrame)
    (later : List RangeFrame) : Prop where
  covers : (payload (first :: later)).take window.length = window
  placed : AtEach (PlacedAfter window.length) (first :: later)
  root : ∀ frame ∈ later, Repeats first.root frame.root
  totalLength : ∀ frame ∈ later, Repeats first.totalLength frame.totalLength
  chunkCount : ∀ frame ∈ later, Repeats first.chunkCount frame.chunkCount
  proof : ∀ frame ∈ later, frame.inclusionProof = none
  index : (first :: later).Pairwise fun earlier frame =>
    ∀ i j, earlier.chunkIndex = some i → frame.chunkIndex = some j → i ≤ j
  complete : ∀ frame ∈ (first :: later).dropLast, frame.complete = false
  layout : ServesLayout lens pageLen first later

/-! ## Reading a stream that conforms -/

theorem payload_concat (frames : List RangeFrame) (frame : RangeFrame) :
    payload (frames ++ [frame]) = payload frames ++ frame.bytes := by
  simp [payload]

theorem entries_concat (frames : List RangeFrame) (frame : RangeFrame) :
    entries (frames ++ [frame]) = entries frames ++ frame.chunkLens.getD [] := by
  simp [entries]

/-- The pages of the first frames are a prefix of the layout, which ends between two pages or
is all of it. -/
theorem entries_prefix {lens : List Nat} {pageLen : Nat} {frames : List RangeFrame}
    (h : AtEach (PagedAfter lens pageLen) frames) :
    ∃ k ≤ lens.length, entries frames = lens.take k ∧ (k % pageLen = 0 ∨ k = lens.length) := by
  induction frames using List.reverseRecOn with
  | nil => exact ⟨0, Nat.zero_le _, rfl, Or.inl (Nat.zero_mod _)⟩
  | append_singleton frames frame ih =>
    obtain ⟨hframes, hframe⟩ := atEach_concat.mp h
    obtain ⟨k, hk, hentries, haligned⟩ := ih hframes
    rw [entries_concat, hentries]
    cases hpage : frame.chunkLens with
    | none => exact ⟨k, hk, by simp, haligned⟩
    | some page =>
      simp only [PagedAfter, hpage] at hframe
      obtain ⟨-, hne, hslice⟩ := hframe
      rw [hentries, List.length_take, Nat.min_eq_left hk] at hslice
      have hlength := congrArg List.length hslice
      rw [List.length_take, List.length_drop] at hlength
      have hpos := List.length_pos_iff.mpr hne
      have hzero : k % pageLen = 0 := haligned.resolve_right (by omega)
      refine ⟨min (k + pageLen) lens.length, Nat.min_le_right _ _, ?_, ?_⟩
      · rw [Option.getD_some, hslice, ← List.take_add, List.take_eq_take_iff]
        omega
      · rcases Nat.le_total (k + pageLen) lens.length with hle | hle
        · rw [Nat.min_eq_left hle, Nat.add_mod_right]
          exact Or.inl hzero
        · exact Or.inr (Nat.min_eq_right hle)

section Reading

variable {Asm : Type} {seams : StreamSeams Asm} {Filled : Asm → Nat → List Nat → Prop}
  {window : Bytes} {lens : List Nat} {pageLen maxLen : Nat} {first frame : RangeFrame}
  {later before after : List RangeFrame} {s : Assembly Asm}

/-- What the reader has of the layout. -/
inductive HasLayout (Filled : Asm → Nat → List Nat → Prop) (lens : List Nat)
    (frames : List RangeFrame) (frontier : Nat) : Option Asm → Prop where
  | whole (hlens : ∃ first ∈ frames.head?, first.chunkLens = some lens) :
      HasLayout Filled lens frames frontier none
  | paged {asm : Asm} (hfilled : Filled asm lens.length (entries frames))
      (hfrontier : frontier = (entries frames).length) :
      HasLayout Filled lens frames frontier (some asm)

/-- What the reader knows once frames of a stream were declared. -/
inductive Knows (Filled : Asm → Nat → List Nat → Prop) (lens : List Nat) :
    List RangeFrame → Assembly Asm → Prop where
  | start {s : Assembly Asm} (hidentity : s.identity = none) (hasm : s.assembler = none) :
      Knows Filled lens [] s
  | frames {first : RangeFrame} {past : List RangeFrame} {s : Assembly Asm}
      {identity : StreamIdentity} (hmeta : s.rangeMeta = .fromFrame first)
      (hidentity : s.identity = some identity) (hroot : identity.root = first.root)
      (htotal : identity.totalLength = first.totalLength)
      (hcount : identity.chunkCount = first.chunkCount)
      (hindex : ∀ highest, identity.highestChunkIndex = some highest →
        ∃ frame ∈ first :: past, frame.chunkIndex = some highest)
      (hlayout : HasLayout Filled lens (first :: past) identity.prologueFrontier s.assembler) :
      Knows Filled lens (first :: past) s

/-- What the reader has of the bytes. -/
structure HasBytes (maxLen : Nat) (frames : List RangeFrame) (s : Assembly Asm) : Prop where
  buf : s.buf = (payload frames).take maxLen
  frontier : s.byteFrontier = s.buf.length

/-- The page of a frame of a paged layout is accepted. -/
theorem takesPage_of_paged {asm : Asm} (hA : TakesPages seams.assembler pageLen Filled)
    (hbounded : lens.length ≤ maxResourceChunkCount)
    (hbefore : AtEach (PagedAfter lens pageLen) before) (hframe : PagedAfter lens pageLen before frame)
    (hfilled : Filled asm lens.length (entries before)) :
    ∃ asm' accepted, TakesPage seams.assembler (some asm) frame (some asm') accepted ∧
      Filled asm' lens.length (entries (before ++ [frame])) ∧
      (frame.bytes = [] → accepted = true) ∧
      (frame.chunkLens.isSome = true → frame.pageOffset = (entries before).length ∧
        saturatingAdd frame.pageOffset frame.pageEntries
          = (entries (before ++ [frame])).length) := by
  cases hpage : frame.chunkLens with
  | none =>
    simp only [PagedAfter, hpage] at hframe
    refine ⟨asm, false, .nothing hpage, ?_, fun hnone => absurd hnone hframe, by simp⟩
    rwa [entries_concat, hpage, Option.getD_none, List.append_nil]
  | some page =>
    simp only [PagedAfter, hpage] at hframe
    obtain ⟨hoffset, hne, hslice⟩ := hframe
    obtain ⟨k, hk, hentries, haligned⟩ := entries_prefix hbefore
    have hlen : (entries before).length = k := by rw [hentries, List.length_take, Nat.min_eq_left hk]
    have hlength := congrArg List.length hslice
    rw [List.length_take, List.length_drop, hlen] at hlength
    have hpos := List.length_pos_iff.mpr hne
    have hzero : (entries before).length % pageLen = 0 := by
      rw [hlen]
      exact haligned.resolve_right (by omega)
    obtain ⟨asm', haccept, hfilled'⟩ := hA.accept hfilled hne hzero (by rw [hlength, hlen])
    refine ⟨asm', true, .page hpage (hoffset ▸ haccept), ?_, fun _ => rfl, fun _ => ⟨hoffset, ?_⟩⟩
    · rwa [entries_concat, hpage, Option.getD_some]
    · have hmax : maxResourceChunkCount ≤ u64Max := by decide
      rw [pageEntries_of hpage, hoffset, entries_concat, hpage, Option.getD_some,
        List.length_append, saturatingAdd]
      exact Nat.min_eq_left (by omega)

/-- The first frame of a stream that conforms is declared. -/
theorem declareFirst_conforming (hA : TakesPages seams.assembler pageLen Filled)
    (h : ServesWindow window lens pageLen first later) (hasm : s.assembler = none) :
    ∃ s' accepted, declareFirst seams s first = .ok (s', accepted) ∧
      Knows Filled lens [first] s' ∧ s'.buf = s.buf ∧ s'.byteFrontier = s.byteFrontier ∧
      (first.bytes = [] → accepted = true) := by
  have hindex : ∀ highest, (StreamIdentity.fromFirstFrame first).highestChunkIndex = some highest →
      ∃ frame ∈ [first], frame.chunkIndex = some highest := fun highest hhighest =>
    ⟨first, List.mem_singleton_self _, hhighest⟩
  cases h.layout with
  | whole hlens hcount _ hbytes =>
    have hstarts : StartsPages seams.assembler s.assembler first s.assembler false := by
      refine .whole fun count hcount' => ?_
      exact Nat.le_of_eq ((hcount count hcount').trans (pageEntries_of hlens).symm)
    refine ⟨_, false, declareFirst_ok.mpr ⟨_, hstarts, rfl⟩, ?_, rfl, rfl, fun hnone => ?_⟩
    · refine .frames rfl rfl rfl rfl rfl hindex ?_
      show HasLayout Filled lens [first] _ s.assembler
      rw [hasm]
      exact .whole ⟨first, rfl, hlens⟩
    · exact absurd hnone (hbytes first (List.mem_cons_self ..))
  | paged hcount hbounded hlt hstamp hpages _ =>
    obtain ⟨asm, hnew, hempty⟩ := hA.new lens.length hbounded
    have hfirst : PagedAfter lens pageLen [] first := hpages [] first later rfl
    obtain ⟨asm', accepted, htakes, hfilled, haccepted, hpage⟩ :=
      takesPage_of_paged hA hbounded atEach_nil hfirst hempty
    refine ⟨_, accepted, declareFirst_ok.mpr ⟨_, .paged hcount hlt hnew htakes, rfl⟩, ?_, rfl, rfl,
      haccepted⟩
    refine .frames rfl rfl rfl rfl rfl hindex (.paged hfilled ?_)
    show saturatingAdd first.pageOffset first.pageEntries = _
    cases hlens : first.chunkLens with
    | none =>
      simp [hstamp hlens, RangeFrame.pageEntries, entries, hlens, saturatingAdd]
    | some page => exact (hpage (by simp [hlens])).2

/-- A later frame of a stream that conforms is declared. -/
theorem declareLater_conforming (hA : TakesPages seams.assembler pageLen Filled)
    (h : ServesWindow window lens pageLen first later) {past : List RangeFrame}
    (hsplit : later = past ++ frame :: after) (hknows : Knows Filled lens (first :: past) s) :
    ∃ identity s' accepted, s.identity = some identity ∧
      declareLater seams s identity frame = .ok (s', accepted) ∧
      Knows Filled lens (first :: (past ++ [frame])) s' ∧ s'.buf = s.buf ∧
      s'.byteFrontier = s.byteFrontier ∧ (frame.bytes = [] → accepted = true) := by
  cases hknows with
  | @frames _ _ _ identity hmeta hidentity hroot htotal hcount hindex hlayout =>
    have hmem : frame ∈ later := by simp [hsplit]
    have hcontinues : (frame.chunkLens.isSome = true → identity.prologueFrontier ≤ frame.pageOffset) →
        identity.Continues frame := by
      refine fun hpage => ⟨hroot ▸ h.root frame hmem, htotal ▸ h.totalLength frame hmem,
        hcount ▸ h.chunkCount frame hmem, h.proof frame hmem, fun index highest hi hhighest => ?_,
        hpage⟩
      obtain ⟨earlier, hearlier, hchunk⟩ := hindex highest hhighest
      have hpairwise := h.index
      rw [hsplit, ← List.cons_append, List.pairwise_append] at hpairwise
      exact hpairwise.2.2 earlier hearlier frame (List.mem_cons_self ..) highest index hchunk hi
    have hadvanced : ∀ highest, (identity.advance frame).highestChunkIndex = some highest →
        ∃ earlier ∈ first :: (past ++ [frame]), earlier.chunkIndex = some highest := by
      intro highest hhighest
      change frame.chunkIndex.or identity.highestChunkIndex = some highest at hhighest
      cases hi : frame.chunkIndex with
      | none =>
        rw [hi, Option.none_or] at hhighest
        obtain ⟨earlier, hearlier, hchunk⟩ := hindex highest hhighest
        exact ⟨earlier, by rw [← List.cons_append]; exact List.mem_append_left _ hearlier, hchunk⟩
      | some index =>
        rw [hi, Option.some_or] at hhighest
        exact ⟨frame, by simp, hi.trans hhighest⟩
    generalize hbefore : s.assembler = asm₀ at hlayout
    cases h.layout with
    | whole hlens _ hlater hbytes =>
      have hnone := hlater frame hmem
      refine ⟨identity, _, false, hidentity, declareLater_ok.mpr
        ⟨hcontinues (by simp [hnone]), _, .nothing hnone, rfl⟩, ?_, rfl, rfl, fun hempty => ?_⟩
      · refine .frames hmeta rfl hroot htotal hcount hadvanced ?_
        have hfrontier : (identity.advance frame).prologueFrontier = identity.prologueFrontier := by
          simp [StreamIdentity.advance, hnone]
        have hentries : entries (first :: (past ++ [frame])) = entries (first :: past) := by
          rw [← List.cons_append, entries_concat, hnone, Option.getD_none, List.append_nil]
        rw [hfrontier]
        show HasLayout Filled lens _ _ s.assembler
        rw [hbefore]
        cases hlayout with
        | whole hhead => exact .whole hhead
        | paged hfilled hreached => exact .paged (hentries ▸ hfilled) (hentries ▸ hreached)
      · exact absurd hempty (hbytes frame (List.mem_cons_of_mem _ hmem))
    | paged _ hbounded hlt _ hpages _ =>
      cases hlayout with
      | whole hhead =>
        obtain ⟨_, hfirst, hlens⟩ := hhead
        cases hfirst
        rw [pageEntries_of hlens] at hlt
        exact absurd hlt (Nat.lt_irrefl _)
      | @paged asm hfilled hreached =>
        rw [hsplit, ← List.cons_append] at hpages
        have hframe : PagedAfter lens pageLen (first :: past) frame := hpages _ frame after rfl
        have hpast := (atEach_append.mp hpages).1
        obtain ⟨asm', accepted, htakes, hfilled', haccepted, hpage⟩ :=
          takesPage_of_paged hA hbounded hpast hframe hfilled
        refine ⟨identity, _, accepted, hidentity, declareLater_ok.mpr
          ⟨hcontinues fun hsome => ?_, _, hbefore ▸ htakes, rfl⟩, ?_, rfl, rfl, haccepted⟩
        · exact Nat.le_of_eq (hreached.trans (hpage hsome).1.symm)
        · refine .frames hmeta rfl hroot htotal hcount hadvanced (.paged hfilled' ?_)
          show (if frame.chunkLens.isSome then _ else identity.prologueFrontier) = _
          split
          · rename_i hsome
            exact (hpage hsome).2
          · rename_i hnone
            have hnone' : frame.chunkLens = none := by simpa using hnone
            rw [hreached, ← List.cons_append, entries_concat, hnone', Option.getD_none,
              List.append_nil]

/-- A frame of a stream that conforms is declared. -/
theorem declareFrame_conforming (hA : TakesPages seams.assembler pageLen Filled)
    (h : ServesWindow window lens pageLen first later)
    (hsplit : first :: later = before ++ frame :: after) (hknows : Knows Filled lens before s) :
    ∃ s' accepted, declareFrame seams s frame = .ok (s', accepted) ∧
      Knows Filled lens (before ++ [frame]) s' ∧ s'.buf = s.buf ∧
      s'.byteFrontier = s.byteFrontier ∧ (frame.bytes = [] → accepted = true) := by
  unfold declareFrame
  cases before with
  | nil =>
    obtain ⟨rfl, rfl⟩ := List.cons.inj hsplit
    cases hknows with
    | start hidentity hasm =>
      rw [hidentity]
      exact declareFirst_conforming hA h hasm
  | cons first' past =>
    obtain ⟨rfl, hlater⟩ := List.cons.inj hsplit
    obtain ⟨identity, s', accepted, hidentity, hdeclare, hrest⟩ :=
      declareLater_conforming hA h hlater hknows
    rw [hidentity]
    exact ⟨s', accepted, hdeclare, hrest⟩

/-! ## Placing and the end -/

theorem overwrite_nil (z : UInt8) (buf : Bytes) : overwrite z buf 0 [] = buf := by
  simp [overwrite]

theorem overwrite_length (z : UInt8) (buf bytes : Bytes) :
    overwrite z buf buf.length bytes = buf ++ bytes := by
  simp [overwrite]

/-- The bytes of a frame of a stream that conforms extend the window. -/
theorem HasBytes.write (h : HasBytes maxLen before s) (hplaced : PlacedAfter maxLen before frame) :
    (s.write maxLen frame).buf = (payload (before ++ [frame])).take maxLen := by
  show overwrite 0 s.buf frame.offset (frame.bytes.take (maxLen - frame.offset)) = _
  unfold PlacedAfter at hplaced
  rw [payload_concat]
  split at hplaced
  · rename_i hempty
    rw [hempty, hplaced, List.take_nil, overwrite_nil, List.append_nil, h.buf]
  · obtain ⟨hoffset, hlt⟩ := hplaced
    have hall : (payload before).take maxLen = payload before :=
      List.take_of_length_le (Nat.le_of_lt hlt)
    rw [List.take_append, hall, h.buf, hall, hoffset, overwrite_length]

/-- A frame of a stream that conforms is placed. The reader stops if the frame is the last one
or everything is there, and reads on otherwise. -/
theorem placeFrame_conforming {accepted : Bool} (hreserve : ∀ n, seams.tryReserve n = none)
    (hpos : 0 < maxLen) (h : HasBytes maxLen before s) (hplaced : PlacedAfter maxLen before frame)
    (haccepted : frame.bytes = [] → accepted = true) :
    (placeFrame seams maxLen s frame accepted = .ok (.stop (s.write maxLen frame)) ∧
        (frame.complete = true ∨ s.drained seams.assembler = true ∧
          maxLen ≤ (s.write maxLen frame).buf.length)) ∨
      ∃ frontier, placeFrame seams maxLen s frame accepted
          = .ok (.next { s.write maxLen frame with byteFrontier := frontier }) ∧
        frontier = (s.write maxLen frame).buf.length := by
  have hreserved : ∀ n, reserveFor seams s.buf n = none := fun n => by
    unfold reserveFor
    split
    · exact hreserve _
    · rfl
  have hlength : (s.write maxLen frame).buf.length = max s.byteFrontier (frame.stop maxLen) := by
    rw [h.frontier]
    simp only [Assembly.write, length_overwrite, List.length_take, RangeFrame.stop]
    omega
  have hoffset : frame.offset < maxLen := by
    unfold PlacedAfter at hplaced
    split at hplaced
    · omega
    · omega
  -- a frame that carries bytes goes on where the ones before it end
  have hprogress : ¬ (frame.stop maxLen ≤ s.byteFrontier ∧ accepted = false) := by
    rintro ⟨hle, hfalse⟩
    have hne : frame.bytes ≠ [] := fun hempty => by
      rw [haccepted hempty] at hfalse
      cases hfalse
    unfold PlacedAfter at hplaced
    rw [if_neg hne] at hplaced
    have hbytes := List.length_pos_iff.mpr hne
    rw [h.frontier, h.buf, List.length_take, RangeFrame.stop] at hle
    omega
  unfold placeFrame
  dsimp only
  rw [if_neg (by omega), if_neg (by omega), hreserved]
  dsimp only
  by_cases hend : frame.complete = true ∨ s.drained seams.assembler = true ∧
      maxLen ≤ (s.write maxLen frame).buf.length
  · rw [if_pos hend]
    exact Or.inl ⟨rfl, hend⟩
  · rw [if_neg hend, if_neg hprogress]
    exact Or.inr ⟨_, rfl, hlength.symm⟩

/-- The pages of a stream that conforms are the layout. -/
theorem ServesLayout.entries_eq (h : ServesLayout lens pageLen first later) :
    entries (first :: later) = lens := by
  cases h with
  | whole hlens _ hlater _ =>
    have hnone : entries later = [] := by
      rw [entries, List.flatMap_eq_nil_iff]
      intro frame hframe
      rw [hlater frame hframe, Option.getD_none]
    show first.chunkLens.getD [] ++ entries later = lens
    rw [hlens, hnone, Option.getD_some, List.append_nil]
  | paged _ _ _ _ _ hall => exact hall

/-- A reader that has the window and the layout when it stops returns them. -/
theorem adoptPages_conforming (hA : TakesPages seams.assembler pageLen Filled)
    (h : ServesWindow window lens pageLen first later) {past : List RangeFrame}
    (hsplit : later = past ++ after) (hknows : Knows Filled lens (first :: past) s)
    (hbuf : s.buf = (payload (first :: past)).take window.length)
    (hend : after = [] ∨ s.drained seams.assembler = true ∧ window.length ≤ s.buf.length) :
    adoptPages seams s
      = .ok (window, { RangeMeta.fromFrame first with chunkLens := some lens }) := by
  have hentries : entries (first :: past) ++ entries after = lens := by
    rw [← h.layout.entries_eq, hsplit, ← List.cons_append]
    simp [entries]
  have hwindow : s.buf = window := by
    have hcovers := h.covers
    rw [hsplit, ← List.cons_append] at hcovers
    cases hend with
    | inl hnone =>
      rw [hnone, List.append_nil] at hcovers
      exact hbuf.trans hcovers
    | inr hfull =>
      have hlong : window.length ≤ (payload (first :: past)).length := by
        have := hfull.2
        rw [hbuf, List.length_take] at this
        exact Nat.le_trans this (Nat.min_le_right _ _)
      have hsum : payload (first :: past ++ after) = payload (first :: past) ++ payload after := by
        simp [payload]
      rw [hsum, List.take_append_of_le_length hlong] at hcovers
      rw [hbuf, hcovers]
  cases hknows with
  | @frames _ _ _ identity hmeta hidentity _ _ _ _ hlayout =>
    have hdrained : ∀ asm, s.assembler = some asm →
        s.drained seams.assembler = seams.assembler.isComplete asm := by
      intro asm hasm
      rw [Assembly.drained, hasm]
    unfold adoptPages
    rw [hmeta, hwindow]
    generalize s.assembler = asm₀ at hlayout hdrained
    cases hlayout with
    | whole hhead =>
      obtain ⟨_, hfirst, hlens⟩ := hhead
      cases hfirst
      rw [← hlens]
      rfl
    | @paged asm hfilled _ =>
      have hlength : (entries (first :: past)).length = lens.length := by
        cases hend with
        | inl hnone =>
          rw [hnone, show entries [] = [] from rfl, List.append_nil] at hentries
          rw [hentries]
        | inr hfull =>
          rw [hdrained asm rfl] at hfull
          exact (hA.isComplete hfilled).mp hfull.1
      have hall : entries (first :: past) = lens := by
        rw [← hentries, List.length_append] at hlength
        have hrest : entries after = [] := List.length_eq_zero_iff.mp (by omega)
        rw [hrest, List.append_nil] at hentries
        exact hentries
      dsimp only
      rw [hA.into hfilled hlength, hall]

/-- One frame of a stream that conforms: the reader goes on, or it has what it returns. -/
theorem takeFrame_conforming (hA : TakesPages seams.assembler pageLen Filled)
    (hreserve : ∀ n, seams.tryReserve n = none) (hwindow : window ≠ [])
    (h : ServesWindow window lens pageLen first later)
    (hsplit : first :: later = before ++ frame :: after) (hknows : Knows Filled lens before s)
    (hbytes : HasBytes window.length before s) :
    (∃ s', takeFrame seams window.length s (.ok frame) = .ok (.next s') ∧
        Knows Filled lens (before ++ [frame]) s' ∧ HasBytes window.length (before ++ [frame]) s') ∨
      ∃ s', takeFrame seams window.length s (.ok frame) = .ok (.stop s') ∧
        adoptPages seams s'
          = .ok (window, { RangeMeta.fromFrame first with chunkLens := some lens }) := by
  obtain ⟨s₁, accepted, hdeclare, hknows₁, hbuf₁, hfrontier₁, haccepted⟩ :=
    declareFrame_conforming hA h hsplit hknows
  have hbytes₁ : HasBytes window.length before s₁ :=
    ⟨hbuf₁.trans hbytes.buf, by rw [hfrontier₁, hbytes.frontier, hbuf₁]⟩
  have hplaced : PlacedAfter window.length before frame := h.placed before frame after hsplit
  have hwritten := hbytes₁.write hplaced
  have hkept : ∀ s₂ : Assembly Asm, s₂.rangeMeta = s₁.rangeMeta → s₂.identity = s₁.identity →
      s₂.assembler = s₁.assembler → Knows Filled lens (before ++ [frame]) s₂ := by
    intro s₂ hmeta hidentity hasm
    obtain ⟨head, past, hhead⟩ : ∃ head past, before ++ [frame] = head :: past :=
      List.exists_cons_of_ne_nil (by simp)
    rw [hhead] at hknows₁ ⊢
    cases hknows₁ with
    | frames hmeta' hidentity' hroot htotal hcount hindex hlayout =>
      exact .frames (hmeta.trans hmeta') (hidentity.trans hidentity') hroot htotal hcount hindex
        (hasm ▸ hlayout)
  have htake : ∀ flow, placeFrame seams window.length s₁ frame accepted = .ok flow →
      takeFrame seams window.length s (.ok frame) = .ok flow := fun flow hflow =>
    takeFrame_ok.mpr ⟨frame, s₁, accepted, rfl, hdeclare, hflow⟩
  cases placeFrame_conforming hreserve (List.length_pos_iff.mpr hwindow) hbytes₁ hplaced haccepted with
  | inl hstop =>
    obtain ⟨hflow, hend⟩ := hstop
    refine Or.inr ⟨_, htake _ hflow, ?_⟩
    obtain ⟨past, hpast⟩ : ∃ past, before ++ [frame] = first :: past := by
      cases before with
      | nil => exact ⟨[], by rw [(List.cons.inj hsplit).1]; rfl⟩
      | cons head past => exact ⟨past ++ [frame], by rw [(List.cons.inj hsplit).1]; rfl⟩
    have hlater : later = past ++ after := by
      rw [List.append_cons, hpast] at hsplit
      exact (List.cons.inj hsplit).2
    refine adoptPages_conforming hA h hlater ?_ ?_ ?_
    · exact hpast ▸ hkept _ rfl rfl rfl
    · exact hpast ▸ hwritten
    · cases hend with
      | inl hcomplete =>
        refine Or.inl (by_contra fun hne => ?_)
        have hmem : frame ∈ (first :: later).dropLast := by
          rw [hsplit, List.dropLast_append_of_ne_nil (by simp), List.dropLast_cons_of_ne_nil hne]
          simp
        rw [h.complete frame hmem] at hcomplete
        cases hcomplete
      | inr hfull => exact Or.inr hfull
  | inr hnext =>
    obtain ⟨frontier, hflow, hfrontier⟩ := hnext
    exact Or.inl ⟨_, htake _ hflow, hkept _ rfl rfl rfl, hwritten, hfrontier⟩

/-- A stream that conforms is read: its window, the identity that its first frame declares, and
the whole layout. -/
theorem reads_conforming_stream (hA : TakesPages seams.assembler pageLen Filled)
    (hreserve : ∀ n, seams.tryReserve n = none) (hwindow : window ≠ [])
    (h : ServesWindow window lens pageLen first later) :
    (assembleRangeStream seams window.length ((first :: later).map .ok)).1
      = .ok (window, { RangeMeta.fromFrame first with chunkLens := some lens }) := by
  obtain ⟨s, hlast, hadopt⟩ : ∃ s, (feed (takeFrame seams window.length) Assembly.start
      ((first :: later).map .ok)).1 = .ok s ∧ adoptPages seams s
        = .ok (window, { RangeMeta.fromFrame first with chunkLens := some lens }) := by
    refine feed_completes
      (J := fun (past rest : List (Except String RangeFrame)) (s : Assembly Asm) =>
        ∃ before after : List RangeFrame, past = before.map .ok ∧ rest = after.map .ok ∧
          first :: later = before ++ after ∧ Knows Filled lens before s ∧
          HasBytes window.length before s) ?_ ?_ _ [] Assembly.start
      ⟨[], first :: later, rfl, rfl, rfl, .start rfl rfl, ⟨by simp [Assembly.start, payload], rfl⟩⟩
    · rintro past item rest s ⟨before, after, rfl, hrest, hsplit, hknows, hbytes⟩
      obtain ⟨frame, after, rfl, rfl, rfl⟩ := List.map_eq_cons_iff.mp hrest.symm
      cases takeFrame_conforming hA hreserve hwindow h hsplit hknows hbytes with
      | inl hnext =>
        obtain ⟨s', hflow, hknows', hbytes'⟩ := hnext
        exact Or.inl ⟨s', hflow, before ++ [frame], after, by simp, rfl, by simpa using hsplit,
          hknows', hbytes'⟩
      | inr hstop => exact Or.inr hstop
    · rintro past s ⟨before, after, rfl, hrest, hsplit, hknows, hbytes⟩
      obtain rfl : after = [] := by simpa using hrest.symm
      rw [List.append_nil] at hsplit
      subst hsplit
      exact adoptPages_conforming hA h (List.append_nil later).symm hknows hbytes.buf (Or.inl rfl)
  exact (assembleRangeStream_of_feed hlast).trans hadopt

end Reading

theorem pageAssembler_takesPages (pageLen : Nat) :
    TakesPages (pageAssembler pageLen) pageLen
      fun pages count filled => pages.count = count ∧ pages.filled = filled where
  new count hcount := ⟨{ count, filled := [], count_le := hcount }, dif_pos hcount, rfl, rfl⟩
  accept := by
    rintro pages count filled page ⟨rfl, rfl⟩ hne haligned hlength
    refine ⟨{ pages with filled := pages.filled ++ page }, if_pos ⟨rfl, haligned, hne, hlength⟩,
      rfl, rfl⟩
  isComplete := by
    rintro pages count filled ⟨rfl, rfl⟩
    exact decide_eq_true_iff
  into := by
    rintro pages count filled ⟨rfl, rfl⟩ hlength
    exact if_pos hlength

/-- A layout of one entry more than a page has, and a window that the second page's frame fills. -/
theorem reads_conforming_stream_small :
    (assembleRangeStream smallStreamSeams 2 [.ok smallFirstFrame, .ok smallSecondFrame]).1
      = .ok ([1, 2], { RangeMeta.fromFrame smallFirstFrame with
          chunkLens := some (List.replicate 2049 1) }) := by
  have hstream : ServesWindow [1, 2] (List.replicate 2049 1) 2048 smallFirstFrame
      [smallSecondFrame] := by
    have htwo : ∀ {P : List RangeFrame → RangeFrame → Prop}, P [] smallFirstFrame →
        P [smallFirstFrame] smallSecondFrame → AtEach P [smallFirstFrame, smallSecondFrame] :=
      fun hfirst hsecond => atEach_concat.mpr ⟨atEach_singleton.mpr hfirst, hsecond⟩
    refine ⟨rfl, htwo ⟨rfl, by decide⟩ ⟨rfl, by decide⟩, ?_, ?_, ?_, ?_, ?_, ?_, ?_⟩
    · simp [Repeats, smallFirstFrame, smallSecondFrame, -List.reduceReplicate]
    · simp [Repeats, smallFirstFrame, smallSecondFrame, -List.reduceReplicate]
    · simp [Repeats, smallFirstFrame, smallSecondFrame, -List.reduceReplicate]
    · simp [smallSecondFrame]
    · simp [smallFirstFrame, smallSecondFrame, -List.reduceReplicate]
    · simp [smallFirstFrame, -List.reduceReplicate]
    · refine .paged (congrArg some List.length_replicate.symm) (by decide +kernel)
        (by decide +kernel) (fun _ => rfl)
        (htwo ⟨rfl, by decide +kernel, by decide +kernel⟩
          ⟨by decide +kernel, by decide +kernel, by decide +kernel⟩) (by decide +kernel)
  have hA : TakesPages smallStreamSeams.assembler 2048 _ := pageAssembler_takesPages 2048
  have hnonempty : ([1, 2] : Bytes) ≠ [] := by simp
  have hread := reads_conforming_stream hA (fun _ => rfl) hnonempty hstream
  exact hread

end DigDownload
