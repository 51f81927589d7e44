import Mathlib.Data.List.Induction
import DigDownload.Resource.Frames

/-!
# What an assembled range says about its frames

One step lemma for each part of the reader: the identity check, the declaration of a frame
and the placing of its bytes. From them follows what holds of the frames that were read by
a reader that came to its end: none of them revised what the first one declared, and the
bytes of the range are theirs wherever they leave no gap.
-/

namespace DigDownload

open Feed Slices

/-! ## The identity check -/

/-- What a later frame declares is left out or repeats what the first frame committed to. -/
def Repeats {T : Type} (committed declared : Option T) : Prop :=
  ∀ d, declared = some d → committed = some d

namespace StreamIdentity

/-- A later frame that revises nothing of what was declared before it. -/
structure Continues (identity : StreamIdentity) (frame : RangeFrame) : Prop where
  root : Repeats identity.root frame.root
  totalLength : Repeats identity.totalLength frame.totalLength
  chunkCount : Repeats identity.chunkCount frame.chunkCount
  proof : frame.inclusionProof = none
  index : ∀ index highest, frame.chunkIndex = some index →
    identity.highestChunkIndex = some highest → highest ≤ index
  page : frame.chunkLens.isSome = true → identity.prologueFrontier ≤ frame.pageOffset

/-- The identity once a later frame was read. -/
def advance (identity : StreamIdentity) (frame : RangeFrame) : StreamIdentity :=
  { identity with
    highestChunkIndex := frame.chunkIndex.or identity.highestChunkIndex
    prologueFrontier :=
      if frame.chunkLens.isSome then saturatingAdd frame.pageOffset frame.pageEntries
      else identity.prologueFrontier }

end StreamIdentity

/-- What a frame that continues a stream is. -/
def LaterFrame.of (frame : RangeFrame) : LaterFrame :=
  match frame.chunkLens with
  | none => .continuation
  | some page => .newProloguePage frame.pageOffset page.length

section Identity

variable {T : Type} [DecidableEq T] {debug : T → String} {field : String}
  {committed declared : Option T}

theorem checkUnrevised_ok {u : Unit} :
    checkUnrevised debug field committed declared = .ok u ↔ Repeats committed declared := by
  cases declared with
  | none => simp [checkUnrevised, Repeats]
  | some d =>
    cases committed with
    | none => simp [checkUnrevised, Repeats]
    | some c => by_cases heq : c = d <;> simp [checkUnrevised, Repeats, heq]

variable {identity identity' : StreamIdentity} {frame : RangeFrame} {verdict : LaterFrame}
  {debugStr : String → String}

theorem checkProof_ok {u : Unit} :
    StreamIdentity.checkProof frame = .ok u ↔ frame.inclusionProof = none := by
  cases h : frame.inclusionProof <;> simp [StreamIdentity.checkProof, h]

theorem checkChunkIndex_ok :
    identity.checkChunkIndex frame = .ok identity' ↔
      (∀ index highest, frame.chunkIndex = some index →
        identity.highestChunkIndex = some highest → highest ≤ index) ∧
      { identity with
        highestChunkIndex := frame.chunkIndex.or identity.highestChunkIndex } = identity' := by
  unfold StreamIdentity.checkChunkIndex
  cases frame.chunkIndex with
  | none => simp
  | some index =>
    cases identity.highestChunkIndex with
    | none => simp
    | some highest =>
      by_cases hlt : index < highest
      · simp [hlt, Nat.not_le.mpr hlt]
      · simp [hlt, Nat.le_of_not_lt hlt]

theorem checkPage_ok :
    identity.checkPage frame = .ok (verdict, identity') ↔
      (frame.chunkLens.isSome = true → identity.prologueFrontier ≤ frame.pageOffset) ∧
      verdict = LaterFrame.of frame ∧
      { identity with
        prologueFrontier :=
          if frame.chunkLens.isSome then saturatingAdd frame.pageOffset frame.pageEntries
          else identity.prologueFrontier } = identity' := by
  unfold StreamIdentity.checkPage LaterFrame.of RangeFrame.pageEntries
  cases frame.chunkLens with
  | none => simp [eq_comm (a := LaterFrame.continuation)]
  | some page =>
    by_cases hlt : frame.pageOffset < identity.prologueFrontier
    · simp [hlt, Nat.not_le.mpr hlt]
    · simp [hlt, Nat.le_of_not_lt hlt, eq_comm (b := verdict)]

/-- A later frame is accepted exactly if it revises nothing. -/
theorem checkLaterFrame_ok :
    identity.checkLaterFrame debugStr frame = .ok (verdict, identity') ↔
      identity.Continues frame ∧ verdict = LaterFrame.of frame ∧
        identity.advance frame = identity' := by
  unfold StreamIdentity.checkLaterFrame
  simp only [except_bind_eq_ok, checkUnrevised_ok, checkProof_ok, checkChunkIndex_ok,
    checkPage_ok]
  constructor
  · rintro ⟨-, hroot, -, htotal, -, hcount, -, hproof, _, ⟨hindex, rfl⟩, hpage, hverdict, hlast⟩
    exact ⟨⟨hroot, htotal, hcount, hproof, hindex, hpage⟩, hverdict, hlast⟩
  · rintro ⟨hcontinues, hverdict, hlast⟩
    exact ⟨(), hcontinues.root, (), hcontinues.totalLength, (), hcontinues.chunkCount, (),
      hcontinues.proof, _, ⟨hcontinues.index, rfl⟩, hcontinues.page, hverdict, hlast⟩

end Identity

/-! ## Declaring and placing a frame -/

section Frame

variable {Asm : Type} {A : ChunkLensAssembler Asm} {seams : StreamSeams Asm} {maxLen : Nat}
  {s s' : Assembly Asm} {identity : StreamIdentity} {frame : RangeFrame} {accepted : Bool}

/-- The page of a frame, if it has one, is accepted into the layout. -/
inductive TakesPage (A : ChunkLensAssembler Asm) :
    Option Asm → RangeFrame → Option Asm → Bool → Prop where
  | nothing {asm : Option Asm} {frame : RangeFrame} (hnone : frame.chunkLens = none) :
      TakesPage A asm frame asm false
  | page {asm asm' : Asm} {frame : RangeFrame} {page : List Nat}
      (hpage : frame.chunkLens = some page)
      (haccept : A.acceptPage asm frame.pageOffset page = .ok asm') :
      TakesPage A (some asm) frame (some asm') true

/-- The first frame has the whole layout, as far as it says, or begins one in pages. -/
inductive StartsPages (A : ChunkLensAssembler Asm) (asm : Option Asm) (frame : RangeFrame) :
    Option Asm → Bool → Prop where
  | whole (hcount : ∀ count, frame.chunkCount = some count → count ≤ frame.pageEntries) :
      StartsPages A asm frame asm false
  | paged {asm₀ : Asm} {asm' : Option Asm} {count : Nat} {accepted : Bool}
      (hcount : frame.chunkCount = some count) (hlt : frame.pageEntries < count)
      (hnew : A.new count = .ok asm₀) (htakes : TakesPage A (some asm₀) frame asm' accepted) :
      StartsPages A asm frame asm' accepted

theorem declareFirst_ok :
    declareFirst seams s frame = .ok (s', accepted) ↔
      ∃ asm, StartsPages seams.assembler s.assembler frame asm accepted ∧
        s' = { s with
          rangeMeta := .fromFrame frame
          identity := some (.fromFirstFrame frame)
          assembler := asm } := by
  constructor
  · intro h
    unfold declareFirst at h
    dsimp only at h
    split at h
    · rename_i hcount
      cases h
      exact ⟨_, .whole (by simp [hcount]), rfl⟩
    · rename_i count hcount
      split at h
      · rename_i hlt
        split at h
        · cases h
        · rename_i asm hnew
          split at h
          · rename_i hnone
            cases h
            exact ⟨_, .paged hcount hlt hnew (.nothing hnone), rfl⟩
          · rename_i page hpage
            split at h
            · cases h
            · rename_i asm' haccept
              cases h
              exact ⟨_, .paged hcount hlt hnew (.page hpage haccept), rfl⟩
      · rename_i hle
        cases h
        refine ⟨_, .whole fun count' hcount' => ?_, rfl⟩
        rw [hcount, Option.some.injEq] at hcount'
        exact hcount' ▸ Nat.le_of_not_lt hle
  · rintro ⟨asm, hstarts, rfl⟩
    cases hstarts with
    | whole hcount =>
      unfold declareFirst
      cases hframe : frame.chunkCount with
      | none => rfl
      | some count => simp [Nat.not_lt.mpr (hcount count hframe)]
    | paged hcount hlt hnew htakes =>
      unfold declareFirst
      cases htakes with
      | nothing hnone => simp [hcount, hlt, hnew, hnone]
      | page hpage haccept => simp [hcount, hlt, hnew, hpage, haccept]

theorem declareLater_ok :
    declareLater seams s identity frame = .ok (s', accepted) ↔
      identity.Continues frame ∧ ∃ asm, TakesPage seams.assembler s.assembler frame asm accepted ∧
        s' = { s with identity := some (identity.advance frame), assembler := asm } := by
  constructor
  · intro h
    unfold declareLater at h
    split at h
    · cases h
    · rename_i identity' hcheck
      obtain ⟨hcontinues, hverdict, rfl⟩ := checkLaterFrame_ok.mp hcheck
      have hnone : frame.chunkLens = none := by
        cases hpage : frame.chunkLens with
        | none => rfl
        | some page => simp [LaterFrame.of, hpage] at hverdict
      cases h
      exact ⟨hcontinues, _, .nothing hnone, rfl⟩
    · rename_i offset entries identity' hcheck
      obtain ⟨hcontinues, hverdict, rfl⟩ := checkLaterFrame_ok.mp hcheck
      cases hpage : frame.chunkLens with
      | none => simp [LaterFrame.of, hpage] at hverdict
      | some page =>
        simp only [LaterFrame.of, hpage, LaterFrame.newProloguePage.injEq] at hverdict
        obtain ⟨rfl, rfl⟩ := hverdict
        split at h
        · cases h
        · rename_i asm hasm
          split at h
          · cases h
          · rename_i asm' haccept
            cases h
            rw [hpage] at haccept
            exact ⟨hcontinues, _, hasm ▸ .page hpage haccept, rfl⟩
  · rintro ⟨hcontinues, asm, htakes, rfl⟩
    have hcheck : identity.checkLaterFrame seams.debugStr frame
        = .ok (LaterFrame.of frame, identity.advance frame) :=
      checkLaterFrame_ok.mpr ⟨hcontinues, rfl, rfl⟩
    generalize hbefore : s.assembler = before at htakes
    unfold declareLater
    rw [hcheck]
    cases htakes with
    | nothing hnone => simp [LaterFrame.of, hnone, hbefore]
    | page hpage haccept => simp [LaterFrame.of, hpage, hbefore, haccept]

/-- A frame that is placed leaves its bytes in the window, or in none if metadata only was
asked for. -/
theorem placeFrame_ok {flow : Flow (Assembly Asm)}
    (h : placeFrame seams maxLen s frame accepted = .ok flow) :
    maxLen = 0 ∧ flow.state = s ∨
      frame.offset < maxLen ∧ ∃ frontier,
        flow.state = { s.write maxLen frame with byteFrontier := frontier } := by
  unfold placeFrame at h
  dsimp only at h
  split at h
  · rename_i hzero
    split at h
    · cases h
      exact Or.inl ⟨hzero, rfl⟩
    split at h
    · cases h
      exact Or.inl ⟨hzero, rfl⟩
    · cases h
  split at h
  · cases h
  rename_i hlt
  split at h
  · cases h
  split at h
  · cases h
    exact Or.inr ⟨Nat.lt_of_not_le hlt, s.byteFrontier, rfl⟩
  split at h
  · cases h
  · cases h
    exact Or.inr ⟨Nat.lt_of_not_le hlt, _, rfl⟩

/-- A frame that is taken was declared and placed. -/
theorem takeFrame_ok {item : Except String RangeFrame} {flow : Flow (Assembly Asm)} :
    takeFrame seams maxLen s item = .ok flow ↔
      ∃ frame s' accepted, item = .ok frame ∧ declareFrame seams s frame = .ok (s', accepted) ∧
        placeFrame seams maxLen s' frame accepted = .ok flow := by
  cases item with
  | error e => simp [takeFrame]
  | ok frame =>
    cases hdeclare : declareFrame seams s frame with
    | error e => simp [takeFrame, hdeclare]
    | ok declared =>
      obtain ⟨s₁, accepted⟩ := declared
      simp only [takeFrame, hdeclare]
      constructor
      · exact fun h => ⟨frame, s₁, accepted, rfl, hdeclare, h⟩
      · rintro ⟨frame', s₂, accepted', hframe, hdeclare', h⟩
        cases hframe
        rw [hdeclare] at hdeclare'
        cases hdeclare'
        exact h

end Frame

/-! ## No revision -/

/-- The later frames of a stream revise nothing that was declared before them. -/
structure RevisesNothing (first : RangeFrame) (later : List RangeFrame) : Prop where
  root : ∀ frame ∈ later, Repeats first.root frame.root
  totalLength : ∀ frame ∈ later, Repeats first.totalLength frame.totalLength
  chunkCount : ∀ frame ∈ later, Repeats first.chunkCount frame.chunkCount
  proof : ∀ frame ∈ later, frame.inclusionProof = none
  index : (first :: later).Pairwise fun earlier frame =>
    ∀ i j, earlier.chunkIndex = some i → frame.chunkIndex = some j → i ≤ j
  pages : (first :: later).Pairwise fun earlier frame =>
    earlier.chunkLens.isSome = true → frame.chunkLens.isSome = true →
      earlier.pageOffset + earlier.pageEntries ≤ frame.pageOffset

/-- The frames of a stream revise nothing of what its first frame declared. -/
def Unrevised : List RangeFrame → Prop
  | [] => True
  | first :: later => RevisesNothing first later

/-- What is returned of the identity is what the first frame declared. -/
structure DeclaredBy (frames : List RangeFrame) (declared : RangeMeta) : Prop where
  root : declared.root = frames.head?.bind (·.root)
  totalLength : declared.totalLength = frames.head?.bind (·.totalLength)
  chunkCount : declared.chunkCount = frames.head?.bind (·.chunkCount)
  inclusionProof : declared.inclusionProof = frames.head?.bind (·.inclusionProof)

namespace ChunkLensAssembler

/-- A page that is accepted ends within the array, and so within a `u64`. -/
def PagesFit {Asm : Type} (A : ChunkLensAssembler Asm) : Prop :=
  ∀ asm offset page asm', A.acceptPage asm offset page = .ok asm' → offset + page.length ≤ u64Max

end ChunkLensAssembler

section Revision

variable {Asm : Type} {seams : StreamSeams Asm} {maxLen : Nat} {s : Assembly Asm}
  {identity : StreamIdentity} {first frame : RangeFrame} {later : List RangeFrame}

/-- The identity has kept what the first frame declared, and is past what the frames that
were read reached. -/
structure StreamIdentity.Reaches (identity : StreamIdentity) (first : RangeFrame)
    (later : List RangeFrame) : Prop where
  root : identity.root = first.root
  totalLength : identity.totalLength = first.totalLength
  chunkCount : identity.chunkCount = first.chunkCount
  index : ∀ frame ∈ first :: later, ∀ i, frame.chunkIndex = some i →
    ∃ highest, identity.highestChunkIndex = some highest ∧ i ≤ highest

theorem StreamIdentity.Reaches.advance (h : identity.Reaches first later)
    (hcontinues : identity.Continues frame) :
    (identity.advance frame).Reaches first (later ++ [frame]) := by
  refine ⟨h.root, h.totalLength, h.chunkCount, fun frame' hmem i hi => ?_⟩
  rw [← List.cons_append, List.mem_append, List.mem_singleton] at hmem
  show ∃ highest, frame.chunkIndex.or identity.highestChunkIndex = some highest ∧ i ≤ highest
  cases hmem with
  | inl hold =>
    obtain ⟨highest, hhighest, hle⟩ := h.index frame' hold i hi
    cases hindex : frame.chunkIndex with
    | none => exact ⟨highest, hhighest, hle⟩
    | some index => exact ⟨index, rfl, Nat.le_trans hle (hcontinues.index index highest hindex hhighest)⟩
  | inr hnew =>
    rw [hnew] at hi
    exact ⟨i, by rw [hi]; rfl, Nat.le_refl i⟩

/-- The layout is one that the first frame stated whole, or that pages fill up to the
frontier. -/
inductive PagesReach (first : RangeFrame) (later : List RangeFrame) (frontier : Nat) :
    Option Asm → Prop where
  | whole (hnone : ∀ frame ∈ later, frame.chunkLens = none) : PagesReach first later frontier none
  | paged {asm : Asm} (hreach : ∀ frame ∈ first :: later, frame.chunkLens.isSome = true →
      frame.pageOffset + frame.pageEntries ≤ frontier) : PagesReach first later frontier (some asm)

theorem pageEntries_of {page : List Nat} (h : frame.chunkLens = some page) :
    frame.pageEntries = page.length := by
  simp [RangeFrame.pageEntries, h]

/-- What the reader has once frames were read that revise nothing. -/
inductive Tracks : List RangeFrame → Assembly Asm → Prop where
  | start : Tracks [] Assembly.start
  | frames {first : RangeFrame} {later : List RangeFrame} {s : Assembly Asm}
      {identity : StreamIdentity} (hmeta : s.rangeMeta = .fromFrame first)
      (hidentity : s.identity = some identity) (hreaches : identity.Reaches first later)
      (hpages : PagesReach first later identity.prologueFrontier s.assembler)
      (hunrevised : RevisesNothing first later) : Tracks (first :: later) s

theorem Tracks.identity_none {frames : List RangeFrame} (h : Tracks frames s)
    (hnone : s.identity = none) : frames = [] ∧ s = Assembly.start := by
  cases h with
  | start => exact ⟨rfl, rfl⟩
  | frames _ hidentity => rw [hnone] at hidentity; cases hidentity

theorem RevisesNothing.concat (h : RevisesNothing first later) (hreaches : identity.Reaches first later)
    (hpages : frame.chunkLens.isSome = true → ∀ earlier ∈ first :: later,
      earlier.chunkLens.isSome = true → earlier.pageOffset + earlier.pageEntries ≤ frame.pageOffset)
    (hcontinues : identity.Continues frame) : RevisesNothing first (later ++ [frame]) := by
  have hall : ∀ {P : RangeFrame → Prop}, (∀ f ∈ later, P f) → P frame → ∀ f ∈ later ++ [frame], P f := by
    intro P hold hnew f hf
    cases List.mem_append.mp hf with
    | inl hf => exact hold f hf
    | inr hf => exact List.mem_singleton.mp hf ▸ hnew
  refine ⟨hall h.root ?_, hall h.totalLength ?_, hall h.chunkCount ?_, hall h.proof hcontinues.proof,
    ?_, ?_⟩
  · exact hreaches.root ▸ hcontinues.root
  · exact hreaches.totalLength ▸ hcontinues.totalLength
  · exact hreaches.chunkCount ▸ hcontinues.chunkCount
  · rw [← List.cons_append, List.pairwise_append]
    refine ⟨h.index, List.pairwise_singleton _ _, fun earlier hearlier f hf i j hi hj => ?_⟩
    rw [List.mem_singleton.mp hf] at hj
    obtain ⟨highest, hhighest, hle⟩ := hreaches.index earlier hearlier i hi
    exact Nat.le_trans hle (hcontinues.index j highest hj hhighest)
  · rw [← List.cons_append, List.pairwise_append]
    refine ⟨h.pages, List.pairwise_singleton _ _, fun earlier hearlier f hf hpage hpage' => ?_⟩
    rw [List.mem_singleton.mp hf] at hpage' ⊢
    exact hpages hpage' earlier hearlier hpage

/-- The first frame. -/
theorem tracks_first {asm : Option Asm} {accepted : Bool} (hA : seams.assembler.PagesFit)
    (hstarts : StartsPages seams.assembler none first asm accepted) :
    Tracks [first] { (Assembly.start : Assembly Asm) with
      rangeMeta := .fromFrame first
      identity := some (.fromFirstFrame first)
      assembler := asm } := by
  refine .frames rfl rfl ⟨rfl, rfl, rfl, fun frame hmem i hi => ?_⟩ ?_
    ⟨by simp, by simp, by simp, by simp, List.pairwise_singleton _ _, List.pairwise_singleton _ _⟩
  · rw [List.mem_singleton.mp hmem] at hi
    exact ⟨i, hi, Nat.le_refl i⟩
  · cases hstarts with
    | whole hcount => exact .whole (by simp)
    | paged hcount hlt hnew htakes =>
      cases htakes with
      | nothing hnone =>
        refine .paged fun frame hmem hpage => ?_
        rw [List.mem_singleton.mp hmem, hnone] at hpage
        cases hpage
      | page hpage haccept =>
        refine .paged fun frame hmem _ => ?_
        have hfits := hA _ _ _ _ haccept
        rw [← pageEntries_of hpage] at hfits
        rw [List.mem_singleton.mp hmem]
        exact Nat.le_min.mpr ⟨Nat.le_refl _, hfits⟩

/-- A later frame. -/
theorem Tracks.continues {asm : Option Asm} {accepted : Bool} (hA : seams.assembler.PagesFit)
    {frames : List RangeFrame} (h : Tracks frames s) (hidentity : s.identity = some identity)
    (hcontinues : identity.Continues frame)
    (htakes : TakesPage seams.assembler s.assembler frame asm accepted) :
    Tracks (frames ++ [frame])
      { s with identity := some (identity.advance frame), assembler := asm } := by
  cases h with
  | start => cases hidentity
  | @frames first later _ identity' hmeta hidentity' hreaches hpages hunrevised =>
    obtain rfl : identity' = identity := by
      rw [hidentity'] at hidentity
      exact Option.some.inj hidentity
    have hconcat : ∀ (hpage : frame.chunkLens.isSome = true → ∀ earlier ∈ first :: later,
        earlier.chunkLens.isSome = true →
          earlier.pageOffset + earlier.pageEntries ≤ frame.pageOffset),
        PagesReach first (later ++ [frame]) (identity'.advance frame).prologueFrontier asm →
        Tracks (first :: (later ++ [frame]))
          { s with identity := some (identity'.advance frame), assembler := asm } :=
      fun hpage hreach => .frames hmeta rfl (hreaches.advance hcontinues) hreach
        (hunrevised.concat hreaches hpage hcontinues)
    generalize hbefore : s.assembler = before at htakes hpages
    cases htakes with
    | nothing hnone =>
      refine hconcat (by simp [hnone]) ?_
      have hsame : (identity'.advance frame).prologueFrontier = identity'.prologueFrontier := by
        simp [StreamIdentity.advance, hnone]
      rw [hsame]
      cases hpages with
      | whole hwhole =>
        refine .whole fun f hf => ?_
        cases List.mem_append.mp hf with
        | inl hf => exact hwhole f hf
        | inr hf => exact List.mem_singleton.mp hf ▸ hnone
      | paged hreach =>
        refine .paged fun f hf hpage => ?_
        rw [← List.cons_append, List.mem_append, List.mem_singleton] at hf
        cases hf with
        | inl hf => exact hreach f hf hpage
        | inr hf => rw [hf, hnone] at hpage; cases hpage
    | @page asm asm' _ page hpage haccept =>
      cases hpages with
      | paged hreach =>
        have hsome : frame.chunkLens.isSome = true := by simp [hpage]
        have hfrontier := hcontinues.page hsome
        refine hconcat (fun _ earlier hearlier hearlier' =>
          Nat.le_trans (hreach earlier hearlier hearlier') hfrontier) ?_
        have hadvanced : (identity'.advance frame).prologueFrontier
            = frame.pageOffset + frame.pageEntries := by
          have hfits := hA _ _ _ _ haccept
          rw [← pageEntries_of hpage] at hfits
          simp only [StreamIdentity.advance, hsome, if_true]
          exact Nat.min_eq_left hfits
        rw [hadvanced]
        refine .paged fun f hf hpage' => ?_
        rw [← List.cons_append, List.mem_append, List.mem_singleton] at hf
        cases hf with
        | inl hf =>
          exact Nat.le_trans (hreach f hf hpage')
            (Nat.le_trans hfrontier (Nat.le_add_right _ _))
        | inr hf => exact hf ▸ Nat.le_refl _

/-- Placing a frame leaves the identity and the layout alone. -/
theorem Tracks.placed {frames : List RangeFrame} {s' : Assembly Asm} (h : Tracks frames s)
    (hne : frames ≠ []) (hmeta : s'.rangeMeta = s.rangeMeta) (hidentity : s'.identity = s.identity)
    (hasm : s'.assembler = s.assembler) : Tracks frames s' := by
  cases h with
  | start => exact absurd rfl hne
  | frames hmeta' hidentity' hreaches hpages hunrevised =>
    exact .frames (hmeta.trans hmeta') (hidentity.trans hidentity') hreaches (hasm ▸ hpages)
      hunrevised

/-- One frame. -/
theorem Tracks.step (hA : seams.assembler.PagesFit) {frames : List RangeFrame} {s₁ : Assembly Asm}
    {accepted : Bool} {flow : Flow (Assembly Asm)} (h : Tracks frames s)
    (hdeclare : declareFrame seams s frame = .ok (s₁, accepted))
    (hplace : placeFrame seams maxLen s₁ frame accepted = .ok flow) :
    Tracks (frames ++ [frame]) flow.state := by
  have hdeclared : Tracks (frames ++ [frame]) s₁ := by
    unfold declareFrame at hdeclare
    split at hdeclare
    · rename_i hnone
      obtain ⟨rfl, rfl⟩ := h.identity_none hnone
      obtain ⟨asm, hstarts, rfl⟩ := declareFirst_ok.mp hdeclare
      exact tracks_first hA hstarts
    · rename_i identity hidentity
      obtain ⟨hcontinues, asm, htakes, rfl⟩ := declareLater_ok.mp hdeclare
      exact h.continues hA hidentity hcontinues htakes
  cases placeFrame_ok hplace with
  | inl hsame => exact hsame.2 ▸ hdeclared
  | inr hwritten =>
    obtain ⟨-, frontier, hstate⟩ := hwritten
    rw [hstate]
    exact hdeclared.placed (by simp) rfl rfl rfl

theorem Tracks.unrevised {frames : List RangeFrame} (h : Tracks frames s) : Unrevised frames := by
  cases h with
  | start => trivial
  | frames _ _ _ _ hunrevised => exact hunrevised

/-- The layout that is returned may come from pages; the rest is what the first frame said. -/
theorem Tracks.declaredBy {frames : List RangeFrame} {buf : Bytes} {declared : RangeMeta}
    (h : Tracks frames s) (hadopt : adoptPages seams s = .ok (buf, declared)) :
    DeclaredBy frames declared := by
  have hsame : declared = { s.rangeMeta with chunkLens := declared.chunkLens } := by
    unfold adoptPages at hadopt
    split at hadopt
    · cases hadopt
      rfl
    · split at hadopt
      · cases hadopt
        rfl
      · cases hadopt
  rw [hsame]
  cases h with
  | start => exact ⟨rfl, rfl, rfl, rfl⟩
  | frames hmeta =>
    rw [hmeta]
    exact ⟨rfl, rfl, rfl, rfl⟩

end Revision

/-! ## A whole stream -/

section Stream

variable {Asm : Type} {seams : StreamSeams Asm} {maxLen : Nat}
  {stream : List (Except String RangeFrame)}

/-- A range that is assembled is what the reader had at its end. -/
theorem assembleRangeStream_ok {result : Bytes × RangeMeta}
    (h : (assembleRangeStream seams maxLen stream).1 = .ok result) :
    ∃ s, (feed (takeFrame seams maxLen) Assembly.start stream).1 = .ok s ∧
      adoptPages seams s = .ok result := by
  unfold assembleRangeStream at h
  cases hfeed : feed (takeFrame seams maxLen) Assembly.start stream with
  | mk last rest =>
    rw [hfeed] at h
    cases last with
    | error e => cases h
    | ok s => exact ⟨s, rfl, h⟩

theorem assembleRangeStream_of_feed {s : Assembly Asm}
    (h : (feed (takeFrame seams maxLen) Assembly.start stream).1 = .ok s) :
    (assembleRangeStream seams maxLen stream).1 = adoptPages seams s := by
  unfold assembleRangeStream
  cases hfeed : feed (takeFrame seams maxLen) Assembly.start stream with
  | mk last rest =>
    rw [hfeed] at h
    obtain rfl : last = .ok s := h
    rfl

theorem assembleRangeStream_rest :
    (assembleRangeStream seams maxLen stream).2 =
      (feed (takeFrame seams maxLen) Assembly.start stream).2 := by
  unfold assembleRangeStream
  cases hfeed : feed (takeFrame seams maxLen) Assembly.start stream with
  | mk last rest => cases last <;> rfl

/-- What every frame keeps holds, of the frames that were read, of a range that is
assembled. -/
theorem assembleRangeStream_keeps {I : List RangeFrame → Assembly Asm → Prop}
    (hstart : I [] .start)
    (hstep : ∀ frames s frame s' accepted flow, I frames s →
      declareFrame seams s frame = .ok (s', accepted) →
      placeFrame seams maxLen s' frame accepted = .ok flow → I (frames ++ [frame]) flow.state) :
    ∃ consumed, stream = consumed ++ (assembleRangeStream seams maxLen stream).2 ∧
      ∀ result, (assembleRangeStream seams maxLen stream).1 = .ok result →
        ∃ frames s, consumed = frames.map .ok ∧ I frames s ∧ adoptPages seams s = .ok result := by
  have hkept : ∀ (past : List (Except String RangeFrame)) (s : Assembly Asm)
      (item : Except String RangeFrame) (flow : Flow (Assembly Asm)),
      (∃ frames, past = frames.map .ok ∧ I frames s) → takeFrame seams maxLen s item = .ok flow →
        ∃ frames, past ++ [item] = frames.map .ok ∧ I frames flow.state := by
    rintro past s item flow ⟨frames, rfl, hs⟩ htake
    obtain ⟨frame, s₁, accepted, rfl, hdeclare, hplace⟩ := takeFrame_ok.mp htake
    exact ⟨frames ++ [frame], by simp, hstep frames s frame s₁ accepted flow hs hdeclare hplace⟩
  obtain ⟨consumed, hstream, hlast⟩ := feed_keeps hkept stream [] Assembly.start ⟨[], rfl, hstart⟩
  refine ⟨consumed, by rw [assembleRangeStream_rest]; exact hstream, fun result hresult => ?_⟩
  obtain ⟨s, hfeed, hadopt⟩ := assembleRangeStream_ok hresult
  obtain ⟨frames, hframes, hs⟩ := hlast s hfeed
  exact ⟨frames, s, hframes, hs, hadopt⟩

/-- The identity of a stream cannot be revised: a range that is assembled has the identity that
its first frame declared, which no frame that was read after it revised. A stream in which a
frame that was read did is refused as a whole. -/
theorem identity_not_revised (hA : seams.assembler.PagesFit) (maxLen : Nat)
    (stream : List (Except String RangeFrame)) :
    ∃ consumed, stream = consumed ++ (assembleRangeStream seams maxLen stream).2 ∧
      (∀ buf declared, (assembleRangeStream seams maxLen stream).1 = .ok (buf, declared) →
        ∃ frames, consumed = frames.map .ok ∧ DeclaredBy frames declared ∧ Unrevised frames) ∧
      ∀ frames, consumed = frames.map .ok → ¬ Unrevised frames →
        ∃ e, (assembleRangeStream seams maxLen stream).1 = .error e := by
  obtain ⟨consumed, hstream, hlast⟩ : ∃ consumed,
      stream = consumed ++ (assembleRangeStream seams maxLen stream).2 ∧
        ∀ result, _ → ∃ frames s, _ ∧ Tracks frames s ∧ _ :=
    assembleRangeStream_keeps .start fun _ _ _ _ _ _ => Tracks.step hA
  refine ⟨consumed, hstream, fun buf declared hok => ?_, fun frames hframes hrevised => ?_⟩
  · obtain ⟨frames, s, hframes, htracks, hadopt⟩ := hlast _ hok
    exact ⟨frames, hframes, htracks.declaredBy hadopt, htracks.unrevised⟩
  · cases hresult : (assembleRangeStream seams maxLen stream).1 with
    | error e => exact ⟨e, rfl⟩
    | ok result =>
      obtain ⟨frames', s, hframes', htracks, -⟩ := hlast _ hresult
      have hsame : frames' = frames :=
        List.map_injective_iff.mpr (fun _ _ h => Except.ok.inj h) (hframes'.symm.trans hframes)
      exact absurd (hsame ▸ htracks.unrevised) hrevised

end Stream

theorem pageAssembler_accept {pageLen offset : Nat} {pages pages' : Pages} {page : List Nat}
    (h : (pageAssembler pageLen).acceptPage pages offset page = .ok pages') :
    (offset = pages.filled.length ∧ offset % pageLen = 0 ∧ page ≠ [] ∧
        page.length = min pageLen (pages.count - offset)) ∧
      pages' = { pages with filled := pages.filled ++ page } := by
  simp only [pageAssembler] at h
  split at h
  · rename_i haccept
    cases h
    exact ⟨haccept, rfl⟩
  · cases h

theorem pageAssembler_pagesFit (pageLen : Nat) : (pageAssembler pageLen).PagesFit := by
  intro pages offset page pages' h
  obtain ⟨⟨hoffset, haligned, hne, hlength⟩, -⟩ := pageAssembler_accept h
  have hcount := pages.count_le
  have hpos : 0 < page.length := List.length_pos_iff.mpr hne
  have hmax : maxResourceChunkCount ≤ u64Max := by decide
  omega

/-- The small stream is read to its end and keeps its identity. -/
theorem identity_not_revised_small : ∃ frames,
    [(.ok smallFirstFrame : Except String RangeFrame), .ok smallSecondFrame] = frames.map .ok ∧
      Unrevised frames := by
  have hA : smallStreamSeams.assembler.PagesFit := pageAssembler_pagesFit 2048
  obtain ⟨consumed, hstream, hok, -⟩ :=
    identity_not_revised hA 2 [.ok smallFirstFrame, .ok smallSecondFrame]
  have hrun : assembleRangeStream smallStreamSeams 2 [.ok smallFirstFrame, .ok smallSecondFrame]
      = (.ok ([1, 2], { RangeMeta.fromFrame smallFirstFrame with
          chunkLens := some (List.replicate 2049 1) }), []) := by decide +kernel
  rw [hrun] at hstream hok
  rw [List.append_nil] at hstream
  obtain ⟨frames, hframes, -, hunrevised⟩ := hok _ _ rfl
  exact ⟨frames, hstream.trans hframes, hunrevised⟩

/-! ## The bytes of the window -/

namespace RangeFrame

/-- The byte that a frame carries for a position of the window. -/
def carried (frame : RangeFrame) (maxLen i : Nat) : Option UInt8 :=
  if frame.offset ≤ i ∧ i < maxLen then frame.bytes[i - frame.offset]? else none

end RangeFrame

/-- The byte that the last of the frames that carry one carries for a position. -/
def lastCarried (maxLen : Nat) (frames : List RangeFrame) (i : Nat) : Option UInt8 :=
  frames.reverse.findSome? (·.carried maxLen i)

/-- The furthest end of frames that are clipped to the window. -/
def reach (maxLen : Nat) (frames : List RangeFrame) : Nat :=
  frames.foldl (fun n frame => max n (min (frame.offset + frame.bytes.length) maxLen)) 0

/-- Every position before the furthest end of the frames is one of a frame. -/
def Gapless (maxLen : Nat) (frames : List RangeFrame) : Prop :=
  ∀ i < reach maxLen frames, ∃ frame ∈ frames,
    frame.offset ≤ i ∧ i < frame.offset + frame.bytes.length

/-- The bytes are no more than were asked for, and every one of them was carried, by the last
frame that carries one for its position. -/
def OnlyCarried (maxLen : Nat) (frames : List RangeFrame) (buf : Bytes) : Prop :=
  buf.length ≤ maxLen ∧ ∀ i < buf.length, ∃ b, lastCarried maxLen frames i = some b ∧
    buf[i]? = some b

section Bytes

variable {Asm : Type} {seams : StreamSeams Asm} {maxLen i : Nat} {s s' : Assembly Asm}
  {frame : RangeFrame} {frames : List RangeFrame} {accepted : Bool}

theorem carried_eq_some :
    (∃ b, frame.carried maxLen i = some b) ↔
      frame.offset ≤ i ∧ i < frame.offset + frame.bytes.length ∧ i < maxLen := by
  unfold RangeFrame.carried
  split
  · rename_i h
    rw [← Option.isSome_iff_exists, Option.isSome_iff_ne_none, Ne, List.getElem?_eq_none_iff]
    omega
  · rename_i h
    simp only [reduceCtorEq, exists_false, false_iff]
    omega

theorem reach_concat :
    reach maxLen (frames ++ [frame]) =
      max (reach maxLen frames) (min (frame.offset + frame.bytes.length) maxLen) := by
  simp [reach, List.foldl_append]

theorem reach_le : reach maxLen frames ≤ maxLen := by
  induction frames using List.reverseRecOn with
  | nil => exact Nat.zero_le _
  | append_singleton frames frame ih =>
    rw [reach_concat]
    exact Nat.max_le.mpr ⟨ih, Nat.min_le_right _ _⟩

theorem lastCarried_concat :
    lastCarried maxLen (frames ++ [frame]) i =
      (frame.carried maxLen i).or (lastCarried maxLen frames i) := by
  unfold lastCarried
  rw [List.reverse_concat, List.findSome?_cons]
  cases frame.carried maxLen i <;> rfl

theorem lastCarried_eq_some :
    (∃ b, lastCarried maxLen frames i = some b) ↔ i < maxLen ∧ ∃ frame ∈ frames,
      frame.offset ≤ i ∧ i < frame.offset + frame.bytes.length := by
  unfold lastCarried
  rw [← Option.isSome_iff_exists, List.findSome?_isSome_iff]
  constructor
  · rintro ⟨frame, hmem, hsome⟩
    obtain ⟨hle, hlt, hmax⟩ := carried_eq_some.mp (Option.isSome_iff_exists.mp hsome)
    exact ⟨hmax, frame, List.mem_reverse.mp hmem, hle, hlt⟩
  · rintro ⟨hmax, frame, hmem, hle, hlt⟩
    exact ⟨frame, List.mem_reverse.mpr hmem,
      Option.isSome_iff_exists.mpr (carried_eq_some.mpr ⟨hle, hlt, hmax⟩)⟩

/-- No frame carries a byte past the furthest end. -/
theorem lastCarried_of_reach_le (h : reach maxLen frames ≤ i) : lastCarried maxLen frames i = none := by
  induction frames using List.reverseRecOn with
  | nil => rfl
  | append_singleton frames frame ih =>
    rw [reach_concat, Nat.max_le] at h
    rw [lastCarried_concat, ih h.1, Option.or_none, Option.eq_none_iff_forall_ne_some]
    intro b hb
    obtain ⟨-, hlt, hmax⟩ := carried_eq_some.mp ⟨b, hb⟩
    exact absurd h.2 (by omega)

/-- The buffer reaches as far as the frames, and holds what they carry and zeros elsewhere. -/
structure Holds (maxLen : Nat) (frames : List RangeFrame) (buf : Bytes) : Prop where
  length : buf.length = reach maxLen frames
  bytes : ∀ i < buf.length, buf[i]? = some ((lastCarried maxLen frames i).getD 0)

theorem Holds.write (h : Holds maxLen frames s.buf) (hoffset : frame.offset < maxLen) :
    Holds maxLen (frames ++ [frame]) (s.write maxLen frame).buf := by
  have hlength : (s.write maxLen frame).buf.length
      = max s.buf.length (min (frame.offset + frame.bytes.length) maxLen) := by
    simp only [Assembly.write, length_overwrite, List.length_take]
    omega
  refine ⟨by rw [hlength, reach_concat, h.length], fun i hi => ?_⟩
  rw [lastCarried_concat]
  show (overwrite 0 s.buf frame.offset (frame.bytes.take (maxLen - frame.offset)))[i]? = _
  rw [getElem?_overwrite, List.length_take]
  -- a position that the frame does not carry a byte for
  have hkept : (¬ ∃ b, frame.carried maxLen i = some b) → frame.carried maxLen i = none := by
    intro hnot
    exact Option.eq_none_iff_forall_ne_some.mpr fun b hb => hnot ⟨b, hb⟩
  by_cases hbefore : i < frame.offset
  · rw [if_pos hbefore, hkept (fun hsome => by have := carried_eq_some.mp hsome; omega),
      Option.none_or]
    by_cases hold : i < s.buf.length
    · rw [if_pos hold, h.bytes i hold]
    · rw [if_neg hold, lastCarried_of_reach_le (by rw [← h.length]; omega)]
      rfl
  rw [if_neg hbefore]
  by_cases hnew : i < frame.offset + min (maxLen - frame.offset) frame.bytes.length
  · obtain ⟨b, hb⟩ : ∃ b, frame.carried maxLen i = some b := carried_eq_some.mpr (by omega)
    rw [if_pos hnew, hb, Option.some_or, Option.getD_some, List.getElem?_take_of_lt (by omega)]
    unfold RangeFrame.carried at hb
    rwa [if_pos (by omega)] at hb
  · rw [if_neg hnew, hkept (fun hsome => by have := carried_eq_some.mp hsome; omega),
      Option.none_or]
    exact h.bytes i (by rw [hlength] at hi; omega)

theorem declareFrame_buf (h : declareFrame seams s frame = .ok (s', accepted)) :
    s'.buf = s.buf := by
  unfold declareFrame at h
  split at h
  · obtain ⟨asm, -, rfl⟩ := declareFirst_ok.mp h
    rfl
  · obtain ⟨-, asm, -, rfl⟩ := declareLater_ok.mp h
    rfl

theorem Holds.step {flow : Flow (Assembly Asm)} (h : Holds maxLen frames s.buf)
    (hdeclare : declareFrame seams s frame = .ok (s', accepted))
    (hplace : placeFrame seams maxLen s' frame accepted = .ok flow) :
    Holds maxLen (frames ++ [frame]) flow.state.buf := by
  have hbuf := declareFrame_buf hdeclare
  cases placeFrame_ok hplace with
  | inl hsame =>
    obtain ⟨rfl, hstate⟩ := hsame
    have hempty : flow.state.buf.length = 0 := by
      rw [hstate, hbuf, h.length]
      exact Nat.le_zero.mp reach_le
    refine ⟨?_, fun i hi => absurd hi (by omega)⟩
    rw [hempty]
    exact (Nat.le_zero.mp reach_le).symm
  | inr hwritten =>
    obtain ⟨hoffset, frontier, hstate⟩ := hwritten
    rw [hstate]
    rw [← hbuf] at h
    exact h.write hoffset

theorem Holds.onlyCarried_iff {buf : Bytes} (h : Holds maxLen frames buf) :
    OnlyCarried maxLen frames buf ↔ Gapless maxLen frames := by
  have hmax : ∀ i, i < buf.length → i < maxLen := fun i hi =>
    Nat.lt_of_lt_of_le (h.length ▸ hi) reach_le
  constructor
  · intro honly i hi
    obtain ⟨b, hb, -⟩ := honly.2 i (h.length ▸ hi)
    exact (lastCarried_eq_some.mp ⟨b, hb⟩).2
  · intro hgapless
    refine ⟨h.length ▸ reach_le, fun i hi => ?_⟩
    obtain ⟨b, hb⟩ := lastCarried_eq_some.mpr ⟨hmax i hi, hgapless i (h.length ▸ hi)⟩
    refine ⟨b, hb, ?_⟩
    rw [h.bytes i hi, hb]
    rfl

theorem adoptPages_buf {buf : Bytes} {declared : RangeMeta}
    (h : adoptPages seams s = .ok (buf, declared)) : buf = s.buf := by
  unfold adoptPages at h
  split at h
  · cases h
    rfl
  · split at h
    · cases h
      rfl
    · cases h

/-- No byte of an assembled range is made up, exactly if the frames that were read leave no gap
before the furthest one ends. -/
theorem bytes_carried_iff (maxLen : Nat) (stream : List (Except String RangeFrame)) {buf : Bytes}
    {declared : RangeMeta} (h : (assembleRangeStream seams maxLen stream).1 = .ok (buf, declared)) :
    ∃ frames, stream = frames.map .ok ++ (assembleRangeStream seams maxLen stream).2 ∧
      (OnlyCarried maxLen frames buf ↔ Gapless maxLen frames) := by
  obtain ⟨consumed, hstream, hlast⟩ :
      ∃ consumed, _ ∧ ∀ result, _ → ∃ frames s, _ ∧ (fun frames (s : Assembly Asm) =>
        Holds maxLen frames s.buf) frames s ∧ _ :=
    assembleRangeStream_keeps ⟨rfl, fun i hi => absurd hi (Nat.not_lt_zero i)⟩
      fun _ _ _ _ _ _ => Holds.step
  obtain ⟨frames, s, rfl, hholds, hadopt⟩ := hlast _ h
  refine ⟨frames, hstream, ?_⟩
  rw [adoptPages_buf hadopt]
  exact hholds.onlyCarried_iff

end Bytes

/-- The bytes of the small stream are the ones that its frames carry. -/
theorem bytes_carried_iff_small :
    ∃ frames, [(.ok smallFirstFrame : Except String RangeFrame), .ok smallSecondFrame]
        = frames.map .ok ++ [] ∧
      (OnlyCarried 2 frames [1, 2] ↔ Gapless 2 frames) := by
  have hrun : (assembleRangeStream smallStreamSeams 2 [.ok smallFirstFrame, .ok smallSecondFrame]).1
      = .ok ([1, 2], { RangeMeta.fromFrame smallFirstFrame with
          chunkLens := some (List.replicate 2049 1) }) := by decide +kernel
  have hrest : (assembleRangeStream smallStreamSeams 2
      [.ok smallFirstFrame, .ok smallSecondFrame]).2 = [] := by decide +kernel
  have hcarried := bytes_carried_iff 2 [.ok smallFirstFrame, .ok smallSecondFrame] hrun
  rwa [hrest] at hcarried

/-- A frame that begins two bytes into the window. -/
def sparseFrame : RangeFrame where
  offset := 2
  bytes := [3]
  complete := false
  totalLength := some 3
  chunkLens := some [3]
  chunkLensOffset := some 0
  chunkCount := some 1
  chunkIndex := some 0
  root := some "aa"
  inclusionProof := some "proof"

/-- The two bytes before it are made up, and the window is taken to be full. -/
theorem bytes_not_carried :
    ¬ ∀ (seams : StreamSeams Pages) (maxLen : Nat) (stream : List (Except String RangeFrame))
      (buf : Bytes) (declared : RangeMeta),
      (assembleRangeStream seams maxLen stream).1 = .ok (buf, declared) →
        ∃ frames, stream = frames.map .ok ++ (assembleRangeStream seams maxLen stream).2 ∧
          OnlyCarried maxLen frames buf := by
  intro h
  obtain ⟨frames, hframes, -, hcarried⟩ := h smallStreamSeams 3 [.ok sparseFrame] [0, 0, 3]
    (.fromFrame sparseFrame) rfl
  have hone : [sparseFrame] = frames :=
    List.map_injective_iff.mpr (fun _ _ h => Except.ok.inj h)
      (hframes.trans (List.append_nil (frames.map Except.ok)))
  obtain ⟨b, hb, -⟩ := hcarried 0 (by decide)
  rw [← hone] at hb
  cases hb

end DigDownload
