import DigDownload.Resource.Assembly

/-!
# Where the entries of a layout come from

A page states the entries from its offset on. A layout that came in several pages has been
through the assembler, which places them: it is the array that they state, every entry from
one page. The assembler is set up only if the first frame carries fewer entries than the
array has. A page on a first frame that carries enough of them is taken for the whole array
as it is, wherever it begins and however many entries it has.
-/

namespace DigDownload

open Feed

/-- The frame states the value of an entry of the array. -/
def RangeFrame.States (frame : RangeFrame) (i x : Nat) : Prop :=
  ∃ page, frame.chunkLens = some page ∧ frame.pageOffset ≤ i ∧
    page[i - frame.pageOffset]? = some x

/-- `v` is the array of `count` entries that the pages of the frames state: each entry by
one of them, and by one only. -/
structure CompleteArray (count : Nat) (frames : List RangeFrame) (v : List Nat) : Prop where
  length : v.length = count
  stated : ∀ i x, v[i]? = some x ↔ ∃ frame ∈ frames, frame.States i x
  once : frames.Pairwise fun earlier later => ∀ i x y, earlier.States i x → ¬ later.States i y

/-! ## The assembler -/

/-- The entries once a page was placed. -/
def placePage (held : Nat → Option Nat) (offset : Nat) (page : List Nat) (i : Nat) : Option Nat :=
  if offset ≤ i ∧ i < offset + page.length then page[i - offset]? else held i

/-- What the reader relies on in the assembler: a page is accepted if it is aligned, as long
as its place is, and none of its entries is filled, and it fills these; the array is given
out with every entry filled. `Entries` says what an assembler of an array holds. -/
structure PlacesPages {Asm : Type} (A : ChunkLensAssembler Asm) (pageLen : Nat)
    (Entries : Asm → Nat → (Nat → Option Nat) → Prop) : Prop where
  new : ∀ {count asm}, A.new count = .ok asm → Entries asm count fun _ => none
  accept : ∀ {asm asm' count held offset page}, Entries asm count held →
    A.acceptPage asm offset page = .ok asm' →
      offset % pageLen = 0 ∧ page.length = min pageLen (count - offset) ∧
        (∀ j < page.length, held (offset + j) = none) ∧
        Entries asm' count (placePage held offset page)
  into : ∀ {asm count held v}, Entries asm count held → A.intoChunkLens asm = some v →
    v.length = count ∧ ∀ (i : Nat) (h : i < v.length), held i = some v[i]

/-- The entries that are held are the ones that the frames state, each of them once. -/
structure Covers (count : Nat) (frames : List RangeFrame) (held : Nat → Option Nat) : Prop where
  stated : ∀ i x, held i = some x ↔ ∃ frame ∈ frames, frame.States i x
  within : ∀ i x, held i = some x → i < count
  once : frames.Pairwise fun earlier later => ∀ i x y, earlier.States i x → ¬ later.States i y

section Covers

variable {count i x : Nat} {frame : RangeFrame} {frames : List RangeFrame} {page : List Nat}
  {held : Nat → Option Nat}

theorem states_of_none (hnone : frame.chunkLens = none) : ¬ frame.States i x := by
  intro ⟨page, hpage, _⟩
  rw [hnone] at hpage
  cases hpage

theorem states_iff (hpage : frame.chunkLens = some page) : frame.States i x ↔
    frame.pageOffset ≤ i ∧ page[i - frame.pageOffset]? = some x := by
  constructor
  · intro ⟨page', hpage', hstates⟩
    rw [hpage, Option.some.injEq] at hpage'
    exact hpage' ▸ hstates
  · intro hstates
    exact ⟨page, hpage, hstates⟩

theorem covers_nil (count : Nat) : Covers count [] fun _ => none :=
  ⟨by simp, by simp, List.Pairwise.nil⟩

/-- A frame without a page. -/
theorem Covers.concat_none (h : Covers count frames held) (hnone : frame.chunkLens = none) :
    Covers count (frames ++ [frame]) held := by
  refine ⟨fun i x => ?_, h.within, ?_⟩
  · rw [h.stated]
    constructor
    · intro ⟨f, hf, hstates⟩
      exact ⟨f, List.mem_append_left _ hf, hstates⟩
    · intro ⟨f, hf, hstates⟩
      cases List.mem_append.mp hf with
      | inl hf => exact ⟨f, hf, hstates⟩
      | inr hf =>
        rw [List.mem_singleton.mp hf] at hstates
        exact absurd hstates (states_of_none hnone)
  · rw [List.pairwise_append]
    refine ⟨h.once, List.pairwise_singleton _ _, ?_⟩
    intro earlier _ f hf i x y _ hstates
    rw [List.mem_singleton.mp hf] at hstates
    exact states_of_none hnone hstates

/-- A frame with a page none of whose entries is held. -/
theorem Covers.concat_page (h : Covers count frames held) (hpage : frame.chunkLens = some page)
    (hfits : ∀ j < page.length, frame.pageOffset + j < count)
    (hfree : ∀ j < page.length, held (frame.pageOffset + j) = none) :
    Covers count (frames ++ [frame]) (placePage held frame.pageOffset page) := by
  -- an entry of the page lies in its window
  have hwindow : ∀ i x, frame.States i x →
      frame.pageOffset ≤ i ∧ i < frame.pageOffset + page.length ∧ held i = none := by
    intro i x hstates
    obtain ⟨hle, hget⟩ := (states_iff hpage).mp hstates
    obtain ⟨hlt, -⟩ := List.getElem?_eq_some_iff.mp hget
    have hnone := hfree _ hlt
    rw [Nat.add_sub_cancel' hle] at hnone
    exact ⟨hle, by omega, hnone⟩
  have hplaced : ∀ i x, placePage held frame.pageOffset page i = some x ↔
      held i = some x ∨ frame.States i x := by
    intro i x
    rw [placePage]
    split
    · rename_i hin
      have hnone := hfree (i - frame.pageOffset) (by omega)
      rw [Nat.add_sub_cancel' hin.1] at hnone
      rw [states_iff hpage, hnone]
      simp [hin.1]
    · rename_i hout
      constructor
      · exact .inl
      · intro hor
        cases hor with
        | inl hheld => exact hheld
        | inr hstates => exact absurd ⟨(hwindow i x hstates).1, (hwindow i x hstates).2.1⟩ hout
  refine ⟨fun i x => ?_, fun i x hx => ?_, ?_⟩
  · rw [hplaced, h.stated]
    constructor
    · intro hor
      cases hor with
      | inl hold =>
        obtain ⟨f, hf, hstates⟩ := hold
        exact ⟨f, List.mem_append_left _ hf, hstates⟩
      | inr hnew => exact ⟨frame, by simp, hnew⟩
    · intro ⟨f, hf, hstates⟩
      cases List.mem_append.mp hf with
      | inl hf => exact .inl ⟨f, hf, hstates⟩
      | inr hf => exact .inr (List.mem_singleton.mp hf ▸ hstates)
  · cases (hplaced i x).mp hx with
    | inl hold => exact h.within i x hold
    | inr hnew =>
      obtain ⟨hle, hlt, -⟩ := hwindow i x hnew
      have := hfits (i - frame.pageOffset) (by omega)
      omega
  · rw [List.pairwise_append]
    refine ⟨h.once, List.pairwise_singleton _ _, ?_⟩
    intro earlier hearlier f hf i x y hold hnew
    rw [List.mem_singleton.mp hf] at hnew
    have hheld := (h.stated i x).mpr ⟨earlier, hearlier, hold⟩
    rw [(hwindow i y hnew).2.2] at hheld
    cases hheld

end Covers

/-! ## The reader -/

section Reader

variable {Asm : Type} {seams : StreamSeams Asm} {pageLen maxLen : Nat}
  {Entries : Asm → Nat → (Nat → Option Nat) → Prop} {s s' : Assembly Asm} {frame : RangeFrame}
  {frames : List RangeFrame} {accepted : Bool}

/-- What the reader has of the layout: what the first frame carries of it, and nothing since;
or what the pages state. -/
inductive Gathers (Entries : Asm → Nat → (Nat → Option Nat) → Prop) :
    List RangeFrame → Option Asm → Prop where
  | whole {first : RangeFrame} {later : List RangeFrame}
      (hcount : ∀ count, first.chunkCount = some count → count ≤ first.pageEntries)
      (hlater : ∀ frame ∈ later, frame.chunkLens = none) : Gathers Entries (first :: later) none
  | paged {first : RangeFrame} {later : List RangeFrame} {asm : Asm} {count : Nat}
      {held : Nat → Option Nat} (hcount : first.chunkCount = some count)
      (hlt : first.pageEntries < count) (hentries : Entries asm count held)
      (hcovers : Covers count (first :: later) held) : Gathers Entries (first :: later) (some asm)

/-- A page that is accepted. -/
theorem PlacesPages.covers (hA : PlacesPages seams.assembler pageLen Entries) {asm asm' : Asm}
    {count : Nat} {held : Nat → Option Nat} {page : List Nat} (hentries : Entries asm count held)
    (hcovers : Covers count frames held) (hpage : frame.chunkLens = some page)
    (haccept : seams.assembler.acceptPage asm frame.pageOffset page = .ok asm') :
    ∃ held', Entries asm' count held' ∧ Covers count (frames ++ [frame]) held' := by
  obtain ⟨-, hlength, hfree, hentries'⟩ := hA.accept hentries haccept
  exact ⟨_, hentries', hcovers.concat_page hpage (fun j hj => by omega) hfree⟩

theorem gathers_first (hA : PlacesPages seams.assembler pageLen Entries) {first : RangeFrame}
    {asm : Option Asm} (hstarts : StartsPages seams.assembler none first asm accepted) :
    Gathers Entries [first] asm := by
  cases hstarts with
  | whole hcount => exact .whole hcount (by simp)
  | @paged _ _ count _ hcount hlt hnew htakes =>
    have hentries := hA.new hnew
    have hcovers := covers_nil count
    cases htakes with
    | nothing hnone => exact .paged hcount hlt hentries (hcovers.concat_none hnone)
    | page hpage haccept =>
      obtain ⟨held, hentries', hcovers'⟩ := hA.covers hentries hcovers hpage haccept
      exact .paged hcount hlt hentries' hcovers'

theorem Gathers.later (hA : PlacesPages seams.assembler pageLen Entries) {asm asm' : Option Asm}
    (h : Gathers Entries frames asm)
    (htakes : TakesPage seams.assembler asm frame asm' accepted) :
    Gathers Entries (frames ++ [frame]) asm' := by
  cases h with
  | @whole first later hcount hlater =>
    cases htakes with
    | nothing hnone =>
      refine .whole hcount fun f hf => ?_
      cases List.mem_append.mp hf with
      | inl hf => exact hlater f hf
      | inr hf => exact List.mem_singleton.mp hf ▸ hnone
  | paged hcount hlt hentries hcovers =>
    cases htakes with
    | nothing hnone => exact .paged hcount hlt hentries (hcovers.concat_none hnone)
    | page hpage haccept =>
      obtain ⟨held, hentries', hcovers'⟩ := hA.covers hentries hcovers hpage haccept
      exact .paged hcount hlt hentries' hcovers'

/-- What the reader has, and whose declaration it returns. -/
inductive Laid (Entries : Asm → Nat → (Nat → Option Nat) → Prop) :
    List RangeFrame → Assembly Asm → Prop where
  | start : Laid Entries [] Assembly.start
  | frames {first : RangeFrame} {later : List RangeFrame} {s : Assembly Asm}
      (hmeta : s.rangeMeta = .fromFrame first) (hidentity : s.identity ≠ none)
      (hgathers : Gathers Entries (first :: later) s.assembler) : Laid Entries (first :: later) s

theorem Laid.step (hA : PlacesPages seams.assembler pageLen Entries) {flow : Flow (Assembly Asm)}
    (h : Laid Entries frames s) (hdeclare : declareFrame seams s frame = .ok (s', accepted))
    (hplace : placeFrame seams maxLen s' frame accepted = .ok flow) :
    Laid Entries (frames ++ [frame]) flow.state := by
  have hdeclared : Laid Entries (frames ++ [frame]) s' := by
    rw [declareFrame] at hdeclare
    cases h with
    | start =>
      obtain ⟨asm, hstarts, rfl⟩ := declareFirst_ok.mp hdeclare
      exact .frames rfl nofun (gathers_first hA hstarts)
    | frames hmeta hidentity hgathers =>
      split at hdeclare
      · rename_i hnone
        exact absurd hnone hidentity
      · obtain ⟨-, asm, htakes, rfl⟩ := declareLater_ok.mp hdeclare
        exact .frames hmeta nofun (hgathers.later hA htakes)
  generalize hread : frames ++ [frame] = read at hdeclared
  cases hdeclared with
  | start => simp at hread
  | frames hmeta hidentity hgathers =>
    cases placeFrame_ok hplace with
    | inl hsame => exact hsame.2 ▸ .frames hmeta hidentity hgathers
    | inr hwritten =>
      obtain ⟨-, frontier, hstate⟩ := hwritten
      rw [hstate]
      exact .frames hmeta hidentity hgathers

/-- A layout that came in one frame is the array that it states if it is as long as it says
and begins at the first entry. -/
theorem completeArray_whole {first : RangeFrame} {later : List RangeFrame} {count : Nat}
    {v : List Nat} (hlater : ∀ frame ∈ later, frame.chunkLens = none)
    (hv : first.chunkLens = some v) :
    CompleteArray count (first :: later) v ↔
      first.pageEntries = count ∧ (first.pageOffset = 0 ∨ count = 0) := by
  have hstates : ∀ i x, (∃ frame ∈ first :: later, frame.States i x) ↔ first.States i x := by
    intro i x
    constructor
    · intro ⟨f, hf, hstates⟩
      cases hf with
      | head => exact hstates
      | tail _ hf => exact absurd hstates (states_of_none (hlater f hf))
    · intro hstates
      exact ⟨first, List.mem_cons_self, hstates⟩
  rw [pageEntries_of hv]
  constructor
  · intro hcomplete
    refine ⟨hcomplete.length, ?_⟩
    by_contra hnot
    obtain ⟨hoffset, hpos⟩ := not_or.mp hnot
    have hlt : 0 < v.length := by
      rw [hcomplete.length]
      exact Nat.pos_of_ne_zero hpos
    -- nothing states the first entry
    obtain ⟨hle, -⟩ := (states_iff hv).mp
      ((hstates 0 v[0]).mp ((hcomplete.stated 0 v[0]).mp (List.getElem?_eq_getElem hlt)))
    exact hoffset (Nat.le_zero.mp hle)
  · intro ⟨hlength, hplaced⟩
    refine ⟨hlength, fun i x => ?_, ?_⟩
    · rw [hstates, states_iff hv]
      cases hplaced with
      | inl hzero => simp [hzero]
      | inr hempty =>
        have hnil : v = [] := List.length_eq_zero_iff.mp (hlength.trans hempty)
        simp [hnil]
    · rw [List.pairwise_cons]
      refine ⟨fun f hf i x y _ => states_of_none (hlater f hf), ?_⟩
      refine List.Pairwise.imp_of_mem ?_ (List.pairwise_of_forall fun _ _ => trivial)
      intro _ f _ hf _ i x y _
      exact states_of_none (hlater f hf)

/-- The layout of an accepted stream that declares the number of its entries is the complete
array that its pages state, if and only if the first frame carries fewer entries than that,
or exactly as many from the first one on. -/
theorem layout_complete_iff (hA : PlacesPages seams.assembler pageLen Entries) (maxLen : Nat)
    {first : RangeFrame} {rest : List (Except String RangeFrame)} {count : Nat} {buf : Bytes}
    {declared : RangeMeta} {v : List Nat} (hcount : first.chunkCount = some count)
    (hok : (assembleRangeStream seams maxLen (.ok first :: rest)).1 = .ok (buf, declared))
    (hv : declared.chunkLens = some v) :
    ∃ later, .ok first :: rest = (first :: later).map Except.ok ++
        (assembleRangeStream seams maxLen (.ok first :: rest)).2 ∧
      (CompleteArray count (first :: later) v ↔ first.pageEntries < count ∨
        first.pageEntries = count ∧ (first.pageOffset = 0 ∨ count = 0)) := by
  obtain ⟨consumed, hstream, hlast⟩ : ∃ consumed,
      .ok first :: rest = consumed ++ (assembleRangeStream seams maxLen (.ok first :: rest)).2 ∧
        ∀ result, _ → ∃ frames s, _ ∧ Laid Entries frames s ∧ _ :=
    assembleRangeStream_keeps .start fun _ _ _ _ _ _ => Laid.step hA
  obtain ⟨frames, s, rfl, hlaid, hadopt⟩ := hlast _ hok
  cases hlaid with
  | start =>
    cases hadopt
    cases hv
  | @frames first' later _ hmeta hidentity hgathers =>
    obtain ⟨hfirst, -⟩ := List.cons.inj hstream
    obtain rfl : first = first' := Except.ok.inj hfirst
    refine ⟨later, hstream, ?_⟩
    generalize hasm : s.assembler = asm at hgathers
    rw [adoptPages, hasm] at hadopt
    cases hgathers with
    | whole hwhole hlater =>
      cases hadopt
      rw [hmeta] at hv
      have hle : count ≤ first.pageEntries := hwhole count hcount
      rw [completeArray_whole hlater hv]
      exact (or_iff_right (Nat.not_lt.mpr hle)).symm
    | @paged _ _ asm count' held hcount' hlt hentries hcovers =>
      obtain rfl : count' = count := Option.some.inj (hcount'.symm.trans hcount)
      refine iff_of_true ?_ (.inl hlt)
      dsimp only at hadopt
      cases hinto : seams.assembler.intoChunkLens asm with
      | none =>
        rw [hinto] at hadopt
        cases hadopt
      | some full =>
        rw [hinto] at hadopt
        cases hadopt
        obtain rfl : full = v := Option.some.inj hv
        obtain ⟨hlength, hfilled⟩ := hA.into hentries hinto
        refine ⟨hlength, fun i x => ?_, hcovers.once⟩
        rw [← hcovers.stated]
        constructor
        · intro hget
          obtain ⟨hi, rfl⟩ := List.getElem?_eq_some_iff.mp hget
          exact hfilled i hi
        · intro hheld
          have hi : i < full.length := by
            rw [hlength]
            exact hcovers.within i x hheld
          rw [List.getElem?_eq_getElem hi]
          exact (hfilled i hi).symm.trans hheld

end Reader

/-! ## Small streams -/

/-- What an assembler that takes pages in order holds. -/
def Pages.Holds (pages : Pages) (count : Nat) (held : Nat → Option Nat) : Prop :=
  pages.count = count ∧ ∀ i, held i = pages.filled[i]?

theorem pageAssembler_placesPages (pageLen : Nat) :
    PlacesPages (pageAssembler pageLen) pageLen Pages.Holds := by
  constructor
  · intro count pages hnew
    simp only [pageAssembler] at hnew
    split at hnew
    · cases hnew
      exact ⟨rfl, fun i => rfl⟩
    · cases hnew
  · rintro pages pages' count held offset page ⟨hcount, hheld⟩ haccept
    obtain ⟨⟨hoffset, haligned, -, hlength⟩, rfl⟩ := pageAssembler_accept haccept
    refine ⟨haligned, hcount ▸ hlength, fun j _ => ?_, hcount, fun i => ?_⟩
    · rw [hheld, List.getElem?_eq_none]
      omega
    · rw [placePage, hheld, List.getElem?_append]
      subst hoffset
      split
      · rw [if_neg (by omega)]
      · split
        · rfl
        · rw [List.getElem?_eq_none (by omega), List.getElem?_eq_none (by omega)]
  · rintro pages count held v ⟨hcount, hheld⟩ hinto
    simp only [pageAssembler] at hinto
    split at hinto
    · rename_i hcomplete
      cases hinto
      exact ⟨hcomplete.trans hcount, fun i hi => by rw [hheld, List.getElem?_eq_getElem hi]⟩
    · cases hinto

/-- The layout of the small stream, which comes in two pages. -/
theorem layout_complete_iff_small : ∃ later,
    .ok smallFirstFrame :: [.ok smallSecondFrame] = (smallFirstFrame :: later).map Except.ok ++
        (assembleRangeStream smallStreamSeams 2 [.ok smallFirstFrame, .ok smallSecondFrame]).2 ∧
      (CompleteArray 2049 (smallFirstFrame :: later) (List.replicate 2049 1) ↔
        smallFirstFrame.pageEntries < 2049 ∨
          smallFirstFrame.pageEntries = 2049 ∧ (smallFirstFrame.pageOffset = 0 ∨ 2049 = 0)) := by
  have hrun : (assembleRangeStream smallStreamSeams 2
      [.ok smallFirstFrame, .ok smallSecondFrame]).1
        = .ok ([1, 2], { RangeMeta.fromFrame smallFirstFrame with
            chunkLens := some (List.replicate 2049 1) }) := by decide +kernel
  have hA : PlacesPages smallStreamSeams.assembler 2048 Pages.Holds :=
    pageAssembler_placesPages 2048
  exact layout_complete_iff hA 2 rfl hrun rfl

/-- A first frame whose page begins at the second entry of an array of one. -/
def shiftedFrame : RangeFrame where
  offset := 0
  bytes := [1]
  complete := true
  totalLength := some 1
  chunkLens := some [1]
  chunkLensOffset := some 1
  chunkCount := some 1
  chunkIndex := some 0
  root := some "aa"
  inclusionProof := some "proof"

/-- A first frame whose page has one entry more than the array. -/
def overlongFrame : RangeFrame :=
  { shiftedFrame with chunkLens := some [1, 0], chunkLensOffset := some 0 }

/-- Both pages are returned as the layout. -/
theorem layout_not_complete :
    (assembleRangeStream smallStreamSeams 1 [.ok shiftedFrame]).1
        = .ok ([1], .fromFrame shiftedFrame) ∧
      (assembleRangeStream smallStreamSeams 1 [.ok overlongFrame]).1
        = .ok ([1], .fromFrame overlongFrame) ∧
      ¬ CompleteArray 1 [shiftedFrame] [1] ∧ ¬ CompleteArray 1 [overlongFrame] [1, 0] := by
  refine ⟨rfl, rfl, fun hcomplete => ?_, fun hcomplete => ?_⟩
  · have hplaced : shiftedFrame.pageOffset = 0 ∨ 1 = 0 :=
      ((completeArray_whole (by simp) rfl).mp hcomplete).2
    exact absurd hplaced (by decide)
  · exact absurd hcomplete.length (by decide)

end DigDownload
