import Mathlib.Data.Set.Lattice
import DigDownload.Resource.Checkpoints

/-!
# What a checkpoint stands for

The done set of a checkpoint holds indices of ranges, and which bytes these are depends on
the window of the run that loads it. In a history in which no run loads a checkpoint under
a window that makes its indices stand for more than they did, every byte that a run takes
to be done was written, verified, by a run before it.
-/

namespace DigDownload

open Prog Past Relation

/-- The bytes of a range. -/
def Range.Covers (range : Range) (pos : Nat) : Prop :=
  range.offset ≤ pos ∧ pos < range.offset + range.length

/-- The bytes that a done set stands for in a layout under a window. -/
def DoneCovers (done : Finset Nat) (layout : ChunkLayout) (window pos : Nat) : Prop :=
  ∃ range ∈ planRanges layout window, range.index ∈ done ∧ range.Covers pos

/-- The bytes that were written in a list of effects, of ranges whose bytes were verified. -/
def wrote (seams : ResourceSeams) (log : List (Effect ResourceAsk)) : Set Nat :=
  { pos | ∃ (commitment : ResourceCommitment) (range : Range) (fetched : FetchedRange),
    range ∈ planRanges commitment.layout seams.config.window ∧
      verifyFetched seams commitment range fetched = .ok ∧
      .writeAt range.offset fetched.bytes true ∈ log ∧ range.Covers pos }

namespace Session

/-- The bytes that a session verified and wrote. -/
def wrote (s : Session) (store : StateStore) : Set Nat := DigDownload.wrote s.seams (s.trace store)

/-- The later session lets the done set of a checkpoint stand for no more than it did in the
session that saved it. -/
def SameGround (last : Session) (state : DownloadState) (s : Session) : Prop :=
  ∀ layout : ChunkLayout, layout.chunkLens = state.chunkLens →
    ∀ pos, DoneCovers state.doneRanges layout s.seams.config.window pos →
      DoneCovers state.doneRanges layout last.seams.config.window pos

/-- Under the same window it does. -/
theorem sameGround_of_window {last s : Session} (state : DownloadState)
    (h : s.seams.config.window = last.seams.config.window) : SameGround last state s := by
  intro layout _ pos hpos
  rwa [h] at hpos

end Session

/-- The bytes that the sessions of a history wrote under a key. -/
def writtenUnder (key : String) (past : List (Session × StateStore)) : Set Nat :=
  { pos | ∃ visit ∈ past, visit.1.key = key ∧ pos ∈ visit.1.wrote visit.2 }

/-! ## One session -/

/-- A checkpoint of a key whose done set stands for bytes that were written. -/
structure Grounded (key : String) (window : Nat) (written : Set Nat) (state : DownloadState) :
    Prop where
  keyed : state.key = key
  empty : state.chunkLens = [] → state.doneRanges = ∅
  covered : ∀ layout : ChunkLayout, layout.chunkLens = state.chunkLens →
    ∀ pos, DoneCovers state.doneRanges layout window pos → pos ∈ written

section Grounded

variable {seams : ResourceSeams} {content : ContentId} {key : String} {window : Nat}
  {written written' : Set Nat} {state resume : DownloadState} {commitment : ResourceCommitment}

theorem DoneCovers.mono {done done' : Finset Nat} {layout : ChunkLayout} {pos : Nat}
    (h : DoneCovers done layout window pos) (hsub : done ⊆ done') :
    DoneCovers done' layout window pos := by
  obtain ⟨range, hrange, hdone, hpos⟩ := h
  exact ⟨range, hrange, hsub hdone, hpos⟩

theorem not_doneCovers_empty {layout : ChunkLayout} {pos : Nat} :
    ¬ DoneCovers ∅ layout window pos := by
  rintro ⟨range, -, hdone, -⟩
  exact Finset.notMem_empty _ hdone

theorem wrote_mono {log more : List (Effect ResourceAsk)} :
    wrote seams log ⊆ wrote seams (log ++ more) := by
  intro pos hpos
  obtain ⟨commitment, range, fetched, hrange, hverified, hmem, hcovers⟩ := hpos
  exact ⟨commitment, range, fetched, hrange, hverified, List.mem_append_left _ hmem, hcovers⟩

theorem Grounded.mono (h : Grounded key window written state) (hsub : written ⊆ written') :
    Grounded key window written' state :=
  ⟨h.keyed, h.empty, fun layout hl pos hpos => hsub (h.covered layout hl pos hpos)⟩

theorem Grounded.erase (h : Grounded key window written state) (i : Nat) :
    Grounded key window written { state with doneRanges := state.doneRanges.erase i } :=
  ⟨h.keyed, fun hl => by simp [h.empty hl], fun layout hl pos hpos =>
    h.covered layout hl pos (hpos.mono (Finset.erase_subset i _))⟩

/-- A checkpoint that is made that of a commitment stands for what it stood for, or for
nothing. -/
theorem Grounded.carried (h : Grounded key window written resume)
    (commitment : ResourceCommitment) :
    Grounded key window written (resume.carried commitment) := by
  unfold DownloadState.carried DownloadState.kept
  by_cases hsame : resume.chunkLens = [] ∨ resume.chunkLens = commitment.layout.chunkLens
  · rw [if_pos hsame]
    cases hsame with
    | inl hnone =>
      refine ⟨h.keyed, fun _ => h.empty hnone, fun layout _ pos hpos => ?_⟩
      simp only [h.empty hnone] at hpos
      exact absurd hpos not_doneCovers_empty
    | inr hlens =>
      refine ⟨h.keyed, fun hnone => h.empty (hlens.trans hnone), fun layout hl pos hpos => ?_⟩
      exact h.covered layout (hl.trans hlens.symm) pos hpos
  · rw [if_neg hsame]
    exact ⟨h.keyed, fun _ => rfl, fun layout _ pos hpos => absurd hpos not_doneCovers_empty⟩

/-- A range that is verified, written and marked done stands for bytes that were written. -/
theorem Grounded.done {w : JobWorld} {choice : Nat} {fetch : Fetch} {fetched : FetchedRange}
    {range : Range} {before : List (Effect ResourceAsk)}
    (h : Grounded key seams.config.window (written ∪ wrote seams before) w.own.resume)
    (hbooks : Books seams.config commitment w.own)
    (hended : Ended seams content w choice fetch (.ok fetched) commitment range)
    (hverified : verifyFetched seams commitment range fetched = .ok) :
    Grounded key seams.config.window
      (written ∪ wrote seams (before ++ [.writeAt range.offset fetched.bytes true]))
      (w.own.resume.markDone fetch.range) := by
  have hplanned := hended.planned
  have hmem : range ∈ planRanges commitment.layout seams.config.window := by
    rw [← hbooks.planned.ranges]
    exact List.mem_of_getElem? hplanned
  refine ⟨h.keyed, fun hnone => ?_, fun layout hl pos hpos => ?_⟩
  · have hnone' : commitment.layout.chunkLens = [] := hbooks.planned.chunkLens ▸ hnone
    rw [planRanges_eq_nil.mpr hnone'] at hmem
    cases hmem
  · have hlayout : layout = commitment.layout :=
      ChunkLayout.eq_of_chunkLens (hl.trans hbooks.planned.chunkLens)
    subst hlayout
    obtain ⟨range', hrange', hdone, hcovers⟩ := hpos
    rw [DownloadState.markDone_doneRanges, Finset.mem_insert] at hdone
    cases hdone with
    | inl hindex =>
      have hsame : range' = range := by
        rw [← hbooks.planned.ranges] at hrange'
        have hget := hbooks.planned.getElem?_index hrange'
        rw [hindex, hplanned, Option.some.injEq] at hget
        exact hget.symm
      subst hsame
      refine Or.inr ⟨commitment, range', fetched, hmem, hverified, ?_, hcovers⟩
      exact List.mem_append_right _ (List.mem_singleton_self _)
    | inr hold =>
      have hpos' := h.covered commitment.layout hl pos ⟨range', hrange', hold, hcovers⟩
      exact Set.union_subset_union_right _ wrote_mono hpos'

/-- A session whose checkpoint stands for bytes that were written saves only such ones. -/
theorem saveInvariant_grounded (h : Grounded key seams.config.window written resume) :
    SaveInvariant seams content resume fun before =>
      Grounded key seams.config.window (written ∪ wrote seams before) where
  later _ h := h.mono (Set.union_subset_union_right _ wrote_mono)
  erase i h := h.erase i
  start _ := (h.carried _).mono Set.subset_union_left
  done hbooks hended hverified h := h.done hbooks hended hverified

end Grounded

/-! ## Histories -/

section Histories

variable {store : StateStore} {saver : String → Option Session}
  {past : List (Session × StateStore)}

/-- What is stored in a history: every checkpoint was saved, and stands for bytes that were
written under its key. -/
def Stored (store : StateStore) (saver : String → Option Session)
    (past : List (Session × StateStore)) : Prop :=
  ∀ key state, store.checkpoints key = some state →
    ∃ last, saver key = some last ∧
      Grounded key last.seams.config.window (writtenUnder key past) state

/-- A session takes up a checkpoint that stands for bytes that were written. -/
theorem Stored.resumed (h : Stored store saver past) (s : Session)
    (hfits : ∀ state last, store.checkpoints s.key = some state → saver s.key = some last →
      Session.SameGround last state s) :
    Grounded s.key s.seams.config.window (writtenUnder s.key past) (store.resumed s.key) := by
  unfold StateStore.resumed
  cases hstate : store.checkpoints s.key with
  | none =>
    exact ⟨rfl, fun _ => rfl, fun layout _ pos hpos => absurd hpos not_doneCovers_empty⟩
  | some state =>
    obtain ⟨last, hlast, hgrounded⟩ := h s.key state hstate
    refine ⟨hgrounded.keyed, hgrounded.empty, fun layout hl pos hpos => ?_⟩
    exact hgrounded.covered layout hl pos (hfits state last hstate hlast layout hl pos hpos)

theorem writtenUnder_mono (key : String) (visit : Session × StateStore) :
    writtenUnder key past ⊆ writtenUnder key (past ++ [visit]) := by
  intro pos hpos
  obtain ⟨visit', hvisit', hwrote⟩ := hpos
  exact ⟨visit', List.mem_append_left _ hvisit', hwrote⟩

theorem Stored.later (h : Stored store saver past) (s : Session)
    (hfits : ∀ state last, store.checkpoints s.key = some state → saver s.key = some last →
      Session.SameGround last state s) :
    Stored (s.leaves store)
      (if s.saved store then Function.update saver s.key (some s) else saver)
      (past ++ [(s, store)]) := by
  intro key state hstate
  have hkeyed : ∀ {before : List (Effect ResourceAsk)} {state : DownloadState},
      Grounded s.key s.seams.config.window
        (writtenUnder s.key past ∪ wrote s.seams before) state → state.key = s.key :=
    fun h => h.keyed
  cases Session.checkpoint_of_leaves (saveInvariant_grounded (h.resumed s hfits)) hkeyed hstate with
  | inl hold =>
    obtain ⟨last, hlast, hgrounded⟩ := h key state hold.1
    refine ⟨last, ?_, hgrounded.mono (writtenUnder_mono key _)⟩
    split
    · rename_i hsaved
      rw [Function.update_of_ne, hlast]
      intro hkey
      rw [hold.2 hkey] at hsaved
      cases hsaved
    · exact hlast
  | inr hnew =>
    obtain ⟨rfl, hsaved, before, hprefix, hgrounded⟩ := hnew
    refine ⟨s, by rw [if_pos hsaved, Function.update_self], hgrounded.mono ?_⟩
    obtain ⟨after, hafter⟩ := hprefix
    refine Set.union_subset (writtenUnder_mono _ _) fun pos hpos => ?_
    refine ⟨(s, store), List.mem_append_right _ (List.mem_singleton_self _), rfl, ?_⟩
    show pos ∈ wrote s.seams (s.trace store)
    rw [← hafter]
    exact wrote_mono hpos

theorem History.stored (h : History Session.SameGround store saver past) :
    Stored store saver past := by
  induction h with
  | start hempty =>
    intro key state hstate
    rw [hempty] at hstate
    cases hstate
  | later _ s hfits ih => exact ih.later s hfits

/-- In a history in which every session lets the done set of the checkpoint it finds stand
for no more than it did, a session takes no byte to be done, before it reads any back, that
was not verified and written under its key before. -/
theorem inherits_only_written (h : History Session.SameGround store saver past) (s : Session)
    (hfits : ∀ state last, store.checkpoints s.key = some state → saver s.key = some last →
      Session.SameGround last state s) {commitment : ResourceCommitment} {w : JobWorld}
    (hplanned : beforeReadBack s.seams s.target
      (JobWorld.start s.seams s.target s.sink store) = (.ok commitment, w)) :
    ∀ range ∈ w.own.doneRanges, ∀ pos, range.Covers pos → pos ∈ writtenUnder s.key past := by
  have hresumed := h.stored.resumed s hfits
  have hsaves : SaveInvariant s.seams s.target.content (store.resumed s.key) _ :=
    saveInvariant_grounded hresumed
  have hrun := wp_beforeReadBack_saving (w := JobWorld.start s.seams s.target s.sink store)
    hsaves rfl rfl
  rw [wp_of_run_ok hplanned] at hrun
  obtain ⟨-, hresume, hstates, hranges⟩ := hrun
  intro range hrange pos hpos
  obtain ⟨hmem, hdone⟩ := Job.mem_doneRanges.mp hrange
  rw [hranges] at hmem
  obtain ⟨i, hi, rfl⟩ := List.mem_iff_getElem.mp hmem
  rw [hstates, List.getElem?_map, planRanges_index, List.getElem?_eq_getElem hi,
    Option.map_some, Option.some.injEq, planRanges_index] at hdone
  have hisDone : i ∈ w.own.resume.doneRanges := by
    by_contra hnot
    simp [DownloadState.isDone, hnot] at hdone
  have hgrounded := hresumed.carried commitment
  rw [← show w.own.resume = (store.resumed s.key).carried commitment from hresume] at hgrounded
  refine hgrounded.covered commitment.layout ?_ pos ⟨_, List.getElem_mem hi, ?_, hpos⟩
  · rw [show w.own.resume = (store.resumed s.key).carried commitment from hresume]
    rfl
  · rwa [planRanges_index hi]

end Histories

/-! ## Three chunks of one byte -/

/-- A session on the small resource in three chunks of one byte each. -/
def chunkwise (window : Nat) (turns : List Turn) : Session where
  seams := { smallResourceSeams with
    fetchRange := fun _ _ req => some (.ok (honestRange smallResource [1, 1, 1] (some "proof") req))
    config := { smallResourceSeams.config with window } }
  target := smallTarget
  turns
  sink := emptySink
  lasts := 64

/-- A session that fetches the first range chunk by chunk, and is cancelled. -/
def firstChunk : Session := chunkwise 1 [.completed 0, .control (some .cancel)]

/-- The commitment to the small resource in three chunks of one byte each. -/
def chunkwiseCommitment : ResourceCommitment where
  layout := {
    chunkLens := [1, 1, 1]
    offsets := [0, 1, 2, 3]
    offsets_eq := by decide
    fits := by decide }
  totalLength := 3
  root := some (hexOf smallRoot)
  inclusionProof := some "proof"
  total := by decide

/-- The checkpoint that it leaves. -/
def chunkCheckpoint : DownloadState where
  key := "small"
  totalLength := 3
  chunkLens := [1, 1, 1]
  root := some (hexOf smallRoot)
  inclusionProof := some "proof"
  doneRanges := {0}

/-- The store after the first chunk was fetched. -/
def chunkStore : StateStore where
  checkpoints key := if key = "small" then some chunkCheckpoint else none
  verdicts _ := []

/-- Who saved the checkpoints of that store. -/
def chunkSaver (key : String) : Option Session := if key = "small" then some firstChunk else none

theorem firstChunk_saved : firstChunk.saved emptyStore = true := by decide +kernel

theorem firstChunk_leaves :
    (firstChunk.leaves emptyStore).checkpoints "small" = some chunkCheckpoint := by decide +kernel

theorem firstChunk_history (fits : Session → DownloadState → Session → Prop) :
    History fits chunkStore chunkSaver [(firstChunk, emptyStore)] := by
  have hhistory : ∀ fits : Session → DownloadState → Session → Prop,
      History fits (firstChunk.leaves emptyStore) chunkSaver [(firstChunk, emptyStore)] := by
    intro fits
    have hlater : History fits (firstChunk.leaves emptyStore) _
        ([] ++ [(firstChunk, emptyStore)]) :=
      .later (.start fun _ => rfl) firstChunk (fun _ _ hstate => by cases hstate)
    rw [if_pos firstChunk_saved] at hlater
    have hsaver : Function.update (fun _ => none) firstChunk.key (some firstChunk) = chunkSaver := by
      funext key
      rw [Function.update_apply]
      rfl
    rwa [hsaver] at hlater
  have hcheckpoints : (firstChunk.leaves emptyStore).checkpoints = chunkStore.checkpoints := by
    funext key
    by_cases hkey : key = "small"
    · rw [hkey, firstChunk_leaves]
      simp [chunkStore]
    · rw [show chunkStore.checkpoints key = none from if_neg hkey,
        Option.eq_none_iff_forall_ne_some]
      intro state hstate
      obtain ⟨last, hlast, -⟩ := (hhistory _).stored key state hstate
      rw [chunkSaver, if_neg hkey] at hlast
      cases hlast
  have hstore : firstChunk.leaves emptyStore = chunkStore := StateStore.eq_of hcheckpoints rfl
  rw [← hstore]
  exact hhistory fits

theorem chunkwise_planned (window : Nat) (ranges : List Range)
    (h : (beforeReadBack (chunkwise window []).seams smallTarget (JobWorld.start
        (chunkwise window []).seams smallTarget emptySink chunkStore)).1 = .ok chunkwiseCommitment ∧
      (beforeReadBack (chunkwise window []).seams smallTarget (JobWorld.start
        (chunkwise window []).seams smallTarget emptySink chunkStore)).2.own.doneRanges = ranges) :
    ∃ w, beforeReadBack (chunkwise window []).seams smallTarget
        (JobWorld.start (chunkwise window []).seams smallTarget emptySink chunkStore)
          = (.ok chunkwiseCommitment, w) ∧ w.own.doneRanges = ranges :=
  ⟨_, Prod.ext h.1 rfl, h.2⟩

/-- The byte that is taken to be done under the same window was written. -/
theorem inherits_only_written_small :
    (∃ w, beforeReadBack (chunkwise 1 []).seams smallTarget
        (JobWorld.start (chunkwise 1 []).seams smallTarget emptySink chunkStore)
          = (.ok chunkwiseCommitment, w) ∧ w.own.doneRanges = [⟨0, 0, 1, 0, 1⟩]) ∧
      0 ∈ writtenUnder "small" [(firstChunk, emptyStore)] := by
  have hrun := chunkwise_planned 1 [⟨0, 0, 1, 0, 1⟩] (by decide +kernel)
  refine ⟨hrun, ?_⟩
  obtain ⟨w, hplanned, hdone⟩ := hrun
  refine inherits_only_written (firstChunk_history _) (chunkwise 1 []) (fun state last _ hlast => ?_)
    hplanned ⟨0, 0, 1, 0, 1⟩ ?_ 0 ⟨Nat.le_refl 0, Nat.one_pos⟩
  · obtain rfl : firstChunk = last := Option.some.inj hlast
    exact Session.sameGround_of_window state rfl
  · rw [hdone]
    exact List.mem_singleton_self _

/-- What a list of effects wrote where. -/
def Effect.written : Effect ResourceAsk → Option (Nat × Bytes)
  | .writeAt offset bytes true => some (offset, bytes)
  | _ => none

/-- Under a window of three bytes the first range is all three chunks, and a later run takes
them to be done although only one of them was ever written. -/
theorem inherits_unwritten :
    ¬ ∀ (store : StateStore) (saver : String → Option Session) (past : List (Session × StateStore))
      (s : Session) (commitment : ResourceCommitment) (w : JobWorld),
      History (fun last _ s => s.target.content = last.target.content) store saver past →
      (∀ state last, store.checkpoints s.key = some state → saver s.key = some last →
        s.target.content = last.target.content) →
      beforeReadBack s.seams s.target (JobWorld.start s.seams s.target s.sink store)
        = (.ok commitment, w) →
      ∀ range ∈ w.own.doneRanges, ∀ pos, range.Covers pos → pos ∈ writtenUnder s.key past := by
  intro h
  obtain ⟨w, hplanned, hdone⟩ := chunkwise_planned 3 [⟨0, 0, 3, 0, 3⟩] (by decide +kernel)
  have hwritten : 2 ∈ writtenUnder "small" [(firstChunk, emptyStore)] := by
    refine h chunkStore chunkSaver _ (chunkwise 3 []) chunkwiseCommitment w (firstChunk_history _)
      (fun state last _ hlast => ?_) hplanned ⟨0, 0, 3, 0, 3⟩ ?_ 2 ⟨by decide, by decide⟩
    · obtain rfl : firstChunk = last := Option.some.inj hlast
      rfl
    · rw [hdone]
      exact List.mem_singleton_self _
  obtain ⟨visit, hvisit, -, commitment, range, fetched, -, hverified, hmem, hcovers⟩ := hwritten
  obtain rfl := List.mem_singleton.mp hvisit
  have hwrites : (firstChunk.trace emptyStore).filterMap Effect.written = [(0, [1])] := by
    decide +kernel
  have hone : (range.offset, fetched.bytes) = (0, [1]) := by
    rw [← List.mem_singleton, ← hwrites]
    exact List.mem_filterMap.mpr ⟨_, hmem, rfl⟩
  have hlength : fetched.bytes.length = range.length := by
    unfold verifyFetched at hverified
    split at hverified
    · cases hverified
    · exact length_of_verifyRange hverified
  obtain ⟨hoffset, hbytes⟩ := Prod.mk.inj hone
  rw [hbytes] at hlength
  have hend := hcovers.2
  rw [hoffset, ← hlength] at hend
  exact absurd hend (by decide)

end DigDownload
