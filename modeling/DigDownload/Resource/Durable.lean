import DigDownload.Lib.Past
import DigDownload.Resource.Checkpoints
import DigDownload.Resource.Endings

/-!
# What was reported survives

The completion of a range is reported after the checkpoint that records it was saved. Wherever
the process of a download ends, other than inside a save, which can cut the checkpoint off, each
range that its owner was told of is in the checkpoint that a later download finds, unless the
checkpoint was dropped in between.
-/

namespace DigDownload

open Prog Past

namespace Effect

/-- The completion of a range is reported. -/
def ReportsRange (i : Nat) : Effect ResourceAsk → Prop
  | .ask (.emit (.rangeCompleted range _ _)) => range = i
  | _ => False

/-- A checkpoint is dropped. -/
def DropsCheckpoint : Effect ResourceAsk → Prop
  | .clear _ true => True
  | _ => False

/-- Nothing is reported and no checkpoint is saved. -/
def IsUntold (e : Effect ResourceAsk) : Prop :=
  (∀ i, ¬ e.ReportsRange i) ∧ ∀ state, e ≠ .save state true

theorem IsUntold.onCheckpoints {e : Effect ResourceAsk} (h : e.IsUntold)
    (hkept : ¬ e.DropsCheckpoint) (checkpoints : String → Option DownloadState) :
    e.onCheckpoints checkpoints = checkpoints := by
  unfold Effect.onCheckpoints
  split
  · exact absurd rfl (h.2 _)
  · exact absurd trivial hkept
  · rfl

end Effect

/-- Each range that was reported, and not dropped since, is in the checkpoint. -/
def Remembered (checkpoints : String → Option DownloadState) (key : String)
    (log : List (Effect ResourceAsk)) : Prop :=
  ∀ i, Since False (Effect.ReportsRange i) Effect.DropsCheckpoint log →
    ∃ state, replayCheckpoints checkpoints log key = some state ∧ i ∈ state.doneRanges

/-- So it is wherever the log ends. -/
def RememberedThroughout (checkpoints : String → Option DownloadState) (key : String)
    (log : List (Effect ResourceAsk)) : Prop :=
  ∀ before, before <+: log → Remembered checkpoints key before

section Log

variable {checkpoints : String → Option DownloadState} {key : String}
  {log seg : List (Effect ResourceAsk)} {e : Effect ResourceAsk}

theorem rememberedThroughout_concat :
    RememberedThroughout checkpoints key (log ++ [e]) ↔
      RememberedThroughout checkpoints key log ∧ Remembered checkpoints key (log ++ [e]) := by
  constructor
  · exact fun h => ⟨fun before hbefore => h before (hbefore.trans (List.prefix_append _ _)),
      h _ (List.prefix_refl _)⟩
  · rintro ⟨h, hlast⟩ before hbefore
    obtain rfl | hbefore := List.prefix_concat_iff.mp hbefore
    · exact hlast
    · exact h before hbefore

/-- What reports nothing and saves nothing can only drop. -/
theorem Remembered.untold (h : Remembered checkpoints key log) (he : e.IsUntold) :
    Remembered checkpoints key (log ++ [e]) := by
  intro i hsince
  obtain hreports | ⟨hsince, hkept⟩ := since_concat.mp hsince
  · exact absurd hreports (he.1 i)
  · rw [replayCheckpoints_append, replayCheckpoints_singleton, he.onCheckpoints hkept]
    exact h i hsince

theorem RememberedThroughout.untold (h : RememberedThroughout checkpoints key log) :
    (∀ e ∈ seg, e.IsUntold) → RememberedThroughout checkpoints key (log ++ seg) := by
  induction seg using List.reverseRecOn with
  | nil => exact fun _ => by rwa [List.append_nil]
  | append_singleton seg e ih =>
    intro hseg
    have hbefore := ih fun e he => hseg e (List.mem_append_left _ he)
    rw [← List.append_assoc, rememberedThroughout_concat]
    exact ⟨hbefore, (hbefore _ (List.prefix_refl _)).untold (hseg e (by simp))⟩

theorem replayCheckpoints_save {state : DownloadState} (hkey : state.key = key) :
    replayCheckpoints checkpoints (log ++ [.save state true]) key = some state := by
  rw [replayCheckpoints_append, replayCheckpoints_singleton, ← hkey]
  exact Function.update_self ..

/-- A checkpoint that has every reported range is saved. -/
theorem RememberedThroughout.save (h : RememberedThroughout checkpoints key log)
    {state : DownloadState} (hkey : state.key = key)
    (hdone : ∀ i, (∃ e ∈ log, e.ReportsRange i) → i ∈ state.doneRanges) :
    RememberedThroughout checkpoints key (log ++ [.save state true]) := by
  refine rememberedThroughout_concat.mpr ⟨h, fun i hsince => ?_⟩
  refine ⟨state, replayCheckpoints_save hkey, hdone i ?_⟩
  obtain hfalse | ⟨⟨before, middle, rfl, hset, -⟩, -⟩ := since_concat.mp hsince
  · exact hfalse.elim
  · obtain ⟨-, hfalse⟩ | ⟨earlier, e, rfl, hreports⟩ := hset
    · exact hfalse.elim
    · exact ⟨e, by simp, hreports⟩

/-- A range is reported that the checkpoint has. -/
theorem RememberedThroughout.report (h : RememberedThroughout checkpoints key log) (range : Nat)
    (peer : String) (progress : DownloadProgress) {state : DownloadState}
    (hstate : replayCheckpoints checkpoints log key = some state) (hdone : range ∈ state.doneRanges) :
    RememberedThroughout checkpoints key
      (log ++ [.ask (.emit (.rangeCompleted range peer progress))]) := by
  refine rememberedThroughout_concat.mpr ⟨h, fun i hsince => ?_⟩
  rw [replayCheckpoints_append, replayCheckpoints_singleton]
  obtain hreports | ⟨hsince, -⟩ := since_concat.mp hsince
  · cases hreports
    exact ⟨state, hstate, hdone⟩
  · exact h log (List.prefix_refl _) i hsince

end Log

/-! ## The loop -/

section Loop

variable {seams : ResourceSeams} {content : ContentId} {commitment : ResourceCommitment}
  {resume : DownloadState} {checkpoints : String → Option DownloadState} {key : String}
  {w w' : JobWorld}

theorem Effect.ReportsRange.mem_ledger {e : Effect ResourceAsk} {i : Nat} (h : e.ReportsRange i)
    {log : List (Effect ResourceAsk)} (he : e ∈ log) : .completed i ∈ ledger log := by
  refine List.mem_filterMap.mpr ⟨e, he, ?_⟩
  rw [Effect.ReportsRange.eq_def] at h
  split at h
  · rw [← h]
    rfl
  · exact h.elim

/-- A range that was reported is done, and the checkpoint in memory has it. -/
theorem Accounts.mem_doneRanges (ha : Accounts w) (hb : Books seams.config commitment w.own)
    {i : Nat} (h : ∃ e ∈ w.trace, e.ReportsRange i) : i ∈ w.own.resume.doneRanges := by
  obtain ⟨e, he, hreports⟩ := h
  have hcount := List.count_pos_iff.mpr (hreports.mem_ledger he)
  have honce := ha.once i
  split at honce
  · rename_i hdone
    obtain ⟨hlt, -⟩ := List.getElem?_eq_some_iff.mp hdone
    exact (hb.planned.done i (hb.planned.states ▸ hlt)).mp hdone
  · omega

theorem JobStep.remembered (hstep : JobStep seams content w w')
    (hb : Books seams.config commitment w.own) (ha : Accounts w) (hkey : w.own.resume.key = key)
    (h : RememberedThroughout checkpoints key w.trace) :
    RememberedThroughout checkpoints key w'.trace := by
  cases hstep with
  | look he =>
    refine h.untold fun e hmem => ?_
    rw [List.mem_singleton.mp hmem]
    refine ⟨fun i hreports => ?_, fun state heq => ?_⟩
    · rw [Effect.IsLook.eq_def] at he
      split at he <;> first | exact hreports | exact he
    · rw [heq] at he
      exact he
  | learn => exact h
  | refresh => exact h
  | relocated => exact h
  | pause => exact h
  | relocate => exact h.untold (by simp [Effect.IsUntold, Effect.ReportsRange])
  | unsaved => exact h.untold (by simp [Effect.IsUntold, Effect.ReportsRange])
  | issue => exact h.untold (by simp [Effect.IsUntold, Effect.ReportsRange])
  | fail => exact h.untold (by simp [Effect.IsUntold, Effect.ReportsRange])
  | save => exact h.save hkey fun i hi => ha.mem_doneRanges hb hi
  | @succeed choice fetch fetched commitment' range job hended hverified hjob =>
    have hresume : job.resume = w.own.resume.markDone fetch.range := by
      rw [hjob]
      simp [Job.complete, Job.feed]
    have hdone : ∀ i, i ∈ w.own.resume.doneRanges ∨ i = fetch.range → i ∈ job.resume.doneRanges := by
      intro i hi
      rw [hresume, DownloadState.markDone, Finset.mem_insert]
      exact hi.symm
    have hkey' : job.resume.key = key := by
      rw [hresume]
      exact hkey
    -- the answer and the write, then the checkpoint, then the report
    have hwritten : RememberedThroughout checkpoints key (w.trace ++ [
        .ask (.fetched fetch.range fetch.peer (some (.ok fetched))),
        .writeAt range.offset fetched.bytes true,
        .ask (.record fetch.peer fetched.bytes.length .ok)]) :=
      h.untold (by simp [Effect.IsUntold, Effect.ReportsRange])
    have hsaved := hwritten.save hkey' fun i hi => hdone i (.inl (ha.mem_doneRanges hb (by
      simpa [Effect.ReportsRange, or_and_right, exists_or] using hi)))
    have hreported := hsaved.report fetch.range fetch.peer job.snapshot
      (replayCheckpoints_save hkey') (hdone _ (.inr rfl))
    simpa using hreported

/-- Whatever is done to the checkpoint in memory, it keeps its key. -/
theorem saveInvariant_keyed (hkey : resume.key = key) :
    SaveInvariant seams content resume fun _ state => state.key = key where
  later _ h := h
  erase _ h := h
  start _ := by
    unfold DownloadState.carried DownloadState.kept
    split <;> exact hkey
  done _ _ _ h := h

theorem JobSteps.remembered (hsteps : JobSteps seams content w w') (hkey : resume.key = key)
    (hb : Books seams.config commitment w.own) (ha : Accounts w)
    (hs : Saving (fun _ state => state.key = key) w)
    (h : RememberedThroughout checkpoints key w.trace) :
    RememberedThroughout checkpoints key w'.trace := by
  induction hsteps with
  | refl => exact h
  | tail hsteps hstep ih =>
    have hsaving := JobSteps.saving (saveInvariant_keyed hkey) hsteps hb hs
    exact hstep.remembered (JobSteps.books hsteps hb) (JobSteps.accounts hsteps hb ha)
      hsaving.resume ih

/-- A job that stops reports nothing and saves nothing. -/
theorem JobEnds.remembered {halt : Halt} (hends : JobEnds seams content w halt w')
    (h : RememberedThroughout checkpoints key w.trace) :
    RememberedThroughout checkpoints key w'.trace := by
  cases hends with
  | pending | undownloadable => exact h
  | panicked | cancelled | gaveUp | lost | refused | unwritten | unsaved =>
    exact h.untold (by simp [Effect.IsUntold, Effect.ReportsRange])

end Loop

/-! ## The whole run -/

section Run

variable {seams : ResourceSeams} {target : Target} {sink : Sink} {store : StateStore}
  {commitment : ResourceCommitment}

end Run

end DigDownload
