import DigDownload.Lib.Runs
import DigDownload.Resource.Endings

/-!
# The life of a range

A range is handed to one source at a time: it is issued to a source while it is pending, and
completes or fails at that source; where it failed it is pending again, and where it completed
it stays done. What a run does to a range is a run of this machine.
-/

namespace DigDownload

open Prog Runs

/-! ## The machine -/

/-- What is seen of a range, and of which source. -/
inductive RangeMove where
  | issued (peer : String)
  | completed (peer : String)
  | failed (peer : String)
  deriving DecidableEq

def Effect.move? (i : Nat) : Effect ResourceAsk → Option RangeMove
  | .ask (.issue range peer) => if range = i then some (.issued peer) else none
  | .ask (.emit (.rangeCompleted range peer _)) => if range = i then some (.completed peer) else none
  | .ask (.emit (.rangeFailed range peer _)) => if range = i then some (.failed peer) else none
  | _ => none

/-- What a run does to the `i`-th range. -/
def moves (i : Nat) (trace : List (Effect ResourceAsk)) : List RangeMove :=
  trace.filterMap (Effect.move? i)

def RangeState.move : RangeState → RangeMove → Option RangeState
  | .pending, .issued peer => some (.inFlight peer)
  | .inFlight peer, .completed source => if source = peer then some .done else none
  | .inFlight peer, .failed source => if source = peer then some .pending else none
  | _, _ => none

/-- The state of a range; what is not planned is pending for good. -/
def Job.stateOf (job : Job) (i : Nat) : RangeState := (job.rangeState[i]?).getD .pending

section Moves

variable {i : Nat} {trace seg : List (Effect ResourceAsk)}

theorem moves_append : moves i (trace ++ seg) = moves i trace ++ moves i seg :=
  List.filterMap_append

theorem moves_eq_nil (h : ∀ e ∈ seg, e.tally = none) : moves i seg = [] := by
  refine List.filterMap_eq_nil_iff.mpr fun e he => ?_
  have hnone := h e he
  cases e with
  | ask a =>
    cases a with
    | issue range peer => cases hnone
    | emit event => cases event <;> first | rfl | cases hnone
    | _ => rfl
  | _ => rfl

end Moves

theorem Effect.IsFinish.tally {e : Effect ResourceAsk} (h : e.IsFinish) : e.tally = none := by
  rw [Effect.IsFinish.eq_def] at h
  split at h <;> first | rfl | exact h.elim

/-! ## The loop -/

section Loop

variable {seams : ResourceSeams} {content : ContentId} {commitment : ResourceCommitment}
  {w w' : JobWorld} {i : Nat}

/-- The run of `w'` is the one of `w` and goes on as the machine does. -/
def MovesOn (w w' : JobWorld) : Prop :=
  ∀ i, ∃ seg, w'.trace = w.trace ++ seg ∧
    run RangeState.move (w.own.stateOf i) (moves i seg) = some (w'.own.stateOf i)

theorem movesOn_of_still {seg : List (Effect ResourceAsk)} (htrace : w'.trace = w.trace ++ seg)
    (hnone : ∀ e ∈ seg, e.tally = none) (hstates : w'.own.rangeState = w.own.rangeState) :
    MovesOn w w' := by
  refine fun i => ⟨seg, htrace, ?_⟩
  rw [moves_eq_nil hnone, Job.stateOf, Job.stateOf, hstates]
  rfl

theorem movesOn_of_moved {seg : List (Effect ResourceAsk)} {range : Nat} {old new : RangeState}
    {move : RangeMove} (htrace : w'.trace = w.trace ++ seg)
    (hold : w.own.rangeState[range]? = some old)
    (hstates : w'.own.rangeState = w.own.rangeState.set range new)
    (hmoves : ∀ i, moves i seg = if range = i then [move] else []) (hmove : old.move move = some new) :
    MovesOn w w' := by
  refine fun i => ⟨seg, htrace, ?_⟩
  obtain ⟨hlt, -⟩ := List.getElem?_eq_some_iff.mp hold
  rw [hmoves, Job.stateOf, Job.stateOf, hstates]
  split
  · rename_i hsame
    rw [← hsame, List.getElem?_set_self hlt, hold]
    exact run_cons_eq_some.mpr ⟨new, hmove, rfl⟩
  · rename_i hother
    rw [List.getElem?_set_ne hother]
    rfl

/-- A step moves the one range it is about as the machine does, and no other. -/
theorem JobStep.movesOn (hstep : JobStep seams content w w')
    (hb : Books seams.config commitment w.own) : MovesOn w w' := by
  cases hstep with
  | look he =>
    refine movesOn_of_still rfl (fun e hmem => ?_) rfl
    rw [List.mem_singleton.mp hmem]
    exact he.tally
  | learn | refresh | relocated | pause =>
    exact movesOn_of_still (List.append_nil _).symm (fun e hmem => by cases hmem) rfl
  | relocate => exact fun i => ⟨_, rfl, rfl⟩
  | save | unsaved =>
    refine movesOn_of_still rfl (fun e hmem => ?_) rfl
    rw [List.mem_singleton.mp hmem]
    rfl
  | @issue range peer _ _ hpending _ =>
    refine movesOn_of_moved rfl (Job.nextPending_eq_some hpending) rfl (fun i => ?_)
      (show RangeState.pending.move (.issued peer) = _ from rfl)
    by_cases hsame : range = i <;> simp [moves, Effect.move?, hsame]
  | @succeed choice fetch fetched commitment' range job hended _ hjob =>
    subst hjob
    refine movesOn_of_moved rfl (hb.inFlight hended.outstanding)
      (by simp [Job.complete, Job.feed]) (fun i => ?_)
      (show (RangeState.inFlight fetch.peer).move (.completed fetch.peer) = _ from if_pos rfl)
    by_cases hsame : fetch.range = i <;>
      simp [moves, List.filterMap_cons, Effect.move?, hsame]
  | @fail choice fetch answer commitment' range e hended _ _ =>
    refine movesOn_of_moved rfl (hb.inFlight hended.outstanding) (by simp [Job.requeue])
      (fun i => ?_)
      (show (RangeState.inFlight fetch.peer).move (.failed fetch.peer) = _ from if_pos rfl)
    by_cases hsame : fetch.range = i <;>
      simp [moves, List.filterMap_cons, Effect.move?, hsame]

/-- What the steps of a job do to a range is a run of the machine. -/
theorem JobSteps.moves (hsteps : JobSteps seams content w w')
    (hb : Books seams.config commitment w.own) {first : RangeState}
    (hrun : run RangeState.move first (DigDownload.moves i w.trace) = some (w.own.stateOf i)) :
    run RangeState.move first (DigDownload.moves i w'.trace) = some (w'.own.stateOf i) := by
  induction hsteps with
  | refl => exact hrun
  | tail hsteps hstep ih =>
    obtain ⟨seg, htrace, hmoves⟩ := hstep.movesOn (JobSteps.books hsteps hb) i
    rw [htrace, moves_append]
    exact run_append_eq_some.mpr ⟨_, ih, hmoves⟩

/-- The end of a job moves no range. -/
theorem JobEnds.moves {halt : Halt} (hends : JobEnds seams content w halt w') (i : Nat) :
    DigDownload.moves i w'.trace = DigDownload.moves i w.trace := by
  have hnone : ∀ {seg : List (Effect ResourceAsk)}, (∀ e ∈ seg, e.tally = none) →
      DigDownload.moves i (w.trace ++ seg) = DigDownload.moves i w.trace := fun h => by
    rw [moves_append, moves_eq_nil h, List.append_nil]
  cases hends with
  | pending | undownloadable => rfl
  | panicked | cancelled | gaveUp | lost | refused | unwritten | unsaved =>
    exact hnone (by simp [Effect.tally])

end Loop

/-! ## The whole run -/

/-- The state in which the loop finds a range: done where an earlier download left it so, and
pending otherwise. -/
def firstState (seams : ResourceSeams) (target : Target) (sink : Sink) (store : StateStore)
    (i : Nat) : RangeState :=
  (loopStart seams target sink store).own.stateOf i

/-- Whatever the holders, the selector and the owner do, what a download does to each range is
what the machine allows: a range is with one source at a time, and completes or fails at the
source that it was issued to. In a download that succeeds every range ends up done. -/
theorem ranges_live (seams : ResourceSeams) (target : Target) (turns : List Turn) (sink : Sink)
    (store : StateStore) (i : Nat) :
    ∃ last, run RangeState.move (firstState seams target sink store i)
        (moves i (downloadResource seams target turns sink store).2.trace) = some last ∧
      ∀ n, (downloadResource seams target turns sink store).1 = .ok n →
        i < (loopStart seams target sink store).own.ranges.length → last = .done := by
  have hplain : ∀ {trace seg : List (Effect ResourceAsk)}, (∀ e ∈ seg, e.tally = none) →
      moves i (trace ++ seg) = moves i trace := fun h => by
    rw [moves_append, moves_eq_nil h, List.append_nil]
  have hloop : ∀ commitment w,
      (entering seams target (JobWorld.start seams target sink store)).1 = .ok commitment →
      JobSteps seams target.content (loopStart seams target sink store) w →
      run RangeState.move (firstState seams target sink store i) (moves i w.trace)
        = some (w.own.stateOf i) := by
    intro commitment w henter hsteps
    obtain ⟨hbooks, -, -, seg, hseg, hsetup⟩ := loopStart_spec henter
    refine hsteps.moves hbooks ?_
    rw [hseg, hplain fun e he => (hsetup e he).tally]
    rfl
  refine downloadResource_cases
    (Q := fun run' => ∃ last, run RangeState.move (firstState seams target sink store i)
      (moves i run'.2.trace) = some last ∧ ∀ n, run'.1 = .ok n →
        i < (loopStart seams target sink store).own.ranges.length → last = .done)
    (fun halt w hsetup => ?_) (fun commitment halt w w' henter hsteps hends _ => ?_)
    (fun commitment w henter hsteps hall _ => ?_)
  · obtain ⟨seg, hseg, hsetup⟩ := hsetup
    refine ⟨firstState seams target sink store i, ?_, fun n hn => ?_⟩
    · rw [hseg, hplain fun e he => (hsetup e he).tally]
      rfl
    · cases hn
  · refine ⟨w.own.stateOf i, ?_, fun n hn => ?_⟩
    · rw [hends.moves]
      exact hloop commitment w henter hsteps
    · cases hn
  · obtain ⟨seg, hseg, hfinishes⟩ := finish_appends seams (downloadKey seams target) commitment w
    refine ⟨w.own.stateOf i, ?_, fun _ _ hplanned => ?_⟩
    · rw [hseg, hplain fun e he => (hfinishes e he).tally]
      exact hloop commitment w henter hsteps
    · have hfirst := (loopStart_spec henter).1
      have hlast := JobSteps.books hsteps hfirst
      have hlt : i < w.own.rangeState.length := by
        rw [hlast.planned.states, hlast.planned.ranges, ← hfirst.planned.ranges]
        exact hplanned
      have hdone := Job.isDone_of_allDone hall hlt
      rw [Job.stateOf, show w.own.rangeState[i]? = some .done from hdone]
      rfl

end DigDownload
