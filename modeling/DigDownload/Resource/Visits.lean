import DigDownload.Resource.Steps

/-!
# The states of the scheduling loop

`Visits` says through which states the loop goes, and `Stops` how it stops short of its
end. Every run of the loop, whatever turns it is given, goes through these states, and
they are reached by the steps of a job.
-/

namespace DigDownload

open Prog Relation

/-! ## What filling leaves alone -/

/-- `w'` is `w` after ranges were handed out: none of them was done, the rest of the memory
is the same, and nothing persistent was touched. -/
structure Fills (w w' : JobWorld) : Prop where
  own : w'.own = { w.own with
    rangeState := w'.own.rangeState
    inflightPerSource := w'.own.inflightPerSource
    inflight := w'.own.inflight }
  done : ∀ i : Nat, w'.own.rangeState[i]? = some .done ↔ w.own.rangeState[i]? = some .done
  length : w'.own.rangeState.length = w.own.rangeState.length
  sink : w'.sink = w.sink
  store : w'.store = w.store

theorem Fills.refl (w : JobWorld) : Fills w w := ⟨rfl, fun _ => Iff.rfl, rfl, rfl, rfl⟩

theorem Fills.trans {w w' w'' : JobWorld} (h : Fills w w') (h' : Fills w' w'') : Fills w w'' :=
  ⟨by rw [h'.own, h.own], fun i => (h'.done i).trans (h.done i), h'.length.trans h.length,
    h'.sink.trans h.sink, h'.store.trans h.store⟩

namespace Job

/-- The pending range that is handed out next. -/
theorem nextPending_eq_some {job : Job} {range : Nat} (h : job.nextPending = some range) :
    job.rangeState[range]? = some .pending := by
  rw [nextPending, List.findIdx?_eq_some_iff_getElem] at h
  obtain ⟨hlt, hpending, -⟩ := h
  rw [List.getElem?_eq_getElem hlt]
  simpa using hpending

/-- A range that is not done gets another state that is not done either. -/
theorem done_set_iff {states : List RangeState} {i : Nat} {state : RangeState}
    (hold : states[i]? ≠ some .done) (hnew : state ≠ .done) (j : Nat) :
    (states.set i state)[j]? = some .done ↔ states[j]? = some .done := by
  by_cases hij : i = j
  · subst hij
    rw [List.getElem?_set_self']
    cases hs : states[i]? with
    | none => simp
    | some old =>
      rw [hs] at hold
      simp only [Option.map_eq_map, Option.map_some, Option.some.injEq] at hold ⊢
      exact ⟨fun h => absurd h hnew, fun h => absurd h (fun h' => hold (by rw [h']))⟩
  · rw [List.getElem?_set_ne hij]

end Job

section Fills

variable {seams : ResourceSeams}

/-- Filling hands out ranges and never stops the job. -/
theorem wp_fillFrom (plan : SelectPlan) (fuel : Nat) :
    ∀ w, wp (fillFrom seams plan fuel) (fun _ w' => Fills w w') (fun _ _ => False) w := by
  induction fuel with
  | zero => exact fun w => .refl w
  | succ fuel ih =>
    intro w
    rw [fillFrom, wp_bind, wp_getJob]
    split
    · exact .refl w
    split
    · exact .refl w
    rename_i range hpending
    split
    · exact .refl w
    rename_i peer _
    rw [wp_bind, wp_modifyJob, wp_bind, wp_noteJob]
    refine (ih _).mono (fun _ w' h => Fills.trans ?_ h) (fun _ _ h => h)
    have hstate := Job.nextPending_eq_some hpending
    exact ⟨rfl, Job.done_set_iff (by simp [hstate]) (by simp), List.length_set .., rfl, rfl⟩

theorem wp_fillUnlessPaused (seams : ResourceSeams) (key : String) (w : JobWorld) :
    wp (fillUnlessPaused seams key) (fun _ w' => Fills w w') (fun _ _ => False) w := by
  rw [fillUnlessPaused, wp_bind, wp_getJob]
  split
  · exact .refl w
  · rw [fill, wp_bind, wp_readClock, wp_bind, wp_getJob, wp_bind, wp_askJob]
    exact (wp_fillFrom _ _ _).mono
      (fun _ w' h => ⟨h.own, h.done, h.length, h.sink, h.store⟩) (fun _ _ h => h)

theorem fillUnlessPaused_paused {key : String} {w : JobWorld} (hpaused : w.own.paused = true) :
    fillUnlessPaused seams key w = (.ok (), w) := by
  show (if w.own.paused then _ else _ : JobM Unit) w = _
  rw [if_pos hpaused]
  rfl

/-- The head of the loop: what it fills, and what it does then. -/
theorem wp_loopHead {content : ContentId} {key : String} {w : JobWorld}
    {Q : Head → JobWorld → Prop} {E : Halt → JobWorld → Prop}
    (h : ∀ w₁, fillUnlessPaused seams key w = (.ok (), w₁) → Fills w w₁ →
      wp (if w₁.own.allDone ∧ w₁.own.inflight = [] then
          pure .finished
        else if w₁.own.budget seams.config < w₁.own.totalFailures then
          failWith s!"provider set exhausted ({w₁.own.pendingCount} range(s) unmet)"
            (.noProviders w₁.own.pendingCount)
        else if w₁.own.paused = false ∧ w₁.own.inflight = [] ∧ w₁.own.allDone = false then
          stalled seams content
        else
          pure (.waiting none) : JobM Head) Q E w₁) :
    wp (loopHead seams content key) Q E w := by
  rw [loopHead, wp_bind]
  have hfill := wp_fillUnlessPaused seams key w
  cases hr : fillUnlessPaused seams key w with
  | mk r w₁ =>
    cases r with
    | error halt => exact ((wp_of_run_error hr).mp hfill).elim
    | ok u =>
      rw [wp_of_run_ok hr, wp_bind, wp_getJob]
      exact h w₁ hr ((wp_of_run_ok hr).mp hfill)

/-- A stalled loop waits, or ends. -/
theorem wp_waitOut (seams : ResourceSeams) (w : JobWorld) :
    wp (waitOut seams) (fun head _ => ∃ wakeup, head = .waiting wakeup) (fun _ _ => True) w := by
  rw [waitOut, wp_bind, wp_readClock, wp_bind, wp_getJob]
  split
  · exact ⟨_, rfl⟩
  · trivial

/-- The loop starts over only after a relocate, of which there is one between two
successes. -/
theorem wp_loopHead_again (seams : ResourceSeams) (content : ContentId) (key : String)
    (w : JobWorld) :
    wp (loopHead seams content key)
      (fun head w' => head = .again →
        w.own.relocatedSinceProgress = false ∧ w'.own.relocatedSinceProgress = true)
      (fun _ _ => True) w := by
  refine wp_loopHead fun w₁ _ hfills => ?_
  split
  · simp
  split
  · simp
  split
  · rw [stalled, wp_bind, wp_getJob]
    split
    · rename_i hrelocate
      have hsince : w.own.relocatedSinceProgress = false := by
        rw [← hrelocate.1, hfills.own]
      rw [wp_bind]
      refine wp_of_forall (fun added w₂ => ?_) (fun _ _ => trivial)
      rw [wp_bind, wp_modifyJob]
      split
      · exact fun _ => ⟨hsince, rfl⟩
      · refine (wp_waitOut seams _).mono ?_ (fun _ _ h => h)
        rintro _ w₃ ⟨wakeup, rfl⟩ hagain
        cases hagain
    · refine (wp_waitOut seams _).mono ?_ (fun _ _ h => h)
      rintro _ w₃ ⟨wakeup, rfl⟩ hagain
      cases hagain
  · simp

end Fills

/-! ## The states of the loop -/

/-- A point of the scheduling loop: at the head of an iteration, waiting for a turn, or
past the loop. -/
inductive LoopPoint where
  | head
  | waiting (wakeup : Option Nat)
  | over
  deriving DecidableEq

/-- One move of the scheduling loop. -/
inductive LoopStep (seams : ResourceSeams) (content : ContentId) (key : String) :
    LoopPoint × JobWorld → LoopPoint × JobWorld → Prop where
  | again {w w' : JobWorld} (hrun : loopHead seams content key w = (.ok .again, w')) :
      LoopStep seams content key (.head, w) (.head, w')
  | wait {w w' : JobWorld} {wakeup : Option Nat}
      (hrun : loopHead seams content key w = (.ok (.waiting wakeup), w')) :
      LoopStep seams content key (.head, w) (.waiting wakeup, w')
  | finish {w w' : JobWorld} (hrun : loopHead seams content key w = (.ok .finished, w')) :
      LoopStep seams content key (.head, w) (.over, w')
  | turn {w w' : JobWorld} {wakeup : Option Nat} {turn : Turn}
      (hrun : takeTurn seams content wakeup turn w = (.ok true, w')) :
      LoopStep seams content key (.waiting wakeup, w) (.head, w')

/-- The states that the loop goes through after a given one. -/
abbrev LoopSteps (seams : ResourceSeams) (content : ContentId) (key : String) :
    LoopPoint × JobWorld → LoopPoint × JobWorld → Prop := ReflTransGen (LoopStep seams content key)

/-- The states that the loop goes through, from the one it is entered in, and the point at
which it is in each of them. -/
abbrev Visits (seams : ResourceSeams) (content : ContentId) (key : String) (w₀ : JobWorld)
    (point : LoopPoint) (w : JobWorld) : Prop :=
  LoopSteps seams content key (.head, w₀) (point, w)

/-- How the loop stops short of its end: at the head of an iteration or in a turn. -/
inductive Stops (seams : ResourceSeams) (content : ContentId) (key : String) (w₀ : JobWorld) :
    Halt → JobWorld → Prop where
  | head {w w' : JobWorld} {halt : Halt} (h : Visits seams content key w₀ .head w)
      (hrun : loopHead seams content key w = (.error halt, w')) :
      Stops seams content key w₀ halt w'
  | turn {w w' : JobWorld} {wakeup : Option Nat} {turn : Turn} {halt : Halt}
      (h : Visits seams content key w₀ (.waiting wakeup) w)
      (hrun : takeTurn seams content wakeup turn w = (.error halt, w')) :
      Stops seams content key w₀ halt w'
  | waiting {w : JobWorld} {wakeup : Option Nat}
      (h : Visits seams content key w₀ (.waiting wakeup) w) : Stops seams content key w₀ .pending w

section Runs

variable {seams : ResourceSeams} {content : ContentId} {key : String} {w₀ w w' : JobWorld}

theorem LoopStep.steps {s s' : LoopPoint × JobWorld} (h : LoopStep seams content key s s') :
    JobSteps seams content s.2 s'.2 := by
  cases h with
  | again hrun => exact (walks_loopHead key).ok hrun
  | wait hrun => exact (walks_loopHead key).ok hrun
  | finish hrun => exact (walks_loopHead key).ok hrun
  | turn hrun => exact (walks_takeTurn _ _).ok hrun

/-- The states of the loop are reached by steps of a job. -/
theorem LoopSteps.steps {s s' : LoopPoint × JobWorld} (h : LoopSteps seams content key s s') :
    JobSteps seams content s.2 s'.2 := by
  induction h with
  | refl => exact ReflTransGen.refl
  | tail _ hstep ih => exact ih.trans hstep.steps

theorem Stops.ends {halt : Halt} (h : Stops seams content key w₀ halt w') :
    ∃ w, JobSteps seams content w₀ w ∧ JobEnds seams content w halt w' := by
  cases h with
  | head h hrun =>
    obtain ⟨w₁, hsteps, hends⟩ := (walks_loopHead key).error hrun
    exact ⟨w₁, (LoopSteps.steps h).trans hsteps, hends⟩
  | turn h hrun =>
    obtain ⟨w₁, hsteps, hends⟩ := (walks_takeTurn _ _).error hrun
    exact ⟨w₁, (LoopSteps.steps h).trans hsteps, hends⟩
  | waiting h => exact ⟨w', LoopSteps.steps h, .pending⟩

/-- The settled head of an iteration goes on at a point of the loop. -/
theorem wp_settledHead {Q : Head → JobWorld → Prop} {E : Halt → JobWorld → Prop}
    (h : Visits seams content key w₀ .head w)
    (hfinished : ∀ w', Visits seams content key w₀ .over w' → Q .finished w')
    (hwaiting : ∀ wakeup w', Visits seams content key w₀ (.waiting wakeup) w' →
      Q (.waiting wakeup) w')
    (hstops : ∀ halt w', Stops seams content key w₀ halt w' → E halt w') :
    wp (settledHead seams content key) Q E w := by
  rw [settledHead, wp_bind]
  have hagain := wp_loopHead_again seams content key w
  cases hr : loopHead seams content key w with
  | mk r w₁ =>
    cases r with
    | error halt =>
      rw [wp_of_run_error hr]
      exact hstops halt w₁ (.head h hr)
    | ok head =>
      rw [wp_of_run_ok hr]
      cases head with
      | finished => exact hfinished w₁ (h.tail (.finish hr))
      | waiting wakeup => exact hwaiting wakeup w₁ (h.tail (.wait hr))
      | again =>
        -- the second time round the holders are not located again
        have hsince := ((wp_of_run_ok hr).mp hagain rfl).2
        have hagain' := wp_loopHead_again seams content key w₁
        show wp (loopHead seams content key) Q E w₁
        cases hr' : loopHead seams content key w₁ with
        | mk r' w₂ =>
          cases r' with
          | error halt =>
            rw [wp_of_run_error hr']
            exact hstops halt w₂ (.head (h.tail (.again hr)) hr')
          | ok head' =>
            rw [wp_of_run_ok hr']
            cases head' with
            | finished => exact hfinished w₂ ((h.tail (.again hr)).tail (.finish hr'))
            | waiting wakeup => exact hwaiting wakeup w₂ ((h.tail (.again hr)).tail (.wait hr'))
            | again =>
              have hsince' := ((wp_of_run_ok hr').mp hagain' rfl).1
              rw [hsince] at hsince'
              cases hsince'

/-- A turn that cannot happen is none. -/
theorem wp_takeTurn_false (wakeup : Option Nat) (turn : Turn) (w : JobWorld) :
    wp (takeTurn seams content wakeup turn) (fun happened w' => happened = false → w' = w)
      (fun _ _ => True) w := by
  have hdone : ∀ (m : JobM Unit) (w₁ : JobWorld),
      wp (do m; pure true) (fun happened w' => happened = false → w' = w) (fun _ _ => True) w₁ := by
    intro m w₁
    rw [wp_bind]
    exact wp_of_forall (fun _ _ => by simp) (fun _ _ => trivial)
  cases turn with
  | control message => exact hdone _ _
  | wake => exact fun _ => rfl
  | refresh =>
    rw [takeTurn, wp_bind, wp_read]
    split
    · exact hdone _ _
    · exact fun _ => rfl
  | completed choice =>
    rw [takeTurn, wp_bind, wp_read]
    split
    · exact fun _ => rfl
    split
    · exact fun _ => rfl
    · rw [wp_bind, wp_modifyJob, wp_bind, wp_noteJob]
      exact hdone _ _

theorem wp_scheduleFrom (turns : List Turn) :
    ∀ (wakeup : Option Nat) (w : JobWorld), Visits seams content key w₀ (.waiting wakeup) w →
      wp (scheduleFrom seams content key turns wakeup)
        (fun _ w' => Visits seams content key w₀ .over w')
        (fun halt w' => Stops seams content key w₀ halt w') w := by
  induction turns with
  | nil => exact fun wakeup w h => .waiting h
  | cons turn turns ih =>
    intro wakeup w h
    rw [scheduleFrom, wp_bind]
    cases hr : takeTurn seams content wakeup turn w with
    | mk r w₁ =>
      cases r with
      | error halt =>
        rw [wp_of_run_error hr]
        exact .turn h hr
      | ok happened =>
        rw [wp_of_run_ok hr]
        cases happened with
        | false =>
          obtain rfl := (wp_of_run_ok hr).mp (wp_takeTurn_false wakeup turn w) rfl
          exact ih wakeup w₁ h
        | true =>
          simp only [if_true]
          rw [wp_bind]
          refine wp_settledHead (h.tail (.turn hr)) (fun w' hw' => hw') (fun wakeup' w' hw' => ?_)
            (fun halt w' hw' => hw')
          exact ih wakeup' w' hw'

/-- A run of the loop goes through its states. -/
theorem wp_scheduleLoop (turns : List Turn) :
    wp (scheduleLoop seams content key turns)
      (fun _ w' => Visits seams content key w₀ .over w')
      (fun halt w' => Stops seams content key w₀ halt w') w₀ := by
  rw [scheduleLoop, wp_bind]
  refine wp_settledHead ReflTransGen.refl (fun w' hw' => hw') (fun wakeup w' hw' => ?_)
    (fun halt w' hw' => hw')
  exact wp_scheduleFrom turns wakeup w' hw'

/-! ## Every state is one of a run -/

/-- What the loop does with the turns it has left, from a settled head. -/
def afterHead (seams : ResourceSeams) (content : ContentId) (key : String) (turns : List Turn) :
    Head → JobM Unit
  | .finished => pure ()
  | .waiting wakeup => scheduleFrom seams content key turns wakeup
  | .again => Prog.fail .pending

/-- The run under `turns` comes to a state: whatever turns are given to it in addition, it
goes on from there. The head that is started over is not settled a second time. -/
def ComesTo (seams : ResourceSeams) (content : ContentId) (key : String) (w₀ : JobWorld)
    (turns : List Turn) : LoopPoint × JobWorld → Prop
  | (.head, w) =>
      (∀ more, scheduleLoop seams content key (turns ++ more) w₀
        = (settledHead seams content key >>= afterHead seams content key more) w) ∨
      w.own.relocatedSinceProgress = true ∧
        ∀ more, scheduleLoop seams content key (turns ++ more) w₀
          = (loopHead seams content key >>= afterHead seams content key more) w
  | (.waiting wakeup, w) => ∀ more, scheduleLoop seams content key (turns ++ more) w₀
      = scheduleFrom seams content key more wakeup w
  | (.over, w) => ∀ more, scheduleLoop seams content key (turns ++ more) w₀ = (.ok (), w)

theorem settledHead_of_head {head : Head} (hhead : head ≠ .again)
    (hrun : loopHead seams content key w = (.ok head, w')) :
    settledHead seams content key w = (.ok head, w') := by
  rw [settledHead, bind_of_ok hrun]
  cases head with
  | again => exact absurd rfl hhead
  | finished => rfl
  | waiting wakeup => rfl

/-- A head that does not start over is followed by what comes after it. -/
theorem ComesTo.head {turns : List Turn} {head : Head}
    (h : ComesTo seams content key w₀ turns (.head, w)) (hhead : head ≠ .again)
    (hrun : loopHead seams content key w = (.ok head, w')) (more : List Turn) :
    scheduleLoop seams content key (turns ++ more) w₀
      = afterHead seams content key more head w' := by
  cases h with
  | inl hsettled => rw [hsettled more, bind_of_ok (settledHead_of_head hhead hrun)]
  | inr hhalf => rw [hhalf.2 more, bind_of_ok hrun]

/-- Every state of the loop is a state of a run. -/
theorem LoopSteps.comesTo {s : LoopPoint × JobWorld}
    (h : LoopSteps seams content key (.head, w₀) s) :
    ∃ turns, ComesTo seams content key w₀ turns s := by
  induction h with
  | refl => exact ⟨[], Or.inl fun more => rfl⟩
  | tail _ hstep ih =>
    obtain ⟨turns, hturns⟩ := ih
    cases hstep with
    | again hrun =>
      have hagain := (wp_of_run_ok hrun).mp (wp_loopHead_again seams content key _) rfl
      cases hturns with
      | inl hsettled =>
        refine ⟨turns, Or.inr ⟨hagain.2, fun more => ?_⟩⟩
        rw [hsettled more, settledHead, LawfulMonad.bind_assoc, bind_of_ok hrun]
      | inr hhalf =>
        rw [hhalf.1] at hagain
        cases hagain.1
    | wait hrun => exact ⟨turns, fun more => hturns.head (by simp) hrun more⟩
    | finish hrun => exact ⟨turns, fun more => hturns.head (by simp) hrun more⟩
    | @turn w w' wakeup turn hrun =>
      refine ⟨turns ++ [turn], Or.inl fun more => ?_⟩
      rw [List.append_assoc, List.singleton_append, hturns (turn :: more), scheduleFrom,
        bind_of_ok hrun]
      rfl

/-- A state in which the head stops is one in which a run stops. -/
theorem Visits.stops {halt : Halt} (h : Visits seams content key w₀ .head w)
    (hrun : loopHead seams content key w = (.error halt, w')) :
    ∃ turns, scheduleLoop seams content key turns w₀ = (.error halt, w') := by
  obtain ⟨turns, hturns⟩ := LoopSteps.comesTo h
  refine ⟨turns ++ [], ?_⟩
  cases hturns with
  | inl hsettled => rw [hsettled [], settledHead, LawfulMonad.bind_assoc, bind_of_error hrun]
  | inr hhalf => rw [hhalf.2 [], bind_of_error hrun]

end Runs

end DigDownload
