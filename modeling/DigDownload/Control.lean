import DigDownload.Handle

/-!
# The control messages of a handle

`pause`, `resume` and `cancel` put a message into the control channel and look at nothing
else. The job reads the channel one message at a time, and only while its loop waits for a
turn. A message that finds the channel full is dropped, whether the job goes on or not.
-/

namespace DigDownload

open Prog Runs

/-- The message that a turn reads from the control channel. -/
def Turn.message? : Turn → Option Control
  | .control message => message
  | _ => none

/-- The message that an act of the owner sends: `pause`, `resume` and `cancel` differ in it. -/
def HandleAct.call? : HandleAct → Option Control
  | .control message => some message
  | _ => none

namespace Underway

/-- The calls of the owner in a run, in order. -/
def calls (acts : List HandleAct) : List Control := acts.filterMap HandleAct.call?

/-- The messages that were delivered to the job, in order. -/
def delivered (s : Underway) : List Control := s.turns.filterMap Turn.message?

variable (d : Download)

/-- The job has ended: it has returned, and told its last event. -/
def Over (s : Underway) : Prop := s.sent = (d.emits s.turns).length ∧ ¬ d.Waits s.turns

/-- A call that is made before the job has ended finds room in the channel. -/
def RoomForCall (s : Underway) (act : HandleAct) : Prop :=
  act.call?.isSome → ¬ s.Over d → s.control.length < controlCapacity

/-- As long as the job has not ended, every call that was made has been delivered to it or is
pending, in the order of the calls. -/
def NothingDiscarded (acts : List HandleAct) : Prop :=
  ∀ made s, made <+: acts → run (step d) start made = some s → ¬ s.Over d →
    calls made = s.delivered ++ s.control

variable {d} {s s' : Underway} {act : HandleAct} {acts : List HandleAct} {message : Control}

/-! ## What a step does with the messages -/

theorem calls_concat : calls (acts ++ [act]) = calls acts ++ act.call?.toList := by
  rw [calls, calls, List.filterMap_append]
  cases h : act.call? with
  | none => simp [h]
  | some message => simp [h]

/-- A call goes to the end of the channel, or is dropped. -/
theorem step_control (h : s.step d (.control message) = some s') :
    s.control.length < controlCapacity ∧ s' = { s with control := s.control ++ [message] } ∨
      controlCapacity ≤ s.control.length ∧ s' = s := by
  rw [step, Option.ite_none_right_eq_some] at h
  obtain ⟨-, h⟩ := h
  split at h
  · rename_i hroom
    cases h
    exact Or.inl ⟨hroom, rfl⟩
  · rename_i hfull
    cases h
    exact Or.inr ⟨Nat.le_of_not_lt hfull, rfl⟩

/-- A turn that reads a message moves it from the channel to what was delivered. -/
theorem takesTurn_messages {turn : Turn} (h : s.takesTurn turn = some s') :
    s'.delivered ++ s'.control = s.delivered ++ s.control := by
  cases turn with
  | control message =>
    cases message with
    | some message =>
      cases hc : s.control with
      | nil => simp [takesTurn, hc] at h
      | cons first rest =>
        simp only [takesTurn, hc, Option.ite_none_right_eq_some] at h
        obtain ⟨rfl, h⟩ := h
        cases h
        simp [delivered, Turn.message?]
    | none =>
      simp only [takesTurn, Option.ite_none_right_eq_some] at h
      obtain ⟨-, h⟩ := h
      cases h
      simp [delivered, Turn.message?]
  | completed _ | wake | refresh =>
    cases h
    simp [delivered, Turn.message?]

/-- No other step touches the messages. -/
theorem step_messages (h : s.step d act = some s') (hcall : act.call? = none) :
    s'.delivered ++ s'.control = s.delivered ++ s.control := by
  cases act with
  | turn turn => exact takesTurn_messages (step_turn h).2.2
  | send =>
    obtain ⟨event, -, hsent⟩ := step_send h
    cases hsent with
    | inl hgone => rw [hgone.2, delivered, delivered]
    | inr hheld => rw [hheld.2.2, delivered, delivered]
  | nextEvent =>
    obtain ⟨event, rest, -, -, rfl⟩ := step_nextEvent h
    rfl
  | control message => cases hcall
  | join =>
    rw [step, Option.ite_none_right_eq_some] at h
    cases h.2
    rfl
  | drop =>
    rw [step, Option.ite_none_right_eq_some] at h
    cases h.2
    rfl
  | deliver =>
    rw [step, Option.ite_none_right_eq_some] at h
    cases h.2
    rfl

/-- A job that has ended has ended for good. -/
theorem Over.step (hs : s.Over d) (h : s.step d act = some s') : s'.Over d := by
  obtain ⟨hsent, hended⟩ := hs
  cases act with
  | turn turn => exact absurd (step_turn h).2.1 hended
  | send =>
    obtain ⟨event, hevent, -⟩ := step_send h
    have hlt := (List.getElem?_eq_some_iff.mp hevent).1
    exact absurd hsent (Nat.ne_of_lt hlt)
  | nextEvent =>
    obtain ⟨event, rest, -, -, rfl⟩ := step_nextEvent h
    exact ⟨hsent, hended⟩
  | _ =>
    obtain ⟨hturns, hsent', -, -⟩ := step_owner h (by simp) (by simp) (by simp)
    rw [Over, hturns, hsent']
    exact ⟨hsent, hended⟩

/-! ## Runs -/

/-- Where every call finds room, what was called is delivered or pending. -/
theorem calls_of_room (hrun : run (step d) start acts = some s) (hover : ¬ s.Over d)
    (hroom : Along (step d) (RoomForCall d) start acts) : calls acts = s.delivered ++ s.control := by
  induction acts using List.reverseRecOn generalizing s with
  | nil =>
    cases hrun
    rfl
  | append_singleton acts act ih =>
    obtain ⟨t, hpast, hlast⟩ := run_append_eq_some.mp hrun
    obtain ⟨s', hstep, hend⟩ := run_cons_eq_some.mp hlast
    cases hend
    obtain ⟨hroomPast, hroomLast⟩ := along_append.mp hroom
    have hovert : ¬ t.Over d := fun ht => hover (ht.step hstep)
    have hcalls := ih hpast hovert hroomPast
    have hfits := (hroomLast t hpast).1
    rw [calls_concat, hcalls]
    cases hcall : act.call? with
    | none =>
      rw [step_messages hstep hcall]
      simp
    | some message =>
      cases act with
      | control sent =>
        cases hcall
        rcases step_control hstep with ⟨-, rfl⟩ | ⟨hfull, -⟩
        · simp [delivered]
        · exact absurd (hfits rfl hovert) (Nat.not_lt.mpr hfull)
      | turn _ | send | nextEvent | join | drop | deliver => cases hcall

/-- Where nothing is discarded, every call found room. -/
theorem room_of_nothingDiscarded (hrun : run (step d) start acts = some s)
    (h : NothingDiscarded d acts) : Along (step d) (RoomForCall d) start acts := by
  induction acts using List.reverseRecOn generalizing s with
  | nil => trivial
  | append_singleton acts act ih =>
    obtain ⟨t, hpast, hlast⟩ := run_append_eq_some.mp hrun
    obtain ⟨s', hstep, hend⟩ := run_cons_eq_some.mp hlast
    cases hend
    refine along_append.mpr ⟨ih hpast fun made r hmade => h made r ?_, ?_⟩
    · exact hmade.trans (List.prefix_append acts [act])
    intro t' ht'
    rw [hpast, Option.some.injEq] at ht'
    subst ht'
    refine ⟨fun hcall hovert => ?_, fun _ _ => trivial⟩
    cases act with
    | control message =>
      rcases step_control hstep with ⟨hroom, -⟩ | ⟨-, rfl⟩
      · exact hroom
      · -- the call was dropped, so one more was made than was delivered or is pending
        have hbefore := h acts _ (List.prefix_append acts _) hpast hovert
        have hafter := h (acts ++ [.control message]) _ List.prefix_rfl hrun hovert
        rw [calls_concat, hbefore] at hafter
        simp [HandleAct.call?] at hafter
    | turn _ | send | nextEvent | join | drop | deliver => cases hcall

/-- In a run of a download and its owner no call is discarded while the job goes on, if and only
if each call made by then finds fewer messages pending than the channel takes. -/
theorem nothingDiscarded_iff (d : Download) (acts : List HandleAct) (s : Underway)
    (hrun : run (step d) start acts = some s) :
    NothingDiscarded d acts ↔ Along (step d) (RoomForCall d) start acts := by
  constructor
  · exact room_of_nothingDiscarded hrun
  · intro hroom made t hmade ht hover
    obtain ⟨rest, rfl⟩ := hmade
    exact calls_of_room ht hover (along_append.mp hroom).1

/-- Pausing twice and cancelling, before the job has looked at any of it. -/
theorem nothingDiscarded_iff_few :
    NothingDiscarded stubborn [.control .pause, .control .pause, .control .cancel] ↔
      Along (step stubborn) (RoomForCall stubborn) start
        [.control .pause, .control .pause, .control .cancel] :=
  nothingDiscarded_iff stubborn _
    { start with control := [.pause, .pause, .cancel] } rfl

/-- A seventeenth call is discarded, and the download goes on although it was cancelled. -/
theorem cancel_is_discarded : ¬ ∀ (d : Download) (acts : List HandleAct), NothingDiscarded d acts := by
  intro h
  have hover : ¬ Over stubborn { start with control := List.replicate 16 .pause } := by
    intro hover
    exact hover.2 (by decide +kernel)
  have hcalls := h stubborn (List.replicate 16 (.control .pause) ++ [.control .cancel]) _ _
    List.prefix_rfl rfl hover
  exact absurd hcalls (by decide)

/-- The next pending message is delivered as soon as the job waits for a turn. -/
theorem exists_delivery {rest : List Control} (hsent : s.sent = (d.emits s.turns).length)
    (hwaits : d.Waits s.turns) (hcontrol : s.control = message :: rest) :
    ∃ s', s.step d (.turn (.control (some message))) = some s' ∧
      s'.delivered = s.delivered ++ [message] ∧ s'.control = rest := by
  refine ⟨{ s with turns := s.turns ++ [.control (some message)], control := rest }, ?_, ?_, rfl⟩
  · refine step_turn_of hsent hwaits ?_
    rw [takesTurn, hcontrol]
    simp
  · simp [delivered, Turn.message?]

end Underway

end DigDownload
