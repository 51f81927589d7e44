import DigDownload.Lib.Runs
import DigDownload.Resource.Reports
import DigDownload.Resource.Work
import Mathlib.Data.List.TakeWhile

/-!
# The handle of a download

A download runs as a task of its own. It tells its owner what happens through a channel of
events, and its owner tells it to pause, to resume or to cancel through a channel of
control messages; both channels are bounded. An owner that awaits `join` holds on to the
receiving end of the events and reads none of them, so a download that has more to tell
than the channel takes waits for its owner, which waits for the download.
-/

namespace DigDownload

open Prog Runs

/-! ## A download that is given more turns -/

section Turns

variable {seams : ResourceSeams} {content : ContentId} {key : String}

theorem carriesOn_scheduleFrom (turns more : List Turn) (wakeup : Option Nat) :
    CarriesOn (Appends fun _ => True) .pending (scheduleFrom seams content key turns wakeup)
      (scheduleFrom seams content key (turns ++ more) wakeup) := by
  induction turns generalizing wakeup with
  | nil =>
    exact CarriesOn.of_steps
      (steps_scheduleFrom (closedUnderLoop_appends.mono fun _ _ => trivial) more wakeup)
  | cons turn turns ih =>
    refine CarriesOn.bind_right fun happened => ?_
    cases happened with
    | false => exact ih wakeup
    | true =>
      refine CarriesOn.bind_right fun head => ?_
      cases head with
      | finished => exact CarriesOn.refl _
      | waiting wakeup => exact ih wakeup
      | again => exact CarriesOn.refl _

theorem carriesOn_scheduleLoop (turns more : List Turn) :
    CarriesOn (Appends fun _ => True) .pending (scheduleLoop seams content key turns)
      (scheduleLoop seams content key (turns ++ more)) := by
  refine CarriesOn.bind_right fun head => ?_
  cases head with
  | finished => exact CarriesOn.refl _
  | waiting wakeup => exact carriesOn_scheduleFrom turns more wakeup
  | again => exact CarriesOn.refl _

theorem carriesOn_runJob (target : Target) (turns more : List Turn) :
    CarriesOn (Appends fun _ => True) .pending (runJob seams target turns)
      (runJob seams target (turns ++ more)) := by
  rw [runJob_eq, runJob_eq]
  refine CarriesOn.bind_right fun commitment => ?_
  refine CarriesOn.bind_left (carriesOn_scheduleLoop turns more) fun _ => ?_
  exact steps_finish commitment (closedUnderKeeping_appends.mono fun _ _ => trivial)

end Turns

/-- A download that is asked for, and what it starts from. -/
structure Download where
  seams : ResourceSeams
  target : Target
  sink : Sink
  store : StateStore

namespace Download

variable (d : Download)

/-- The download under the turns taken so far. -/
def run (turns : List Turn) : Except Halt Nat × JobWorld :=
  downloadResource d.seams d.target turns d.sink d.store

/-- The events that it has emitted by then. -/
def emits (turns : List Turn) : List DownloadEvent := events (d.run turns).2.trace

/-- It has not returned yet. -/
def Waits (turns : List Turn) : Prop := (joined (d.run turns).1).isNone

instance (turns : List Turn) : Decidable (d.Waits turns) := by
  unfold Waits
  infer_instance

variable {d} {turns more : List Turn}

theorem waits_iff : d.Waits turns ↔ (d.run turns).1 = .error .pending := by
  rw [Waits]
  cases (d.run turns).1 with
  | ok n => simp [joined]
  | error halt => cases halt <;> simp [joined]

/-- A download that has returned takes no more turns. -/
theorem run_append_of_not_waits (h : ¬ d.Waits turns) : d.run (turns ++ more) = d.run turns := by
  cases carriesOn_runJob d.target turns more (JobWorld.start d.seams d.target d.sink d.store) with
  | inl heq => exact heq
  | inr hstop => exact absurd (waits_iff.mpr hstop.1) h

/-- What it has emitted it has emitted. -/
theorem emits_prefix_append : d.emits turns <+: d.emits (turns ++ more) := by
  cases carriesOn_runJob d.target turns more (JobWorld.start d.seams d.target d.sink d.store) with
  | inl heq =>
    rw [emits, emits, run, run, downloadResource, downloadResource, heq]
  | inr hstop =>
    obtain ⟨-, seg, hseg, -⟩ := hstop
    refine ⟨events seg, ?_⟩
    rw [emits, emits, run, run, downloadResource, downloadResource, hseg, events, events, events,
      List.filterMap_append]

theorem emits_mono {longer : List Turn} (h : turns <+: longer) :
    d.emits turns <+: d.emits longer := by
  obtain ⟨more, rfl⟩ := h
  exact emits_prefix_append

end Download

/-! ## The task and its owner -/

/-- `mpsc::channel(256)` of the events. -/
def eventCapacity : Nat := 256

/-- `mpsc::channel(16)` of the control messages. -/
def controlCapacity : Nat := 16

/-- What the owner of a handle does with it. -/
inductive HandleOwner where
  | holding
  | joining
  | joined
  | gone
  deriving DecidableEq

/-- A download under way: the turns its task has taken, how many of the events that these
emit it has sent, the two channels, and the owner with the number of events it has read. -/
structure Underway where
  turns : List Turn
  sent : Nat
  events : List DownloadEvent
  control : List Control
  received : Nat
  owner : HandleOwner

inductive HandleAct where
  /-- the task takes a turn, once it has sent what the last one emitted -/
  | turn (turn : Turn)
  | send
  | nextEvent
  | control (message : Control)
  | join
  | drop
  /-- `join` returns -/
  | deliver

namespace Underway

/-- `Downloader::download` has just returned. -/
def start : Underway := ⟨[], 0, [], [], 0, .holding⟩

/-- The step of the task to its next turn. A control message is the first in its channel,
and the channel ends when the handle is gone. -/
def takesTurn (s : Underway) (turn : Turn) : Option Underway :=
  match turn with
  | .control (some message) =>
    match s.control with
    | first :: rest =>
      if first = message then some { s with turns := s.turns ++ [turn], control := rest } else none
    | [] => none
  | .control none =>
    if s.owner = .gone ∧ s.control = [] then some { s with turns := s.turns ++ [turn] } else none
  | _ => some { s with turns := s.turns ++ [turn] }

variable (d : Download)

/-- One step of the task or of its owner. -/
def step (s : Underway) : HandleAct → Option Underway
  | .turn turn =>
    if s.sent = (d.emits s.turns).length ∧ d.Waits s.turns then s.takesTurn turn else none
  | .send =>
    match (d.emits s.turns)[s.sent]? with
    | some event =>
      -- a send to an owner that is gone fails, and the failure is ignored
      if s.owner = .gone then some { s with sent := s.sent + 1 }
      else if s.events.length < eventCapacity then
        some { s with sent := s.sent + 1, events := s.events ++ [event] }
      else none
    | none => none
  | .nextEvent =>
    match s.owner, s.events with
    | .holding, _ :: rest => some { s with events := rest, received := s.received + 1 }
    | _, _ => none
  | .control message =>
    if s.owner = .holding then
      -- `try_send`: a message that finds the channel full is dropped
      if s.control.length < controlCapacity then some { s with control := s.control ++ [message] }
      else some s
    else none
  | .join => if s.owner = .holding then some { s with owner := .joining } else none
  | .drop => if s.owner = .holding then some { s with owner := .gone, events := [] } else none
  | .deliver =>
    if s.owner = .joining ∧ s.sent = (d.emits s.turns).length ∧ ¬ d.Waits s.turns then
      some { s with owner := .joined }
    else none

/-- The task waits to send an event on a full channel. -/
def Blocked (s : Underway) : Prop :=
  s.sent < (d.emits s.turns).length ∧ s.owner ≠ .gone ∧ eventCapacity ≤ s.events.length

/-- The task waits for its owner, and the owner awaits `join`. -/
def Stuck (s : Underway) : Prop := s.Blocked d ∧ s.owner = .joining

/-! ### What a step keeps -/

/-- The channel holds what was sent and not read, in order, and no more than it takes; a
handle that is held has not ended its control channel. -/
structure Coherent (s : Underway) : Prop where
  sent_le : s.sent ≤ (d.emits s.turns).length
  events_eq : s.owner ≠ .gone → s.events = ((d.emits s.turns).take s.sent).drop s.received
  received_le : s.received ≤ s.sent
  held : s.owner ≠ .gone → Turn.control none ∉ s.turns

variable {d} {s s' : Underway} {act : HandleAct}

/-- A turn changes only the turns and the control channel. -/
theorem takesTurn_eq {turn : Turn} (h : s.takesTurn turn = some s') :
    s' = { s with turns := s.turns ++ [turn], control := s'.control } ∧
      (turn = .control none → s.owner = .gone) := by
  cases turn with
  | control message =>
    cases message with
    | some message =>
      cases hc : s.control with
      | nil => simp [takesTurn, hc] at h
      | cons first rest =>
        simp only [takesTurn, hc, Option.ite_none_right_eq_some] at h
        obtain ⟨-, h⟩ := h
        cases h
        exact ⟨rfl, by simp⟩
    | none =>
      simp only [takesTurn, Option.ite_none_right_eq_some] at h
      obtain ⟨hgone, h⟩ := h
      cases h
      exact ⟨rfl, fun _ => hgone.1⟩
  | completed _ | wake | refresh =>
    cases h
    exact ⟨rfl, by simp⟩

theorem coherent_start : start.Coherent d where
  sent_le := Nat.zero_le _
  events_eq := fun _ => rfl
  received_le := Nat.le_refl _
  held := fun _ => List.not_mem_nil

theorem Coherent.events_length (hs : s.Coherent d) (hheld : s.owner ≠ .gone) :
    s.events.length + s.received = s.sent := by
  rw [hs.events_eq hheld, List.length_drop, List.length_take, Nat.min_eq_left hs.sent_le]
  exact Nat.sub_add_cancel hs.received_le

theorem step_turn {turn : Turn} (h : s.step d (.turn turn) = some s') :
    s.sent = (d.emits s.turns).length ∧ d.Waits s.turns ∧ s.takesTurn turn = some s' := by
  rw [step, Option.ite_none_right_eq_some] at h
  exact ⟨h.1.1, h.1.2, h.2⟩

theorem step_send (h : s.step d .send = some s') :
    ∃ event, (d.emits s.turns)[s.sent]? = some event ∧
      (s.owner = .gone ∧ s' = { s with sent := s.sent + 1 } ∨
        s.owner ≠ .gone ∧ s.events.length < eventCapacity ∧
          s' = { s with sent := s.sent + 1, events := s.events ++ [event] }) := by
  rw [step] at h
  split at h
  · rename_i event hevent
    refine ⟨event, hevent, ?_⟩
    split at h
    · rename_i hgone
      cases h
      exact Or.inl ⟨hgone, rfl⟩
    · rename_i hheld
      rw [Option.ite_none_right_eq_some] at h
      cases h.2
      exact Or.inr ⟨hheld, h.1, rfl⟩
  · cases h

theorem step_nextEvent (h : s.step d .nextEvent = some s') :
    ∃ event rest, s.owner = .holding ∧ s.events = event :: rest ∧
      s' = { s with events := rest, received := s.received + 1 } := by
  rw [step] at h
  split at h
  · rename_i event rest howner hevents
    cases h
    exact ⟨event, rest, howner, hevents, rfl⟩
  · cases h

/-- What the owner does otherwise leaves the task and what it has sent alone. -/
theorem step_owner (h : s.step d act = some s') (hturn : ∀ turn, act ≠ .turn turn)
    (hsend : act ≠ .send) (hnext : act ≠ .nextEvent) :
    s'.turns = s.turns ∧ s'.sent = s.sent ∧ s'.received = s.received ∧
      (s'.owner ≠ .gone → s.owner ≠ .gone ∧ s'.events = s.events) := by
  cases act with
  | turn turn => exact absurd rfl (hturn turn)
  | send => exact absurd rfl hsend
  | nextEvent => exact absurd rfl hnext
  | control message =>
    rw [step, Option.ite_none_right_eq_some] at h
    obtain ⟨hholding, h⟩ := h
    split at h <;> cases h <;> exact ⟨rfl, rfl, rfl, fun hgone => ⟨hgone, rfl⟩⟩
  | join =>
    rw [step, Option.ite_none_right_eq_some] at h
    obtain ⟨hholding, h⟩ := h
    cases h
    exact ⟨rfl, rfl, rfl, fun _ => ⟨by rw [hholding]; simp, rfl⟩⟩
  | drop =>
    rw [step, Option.ite_none_right_eq_some] at h
    obtain ⟨-, h⟩ := h
    cases h
    exact ⟨rfl, rfl, rfl, fun hgone => absurd rfl hgone⟩
  | deliver =>
    rw [step, Option.ite_none_right_eq_some] at h
    obtain ⟨hjoining, h⟩ := h
    cases h
    exact ⟨rfl, rfl, rfl, fun _ => ⟨by rw [hjoining.1]; simp, rfl⟩⟩

theorem coherent_step (hs : s.Coherent d) (h : s.step d act = some s') : s'.Coherent d := by
  cases act with
  | turn turn =>
    obtain ⟨hsent, -, hturn⟩ := step_turn h
    obtain ⟨heq, hnone⟩ := takesTurn_eq hturn
    rw [heq]
    have hpre : d.emits s.turns <+: d.emits (s.turns ++ [turn]) := Download.emits_prefix_append
    refine ⟨hsent ▸ hpre.length_le, fun hheld => ?_, hs.received_le, fun hheld hmem => ?_⟩
    · obtain ⟨more, hmore⟩ := hpre
      show s.events = ((d.emits (s.turns ++ [turn])).take s.sent).drop s.received
      rw [hs.events_eq hheld, ← hmore, List.take_append_of_le_length hs.sent_le]
    · cases List.mem_append.mp hmem with
      | inl hmem => exact hs.held hheld hmem
      | inr hmem => exact hheld (hnone (List.mem_singleton.mp hmem).symm)
  | send =>
    obtain ⟨event, hevent, hsent⟩ := step_send h
    obtain ⟨hlt, -⟩ := List.getElem?_eq_some_iff.mp hevent
    cases hsent with
    | inl hgone =>
      rw [hgone.2]
      refine ⟨hlt, fun hheld => absurd hgone.1 hheld, ?_, hs.held⟩
      exact Nat.le_succ_of_le hs.received_le
    | inr hheld =>
      obtain ⟨hheld, -, rfl⟩ := hheld
      refine ⟨hlt, fun _ => ?_, Nat.le_succ_of_le hs.received_le, hs.held⟩
      show s.events ++ [event] = ((d.emits s.turns).take (s.sent + 1)).drop s.received
      rw [List.take_add_one, hevent, hs.events_eq hheld, List.drop_append_of_le_length]
      · rfl
      · rw [List.length_take, Nat.min_eq_left hs.sent_le]
        exact hs.received_le
  | nextEvent =>
    obtain ⟨event, rest, howner, hevents, rfl⟩ := step_nextEvent h
    have hheld : s.owner ≠ .gone := by rw [howner]; simp
    have hlen := hs.events_length hheld
    rw [hevents, List.length_cons] at hlen
    refine ⟨hs.sent_le, fun _ => ?_, by show s.received + 1 ≤ s.sent; omega, hs.held⟩
    show rest = ((d.emits s.turns).take s.sent).drop (s.received + 1)
    rw [← List.drop_drop, ← hs.events_eq hheld, hevents]
    rfl
  | _ =>
    obtain ⟨hturns, hsent, hreceived, hevents⟩ := step_owner h (by simp) (by simp) (by simp)
    refine ⟨?_, fun hheld => ?_, ?_, fun hheld => ?_⟩
    · rw [hturns, hsent]
      exact hs.sent_le
    · rw [hturns, hsent, hreceived, (hevents hheld).2]
      exact hs.events_eq (hevents hheld).1
    · rw [hsent, hreceived]
      exact hs.received_le
    · rw [hturns]
      exact hs.held (hevents hheld).1

theorem step_send_of (hheld : s.owner ≠ .gone) (hlt : s.sent < (d.emits s.turns).length)
    (hroom : s.events.length < eventCapacity) :
    s.step d .send = some { s with
      sent := s.sent + 1
      events := s.events ++ [(d.emits s.turns)[s.sent]] } := by
  have hevent := List.getElem?_eq_getElem hlt
  rw [step]
  show (match (d.emits s.turns)[s.sent]? with | some event => _ | none => none) = _
  rw [hevent]
  show (if s.owner = .gone then _ else if s.events.length < eventCapacity then _ else none) = _
  rw [if_neg hheld, if_pos hroom]

theorem step_nextEvent_of {event : DownloadEvent} {rest : List DownloadEvent}
    (hheld : s.owner = .holding) (hevents : s.events = event :: rest) :
    s.step d .nextEvent = some { s with events := rest, received := s.received + 1 } := by
  rw [step, hheld, hevents]

/-- An owner that comes to await the download, or has its result, holds on to the channel. -/
theorem Coherent.of_owner (hs : s.Coherent d) (hheld : s.owner ≠ .gone) (owner : HandleOwner) :
    Coherent d { s with owner } where
  sent_le := hs.sent_le
  events_eq := fun _ => hs.events_eq hheld
  received_le := hs.received_le
  held := fun _ => hs.held hheld

theorem coherent_run {acts : List HandleAct} (h : Runs.run (step d) start acts = some s) :
    s.Coherent d :=
  invariant (fun _ _ _ hs hstep => coherent_step hs hstep) coherent_start h

/-- A task that waits for an owner who awaits it waits for ever. -/
theorem Stuck.step_eq_none (h : s.Stuck d) : s.step d act = none := by
  obtain ⟨⟨hlt, -, hfull⟩, hjoining⟩ := h
  cases act with
  | turn turn => exact if_neg fun hturn => Nat.ne_of_lt hlt hturn.1
  | send =>
    have hevent := List.getElem?_eq_getElem hlt
    rw [step, hevent]
    show (if s.owner = .gone then _ else if s.events.length < eventCapacity then _ else none) = none
    rw [if_neg (by rw [hjoining]; simp), if_neg (Nat.not_lt.mpr hfull)]
  | nextEvent => simp [step, hjoining]
  | control message => exact if_neg (by rw [hjoining]; simp)
  | join => exact if_neg (by rw [hjoining]; simp)
  | drop => exact if_neg (by rw [hjoining]; simp)
  | deliver => exact if_neg fun hdone => Nat.ne_of_lt hlt hdone.2.1

/-- What has filled the channel was not read. -/
theorem Coherent.emits_of_stuck (hs : s.Coherent d) (h : s.Stuck d) :
    s.received + eventCapacity < (d.emits s.turns).length := by
  obtain ⟨⟨hlt, hheld, hfull⟩, -⟩ := h
  have hlen := hs.events_length hheld
  omega

/-! ### How far a task gets -/

theorem step_turn_of {turn : Turn} (hsent : s.sent = (d.emits s.turns).length)
    (hwaits : d.Waits s.turns) (h : s.takesTurn turn = some s') :
    s.step d (.turn turn) = some s' :=
  (if_pos ⟨hsent, hwaits⟩).trans h

/-- The task takes a turn, or its owner sends it the message that one of the turns takes. -/
def Advances (turns : List Turn) (act : HandleAct) : Prop :=
  (∃ turn, act = .turn turn) ∨ ∃ message, act = .control message ∧ .control (some message) ∈ turns

/-- The download has sent all that its turns emit, and goes on to a turn that is no end of
the control channel; its owner sends it the message it takes. -/
theorem run_turn {turn : Turn} (hheld : s.owner = .holding) (hcontrol : s.control = [])
    (hsent : s.sent = (d.emits s.turns).length) (hwaits : d.Waits s.turns)
    (hturn : turn ≠ .control none) :
    ∃ acts, (∀ act ∈ acts, Advances [turn] act) ∧
      Runs.run (step d) s acts = some { s with turns := s.turns ++ [turn] } := by
  have hone : ∀ act ∈ [HandleAct.turn turn], Advances [turn] act := by
    intro act hact
    exact Or.inl ⟨turn, List.mem_singleton.mp hact⟩
  cases turn with
  | control message =>
    cases message with
    | none => exact absurd rfl hturn
    | some message =>
      refine ⟨[.control message, .turn (.control (some message))], ?_, ?_⟩
      · intro act hact
        cases List.mem_cons.mp hact with
        | inl hact => exact Or.inr ⟨message, hact, List.mem_singleton.mpr rfl⟩
        | inr hact => exact hone act hact
      have hasked : s.step d (.control message) = some { s with control := [message] } := by
        rw [step, if_pos hheld, hcontrol]
        exact if_pos (by decide)
      have htaken : step d { s with control := [message] } (.turn (.control (some message))) =
          some { s with turns := s.turns ++ [.control (some message)] } := by
        refine step_turn_of hsent hwaits ((if_pos rfl).trans ?_)
        rw [hcontrol]
      rw [run_cons hasked, run_cons htaken, run_nil]
  | completed choice =>
    exact ⟨_, hone, (run_cons (step_turn_of hsent hwaits rfl)).trans run_nil⟩
  | wake => exact ⟨_, hone, (run_cons (step_turn_of hsent hwaits rfl)).trans run_nil⟩
  | refresh => exact ⟨_, hone, (run_cons (step_turn_of hsent hwaits rfl)).trans run_nil⟩

/-- A download that has more to emit under some turns comes to emit it. -/
theorem run_until_emits {turns rest : List Turn} (hturns : s.turns ++ rest = turns)
    (hnone : Turn.control none ∉ turns) (hheld : s.owner = .holding) (hcontrol : s.control = [])
    (hle : s.sent ≤ (d.emits s.turns).length) (hlt : s.sent < (d.emits turns).length) :
    ∃ acts taken, (∀ act ∈ acts, Advances turns act) ∧
      Runs.run (step d) s acts = some { s with turns := taken } ∧
      taken <+: turns ∧ s.sent < (d.emits taken).length := by
  induction rest generalizing s with
  | nil =>
    rw [List.append_nil] at hturns
    exact ⟨[], s.turns, by simp, rfl, hturns ▸ List.prefix_refl _, hturns ▸ hlt⟩
  | cons turn rest ih =>
    by_cases hmore : s.sent < (d.emits s.turns).length
    · exact ⟨[], s.turns, by simp, rfl, ⟨turn :: rest, hturns⟩, hmore⟩
    · have hsent : s.sent = (d.emits s.turns).length := Nat.le_antisymm hle (Nat.not_lt.mp hmore)
      have hwaits : d.Waits s.turns := by
        by_contra hnot
        rw [← hturns, Download.emits, Download.run_append_of_not_waits hnot] at hlt
        exact hmore hlt
      have hmem : turn ∈ turns := hturns ▸ List.mem_append_right _ List.mem_cons_self
      have hturn : turn ≠ .control none := fun heq => hnone (heq ▸ hmem)
      obtain ⟨acts, hfirst, hacts⟩ := run_turn hheld hcontrol hsent hwaits hturn
      obtain ⟨acts', taken, hthen, hrun, htaken, hemits⟩ := ih (s := { s with turns := s.turns ++ [turn] })
        (by rw [← hturns, List.append_assoc]; rfl) hheld hcontrol
        (hle.trans Download.emits_prefix_append.length_le) hlt
      refine ⟨acts ++ acts', taken, fun act hact => ?_, run_append_eq_some.mpr ⟨_, hacts, hrun⟩,
        htaken, hemits⟩
      cases List.mem_append.mp hact with
      | inl hact =>
        cases hfirst act hact with
        | inl hact => exact Or.inl hact
        | inr hact =>
          obtain ⟨message, hact, heq⟩ := hact
          exact Or.inr ⟨message, hact, List.mem_singleton.mp heq ▸ hmem⟩
      | inr hact => exact hthen act hact

/-- An owner that reads the first `k` events, as they come, lets the task send as many as
the channel takes besides. -/
theorem exists_run_sent {turns : List Turn} (hnone : Turn.control none ∉ turns) {k n : Nat}
    (hemits : n ≤ (d.emits turns).length) (hroom : n ≤ k + eventCapacity) :
    ∃ acts s, Runs.run (step d) start acts = some s ∧ s.turns <+: turns ∧ s.sent = n ∧
      s.received = min n k ∧ s.owner = .holding ∧ s.control = [] := by
  induction n with
  | zero => exact ⟨[], start, rfl, List.nil_prefix, rfl, (Nat.zero_min k).symm, rfl, rfl⟩
  | succ n ih =>
    obtain ⟨acts, s, hrun, ⟨rest, hturns⟩, hsent, hreceived, hheld, hcontrol⟩ :=
      ih (Nat.le_of_succ_le hemits) (Nat.le_of_succ_le hroom)
    have hs : s.Coherent d := coherent_run hrun
    obtain ⟨acts', taken, -, hrun', htaken, hmore⟩ :=
      run_until_emits hturns hnone hheld hcontrol hs.sent_le (by omega)
    have hlen : s.events.length + s.received = s.sent :=
      hs.events_length (by rw [hheld]; simp)
    have hcapacity : 0 < eventCapacity := by decide
    have hfree : s.events.length < eventCapacity := by omega
    obtain ⟨next, hnext⟩ : ∃ next : Underway, next = { s with
        turns := taken
        sent := s.sent + 1
        events := s.events ++ [(d.emits taken)[s.sent]] } := ⟨_, rfl⟩
    have hsend : step d { s with turns := taken } .send = some next := by
      rw [hnext]
      exact step_send_of (s := { s with turns := taken }) (by rw [hheld]; simp) hmore hfree
    have hrun₁ : Runs.run (step d) start (acts ++ (acts' ++ [.send])) = some next :=
      run_append_eq_some.mpr ⟨_, hrun, run_append_eq_some.mpr
        ⟨_, hrun', (run_cons hsend).trans run_nil⟩⟩
    have hcount : next.sent = n + 1 ∧ next.received = s.received := by
      rw [hnext]
      exact ⟨congrArg (· + 1) hsent, rfl⟩
    by_cases hread : n < k
    · -- the owner is still reading
      have hevents : s.events = [] := List.eq_nil_of_length_eq_zero (by omega)
      have hnextEvent : step d next .nextEvent =
          some { next with events := [], received := next.received + 1 } := by
        rw [step, hnext]
        show (match s.owner, s.events ++ [(d.emits taken)[s.sent]] with
          | .holding, _ :: rest => _ | _, _ => none) = _
        rw [hheld, hevents]
        rfl
      refine ⟨_, _, run_append_eq_some.mpr ⟨_, hrun₁, (run_cons hnextEvent).trans run_nil⟩,
        ?_, hcount.1, ?_, ?_, ?_⟩
      · rw [hnext]
        exact htaken
      · show next.received + 1 = min (n + 1) k
        omega
      · rw [hnext]
        exact hheld
      · rw [hnext]
        exact hcontrol
    · refine ⟨_, _, hrun₁, ?_, hcount.1, by omega, ?_, ?_⟩
      · rw [hnext]
        exact htaken
      · rw [hnext]
        exact hheld
      · rw [hnext]
        exact hcontrol

/-- A download that emits more than its owner reads and the channel takes gets stuck when
the owner awaits it. -/
theorem exists_stuck {turns : List Turn} (hnone : Turn.control none ∉ turns) {k : Nat}
    (hemits : k + eventCapacity < (d.emits turns).length) :
    ∃ acts s, Runs.run (step d) start acts = some s ∧ s.turns <+: turns ∧ s.received = k ∧
      s.Stuck d := by
  obtain ⟨acts, s, hrun, ⟨rest, hturns⟩, hsent, hreceived, hheld, hcontrol⟩ :=
    exists_run_sent hnone (Nat.le_of_lt hemits) (Nat.le_refl _)
  have hs : s.Coherent d := coherent_run hrun
  obtain ⟨acts', taken, -, hrun', htaken, hmore⟩ :=
    run_until_emits hturns hnone hheld hcontrol hs.sent_le (hsent ▸ hemits)
  have hlen : s.events.length + s.received = s.sent := hs.events_length (by rw [hheld]; simp)
  have hjoin : step d { s with turns := taken } .join =
      some { s with turns := taken, owner := .joining } := if_pos hheld
  refine ⟨_, _, run_append_eq_some.mpr ⟨_, hrun, run_append_eq_some.mpr
    ⟨_, hrun', (run_cons hjoin).trans run_nil⟩⟩, htaken, ?_, ⟨hmore, by simp, ?_⟩, rfl⟩
  · show s.received = k
    omega
  · show eventCapacity ≤ s.events.length
    omega

/-- Up to the end of the control channel, which comes when the handle is gone. -/
def heldTurns (turns : List Turn) : List Turn := turns.takeWhile (· ≠ .control none)

theorem heldTurns_none {turns : List Turn} : Turn.control none ∉ heldTurns turns := by
  intro hmem
  have hne := List.mem_takeWhile_imp hmem
  rw [decide_eq_true_iff] at hne
  exact hne rfl

theorem heldTurns_isPrefix {turns : List Turn} : heldTurns turns <+: turns :=
  List.takeWhile_prefix _

theorem prefix_heldTurns {taken turns : List Turn} (h : taken <+: turns)
    (hnone : Turn.control none ∉ taken) : taken <+: heldTurns turns := by
  obtain ⟨rest, rfl⟩ := h
  rw [heldTurns, List.takeWhile_append_of_pos]
  · exact List.prefix_append _ _
  · exact fun turn hmem => decide_eq_true fun heq => hnone (heq ▸ hmem)

/-- A run of a download is free of deadlock, for an owner that reads `k` events before it
awaits `join`, if and only if it emits no more than these and the channel takes. -/
theorem join_never_stuck_iff (d : Download) (turns : List Turn) (k : Nat) :
    (∀ acts s, Runs.run (step d) start acts = some s → s.turns <+: turns → s.received = k →
      ¬ s.Stuck d) ↔ (d.emits (heldTurns turns)).length ≤ k + eventCapacity := by
  constructor
  · intro h
    by_contra hmore
    obtain ⟨acts, s, hrun, hturns, hreceived, hstuck⟩ :=
      exists_stuck heldTurns_none (Nat.not_le.mp hmore)
    exact h acts s hrun (hturns.trans heldTurns_isPrefix) hreceived hstuck
  · intro hle acts s hrun hturns hreceived hstuck
    have hs : s.Coherent d := coherent_run hrun
    have hlt := hs.emits_of_stuck hstuck
    have hnone := hs.held (by rw [hstuck.2]; simp)
    have hpre := (Download.emits_mono (d := d) (prefix_heldTurns hturns hnone)).length_le
    omega

end Underway

/-! ## A download with much to tell -/

/-- The download of the small resource from a holder that refuses every range. -/
def stubborn : Download where
  seams := stubbornSeams
  target := smallTarget
  sink := emptySink
  store := emptyStore

/-- Every refusal is told. -/
theorem wp_scheduleFrom_tells {key : String} (n : Nat) :
    ∀ w, Stubborn (.inFlight holderA) [stubbornFetch] w →
      wp (scheduleFrom stubbornSeams smallTarget.content key (List.replicate n (.completed 0)) none)
        (fun _ _ => False)
        (fun halt w' => halt = .pending ∧ (events w.trace).length + n ≤ (events w'.trace).length)
        w := by
  induction n with
  | zero => exact fun w _ => ⟨rfl, Nat.le_refl _⟩
  | succ n ih =>
    intro w h
    rw [List.replicate_succ, scheduleFrom, wp_bind]
    refine (wp_takeTurn_stubborn h).mono (fun happened w₁ h₁ => ?_) (fun _ _ h => h.elim)
    obtain ⟨rfl, h₁, -, seg, event, htrace, hmem⟩ := h₁
    have htold : (events w.trace).length + 1 ≤ (events w₁.trace).length := by
      have hone : 0 < (events seg).length :=
        List.length_pos_of_mem (List.mem_filterMap.mpr ⟨_, hmem, rfl⟩)
      rw [htrace, events_append, List.length_append]
      exact Nat.add_le_add_left hone _
    rw [if_pos rfl, wp_bind]
    have hhead : Steps (Appends fun _ => True) (settledHead stubbornSeams smallTarget.content key) :=
      steps_settledHead (closedUnderLoop_appends.mono fun _ _ => trivial)
    refine ((wp_settledHead_stubborn h₁).and (hhead.wp w₁)).mono (fun head w₂ h₂ => ?_)
      (fun _ _ h => h.1.elim)
    obtain ⟨⟨rfl, h₂, -⟩, more, hmore, -⟩ := h₂
    refine (ih w₂ h₂).mono (fun _ _ h => h) (fun halt w' h' => ⟨h'.1, ?_⟩)
    have hkept : (events w₁.trace).length ≤ (events w₂.trace).length := by
      rw [hmore, events_append, List.length_append]
      exact Nat.le_add_right _ _
    have hrest := h'.2
    omega

theorem le_emits_stubborn (n : Nat) :
    n ≤ (stubborn.emits (List.replicate n (.completed 0))).length := by
  have henter : (entering stubbornSeams smallTarget
      (JobWorld.start stubbornSeams smallTarget emptySink emptyStore)).1 = .ok smallCommitment := by
    decide +kernel
  have hrun : wp (runJob stubbornSeams smallTarget (List.replicate n (.completed 0)))
      (fun _ _ => False) (fun _ w' => n ≤ (events w'.trace).length)
      (JobWorld.start stubbornSeams smallTarget emptySink emptyStore) := by
    rw [runJob_eq, wp_bind]
    refine wp_iff.mpr ⟨fun commitment hcommitment => ?_, fun halt hhalt => ?_⟩
    · show wp (entered stubbornSeams smallTarget (List.replicate n (.completed 0)) commitment) _ _
        (loopStart stubbornSeams smallTarget emptySink emptyStore)
      rw [entered, wp_bind, scheduleLoop, wp_bind]
      refine (wp_settledHead_stubborn stubborn_start).mono (fun head w₁ h₁ => ?_)
        (fun _ _ h => h.elim)
      obtain ⟨rfl, h₁, -⟩ := h₁
      refine (wp_scheduleFrom_tells n w₁ h₁).mono (fun _ _ h => h.elim) (fun halt w' h' => ?_)
      exact Nat.le_trans (Nat.le_add_left n _) h'.2
    · rw [henter] at hhalt
      cases hhalt
  obtain ⟨halt, -, hcount⟩ := hrun.exists_error
  exact hcount

/-- The owner that reads nothing and awaits `join` deadlocks with the download. -/
theorem join_deadlocks :
    ¬ ∀ (d : Download) (acts : List HandleAct) (s : Underway),
      Runs.run (Underway.step d) Underway.start acts = some s → ¬ s.Stuck d := by
  intro h
  have hnone : Turn.control none ∉ List.replicate 257 (Turn.completed 0) := by
    intro hmem
    cases List.eq_of_mem_replicate hmem
  have hmore : 0 + eventCapacity < (stubborn.emits (List.replicate 257 (.completed 0))).length :=
    le_emits_stubborn 257
  obtain ⟨acts, s, hrun, -, -, hstuck⟩ := Underway.exists_stuck hnone hmore
  exact h stubborn acts s hrun hstuck

end DigDownload
