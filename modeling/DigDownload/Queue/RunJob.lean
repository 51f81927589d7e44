import DigDownload.Handle

/-!
# A queued download

A worker of the queue drives a download on behalf of an owner that holds another handle:
it reads the events of the download and sends each on to its owner, through a second
bounded channel, and when the events end, or the owner is gone, it joins the download and
delivers the result. A worker that sends to an owner who only awaits the result waits once
the second channel is full; one that joins because its owner is gone reads no more events,
and the download waits once the first channel is full.
-/

namespace DigDownload

open Runs

/-- Where a worker stands in `run_job`. -/
inductive RunJobPoint where
  | receiving
  | sending (event : DownloadEvent)
  | joining
  | delivered
  deriving DecidableEq

/-- The state of the handle of the worker at a point of `run_job`. -/
def RunJobPoint.owner : RunJobPoint → HandleOwner
  | .receiving | .sending _ => .holding
  | .joining => .joining
  | .delivered => .joined

/-- How many events the worker holds. -/
def RunJobPoint.held : RunJobPoint → Nat
  | .sending _ => 1
  | .receiving | .joining | .delivered => 0

/-- How far a point of `run_job` is from its end. -/
def RunJobPoint.left : RunJobPoint → Nat
  | .receiving => 2
  | .sending _ => 3
  | .joining => 1
  | .delivered => 0

/-- A download of the queue: the handle that its worker has of it, where the worker stands,
and the channel to the owner, with the number of events it has read. -/
structure QueuedJob where
  handle : Underway
  point : RunJobPoint
  events : List DownloadEvent
  received : Nat
  owner : HandleOwner

inductive QueuedAct where
  /-- the task takes a turn -/
  | turn (turn : Turn)
  /-- the task sends an event -/
  | send
  /-- the worker goes on with `run_job` -/
  | work
  | nextEvent
  | join
  | drop
  /-- `QueuedHandle::join` returns -/
  | deliver

namespace QueuedJob

/-- `DownloadQueue::submit` has just returned. -/
def start : QueuedJob := ⟨Underway.start, .receiving, [], 0, .holding⟩

variable (d : Download)

/-- The worker joins the download. -/
def startJoin (s : QueuedJob) : Option QueuedJob :=
  (s.handle.step d .join).map fun handle => { s with handle, point := .joining }

/-- The next step of the worker in `run_job`. -/
def work (s : QueuedJob) : Option QueuedJob :=
  match s.point with
  | .receiving =>
    match s.handle.events with
    | event :: _ =>
      (s.handle.step d .nextEvent).map fun handle => { s with handle, point := .sending event }
    | [] =>
      -- the stream ends with the task
      if s.handle.sent = (d.emits s.handle.turns).length ∧ ¬ d.Waits s.handle.turns then
        s.startJoin d
      else none
  | .sending event =>
    -- an owner that is gone has stopped listening
    if s.owner = .gone then s.startJoin d
    else if s.events.length < eventCapacity then
      some { s with events := s.events ++ [event], point := .receiving }
    else none
  | .joining => (s.handle.step d .deliver).map fun handle => { s with handle, point := .delivered }
  | .delivered => none

/-- One step of the task, of the worker or of the owner. -/
def step (s : QueuedJob) : QueuedAct → Option QueuedJob
  | .turn turn => (s.handle.step d (.turn turn)).map fun handle => { s with handle }
  | .send => (s.handle.step d .send).map fun handle => { s with handle }
  | .work => s.work d
  | .nextEvent =>
    match s.owner, s.events with
    | .holding, _ :: rest => some { s with events := rest, received := s.received + 1 }
    | _, _ => none
  | .join => if s.owner = .holding then some { s with owner := .joining } else none
  | .drop => if s.owner = .holding then some { s with owner := .gone, events := [] } else none
  | .deliver =>
    if s.owner = .joining ∧ s.point = .delivered then some { s with owner := .joined } else none

/-- The worker can never go on: it sends on a full channel that its owner does not read,
or it has joined a download that is blocked on its own. -/
def Wedged (s : QueuedJob) : Prop :=
  (∃ event, s.point = .sending event) ∧ s.owner = .joining ∧ eventCapacity ≤ s.events.length ∨
    s.point = .joining ∧ s.handle.Blocked d

/-- The download has nothing left to fetch, and its task nothing left to do but to send. -/
def Done (s : QueuedJob) : Prop := ¬ d.Waits s.handle.turns

/-- An act of the task or of the worker. -/
def IsOurs (act : QueuedAct) : Prop := act = .send ∨ act = .work

/-- The worker can return to the queue without the help of the owner. -/
def CanReturn (s : QueuedJob) : Prop :=
  ∃ acts t, (∀ act ∈ acts, IsOurs act) ∧ run (step d) s acts = some t ∧ t.point = .delivered

/-! ## What a step keeps -/

/-- The worker knows of the download what its point says, the owner has no control over it,
and every event that the worker has read is sent on, as long as the owner is there. -/
structure Coherent (s : QueuedJob) : Prop where
  handle : s.handle.Coherent d
  control : s.handle.control = []
  owner_eq : s.handle.owner = s.point.owner
  count_le : s.received + s.events.length + s.point.held ≤ s.handle.received
  count_eq : s.owner ≠ .gone →
    s.received + s.events.length + s.point.held = s.handle.received
  calm : ∀ message, Turn.control message ∉ s.handle.turns

/-- What the worker does next. -/
inductive Works (s : QueuedJob) : QueuedJob → Prop where
  | reads {event : DownloadEvent} {rest : List DownloadEvent} :
      s.point = .receiving → s.handle.events = event :: rest → s.handle.owner = .holding →
      Works s { s with
        handle := { s.handle with events := rest, received := s.handle.received + 1 }
        point := .sending event }
  | ends : s.point = .receiving → s.handle.events = [] →
      s.handle.sent = (d.emits s.handle.turns).length → ¬ d.Waits s.handle.turns →
      Works s { s with handle := { s.handle with owner := .joining }, point := .joining }
  | stops {event : DownloadEvent} : s.point = .sending event → s.owner = .gone →
      Works s { s with handle := { s.handle with owner := .joining }, point := .joining }
  | sends {event : DownloadEvent} : s.point = .sending event → s.owner ≠ .gone →
      s.events.length < eventCapacity →
      Works s { s with events := s.events ++ [event], point := .receiving }
  | delivers : s.point = .joining → s.handle.sent = (d.emits s.handle.turns).length →
      ¬ d.Waits s.handle.turns →
      Works s { s with handle := { s.handle with owner := .joined }, point := .delivered }

section Step

variable {d} {s s' : QueuedJob} {act : QueuedAct}

theorem startJoin_eq (h : s.startJoin d = some s') :
    s' = { s with handle := { s.handle with owner := .joining }, point := .joining } := by
  rw [startJoin, Option.map_eq_some_iff] at h
  obtain ⟨handle, hjoin, rfl⟩ := h
  rw [Underway.step, Option.ite_none_right_eq_some] at hjoin
  cases hjoin.2
  rfl

theorem works_of_work (h : s.work d = some s') : Works d s s' := by
  rw [work] at h
  split at h
  · rename_i hpoint
    split at h
    · rename_i event rest hevents
      rw [Option.map_eq_some_iff] at h
      obtain ⟨handle, hnext, rfl⟩ := h
      obtain ⟨first, others, hheld, hfirst, rfl⟩ := Underway.step_nextEvent hnext
      rw [hevents] at hfirst
      cases hfirst
      exact Works.reads hpoint hevents hheld
    · rename_i hevents
      rw [Option.ite_none_right_eq_some] at h
      rw [startJoin_eq h.2]
      exact Works.ends hpoint hevents h.1.1 h.1.2
  · rename_i event hpoint
    split at h
    · rename_i hgone
      rw [startJoin_eq h]
      exact Works.stops hpoint hgone
    · rename_i hheld
      rw [Option.ite_none_right_eq_some] at h
      cases h.2
      exact Works.sends hpoint hheld h.1
  · rename_i hpoint
    rw [Option.map_eq_some_iff] at h
    obtain ⟨handle, hdeliver, rfl⟩ := h
    rw [Underway.step, Option.ite_none_right_eq_some] at hdeliver
    obtain ⟨⟨-, hsent, hdone⟩, hdeliver⟩ := hdeliver
    cases hdeliver
    exact Works.delivers hpoint hsent hdone
  · cases h

theorem coherent_start : start.Coherent d where
  handle := Underway.coherent_start
  control := rfl
  owner_eq := rfl
  count_le := Nat.le_refl _
  count_eq := fun _ => rfl
  calm := fun _ => List.not_mem_nil

theorem Coherent.handle_held (hs : s.Coherent d) : s.handle.owner ≠ .gone := by
  rw [hs.owner_eq]
  cases s.point <;> simp [RunJobPoint.owner]

/-- The task of a queued download is given no control messages. -/
theorem step_turn (hs : s.Coherent d) {turn : Turn} (h : s.step d (.turn turn) = some s') :
    (∀ message, turn ≠ .control message) ∧ s.handle.sent = (d.emits s.handle.turns).length ∧
      d.Waits s.handle.turns ∧
      s' = { s with handle := { s.handle with turns := s.handle.turns ++ [turn] } } := by
  rw [step, Option.map_eq_some_iff] at h
  obtain ⟨handle, hturn, rfl⟩ := h
  obtain ⟨hsent, hwaits, htakes⟩ := Underway.step_turn hturn
  cases turn with
  | control message =>
    cases message with
    | some message =>
      rw [Underway.takesTurn, hs.control] at htakes
      cases htakes
    | none => exact absurd ((Underway.takesTurn_eq htakes).2 rfl) hs.handle_held
  | completed _ | wake | refresh =>
    cases htakes
    exact ⟨by simp, hsent, hwaits, rfl⟩

/-- The task sends its next event to the worker. -/
theorem step_send (hs : s.Coherent d) (h : s.step d .send = some s') :
    ∃ event, (d.emits s.handle.turns)[s.handle.sent]? = some event ∧
      s.handle.events.length < eventCapacity ∧
      s' = { s with handle := { s.handle with
        sent := s.handle.sent + 1
        events := s.handle.events ++ [event] } } := by
  rw [step, Option.map_eq_some_iff] at h
  obtain ⟨handle, hsend, rfl⟩ := h
  obtain ⟨event, hevent, hsent⟩ := Underway.step_send hsend
  cases hsent with
  | inl hgone => exact absurd hgone.1 hs.handle_held
  | inr hroom =>
    obtain ⟨-, hroom, rfl⟩ := hroom
    exact ⟨event, hevent, hroom, rfl⟩

theorem step_nextEvent (h : s.step d .nextEvent = some s') :
    ∃ event rest, s.owner = .holding ∧ s.events = event :: rest ∧
      s' = { s with events := rest, received := s.received + 1 } := by
  rw [step] at h
  split at h
  · rename_i event rest howner hevents
    cases h
    exact ⟨event, rest, howner, hevents, rfl⟩
  · cases h

/-- What the owner does otherwise leaves the download and the worker alone. -/
theorem step_owner (h : s.step d act = some s') (hturn : ∀ turn, act ≠ .turn turn)
    (hsend : act ≠ .send) (hwork : act ≠ .work) (hnext : act ≠ .nextEvent) :
    s'.handle = s.handle ∧ s'.point = s.point ∧ s'.received = s.received ∧
      s'.events.length ≤ s.events.length ∧
      (s'.owner ≠ .gone → s.owner ≠ .gone ∧ s'.events = s.events) := by
  cases act with
  | turn turn => exact absurd rfl (hturn turn)
  | send => exact absurd rfl hsend
  | work => exact absurd rfl hwork
  | nextEvent => exact absurd rfl hnext
  | join =>
    rw [step, Option.ite_none_right_eq_some] at h
    obtain ⟨hholding, h⟩ := h
    cases h
    exact ⟨rfl, rfl, rfl, Nat.le_refl _, fun _ => ⟨by rw [hholding]; simp, rfl⟩⟩
  | drop =>
    rw [step, Option.ite_none_right_eq_some] at h
    obtain ⟨-, h⟩ := h
    cases h
    exact ⟨rfl, rfl, rfl, Nat.zero_le _, fun hgone => absurd rfl hgone⟩
  | deliver =>
    rw [step, Option.ite_none_right_eq_some] at h
    obtain ⟨hjoining, h⟩ := h
    cases h
    exact ⟨rfl, rfl, rfl, Nat.le_refl _, fun _ => ⟨by rw [hjoining.1]; simp, rfl⟩⟩

theorem coherent_works (hs : s.Coherent d) (h : Works d s s') : s'.Coherent d := by
  have hheld := hs.handle_held
  cases h with
  | @reads event rest hpoint hevents howner =>
    have hhandle := Underway.coherent_step hs.handle (Underway.step_nextEvent_of howner hevents)
    refine ⟨hhandle, hs.control, howner, ?_, fun hgone => ?_, hs.calm⟩
    · have hle := hs.count_le
      rw [hpoint] at hle
      exact Nat.succ_le_succ hle
    · have heq := hs.count_eq hgone
      rw [hpoint] at heq
      exact congrArg (· + 1) heq
  | ends hpoint _ _ _ =>
    refine ⟨hs.handle.of_owner hheld _, hs.control, rfl, ?_, fun hgone => ?_, hs.calm⟩
    · have hle := hs.count_le
      rwa [hpoint] at hle
    · have heq := hs.count_eq hgone
      rwa [hpoint] at heq
  | stops hpoint hgone =>
    refine ⟨hs.handle.of_owner hheld _, hs.control, rfl, ?_, fun h => absurd hgone h, hs.calm⟩
    have hle := hs.count_le
    rw [hpoint] at hle
    exact Nat.le_of_succ_le hle
  | @sends event hpoint hthere _ =>
    have heq := hs.count_eq hthere
    rw [hpoint] at heq
    have hcount : s.received + (s.events ++ [event]).length + 0 = s.handle.received := by
      rw [List.length_append]
      exact heq
    have howner : s.handle.owner = .holding := by
      rw [hs.owner_eq, hpoint]
      rfl
    exact ⟨hs.handle, hs.control, howner, Nat.le_of_eq hcount, fun _ => hcount, hs.calm⟩
  | delivers hpoint _ _ =>
    refine ⟨hs.handle.of_owner hheld _, hs.control, rfl, ?_, fun hgone => ?_, hs.calm⟩
    · have hle := hs.count_le
      rwa [hpoint] at hle
    · have heq := hs.count_eq hgone
      rwa [hpoint] at heq

theorem coherent_step (hs : s.Coherent d) (h : s.step d act = some s') : s'.Coherent d := by
  cases act with
  | turn turn =>
    have hstep := h
    obtain ⟨hcalm, -, -, rfl⟩ := step_turn hs h
    rw [step, Option.map_eq_some_iff] at hstep
    obtain ⟨handle, hturn, heq⟩ := hstep
    have hhandle := Underway.coherent_step hs.handle hturn
    rw [← heq]
    have hthis : handle = { s.handle with turns := s.handle.turns ++ [turn] } :=
      congrArg QueuedJob.handle heq
    refine ⟨hhandle, hthis ▸ hs.control, hthis ▸ hs.owner_eq, hthis ▸ hs.count_le,
      hthis ▸ hs.count_eq, ?_⟩
    rw [hthis]
    intro message hmem
    cases List.mem_append.mp hmem with
    | inl hmem => exact hs.calm message hmem
    | inr hmem => exact hcalm message (List.mem_singleton.mp hmem).symm
  | send =>
    have hstep := h
    obtain ⟨event, -, -, rfl⟩ := step_send hs h
    rw [step, Option.map_eq_some_iff] at hstep
    obtain ⟨handle, hsend, heq⟩ := hstep
    have hhandle := Underway.coherent_step hs.handle hsend
    have hthis := congrArg QueuedJob.handle heq
    exact ⟨hthis ▸ hhandle, hs.control, hs.owner_eq, hs.count_le, hs.count_eq, hs.calm⟩
  | work => exact coherent_works hs (works_of_work h)
  | nextEvent =>
    obtain ⟨event, rest, howner, hevents, rfl⟩ := step_nextEvent h
    have hle := hs.count_le
    have heq := hs.count_eq
    rw [hevents, List.length_cons] at hle heq
    refine ⟨hs.handle, hs.control, hs.owner_eq, ?_, fun hgone => ?_, hs.calm⟩
    · show s.received + 1 + rest.length + s.point.held ≤ s.handle.received
      omega
    · have heq := heq hgone
      show s.received + 1 + rest.length + s.point.held = s.handle.received
      omega
  | _ =>
    obtain ⟨hhandle, hpoint, hreceived, hevents, hthere⟩ :=
      step_owner h (by simp) (by simp) (by simp) (by simp)
    have hle := hs.count_le
    refine ⟨hhandle ▸ hs.handle, hhandle ▸ hs.control, ?_, ?_, fun hgone => ?_, hhandle ▸ hs.calm⟩
    · rw [hhandle, hpoint]
      exact hs.owner_eq
    · rw [hhandle, hpoint, hreceived]
      omega
    · rw [hhandle, hpoint, hreceived, (hthere hgone).2]
      exact hs.count_eq (hthere hgone).1

theorem coherent_run {acts : List QueuedAct} (h : run (step d) start acts = some s) :
    s.Coherent d :=
  invariant (fun _ _ _ hs hstep => coherent_step hs hstep) coherent_start h

theorem startJoin_of (howner : s.handle.owner = .holding) :
    s.startJoin d =
      some { s with handle := { s.handle with owner := .joining }, point := .joining } := by
  rw [startJoin, Underway.step, if_pos howner]
  rfl

theorem work_of_works (hs : s.Coherent d) (h : Works d s s') : s.work d = some s' := by
  have howner := hs.owner_eq
  cases h with
  | reads hpoint hevents hheld =>
    rw [work, hpoint]
    show (match s.handle.events with | event :: _ => _ | [] => _) = _
    rw [hevents]
    show (s.handle.step d .nextEvent).map _ = _
    rw [Underway.step_nextEvent_of hheld hevents]
    rfl
  | ends hpoint hevents hsent hdone =>
    rw [hpoint] at howner
    rw [work, hpoint]
    show (match s.handle.events with | event :: _ => _ | [] => _) = _
    rw [hevents]
    exact (if_pos ⟨hsent, hdone⟩).trans (startJoin_of howner)
  | stops hpoint hgone =>
    rw [hpoint] at howner
    rw [work, hpoint]
    exact (if_pos hgone).trans (startJoin_of howner)
  | sends hpoint hthere hroom =>
    rw [work, hpoint]
    exact (if_neg hthere).trans (if_pos hroom)
  | delivers hpoint hsent hdone =>
    rw [hpoint] at howner
    have hdeliver : s.handle.step d .deliver = some { s.handle with owner := .joined } :=
      if_pos ⟨howner, hsent, hdone⟩
    rw [work, hpoint]
    show (s.handle.step d .deliver).map _ = _
    rw [hdeliver]
    rfl

theorem step_send_of (hs : s.Coherent d)
    (hlt : s.handle.sent < (d.emits s.handle.turns).length)
    (hroom : s.handle.events.length < eventCapacity) :
    s.step d .send = some { s with handle := { s.handle with
      sent := s.handle.sent + 1
      events := s.handle.events ++ [(d.emits s.handle.turns)[s.handle.sent]] } } := by
  rw [step, Underway.step_send_of hs.handle_held hlt hroom]
  rfl

/-! ### Waiting for ever -/

/-- What has filled a channel was not read by the owner. -/
theorem Coherent.emits_of_wedged (hs : s.Coherent d) (h : s.Wedged d) :
    s.received + eventCapacity < (d.emits s.handle.turns).length := by
  have hlen := hs.handle.events_length hs.handle_held
  have hsent := hs.handle.sent_le
  cases h with
  | inl h =>
    obtain ⟨⟨event, hpoint⟩, hjoining, hfull⟩ := h
    have hcount := hs.count_eq (by rw [hjoining]; simp)
    rw [hpoint] at hcount
    have hcount : s.received + s.events.length + 1 = s.handle.received := hcount
    omega
  | inr h =>
    obtain ⟨-, hlt, -, hfull⟩ := h
    have hcount := hs.count_le
    omega

/-- A worker that is wedged stays so, whatever the task and the owner do. -/
theorem wedged_step (hs : s.Coherent d) (hw : s.Wedged d) (h : s.step d act = some s') :
    s'.Wedged d := by
  cases hw with
  | inl hw =>
    obtain ⟨⟨event, hpoint⟩, hjoining, hfull⟩ := hw
    cases act with
    | turn turn =>
      obtain ⟨-, -, -, rfl⟩ := step_turn hs h
      exact Or.inl ⟨⟨event, hpoint⟩, hjoining, hfull⟩
    | send =>
      obtain ⟨-, -, -, rfl⟩ := step_send hs h
      exact Or.inl ⟨⟨event, hpoint⟩, hjoining, hfull⟩
    | work =>
      cases works_of_work h with
      | reads hother | ends hother | delivers hother => simp [hpoint] at hother
      | stops _ hgone => simp [hjoining] at hgone
      | sends _ _ hroom => exact absurd hroom (Nat.not_lt.mpr hfull)
    | nextEvent => simp [step, hjoining] at h
    | join => simp [step, hjoining] at h
    | drop => simp [step, hjoining] at h
    | deliver => simp [step, hpoint] at h
  | inr hw =>
    obtain ⟨hpoint, hblocked⟩ := hw
    cases act with
    | turn turn =>
      obtain ⟨-, hsent, -, -⟩ := step_turn hs h
      exact absurd hsent (Nat.ne_of_lt hblocked.1)
    | send =>
      obtain ⟨-, -, hroom, -⟩ := step_send hs h
      exact absurd hroom (Nat.not_lt.mpr hblocked.2.2)
    | work =>
      cases works_of_work h with
      | reads hother | ends hother | stops hother | sends hother => simp [hpoint] at hother
      | delivers _ hsent _ => exact absurd hsent (Nat.ne_of_lt hblocked.1)
    | nextEvent =>
      obtain ⟨-, -, -, -, rfl⟩ := step_nextEvent h
      exact Or.inr ⟨hpoint, hblocked⟩
    | _ =>
      obtain ⟨hhandle, hpoint', -, -, -⟩ := step_owner h (by simp) (by simp) (by simp) (by simp)
      exact Or.inr ⟨hpoint'.trans hpoint, hhandle ▸ hblocked⟩

/-! ### Returning to the queue -/

/-- What is left to do until the worker returns. -/
def left (d : Download) (s : QueuedJob) : Nat :=
  3 * ((d.emits s.handle.turns).length - s.handle.sent) + 2 * s.handle.events.length +
    s.point.left

/-- A worker whose download is done, and whose owner is not too far behind, has a step to
do, or its task has. -/
theorem exists_ours (hs : s.Coherent d) (hdone : s.Done d)
    (hfew : (d.emits s.handle.turns).length ≤ s.received + eventCapacity)
    (hpoint : s.point ≠ .delivered) :
    ∃ act s', IsOurs act ∧ s.step d act = some s' ∧ s'.left d < s.left d ∧
      s'.handle.turns = s.handle.turns ∧ s'.received = s.received := by
  have hlen := hs.handle.events_length hs.handle_held
  have hsent := hs.handle.sent_le
  have hcount := hs.count_le
  -- the task sends, when its channel has room
  have hsends : s.handle.sent < (d.emits s.handle.turns).length →
      s.handle.events.length < eventCapacity → ∃ act s', IsOurs act ∧ s.step d act = some s' ∧
        s'.left d < s.left d ∧ s'.handle.turns = s.handle.turns ∧ s'.received = s.received := by
    intro hlt hroom
    refine ⟨.send, _, Or.inl rfl, step_send_of hs hlt hroom, ?_, rfl, rfl⟩
    simp only [left, List.length_append, List.length_singleton]
    omega
  -- or the worker works
  have hworks : ∀ s', Works d s s' → s'.left d < s.left d → s'.handle.turns = s.handle.turns →
      s'.received = s.received → ∃ act s', IsOurs act ∧ s.step d act = some s' ∧
        s'.left d < s.left d ∧ s'.handle.turns = s.handle.turns ∧ s'.received = s.received :=
    fun s' hw hleft hturns hreceived =>
      ⟨.work, s', Or.inr rfl, work_of_works hs hw, hleft, hturns, hreceived⟩
  have howner := hs.owner_eq
  cases hp : s.point with
  | receiving =>
    rw [hp] at howner
    cases hevents : s.handle.events with
    | cons event rest =>
      refine hworks _ (Works.reads hp hevents howner) ?_ rfl rfl
      simp only [left, hp, hevents, List.length_cons, RunJobPoint.left]
      omega
    | nil =>
      cases Nat.lt_or_eq_of_le hsent with
      | inl hlt => exact hsends hlt (by rw [hevents]; decide)
      | inr heq =>
        refine hworks _ (Works.ends hp hevents heq hdone) ?_ rfl rfl
        simp only [left, hp, RunJobPoint.left]
        omega
  | sending event =>
    by_cases hgone : s.owner = .gone
    · refine hworks _ (Works.stops hp hgone) ?_ rfl rfl
      simp only [left, hp, RunJobPoint.left]
      omega
    · have heq := hs.count_eq hgone
      rw [hp] at heq
      have heq : s.received + s.events.length + 1 = s.handle.received := heq
      refine hworks _ (Works.sends hp hgone (by omega)) ?_ rfl rfl
      simp only [left, hp, RunJobPoint.left]
      omega
  | joining =>
    cases Nat.lt_or_eq_of_le hsent with
    | inl hlt => exact hsends hlt (by omega)
    | inr heq =>
      refine hworks _ (Works.delivers hp heq hdone) ?_ rfl rfl
      simp only [left, hp, RunJobPoint.left]
      omega
  | delivered => exact absurd hp hpoint

theorem canReturn (hs : s.Coherent d) (hdone : s.Done d)
    (hfew : (d.emits s.handle.turns).length ≤ s.received + eventCapacity) : s.CanReturn d := by
  induction hleft : s.left d using Nat.strong_induction_on generalizing s with
  | _ left ih =>
    by_cases hpoint : s.point = .delivered
    · exact ⟨[], s, by simp, rfl, hpoint⟩
    · obtain ⟨act, s', hours, hstep, hlt, hturns, hreceived⟩ := exists_ours hs hdone hfew hpoint
      obtain ⟨acts, t, hacts, hrun, ht⟩ := ih (s'.left d) (hleft ▸ hlt) (coherent_step hs hstep)
        (by rw [Done, hturns]; exact hdone) (by rw [hturns, hreceived]; exact hfew) rfl
      refine ⟨act :: acts, t, fun a ha => ?_, (run_cons hstep).trans hrun, ht⟩
      cases List.mem_cons.mp ha with
      | inl ha => exact ha ▸ hours
      | inr ha => exact hacts a ha

/-! ### A worker that gets wedged -/

/-- The turns of the task go by under the worker. -/
theorem exists_run_of_turns {acts : List HandleAct} (hacts : ∀ act ∈ acts, ∃ turn, act = .turn turn)
    {handle : Underway} (h : run (Underway.step d) s.handle acts = some handle) :
    ∃ acts', run (step d) s acts' = some { s with handle } := by
  induction acts generalizing s with
  | nil =>
    cases h
    exact ⟨[], rfl⟩
  | cons act acts ih =>
    obtain ⟨turn, rfl⟩ := hacts act List.mem_cons_self
    obtain ⟨first, hfirst, hrest⟩ := run_cons_eq_some.mp h
    have hstep : s.step d (.turn turn) = some { s with handle := first } := by
      rw [step, hfirst]
      rfl
    obtain ⟨acts', hacts'⟩ := ih (s := { s with handle := first })
      (fun a ha => hacts a (List.mem_cons_of_mem _ ha)) hrest
    exact ⟨.turn turn :: acts', (run_cons hstep).trans hacts'⟩

/-- A download that has more to emit hands its next event to a worker that waits for it. -/
theorem exists_run_sending (hs : s.Coherent d) {turns : List Turn} (hturns : s.handle.turns <+: turns)
    (hcalm : ∀ message, Turn.control message ∉ turns) (hpoint : s.point = .receiving)
    (hevents : s.handle.events = []) (hlt : s.handle.sent < (d.emits turns).length) :
    ∃ acts taken event, run (step d) s acts = some { s with
        handle := { s.handle with
          turns := taken
          sent := s.handle.sent + 1
          events := []
          received := s.handle.received + 1 }
        point := .sending event } ∧ taken <+: turns := by
  obtain ⟨rest, hrest⟩ := hturns
  have howner : s.handle.owner = .holding := by
    rw [hs.owner_eq, hpoint]
    rfl
  obtain ⟨acts, taken, hacts, hrun, htaken, hmore⟩ := Underway.run_until_emits hrest (hcalm none)
    howner hs.control hs.handle.sent_le hlt
  obtain ⟨acts', hrun'⟩ := exists_run_of_turns (fun act hact => by
    cases hacts act hact with
    | inl hturn => exact hturn
    | inr hcontrol =>
      obtain ⟨message, -, hmem⟩ := hcontrol
      exact absurd hmem (hcalm (some message))) hrun
  have hs₁ : Coherent d { s with handle := { s.handle with turns := taken } } :=
    invariant (fun _ _ _ hs hstep => coherent_step hs hstep) hs hrun'
  have hsend := step_send_of hs₁ hmore (by
    show s.handle.events.length < eventCapacity
    rw [hevents]
    decide)
  have hevents' : s.handle.events ++ [(d.emits taken)[s.handle.sent]] =
      (d.emits taken)[s.handle.sent] :: [] := by rw [hevents, List.nil_append]
  have hwork := work_of_works (coherent_step hs₁ hsend)
    (Works.reads hpoint hevents' howner)
  exact ⟨acts' ++ [.send, .work], taken, _, run_append_eq_some.mpr
    ⟨_, hrun', (run_cons hsend).trans ((run_cons hwork).trans run_nil)⟩, htaken⟩

/-- An owner that reads the first `k` events, as they come, has the worker send on as many
as its channel takes besides. -/
theorem exists_run_relayed {turns : List Turn} (hcalm : ∀ message, Turn.control message ∉ turns)
    {k n : Nat} (hemits : n ≤ (d.emits turns).length) (hroom : n ≤ k + eventCapacity) :
    ∃ acts s, run (step d) start acts = some s ∧ s.handle.turns <+: turns ∧
      s.handle.sent = n ∧ s.handle.events = [] ∧ s.point = .receiving ∧ s.received = min n k ∧
      s.owner = .holding := by
  induction n with
  | zero =>
    exact ⟨[], start, rfl, List.nil_prefix, rfl, rfl, rfl, (Nat.zero_min k).symm, rfl⟩
  | succ n ih =>
    obtain ⟨acts, s, hrun, hturns, hsent, hevents, hpoint, hreceived, hheld⟩ :=
      ih (Nat.le_of_succ_le hemits) (Nat.le_of_succ_le hroom)
    have hs : s.Coherent d := coherent_run hrun
    have hthere : s.owner ≠ .gone := by rw [hheld]; simp
    -- every event the worker has read was sent on
    have hcount : s.received + s.events.length = s.handle.received := by
      have heq := hs.count_eq hthere
      rwa [hpoint] at heq
    have hlen := hs.handle.events_length hs.handle_held
    rw [hevents, List.length_nil] at hlen
    have hcapacity : 0 < eventCapacity := by decide
    obtain ⟨acts', taken, event, hrun', htaken⟩ :=
      exists_run_sending hs hturns hcalm hpoint hevents (by omega)
    have hrun₁ := run_append_eq_some.mpr ⟨_, hrun, hrun'⟩
    obtain ⟨next, hnext⟩ : ∃ next : QueuedJob, next = { s with
        handle := { s.handle with
          turns := taken
          sent := s.handle.sent + 1
          events := []
          received := s.handle.received + 1 }
        events := s.events ++ [event]
        point := .receiving } := ⟨_, rfl⟩
    have hsends : run (step d) start (acts ++ acts' ++ [.work]) = some next := by
      have hwork := work_of_works (coherent_run hrun₁)
        (Works.sends rfl hthere (by show s.events.length < eventCapacity; omega))
      rw [hnext]
      exact run_append_eq_some.mpr ⟨_, hrun₁, (run_cons hwork).trans run_nil⟩
    have hsent' : next.handle.sent = n + 1 := by
      rw [hnext]
      exact congrArg (· + 1) hsent
    by_cases hread : n < k
    · -- the owner is still reading
      have hempty : s.events = [] := List.eq_nil_of_length_eq_zero (by omega)
      have hreads : next.step d .nextEvent =
          some { next with events := [], received := next.received + 1 } := by
        rw [step, hnext]
        show (match s.owner, s.events ++ [event] with
          | .holding, _ :: rest => _ | _, _ => none) = _
        rw [hheld, hempty]
        rfl
      refine ⟨_, _, run_append_eq_some.mpr ⟨_, hsends, (run_cons hreads).trans run_nil⟩, ?_,
        hsent', ?_, ?_, ?_, ?_⟩
      · rw [hnext]
        exact htaken
      · rw [hnext]
      · rw [hnext]
      · rw [hnext]
        show s.received + 1 = min (n + 1) k
        omega
      · rw [hnext]
        exact hheld
    · refine ⟨_, next, hsends, ?_, hsent', ?_, ?_, ?_, ?_⟩
      · rw [hnext]
        exact htaken
      · rw [hnext]
      · rw [hnext]
      · rw [hnext]
        show s.received = min (n + 1) k
        omega
      · rw [hnext]
        exact hheld

/-- A download that emits more than its owner reads and the channel takes wedges its worker
when the owner awaits the result. -/
theorem exists_wedged {turns : List Turn} (hcalm : ∀ message, Turn.control message ∉ turns)
    {k : Nat} (hemits : k + eventCapacity < (d.emits turns).length) :
    ∃ acts s, run (step d) start acts = some s ∧ s.handle.turns <+: turns ∧ s.received = k ∧
      s.Wedged d := by
  obtain ⟨acts, s, hrun, hturns, hsent, hevents, hpoint, hreceived, hheld⟩ :=
    exists_run_relayed hcalm (Nat.le_of_lt hemits) (Nat.le_refl _)
  have hs : s.Coherent d := coherent_run hrun
  have hcount : s.received + s.events.length = s.handle.received := by
    have heq := hs.count_eq (by rw [hheld]; simp)
    rwa [hpoint] at heq
  have hlen := hs.handle.events_length hs.handle_held
  rw [hevents, List.length_nil] at hlen
  obtain ⟨acts', taken, event, hrun', htaken⟩ :=
    exists_run_sending hs hturns hcalm hpoint hevents (hsent ▸ hemits)
  have hjoin : step d { s with
        handle := { s.handle with
          turns := taken
          sent := s.handle.sent + 1
          events := []
          received := s.handle.received + 1 }
        point := .sending event } .join = some { s with
        handle := { s.handle with
          turns := taken
          sent := s.handle.sent + 1
          events := []
          received := s.handle.received + 1 }
        point := .sending event
        owner := .joining } := if_pos hheld
  refine ⟨_, _, run_append_eq_some.mpr ⟨_, hrun, run_append_eq_some.mpr
    ⟨_, hrun', (run_cons hjoin).trans run_nil⟩⟩, htaken, ?_, Or.inl ⟨⟨event, rfl⟩, rfl, ?_⟩⟩
  · show s.received = k
    omega
  · show eventCapacity ≤ s.events.length
    omega

end Step

end QueuedJob

end DigDownload
