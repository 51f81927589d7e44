import DigDownload.Queue.Workers

/-!
# What the owner of a queued download sees

The events of a queued download come to its owner by way of its worker, through two channels.
They come as the download emitted them: none is lost on the way, none comes twice, and none
before another that was emitted earlier, as if the owner held the handle of the download itself.
-/

namespace DigDownload

open Runs

/-- The event that the worker holds. -/
def RunJobPoint.event? : RunJobPoint → Option DownloadEvent
  | .sending event => some event
  | .receiving | .joining | .delivered => none

namespace QueuedJob

/-- What the owner reads. -/
def reads (s : QueuedJob) : QueuedAct → List DownloadEvent
  | .nextEvent => if s.owner = .holding then s.events.take 1 else []
  | .turn _ | .send | .work | .join | .drop | .deliver => []

/-- What the owner has seen of its download is how the events of the download begin. As long as
the owner is there, those that the worker has read are seen, in the channel or with the worker;
and when the worker has delivered the result, the rest is in the channel and no more will come. -/
structure Relays (d : Download) (seen : List DownloadEvent) (s : QueuedJob) : Prop where
  inOrder : seen <+: d.emits s.handle.turns
  relayed : s.owner ≠ .gone →
    seen ++ s.events ++ s.point.event?.toList =
      (d.emits s.handle.turns).take s.handle.received
  complete : s.owner ≠ .gone → s.point = .joining ∨ s.point = .delivered →
    seen ++ s.events = d.emits s.handle.turns ∧ ¬ d.Waits s.handle.turns
  joined : s.owner = .joined → s.point = .delivered

variable {d : Download} {s s' : QueuedJob} {act : QueuedAct} {seen : List DownloadEvent}

theorem relays_start : start.Relays d [] where
  inOrder := List.nil_prefix
  relayed := fun _ => rfl
  complete := fun _ hpoint => by rcases hpoint with hpoint | hpoint <;> cases hpoint
  joined := fun h => by cases h

/-- The task goes on only while it has not ended, and what it has emitted stays. -/
theorem Relays.turn (h : s.Relays d seen) (hs : s.Coherent d) {turn : Turn}
    (hwaits : d.Waits s.handle.turns) :
    Relays d seen { s with handle := { s.handle with turns := s.handle.turns ++ [turn] } } where
  inOrder := h.inOrder.trans Download.emits_prefix_append
  relayed hthere := by
    have hpre : d.emits s.handle.turns <+: d.emits (s.handle.turns ++ [turn]) :=
      Download.emits_prefix_append
    obtain ⟨more, hmore⟩ := hpre
    have hle := hs.handle.received_le.trans hs.handle.sent_le
    show seen ++ s.events ++ s.point.event?.toList =
      (d.emits (s.handle.turns ++ [turn])).take s.handle.received
    rw [h.relayed hthere, ← hmore, List.take_append_of_le_length hle]
  complete hthere hpoint := absurd hwaits (h.complete hthere hpoint).2
  joined := h.joined

theorem Relays.works (h : s.Relays d seen) (hs : s.Coherent d) (hworks : Works d s s') :
    Relays d seen s' := by
  cases hworks with
  | @reads event rest hpoint hevents _ =>
    refine ⟨h.inOrder, fun hthere => ?_, fun _ hother => ?_, fun hjoined => ?_⟩
    · have hnext : (d.emits s.handle.turns)[s.handle.received]? = some event := by
        have hheld := hs.handle.events_eq hs.handle_held
        have hsome : (((d.emits s.handle.turns).take s.handle.sent).drop
            s.handle.received)[0]? = some event := by rw [← hheld, hevents]; rfl
        rw [List.getElem?_drop, Nat.add_zero, List.getElem?_take] at hsome
        split at hsome
        · exact hsome
        · cases hsome
      have hbefore := h.relayed hthere
      rw [hpoint, show RunJobPoint.receiving.event?.toList = [] from rfl, List.append_nil]
        at hbefore
      show seen ++ s.events ++ [event] = (d.emits s.handle.turns).take (s.handle.received + 1)
      rw [hbefore, List.take_add_one, hnext]
      rfl
    · rcases hother with hother | hother <;> cases hother
    · have hdelivered := h.joined hjoined
      rw [hpoint] at hdelivered
      cases hdelivered
  | ends hpoint hevents hsent hended =>
    have hdrained : s.handle.received = (d.emits s.handle.turns).length := by
      have hlen := hs.handle.events_length hs.handle_held
      rw [hevents, List.length_nil, Nat.zero_add] at hlen
      rw [hlen, hsent]
    refine ⟨h.inOrder, fun hthere => ?_, fun hthere _ => ?_, fun hjoined => ?_⟩
    · have hbefore := h.relayed hthere
      rwa [hpoint] at hbefore
    · have hbefore := h.relayed hthere
      rw [hpoint, hdrained, List.take_length] at hbefore
      exact ⟨by rwa [← List.append_nil (seen ++ s.events)], hended⟩
    · have hdelivered := h.joined hjoined
      rw [hpoint] at hdelivered
      cases hdelivered
  | stops hpoint hgone =>
    refine ⟨h.inOrder, fun hthere => absurd hgone hthere, fun hthere => absurd hgone hthere,
      fun hjoined => ?_⟩
    have hgone : HandleOwner.joined = .gone := hjoined.symm.trans hgone
    cases hgone
  | @sends event hpoint hthere _ =>
    refine ⟨h.inOrder, fun hthere => ?_, fun _ hother => ?_, fun hjoined => ?_⟩
    · have hbefore := h.relayed hthere
      rw [hpoint] at hbefore
      show seen ++ (s.events ++ [event]) ++ [] = _
      rw [List.append_nil, ← List.append_assoc]
      exact hbefore
    · rcases hother with hother | hother <;> cases hother
    · have hdelivered := h.joined hjoined
      rw [hpoint] at hdelivered
      cases hdelivered
  | delivers hpoint _ _ =>
    refine ⟨h.inOrder, fun hthere => ?_, fun hthere _ => h.complete hthere (Or.inl hpoint),
      fun _ => rfl⟩
    have hbefore := h.relayed hthere
    rwa [hpoint] at hbefore

/-- Each step of the task, of the worker and of the owner keeps the events in order. -/
theorem Relays.step (h : s.Relays d seen) (hs : s.Coherent d) (hstep : s.step d act = some s') :
    Relays d (seen ++ s.reads act) s' := by
  cases act with
  | turn turn =>
    obtain ⟨-, -, hwaits, rfl⟩ := step_turn hs hstep
    rw [reads, List.append_nil]
    exact h.turn hs hwaits
  | send =>
    obtain ⟨event, -, -, rfl⟩ := step_send hs hstep
    rw [reads, List.append_nil]
    exact ⟨h.inOrder, h.relayed, h.complete, h.joined⟩
  | work =>
    rw [reads, List.append_nil]
    exact h.works hs (works_of_work hstep)
  | nextEvent =>
    obtain ⟨event, rest, howner, hevents, rfl⟩ := step_nextEvent hstep
    have hthere : s.owner ≠ .gone := by rw [howner]; simp
    have hall : seen ++ [event] ++ rest = seen ++ s.events := by
      rw [hevents, List.append_assoc, List.singleton_append]
    rw [reads, if_pos howner, hevents, List.take_succ_cons, List.take_zero]
    refine ⟨?_, fun _ => ?_, fun _ hpoint => ?_, fun hjoined => ?_⟩
    · have hread : seen ++ [event] <+: seen ++ s.events ++ s.point.event?.toList := by
        rw [← hall, List.append_assoc _ rest]
        exact List.prefix_append _ _
      rw [h.relayed hthere] at hread
      exact hread.trans (List.take_prefix _ _)
    · show seen ++ [event] ++ rest ++ s.point.event?.toList = _
      rw [hall]
      exact h.relayed hthere
    · show seen ++ [event] ++ rest = _ ∧ _
      rw [hall]
      exact h.complete hthere hpoint
    · have hholding : HandleOwner.joined = .holding := hjoined.symm.trans howner
      cases hholding
  | join =>
    rw [QueuedJob.step, Option.ite_none_right_eq_some] at hstep
    obtain ⟨hholding, hstep⟩ := hstep
    cases hstep
    have hthere : s.owner ≠ .gone := by rw [hholding]; simp
    rw [reads, List.append_nil]
    exact ⟨h.inOrder, fun _ => h.relayed hthere, fun _ => h.complete hthere,
      fun hjoined => by cases hjoined⟩
  | drop =>
    rw [QueuedJob.step, Option.ite_none_right_eq_some] at hstep
    cases hstep.2
    rw [reads, List.append_nil]
    exact ⟨h.inOrder, fun hthere => absurd rfl hthere, fun hthere => absurd rfl hthere,
      fun hjoined => by cases hjoined⟩
  | deliver =>
    rw [QueuedJob.step, Option.ite_none_right_eq_some] at hstep
    obtain ⟨⟨hjoining, hdelivered⟩, hstep⟩ := hstep
    cases hstep
    have hthere : s.owner ≠ .gone := by rw [hjoining]; simp
    rw [reads, List.append_nil]
    exact ⟨h.inOrder, fun _ => h.relayed hthere, fun _ => h.complete hthere,
      fun _ => hdelivered⟩

end QueuedJob

namespace DownloadQueue

/-- What the owner of a job reads. -/
def reads (job : Nat) (s : DownloadQueue) : QueueAct → List DownloadEvent
  | .owner owned act =>
    if owned = job then (s.jobs[job]?).elim [] fun queued => queued.2.reads act else []
  | .submit _ | .close | .lock _ | .receive _ | .unlock _ | .start _ | .finish _ | .run _ _ => []

/-- What the owner of a job has seen in a run of the queue. -/
def seen (maxActive job : Nat) (acts : List QueueAct) : List DownloadEvent :=
  shown step (reads job) (new maxActive) acts

/-- The owner of a job sees the events of its download; before the submission there are none. -/
structure Relaying (maxActive job : Nat) (seen : List DownloadEvent) (s : DownloadQueue) : Prop where
  accounted : s.Accounted maxActive
  unborn : s.jobs.length ≤ job → seen = []
  relays : ∀ d queued, s.jobs[job]? = some (d, queued) → queued.Relays d seen

variable {maxActive job : Nat} {s s' : DownloadQueue} {act : QueueAct} {seen : List DownloadEvent}

theorem relaying_new : (new maxActive).Relaying maxActive job [] where
  accounted := accounted_new
  unborn := fun _ => rfl
  relays := fun _ _ h => by simp [new] at h

/-- A step of one job is seen by its own owner only. -/
theorem Relaying.stepJob (h : s.Relaying maxActive job seen) {other : Nat} {act : QueuedAct}
    (hstep : s.stepJob other act = some s') (haccounted : s'.Accounted maxActive) :
    s'.Relaying maxActive job (seen ++
      if other = job then (s.jobs[job]?).elim [] fun queued => queued.2.reads act else []) := by
  obtain ⟨d, queued, queued', hjob, hmoved, rfl⟩ := stepJob_eq hstep
  obtain ⟨hlt, -⟩ := List.getElem?_eq_some_iff.mp hjob
  by_cases hsame : other = job
  · subst hsame
    rw [if_pos rfl, hjob, Option.elim_some]
    refine ⟨haccounted, fun hle => ?_, fun d' last hlast => ?_⟩
    · rw [List.length_set] at hle
      exact absurd hlt hle.not_gt
    · rw [List.getElem?_set_self hlt] at hlast
      cases hlast
      exact (h.relays d queued hjob).step
        (h.accounted.coherent d queued (List.mem_of_getElem? hjob)) hmoved
  · rw [if_neg hsame, List.append_nil]
    refine ⟨haccounted, fun hle => ?_, fun d' last hlast => ?_⟩
    · rw [List.length_set] at hle
      exact h.unborn hle
    · rw [List.getElem?_set_ne hsame] at hlast
      exact h.relays d' last hlast

/-- What is no step of a job is seen by nobody. -/
theorem Relaying.still (h : s.Relaying maxActive job seen) (hjobs : s'.jobs = s.jobs)
    (haccounted : s'.Accounted maxActive) : s'.Relaying maxActive job seen :=
  ⟨haccounted, fun hle => h.unborn (hjobs ▸ hle), fun d queued hq => h.relays d queued (hjobs ▸ hq)⟩

theorem Relaying.submit (h : s.Relaying maxActive job seen) {d : Download}
    (hjobs : s'.jobs = s.jobs ++ [(d, QueuedJob.start)]) (haccounted : s'.Accounted maxActive) :
    s'.Relaying maxActive job seen := by
  refine ⟨haccounted, fun hle => h.unborn ?_, fun d' queued hq => ?_⟩
  · rw [hjobs, List.length_append] at hle
    exact Nat.le_of_succ_le hle
  · rw [hjobs] at hq
    rcases getElem?_concat_cases hq with hold | ⟨hnew, hlen⟩
    · exact h.relays d' queued hold
    · cases hnew
      rw [h.unborn hlen.ge]
      exact QueuedJob.relays_start

theorem Relaying.step (h : s.Relaying maxActive job seen) (hstep : s.step act = some s') :
    s'.Relaying maxActive job (seen ++ s.reads job act) := by
  have haccounted := accounted_step h.accounted hstep
  cases act with
  | owner owned act =>
    rw [DownloadQueue.step, Option.ite_none_right_eq_some] at hstep
    exact h.stepJob hstep.2 haccounted
  | run i act =>
    rw [reads, List.append_nil]
    rw [DownloadQueue.step] at hstep
    split at hstep
    · rename_i running _
      split at hstep
      · cases hstep
      · rename_i hours
        have hthen := h.stepJob hstep haccounted
        -- the worker and the task read nothing for the owner
        have hnothing : ∀ queued : QueuedJob, queued.reads act = [] := by
          intro queued
          cases act with
          | turn _ | send | work => rfl
          | nextEvent | join | drop | deliver => exact absurd rfl hours
        have hnone : (if running = job then
            (s.jobs[job]?).elim [] fun queued => queued.2.reads act else []) = [] := by
          split
          · cases s.jobs[job]? with
            | none => rfl
            | some queued => exact hnothing queued.2
          · rfl
        rwa [hnone, List.append_nil] at hthen
    · cases hstep
  | submit d =>
    rw [reads, List.append_nil]
    rw [DownloadQueue.step] at hstep
    split at hstep
    · cases hstep
    · cases hstep
      exact h.submit rfl haccounted
  | close =>
    rw [reads, List.append_nil]
    cases hstep
    exact h.still rfl haccounted
  | lock i =>
    rw [reads, List.append_nil]
    rw [DownloadQueue.step, Option.ite_none_right_eq_some] at hstep
    cases hstep.2
    exact h.still rfl haccounted
  | receive i =>
    rw [reads, List.append_nil]
    rw [DownloadQueue.step, Option.ite_none_right_eq_some] at hstep
    obtain ⟨-, hstep⟩ := hstep
    split at hstep
    · cases hstep
      exact h.still rfl haccounted
    · rw [Option.ite_none_right_eq_some] at hstep
      cases hstep.2
      exact h.still rfl haccounted
  | unlock i | start i =>
    rw [reads, List.append_nil]
    rw [DownloadQueue.step] at hstep
    split at hstep
    · cases hstep
      exact h.still rfl haccounted
    · cases hstep
  | finish i =>
    rw [reads, List.append_nil]
    rw [DownloadQueue.step] at hstep
    split at hstep
    · rw [Option.ite_none_right_eq_some] at hstep
      cases hstep.2
      exact h.still rfl haccounted
    · cases hstep

/-- In every run of a queue of any size, whatever its workers, its downloads and the owners of the
other jobs do, the owner of a job sees the events of its download in order, none twice and none
left out; and once the result is delivered, all of them are seen or wait in its channel. -/
theorem events_reach_owner (maxActive job : Nat) (acts : List QueueAct) (s : DownloadQueue)
    (d : Download) (queued : QueuedJob) (hrun : Runs.run step (new maxActive) acts = some s)
    (hjob : s.jobs[job]? = some (d, queued)) :
    queued.Relays d (DownloadQueue.seen maxActive job acts) := by
  have h : s.Relaying maxActive job ([] ++ shown step (reads job) (new maxActive) acts) :=
    invariant_shown (fun _ _ _ _ hs hstep => hs.step hstep) relaying_new hrun
  exact h.relays d queued hjob

/-- The owner of a small download reads two of its four events and awaits the result. -/
def relayedRun : List QueueAct :=
  [.submit ⟨smallResourceSeams, smallTarget, emptySink, emptyStore⟩, .lock 0, .receive 0, .unlock 0,
    .start 0, .run 0 .send, .run 0 .work, .run 0 .work, .owner 0 .nextEvent,
    .run 0 (.turn (.completed 0)), .run 0 .send, .run 0 .work, .run 0 .work,
    .run 0 (.turn (.completed 0)), .run 0 .send, .run 0 .send, .run 0 .work, .run 0 .work,
    .owner 0 .nextEvent, .run 0 .work, .run 0 .work, .run 0 .work, .run 0 .work, .owner 0 .join,
    .owner 0 .deliver]

theorem events_reach_owner_small : ∃ s d queued, Runs.run step (new 1) relayedRun = some s ∧
    s.jobs[0]? = some (d, queued) ∧ queued.owner = .joined ∧
      (DownloadQueue.seen 1 0 relayedRun).length = 2 ∧ queued.events.length = 2 ∧
        queued.Relays d (DownloadQueue.seen 1 0 relayedRun) := by
  have hends : ((Runs.run step (new 1) relayedRun).bind (·.jobs[0]?)).any (fun job =>
      job.2.owner = .joined ∧ job.2.events.length = 2) = true := by decide +kernel
  obtain ⟨job, hsome, hjob⟩ := (Option.any_eq_true _ _).mp hends
  obtain ⟨s, hrun, hat⟩ := Option.bind_eq_some_iff.mp hsome
  obtain ⟨hjoined, hleft⟩ := of_decide_eq_true hjob
  exact ⟨s, job.1, job.2, hrun, hat, hjoined, by decide +kernel, hleft,
    events_reach_owner 1 0 relayedRun s job.1 job.2 hrun hat⟩

end DownloadQueue

end DigDownload
