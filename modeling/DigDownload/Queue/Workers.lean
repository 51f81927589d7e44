import DigDownload.Queue.RunJob

/-!
# The queue of downloads

Submissions go through one channel whose receiving end the workers of the queue share. A
worker locks it, takes the first job, lets go of the lock and only then starts the job. So
jobs leave the channel in the order in which they were submitted, but two workers that have
taken one each may start them in either order.
-/

namespace DigDownload

open Runs

/-- Where a worker stands in its loop. -/
inductive WorkerPoint where
  | idle
  /-- holds the lock on the channel -/
  | locked
  /-- holds the lock and the job it has received -/
  | received (job : Nat)
  /-- has let go of the lock -/
  | holding (job : Nat)
  /-- has called `Downloader::download` and not delivered the result yet -/
  | running (job : Nat)
  | exited
  deriving DecidableEq

namespace WorkerPoint

def hasLock : WorkerPoint → Bool
  | .locked | .received _ => true
  | _ => false

/-- The job that the worker has taken and not started. -/
def held? : WorkerPoint → Option Nat
  | .received job | .holding job => some job
  | _ => none

def isRunning : WorkerPoint → Bool
  | .running _ => true
  | _ => false

/-- The worker has taken the job and not started it. -/
def holds (job : Nat) (point : WorkerPoint) : Bool := point.held? = some job

end WorkerPoint

/-- A queue: its workers, the jobs by the number of their submission, the channel, whether
the queue was dropped, and the jobs that `Downloader::download` was called on, in order. -/
structure DownloadQueue where
  workers : List WorkerPoint
  jobs : List (Download × QueuedJob)
  waiting : List Nat
  closed : Bool
  started : List Nat

inductive QueueAct where
  | submit (download : Download)
  | close
  | lock (worker : Nat)
  | receive (worker : Nat)
  | unlock (worker : Nat)
  | start (worker : Nat)
  | finish (worker : Nat)
  /-- a worker in `run_job`, or the task of the download it drives -/
  | run (worker : Nat) (act : QueuedAct)
  /-- the owner of a queued handle -/
  | owner (job : Nat) (act : QueuedAct)

/-- What the owner of a queued handle does. -/
def QueuedAct.isOwner : QueuedAct → Bool
  | .nextEvent | .join | .drop | .deliver => true
  | .turn _ | .send | .work => false

namespace DownloadQueue

/-- The cap on active downloads, at least one. -/
def clamp (maxActive : Nat) : Nat := max maxActive 1

def new (maxActive : Nat) : DownloadQueue :=
  ⟨List.replicate (clamp maxActive) .idle, [], [], false, []⟩

/-- A step of a job of the queue. -/
def stepJob (s : DownloadQueue) (job : Nat) (act : QueuedAct) : Option DownloadQueue :=
  match s.jobs[job]? with
  | some (download, queued) =>
    (queued.step download act).map fun queued => { s with jobs := s.jobs.set job (download, queued) }
  | none => none

/-- One step of a worker, of a task or of an owner. -/
def step (s : DownloadQueue) : QueueAct → Option DownloadQueue
  | .submit download =>
    if s.closed then none
    else some { s with
      jobs := s.jobs ++ [(download, QueuedJob.start)]
      waiting := s.waiting ++ [s.jobs.length] }
  | .close => some { s with closed := true }
  | .lock i =>
    if s.workers[i]? = some .idle ∧ s.workers.all (!·.hasLock) then
      some { s with workers := s.workers.set i .locked }
    else none
  | .receive i =>
    if s.workers[i]? = some .locked then
      match s.waiting with
      | job :: rest => some { s with workers := s.workers.set i (.received job), waiting := rest }
      | [] =>
        -- no more submissions
        if s.closed then some { s with workers := s.workers.set i .exited } else none
    else none
  | .unlock i =>
    match s.workers[i]? with
    | some (.received job) => some { s with workers := s.workers.set i (.holding job) }
    | _ => none
  | .start i =>
    match s.workers[i]? with
    | some (.holding job) =>
      some { s with workers := s.workers.set i (.running job), started := s.started ++ [job] }
    | _ => none
  | .finish i =>
    match s.workers[i]? with
    | some (.running job) =>
      if (s.jobs[job]?).any (·.2.point = .delivered) then
        some { s with workers := s.workers.set i .idle }
      else none
    | _ => none
  | .run i act =>
    match s.workers[i]? with
    | some (.running job) => if act.isOwner then none else s.stepJob job act
    | _ => none
  | .owner job act => if act.isOwner then s.stepJob job act else none

/-- How many jobs are between `Downloader::download` and the delivery of their result. -/
def active (s : DownloadQueue) : Nat := s.workers.countP (·.isRunning)

/-- A worker takes a job only while no other one has taken a job that it has not started. -/
def TakesAlone (s : DownloadQueue) (act : QueueAct) : Prop :=
  ∀ i, act = .receive i → ∀ point ∈ s.workers, point.held? = none

/-! ## What a step keeps -/

/-- Every submitted job is started, taken, or waiting, and so once only; the jobs are driven
as `run_job` does it. -/
structure Accounted (maxActive : Nat) (s : DownloadQueue) : Prop where
  workers : s.workers.length = clamp maxActive
  count : ∀ job, s.started.count job + s.workers.countP (·.holds job) + s.waiting.count job =
    if job < s.jobs.length then 1 else 0
  coherent : ∀ download queued, (download, queued) ∈ s.jobs → queued.Coherent download

section Step

variable {maxActive : Nat} {s s' : DownloadQueue} {act : QueueAct}

theorem accounted_new : (new maxActive).Accounted maxActive where
  workers := List.length_replicate
  count := fun job => by
    have hnone : ∀ n, (List.replicate n WorkerPoint.idle).countP (·.holds job) = 0 := by
      intro n
      rw [List.countP_replicate]
      rfl
    simp [new, hnone]
  coherent := fun _ _ h => by simp [new] at h

/-- How many workers hold a job after one of them has moved on. -/
theorem countP_holds_set {i : Nat} {before : WorkerPoint} (h : s.workers[i]? = some before)
    (after : WorkerPoint) (job : Nat) :
    (s.workers.set i after).countP (·.holds job) + (if before.holds job then 1 else 0) =
      s.workers.countP (·.holds job) + (if after.holds job then 1 else 0) := by
  obtain ⟨hi, rfl⟩ := List.getElem?_eq_some_iff.mp h
  rw [List.countP_set hi]
  have hpos : s.workers[i].holds job = true → 0 < s.workers.countP (·.holds job) := fun hp =>
    List.countP_pos_iff.mpr ⟨_, List.getElem_mem hi, hp⟩
  split
  · rename_i hp
    have := hpos hp
    omega
  · omega

theorem stepJob_eq {job : Nat} {act : QueuedAct} (h : s.stepJob job act = some s') :
    ∃ download queued queued', s.jobs[job]? = some (download, queued) ∧
      queued.step download act = some queued' ∧
      s' = { s with jobs := s.jobs.set job (download, queued') } := by
  rw [stepJob] at h
  split at h
  · rename_i download queued hjob
    rw [Option.map_eq_some_iff] at h
    obtain ⟨queued', hstep, rfl⟩ := h
    exact ⟨download, queued, queued', hjob, hstep, rfl⟩
  · cases h

/-- The moves of a worker through its loop. -/
inductive Moves (s : DownloadQueue) (i : Nat) : DownloadQueue → Prop where
  | lock : s.workers[i]? = some .idle → (∀ point ∈ s.workers, point.hasLock = false) →
      Moves s i { s with workers := s.workers.set i .locked }
  | receive {job : Nat} {rest : List Nat} : s.workers[i]? = some .locked → s.waiting = job :: rest →
      Moves s i { s with workers := s.workers.set i (.received job), waiting := rest }
  | exit : s.workers[i]? = some .locked → s.waiting = [] → s.closed = true →
      Moves s i { s with workers := s.workers.set i .exited }
  | unlock {job : Nat} : s.workers[i]? = some (.received job) →
      Moves s i { s with workers := s.workers.set i (.holding job) }
  | start {job : Nat} : s.workers[i]? = some (.holding job) →
      Moves s i { s with
        workers := s.workers.set i (.running job)
        started := s.started ++ [job] }
  | finish {job : Nat} : s.workers[i]? = some (.running job) →
      Moves s i { s with workers := s.workers.set i .idle }

/-- A step submits a job, drops the queue, moves a worker, or goes on with one job. -/
theorem step_cases (h : s.step act = some s') :
    (∃ download, act = .submit download ∧ s.closed = false ∧ s' = { s with
        jobs := s.jobs ++ [(download, QueuedJob.start)]
        waiting := s.waiting ++ [s.jobs.length] }) ∨
    (act = .close ∧ s' = { s with closed := true }) ∨
    (∃ i, Moves s i s' ∧ (s'.waiting ≠ s.waiting → act = .receive i)) ∨
    (∃ job act', s.stepJob job act' = some s') := by
  cases act with
  | submit download =>
    rw [step] at h
    split at h
    · cases h
    · rename_i hopen
      cases h
      exact Or.inl ⟨download, rfl, Bool.eq_false_iff.mpr hopen, rfl⟩
  | close =>
    cases h
    exact Or.inr (Or.inl ⟨rfl, rfl⟩)
  | lock i =>
    rw [step, Option.ite_none_right_eq_some] at h
    cases h.2
    refine Or.inr (Or.inr (Or.inl ⟨i, Moves.lock h.1.1 fun point hpoint => ?_, by simp⟩))
    simpa using List.all_eq_true.mp h.1.2 point hpoint
  | receive i =>
    rw [step, Option.ite_none_right_eq_some] at h
    obtain ⟨hlocked, h⟩ := h
    split at h
    · rename_i job rest hwaiting
      cases h
      exact Or.inr (Or.inr (Or.inl ⟨i, Moves.receive hlocked hwaiting, fun _ => rfl⟩))
    · rename_i hwaiting
      rw [Option.ite_none_right_eq_some] at h
      cases h.2
      exact Or.inr (Or.inr (Or.inl ⟨i, Moves.exit hlocked hwaiting h.1, by simp⟩))
  | unlock i =>
    rw [step] at h
    split at h
    · rename_i job hi
      cases h
      exact Or.inr (Or.inr (Or.inl ⟨i, Moves.unlock hi, by simp⟩))
    · cases h
  | start i =>
    rw [step] at h
    split at h
    · rename_i job hi
      cases h
      exact Or.inr (Or.inr (Or.inl ⟨i, Moves.start hi, by simp⟩))
    · cases h
  | finish i =>
    rw [step] at h
    split at h
    · rename_i job hi
      rw [Option.ite_none_right_eq_some] at h
      cases h.2
      exact Or.inr (Or.inr (Or.inl ⟨i, Moves.finish hi, by simp⟩))
    · cases h
  | run i act =>
    rw [step] at h
    split at h
    · split at h
      · cases h
      · exact Or.inr (Or.inr (Or.inr ⟨_, act, h⟩))
    · cases h
  | owner job act =>
    rw [step, Option.ite_none_right_eq_some] at h
    exact Or.inr (Or.inr (Or.inr ⟨job, act, h.2⟩))

theorem Moves.jobs_eq {i : Nat} (h : Moves s i s') : s'.jobs = s.jobs := by
  cases h <;> rfl

theorem Moves.workers_length {i : Nat} (h : Moves s i s') :
    s'.workers.length = s.workers.length := by
  cases h <;> exact List.length_set

/-- No job is lost or doubled by a move. -/
theorem Moves.count_eq {i : Nat} (h : Moves s i s') (job : Nat) :
    s'.started.count job + s'.workers.countP (·.holds job) + s'.waiting.count job =
      s.started.count job + s.workers.countP (·.holds job) + s.waiting.count job := by
  cases h with
  | lock hi _ =>
    have hset := countP_holds_set hi .locked job
    exact congrArg (_ + · + _) hset
  | exit hi _ _ =>
    have hset := countP_holds_set hi .exited job
    exact congrArg (_ + · + _) hset
  | finish hi =>
    have hset := countP_holds_set hi .idle job
    exact congrArg (_ + · + _) hset
  | @unlock other hi =>
    have hset := countP_holds_set hi (.holding other) job
    exact congrArg (_ + · + _) (Nat.add_right_cancel hset)
  | @receive other rest hi hwaiting =>
    have hset := countP_holds_set hi (.received other) job
    have hcount : s.waiting.count job = rest.count job + if other = job then 1 else 0 := by
      rw [hwaiting, List.count_cons]
      simp
    have hlocked : WorkerPoint.holds job .locked = false := rfl
    have hafter : WorkerPoint.holds job (.received other) = decide (other = job) := by
      simp [WorkerPoint.holds, WorkerPoint.held?]
    rw [hlocked, hafter] at hset
    simp only [decide_eq_true_eq, Bool.false_eq_true, if_false] at hset
    show s.started.count job + (s.workers.set i (.received other)).countP (·.holds job) +
      rest.count job = _
    omega
  | @start other hi =>
    have hset := countP_holds_set hi (.running other) job
    have hcount : (s.started ++ [other]).count job =
        s.started.count job + if other = job then 1 else 0 := by
      rw [List.count_append, List.count_singleton]
      simp
    have hbefore : WorkerPoint.holds job (.holding other) = decide (other = job) := by
      simp [WorkerPoint.holds, WorkerPoint.held?]
    have hafter : WorkerPoint.holds job (.running other) = false := rfl
    rw [hbefore, hafter] at hset
    simp only [decide_eq_true_eq, Bool.false_eq_true, if_false] at hset
    show (s.started ++ [other]).count job + (s.workers.set i (.running other)).countP (·.holds job) +
      s.waiting.count job = _
    omega

theorem accounted_step (hs : s.Accounted maxActive) (h : s.step act = some s') :
    s'.Accounted maxActive := by
  obtain ⟨download, -, -, rfl⟩ | ⟨-, rfl⟩ | ⟨i, hmove, -⟩ | ⟨job, act', hjob⟩ := step_cases h
  · refine ⟨hs.workers, fun job => ?_, fun download' queued hmem => ?_⟩
    · have hcount := hs.count job
      show s.started.count job + s.workers.countP (·.holds job) +
        (s.waiting ++ [s.jobs.length]).count job = _
      rw [List.count_append, List.count_singleton, List.length_append, List.length_singleton]
      simp only [beq_iff_eq]
      split at hcount <;> split <;> split <;> omega
    · cases List.mem_append.mp hmem with
      | inl hmem => exact hs.coherent _ _ hmem
      | inr hmem =>
        cases List.mem_singleton.mp hmem
        exact QueuedJob.coherent_start
  · exact ⟨hs.workers, hs.count, hs.coherent⟩
  · refine ⟨hmove.workers_length.trans hs.workers, fun job => ?_, ?_⟩
    · rw [hmove.count_eq, hs.count, hmove.jobs_eq]
    · rw [hmove.jobs_eq]
      exact hs.coherent
  · obtain ⟨download, queued, queued', hi, hstep, rfl⟩ := stepJob_eq hjob
    refine ⟨hs.workers, fun j => ?_, fun download' other hmem => ?_⟩
    · rw [List.length_set]
      exact hs.count j
    · cases List.mem_or_eq_of_mem_set hmem with
      | inl hmem => exact hs.coherent _ _ hmem
      | inr heq =>
        cases heq
        exact QueuedJob.coherent_step (hs.coherent _ _ (List.mem_of_getElem? hi)) hstep

theorem accounted_run {acts : List QueueAct} (h : Runs.run step (new maxActive) acts = some s) :
    s.Accounted maxActive :=
  invariant (fun _ _ _ hs hstep => accounted_step hs hstep) accounted_new h

/-! ### The order of the starts -/

/-- At most one job is taken and not started, and the jobs started, this one and those that
wait are the submitted jobs in order. -/
def InOrder (s : DownloadQueue) : Prop :=
  ∃ held : Option Nat, (∀ job, held = some job ↔ some job ∈ s.workers.map WorkerPoint.held?) ∧
    s.started ++ held.toList ++ s.waiting = List.range s.jobs.length

theorem InOrder.started_isPrefix (h : s.InOrder) : s.started <+: List.range s.jobs.length := by
  obtain ⟨held, -, heq⟩ := h
  rw [List.append_assoc] at heq
  exact ⟨_, heq⟩

/-- A worker that moves on with what it holds. -/
theorem map_held?_set {i : Nat} {before : WorkerPoint} (h : s.workers[i]? = some before)
    (after : WorkerPoint) (heq : after.held? = before.held?) :
    (s.workers.set i after).map WorkerPoint.held? = s.workers.map WorkerPoint.held? := by
  obtain ⟨hi, rfl⟩ := List.getElem?_eq_some_iff.mp h
  rw [List.map_set, heq]
  refine List.ext_getElem (by simp) fun j hj _ => ?_
  rw [List.getElem_set]
  split
  · rename_i hij
    simp [hij]
  · rfl

theorem inOrder_moves {i : Nat} (hs' : s'.Accounted maxActive)
    (ho : s.InOrder) (hmove : Moves s i s')
    (halone : s'.waiting ≠ s.waiting → ∀ point ∈ s.workers, point.held? = none) : s'.InOrder := by
  obtain ⟨held, hheld, heq⟩ := ho
  cases hmove with
  | lock hi _ =>
    exact ⟨held, fun job => map_held?_set hi .locked rfl ▸ hheld job, heq⟩
  | exit hi _ _ =>
    exact ⟨held, fun job => map_held?_set hi .exited rfl ▸ hheld job, heq⟩
  | finish hi =>
    exact ⟨held, fun job => map_held?_set hi .idle rfl ▸ hheld job, heq⟩
  | @unlock other hi =>
    exact ⟨held, fun job => map_held?_set hi (.holding other) rfl ▸ hheld job, heq⟩
  | @receive job rest hi hwaiting =>
    have hnone := halone (by rw [hwaiting]; simp)
    have hempty : held = none := by
      cases held with
      | none => rfl
      | some other =>
        obtain ⟨point, hpoint, hother⟩ := List.mem_map.mp ((hheld other).mp rfl)
        rw [hnone point hpoint] at hother
        cases hother
    refine ⟨some job, fun other => ?_, ?_⟩
    · constructor
      · intro hjob
        cases hjob
        have hlt := (List.getElem?_eq_some_iff.mp hi).1
        exact List.mem_map.mpr ⟨.received job, List.mem_set hlt _, rfl⟩
      · intro hmem
        obtain ⟨point, hpoint, hother⟩ := List.mem_map.mp hmem
        cases List.mem_or_eq_of_mem_set hpoint with
        | inl hpoint =>
          rw [hnone point hpoint] at hother
          cases hother
        | inr hpoint =>
          rw [hpoint] at hother
          exact hother
    · rw [hempty, hwaiting] at heq
      rw [← heq]
      simp
  | @start job hi =>
    have hjob : held = some job :=
      (hheld job).mpr (List.mem_map.mpr ⟨_, List.mem_of_getElem? hi, rfl⟩)
    refine ⟨none, fun other => ⟨(fun h => by cases h), fun hmem => ?_⟩, ?_⟩
    · exfalso
      obtain ⟨point, hpoint, hother⟩ := List.mem_map.mp hmem
      cases List.mem_or_eq_of_mem_set hpoint with
      | inl hbefore =>
        -- the job is started now, so that nobody holds it
        have hsame := (hheld other).mpr (List.mem_map.mpr ⟨point, hbefore, hother⟩)
        rw [hjob, Option.some.injEq] at hsame
        have hholds : WorkerPoint.holds job point = true := by
          rw [WorkerPoint.holds, hother, hsame]
          exact decide_eq_true rfl
        have hpos : 0 < (s.workers.set i (.running job)).countP (·.holds job) :=
          List.countP_pos_iff.mpr ⟨point, hpoint, hholds⟩
        have hstarted : 0 < (s.started ++ [job]).count job :=
          List.count_pos_iff.mpr (List.mem_append_right _ (List.mem_singleton.mpr rfl))
        have hcount := hs'.count job
        simp only at hcount
        split at hcount <;> omega
      | inr heq' =>
        rw [heq'] at hother
        cases hother
    · show s.started ++ [job] ++ [] ++ s.waiting = _
      rw [hjob] at heq
      rw [List.append_nil]
      exact heq

theorem inOrder_step (hs : s.Accounted maxActive) (ho : s.InOrder) (halone : s.TakesAlone act)
    (h : s.step act = some s') : s'.InOrder := by
  have hs' := accounted_step hs h
  obtain ⟨download, -, -, rfl⟩ | ⟨-, rfl⟩ | ⟨i, hmove, hreceive⟩ | ⟨job, act', hjob⟩ := step_cases h
  · obtain ⟨held, hheld, heq⟩ := ho
    refine ⟨held, hheld, ?_⟩
    show s.started ++ held.toList ++ (s.waiting ++ [s.jobs.length]) = _
    rw [← List.append_assoc, heq, List.length_append, List.length_singleton, List.range_succ]
  · exact ho
  · exact inOrder_moves hs' ho hmove fun hne => halone i (hreceive hne)
  · obtain ⟨download, queued, queued', -, -, rfl⟩ := stepJob_eq hjob
    obtain ⟨held, hheld, heq⟩ := ho
    exact ⟨held, hheld, by rw [List.length_set]; exact heq⟩

theorem inOrder_new : (new maxActive).InOrder := by
  refine ⟨none, fun job => ⟨(fun h => by cases h), fun hmem => ?_⟩, rfl⟩
  obtain ⟨point, hpoint, hjob⟩ := List.mem_map.mp hmem
  rw [List.eq_of_mem_replicate hpoint] at hjob
  cases hjob

/-- The only worker of a queue holds no job when it takes one. -/
theorem takesAlone_of_one (hs : s.Accounted maxActive) (hone : maxActive ≤ 1)
    (h : s.step act = some s') : s.TakesAlone act := by
  rintro i rfl point hpoint
  rw [step, Option.ite_none_right_eq_some] at h
  obtain ⟨hlocked, -⟩ := h
  have hlen : s.workers.length = 1 := by
    rw [hs.workers, clamp]
    omega
  obtain ⟨only, honly⟩ := List.length_eq_one_iff.mp hlen
  have hmem := List.mem_of_getElem? hlocked
  rw [honly, List.mem_singleton] at hpoint hmem
  rw [hpoint, ← hmem]
  rfl

/-- With two workers, the second job may be started first. -/
theorem exists_run_swapped (h : 1 < maxActive) :
    ∃ acts s, Runs.run step (new maxActive) acts = some s ∧ s.started = [1] ∧
      s.jobs.length = 2 := by
  obtain ⟨m, rfl⟩ : ∃ m, maxActive = m + 2 := ⟨maxActive - 2, by omega⟩
  have hworkers : new (m + 2) = ⟨.idle :: .idle :: List.replicate m .idle, [], [], false, []⟩ := by
    rw [new, clamp, Nat.max_eq_left (by omega)]
    rfl
  rw [hworkers]
  have hrun : Runs.run step ⟨.idle :: .idle :: List.replicate m .idle, [], [], false, []⟩
      [.submit stubborn, .submit stubborn, .lock 0, .receive 0, .unlock 0, .lock 1, .receive 1,
        .unlock 1, .start 1] = some ⟨.holding 0 :: .running 1 :: List.replicate m .idle,
        [(stubborn, QueuedJob.start), (stubborn, QueuedJob.start)], [], false, [1]⟩ := by
    simp [Runs.run, step, WorkerPoint.hasLock]
  exact ⟨_, _, hrun, rfl, rfl⟩

/-- No more jobs are active than the cap allows, and no job is started twice. Jobs are
started in the order of their submission as long as no worker takes a job while another
holds one that it has not started; so they always are if and only if the queue has a single
worker. -/
theorem starts_in_order_iff (maxActive : Nat) :
    (∀ acts s, Runs.run step (new maxActive) acts = some s →
      s.active ≤ clamp maxActive ∧ s.started.Nodup ∧
      (Along step TakesAlone (new maxActive) acts → s.started <+: List.range s.jobs.length)) ∧
    ((∀ acts s, Runs.run step (new maxActive) acts = some s →
      s.started <+: List.range s.jobs.length) ↔ maxActive ≤ 1) := by
  have hordered : ∀ acts s, Runs.run step (new maxActive) acts = some s →
      Along step TakesAlone (new maxActive) acts → s.started <+: List.range s.jobs.length := by
    intro acts s hrun halone
    have hboth : s.Accounted maxActive ∧ s.InOrder :=
      invariant_along (I := fun s => s.Accounted maxActive ∧ s.InOrder)
        (fun _ _ _ hI hact hstep =>
          ⟨accounted_step hI.1 hstep, inOrder_step hI.1 hI.2 hact hstep⟩)
        ⟨accounted_new, inOrder_new⟩ halone hrun
    exact hboth.2.started_isPrefix
  refine ⟨fun acts s hrun => ⟨?_, ?_, hordered acts s hrun⟩, fun h => ?_, fun hone acts s hrun => ?_⟩
  · have hs := accounted_run hrun
    rw [← hs.workers]
    exact List.countP_le_length
  · have hs := accounted_run hrun
    refine List.nodup_iff_count_le_one.mpr fun job => ?_
    have hcount := hs.count job
    split at hcount <;> omega
  · by_contra hmore
    obtain ⟨acts, s, hrun, hstarted, hjobs⟩ := exists_run_swapped (Nat.not_le.mp hmore)
    have hpre := h acts s hrun
    rw [hstarted, hjobs] at hpre
    exact absurd hpre (by decide)
  · refine hordered acts s hrun (along_of_run (I := fun s => s.Accounted maxActive) ?_
      accounted_new hrun)
    exact fun s act s' hs hstep => ⟨accounted_step hs hstep, takesAlone_of_one hs hone hstep⟩

/-- Two workers take a job each, and the one with the second job starts it first. -/
theorem starts_out_of_order :
    ¬ ∀ (maxActive : Nat) (acts : List QueueAct) (s : DownloadQueue),
      Runs.run step (new maxActive) acts = some s → s.started <+: List.range s.jobs.length := by
  intro h
  obtain ⟨acts, s, hrun, hstarted, hjobs⟩ := exists_run_swapped (by decide : 1 < 2)
  have hpre := h 2 acts s hrun
  rw [hstarted, hjobs] at hpre
  exact absurd hpre (by decide)

/-! ### The workers and the owners -/

/-- The act of the worker, of its task or of the owner of its job. -/
def onJob (i job : Nat) (act : QueuedAct) : QueueAct :=
  if act.isOwner then .owner job act else .run i act

theorem step_onJob {i job : Nat} {d : Download} {queued queued' : QueuedJob} {act : QueuedAct}
    (hi : s.workers[i]? = some (.running job)) (hjob : s.jobs[job]? = some (d, queued))
    (h : queued.step d act = some queued') :
    s.step (onJob i job act) = some { s with jobs := s.jobs.set job (d, queued') } := by
  have hstep : s.stepJob job act = some { s with jobs := s.jobs.set job (d, queued') } := by
    rw [stepJob, hjob]
    show (queued.step d act).map _ = _
    rw [h]
    rfl
  rw [onJob]
  split
  · rename_i howner
    exact (if_pos howner).trans hstep
  · rename_i hours
    rw [step, hi]
    exact (if_neg hours).trans hstep

/-- A worker drives its job as `run_job` does. -/
theorem run_onJob {i job : Nat} {d : Download} {queued queued' : QueuedJob} {acts : List QueuedAct}
    (hi : s.workers[i]? = some (.running job)) (hjob : s.jobs[job]? = some (d, queued))
    (h : Runs.run (QueuedJob.step d) queued acts = some queued') :
    Runs.run step s (acts.map (onJob i job)) =
      some { s with jobs := s.jobs.set job (d, queued') } := by
  induction acts generalizing s queued with
  | nil =>
    cases h
    obtain ⟨hlt, heq⟩ := List.getElem?_eq_some_iff.mp hjob
    rw [List.map_nil, run_nil, ← heq, List.set_getElem_self]
  | cons act acts ih =>
    obtain ⟨first, hfirst, hrest⟩ := run_cons_eq_some.mp h
    obtain ⟨hlt, -⟩ := List.getElem?_eq_some_iff.mp hjob
    rw [List.map_cons, run_cons (step_onJob hi hjob hfirst)]
    have hthen := ih (s := { s with jobs := s.jobs.set job (d, first) }) hi
      (List.getElem?_set_self hlt) hrest
    rw [hthen, List.set_set]

/-- The worker returns to the queue by its own steps and those of its task. -/
def Returns (s : DownloadQueue) (i : Nat) : Prop :=
  ∃ acts t, (∀ act ∈ acts, (∃ a, QueuedJob.IsOurs a ∧ act = .run i a) ∨ act = .finish i) ∧
    Runs.run step s acts = some t ∧ t.workers[i]? = some .idle

theorem returns_of_canReturn {i job : Nat} {d : Download} {queued : QueuedJob}
    (hi : s.workers[i]? = some (.running job)) (hjob : s.jobs[job]? = some (d, queued))
    (h : queued.CanReturn d) : s.Returns i := by
  obtain ⟨acts, queued', hours, hrun, hdelivered⟩ := h
  obtain ⟨hlt, -⟩ := List.getElem?_eq_some_iff.mp hjob
  obtain ⟨hlt', -⟩ := List.getElem?_eq_some_iff.mp hi
  have hfinish : step { s with jobs := s.jobs.set job (d, queued') } (.finish i) =
      some { s with jobs := s.jobs.set job (d, queued'), workers := s.workers.set i .idle } := by
    rw [step, hi]
    refine if_pos ?_
    rw [List.getElem?_set_self hlt, Option.any_some, hdelivered]
    rfl
  refine ⟨acts.map (onJob i job) ++ [.finish i], _, fun act hact => ?_, run_append_eq_some.mpr
    ⟨_, run_onJob hi hjob hrun, (run_cons hfinish).trans run_nil⟩, List.getElem?_set_self hlt'⟩
  cases List.mem_append.mp hact with
  | inl hact =>
    obtain ⟨a, ha, rfl⟩ := List.mem_map.mp hact
    refine Or.inl ⟨a, hours a ha, ?_⟩
    cases hours a ha with
    | inl hsend => rw [hsend]; rfl
    | inr hwork => rw [hwork]; rfl
  | inr hact => exact Or.inr (List.mem_singleton.mp hact)

/-- The first worker has called `Downloader::download` on the first job. -/
theorem exists_run_started (maxActive : Nat) (d : Download) :
    ∃ acts s, Runs.run step (new maxActive) acts = some s ∧ s.workers[0]? = some (.running 0) ∧
      s.jobs = [(d, QueuedJob.start)] := by
  obtain ⟨m, hm⟩ : ∃ m, clamp maxActive = m + 1 := ⟨clamp maxActive - 1, by rw [clamp]; omega⟩
  have hnew : new maxActive = ⟨.idle :: List.replicate m .idle, [], [], false, []⟩ := by
    rw [new, hm]
    rfl
  have hrun : Runs.run step ⟨.idle :: List.replicate m .idle, [], [], false, []⟩
      [.submit d, .lock 0, .receive 0, .unlock 0, .start 0] =
        some ⟨.running 0 :: List.replicate m .idle, [(d, QueuedJob.start)], [], false, [0]⟩ := by
    simp [Runs.run, step, WorkerPoint.hasLock]
  exact ⟨_, _, hnew ▸ hrun, rfl, rfl⟩

/-- A run of `run_job` with its owner is a run of the queue. -/
theorem exists_run_job (maxActive : Nat) {d : Download} {acts : List QueuedAct} {queued : QueuedJob}
    (h : Runs.run (QueuedJob.step d) QueuedJob.start acts = some queued) :
    ∃ acts s, Runs.run step (new maxActive) acts = some s ∧ s.workers[0]? = some (.running 0) ∧
      s.jobs[0]? = some (d, queued) := by
  obtain ⟨acts', s, hrun, hi, hjobs⟩ := exists_run_started maxActive d
  have hjob : s.jobs[0]? = some (d, QueuedJob.start) := by
    rw [hjobs]
    rfl
  refine ⟨_, _, run_append_eq_some.mpr ⟨_, hrun, run_onJob hi hjob h⟩, hi, ?_⟩
  exact List.getElem?_set_self (List.getElem?_eq_some_iff.mp hjob).1

/-- Up to the first control message. -/
def calmTurns (turns : List Turn) : List Turn :=
  turns.takeWhile fun | .control _ => false | _ => true

theorem calmTurns_calm {turns : List Turn} (message : Option Control) :
    Turn.control message ∉ calmTurns turns := by
  intro hmem
  cases List.mem_takeWhile_imp hmem

theorem prefix_calmTurns {taken turns : List Turn} (h : taken <+: turns)
    (hcalm : ∀ message, Turn.control message ∉ taken) : taken <+: calmTurns turns := by
  obtain ⟨rest, rfl⟩ := h
  rw [calmTurns, List.takeWhile_append_of_pos]
  · exact List.prefix_append _ _
  · intro turn hmem
    cases turn with
    | control message => exact absurd hmem (hcalm message)
    | completed _ | wake | refresh => rfl

/-- In a queue of any size, for an owner that reads `k` events of a download, and then
awaits it or lets go of it, the worker is never wedged, and can return once the download is
done, if and only if the download emits no more than these and one channel takes. -/
theorem workers_return_iff (maxActive : Nat) (d : Download) (turns : List Turn) (k : Nat) :
    (∀ acts s i job queued, Runs.run step (new maxActive) acts = some s →
      s.workers[i]? = some (.running job) → s.jobs[job]? = some (d, queued) →
      queued.handle.turns <+: turns → queued.received = k →
      ¬ queued.Wedged d ∧ (queued.Done d → s.Returns i)) ↔
    (d.emits (calmTurns turns)).length ≤ k + eventCapacity := by
  constructor
  · intro h
    by_contra hmore
    obtain ⟨acts, queued, hrun, hturns, hreceived, hwedged⟩ :=
      QueuedJob.exists_wedged calmTurns_calm (Nat.not_le.mp hmore)
    obtain ⟨acts', s, hrun', hi, hjob⟩ := exists_run_job maxActive hrun
    exact (h acts' s 0 0 queued hrun' hi hjob (hturns.trans (List.takeWhile_prefix _))
      hreceived).1 hwedged
  · intro hfew acts s i job queued hrun hi hjob hturns hreceived
    have hq := (accounted_run hrun).coherent d queued (List.mem_of_getElem? hjob)
    have hemits := (Download.emits_mono (d := d) (prefix_calmTurns hturns hq.calm)).length_le
    refine ⟨fun hwedged => ?_, fun hdone => ?_⟩
    · have hlt := hq.emits_of_wedged hwedged
      omega
    · exact returns_of_canReturn hi hjob (QueuedJob.canReturn hq hdone (by omega))

/-- The owner of a queued download awaits its result and reads nothing. -/
theorem worker_wedged :
    ¬ ∀ (maxActive : Nat) (acts : List QueueAct) (s : DownloadQueue) (i job : Nat) (d : Download)
        (queued : QueuedJob), Runs.run step (new maxActive) acts = some s →
      s.workers[i]? = some (.running job) → s.jobs[job]? = some (d, queued) →
      ¬ queued.Wedged d := by
  intro h
  have hcalm : ∀ message, Turn.control message ∉ List.replicate 257 (Turn.completed 0) := by
    intro message hmem
    cases List.eq_of_mem_replicate hmem
  have hmore : 0 + eventCapacity < (stubborn.emits (List.replicate 257 (.completed 0))).length :=
    le_emits_stubborn 257
  obtain ⟨acts, queued, hrun, -, -, hwedged⟩ := QueuedJob.exists_wedged hcalm hmore
  obtain ⟨acts', s, hrun', hi, hjob⟩ := exists_run_job 3 hrun
  exact h 3 acts' s 0 0 stubborn queued hrun' hi hjob hwedged

end Step

end DownloadQueue

end DigDownload
