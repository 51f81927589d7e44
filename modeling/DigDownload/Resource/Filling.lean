import DigDownload.Resource.Obliging

/-!
# One pass of filling

A pass asks the selector for one plan and hands out pending ranges under it, the first one
first, until the caps are reached, nothing is pending or the plan has no source for the
range whose turn it is. `Filled` says what a pass does, step by step. From it follows to
whom a pass can send a request, and what it leaves undone.
-/

namespace DigDownload

open Prog Relation

/-! ## Plans -/

/-- The source that a plan pins a range to: the first pin of the range counts. -/
def SelectPlan.pin (plan : SelectPlan) (range : Nat) : Option String :=
  (plan.assignments.find? (·.1 = range)).map (·.2)

namespace Job

variable (config : DownloadConfig) (job : Job)

/-- A source that is known and not backing off at the given instant. -/
def IsLive (now : Nat) (peer : String) : Prop :=
  (∃ p ∈ job.providers, p.providerPeerId = peer) ∧ job.tracker.isAvailable peer now = true

/-- What the plan names is live, as far as it has room: whom it orders, and whom it pins a
pending range to. -/
structure KeepsToLive (now : Nat) (plan : SelectPlan) : Prop where
  ordered : ∀ peer ∈ plan.ordered, job.underCap config peer → job.IsLive now peer
  pinned : ∀ range peer, job.rangeState[range]? = some .pending → plan.pin range = some peer →
    job.underCap config peer → job.IsLive now peer

/-- Whom the plan pins a pending range to it also orders, as far as they have room; the range
that comes first may be pinned to anyone. -/
def PinsOrdered (plan : SelectPlan) : Prop :=
  ∀ range peer, job.rangeState[range]? = some .pending → job.nextPending ≠ some range →
    plan.pin range = some peer → job.underCap config peer → peer ∈ plan.ordered

/-- Nothing more could be handed out: the fetches are as many as may be, or the plan offers no
pending range a source with room. -/
def WorkConserved (plan : SelectPlan) : Prop :=
  config.maxConcurrency ≤ job.inflight.length ∨
    ∀ range peer, job.rangeState[range]? = some .pending →
      plan.pin range = some peer ∨ peer ∈ plan.ordered → job.underCap config peer = false

end Job

/-- The plan that a pass from `w` follows. -/
def passPlan (seams : ResourceSeams) (key : String) (w : JobWorld) : SelectPlan :=
  seams.select (w.tick + 1) (w.own.selectRequest key (seams.now w.tick))

/-- What a pass has added to the outstanding fetches goes to live sources, and where it does
not go to the source its range is pinned to, it goes to one that the plan orders. -/
def IssuesLive (plan : SelectPlan) (now : Nat) (job job' : Job) : Prop :=
  ∃ issued, job'.inflight = job.inflight ++ issued ∧
    ∀ fetch ∈ issued, job.IsLive now fetch.peer ∧
      ∀ peer, plan.pin fetch.range = some peer → ¬ job.IsLive now peer → fetch.peer ∈ plan.ordered

/-- What a pass has added to the outstanding fetches, each with a source that was below its cap
when it came to its turn. -/
def IssuesWithRoom (config : DownloadConfig) (job job' : Job) : Prop :=
  ∃ issued, job'.inflight = job.inflight ++ issued ∧
    ∀ before fetch after, issued = before ++ fetch :: after →
      job.inflightOf fetch.peer + before.countP (·.peer = fetch.peer) < config.maxInflightPerSource

/-! ## What a pass does -/

/-- A pass under a plan leads from one job to another. -/
inductive Filled (config : DownloadConfig) (plan : SelectPlan) : Job → Job → Prop where
  | full {job : Job} (hfull : config.maxConcurrency ≤ job.inflight.length) :
      Filled config plan job job
  | nothingPending {job : Job} (hnone : job.nextPending = none) : Filled config plan job job
  | noSource {job : Job} {range : Nat} (hnext : job.nextPending = some range)
      (hpick : job.pickFromPlan config plan range = none) : Filled config plan job job
  | issue {job job' : Job} {range : Nat} {peer : String} (hnext : job.nextPending = some range)
      (hpick : job.pickFromPlan config plan range = some peer)
      (h : Filled config plan (job.issue range peer) job') : Filled config plan job job'

section Filled

variable {seams : ResourceSeams} {config : DownloadConfig} {plan : SelectPlan} {job job' : Job}
  {range now : Nat} {peer : String} {w w' : JobWorld}

/-- A pinned source with room is picked; else it is the first ordered one with room. -/
theorem Job.pickFromPlan_eq :
    job.pickFromPlan config plan range =
      ((plan.pin range).filter (job.underCap config)).or
        (plan.ordered.find? (job.underCap config)) := by
  rw [Job.pickFromPlan, SelectPlan.pin]
  cases plan.assignments.find? (·.1 = range) with
  | none => rfl
  | some pin =>
    by_cases hroom : job.underCap config pin.2
    · simp [Option.filter, hroom]
    · simp [Option.filter, hroom]

/-- Whoever is picked has room, and is pinned to the range or ordered. -/
theorem Job.pickFromPlan_eq_some (h : job.pickFromPlan config plan range = some peer) :
    job.underCap config peer = true ∧
      (plan.pin range = some peer ∨
        peer ∈ plan.ordered ∧ ∀ pinned, plan.pin range = some pinned →
          job.underCap config pinned = false) := by
  rw [Job.pickFromPlan_eq] at h
  cases hpin : (plan.pin range).filter (job.underCap config) with
  | some pinned =>
    rw [hpin] at h
    cases h
    obtain ⟨hmem, hroom⟩ := Option.filter_eq_some_iff.mp hpin
    exact ⟨hroom, Or.inl hmem⟩
  | none =>
    rw [hpin] at h
    have hfind : plan.ordered.find? (job.underCap config) = some peer := h
    refine ⟨List.find?_some hfind, Or.inr ⟨List.mem_of_find?_eq_some hfind, ?_⟩⟩
    intro pinned hpinned
    rw [Option.filter_eq_none_iff] at hpin
    simpa using hpin pinned hpinned

/-- Nobody is picked when no source that is pinned or ordered has room. -/
theorem Job.pickFromPlan_eq_none :
    job.pickFromPlan config plan range = none ↔
      ∀ peer, plan.pin range = some peer ∨ peer ∈ plan.ordered →
        job.underCap config peer = false := by
  rw [Job.pickFromPlan_eq, Option.or_eq_none_iff, Option.filter_eq_none_iff, List.find?_eq_none]
  constructor
  · intro h peer hpeer
    cases hpeer with
    | inl hpin => simpa using h.1 peer hpin
    | inr hmem => simpa using h.2 peer hmem
  · intro h
    constructor
    · intro peer hpin
      simpa using h peer (Or.inl hpin)
    · intro peer hmem
      simpa using h peer (Or.inr hmem)

/-- Handing out a range takes room from its source and gives none to another. -/
theorem Job.underCap_of_issue {q : String} (h : (job.issue range peer).underCap config q = true) :
    job.underCap config q = true := by
  rw [Job.underCap, decide_eq_true_iff] at h ⊢
  rw [Job.inflightOf_issue] at h
  split at h
  · rename_i hq
    rw [hq]
    omega
  · exact h

theorem Job.pending_of_issue {i : Nat}
    (h : (job.issue range peer).rangeState[i]? = some .pending) :
    i ≠ range ∧ job.rangeState[i]? = some .pending := by
  have hset : (job.rangeState.set range (.inFlight peer))[i]? = some .pending := h
  by_cases hi : range = i
  · subst hi
    rw [List.getElem?_set_self'] at hset
    cases hstate : job.rangeState[range]? with
    | none => simp [hstate] at hset
    | some state => simp [hstate] at hset
  · rw [List.getElem?_set_ne hi] at hset
    exact ⟨fun he => hi he.symm, hset⟩

/-- With a step for every pending range, handing out comes to its end. -/
theorem wp_fillFrom_filled (plan : SelectPlan) (fuel : Nat) (w : JobWorld)
    (hfuel : w.own.rangeState.countP (· = .pending) ≤ fuel) :
    wp (fillFrom seams plan fuel) (fun _ w' => Filled seams.config plan w.own w'.own)
      (fun _ _ => False) w := by
  induction fuel generalizing w with
  | zero =>
    refine Filled.nothingPending ?_
    rw [Job.nextPending, List.findIdx?_eq_none_iff]
    intro state hstate
    have hnone := List.countP_eq_zero.mp (Nat.le_zero.mp hfuel) state hstate
    simpa using hnone
  | succ fuel ih =>
    rw [fillFrom, wp_bind, wp_getJob]
    by_cases hfull : seams.config.maxConcurrency ≤ w.own.inflight.length
    · rw [if_pos hfull]
      exact .full hfull
    rw [if_neg hfull]
    cases hnext : w.own.nextPending with
    | none => exact .nothingPending hnext
    | some range =>
      dsimp only
      cases hpick : w.own.pickFromPlan seams.config plan range with
      | none => exact .noSource hnext hpick
      | some peer =>
        dsimp only
        rw [wp_bind, wp_modifyJob, wp_bind, wp_noteJob]
        refine (ih _ ?_).mono (fun _ w' h => .issue hnext hpick h) (fun _ _ h => h)
        obtain ⟨hlt, hget⟩ := List.getElem?_eq_some_iff.mp (Job.nextPending_eq_some hnext)
        show (w.own.rangeState.set range (.inFlight peer)).countP (· = .pending) ≤ fuel
        rw [List.countP_set hlt, hget]
        simp
        omega

theorem wp_fill_filled (seams : ResourceSeams) (key : String) (w : JobWorld) :
    wp (fill seams key)
      (fun _ w' => Filled seams.config (passPlan seams key w) w.own w'.own)
      (fun _ _ => False) w := by
  rw [fill, wp_bind, wp_readClock, wp_bind, wp_getJob, wp_bind, wp_askJob]
  have htick : (w.note (.ask .clock)).tick = w.tick + 1 := by
    simp [World.tick]
  rw [htick]
  exact wp_fillFrom_filled _ _ _ List.countP_le_length

/-! ## Whom a pass asks -/

theorem Job.KeepsToLive.issue (h : job.KeepsToLive config now plan) :
    (job.issue range peer).KeepsToLive config now plan where
  ordered q hq hroom := h.ordered q hq (Job.underCap_of_issue hroom)
  pinned i q hi hpin hroom :=
    h.pinned i q (Job.pending_of_issue hi).2 hpin (Job.underCap_of_issue hroom)

/-- A pass under a plan that keeps to live sources asks live sources only. -/
theorem Filled.issuesLive (h : Filled config plan job job')
    (hplan : job.KeepsToLive config now plan) : IssuesLive plan now job job' := by
  induction h with
  | full => exact ⟨[], by simp, by simp⟩
  | nothingPending => exact ⟨[], by simp, by simp⟩
  | noSource => exact ⟨[], by simp, by simp⟩
  | @issue job job' range peer hnext hpick _ ih =>
    obtain ⟨issued, hissued, hlive⟩ := ih hplan.issue
    obtain ⟨hroom, hnamed⟩ := Job.pickFromPlan_eq_some hpick
    have hpeer : job.IsLive now peer := by
      cases hnamed with
      | inl hpin => exact hplan.pinned range peer (Job.nextPending_eq_some hnext) hpin hroom
      | inr hordered => exact hplan.ordered peer hordered.1 hroom
    refine ⟨_ :: issued, by rw [hissued]; simp [Job.issue]; rfl, ?_⟩
    intro fetch hfetch
    cases hfetch with
    | head =>
      refine ⟨hpeer, fun pinned hpinned hdead => ?_⟩
      cases hnamed with
      | inl hpin =>
        rw [hpin] at hpinned
        cases hpinned
        exact absurd hpeer hdead
      | inr hordered => exact hordered.1
    | tail _ hfetch => exact hlive fetch hfetch

/-- Whatever the plan, a pass gives no source more than its cap. -/
theorem Filled.issuesWithRoom (h : Filled config plan job job') : IssuesWithRoom config job job' := by
  have hnone : ∀ job : Job, IssuesWithRoom config job job := fun job =>
    ⟨[], (List.append_nil _).symm, fun before fetch after hsplit => by cases before <;> cases hsplit⟩
  induction h with
  | full => exact hnone _
  | nothingPending => exact hnone _
  | noSource => exact hnone _
  | @issue job job' range peer hnext hpick _ ih =>
    obtain ⟨issued, hissued, hroom⟩ := ih
    obtain ⟨hunder, -⟩ := Job.pickFromPlan_eq_some hpick
    refine ⟨⟨range, peer, job.providers.find? fun p => p.providerPeerId = peer⟩ :: issued,
      hissued.trans (List.append_assoc ..), ?_⟩
    intro before fetch after hsplit
    cases before with
    | nil =>
      cases hsplit
      exact of_decide_eq_true hunder
    | cons first before =>
      rw [List.cons_append, List.cons.injEq] at hsplit
      obtain ⟨rfl, hsplit⟩ := hsplit
      have hbelow := hroom before fetch after hsplit
      rw [Job.inflightOf_issue] at hbelow
      rw [List.countP_cons]
      by_cases hsame : fetch.peer = peer
      · rw [if_pos hsame] at hbelow
        rw [hsame] at hbelow ⊢
        rw [if_pos (decide_eq_true rfl)]
        omega
      · rw [if_neg hsame] at hbelow
        simpa [Ne.symm hsame] using hbelow

/-- Where in every iteration of a run the plan names live sources only, among those with room,
every pass of the run asks live sources only. -/
theorem fill_keeps_to_live (seams : ResourceSeams) (target : Target) (sink : Sink)
    (store : StateStore)
    (hplans : ∀ w, Visits seams target.content (downloadKey seams target)
      (loopStart seams target sink store) .head w →
      w.own.KeepsToLive seams.config (seams.now w.tick)
        (passPlan seams (downloadKey seams target) w)) :
    ∀ w w', Visits seams target.content (downloadKey seams target)
      (loopStart seams target sink store) .head w →
      fill seams (downloadKey seams target) w = (.ok (), w') →
      IssuesLive (passPlan seams (downloadKey seams target) w) (seams.now w.tick)
        w.own w'.own := by
  intro w w' hvisit hrun
  have hfilled := (wp_of_run_ok hrun).mp (wp_fill_filled seams (downloadKey seams target) w)
  exact hfilled.issuesLive (hplans w hvisit)

theorem Job.isLive_of_candidate {c : CandidateRef} (h : c ∈ job.candidates now) :
    job.IsLive now c.peerId := by
  obtain ⟨p, hp, rfl⟩ := List.mem_map.mp h
  obtain ⟨hknown, havailable⟩ := List.mem_filter.mp hp
  exact ⟨⟨p, hknown, rfl⟩, havailable⟩

/-- A selector that names candidates only keeps to live sources in every pass. -/
theorem ChoosesCandidates.keepsToLive (h : ChoosesCandidates seams) (key : String) (w : JobWorld) :
    w.own.KeepsToLive seams.config (seams.now w.tick) (passPlan seams key w) where
  ordered peer hpeer _ := by
    obtain ⟨c, hc, rfl⟩ := h.ordered _ _ peer hpeer
    exact Job.isLive_of_candidate hc
  pinned range peer _ hpin _ := by
    obtain ⟨pin, hfind, rfl⟩ := Option.map_eq_some_iff.mp hpin
    obtain ⟨c, hc, hid⟩ := h.pinned _ _ pin (List.mem_of_find?_eq_some hfind)
    rw [← hid]
    exact Job.isLive_of_candidate hc

theorem slowLocatorSeams_chooses : ChoosesCandidates slowLocatorSeams where
  ordered t req peer hpeer := by
    have hmem : peer ∈ (req.candidates.map (·.peerId)).rotate t := hpeer
    rw [List.mem_rotate] at hmem
    exact List.mem_map.mp hmem
  pinned t req pin hpin := by cases hpin

/-- The small download with the slow locator, at its first pass. -/
def slowPass : JobWorld :=
  loopStart slowLocatorSeams smallTarget emptySink emptyStore

theorem fill_slowPass :
    fill slowLocatorSeams (downloadKey slowLocatorSeams smallTarget) slowPass
      = (.ok (), (fill slowLocatorSeams (downloadKey slowLocatorSeams smallTarget) slowPass).2) := by
  have hfill : (fill slowLocatorSeams (downloadKey slowLocatorSeams smallTarget) slowPass).1
      = .ok () := by
    decide +kernel
  exact Prod.ext hfill rfl

theorem fill_keeps_to_live_small :
    IssuesLive (passPlan slowLocatorSeams (downloadKey slowLocatorSeams smallTarget) slowPass)
      (slowLocatorSeams.now slowPass.tick) slowPass.own
      (fill slowLocatorSeams (downloadKey slowLocatorSeams smallTarget) slowPass).2.own :=
  fill_keeps_to_live slowLocatorSeams smallTarget emptySink emptyStore
    (fun w _ => slowLocatorSeams_chooses.keepsToLive _ w) _ _ .refl fill_slowPass

/-- The small download with a selector that always pins both ranges to the one holder. -/
def pinningSeams : ResourceSeams :=
  { slowLocatorSeams with
    select := fun _ _ => { ordered := [], assignments := [(0, holderA), (1, holderA)] } }

/-- The second iteration of that download: the holder has refused a range and backs off. -/
def pinningHead : JobWorld :=
  (takeTurn pinningSeams smallTarget.content none (.completed 0)
    (loopHead pinningSeams smallTarget.content "small"
      (loopStart pinningSeams smallTarget emptySink emptyStore)).2).2

/-- The pinned holder is asked again although it is backing off. -/
theorem asks_backed_off_holder :
    ∃ w w', Visits pinningSeams smallTarget.content (downloadKey pinningSeams smallTarget)
        (loopStart pinningSeams smallTarget emptySink emptyStore) .head w ∧
      fill pinningSeams (downloadKey pinningSeams smallTarget) w = (.ok (), w') ∧
      ¬ IssuesLive (passPlan pinningSeams (downloadKey pinningSeams smallTarget) w)
        (pinningSeams.now w.tick) w.own w'.own := by
  have hhead : (loopHead pinningSeams smallTarget.content "small"
      (loopStart pinningSeams smallTarget emptySink emptyStore)).1 = .ok (.waiting none) := by
    decide +kernel
  have hturn : (takeTurn pinningSeams smallTarget.content none (.completed 0)
      (loopHead pinningSeams smallTarget.content "small"
        (loopStart pinningSeams smallTarget emptySink emptyStore)).2).1 = .ok true := by
    decide +kernel
  have hvisit : Visits pinningSeams smallTarget.content "small"
      (loopStart pinningSeams smallTarget emptySink emptyStore) .head pinningHead :=
    (ReflTransGen.single (.wait (Prod.ext hhead rfl))).tail (.turn (Prod.ext hturn rfl))
  have hfill : (fill pinningSeams "small" pinningHead).1 = .ok () := by decide +kernel
  refine ⟨pinningHead, (fill pinningSeams "small" pinningHead).2, hvisit,
    Prod.ext hfill rfl, ?_⟩
  rintro ⟨issued, hissued, hlive⟩
  have hnew : (fill pinningSeams "small" pinningHead).2.own.inflight.map (·.peer)
      = pinningHead.own.inflight.map (·.peer) ++ [holderA] := by decide +kernel
  rw [hissued, List.map_append, List.append_cancel_left_eq, List.map_eq_singleton_iff] at hnew
  obtain ⟨fetch, rfl, hpeer⟩ := hnew
  have hbacking : pinningHead.own.tracker.isAvailable holderA
      (pinningSeams.now pinningHead.tick) = false := by decide +kernel
  have := (hlive fetch List.mem_cons_self).1.2
  rw [hpeer, hbacking] at this
  cases this

/-! ## What a pass leaves undone -/

theorem Job.PinsOrdered.issue (h : job.PinsOrdered config plan)
    (hnext : job.nextPending = some range) : (job.issue range peer).PinsOrdered config plan := by
  intro i q hi _ hpin hroom
  obtain ⟨hne, hpending⟩ := Job.pending_of_issue hi
  refine h i q hpending ?_ hpin (Job.underCap_of_issue hroom)
  rw [hnext]
  exact fun he => hne (Option.some.inj he).symm

/-- A pass under a plan that orders whom it pins hands out all it can. -/
theorem Filled.workConserved (h : Filled config plan job job')
    (hplan : job.PinsOrdered config plan) : job'.WorkConserved config plan := by
  induction h with
  | full hfull => exact Or.inl hfull
  | @nothingPending job hnone =>
    refine Or.inr fun range peer hpending _ => ?_
    rw [Job.nextPending, List.findIdx?_eq_none_iff] at hnone
    simpa using hnone _ (List.mem_of_getElem? hpending)
  | @noSource job first hnext hpick =>
    rw [Job.pickFromPlan_eq_none] at hpick
    refine Or.inr fun range peer hpending hoffer => ?_
    cases hoffer with
    | inr hordered => exact hpick peer (Or.inr hordered)
    | inl hpin =>
      by_cases hfirst : job.nextPending = some range
      · rw [hnext] at hfirst
        cases hfirst
        exact hpick peer (Or.inl hpin)
      · rw [← Bool.not_eq_true]
        intro hroom
        have hordered := hplan range peer hpending hfirst hpin hroom
        rw [hpick peer (Or.inr hordered)] at hroom
        cases hroom
  | issue hnext _ _ ih => exact ih (hplan.issue hnext)

/-- Where in every iteration of a run the plan orders whom it pins, every pass of the run hands
out all it can. -/
theorem fill_conserves_work (seams : ResourceSeams) (target : Target) (sink : Sink)
    (store : StateStore)
    (hplans : ∀ w, Visits seams target.content (downloadKey seams target)
      (loopStart seams target sink store) .head w →
      w.own.PinsOrdered seams.config (passPlan seams (downloadKey seams target) w)) :
    ∀ w w', Visits seams target.content (downloadKey seams target)
      (loopStart seams target sink store) .head w →
      fill seams (downloadKey seams target) w = (.ok (), w') →
      w'.own.WorkConserved seams.config (passPlan seams (downloadKey seams target) w) := by
  intro w w' hvisit hrun
  have hfilled := (wp_of_run_ok hrun).mp (wp_fill_filled seams (downloadKey seams target) w)
  exact hfilled.workConserved (hplans w hvisit)

end Filled

/-- The default selector pins nothing. -/
theorem fill_conserves_work_small :
    (fill slowLocatorSeams (downloadKey slowLocatorSeams smallTarget) slowPass).2.own.WorkConserved
      slowLocatorSeams.config
      (passPlan slowLocatorSeams (downloadKey slowLocatorSeams smallTarget) slowPass) :=
  fill_conserves_work slowLocatorSeams smallTarget emptySink emptyStore
    (fun _ _ _ _ _ _ hpin _ => by cases hpin) _ _ .refl fill_slowPass

/-- The small download with a selector that pins the second range to the holder, and says
nothing about the first. -/
def pinsSecondSeams : ResourceSeams :=
  { smallResourceSeams with
    select := fun _ _ => { ordered := [], assignments := [(1, holderA)] } }

/-- Nothing is handed out although the second range is pinned to a live holder that has room. -/
theorem leaves_pinned_range :
    ∃ w w', Visits pinsSecondSeams smallTarget.content (downloadKey pinsSecondSeams smallTarget)
        (loopStart pinsSecondSeams smallTarget emptySink emptyStore) .head w ∧
      w.own.KeepsToLive pinsSecondSeams.config (pinsSecondSeams.now w.tick)
        (passPlan pinsSecondSeams (downloadKey pinsSecondSeams smallTarget) w) ∧
      fill pinsSecondSeams (downloadKey pinsSecondSeams smallTarget) w = (.ok (), w') ∧
      ¬ w'.own.WorkConserved pinsSecondSeams.config
        (passPlan pinsSecondSeams (downloadKey pinsSecondSeams smallTarget) w) := by
  have hfill : (fill pinsSecondSeams "small"
      (loopStart pinsSecondSeams smallTarget emptySink emptyStore)).1 = .ok () := by decide +kernel
  have hlive : (loopStart pinsSecondSeams smallTarget emptySink emptyStore).own.IsLive
      (pinsSecondSeams.now (loopStart pinsSecondSeams smallTarget emptySink emptyStore).tick)
      holderA := ⟨by decide +kernel, by decide +kernel⟩
  refine ⟨_, _, .refl, ⟨by simp [passPlan, pinsSecondSeams], ?_⟩, Prod.ext hfill rfl, ?_⟩
  · intro range peer _ hpin _
    obtain ⟨pin, hfind, rfl⟩ := Option.map_eq_some_iff.mp hpin
    have hmem := List.mem_of_find?_eq_some hfind
    rw [List.mem_singleton.mp hmem]
    exact hlive
  intro h
  cases h with
  | inl hfull => exact absurd hfull (by decide +kernel)
  | inr hnone =>
    have hroom := hnone 1 holderA (by decide +kernel) (Or.inl (by decide +kernel))
    exact absurd hroom (by decide +kernel)

end DigDownload
