import DigDownload.Resource.Traces

/-!
# What the owner of a download is told

A download emits events as it runs. Most of its exits emit that it failed before they return,
some leave by an error of the locator, the sink or the store and emit nothing. The owner is
told how a download ended, by its last event and by no other, exactly if it is not one of the
latter.
-/

namespace DigDownload

open Prog Past

/-! ## Events -/

namespace DownloadEvent

/-- An event after which there are no others. -/
def IsTerminal : DownloadEvent → Prop
  | .completed _ | .failed _ => True
  | _ => False

def IsPlanned : DownloadEvent → Prop
  | .planned _ _ => True
  | _ => False

/-- The event that tells how a download ended. -/
def Tells : Except DownloadError Nat → DownloadEvent → Prop
  | .ok n, last => last = .completed n
  | .error _, last => ∃ reason, last = .failed reason

/-- The plan is told once at most, and before any range is. -/
def InOrder (before : List DownloadEvent) : DownloadEvent → Prop
  | .planned _ _ => ∀ event ∈ before, ¬ event.IsPlanned
  | .rangeCompleted _ _ _ => ∃ event ∈ before, event.IsPlanned
  | _ => True

end DownloadEvent

/-- The last event tells how a download ended, and no other event does. -/
def Reports (r : Except DownloadError Nat) (told : List DownloadEvent) : Prop :=
  ∃ before last, told = before ++ [last] ∧ (∀ event ∈ before, ¬ event.IsTerminal) ∧ last.Tells r

namespace Effect

def event? : Effect ResourceAsk → Option DownloadEvent
  | .ask (.emit event) => some event
  | _ => none

/-- Every call that follows at once is one of a step that does not ignore its errors: the
holders are located again, or the progress made is saved. -/
def IsExposed : Effect ResourceAsk → Prop
  | .ask .relocate | .ask (.record _ _ .ok) => True
  | _ => False

/-- The download is refused its checkpoint or its staging area, before it looks for holders. -/
def IsTurnedAway : Effect ResourceAsk → Prop
  | .load _ false | .ask (.claim _ false) => True
  | _ => False

end Effect

/-- The events of a run. -/
def events (trace : List (Effect ResourceAsk)) : List DownloadEvent := trace.filterMap Effect.event?

theorem events_append (before after : List (Effect ResourceAsk)) :
    events (before ++ after) = events before ++ events after :=
  List.filterMap_append

/-- The failures of the locator, the store and the sink that a download ignores: once it has
told its plan, where it refreshes its holders and where it is paused or cancelled. -/
def Announced (before : List (Effect ResourceAsk)) : Effect ResourceAsk → Prop
  | .ask (.findProviders (.error _)) | .save _ false =>
      (∃ event ∈ events before, event.IsPlanned) ∧ ∀ e, before.getLast? = some e → ¬ e.IsExposed
  | .writeAt _ _ false => False
  | _ => True

/-- The result of a run that has returned. -/
def returned : Except Halt Nat → Option (Except DownloadError Nat)
  | .ok n => some (.ok n)
  | .error (.failed e) => some (.error e)
  | .error _ => none

/-! ## What a run keeps -/

section Log

variable {planned : Prop} {log : List (Effect ResourceAsk)} {e : Effect ResourceAsk}

theorem events_concat (log : List (Effect ResourceAsk)) (e : Effect ResourceAsk) :
    events (log ++ [e]) = events log ++ e.event?.toList := by
  rw [events, List.filterMap_append]
  cases h : e.event? with
  | none => simp [events, h]
  | some event => simp [events, h]

/-- A run that has not ended: all that failed was ignored, and no event tells of an end. -/
structure Open (planned : Prop) (log : List (Effect ResourceAsk)) : Prop where
  announced : AtEach Announced log
  running : ∀ event ∈ events log, ¬ event.IsTerminal
  ordered : AtEach DownloadEvent.InOrder (events log)
  plan : (∃ event ∈ events log, event.IsPlanned) ↔ planned

/-- A run between two steps. -/
structure Going (planned : Prop) (log : List (Effect ResourceAsk)) : Prop extends
    Open planned log where
  settled : ∀ e, log.getLast? = some e → ¬ e.IsExposed

/-- How a run stops: it told its owner that it failed, it failed and told nothing, or it is
still waiting. -/
inductive Closes : Halt → List (Effect ResourceAsk) → Prop where
  | told {e : DownloadError} {log : List (Effect ResourceAsk)} (announced : AtEach Announced log)
      (ordered : AtEach DownloadEvent.InOrder (events log))
      (reports : Reports (.error e) (events log)) : Closes (.failed e) log
  | silent {e : DownloadError} {log : List (Effect ResourceAsk)}
      (unannounced : ¬ AtEach Announced log)
      (ordered : AtEach DownloadEvent.InOrder (events log))
      (running : ∀ event ∈ events log, ¬ event.IsTerminal) : Closes (.failed e) log
  | unreturned {halt : Halt} {log : List (Effect ResourceAsk)} (announced : AtEach Announced log)
      (ordered : AtEach DownloadEvent.InOrder (events log)) (hhalt : ∀ e, halt ≠ .failed e) :
      Closes halt log

/-- An effect that tells nothing. -/
theorem Open.note (h : Open planned log) (hannounced : Announced log e) (hquiet : e.event? = none) :
    Open planned (log ++ [e]) := by
  have hevents : events (log ++ [e]) = events log := by
    rw [events_concat, hquiet]
    exact List.append_nil _
  exact ⟨atEach_concat.mpr ⟨h.announced, hannounced⟩, hevents ▸ h.running, hevents ▸ h.ordered,
    hevents ▸ h.plan⟩

theorem Open.going (h : Open planned (log ++ [e])) (hexposed : ¬ e.IsExposed) :
    Going planned (log ++ [e]) := by
  refine ⟨h, fun e' he' => ?_⟩
  rw [List.getLast?_concat, Option.some.injEq] at he'
  exact he' ▸ hexposed

/-- An event that tells of no end. -/
theorem Open.tell {planned' : Prop} (h : Open planned log) (event : DownloadEvent)
    (hrunning : ¬ event.IsTerminal) (hordered : event.InOrder (events log))
    (hplan : event.IsPlanned ∨ planned ↔ planned') :
    Going planned' (log ++ [.ask (.emit event)]) := by
  have hevents : events (log ++ [.ask (.emit event)]) = events log ++ [event] := events_concat _ _
  refine Open.going ⟨atEach_concat.mpr ⟨h.announced, trivial⟩, ?_, ?_, ?_⟩ id
  · intro other hother
    rw [hevents, List.mem_append, List.mem_singleton] at hother
    cases hother with
    | inl hother => exact h.running other hother
    | inr hother => exact hother ▸ hrunning
  · rw [hevents, atEach_concat]
    exact ⟨h.ordered, hordered⟩
  · rw [hevents, ← hplan, ← h.plan]
    constructor
    · intro hplanned
      obtain ⟨other, hother, hp⟩ := hplanned
      rw [List.mem_append, List.mem_singleton] at hother
      cases hother with
      | inl hother => exact Or.inr ⟨other, hother, hp⟩
      | inr hother => exact Or.inl (hother ▸ hp)
    · intro hplanned
      cases hplanned with
      | inl hp => exact ⟨event, by simp, hp⟩
      | inr hplanned =>
        obtain ⟨other, hother, hp⟩ := hplanned
        exact ⟨other, by simp [hother], hp⟩

/-- The event that tells of the end. -/
theorem Open.reports (h : Open planned log) (event : DownloadEvent) {r : Except DownloadError Nat}
    (htells : event.Tells r) (hordered : event.InOrder (events log)) :
    AtEach Announced (log ++ [.ask (.emit event)]) ∧
      AtEach DownloadEvent.InOrder (events (log ++ [.ask (.emit event)])) ∧
      Reports r (events (log ++ [.ask (.emit event)])) := by
  have hevents : events (log ++ [.ask (.emit event)]) = events log ++ [event] := events_concat _ _
  rw [hevents]
  exact ⟨atEach_concat.mpr ⟨h.announced, trivial⟩, atEach_concat.mpr ⟨h.ordered, hordered⟩,
    events log, event, rfl, h.running, htells⟩

theorem Open.failed (h : Open planned log) (e : DownloadError) (reason : String) :
    Closes (.failed e) (log ++ [.ask (.emit (.failed reason))]) := by
  obtain ⟨hannounced, hordered, hreports⟩ :=
    h.reports (r := .error e) (.failed reason) ⟨reason, rfl⟩ trivial
  exact .told hannounced hordered hreports

/-- A failure that is not ignored ends the run, and nothing tells of it. -/
theorem Open.silent (h : Open planned log) (effect : Effect ResourceAsk)
    (hunannounced : ¬ Announced log effect) (hquiet : effect.event? = none) (e : DownloadError) :
    Closes (.failed e) (log ++ [effect]) := by
  have hevents : events (log ++ [effect]) = events log := by
    rw [events_concat, hquiet]
    exact List.append_nil _
  exact .silent (fun hall => hunannounced (atEach_concat.mp hall).2) (hevents ▸ h.ordered)
    (hevents ▸ h.running)

theorem Open.unreturned (h : Open planned log) {halt : Halt} (hhalt : ∀ e, halt ≠ .failed e) :
    Closes halt log := .unreturned h.announced h.ordered hhalt

end Log

/-! ## Effects that tell nothing -/

namespace Effect

/-- An effect after which a run goes on as before. -/
def IsPlain : Effect ResourceAsk → Prop
  | .writeAt _ _ ok | .save _ ok => ok = true
  | .ask (.findProviders answer) => ∃ found, answer = .ok found
  | .ask .relocate | .ask (.record _ _ .ok) | .ask (.emit _) => False
  | _ => True

variable {e : Effect ResourceAsk}

theorem IsPlain.event?_eq (h : e.IsPlain) : e.event? = none := by
  unfold event?
  split
  · exact h.elim
  · rfl

theorem IsPlain.not_isExposed (h : e.IsPlain) : ¬ e.IsExposed := by
  intro hexposed
  unfold IsExposed at hexposed
  split at hexposed
  · exact h
  · exact h
  · exact hexposed

theorem IsPlain.announced (h : e.IsPlain) (log : List (Effect ResourceAsk)) : Announced log e := by
  unfold Announced
  split
  · obtain ⟨found, hfound⟩ := h
    cases hfound
  · cases h
  · cases h
  · trivial

theorem IsReadBack.isPlain (h : e.IsReadBack) : e.IsPlain := by
  unfold IsReadBack at h
  split at h
  · trivial
  · exact h.elim

theorem IsDiscard.isPlain (h : e.IsDiscard) : e.IsPlain := by
  unfold IsDiscard at h
  split at h
  · trivial
  · trivial
  · exact h.elim

theorem IsFill.isPlain (h : e.IsFill) : e.IsPlain := by
  unfold IsFill at h
  split at h
  · trivial
  · trivial
  · trivial
  · exact h.elim

end Effect

theorem Going.note {planned : Prop} {log : List (Effect ResourceAsk)} {e : Effect ResourceAsk}
    (h : Going planned log) (he : e.IsPlain) : Going planned (log ++ [e]) :=
  (h.toOpen.note (he.announced log) he.event?_eq).going he.not_isExposed

/-- A run that was going on still is. -/
def StaysGoing (planned : Prop) (w w' : JobWorld) : Prop :=
  Going planned w.trace → Going planned w'.trace

section Stays

variable {planned : Prop}

instance : Std.Refl (StaysGoing planned) := ⟨fun _ => id⟩

instance : IsTrans JobWorld (StaysGoing planned) := ⟨fun _ _ _ h h' => h' ∘ h⟩

theorem closedUnderLoop_going : ClosedUnderLoop Effect.IsPlain (StaysGoing planned) :=
  ⟨fun _ _ _ he _ h => h.note he, fun _ _ h => h⟩

theorem closedUnderSetup_going : ClosedUnderSetup Effect.IsPlain (StaysGoing planned) :=
  ⟨fun _ _ _ he _ h => h.note he, fun _ _ _ h => h⟩

end Stays

/-! ## Before the loop -/

/-- A part of a run that goes on, or stops as a run does. -/
abbrev Goes {α : Type} (planned : Prop) (m : JobM α) (w : JobWorld) : Prop :=
  wp m (fun _ w' => Going planned w'.trace) (fun halt w' => Closes halt w'.trace) w

section Setup

variable {seams : ResourceSeams} {content : ContentId} {key : String} {target : Target}
  {item : AvailabilityItem} {planned : Prop} {α : Type} {w : JobWorld}

/-- A part of a run that fails nowhere and only has effects that tell nothing. -/
theorem goes_of_stays {m : JobM α} (hm : Steps (StaysGoing planned) m)
    (hnever : wp m (fun _ _ => True) (fun halt _ => ∀ e, halt ≠ .failed e) w)
    (h : Going planned w.trace) : Goes planned m w :=
  ((hm.wp w).and hnever).mono (fun _ _ h' => h'.1 h) (fun _ _ h' => (h'.1 h).toOpen.unreturned h'.2)

theorem goes_failWith (h : Open planned w.trace) (reason : String) (e : DownloadError) :
    Goes planned (failWith reason e : JobM α) w := h.failed e reason

/-- A download that does not get its checkpoint or its staging area tells so. -/
theorem wp_openJob_reports (h : Going False w.trace)
    (hadmitted : ∀ e ∈ w.trace, ¬ e.IsTurnedAway) :
    wp (openJob seams key)
      (fun _ w' => Going False w'.trace ∧ ∀ e ∈ w'.trace, ¬ e.IsTurnedAway)
      (fun halt w' => Closes halt w'.trace ∧ ∃ e ∈ w'.trace, e.IsTurnedAway) w := by
  have hmem : ∀ {log : List (Effect ResourceAsk)} {e : Effect ResourceAsk},
      (∀ e ∈ log, ¬ e.IsTurnedAway) → ¬ e.IsTurnedAway → ∀ e' ∈ log ++ [e], ¬ e'.IsTurnedAway := by
    intro log e hlog he e' he'
    rw [List.mem_append, List.mem_singleton] at he'
    cases he' with
    | inl he' => exact hlog e' he'
    | inr he' => exact he' ▸ he
  have hclaim : ∀ w₁ : JobWorld, Going False w₁.trace → (∀ e ∈ w₁.trace, ¬ e.IsTurnedAway) →
      wp (claimStaging seams)
        (fun _ w' => Going False w'.trace ∧ ∀ e ∈ w'.trace, ¬ e.IsTurnedAway)
        (fun halt w' => Closes halt w'.trace ∧ ∃ e ∈ w'.trace, e.IsTurnedAway) w₁ := by
    intro w₁ h₁ hin
    rw [claimStaging, wp_bind, wp_read]
    split
    · exact ⟨h₁, hin⟩
    rename_i path _
    rw [wp_bind, wp_askJob]
    cases hgranted : seams.claim w₁.tick path with
    | true => exact ⟨h₁.note trivial, hmem hin id⟩
    | false =>
      refine ⟨(h₁.note (e := .ask (.claim path false)) trivial).toOpen.failed _ _, ?_⟩
      exact ⟨.ask (.claim path false), by simp, trivial⟩
  have hrestore : ∀ w₁ : JobWorld, Going False w₁.trace → (∀ e ∈ w₁.trace, ¬ e.IsTurnedAway) →
      wp (restoreCommitment seams >>= fun _ => claimStaging seams)
        (fun _ w' => Going False w'.trace ∧ ∀ e ∈ w'.trace, ¬ e.IsTurnedAway)
        (fun halt w' => Closes halt w'.trace ∧ ∃ e ∈ w'.trace, e.IsTurnedAway) w₁ := by
    intro w₁ h₁ hin
    rw [wp_bind, restoreCommitment, wp_bind, wp_getJob]
    dsimp only
    split
    · exact hclaim w₁ h₁ hin
    rw [wp_bind, wp_askJob]
    split
    · exact hclaim _ (h₁.note trivial) (hmem hin id)
    · exact hclaim _ (h₁.note trivial) (hmem hin id)
  rw [openJob, wp_bind, loadCheckpoint, wp_bind, wp_attempt]
  refine wp_storeLoad ?_ (fun e => ?_)
  · exact hrestore _ (h.note trivial) (hmem hadmitted id)
  · refine ⟨(h.note (e := .load key false) trivial).toOpen.failed _ _, ?_⟩
    exact ⟨.load key false, by simp, trivial⟩

theorem steps_confirmHolders_going (found : List ProviderRecord) :
    Steps (StaysGoing planned) (confirmHolders seams item found) :=
  steps_confirmHolders closedUnderLoop_going.calls (fun _ _ => trivial) item found

/-- Before there is a plan, an error of the locator ends the download. -/
theorem goes_locateAndConfirm (hitem : availabilityItem content = .ok item)
    (h : Going False w.trace) : Goes False (locateAndConfirm seams content) w := by
  rw [Goes, locateAndConfirm, wp_bind, wp_askJob]
  cases hfound : seams.findProviders w.tick content with
  | error e =>
    refine h.toOpen.silent _ (fun hannounced => ?_) rfl e
    exact h.plan.mp hannounced.1
  | ok found =>
    dsimp only
    rw [hitem]
    refine goes_of_stays (steps_confirmHolders_going found) ?_ (h.note ⟨found, rfl⟩)
    exact (wp_confirmHolders content item found _).mono (fun _ _ _ => trivial) (fun _ _ h' => h'.elim)

theorem goes_discover (hitem : availabilityItem content = .ok item) (h : Going False w.trace) :
    Goes False (discover seams content) w := by
  rw [discover, hitem, Goes, wp_bind]
  refine (goes_locateAndConfirm hitem h).mono (fun providers w₁ h₁ => ?_) (fun _ _ h₁ => h₁)
  rw [wp_bind, wp_modifyJob]
  split
  · exact h₁.toOpen.failed _ _
  · exact h₁

theorem goes_probeHolders (req : RangeRequest) (providers : List ProviderRecord) :
    ∀ reasons (w : JobWorld), Going planned w.trace →
      Goes planned (probeHolders seams content req providers reasons) w := by
  induction providers with
  | nil => exact fun _ _ h => h
  | cons provider providers ih =>
    intro reasons w h
    rw [Goes, probeHolders, wp_bind, wp_askJob]
    have h₁ := fun answer => h.note (e := .ask (.probe provider.providerPeerId answer)) trivial
    split
    · exact (h₁ _).toOpen.unreturned fun e he => by cases he
    · exact ih _ _ (h₁ _)
    · rw [wp_bind, wp_askJob]
      split
      · exact (h₁ _).note trivial
      · exact ih _ _ ((h₁ _).note trivial)

theorem goes_obtainCommitment (hitem : availabilityItem content = .ok item)
    (h : Going planned w.trace) : Goes planned (obtainCommitment seams content) w := by
  rw [Goes, obtainCommitment, wp_bind, wp_getJob]
  split
  · exact h
  rw [wp_bind, establishCommitment, wp_bind, wp_getJob, rangeRequest, hitem]
  dsimp only
  rw [wp_bind]
  refine (goes_probeHolders _ _ _ w h).mono (fun answer w₁ h₁ => ?_) (fun _ _ h₁ => h₁)
  split
  · exact h₁
  · exact goes_failWith h₁.toOpen _ _

/-- Reading back fails nowhere; at most an assertion does. -/
theorem wp_rehydrate_unfailing (commitment : ResourceCommitment) (resumed : List Range) :
    ∀ w : JobWorld, wp (rehydrateResumedRanges seams commitment resumed) (fun _ _ => True)
      (fun halt _ => ∀ e, halt ≠ .failed e) w := by
  induction resumed with
  | nil => exact fun _ => trivial
  | cons range resumed ih =>
    intro w
    rw [rehydrateResumedRanges, wp_bind, wp_getJob, wp_bind, wp_attempt, stagedRange]
    split
    · refine wp_sinkReadAt (fun bytes _ => ?_) (fun e => ih _)
      dsimp only
      split
      · exact fun e he => by cases he
      · exact ih _
      · exact ih _
    · exact ih _

theorem goes_rehydrateResumedRanges (commitment : ResourceCommitment) (resumed : List Range)
    (h : Going planned w.trace) :
    Goes planned (rehydrateResumedRanges seams commitment resumed) w :=
  goes_of_stays (steps_rehydrateResumedRanges
    (closedUnderSetup_going.planning.mono fun _ he => he.isPlain) commitment resumed)
    (wp_rehydrate_unfailing commitment resumed w) h

/-- The plan is told, unless it cannot be saved. -/
theorem goes_planDownload (commitment : ResourceCommitment) (h : Going False w.trace) :
    wp (planDownload seams key commitment) (fun _ w' => Going True w'.trace)
      (fun halt w' => Closes halt w'.trace) w := by
  have hdiscard : Steps (StaysGoing False)
      (discardBytesStagedForAnotherPlan seams key commitment : JobM Unit) :=
    steps_discardBytesStagedForAnotherPlan (closedUnderSetup_going.planning.mono fun _ he => he.isPlain) _
  rw [planDownload, wp_bind]
  refine ((hdiscard.wp w).and (wp_discardBytes w)).mono (fun _ w₁ hw₁ => ?_) (fun _ _ h₁ => h₁.2.elim)
  have h₁ : Going False w₁.trace := hw₁.1 h
  rw [wp_bind, persistCommitment, wp_bind, wp_modifyJob, wp_checkpoint]
  refine wp_storeSave ?_ (fun e => ?_)
  · have hsaved : ∀ state, Going False (w₁.trace ++ [.save state true]) := fun state => h₁.note rfl
    rw [wp_bind, wp_modifyJob, wp_bind, wp_getJob, wp_bind]
    refine (goes_rehydrateResumedRanges commitment _ (hsaved _)).mono
      (fun _ w₂ h₂ => ?_) (fun _ _ h₂ => h₂)
    rw [wp_bind, wp_getJob]
    refine h₂.toOpen.tell (.planned _ _) id (fun event hevent hp => ?_) (by simp [DownloadEvent.IsPlanned])
    exact h₂.plan.mp ⟨event, hevent, hp⟩
  · have hunannounced : ∀ state, ¬ Announced w₁.trace (.save state false) :=
      fun state hannounced => h₁.plan.mp hannounced.1
    exact h₁.toOpen.silent _ (hunannounced _) rfl e

end Setup

/-! ## The loop -/

section Loop

variable {seams : ResourceSeams} {content : ContentId} {key : String} {item : AvailabilityItem}
  {w : JobWorld}

theorem goes_waitOut (h : Going True w.trace) : Goes True (waitOut seams) w := by
  have hclock : Going True (w.trace ++ [.ask .clock]) := h.note trivial
  rw [Goes, waitOut, wp_bind, wp_readClock, wp_bind, wp_getJob]
  split
  · exact hclock
  · exact hclock.toOpen.failed _ _

/-- Once the locator has answered, looking for holders fails nowhere. -/
theorem wp_discoverMore_going (hitem : availabilityItem content = .ok item)
    {E : Halt → JobWorld → Prop}
    (hfound : ∀ found, Going True (w.trace ++ [.ask (.findProviders (.ok found))]))
    (hlost : ∀ e, E (.failed e) (w.note (.ask (.findProviders (.error e))))) :
    wp (discoverMore seams content) (fun _ w' => Going True w'.trace) E w := by
  rw [discoverMore, wp_bind, locateAndConfirm, wp_bind, wp_askJob]
  cases hfind : seams.findProviders w.tick content with
  | error e => exact hlost e
  | ok found =>
    have hconfirm : Steps (StaysGoing True) (confirmHolders seams item found) :=
      steps_confirmHolders_going found
    dsimp only
    rw [hitem]
    refine ((hconfirm.wp _).and (wp_confirmHolders content item found _)).mono
      (fun more w₂ h₂ => ?_) (fun _ _ h₂ => h₂.2.elim)
    have hmore : Going True w₂.trace := h₂.1 (hfound found)
    rw [wp_bind, wp_getJob, wp_bind, wp_modifyJob]
    split
    · exact hmore.toOpen.tell (.providersRefreshed _) id trivial
        (by simp [DownloadEvent.IsPlanned])
    · exact hmore

/-- An error of the locator in a relocate ends the download. -/
theorem goes_relocate (hitem : availabilityItem content = .ok item) (h : Going True w.trace) :
    Goes True (relocate seams content) w := by
  have hrelocate : Open True (w.trace ++ [.ask .relocate]) := h.toOpen.note trivial rfl
  rw [Goes, relocate, wp_bind, wp_noteJob, wp_bind, wp_modifyJob]
  refine wp_discoverMore_going hitem (fun found => ?_) (fun e => ?_)
  · exact (hrelocate.note (e := .ask (.findProviders (.ok found))) trivial rfl).going id
  · refine hrelocate.silent _ (fun hannounced => ?_) rfl e
    exact hannounced.2 _ List.getLast?_concat trivial

theorem goes_loopHead (hitem : availabilityItem content = .ok item) (h : Going True w.trace) :
    Goes True (loopHead seams content key) w := by
  refine wp_loopHead fun w₁ hrun _ => ?_
  have hfill : Steps (StaysGoing True) (fillUnlessPaused seams key) :=
    steps_fillUnlessPaused_closed (closedUnderLoop_going.keeping.serving.mono fun _ he => he.isPlain)
  have h₁ : Going True w₁.trace := (wp_of_run_ok hrun).mp (hfill.wp w) h
  split
  · exact h₁
  split
  · exact h₁.toOpen.failed _ _
  split
  · rw [stalled, wp_bind, wp_getJob]
    split
    · rw [wp_bind]
      refine (goes_relocate hitem h₁).mono (fun added w₂ h₂ => ?_) (fun _ _ h₂ => h₂)
      rw [wp_bind, wp_modifyJob]
      split
      · exact h₂
      · exact goes_waitOut h₂
    · exact goes_waitOut h₁
  · exact h₁

/-- A failure of a range is told, whether the download survives it or not. -/
theorem goes_rangeFailed (index : Nat) (peer : String) (e : DownloadError)
    (h : Going True w.trace) : Goes True (rangeFailed seams index peer e) w := by
  rw [Goes, rangeFailed]
  split
  · have hclock : Going True (w.trace ++ [.ask .clock]) := h.note trivial
    have hrecord : ∀ result, result ≠ .ok →
        Going True ((w.trace ++ [.ask .clock]) ++ [.ask (.record peer 0 result)]) := by
      intro result hresult
      cases result with
      | ok => exact absurd rfl hresult
      | timedOut => exact hclock.note trivial
      | failed => exact hclock.note trivial
    rw [wp_bind, wp_readClock, wp_bind, wp_modifyJob, wp_bind, wp_noteJob]
    refine (hrecord _ ?_).toOpen.tell (.rangeFailed _ _ _) id trivial
      (by simp [DownloadEvent.IsPlanned])
    split <;> simp
  · exact h.toOpen.failed _ _

/-- A range that is written and saved is told; if it cannot be, the download ends. -/
theorem goes_rangeSucceeded (range : Range) (index : Nat) (peer : String) (bytes : Bytes)
    (h : Going True w.trace) : Goes True (rangeSucceeded seams range index peer bytes) w := by
  rw [Goes, rangeSucceeded, wp_bind, wp_orFail]
  refine wp_sinkWriteAt (fun _ => ?_) (fun e n => ?_)
  · have hwritten : Going True (w.trace ++ [.writeAt range.offset bytes true]) := h.note rfl
    have hrecord : Open True ((w.trace ++ [.writeAt range.offset bytes true])
        ++ [.ask (.record peer bytes.length .ok)]) := hwritten.toOpen.note trivial rfl
    have htold : ∀ state progress, Going True (((w.trace
        ++ [.writeAt range.offset bytes true]) ++ [.ask (.record peer bytes.length .ok)])
        ++ [.save state true] ++ [.ask (.emit (.rangeCompleted index peer progress))]) := by
      intro state progress
      have hsaved := hrecord.note (e := .save state true) trivial rfl
      exact hsaved.tell _ id (hsaved.plan.mpr trivial) (by simp [DownloadEvent.IsPlanned])
    rw [wp_bind, wp_modifyJob, wp_bind, wp_noteJob, wp_bind, wp_checkpoint]
    refine wp_storeSave ?_ (fun e => ?_)
    · exact htold _ _
    · refine hrecord.silent (.save _ false) (fun hannounced => ?_) rfl e
      exact hannounced.2 _ List.getLast?_concat trivial
  · exact h.toOpen.silent (.writeAt _ _ false) id rfl e

theorem goes_handleResult (index : Nat) (peer : String) (answer : Except DownloadError FetchedRange)
    (h : Going True w.trace) : Goes True (handleResult seams index peer answer) w := by
  rw [Goes, handleResult, wp_bind, wp_modifyJob, wp_bind, wp_getJob]
  split
  · split
    · exact goes_rangeFailed _ _ _ h
    · split
      · exact h.toOpen.unreturned fun e he => by cases he
      · exact goes_rangeFailed _ _ _ h
      · exact goes_rangeSucceeded _ _ _ _ h
  · exact h.toOpen.unreturned fun e he => by cases he

/-- A checkpoint that cannot be saved while the download is paused or cancelled is ignored. -/
theorem going_save (h : Going True w.trace) (state : DownloadState) (ok : Bool) :
    Going True (w.trace ++ [.save state ok]) := by
  cases ok with
  | true => exact h.note rfl
  | false =>
    have hannounced : Announced w.trace (.save state false) := ⟨h.plan.mpr trivial, h.settled⟩
    exact (h.toOpen.note hannounced rfl).going id

theorem goes_controlTurn (message : Option Control) (h : Going True w.trace) :
    Goes True (controlTurn seams message) w := by
  have hcancel : Goes True (do tryCheckpoint seams; failWith "cancelled" .cancelled : JobM Unit) w := by
    rw [Goes, wp_bind, wp_tryCheckpoint]
    exact wp_storeSave ((going_save h _ _).toOpen.failed _ _)
      (fun e => (going_save h _ _).toOpen.failed _ _)
  cases message with
  | none => exact hcancel
  | some message =>
    cases message with
    | cancel => exact hcancel
    | pause =>
      have hpaused : ∀ state ok, Going True ((w.trace ++ [.save state ok]) ++ [.ask (.emit .paused)]) :=
        fun state ok => (going_save h state ok).toOpen.tell _ id trivial
          (by simp [DownloadEvent.IsPlanned])
      rw [Goes, controlTurn, wp_bind, wp_getJob]
      split
      · exact h
      · rw [wp_bind, wp_modifyJob, wp_bind, wp_tryCheckpoint]
        exact wp_storeSave (hpaused _ _) (fun e => hpaused _ _)
    | resume =>
      rw [Goes, controlTurn, wp_bind, wp_getJob]
      split
      · exact h.toOpen.tell .resumed id trivial (by simp [DownloadEvent.IsPlanned])
      · exact h

/-- An error of the locator in a refresh is ignored. -/
theorem goes_refreshTurn (hitem : availabilityItem content = .ok item) (h : Going True w.trace) :
    Goes True (refreshTurn seams content) w := by
  have hclock : Going True (w.trace ++ [.ask .clock]) := h.note trivial
  have hfound : ∀ found, Going True ((w.trace ++ [.ask .clock]) ++ [.ask (.findProviders (.ok found))]) :=
    fun found => hclock.note (e := .ask (.findProviders (.ok found))) ⟨found, rfl⟩
  have hlost : ∀ e, Going True ((w.trace ++ [.ask .clock]) ++ [.ask (.findProviders (.error e))]) := by
    intro e
    have hannounced : Announced (w.trace ++ [.ask .clock]) (.ask (.findProviders (.error e))) :=
      ⟨hclock.plan.mpr trivial, hclock.settled⟩
    exact (hclock.toOpen.note hannounced rfl).going id
  rw [Goes, refreshTurn, wp_bind, wp_readClock, wp_bind, wp_modifyJob, wp_handle]
  exact wp_discoverMore_going hitem hfound hlost

theorem goes_takeTurn (hitem : availabilityItem content = .ok item) (wakeup : Option Nat)
    (turn : Turn) (h : Going True w.trace) : Goes True (takeTurn seams content wakeup turn) w := by
  cases turn with
  | wake => exact h
  | control message =>
    rw [Goes, takeTurn, wp_bind]
    exact goes_controlTurn message h
  | refresh =>
    rw [Goes, takeTurn, wp_bind, wp_read]
    split
    · rw [wp_bind]
      exact goes_refreshTurn hitem h
    · exact h
  | completed choice =>
    rw [Goes, takeTurn, wp_bind, wp_read]
    split
    · exact h
    split
    · exact h
    · rw [wp_bind, wp_modifyJob, wp_bind, wp_noteJob, wp_bind]
      exact goes_handleResult _ _ _ (h.note (e := .ask (.fetched _ _ _)) trivial)

theorem going_of_loopSteps (hitem : availabilityItem content = .ok item)
    {s s' : LoopPoint × JobWorld} (hsteps : LoopSteps seams content key s s')
    (h : Going True s.2.trace) : Going True s'.2.trace := by
  induction hsteps with
  | refl => exact h
  | tail _ hstep ih =>
    cases hstep with
    | again hrun => exact (wp_of_run_ok hrun).mp (goes_loopHead hitem ih)
    | wait hrun => exact (wp_of_run_ok hrun).mp (goes_loopHead hitem ih)
    | finish hrun => exact (wp_of_run_ok hrun).mp (goes_loopHead hitem ih)
    | turn hrun => exact (wp_of_run_ok hrun).mp (goes_takeTurn hitem _ _ ih)

theorem goes_scheduleLoop (hitem : availabilityItem content = .ok item) (turns : List Turn)
    (h : Going True w.trace) : Goes True (scheduleLoop seams content key turns) w := by
  refine (wp_scheduleLoop turns).mono (fun _ w' hover => ?_) (fun halt w' hstops => ?_)
  · exact going_of_loopSteps hitem hover h
  · cases hstops with
    | waiting hvisit =>
      exact (going_of_loopSteps hitem hvisit h).toOpen.unreturned fun e he => by cases he
    | head hvisit hrun =>
      exact (wp_of_run_error hrun).mp (goes_loopHead hitem (going_of_loopSteps hitem hvisit h))
    | turn hvisit hrun =>
      exact (wp_of_run_error hrun).mp (goes_takeTurn hitem _ _ (going_of_loopSteps hitem hvisit h))

end Loop

/-! ## The promotion -/

section Finish

variable {seams : ResourceSeams} {key : String} {commitment : ResourceCommitment} {w : JobWorld}

theorem going_discard (h : Going True w.trace) :
    wp (discardUnverifiableAssembly seams key) (fun _ w' => Going True w'.trace)
      (fun _ _ => False) w := by
  have hcleared : ∀ ok ok', Going True ((w.trace ++ [.clear key ok]) ++ [.truncate 0 ok']) := by
    intro ok ok'
    have h₁ : Going True (w.trace ++ [.clear key ok]) := h.note trivial
    exact h₁.note trivial
  rw [discardUnverifiableAssembly, wp_bind, wp_ignoringFailure]
  refine wp_storeClear ?_ (fun e => ?_)
  · rw [wp_ignoringFailure]
    exact wp_sinkTruncate (hcleared _ _) (fun e => hcleared _ _)
  · rw [wp_ignoringFailure]
    exact wp_sinkTruncate (hcleared _ _) (fun e => hcleared _ _)

/-- A refusal is told. -/
theorem wp_refuse_reports {α : Type} {Q : α → JobWorld → Prop} (h : Going True w.trace)
    (reason : String) (e : DownloadError) :
    wp (do discardUnverifiableAssembly seams key; failWith reason e : JobM α) Q
      (fun halt w' => Closes halt w'.trace) w := by
  rw [wp_bind]
  exact (going_discard h).mono (fun _ w₁ h₁ => h₁.toOpen.failed _ _) (fun _ _ h₁ => h₁.elim)

theorem goes_backstop (h : Going True w.trace) : Goes True (backstop seams key commitment) w := by
  have hrefused : ∀ (v : VerifyError) (w : JobWorld), Going True w.trace → Goes True (do
      discardUnverifiableAssembly seams key
      failWith v.display (.verify v) : JobM Unit) w := fun v w hw => wp_refuse_reports hw _ _
  rw [Goes, backstop, wp_bind, wp_getJob]
  split
  · exact h
  rw [wp_bind, wp_modifyJob, wp_bind, verifyResourceLeaf]
  split
  · rw [wp_pure]
    exact hrefused _ _ h
  · have hasked : ∀ leaf answer, Going True (w.trace ++ [.ask (.verifyInclusion leaf
        commitment.inclusionProof commitment.root answer)]) := fun leaf answer => h.note trivial
    rw [wp_bind, wp_askJob]
    split
    · exact hasked _ _
    · rw [wp_pure]
      exact hrefused _ _ (hasked _ _)

/-- A download that is promoted is told to be complete, and one that is not to have failed. -/
theorem wp_finish_reports (h : Going True w.trace) :
    wp (finish seams key commitment)
      (fun n w' => AtEach Announced w'.trace ∧ AtEach DownloadEvent.InOrder (events w'.trace) ∧
        Reports (.ok n) (events w'.trace))
      (fun halt w' => Closes halt w'.trace) w := by
  rw [finish, wp_bind]
  refine (goes_backstop h).mono (fun _ w₁ h₁ => ?_) (fun _ _ h₁ => h₁)
  have hpromote : Steps (StaysGoing True) (promoteVerified seams.host commitment.totalLength) :=
    steps_promoteVerified closedUnderLoop_going.calls (fun _ => trivial) (fun _ _ _ => trivial)
      fun _ => trivial
  rw [wp_bind, wp_attempt]
  refine (hpromote.wp w₁).mono (fun _ w₂ h₂ => ?_) (fun e w₂ h₂ => ?_)
  · have hcleared : ∀ ok, Going True (w₂.trace ++ [.clear key ok]) := fun ok => (h₂ h₁).note trivial
    have hcompleted := fun ok => (hcleared ok).toOpen.reports
      (.completed commitment.totalLength) (r := .ok commitment.totalLength) rfl trivial
    dsimp only
    rw [wp_bind, wp_ignoringFailure]
    exact wp_storeClear (hcompleted true) (fun _ => hcompleted false)
  · exact wp_refuse_reports (h₂ h₁) _ _

end Finish

/-! ## The whole run -/

theorem not_reports {told : List DownloadEvent} {r : Except DownloadError Nat}
    (hrunning : ∀ event ∈ told, ¬ event.IsTerminal) : ¬ Reports r told := by
  intro hreports
  obtain ⟨before, last, rfl, -, htells⟩ := hreports
  refine hrunning last (by simp) ?_
  cases r with
  | ok n =>
    obtain rfl : last = .completed n := htells
    exact trivial
  | error e =>
    obtain ⟨reason, rfl⟩ := htells
    exact trivial

/-- The owner is told how a run ended, and in order. -/
def TellsOwner (run : Except Halt Nat × JobWorld) : Prop :=
  (∀ r, returned run.1 = some r → Reports r (events run.2.trace)) ∧
    AtEach DownloadEvent.InOrder (events run.2.trace)

/-- A run that stops tells its owner exactly if it ignored all that failed. -/
theorem Closes.tells_iff {halt : Halt} {w : JobWorld} (h : Closes halt w.trace) :
    TellsOwner (.error halt, w) ↔ AtEach Announced w.trace := by
  cases h with
  | told hannounced hordered hreports =>
    refine iff_of_true ⟨fun r hr => ?_, hordered⟩ hannounced
    cases hr
    exact hreports
  | silent hunannounced hordered hrunning =>
    exact iff_of_false (fun htells => not_reports hrunning (htells.1 _ rfl)) hunannounced
  | unreturned hannounced hordered hhalt =>
    refine iff_of_true ⟨fun r hr => ?_, hordered⟩ hannounced
    cases halt with
    | failed e => exact absurd rfl (hhalt e)
    | panicked => cases hr
    | pending => cases hr

section Run

variable {seams : ResourceSeams} {target : Target} {item : AvailabilityItem} {w : JobWorld}

/-- What a run does after its checkpoint is loaded and its staging area claimed. -/
theorem wp_runInner_reports (hitem : availabilityItem target.content = .ok item) (turns : List Turn)
    (h : Going False w.trace) :
    wp (runInner seams target.content (downloadKey seams target) turns)
      (fun n w' => TellsOwner (.ok n, w') ∧ AtEach Announced w'.trace)
      (fun halt w' => Closes halt w'.trace) w := by
  rw [runInner, wp_bind, planInner, wp_bind]
  refine (goes_discover hitem h).mono (fun _ w₁ h₁ => ?_) (fun _ _ h₁ => h₁)
  rw [wp_bind]
  refine (goes_obtainCommitment hitem h₁).mono (fun commitment w₂ h₂ => ?_) (fun _ _ h₂ => h₂)
  rw [wp_bind]
  refine (goes_planDownload commitment h₂).mono (fun _ w₃ h₃ => ?_) (fun _ _ h₃ => h₃)
  rw [wp_pure, wp_bind]
  refine (goes_scheduleLoop hitem turns h₃).mono (fun _ w₄ h₄ => ?_) (fun _ _ h₄ => h₄)
  refine (wp_finish_reports h₄).mono (fun n w₅ h₅ => ?_) (fun _ _ h₅ => h₅)
  refine ⟨⟨fun r hr => ?_, h₅.2.1⟩, h₅.1⟩
  cases hr
  exact h₅.2.2

/-- A bare store id is refused without a word. -/
theorem wp_runInner_bare {e : DownloadError} (hitem : availabilityItem target.content = .error e)
    (turns : List Turn) :
    wp (runInner seams target.content (downloadKey seams target) turns) (fun _ _ => False)
      (fun halt w' => halt = .failed e ∧ w' = w) w := by
  rw [runInner, wp_bind, planInner, wp_bind, discover, hitem]
  exact ⟨rfl, rfl⟩

end Run

/-- The owner of a download is told how it ended, by the last event and by no other, and of the
plan before the ranges, exactly if the content can be downloaded (or the download was turned
away before that mattered) and every failure of the locator, the store and the sink is one that
the download ignores. -/
theorem tellsOwner_iff (seams : ResourceSeams) (target : Target) (turns : List Turn) (sink : Sink)
    (store : StateStore) :
    TellsOwner (downloadResource seams target turns sink store) ↔
      ((∃ item, availabilityItem target.content = .ok item) ∨
        ∃ e ∈ (downloadResource seams target turns sink store).2.trace, e.IsTurnedAway) ∧
      AtEach Announced (downloadResource seams target turns sink store).2.trace := by
  have hstart : Going False (JobWorld.start seams target sink store).trace := by
    show Going False []
    exact ⟨⟨atEach_nil, by simp [events], atEach_nil, by simp [events]⟩, by simp⟩
  have hadmitted₀ : ∀ e ∈ (JobWorld.start seams target sink store).trace, ¬ e.IsTurnedAway := by
    simp [JobWorld.start]
  have hopen : wp (openJob seams (downloadKey seams target)) _ _ _ :=
    wp_openJob_reports hstart hadmitted₀
  rw [downloadResource, runJob]
  cases hr : openJob seams (downloadKey seams target) (JobWorld.start seams target sink store) with
  | mk r w =>
    cases r with
    | error halt =>
      obtain ⟨hcloses, haway⟩ := (wp_of_run_error hr).mp hopen
      rw [bind_of_error hr, hcloses.tells_iff]
      exact ⟨fun h => ⟨Or.inr haway, h⟩, fun h => h.2⟩
    | ok u =>
      obtain ⟨hgoing, hadmitted⟩ := (wp_of_run_ok hr).mp hopen
      rw [bind_of_ok hr]
      cases hitem : availabilityItem target.content with
      | ok item =>
        have hrun : wp (runInner seams target.content (downloadKey seams target) turns) _ _ w :=
          wp_runInner_reports hitem turns hgoing
        cases hend : runInner seams target.content (downloadKey seams target) turns w with
        | mk r' w' =>
          cases r' with
          | ok n =>
            obtain ⟨htells, hannounced⟩ := (wp_of_run_ok hend).mp hrun
            exact iff_of_true htells ⟨Or.inl ⟨item, rfl⟩, hannounced⟩
          | error halt =>
            rw [Closes.tells_iff ((wp_of_run_error hend).mp hrun)]
            exact ⟨fun h => ⟨Or.inl ⟨item, rfl⟩, h⟩, fun h => h.2⟩
      | error e =>
        have hrun : wp (runInner seams target.content (downloadKey seams target) turns)
            (fun _ _ => False) (fun halt w' => halt = .failed e ∧ w' = w) w :=
          wp_runInner_bare hitem turns
        cases hend : runInner seams target.content (downloadKey seams target) turns w with
        | mk r' w' =>
          cases r' with
          | ok n => exact ((wp_of_run_ok hend).mp hrun).elim
          | error halt =>
            obtain ⟨rfl, rfl⟩ := (wp_of_run_error hend).mp hrun
            refine iff_of_false (fun htells => ?_) (fun h => ?_)
            · exact not_reports hgoing.running (htells.1 _ rfl)
            · cases h.1 with
              | inl hfound =>
                obtain ⟨item, hfound⟩ := hfound
                cases hfound
              | inr haway =>
                obtain ⟨effect, hmem, haway⟩ := haway
                exact hadmitted effect hmem haway

/-- A locator that is out of reach. -/
def lostLocatorSeams : ResourceSeams :=
  { smallResourceSeams with findProviders := fun _ _ => .error (.transport "dht" "timed out") }

/-- A download that ends with an error of the locator tells its owner nothing. -/
theorem owner_not_told :
    ¬ ∀ (seams : ResourceSeams) (target : Target) (turns : List Turn) (sink : Sink)
      (store : StateStore), TellsOwner (downloadResource seams target turns sink store) := by
  intro h
  have htells := h lostLocatorSeams smallTarget [] emptySink emptyStore
  have hreports := htells.1 (.error (.transport "dht" "timed out")) (by decide +kernel)
  have hnone : events (downloadResource lostLocatorSeams smallTarget [] emptySink emptyStore).2.trace
      = [] := by decide +kernel
  rw [hnone] at hreports
  exact not_reports (fun _ h => by cases h) hreports

end DigDownload
