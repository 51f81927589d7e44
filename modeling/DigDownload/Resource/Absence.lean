import DigDownload.Resource.Errors
import DigDownload.Resource.Onion
import DigDownload.Resource.Reports

/-!
# When content is reported absent

A download says that its content was not found when no located holder confirms that it has it.
A holder that could not be asked confirms nothing either, so a transport that refuses to ask for
a reason of its own turns into an absence. The report is truthful exactly if every holder that
was asked has answered that it does not hold the content, or one of them holds it.
-/

namespace DigDownload

open Prog Past

/-! ## What holders answer -/

/-- An answer to whether a holder has the content. -/
abbrev AvailabilityAnswer := Except DownloadError (List Bool)

/-- A holder says that it has the content. -/
def AvailabilityAnswer.Confirms : AvailabilityAnswer → Prop
  | .ok (available :: _) => available = true
  | _ => False

/-- A holder says that it does not have the content. -/
def AvailabilityAnswer.Denies : AvailabilityAnswer → Prop
  | .ok (available :: _) => available = false
  | _ => False

theorem AvailabilityAnswer.Denies.not_confirms {answer : AvailabilityAnswer} (h : answer.Denies) :
    ¬ answer.Confirms := by
  intro hconfirms
  unfold Denies at h
  split at h
  · cases h.symm.trans hconfirms
  · exact h

namespace DownloadError

def IsNotFound : DownloadError → Prop
  | .notFound _ => True
  | _ => False

/-- The error that a refusal for a reason of the policy is. -/
def IsRefusal (e : DownloadError) : Prop := ∃ refusal : StreamRelayRefusal, e = .state refusal.display

theorem IsRefusal.not_isNotFound {e : DownloadError} (h : e.IsRefusal) : ¬ e.IsNotFound := by
  obtain ⟨refusal, rfl⟩ := h
  exact id

theorem IsTerminal.not_isNotFound {e : DownloadError} (h : e.IsTerminal) : ¬ e.IsNotFound := by
  intro hnotFound
  cases e with
  | notFound content => exact h
  | _ => exact hnotFound

end DownloadError

def Effect.answer? : Effect ResourceAsk → Option (String × AvailabilityAnswer)
  | .ask (.queryAvailability peer answer) => some (peer, answer)
  | _ => none

/-- What the holders that were asked have answered. -/
def answers (trace : List (Effect ResourceAsk)) : List (String × AvailabilityAnswer) :=
  trace.filterMap Effect.answer?

def IsAnswerOf (p : ProviderRecord) (a : String × AvailabilityAnswer) : Prop := a.1 = p.providerPeerId

/-- No holder was located, or each of them said that it does not have the content. -/
def Absent (trace : List (Effect ResourceAsk)) : Prop :=
  ∃ found, .ask (.findProviders (.ok found)) ∈ trace ∧
    List.Forall₂ IsAnswerOf found (answers trace) ∧ ∀ a ∈ answers trace, a.2.Denies

/-- A download says that its content was not found only if it is absent, and if every ask is
refused for a reason of the policy, it ends with that refusal. -/
def ReportsTruthfully (run : Except Halt Nat × JobWorld) : Prop :=
  (∀ content, run.1 = .error (.failed (.notFound content)) → Absent run.2.trace) ∧
    (answers run.2.trace ≠ [] →
      (∀ a ∈ answers run.2.trace, ∃ e, a.2 = .error e ∧ e.IsRefusal) →
        ∃ e, run.1 = .error (.failed e) ∧ e.IsRefusal)

/-- A holder has confirmed that it has the content. -/
def Confirmed (trace : List (Effect ResourceAsk)) : Prop := ∃ a ∈ answers trace, a.2.Confirms

/-- A holder confirms that it has the content, and no error that ends the download is a
`NotFound` of a locator or a holder; or every holder that is asked says that it does not have it,
and the locator does not itself fail with a `NotFound`. -/
def Decided (trace : List (Effect ResourceAsk)) : Prop :=
  (Confirmed trace ∧ AtEach (Absorbs fun e => ¬ e.IsNotFound) trace) ∨
    ((∀ a ∈ answers trace, a.2.Denies) ∧
      ∀ e, .ask (.findProviders (.error e)) ∈ trace → ¬ e.IsNotFound)

/-! ## Asking the holders -/

section Asking

variable {seams : ResourceSeams} {content : ContentId} {key : String} {target : Target}
  {item : AvailabilityItem} {w w' : JobWorld} {log seg : List (Effect ResourceAsk)}

theorem answers_append (log seg : List (Effect ResourceAsk)) :
    answers (log ++ seg) = answers log ++ answers seg := List.filterMap_append

theorem Confirmed.append (h : Confirmed log) (seg : List (Effect ResourceAsk)) :
    Confirmed (log ++ seg) := by
  obtain ⟨a, ha, hconfirms⟩ := h
  exact ⟨a, by rw [answers_append]; exact List.mem_append_left _ ha, hconfirms⟩

theorem Appends.confirmed {K : Effect ResourceAsk → Prop} (h : Appends K w w')
    (hw : Confirmed w.trace) : Confirmed w'.trace := by
  obtain ⟨seg, hseg, -⟩ := h
  rw [hseg]
  exact hw.append seg

/-- Every located holder is asked once, and none is kept exactly if none confirms. -/
theorem wp_confirmHolders_answers (found : List ProviderRecord) :
    ∀ w : JobWorld, wp (confirmHolders seams item found)
      (fun confirmed w' => ∃ seg, w'.trace = w.trace ++ seg ∧
        (∀ e ∈ seg, ∀ answer, e ≠ .ask (.findProviders answer)) ∧
        List.Forall₂ IsAnswerOf found (answers seg) ∧
        (confirmed = [] ↔ ¬ Confirmed seg)) (fun _ _ => False) w := by
  induction found with
  | nil => exact fun w => ⟨[], by simp, by simp, .nil, by simp [Confirmed, answers]⟩
  | cons p found ih =>
    intro w
    rw [confirmHolders, wp_bind, wp_askJob]
    -- the first answer, and what is heard after it
    have hfirst : ∀ (answer : AvailabilityAnswer) (seg : List (Effect ResourceAsk)),
        Confirmed (.ask (.queryAvailability p.providerPeerId answer) :: seg)
          ↔ answer.Confirms ∨ Confirmed seg := by
      intro answer seg
      simp [Confirmed, answers, Effect.answer?]
    have hrest : ∀ (answer : AvailabilityAnswer) {seg : List (Effect ResourceAsk)},
        (∀ e ∈ seg, ∀ answer, e ≠ .ask (.findProviders answer)) →
        List.Forall₂ IsAnswerOf found (answers seg) →
        (∀ e ∈ Effect.ask (.queryAvailability p.providerPeerId answer) :: seg, ∀ answer,
          e ≠ .ask (.findProviders answer)) ∧
        List.Forall₂ IsAnswerOf (p :: found)
          (answers (.ask (.queryAvailability p.providerPeerId answer) :: seg)) := by
      intro answer seg hnone hpeers
      exact ⟨by simpa using hnone, .cons rfl hpeers⟩
    split
    · rename_i others hanswer
      rw [wp_bind]
      refine (ih _).mono (fun confirmed w₁ h₁ => ?_) (fun _ _ h => h)
      obtain ⟨seg, hseg, hnone, hpeers, -⟩ := h₁
      obtain ⟨hnone', hpeers'⟩ := hrest (seams.queryAvailability w.tick p item) hnone hpeers
      refine ⟨_ :: seg, by rw [hseg]; simp, hnone', hpeers', ?_⟩
      rw [hfirst, hanswer]
      simp [AvailabilityAnswer.Confirms]
    · rename_i hother
      refine (ih _).mono (fun confirmed w₁ h₁ => ?_) (fun _ _ h => h)
      obtain ⟨seg, hseg, hnone, hpeers, hconfirmed⟩ := h₁
      obtain ⟨hnone', hpeers'⟩ := hrest (seams.queryAvailability w.tick p item) hnone hpeers
      refine ⟨_ :: seg, by rw [hseg]; simp, hnone', hpeers', ?_⟩
      have hnot : ¬ AvailabilityAnswer.Confirms (seams.queryAvailability w.tick p item) := by
        intro hconfirms
        unfold AvailabilityAnswer.Confirms at hconfirms
        split at hconfirms
        · rename_i available rest hanswer
          exact hother rest (by rw [hanswer, hconfirms])
        · exact hconfirms
      rw [hfirst, hconfirmed]
      simp [hnot]

end Asking

/-! ## Before there is a plan -/

/-- How a download ends that gets no plan: before a holder is asked, because the locator fails,
because no holder confirms, or after one has confirmed. -/
inductive EndsEarly : Halt → List (Effect ResourceAsk) → Prop where
  | unasked {halt : Halt} {log : List (Effect ResourceAsk)} (hanswers : answers log = [])
      (hlocated : ∀ answer, .ask (.findProviders answer) ∉ log)
      (hhalt : ∀ e, halt = .failed e → ¬ e.IsNotFound) : EndsEarly halt log
  | lost {e : DownloadError} {log : List (Effect ResourceAsk)} (hanswers : answers log = [])
      (hlocated : ∀ answer, .ask (.findProviders answer) ∈ log ↔ answer = .error e) :
      EndsEarly (.failed e) log
  | unconfirmed {content : String} {found : List ProviderRecord} {log : List (Effect ResourceAsk)}
      (hpeers : List.Forall₂ IsAnswerOf found (answers log))
      (hlocated : ∀ answer, .ask (.findProviders answer) ∈ log ↔ answer = .ok found)
      (hnone : ¬ Confirmed log) : EndsEarly (.failed (.notFound content)) log
  | confirmed {halt : Halt} {log : List (Effect ResourceAsk)} (hconfirmed : Confirmed log)
      (hhalt : ∀ e, halt = .failed e → ¬ e.IsNotFound) : EndsEarly halt log

section Early

variable {seams : ResourceSeams} {content : ContentId} {key : String} {target : Target}
  {item : AvailabilityItem} {w w' : JobWorld}

/-- Nobody has been located and nobody has been asked. -/
structure Unasked (log : List (Effect ResourceAsk)) : Prop where
  answers : answers log = []
  located : ∀ answer, .ask (.findProviders answer) ∉ log

theorem Unasked.opening (h : Unasked w.trace) (hopening : Appends Effect.IsOpening w w') :
    Unasked w'.trace := by
  obtain ⟨seg, hseg, hkind⟩ := hopening
  have hquiet : DigDownload.answers seg = [] := by
    refine List.filterMap_eq_nil_iff.mpr fun e he => ?_
    have hk := hkind e he
    unfold Effect.IsOpening at hk
    split at hk
    · rfl
    · rfl
    · rfl
    · rfl
    · exact hk.elim
  refine ⟨by rw [hseg, answers_append, h.answers, hquiet, List.append_nil], fun answer hmem => ?_⟩
  rw [hseg, List.mem_append] at hmem
  cases hmem with
  | inl hmem => exact h.located answer hmem
  | inr hmem => exact hkind _ hmem

theorem wp_storeLoad_raises {Q : Option DownloadState → JobWorld → Prop}
    {E : DownloadError → JobWorld → Prop} {host : Host}
    (hok : ∀ loaded, Q loaded (w.note (.load key true)))
    (herr : ∀ e, host.Raises e → E e (w.note (.load key false))) :
    wp (storeLoad host key) Q E w := by
  unfold wp storeLoad
  cases hf : host.load w.tick with
  | some e => exact herr e (.load hf)
  | none => exact hok _

/-- The checkpoint and the staging area are refused with an error of the host. -/
theorem wp_openJob_terminal (hhost : ∀ e, seams.host.Raises e → e.IsTerminal) :
    wp (openJob seams key) (fun _ _ => True) (fun halt _ => ∀ e, halt = .failed e → e.IsTerminal) w := by
  have hclaim : ∀ w₁ : JobWorld, wp (claimStaging seams) (fun _ _ => True)
      (fun halt _ => ∀ e, halt = .failed e → e.IsTerminal) w₁ := by
    intro w₁
    rw [claimStaging, wp_bind, wp_read]
    split
    · exact trivial
    rw [wp_bind, wp_askJob]
    split
    · exact trivial
    · intro e he
      cases he
      exact trivial
  have hrestore : ∀ w₁ : JobWorld, wp (restoreCommitment seams >>= fun _ => claimStaging seams)
      (fun _ _ => True) (fun halt _ => ∀ e, halt = .failed e → e.IsTerminal) w₁ := by
    intro w₁
    rw [wp_bind, restoreCommitment, wp_bind, wp_getJob]
    dsimp only
    split
    · exact hclaim w₁
    rw [wp_bind, wp_askJob]
    split
    · exact hclaim _
    · exact hclaim _
  rw [openJob, wp_bind, loadCheckpoint, wp_bind, wp_attempt]
  refine wp_storeLoad_raises (fun loaded => hrestore _) (fun e he => ?_)
  intro e' he'
  cases he'
  exact hhost e he

/-- Holders are looked for once, and each that is located is asked once. -/
theorem wp_discover_answers (hitem : availabilityItem content = .ok item) (h : Unasked w.trace) :
    wp (discover seams content) (fun _ w' => Confirmed w'.trace)
      (fun halt w' => EndsEarly halt w'.trace) w := by
  have hlocated : ∀ answer answer', Effect.ask (.findProviders answer')
      ∈ w.trace ++ [.ask (.findProviders answer)] ↔ answer' = answer := by
    intro answer answer'
    simp [h.located]
  have hanswers : ∀ answer, answers (w.trace ++ [.ask (.findProviders answer)]) = [] := by
    intro answer
    rw [answers_append, h.answers]
    rfl
  rw [discover, hitem]
  dsimp only
  rw [wp_bind, locateAndConfirm, wp_bind, wp_askJob]
  cases hfind : seams.findProviders w.tick content with
  | error e => exact .lost (hanswers _) (hlocated _)
  | ok found =>
    dsimp only
    rw [hitem]
    refine (wp_confirmHolders_answers found _).mono (fun confirmed w₁ h₁ => ?_) (fun _ _ h' => h'.elim)
    obtain ⟨seg, hseg, hnone, hpeers, hconfirmed⟩ := h₁
    have hall : answers w₁.trace = answers seg := by
      rw [hseg, answers_append]
      exact congrArg (· ++ answers seg) (hanswers (.ok found))
    rw [wp_bind, wp_modifyJob]
    split
    · rename_i hempty
      have hnote : ∀ reason, answers (w₁.trace ++ [.ask (.emit (.failed reason))]) = answers seg := by
        intro reason
        rw [answers_append, hall]
        exact List.append_nil _
      have hpeers' : List.Forall₂ IsAnswerOf found (answers seg) := hpeers
      refine EndsEarly.unconfirmed (hnote _ ▸ hpeers') (fun answer => ?_) ?_
      · show _ ∈ w₁.trace ++ [_] ↔ _
        have hnot : Effect.ask (.findProviders answer) ∉ seg := fun hmem => hnone _ hmem answer rfl
        rw [← hlocated (.ok found) answer, hseg]
        simp [hnot]
      · show ¬ ∃ a ∈ answers (w₁.trace ++ [_]), a.2.Confirms
        rw [hnote]
        exact hconfirmed.mp hempty
    · rename_i hne
      obtain ⟨a, ha, hconfirms⟩ := not_not.mp (fun hnot => hne (hconfirmed.mpr hnot))
      exact ⟨a, hall ▸ ha, hconfirms⟩

/-- The layout is not obtained with an error of its own, if a holder was located. -/
theorem wp_obtainCommitment_error (hitem : availabilityItem content = .ok item) :
    wp (obtainCommitment seams content) (fun _ _ => True)
      (fun halt _ => ∀ e, halt = .failed e → ¬ e.IsNotFound) w := by
  have hprobe : ∀ (req : RangeRequest) (providers : List ProviderRecord) (reasons : List String)
      (w : JobWorld), wp (probeHolders seams content req providers reasons) (fun _ _ => True)
        (fun halt _ => ∀ e, halt ≠ .failed e) w := by
    intro req providers
    induction providers with
    | nil => exact fun _ _ => trivial
    | cons provider providers ih =>
      intro reasons w
      rw [probeHolders, wp_bind, wp_askJob]
      split
      · exact fun e he => by cases he
      · exact ih _ _
      · rw [wp_bind, wp_askJob]
        split
        · exact trivial
        · exact ih _ _
  rw [obtainCommitment, wp_bind, wp_getJob]
  split
  · exact trivial
  rw [wp_bind, establishCommitment, wp_bind, wp_getJob, rangeRequest, hitem]
  dsimp only
  rw [wp_bind]
  refine (hprobe _ _ _ _).mono (fun answer w₁ _ => ?_) (fun _ _ h e he => absurd he (h e))
  split
  · exact trivial
  · intro e he
    cases he
    exact id

/-- The plan is not made with an error of the host. -/
theorem wp_planDownload_error (hhost : ∀ e, seams.host.Raises e → e.IsTerminal)
    (commitment : ResourceCommitment) :
    wp (planDownload seams key commitment) (fun _ _ => True)
      (fun halt _ => ∀ e, halt = .failed e → e.IsTerminal) w := by
  have hrehydrate : ∀ (resumed : List Range) (w : JobWorld),
      wp (rehydrateResumedRanges seams commitment resumed) (fun _ _ => True)
        (fun halt _ => ∀ e, halt = .failed e → e.IsTerminal) w := fun resumed w =>
    (wp_rehydrate_unfailing commitment resumed w).mono (fun _ _ h => h)
      (fun _ _ h e he => absurd he (h e))
  rw [planDownload, wp_bind]
  refine (wp_discardBytes w).mono (fun _ w₁ _ => ?_) (fun _ _ h₁ => h₁.elim)
  rw [wp_bind, persistCommitment, wp_bind, wp_modifyJob, wp_checkpoint]
  refine wp_storeSave_raises ?_ (fun e he => ?_)
  · rw [wp_bind, wp_modifyJob, wp_bind, wp_getJob, wp_bind]
    exact (hrehydrate _ _).mono (fun _ _ _ => trivial) (fun _ _ h => h)
  · intro e' he'
    cases he'
    exact hhost e he

/-- A part of a run after a holder has confirmed. -/
theorem wp_after_confirmed {α : Type} {m : JobM α} {K : Effect ResourceAsk → Prop}
    (hm : Steps (Appends K) m)
    (herror : wp m (fun _ _ => True) (fun halt _ => ∀ e, halt = .failed e → ¬ e.IsNotFound) w)
    (h : Confirmed w.trace) :
    wp m (fun _ w' => Confirmed w'.trace) (fun halt w' => EndsEarly halt w'.trace) w :=
  ((hm.wp w).and herror).mono (fun _ _ h' => h'.1.confirmed h)
    (fun _ _ h' => .confirmed (h'.1.confirmed h) h'.2)

/-- A download that gets a plan has had a holder confirm. -/
theorem wp_entering_answers (hitem : availabilityItem target.content = .ok item)
    (hhost : ∀ e, seams.host.Raises e → e.IsTerminal) (h : Unasked w.trace) :
    wp (entering seams target) (fun _ w' => Confirmed w'.trace)
      (fun halt w' => EndsEarly halt w'.trace) w := by
  rw [entering, wp_bind]
  have hopening : Steps (Appends Effect.IsOpening) (openJob seams (downloadKey seams target)) :=
    steps_openJob closedUnderPlanning_appends
  refine ((hopening.wp w).and (wp_openJob_terminal hhost)).mono (fun _ w₁ h₁ => ?_)
    (fun halt w₁ h₁ => ?_)
  · rw [planInner, wp_bind]
    refine (wp_discover_answers hitem (h.opening h₁.1)).mono (fun _ w₂ h₂ => ?_) (fun _ _ h₂ => h₂)
    rw [wp_bind]
    refine (wp_after_confirmed (steps_obtainCommitment closedUnderPlanning_appends)
      (wp_obtainCommitment_error hitem) h₂).mono (fun commitment w₃ h₃ => ?_) (fun _ _ h₃ => h₃)
    rw [wp_bind]
    refine wp_after_confirmed (steps_planDownload closedUnderPlanning_appends commitment) ?_ h₃
    exact (wp_planDownload_error hhost commitment).mono (fun _ _ h => h)
      (fun _ _ h e he => (h e he).not_isNotFound)
  · have hunasked := h.opening h₁.1
    exact .unasked hunasked.answers hunasked.located fun e he => (h₁.2 e he).not_isNotFound

/-- A bare store id is refused before anyone is asked. -/
theorem wp_entering_bare {e : DownloadError} (hitem : availabilityItem target.content = .error e)
    (hhost : ∀ e, seams.host.Raises e → e.IsTerminal) (h : Unasked w.trace) :
    wp (entering seams target) (fun _ _ => False) (fun halt w' => EndsEarly halt w'.trace) w := by
  have hbare : ¬ e.IsNotFound := by
    unfold availabilityItem at hitem
    split at hitem
    · cases hitem
      exact id
    · cases hitem
    · cases hitem
  rw [entering, wp_bind]
  have hopening : Steps (Appends Effect.IsOpening) (openJob seams (downloadKey seams target)) :=
    steps_openJob closedUnderPlanning_appends
  refine ((hopening.wp w).and (wp_openJob_terminal hhost)).mono (fun _ w₁ h₁ => ?_)
    (fun halt w₁ h₁ => ?_)
  · rw [planInner, wp_bind, discover, hitem]
    have hunasked := h.opening h₁.1
    refine .unasked hunasked.answers hunasked.located fun e' he' => ?_
    cases he'
    exact hbare
  · have hunasked := h.opening h₁.1
    exact .unasked hunasked.answers hunasked.located fun e he => (h₁.2 e he).not_isNotFound

end Early

/-! ## The whole run -/

section Run

variable {seams : ResourceSeams} {target : Target} {sink : Sink} {store : StateStore}
  {run : Except Halt Nat × JobWorld} {commitment : ResourceCommitment}

theorem Confirmed.not_absent {log : List (Effect ResourceAsk)} (h : Confirmed log) : ¬ Absent log := by
  intro habsent
  obtain ⟨a, ha, hconfirms⟩ := h
  obtain ⟨found, -, -, hdenied⟩ := habsent
  exact (hdenied a ha).not_confirms hconfirms

/-- A run in which a holder has confirmed reports truthfully unless it ends with a `NotFound`. -/
theorem reportsTruthfully_of_confirmed (h : Confirmed run.2.trace) :
    ReportsTruthfully run ↔ ∀ content, run.1 ≠ .error (.failed (.notFound content)) := by
  constructor
  · exact fun htruthful content hrun => h.not_absent (htruthful.1 content hrun)
  · refine fun hnot => ⟨fun content hrun => absurd hrun (hnot content), fun _ hrefused => ?_⟩
    obtain ⟨a, ha, hconfirms⟩ := h
    obtain ⟨e, herror, -⟩ := hrefused a ha
    rw [herror] at hconfirms
    exact hconfirms.elim

theorem decided_of_confirmed {log : List (Effect ResourceAsk)} (h : Confirmed log) :
    Decided log ↔ AtEach (Absorbs fun e => ¬ e.IsNotFound) log := by
  constructor
  · intro hdecided
    cases hdecided with
    | inl hconfirmed => exact hconfirmed.2
    | inr hdenied =>
      obtain ⟨a, ha, hconfirms⟩ := h
      exact absurd hconfirms (hdenied.1 a ha).not_confirms
  · exact fun habsorbed => Or.inl ⟨h, habsorbed⟩

/-- What a download reports that gets no plan. -/
theorem EndsEarly.truthful_iff {halt : Halt} {w : JobWorld} (h : EndsEarly halt w.trace)
    (habsorbed : AtEach (Absorbs fun e => ¬ e.IsNotFound) w.trace) :
    ReportsTruthfully (.error halt, w) ↔ Decided w.trace := by
  have hnotFound : ∀ {halt : Halt}, (∀ e, halt = .failed e → ¬ e.IsNotFound) →
      ∀ content, (Except.error halt : Except Halt Nat) ≠ .error (.failed (.notFound content)) := by
    intro halt hhalt content hrun
    rw [Except.error.injEq] at hrun
    exact hhalt _ hrun trivial
  generalize hlog : w.trace = log at h habsorbed
  cases h with
  | unasked hanswers hlocated hhalt =>
    refine iff_of_true ⟨fun content hrun => absurd hrun (hnotFound hhalt content),
      fun hasked => absurd (hlog ▸ hanswers) hasked⟩ (Or.inr ⟨fun a ha => ?_, fun e he => ?_⟩)
    · rw [hanswers] at ha
      cases ha
    · exact absurd he (hlocated _)
  | lost hanswers hlocated =>
    rename_i e
    have hdecided : Decided log ↔ ¬ e.IsNotFound := by
      constructor
      · intro hdecided
        cases hdecided with
        | inl hconfirmed =>
          obtain ⟨a, ha, -⟩ := hconfirmed.1
          rw [hanswers] at ha
          cases ha
        | inr hdenied => exact hdenied.2 e ((hlocated _).mpr rfl)
      · refine fun hnot => Or.inr ⟨fun a ha => ?_, fun e' he' => ?_⟩
        · rw [hanswers] at ha
          cases ha
        · cases (hlocated _).mp he'
          exact hnot
    rw [hdecided]
    constructor
    · intro htruthful he
      cases e with
      | notFound content =>
        obtain ⟨found, hfound, -⟩ := htruthful.1 content rfl
        rw [hlog] at hfound
        cases (hlocated _).mp hfound
      | _ => exact he
    · refine fun hnot => ⟨fun content hrun => ?_, fun hasked => absurd (hlog ▸ hanswers) hasked⟩
      cases hrun
      exact absurd trivial hnot
  | unconfirmed hpeers hlocated hnone =>
    rename_i content found
    have hdecided : Decided log ↔ ∀ a ∈ answers log, a.2.Denies := by
      constructor
      · intro hdecided
        cases hdecided with
        | inl hconfirmed => exact absurd hconfirmed.1 hnone
        | inr hdenied => exact hdenied.1
      · refine fun hdenied => Or.inr ⟨hdenied, fun e he => ?_⟩
        cases (hlocated _).mp he
    rw [hdecided]
    constructor
    · intro htruthful
      obtain ⟨-, -, -, hdenied⟩ := htruthful.1 content rfl
      exact hlog ▸ hdenied
    · refine fun hdenied => ⟨fun _ _ => ?_, fun hasked hrefused => ?_⟩
      · rw [hlog]
        exact ⟨found, (hlocated _).mpr rfl, hpeers, hdenied⟩
      · -- an answer that denies is no refusal
        rw [hlog] at hasked hrefused
        obtain ⟨a, ha⟩ := List.exists_mem_of_ne_nil _ hasked
        obtain ⟨e, herror, -⟩ := hrefused a ha
        have hdenies := hdenied a ha
        rw [herror] at hdenies
        exact hdenies.elim
  | confirmed hconfirmed hhalt =>
    rw [decided_of_confirmed hconfirmed, reportsTruthfully_of_confirmed (hlog ▸ hconfirmed)]
    exact iff_of_true (hnotFound hhalt) habsorbed

/-- A download with a plan ends with a `NotFound` exactly if it met one it does not absorb. -/
theorem noAbsence_iff {halt : Halt} {w : JobWorld}
    (h : (Calm w ∧ ∀ e, halt = .failed e → e.IsTerminal ∨ ∃ v, e = .verify v) ∨
      ∃ e, halt = .failed e ∧ ∀ ends, AtEach (Absorbs ends) w.trace ↔ ends e) :
    (∀ content, (Except.error halt : Except Halt Nat) ≠ .error (.failed (.notFound content))) ↔
      AtEach (Absorbs fun e => ¬ e.IsNotFound) w.trace := by
  cases h with
  | inl hcalm =>
    refine iff_of_true (fun content hrun => ?_) hcalm.1.absorbs
    rw [Except.error.injEq] at hrun
    cases hcalm.2 _ hrun with
    | inl hterminal => exact hterminal
    | inr hverify =>
      obtain ⟨v, hv⟩ := hverify
      cases hv
  | inr hlost =>
    obtain ⟨e, rfl, hends⟩ := hlost
    rw [hends]
    constructor
    · intro hnot he
      cases e with
      | notFound content => exact hnot content rfl
      | _ => exact he
    · intro hnot content hrun
      cases hrun
      exact hnot trivial

/-- A download reports an absence truthfully exactly if a holder confirms that it has the content
and no `NotFound` of a locator or a holder ends the download, or every holder that was asked said
that it does not have it. -/
theorem reportsTruthfully_iff (seams : ResourceSeams) (target : Target) (turns : List Turn)
    (sink : Sink) (store : StateStore) (hhost : ∀ e, seams.host.Raises e → e.IsTerminal) :
    ReportsTruthfully (downloadResource seams target turns sink store) ↔
      Decided (downloadResource seams target turns sink store).2.trace := by
  have hunasked : Unasked (JobWorld.start seams target sink store).trace :=
    ⟨rfl, fun answer h => by cases h⟩
  have hcalm : Calm (entering seams target (JobWorld.start seams target sink store)).2 := by
    have hsteps : Steps StaysCalm (entering seams target) := steps_entering
      ⟨fun w store e he hc => closedUnderLoop_calm.calls w store e he.isCalm hc,
        fun w own _ => closedUnderLoop_calm.own w own⟩
    exact hsteps _ ⟨atEach_nil, by simp [JobWorld.start]⟩
  cases hr : entering seams target (JobWorld.start seams target sink store) with
  | mk r w =>
    rw [hr] at hcalm
    cases r with
    | error halt =>
      have hends : EndsEarly halt w.trace := by
        cases hitem : availabilityItem target.content with
        | ok item => exact (wp_of_run_error hr).mp (wp_entering_answers hitem hhost hunasked)
        | error e => exact (wp_of_run_error hr).mp (wp_entering_bare hitem hhost hunasked)
      rw [downloadResource, runJob_eq, bind_of_error hr]
      exact hends.truthful_iff hcalm.absorbs
    | ok commitment =>
      have henter : (entering seams target (JobWorld.start seams target sink store)).1
          = .ok commitment := by rw [hr]
      obtain ⟨item, hitem⟩ := availabilityItem_of_entering henter
      obtain ⟨hbooks, -, -, -⟩ := loopStart_spec henter
      rw [loopStart, hr] at hbooks
      have hconfirmed : Confirmed w.trace :=
        (wp_of_run_ok hr).mp (wp_entering_answers hitem hhost hunasked)
      rw [downloadResource, runJob_eq, bind_of_ok hr]
      have hsteps : Steps (Appends fun _ => True) (entered seams target turns commitment) :=
        Steps.bind (steps_scheduleLoop (closedUnderLoop_appends.mono fun _ _ => trivial) turns)
          fun _ => steps_finish commitment (closedUnderKeeping_appends.mono fun _ _ => trivial)
      have hconfirmed' := (hsteps w).confirmed hconfirmed
      rw [reportsTruthfully_of_confirmed hconfirmed', decided_of_confirmed hconfirmed']
      have hentered : wp (entered seams target turns commitment) _ _ w :=
        wp_entered_calm hhost hitem hbooks hcalm turns
      cases hend : entered seams target turns commitment w with
      | mk r' w' =>
        cases r' with
        | ok n =>
          have hcalm' : Calm w' := (wp_of_run_ok hend).mp hentered
          exact iff_of_true (fun content => by simp) hcalm'.absorbs
        | error halt => exact noAbsence_iff ((wp_of_run_error hend).mp hentered)

end Run

/-- The small download reports no absence. -/
theorem reportsTruthfully_small :
    Decided (downloadResource smallResourceSeams smallTarget [.completed 1, .completed 0] emptySink
      emptyStore).2.trace := by
  refine (reportsTruthfully_iff _ _ _ _ _ fun e => healthy_isTerminal).mp ⟨fun content hrun => ?_,
    fun _ hrefused => ?_⟩
  · have hok : (downloadResource smallResourceSeams smallTarget [.completed 1, .completed 0] emptySink
        emptyStore).1 = .ok 3 := by decide +kernel
    rw [hok] at hrun
    cases hrun
  · have hasked : answers (downloadResource smallResourceSeams smallTarget [.completed 1, .completed 0]
        emptySink emptyStore).2.trace = [(holderA, .ok [true])] := by decide +kernel
    rw [hasked] at hrefused
    obtain ⟨e, herror, -⟩ := hrefused _ (List.mem_singleton_self _)
    cases herror

/-- The small download in onion mode, which is switched off. -/
def silencedSeams : ResourceSeams :=
  smallResourceSeams.overOnion { enabled := false, relaysAsksOnly := true, maxBytesPerStream := 0 }

/-- A node whose onion mode is off says that the content of an honest holder is not there. -/
theorem refusal_reported_absent :
    ¬ ∀ (seams : ResourceSeams) (target : Target) (turns : List Turn) (sink : Sink)
      (store : StateStore), (∀ e, seams.host.Raises e → e.IsTerminal) →
      ReportsTruthfully (downloadResource seams target turns sink store) := by
  intro h
  have htruthful := h silencedSeams smallTarget [] emptySink emptyStore fun e => healthy_isTerminal
  obtain ⟨-, -, -, hdenied⟩ := htruthful.1 "no providers located for Root" (by decide +kernel)
  have hasked : answers (downloadResource silencedSeams smallTarget [] emptySink emptyStore).2.trace
      = [(holderA, .error (.state StreamRelayRefusal.disabled.display))] := by decide +kernel
  rw [hasked] at hdenied
  exact hdenied _ (List.mem_singleton_self _)

end DigDownload
