import DigDownload.Module.Integrity
import DigDownload.Module.Truth
import DigDownload.Resource.Traces

/-!
# The commit point

Once `finalize` has succeeded the artifact is there. A download of a resource that returns
an error has promoted nothing: all that can fail lies before the promotion, and the clear
of the checkpoint after it is allowed to fail. The pull of a module reports a failure of
that clear as its own.
-/

namespace DigDownload

open Prog

section Promoted

variable {Ask Own : Type} {K : Effect Ask → Prop} {w w' : World Ask Own}

/-- The staging area was promoted. -/
def Promoted (trace : List (Effect Ask)) : Prop := .finalize true ∈ trace

instance : DecidablePred (@Promoted Ask) := fun trace =>
  decidable_of_iff (trace.any fun | .finalize true => true | _ => false) (by
    rw [List.any_eq_true, Promoted]
    constructor
    · intro h
      obtain ⟨e, hmem, he⟩ := h
      split at he
      · exact hmem
      · cases he
    · exact fun hmem => ⟨_, hmem, rfl⟩)

theorem Appends.unpromoted (h : Appends K w w') (hK : ¬ K (.finalize true))
    (hw : ¬ Promoted w.trace) : ¬ Promoted w'.trace := by
  obtain ⟨seg, hseg, hk⟩ := h
  intro hmem
  rw [Promoted, hseg, List.mem_append] at hmem
  cases hmem with
  | inl hmem => exact hw hmem
  | inr hmem => exact hK (hk _ hmem)

/-- A promotion that is refused promotes nothing. -/
theorem wp_promoteVerified_unpromoted {host : Host} {len : Nat} {Q : Unit → World Ask Own → Prop}
    {E : DownloadError → World Ask Own → Prop} (h : ¬ Promoted w.trace)
    (hok : ∀ w', (∃ before, ¬ Promoted before ∧ w'.trace = before ++ [.finalize true]) → Q () w')
    (herr : ∀ e w', ¬ Promoted w'.trace → E e w') :
    wp (promoteVerified host len) Q E w := by
  -- the probes of the staging area are reads
  have hprobed : ∀ (ok : Bool) (reads : List (Effect Ask)),
      (∀ e ∈ reads, ∃ off n b, e = Effect.readAt off n b) →
      ¬ Promoted (w.trace ++ [.truncate len ok] ++ reads) := by
    intro ok reads hreads hmem
    simp only [Promoted, List.mem_append, List.mem_singleton, reduceCtorEq, or_false] at hmem
    cases hmem with
    | inl hmem => exact h hmem
    | inr hmem =>
      obtain ⟨off, n, b, hread⟩ := hreads _ hmem
      cases hread
  refine wp_promoteVerified (fun reads _ _ hreads => ?_) (fun e w' _ _ _ htrace => herr e w' ?_)
  · exact hok _ ⟨_, hprobed true reads hreads, rfl⟩
  · cases htrace with
    | inl htrace =>
      rw [htrace]
      simpa using hprobed false [] (by simp)
    | inr htrace =>
      obtain ⟨reads, fin, hfin, hreads, htrace⟩ := htrace
      rw [htrace]
      intro hmem
      cases List.mem_append.mp hmem with
      | inl hmem => exact hprobed true reads hreads hmem
      | inr hmem => cases List.mem_singleton.mp (hfin hmem)

end Promoted

/-! ## A resource -/

section Resource

variable {seams : ResourceSeams} {w : JobWorld}

/-- What is left to do after the promotion cannot fail. -/
theorem wp_finish_unpromoted (key : String) (commitment : ResourceCommitment)
    (h : ¬ Promoted w.trace) :
    wp (finish seams key commitment) (fun _ _ => True) (fun _ w' => ¬ Promoted w'.trace) w := by
  have hbackstop : ¬ (Effect.finalize true : Effect ResourceAsk).IsBackstop := id
  rw [finish, wp_bind]
  have hsteps : Steps (Appends Effect.IsBackstop) (backstop seams key commitment) :=
    steps_backstop commitment (closedUnderKeeping_appends.mono fun _ he => he.1)
  refine (hsteps.wp w).mono (fun _ w₁ h₁ => ?_)
    (fun _ w' h' => h'.unpromoted hbackstop h)
  have h₁' := h₁.unpromoted hbackstop h
  rw [wp_bind, wp_attempt]
  refine wp_promoteVerified_unpromoted h₁' (fun w₂ _ => ?_) (fun e w₂ h₂ => ?_)
  · dsimp only
    rw [wp_bind, wp_ignoringFailure]
    exact wp_storeClear trivial (fun _ => trivial)
  · have hrefusal : ¬ (Effect.finalize true : Effect ResourceAsk).IsRefused := id
    exact ((steps_refuse closedUnder_appends e.display e).wp w₂).mono (fun _ _ _ => trivial)
      (fun _ w' h' => h'.unpromoted hrefusal h₂)

theorem runJob_unpromoted (target : Target) (turns : List Turn) (h : ¬ Promoted w.trace) :
    wp (runJob seams target turns) (fun _ _ => True) (fun _ w' => ¬ Promoted w'.trace) w := by
  have hsetup : ¬ (Effect.finalize true : Effect ResourceAsk).IsSetup := id
  have hloop : ¬ (Effect.finalize true : Effect ResourceAsk).IsLoop := by
    intro h
    cases h with
    | inl h => exact h
    | inr h => exact h
  rw [runJob_eq, wp_bind]
  refine ((steps_entering closedUnderSetup_appends).wp w).mono (fun commitment w₁ h₁ => ?_)
    (fun _ w' h' => h'.unpromoted hsetup h)
  have hentered := h₁.unpromoted hsetup h
  rw [entered, wp_bind]
  refine ((steps_scheduleLoop closedUnderLoop_appends turns).wp w₁).mono (fun _ w₂ h₂ => ?_)
    (fun _ w' h' => h'.unpromoted hloop hentered)
  exact wp_finish_unpromoted _ _ (h₂.unpromoted hloop hentered)

end Resource

/-! ## A module -/

/-- How a pull that promoted ends: with the clear of the checkpoint, which fails or not. -/
def Committed (host : Host) (cleared : Bool) (w : PullWorld) : Prop :=
  ∃ before key, ¬ Promoted before ∧ w.trace = before ++ [.finalize true, .clear key cleared] ∧
    (host.clear (before.length + 1)).isNone = cleared

section Module

variable {seams : ModuleSeams} {c : Capsule} {info : ModuleInfo} {w : PullWorld}

theorem wp_promoteModule_committed (key : String) (total : Nat) (h : ¬ Promoted w.trace) :
    wp (promoteModule seams key total) (fun _ w' => Committed seams.host true w')
      (fun f w' => ¬ Promoted w'.trace ∨
        (∃ e, f = .terminal e) ∧ Committed seams.host false w') w := by
  unfold promoteModule
  rw [wp_handle]
  refine wp_promoteVerified_unpromoted h (fun w₁ h₁ => ?_) (fun e w₁ h₁ => ?_)
  · obtain ⟨before, hbefore, htrace⟩ := h₁
    have hlen : w₁.tick = before.length + 1 := by simp [World.tick, htrace]
    rw [wp_bind, wp_orTerminal]
    unfold wp storeClear
    cases hclear : seams.host.clear w₁.tick with
    | none =>
      rw [hlen] at hclear
      exact ⟨before, key, hbefore, by simp [World.note, htrace], by rw [hclear]; rfl⟩
    | some e =>
      rw [hlen] at hclear
      exact Or.inr ⟨⟨e, rfl⟩, before, key, hbefore, by simp [World.note, htrace],
        by rw [hclear]; rfl⟩
  · have hclear : Steps (Appends (· ≠ .finalize true))
        (ignoringFailure (storeClear seams.host key) : Prog PullWorld PullFailure Unit) :=
      steps_ignoringFailure (steps_storeClear closedUnder_appends (by simp))
    have htruncate : Steps (Appends (· ≠ .finalize true))
        (ignoringFailure (sinkTruncate seams.host 0) : Prog PullWorld PullFailure Unit) :=
      steps_ignoringFailure (steps_sinkTruncate closedUnder_appends (by simp))
    have hkeeps : ∀ w' : PullWorld, Appends (· ≠ .finalize true) w₁ w' → ¬ Promoted w'.trace :=
      fun w' h' => h'.unpromoted (fun hne => hne rfl) h₁
    rw [wp_bind]
    refine (hclear.wp w₁).mono (fun _ w₂ h₂ => ?_) (fun _ w₂ h₂ => Or.inl (hkeeps w₂ h₂))
    rw [wp_bind]
    exact (htruncate.wp w₂).mono (fun _ w₃ h₃ => Or.inl (hkeeps w₃ (IsTrans.trans _ _ _ h₂ h₃)))
      (fun _ w₃ h₃ => Or.inl (hkeeps w₃ (IsTrans.trans _ _ _ h₂ h₃)))

theorem wp_gateAndPromote_committed (layout : ChunkPlan) (hashed : Bytes) (h : ¬ Promoted w.trace) :
    wp (gateAndPromote seams c info layout hashed) (fun _ w' => Committed seams.host true w')
      (fun f w' => ¬ Promoted w'.trace ∨
        (∃ e, f = .terminal e) ∧ Committed seams.host false w') w := by
  have hnote : ∀ {w : PullWorld} (a : ModuleAsk), ¬ Promoted w.trace →
      ¬ Promoted (w.note (.ask a)).trace := by
    intro w a hw
    simpa [Promoted] using hw
  unfold gateAndPromote
  dsimp only
  rw [wp_bind, wp_markPull]
  split
  · exact Or.inl (hnote _ h)
  rw [wp_bind, wp_read]
  split
  · exact Or.inl (hnote _ h)
  rw [wp_bind, wp_askSeam]
  split
  · exact Or.inl (hnote _ (hnote _ h))
  · exact Or.inl (hnote _ (hnote _ h))
  · exact wp_promoteModule_committed _ _ (hnote _ (hnote _ h))

/-- A pull under one descriptor fails after a promotion only when the clear of the
checkpoint fails. -/
theorem wp_pullWithDescriptor_committed (h : ¬ Promoted w.trace) :
    wp (pullWithDescriptor seams c info) (fun _ w' => Committed seams.host true w')
      (fun f w' => ¬ Promoted w'.trace ∨
        (∃ e, f = .terminal e) ∧ Committed seams.host false w') w := by
  have hentering : ¬ (Effect.finalize true : Effect ModuleAsk).IsEntering := id
  have hstaging : ¬ (Effect.finalize true : Effect ModuleAsk).IsStaging := id
  refine wp_pullWithDescriptor_stages (fun f w₁ hentry => ?_) (fun layout state w₁ henters => ?_)
  · exact Or.inl (hentry.quiet.appends.unpromoted hentering h)
  · have h₁ := henters.appends.unpromoted hentering h
    rw [pullWithDescriptor.stageAndPromote, wp_bind]
    refine (wp_stageChunks state.doneRanges state.takeDone w₁).mono (fun acc w₂ h₂ => ?_)
      (fun f w₂ h₂ => Or.inl (h₂.2.appends.unpromoted hstaging h₁))
    exact wp_gateAndPromote_committed _ _ (h₂.2.appends.unpromoted hstaging h₁)

theorem wp_descriptorAttempt_committed (exclusions : DescriptorExclusions) (h : ¬ Promoted w.trace) :
    wp (descriptorAttempt seams c exclusions)
      (fun r w' => match r with
        | .inl _ => Committed seams.host true w'
        | .inr _ => ¬ Promoted w'.trace)
      (fun _ w' => ¬ Promoted w'.trace ∨ Committed seams.host false w') w := by
  have hdescriptor : ∀ {w w' : PullWorld}, Quiet Effect.IsDescriptorAsk w w' →
      ¬ Promoted w.trace → ¬ Promoted w'.trace := fun h' hw => h'.appends.unpromoted id hw
  rw [descriptorAttempt, wp_bind, wp_read]
  dsimp only
  rw [wp_handle]
  refine ((quiet_fetchModuleInfo _).wp w).mono (fun r w₁ h₁ => ?_)
    (fun e w₁ h₁ => hdescriptor h₁ h)
  dsimp only
  rw [wp_handle]
  refine (wp_pullWithDescriptor_committed (hdescriptor h₁ h)).mono (fun n w₂ h₂ => h₂)
    (fun f w₂ h₂ => ?_)
  -- the demotion, after a failure that says something about the descriptor
  have hdemote : (∀ e, f ≠ .terminal e) → ∀ (failed : PullWorld → FailedAttempt),
      wp (do
          recordIfProvenFalse seams (moduleDownloadKey c) r.1 f
          markPull (.demote r.1)
          let w ← Prog.read
          pure (.inr (failed w)) : PullM (Nat ⊕ FailedAttempt))
        (fun r w' => match r with
          | .inl _ => Committed seams.host true w'
          | .inr _ => ¬ Promoted w'.trace)
        (fun _ w' => ¬ Promoted w'.trace ∨ Committed seams.host false w') w₂ := by
    intro hf failed
    have h₂' : ¬ Promoted w₂.trace := by
      cases h₂ with
      | inl h₂ => exact h₂
      | inr h₂ =>
        obtain ⟨e, he⟩ := h₂.1
        exact absurd he (hf e)
    have hrecord : Steps (Appends (· ≠ .finalize true))
        (recordIfProvenFalse seams (moduleDownloadKey c) r.1 f) := by
      unfold recordIfProvenFalse
      split
      · exact steps_ignoringFailure (steps_storeRecordBadDescriptor closedUnder_appends (by simp))
      · exact Steps.pure _
    rw [wp_bind]
    refine (hrecord.wp w₂).mono (fun _ w₃ h₃ => ?_)
      (fun _ w₃ h₃ => Or.inl (h₃.unpromoted (fun hne => hne rfl) h₂'))
    rw [wp_bind, wp_markPull, wp_bind, wp_read, wp_pure]
    have h₃' := h₃.unpromoted (fun hne => hne rfl) h₂'
    simpa [Promoted] using h₃'
  cases f with
  | terminal e => exact h₂.imp_right fun h => h.2
  | badDescriptor e => exact hdemote (by simp) _
  | unsatisfiableDescriptor e => exact hdemote (by simp) _

theorem wp_attemptLoop_committed (left : Nat) :
    ∀ (exclusions : DescriptorExclusions) (w : PullWorld), ¬ Promoted w.trace →
      wp (attemptLoop seams c left exclusions) (fun _ w' => Committed seams.host true w')
        (fun _ w' => ¬ Promoted w'.trace ∨ Committed seams.host false w') w := by
  induction left with
  | zero =>
    intro exclusions w h
    rw [attemptLoop, wp_bind]
    refine (wp_descriptorAttempt_committed exclusions h).mono (fun r w₁ hr => ?_) (fun _ _ he => he)
    cases r with
    | inl n => exact hr
    | inr failed => exact Or.inl hr
  | succ left ih =>
    intro exclusions w h
    rw [attemptLoop, wp_bind]
    refine (wp_descriptorAttempt_committed exclusions h).mono (fun r w₁ hr => ?_) (fun _ _ he => he)
    cases r with
    | inl n => exact hr
    | inr failed =>
      dsimp only
      split
      · exact Or.inl hr
      · exact ih failed.exclusions w₁ hr

theorem wp_download_committed (seams : ModuleSeams) (c : Capsule) (h : ¬ Promoted w.trace) :
    wp (download seams c) (fun _ w' => Committed seams.host true w')
      (fun _ w' => ¬ Promoted w'.trace ∨ Committed seams.host false w') w := by
  refine wp_download_of_invariant h ?_ ?_ ?_ Or.inl
    fun remembered w₁ h₁ => wp_attemptLoop_committed _ _ _ h₁
  · exact fun h₁ => by simpa [Promoted] using h₁
  · exact fun h₁ => h₁
  · exact fun h₁ => by simpa [Promoted] using h₁

end Module

/-! ## Both -/

/-- A download of a resource that fails has promoted nothing. A pull of a module that fails
has promoted nothing if and only if the clear of the checkpoint directly after a promotion
does not fail. -/
theorem failed_only_unpromoted (resource : ResourceSeams) (target : Target) (turns : List Turn)
    (seams : ModuleSeams) (c : Capsule) (sink : Sink) (store : StateStore) :
    (∀ halt, (downloadResource resource target turns sink store).1 = .error halt →
      ¬ Promoted (downloadResource resource target turns sink store).2.trace) ∧
      let run := download seams c (PullWorld.fresh sink store)
      (∀ e, run.1 = .error e → ¬ Promoted run.2.trace) ↔
        ∀ n, run.2.trace[n]? = some (.finalize true) → seams.host.clear (n + 1) = none := by
  refine ⟨fun halt hrun => ?_, ?_⟩
  · exact (runJob_unpromoted target turns (show ¬ Promoted [] from List.not_mem_nil)).error hrun
  intro run
  have hfresh : ¬ Promoted (PullWorld.fresh sink store).trace := List.not_mem_nil
  have hrun := wp_iff.mp (wp_download_committed seams c hfresh)
  -- where a run promoted, and what the clear after it came to
  have hcommitted : ∀ cleared, Committed seams.host cleared run.2 →
      ∃ n, run.2.trace[n]? = some (.finalize true) ∧
        (seams.host.clear (n + 1)).isNone = cleared ∧
        ∀ m, run.2.trace[m]? = some (.finalize true) → m = n := by
    intro cleared hc
    obtain ⟨before, key, hbefore, htrace, hclear⟩ := hc
    refine ⟨before.length, by simp [htrace], hclear, fun m hm => ?_⟩
    by_contra hne
    rw [htrace] at hm
    rcases Nat.lt_or_gt_of_ne hne with hlt | hgt
    · rw [List.getElem?_append_left hlt] at hm
      exact hbefore (List.mem_of_getElem? hm)
    · rw [List.getElem?_append_right (Nat.le_of_lt hgt)] at hm
      have hafter : (Effect.finalize true : Effect ModuleAsk) ∈ [.clear key cleared] := by
        refine List.mem_of_getElem? (i := m - before.length - 1) ?_
        rwa [← List.getElem?_cons_succ, Nat.sub_add_cancel (Nat.sub_pos_of_lt hgt)]
      simp at hafter
  constructor
  · intro hfailed n hn
    cases hr : run.1 with
    | error e => exact absurd (List.mem_of_getElem? hn) (hfailed e hr)
    | ok len =>
      obtain ⟨m, -, hclear, honly⟩ := hcommitted true (hrun.1 len hr)
      rw [honly n hn]
      exact Option.isNone_iff_eq_none.mp hclear
  · intro hcleared e hr
    rcases hrun.2 e hr with hno | hc
    · exact hno
    · obtain ⟨m, hm, hclear, -⟩ := hcommitted false hc
      rw [hcleared m hm] at hclear
      cases hclear

/-- The small module, on a node whose store cannot drop a checkpoint. -/
def stuckStoreSeams : ModuleSeams :=
  { smallSeams with host := { Host.healthy with clear := fun _ => some (.state "read-only store") } }

/-- A promoted module is reported as a failed download. -/
theorem promoted_and_failed :
    ¬ ∀ (seams : ModuleSeams) (c : Capsule) (sink : Sink) (store : StateStore) (e : DownloadError),
      (download seams c (PullWorld.fresh sink store)).1 = .error e →
        ¬ Promoted (download seams c (PullWorld.fresh sink store)).2.trace := by
  intro h
  exact h stuckStoreSeams smallCapsule emptySink emptyStore (.state "read-only store")
    (by decide +kernel) (by decide +kernel)

end DigDownload
