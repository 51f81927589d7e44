import DigDownload.Module.Rounds

/-!
# Whom a pull that gives up blames

The attempt loop gives up when its attempts are spent or no holder is left to ask. Its
error is then that of the last attempt: the failed pull of the descriptor which that
attempt obtained, or the failure of its round of asks. This module says when that is the
error the call as a whole had. Rounds that obtain a descriptor and rounds that do not
share one budget, so a descriptor whose pull failed is forgotten when later rounds are
not answered.
-/

namespace DigDownload

open Slices Tiling Prog Past

/-! ## Rounds -/

/-- An answer after which the round asks the next holder. -/
def PassesOn (answer : Answer ModuleInfo) : Prop :=
  ∀ r, answer = some r → ∃ e : DownloadError, r = .error e ∧ e.isRecoverable = true

/-- Somebody answers a round with a descriptor: one of the peers, asked one after the other
from call `t` on, and every peer before it passes the ask on. -/
def SomeoneAnswers (seams : ModuleSeams) (c : Capsule) (t : Nat) (peers : List String) : Prop :=
  ∃ i peer info, peers[i]? = some peer ∧ seams.getModuleInfo (t + i) peer c = some (.ok info) ∧
    ∀ j < i, ∀ q, peers[j]? = some q → PassesOn (seams.getModuleInfo (t + j) q c)

/-- The holders that are not excluded, in the order they are asked in. -/
def askable (x : DescriptorExclusions) (w : PullWorld) : List String :=
  (knownIds w).filter (· ∉ x.excluded)

/-- Somebody answers the round of the attempt that begins in `w` with the exclusions `x`. -/
def RoundAnswered (seams : ModuleSeams) (c : Capsule) (x : DescriptorExclusions)
    (w : PullWorld) : Prop :=
  SomeoneAnswers seams c w.tick (askable (x.settle w.own) w)

/-- A descriptor was obtained. -/
def Obtained (log : List (Effect ModuleAsk)) : Prop := ∃ e ∈ log, e.IsDescriptor

/-- The round of the attempt that begins in `w` fails with the error `e`. -/
def RoundFails (seams : ModuleSeams) (c : Capsule) (x : DescriptorExclusions) (w : PullWorld)
    (e : DownloadError) : Prop :=
  ∃ w', fetchModuleInfo seams c (x.settle w.own).excluded w = (.error e, w')

/-- The attempt that begins in `w` obtains a descriptor, whose pull fails with the error
`e`, not by this node's own fault. -/
def DescriptorFails (seams : ModuleSeams) (c : Capsule) (x : DescriptorExclusions)
    (w : PullWorld) (e : DownloadError) : Prop :=
  ∃ source info w₁ f w₂,
    fetchModuleInfo seams c (x.settle w.own).excluded w = (.ok (source, info), w₁) ∧
      pullWithDescriptor seams c info w₁ = (.error f, w₂) ∧ (∀ e', f ≠ .terminal e') ∧ f.error = e

section Rounds

variable {seams : ModuleSeams} {c : Capsule} {w w₁ w' : PullWorld} {n : Nat}
  {x : DescriptorExclusions} {e : DownloadError} {failed : FailedAttempt}

section Answers

variable {t : Nat} {peer : String} {peers : List String} {info : ModuleInfo}

@[simp] theorem not_someoneAnswers_nil : ¬ SomeoneAnswers seams c t [] := by
  rintro ⟨i, p, info, hp, -⟩
  simp at hp

theorem someoneAnswers_of_head (h : seams.getModuleInfo t peer c = some (.ok info)) :
    SomeoneAnswers seams c t (peer :: peers) :=
  ⟨0, peer, info, rfl, h, fun j hj => absurd hj (Nat.not_lt_zero j)⟩

/-- Behind a peer that passes the ask on, the rest of the round decides. -/
theorem someoneAnswers_cons_of_passesOn (h : PassesOn (seams.getModuleInfo t peer c)) :
    SomeoneAnswers seams c t (peer :: peers) ↔ SomeoneAnswers seams c (t + 1) peers := by
  have hshift : ∀ j, t + 1 + j = t + (j + 1) := fun j => by omega
  constructor
  · rintro ⟨i, p, info, hp, hinfo, hbefore⟩
    cases i with
    | zero =>
      rw [List.getElem?_cons_zero, Option.some.injEq] at hp
      subst hp
      obtain ⟨e, he, -⟩ := h _ hinfo
      cases he
    | succ i =>
      refine ⟨i, p, info, hp, (hshift i).symm ▸ hinfo, fun j hj q hq => ?_⟩
      rw [hshift]
      exact hbefore (j + 1) (Nat.succ_lt_succ hj) q hq
  · rintro ⟨i, p, info, hp, hinfo, hbefore⟩
    refine ⟨i + 1, p, info, hp, hshift i ▸ hinfo, fun j hj q hq => ?_⟩
    cases j with
    | zero =>
      rw [List.getElem?_cons_zero, Option.some.injEq] at hq
      exact hq ▸ h
    | succ j =>
      rw [← hshift]
      exact hbefore j (Nat.lt_of_succ_lt_succ hj) q hq

/-- A peer that answers with an error which is not recoverable ends the round. -/
theorem not_someoneAnswers_of_refusal (h : seams.getModuleInfo t peer c = some (.error e))
    (he : e.isRecoverable = false) : ¬ SomeoneAnswers seams c t (peer :: peers) := by
  rintro ⟨i, p, info, hp, hinfo, hbefore⟩
  cases i with
  | zero =>
    rw [List.getElem?_cons_zero, Option.some.injEq] at hp
    subst hp
    rw [Nat.add_zero, h] at hinfo
    cases hinfo
  | succ i =>
    obtain ⟨e', he', hrec⟩ := hbefore 0 (Nat.succ_pos i) peer rfl _ h
    cases he'
    rw [he] at hrec
    cases hrec

end Answers

/-- A round obtains a descriptor exactly when somebody answers it with one. -/
theorem wp_askDescriptors_answers (excluded : List String) :
    ∀ (providers : List ProviderRecord) (reasons : HolderReasons) (tried : Nat) (w : PullWorld),
      wp (askDescriptors seams c excluded providers reasons tried)
        (fun _ _ => SomeoneAnswers seams c w.tick
          ((providers.map (·.providerPeerId)).filter (· ∉ excluded)))
        (fun _ _ => ¬ SomeoneAnswers seams c w.tick
          ((providers.map (·.providerPeerId)).filter (· ∉ excluded))) w
  | [], reasons, tried, w => by
      show ¬ SomeoneAnswers seams c w.tick []
      simp
  | provider :: providers, reasons, tried, w => by
      unfold askDescriptors
      dsimp only
      split
      · rename_i hex
        rw [List.map_cons, List.filter_cons_of_neg (by simpa using hex)]
        exact wp_askDescriptors_answers excluded providers reasons tried w
      · rename_i hex
        rw [List.map_cons, List.filter_cons_of_pos (by simpa using hex), wp_bind, wp_askSeam]
        -- the rest of the round, once this holder passed the ask on
        have hrest : ∀ (answer : Answer ModuleInfo) (reasons : HolderReasons) (tried : Nat),
            seams.getModuleInfo w.tick provider.providerPeerId c = answer → PassesOn answer →
            wp (askDescriptors seams c excluded providers reasons tried)
              (fun _ _ => SomeoneAnswers seams c w.tick (provider.providerPeerId ::
                (providers.map (·.providerPeerId)).filter (· ∉ excluded)))
              (fun _ _ => ¬ SomeoneAnswers seams c w.tick (provider.providerPeerId ::
                (providers.map (·.providerPeerId)).filter (· ∉ excluded)))
              (w.note (.ask (.getModuleInfo provider.providerPeerId answer))) := by
          intro answer reasons tried hanswer hpass
          rw [someoneAnswers_cons_of_passesOn (hanswer ▸ hpass)]
          have htick : (w.note (.ask (.getModuleInfo provider.providerPeerId answer))).tick
              = w.tick + 1 := by simp [World.tick]
          exact htick ▸ wp_askDescriptors_answers excluded providers reasons tried
            (w.note (.ask (.getModuleInfo provider.providerPeerId answer)))
        cases hanswer : seams.getModuleInfo w.tick provider.providerPeerId c with
        | none => exact hrest none _ _ hanswer fun r hr => by cases hr
        | some answer =>
          cases answer with
          | ok info => exact someoneAnswers_of_head hanswer
          | error e =>
            dsimp only
            cases hrec : e.isRecoverable with
            | true =>
              rw [if_pos rfl]
              refine hrest (some (.error e)) _ _ hanswer fun r hr => ?_
              cases hr
              exact ⟨e, rfl, hrec⟩
            | false =>
              rw [if_neg Bool.false_ne_true]
              exact not_someoneAnswers_of_refusal hanswer hrec

theorem wp_fetchModuleInfo_answers (x : DescriptorExclusions) (w : PullWorld) :
    wp (fetchModuleInfo seams c (x.settle w.own).excluded) (fun _ _ => RoundAnswered seams c x w)
      (fun _ _ => ¬ RoundAnswered seams c x w) w := by
  unfold fetchModuleInfo
  rw [wp_bind, wp_read]
  exact wp_askDescriptors_answers _ w.own [] 0 w

theorem RoundFails.not_answered (h : RoundFails seams c x w e) : ¬ RoundAnswered seams c x w := by
  obtain ⟨w', hw'⟩ := h
  exact (wp_of_run_error hw').mp (wp_fetchModuleInfo_answers x w)

theorem DescriptorFails.answered (h : DescriptorFails seams c x w e) :
    RoundAnswered seams c x w := by
  obtain ⟨source, info, w₁, f, w₂, hfetch, -⟩ := h
  exact (wp_of_run_ok hfetch).mp (wp_fetchModuleInfo_answers x w)

/-! ## What an attempt comes to -/

/-- What the attempt that begins in `w` with the exclusions `x` comes to, and the state it
leaves. -/
inductive AttemptEnds (seams : ModuleSeams) (c : Capsule) (x : DescriptorExclusions)
    (w : PullWorld) : Except DownloadError (Nat ⊕ FailedAttempt) → PullWorld → Prop where
  | unanswered {e : DownloadError} {w₁ : PullWorld}
      (hround : fetchModuleInfo seams c (x.settle w.own).excluded w = (.error e, w₁)) :
      AttemptEnds seams c x w
        (.ok (.inr { error := e, exclusions := x.settle w.own, noneLeft := false })) w₁
  | delivered {source : String} {info : ModuleInfo} {len : Nat} {w₁ w₂ : PullWorld}
      (hround : fetchModuleInfo seams c (x.settle w.own).excluded w = (.ok (source, info), w₁))
      (hpull : pullWithDescriptor seams c info w₁ = (.ok len, w₂)) :
      AttemptEnds seams c x w (.ok (.inl len)) w₂
  | terminal {source : String} {info : ModuleInfo} {e : DownloadError} {w₁ w₂ : PullWorld}
      (hround : fetchModuleInfo seams c (x.settle w.own).excluded w = (.ok (source, info), w₁))
      (hpull : pullWithDescriptor seams c info w₁ = (.error (.terminal e), w₂)) :
      AttemptEnds seams c x w (.error e) w₂
  | demoted {source : String} {info : ModuleInfo} {f : PullFailure} {w₁ w₂ w₃ : PullWorld}
      (hround : fetchModuleInfo seams c (x.settle w.own).excluded w = (.ok (source, info), w₁))
      (hpull : pullWithDescriptor seams c info w₁ = (.error f, w₂))
      (hf : ∀ e, f ≠ .terminal e)
      (hrecord : recordIfProvenFalse seams (moduleDownloadKey c) source f w₂ = (.ok (), w₃)) :
      AttemptEnds seams c x w
        (.ok (.inr {
          error := f.error
          exclusions := (x.settle w.own).demote source
          noneLeft := ((x.settle w.own).demote source).usableHolders w₃.own = 0 &&
            !((x.settle w.own).demote source).trustsMemory }))
        (w₃.note (.ask (.demote source)))

theorem recordIfProvenFalse_ok (seams : ModuleSeams) (key source : String) (f : PullFailure)
    (w : PullWorld) : ∃ w', recordIfProvenFalse seams key source f w = (.ok (), w') := by
  have hwp : wp (recordIfProvenFalse seams key source f) (fun _ _ => True) (fun _ _ => False)
      w := by
    unfold recordIfProvenFalse
    split
    · rw [wp_ignoringFailure]
      exact wp_of_forall (fun _ _ => trivial) (fun _ _ => trivial)
    · trivial
  obtain ⟨_, hok, -⟩ := hwp.exists_ok
  exact ⟨_, Prod.ext hok rfl⟩

theorem attemptEnds (seams : ModuleSeams) (c : Capsule) (x : DescriptorExclusions)
    (w : PullWorld) :
    AttemptEnds seams c x w (descriptorAttempt seams c x w).1 (descriptorAttempt seams c x w).2 := by
  generalize hrun : descriptorAttempt seams c x w = end'
  unfold descriptorAttempt at hrun
  rw [bind_of_ok (show Prog.read w = (.ok w, w) from rfl)] at hrun
  dsimp only at hrun
  cases hround : fetchModuleInfo seams c (x.settle w.own).excluded w with
  | mk r w₁ =>
    rw [handle_of_run hround] at hrun
    cases r with
    | error e =>
      rw [← hrun]
      exact .unanswered hround
    | ok obtained =>
      obtain ⟨source, info⟩ := obtained
      dsimp only at hrun
      cases hpull : pullWithDescriptor seams c info w₁ with
      | mk r w₂ =>
        rw [handle_of_run hpull] at hrun
        cases r with
        | ok len =>
          rw [← hrun]
          exact .delivered hround hpull
        | error f =>
          obtain ⟨w₃, hrecord⟩ :=
            recordIfProvenFalse_ok seams (moduleDownloadKey c) source f w₂
          cases f with
          | terminal e =>
            rw [← hrun]
            exact .terminal hround hpull
          | badDescriptor e =>
            dsimp only at hrun
            rw [bind_of_ok hrecord] at hrun
            rw [← hrun]
            exact .demoted hround hpull (by simp) hrecord
          | unsatisfiableDescriptor e =>
            dsimp only at hrun
            rw [bind_of_ok hrecord] at hrun
            rw [← hrun]
            exact .demoted hround hpull (by simp) hrecord

theorem attemptEnds_of_run {r : Except DownloadError (Nat ⊕ FailedAttempt)}
    (h : descriptorAttempt seams c x w = (r, w')) : AttemptEnds seams c x w r w' := by
  have hends := attemptEnds seams c x w
  rwa [h] at hends

/-- An attempt that does not end the pull failed in its round, or under the descriptor
that it obtained. -/
theorem descriptorAttempt_failed (h : descriptorAttempt seams c x w = (.ok (.inr failed), w')) :
    RoundFails seams c x w failed.error ∨ DescriptorFails seams c x w failed.error := by
  cases attemptEnds_of_run h with
  | unanswered hround => exact Or.inl ⟨_, hround⟩
  | demoted hround hpull hf hrecord => exact Or.inr ⟨_, _, _, _, _, hround, hpull, hf, rfl⟩

/-- An attempt adds to the log, a descriptor exactly when its round is answered. -/
theorem descriptorAttempt_log (h : descriptorAttempt seams c x w = (.ok (.inr failed), w')) :
    ∃ seg, w'.trace = w.trace ++ seg ∧ (Obtained seg ↔ RoundAnswered seams c x w) := by
  cases attemptEnds_of_run h with
  | unanswered hround =>
    obtain ⟨seg, hseg, hasks⟩ := (wp_of_run_error hround).mp (wp_fetchModuleInfo _ w)
    refine ⟨seg, hseg, iff_of_false ?_ (RoundFails.not_answered ⟨_, hround⟩)⟩
    rintro ⟨e', he', hobtained⟩
    exact (hasks e' he').2 hobtained
  | @demoted source info f w₁ w₂ w₃ hround hpull hf hrecord =>
    have hanswered := (wp_of_run_ok hround).mp (wp_fetchModuleInfo_answers x w)
    obtain ⟨-, -, seg, hseg, -⟩ := (wp_of_run_ok hround).mp (wp_fetchModuleInfo _ w)
    obtain ⟨pull, hpulled, -⟩ : Extends w₁ w₂ := by
      have hsteps : Extends w₁ (pullWithDescriptor seams c info w₁).2 :=
        steps_pullWithDescriptor closedUnderRun_extends.pull w₁
      rwa [hpull] at hsteps
    obtain ⟨record, hrecorded, -⟩ : Extends w₂ w₃ := by
      have hsteps : Extends w₂ (recordIfProvenFalse seams (moduleDownloadKey c) source f w₂).2 :=
        steps_recordIfProvenFalse closedUnderRun_extends.effect (fun _ _ _ => trivial) _ _ _ w₂
      rwa [hrecord] at hsteps
    refine ⟨seg ++ [.ask (.getModuleInfo source (some (.ok info)))] ++ pull ++ record ++
      [.ask (.demote source)], ?_, iff_of_true ?_ hanswered⟩
    · rw [World.note_trace, hrecorded, hpulled, hseg]
      simp
    · exact ⟨.ask (.getModuleInfo source (some (.ok info))), by simp, trivial⟩

/-! ## The loop, once its next attempt is known -/

variable {left len : Nat}

theorem attemptLoop_of_delivered
    (hattempt : descriptorAttempt seams c x w = (.ok (.inl len), w')) :
    attemptLoop seams c left x w = (.ok len, w') := by
  cases left with
  | zero =>
    show (descriptorAttempt seams c x >>= _) w = _
    rw [bind_of_ok hattempt]
    rfl
  | succ left =>
    show (descriptorAttempt seams c x >>= _) w = _
    rw [bind_of_ok hattempt]
    rfl

theorem attemptLoop_of_terminal (hattempt : descriptorAttempt seams c x w = (.error e, w')) :
    attemptLoop seams c left x w = (.error e, w') := by
  cases left with
  | zero => exact bind_of_error hattempt
  | succ left => exact bind_of_error hattempt

theorem attemptLoop_of_gaveUp
    (hattempt : descriptorAttempt seams c x w = (.ok (.inr failed), w'))
    (hspent : left = 0 ∨ failed.noneLeft = true) :
    attemptLoop seams c left x w = (.error failed.error, w') := by
  cases left with
  | zero =>
    show (descriptorAttempt seams c x >>= _) w = _
    rw [bind_of_ok hattempt]
    rfl
  | succ left =>
    show (descriptorAttempt seams c x >>= _) w = _
    rw [bind_of_ok hattempt]
    dsimp only
    rcases hspent with hzero | hnone
    · cases hzero
    · rw [if_pos hnone]
      rfl

theorem attemptLoop_of_again (hattempt : descriptorAttempt seams c x w = (.ok (.inr failed), w'))
    (hmore : failed.noneLeft = false) :
    attemptLoop seams c (left + 1) x w = attemptLoop seams c left failed.exclusions w' := by
  show (descriptorAttempt seams c x >>= _) w = _
  rw [bind_of_ok hattempt]
  dsimp only
  rw [if_neg (by simp [hmore])]

/-! ## The attempts before -/

theorem obtained_append {log seg : List (Effect ModuleAsk)} :
    Obtained (log ++ seg) ↔ Obtained log ∨ Obtained seg := by
  unfold Obtained
  simp only [List.mem_append, or_and_right, exists_or]

/-- A pull begins its attempts in one way. -/
theorem AttemptAt.unique (h : AttemptAt seams c w n x w₁) :
    ∀ {x' : DescriptorExclusions} {w₂ : PullWorld}, AttemptAt seams c w n x' w₂ →
      x' = x ∧ w₂ = w₁ := by
  induction h with
  | first hid hlocated hne hremembered =>
    intro x' w₂ h'
    cases h' with
    | first hid' hlocated' hne' hremembered' =>
      rw [hid, Option.some.injEq] at hid'
      subst hid'
      rw [hlocated, Except.ok.injEq] at hlocated'
      subst hlocated'
      rw [hremembered] at hremembered'
      cases hremembered'
      exact ⟨rfl, rfl⟩
  | next h hattempt hleft hmore ih =>
    intro x' w₂ h'
    cases h' with
    | next h' hattempt' hleft' hmore' =>
      obtain ⟨rfl, rfl⟩ := ih h'
      rw [hattempt] at hattempt'
      cases hattempt'
      exact ⟨rfl, rfl⟩

/-- What remains of a pull at the head of an attempt. -/
theorem AttemptAt.download_eq (h : AttemptAt seams c w n x w₁) :
    ∃ left, n + left + 1 = maxDescriptorAttempts ∧
      download seams c w = attemptLoop seams c left x w₁ := by
  induction h with
  | @first id located remembered w₁ hid hlocated hne hremembered =>
    refine ⟨maxDescriptorAttempts - 1, rfl, ?_⟩
    unfold download
    rw [hid]
    dsimp only
    rw [bind_of_ok (run_findProviders hlocated), if_neg hne]
    exact (bind_of_ok (show Prog.update _ _ = (.ok (), _) from rfl)).trans (bind_of_ok hremembered)
  | @next n x w₁ w₂ failed h hattempt hleft hmore ih =>
    obtain ⟨left, hn, hrest⟩ := ih
    cases left with
    | zero => exact absurd hleft (by omega)
    | succ left =>
      exact ⟨left, by omega, hrest.trans (attemptLoop_of_again hattempt hmore)⟩

/-- Before the first attempt the holders are located and the remembered verdicts read. -/
theorem AttemptAt.log_of_first (h : AttemptAt seams c w 0 x w₁) :
    ∃ located ok, w₁.trace = w.trace ++
      [.ask (.findProviders (.ok located)), .badDescriptorPeers (moduleDownloadKey c) ok] := by
  cases h with
  | @first id located remembered _ hid hlocated hne hremembered =>
    have hread : wp (rememberedVerdicts seams (moduleDownloadKey c))
        (fun _ w' => ∃ ok, w'.trace = w.trace ++
          [.ask (.findProviders (.ok located)), .badDescriptorPeers (moduleDownloadKey c) ok])
        (fun _ _ => False)
        { w.note (.ask (.findProviders (.ok located))) with own := located } :=
      wp_rememberedVerdicts_reads ⟨true, by simp⟩ ⟨false, by simp⟩
    exact ⟨located, (wp_of_run_ok hremembered).mp hread⟩

/-- The log at the head of an attempt shows whether an earlier round was answered. -/
theorem AttemptAt.log (h : AttemptAt seams c w n x w₁) :
    ∃ seg, w₁.trace = w.trace ++ seg ∧
      (Obtained seg ↔ ∃ m < n, ∃ x' w₂, AttemptAt seams c w m x' w₂ ∧
        RoundAnswered seams c x' w₂) := by
  induction h with
  | first hid hlocated hne hremembered =>
    obtain ⟨located, ok, htrace⟩ :=
      (AttemptAt.first hid hlocated hne hremembered).log_of_first
    refine ⟨_, htrace, iff_of_false ?_ ?_⟩
    · simp [Obtained, Effect.IsDescriptor]
    · rintro ⟨m, hm, -⟩
      exact absurd hm (Nat.not_lt_zero m)
  | @next n x w₁ w₂ failed h hattempt hleft hmore ih =>
    obtain ⟨seg, hseg, hbefore⟩ := ih
    obtain ⟨seg', hseg', hthis⟩ := descriptorAttempt_log hattempt
    refine ⟨seg ++ seg', by rw [hseg', hseg, List.append_assoc], ?_⟩
    rw [obtained_append, hbefore, hthis]
    constructor
    · rintro (⟨m, hm, hearlier⟩ | hanswered)
      · exact ⟨m, Nat.lt_succ_of_lt hm, hearlier⟩
      · exact ⟨n, Nat.lt_succ_self n, x, w₁, h, hanswered⟩
    · rintro ⟨m, hm, x', w', hm', hanswered⟩
      rcases Nat.lt_succ_iff_lt_or_eq.mp hm with hlt | rfl
      · exact Or.inl ⟨m, hlt, x', w', hm', hanswered⟩
      · obtain ⟨rfl, rfl⟩ := h.unique hm'
        exact Or.inr hanswered

/-! ## Giving up -/

/-- The pull gives up in attempt `n`, begun in `w₁`: it failed there, and the attempts are
spent or no holder is left to ask. -/
structure Exhausted (seams : ModuleSeams) (c : Capsule) (w : PullWorld) (n : Nat)
    (x : DescriptorExclusions) (w₁ : PullWorld) (failed : FailedAttempt) (w' : PullWorld) :
    Prop where
  attempt : AttemptAt seams c w n x w₁
  ends : descriptorAttempt seams c x w₁ = (.ok (.inr failed), w')
  spent : failed.noneLeft = true ∨ n + 1 = maxDescriptorAttempts

/-- The error `e` of a pull that gives up in attempt `n` is the error the call had.
`round`: the failure of a round of asks is reported only when no descriptor was obtained
in the call. `descriptor`: when one was obtained, the error is that of the pull of an
obtained descriptor. -/
structure BlamesRightly (seams : ModuleSeams) (c : Capsule) (w : PullWorld) (n : Nat)
    (x : DescriptorExclusions) (w₁ : PullWorld) (e : DownloadError) (w' : PullWorld) : Prop where
  round : RoundFails seams c x w₁ e → ¬ Obtained (w'.trace.drop w.tick)
  descriptor : Obtained (w'.trace.drop w.tick) →
    ∃ m ≤ n, ∃ x' w₂, AttemptAt seams c w m x' w₂ ∧ DescriptorFails seams c x' w₂ e

theorem Exhausted.download_eq (h : Exhausted seams c w n x w₁ failed w') :
    download seams c w = (.error failed.error, w') := by
  obtain ⟨left, hn, hrest⟩ := h.attempt.download_eq
  refine hrest.trans (attemptLoop_of_gaveUp h.ends ?_)
  rcases h.spent with hnone | hspent
  · exact Or.inr hnone
  · exact Or.inl (by omega)

/-- The log of a pull that gave up shows whether some round of it was answered. -/
theorem Exhausted.obtained_iff (h : Exhausted seams c w n x w₁ failed w') :
    Obtained (w'.trace.drop w.tick) ↔ RoundAnswered seams c x w₁ ∨
      ∃ m < n, ∃ x' w₂, AttemptAt seams c w m x' w₂ ∧ RoundAnswered seams c x' w₂ := by
  obtain ⟨seg, hseg, hbefore⟩ := h.attempt.log
  obtain ⟨seg', hseg', hthis⟩ := descriptorAttempt_log h.ends
  rw [hseg', hseg, List.append_assoc, World.tick, List.drop_left, obtained_append, hbefore, hthis,
    or_comm]

/-- A pull whose last round was answered reports the failure of that descriptor's pull. -/
theorem Exhausted.blamesRightly_of_answered (h : Exhausted seams c w n x w₁ failed w')
    (hanswered : RoundAnswered seams c x w₁) :
    BlamesRightly seams c w n x w₁ failed.error w' where
  round hround := absurd hanswered hround.not_answered
  descriptor _ := by
    rcases descriptorAttempt_failed h.ends with hround | hdescriptor
    · exact absurd hanswered hround.not_answered
    · exact ⟨n, Nat.le_refl n, x, w₁, h.attempt, hdescriptor⟩

/-- A pull whose last round was not answered reports the failure of that round. -/
theorem Exhausted.roundFails (h : Exhausted seams c w n x w₁ failed w')
    (hnot : ¬ RoundAnswered seams c x w₁) : RoundFails seams c x w₁ failed.error := by
  rcases descriptorAttempt_failed h.ends with hround | hdescriptor
  · exact hround
  · exact absurd hdescriptor.answered hnot

/-- The error of a pull that gives up is the error the call had exactly when its last
round was answered with a descriptor, or no earlier round was either. -/
theorem Exhausted.blamesRightly_iff (h : Exhausted seams c w n x w₁ failed w') :
    download seams c w = (.error failed.error, w') ∧
      (BlamesRightly seams c w n x w₁ failed.error w' ↔
        (∃ m < n, ∃ x' w₂, AttemptAt seams c w m x' w₂ ∧ RoundAnswered seams c x' w₂) →
          RoundAnswered seams c x w₁) := by
  refine ⟨h.download_eq, fun hblames hearlier => ?_, fun hlast => ?_⟩
  · by_contra hnot
    exact hblames.round (h.roundFails hnot) (h.obtained_iff.mpr (Or.inr hearlier))
  · by_cases hanswered : RoundAnswered seams c x w₁
    · exact h.blamesRightly_of_answered hanswered
    · have hnone : ¬ Obtained (w'.trace.drop w.tick) := by
        intro hobtained
        rcases h.obtained_iff.mp hobtained with hthis | hearlier
        · exact hanswered hthis
        · exact hanswered (hlast hearlier)
      exact ⟨fun _ => hnone, fun hobtained => absurd hobtained hnone⟩

end Rounds

/-! ## A liar in front of a silent holder -/

/-- Two holders: one whose descriptor has no chunks, and behind it one that never answers. -/
def muteSeams : ModuleSeams :=
  { silentSeams with
    getModuleInfo := fun _ peer _ => if peer = holderB then some (.ok hollowInfo) else none }

/-- The state in which the attempts of that pull begin. -/
def muteStart : PullWorld :=
  { (PullWorld.fresh emptySink emptyStore).note (.ask (.findProviders (.ok silentLocated))) with
    own := silentLocated }.note (.badDescriptorPeers (moduleDownloadKey smallCapsule) true)

theorem muteStart_attempt :
    AttemptAt muteSeams smallCapsule (PullWorld.fresh emptySink emptyStore) 0 (.new [])
      muteStart := by
  obtain ⟨id, hid⟩ : ∃ id, moduleContentId smallCapsule = some id :=
    Option.isSome_iff_exists.mp (by decide +kernel)
  exact .first hid rfl (show silentLocated ≠ [] by decide) rfl

/-- The exclusions once the liar is demoted. -/
def withoutLiar : DescriptorExclusions :=
  { demotedHere := [holderB], remembered := [], trustsMemory := false }

def muteDemoted : PullWorld := (descriptorAttempt muteSeams smallCapsule (.new []) muteStart).2

/-- The first attempt obtains the liar's descriptor, and demotes it. -/
theorem descriptorAttempt_liar :
    descriptorAttempt muteSeams smallCapsule (.new []) muteStart
      = (.ok (.inr {
          error := .verify (.metadata
            "ModuleInfo carries no chunk_lens (cannot map ranges to chunk hashes)")
          exclusions := withoutLiar
          noneLeft := false }), muteDemoted) := rfl

/-- Every attempt after it asks the silent holder alone. -/
theorem descriptorAttempt_mute {w : PullWorld} (hown : w.own = silentLocated) :
    ∃ content, descriptorAttempt muteSeams smallCapsule withoutLiar w
      = (.ok (.inr { error := .notFound content, exclusions := withoutLiar, noneLeft := false }),
          w.note (.ask (.getModuleInfo holderA none))) := by
  obtain ⟨sink, store, trace, own⟩ := w
  subst hown
  exact ⟨_, rfl⟩

/-- The round of the first attempt is answered, by the liar. -/
theorem muteStart_answered : RoundAnswered muteSeams smallCapsule (.new []) muteStart := by
  have hasked : askable ((DescriptorExclusions.new []).settle muteStart.own) muteStart
      = [holderB, holderA] := by decide +kernel
  have hanswer : muteSeams.getModuleInfo muteStart.tick holderB smallCapsule
      = some (.ok hollowInfo) := rfl
  unfold RoundAnswered
  rw [hasked]
  exact someoneAnswers_of_head hanswer

/-- No round is answered once the liar is demoted. -/
theorem not_answered_mute {w : PullWorld} (hown : w.own = silentLocated) :
    ¬ RoundAnswered muteSeams smallCapsule withoutLiar w := by
  have hasked : askable (withoutLiar.settle silentLocated) { w with own := silentLocated }
      = [holderA] := by
    show (holderIds silentLocated).filter _ = _
    decide +kernel
  have hknown : askable (withoutLiar.settle w.own) w = [holderA] := by
    rw [← hasked, ← hown]
  unfold RoundAnswered
  rw [hknown, someoneAnswers_cons_of_passesOn]
  · exact not_someoneAnswers_nil
  · intro r hr
    cases hr

/-- The error of that pull says that no holder answered, and a descriptor was obtained. -/
theorem liar_not_blamed :
    ∃ x w₁ failed w',
      Exhausted muteSeams smallCapsule (PullWorld.fresh emptySink emptyStore) 2 x w₁ failed w' ∧
      download muteSeams smallCapsule (PullWorld.fresh emptySink emptyStore)
        = (.error failed.error, w') ∧
      failed.error.isNotFound = true ∧
      Obtained (w'.trace.drop (PullWorld.fresh emptySink emptyStore).tick) ∧
      ¬ BlamesRightly muteSeams smallCapsule (PullWorld.fresh emptySink emptyStore) 2 x w₁
        failed.error w' := by
  obtain ⟨content, hsecond⟩ := descriptorAttempt_mute (show muteDemoted.own = silentLocated from rfl)
  obtain ⟨content', hthird⟩ := descriptorAttempt_mute
    (show (muteDemoted.note (.ask (.getModuleInfo holderA none))).own = silentLocated from rfl)
  have hfirst := muteStart_attempt.next descriptorAttempt_liar (by decide) rfl
  have hexhausted : Exhausted muteSeams smallCapsule (PullWorld.fresh emptySink emptyStore) 2
      withoutLiar _ _ _ :=
    ⟨hfirst.next hsecond (by decide) rfl, hthird, Or.inr rfl⟩
  have hobtained := hexhausted.obtained_iff.mpr
    (Or.inr ⟨0, by decide, _, _, muteStart_attempt, muteStart_answered⟩)
  refine ⟨_, _, _, _, hexhausted, hexhausted.download_eq, rfl, hobtained, fun hblames => ?_⟩
  exact hblames.round (hexhausted.roundFails (not_answered_mute rfl)) hobtained

/-- The liar alone is blamed: its demotion leaves nobody to ask. -/
theorem sole_liar_blamed :
    ∃ (w₁ : PullWorld) (failed : FailedAttempt) (w' : PullWorld),
      download (soleHolderSeams hollowInfo []) smallCapsule (PullWorld.fresh emptySink emptyStore)
        = (.error failed.error, w') ∧
      BlamesRightly (soleHolderSeams hollowInfo []) smallCapsule
        (PullWorld.fresh emptySink emptyStore) 0 (.new []) w₁ failed.error w' := by
  obtain ⟨id, hid⟩ : ∃ id, moduleContentId smallCapsule = some id :=
    Option.isSome_iff_exists.mp (by decide +kernel)
  have hstart : AttemptAt (soleHolderSeams hollowInfo []) smallCapsule
      (PullWorld.fresh emptySink emptyStore) 0 (.new []) _ := .first hid rfl (by decide) rfl
  have hexhausted : Exhausted (soleHolderSeams hollowInfo []) smallCapsule
      (PullWorld.fresh emptySink emptyStore) 0 (.new []) _ _ _ :=
    ⟨hstart, rfl, Or.inl rfl⟩
  obtain ⟨hrun, hiff⟩ := hexhausted.blamesRightly_iff
  refine ⟨_, _, _, hrun, hiff.mpr ?_⟩
  rintro ⟨m, hm, -⟩
  exact absurd hm (Nat.not_lt_zero m)

end DigDownload
