import DigDownload.Module.Attribution

/-!
# The bound on the descriptor phase

`ModuleDownloader::download` loops, and every turn of the loop goes on in one of three
ways: the remembered verdicts are dropped, no descriptor was obtained, or the holder that
supplied one was demoted. `loopTurn` is one such turn as the source writes it. This module
says how many turns there are and whom they ask, whatever the holders answer and whether
they answer at all, and that the loop is the attempt loop of the pull.

An ask that is cut off is one that is answered with `none`.
-/

namespace DigDownload

open Prog Past

/-! ## The loop -/

/-- Where the loop stands at the head of a turn. -/
structure LoopState where
  exclusions : DescriptorExclusions
  attempts : Nat

/-- How a turn goes on to another one. -/
inductive Again where
  | memoryDropped
  | unanswered
  | demoted (source : String)
  deriving DecidableEq

/-- One turn of the loop: it ends the pull, or goes on to another one. -/
def loopTurn (seams : ModuleSeams) (c : Capsule) (s : LoopState) :
    PullM (Nat ⊕ (Again × LoopState)) := do
  let w ← Prog.read
  -- `stop_trusting_memory` is called only when there is nobody to ask
  let (dropped, exclusions) :=
    if s.exclusions.usableHolders w.own = 0 then s.exclusions.stopTrustingMemory
    else (false, s.exclusions)
  if dropped then
    pure (.inr (.memoryDropped, { s with exclusions }))
  else
    Prog.handle (fetchModuleInfo seams c exclusions.excluded) fun
      | .error e =>
          if maxDescriptorAttempts ≤ s.attempts + 1 then Prog.fail e
          else pure (.inr (.unanswered, { exclusions, attempts := s.attempts + 1 }))
      | .ok (source, info) =>
          Prog.handle (pullWithDescriptor seams c info) fun
            | .ok len => pure (.inl len)
            | .error (.terminal e) => Prog.fail e
            | .error failure => do
                recordIfProvenFalse seams (moduleDownloadKey c) source failure
                markPull (.demote source)
                let exclusions := exclusions.demote source
                let w ← Prog.read
                if maxDescriptorAttempts ≤ s.attempts + 1 ||
                    exclusions.usableHolders w.own = 0 && !exclusions.trustsMemory then
                  Prog.fail failure.error
                else
                  pure (.inr (.demoted source, { exclusions, attempts := s.attempts + 1 }))

/-- The loop, for a number of turns; `none` when it has not ended by then. -/
def loopTurns (seams : ModuleSeams) (c : Capsule) : Nat → LoopState → PullM (Option Nat)
  | 0, _ => pure none
  | turns + 1, s => do
      match ← loopTurn seams c s with
      | .inl len => pure (some len)
      | .inr (_, s) => loopTurns seams c turns s

/-- The error of a chunk that no known holder served. -/
def chunkNotServed (c : Capsule) (layout : ChunkPlan) (index known : Nat)
    (reasons : HolderReasons) : DownloadError :=
  let span := layout.chunkSpan index
  .notFound (s!"fetchModuleRange failed for chunk {index} " ++
    s!"([{span.1}, {span.1 + span.2}) of module {moduleDownloadKey c}) on all " ++
    s!"{known} known holder(s) — {reasons.display}")

/-- One turn of the loop of `fetch_verified_chunk`: every known holder is tried, and then the
pull fails or the holders are located once more. -/
def chunkTurn (seams : ModuleSeams) (c : Capsule) (info : ModuleInfo) (layout : ChunkPlan)
    (index : Nat) (relocated : Bool) (reasons : HolderReasons) :
    PullM (Bytes ⊕ HolderReasons) := do
  let span := layout.chunkSpan index
  let w ← Prog.read
  match ← tryHolders seams c span.1 span.2 (info.chunkHashes.getD index "")
      (rotation w.own index) reasons with
  | .ok bytes => pure (.inl bytes)
  | .error reasons =>
      if relocated then
        Prog.fail (chunkNotServed c layout index w.own.length reasons)
      else
        match moduleContentId c with
        | none => Prog.fail .notDownloadable
        | some content => do
            let refreshed ← Prog.bind (askSeam (seams.findProviders · content) .findProviders)
              Prog.ofExcept
            Prog.update fun w => { w with own := mergeNewProviders w.own refreshed }
            pure (.inr reasons)

/-- That loop, for a number of turns; `none` when it has not ended by then. -/
def chunkTurns (seams : ModuleSeams) (c : Capsule) (info : ModuleInfo) (layout : ChunkPlan)
    (index : Nat) : Nat → Bool → HolderReasons → PullM (Option Bytes)
  | 0, _, _ => pure none
  | turns + 1, relocated, reasons => do
      match ← chunkTurn seams c info layout index relocated reasons with
      | .inl bytes => pure (some bytes)
      | .inr reasons => chunkTurns seams c info layout index turns true reasons

/-- The turns that a pull started in `w` has taken, and where that leaves it. -/
inductive Turns (seams : ModuleSeams) (c : Capsule) (w : PullWorld) :
    List Again → LoopState → PullWorld → Prop where
  | start {x : DescriptorExclusions} {w₁ : PullWorld} (h : AttemptAt seams c w 0 x w₁) :
      Turns seams c w [] { exclusions := x, attempts := 0 } w₁
  | next {ts : List Again} {s s' : LoopState} {a : Again} {w₁ w₂ : PullWorld}
      (h : Turns seams c w ts s w₁) (hturn : loopTurn seams c s w₁ = (.ok (.inr (a, s')), w₂)) :
      Turns seams c w (ts ++ [a]) s' w₂

/-- How many of the turns asked for a descriptor. -/
def rounds (ts : List Again) : Nat := ts.countP (· ≠ .memoryDropped)

/-! ## What a turn comes to -/

/-- Honouring the remembered verdicts leaves nobody to ask. -/
def MemoryDenies (x : DescriptorExclusions) (w : PullWorld) : Prop :=
  x.usableHolders w.own = 0 ∧ x.trustsMemory = true ∧ x.remembered ≠ []

/-- What a turn comes to, and the state it leaves. A turn that does not drop the memory
makes an attempt. -/
inductive TurnEnds (seams : ModuleSeams) (c : Capsule) (s : LoopState) (w : PullWorld) :
    Except DownloadError (Nat ⊕ (Again × LoopState)) → PullWorld → Prop where
  | memoryDropped (h : MemoryDenies s.exclusions w) :
      TurnEnds seams c s w
        (.ok (.inr (.memoryDropped, { s with exclusions := s.exclusions.settle w.own }))) w
  | delivered {len : Nat} {w' : PullWorld} (hkeeps : ¬ MemoryDenies s.exclusions w)
      (hattempt : descriptorAttempt seams c s.exclusions w = (.ok (.inl len), w')) :
      TurnEnds seams c s w (.ok (.inl len)) w'
  | terminal {e : DownloadError} {w' : PullWorld} (hkeeps : ¬ MemoryDenies s.exclusions w)
      (hattempt : descriptorAttempt seams c s.exclusions w = (.error e, w')) :
      TurnEnds seams c s w (.error e) w'
  | gaveUp {failed : FailedAttempt} {w' : PullWorld} (hkeeps : ¬ MemoryDenies s.exclusions w)
      (hattempt : descriptorAttempt seams c s.exclusions w = (.ok (.inr failed), w'))
      (hspent : maxDescriptorAttempts ≤ s.attempts + 1 ∨ failed.noneLeft = true) :
      TurnEnds seams c s w (.error failed.error) w'
  | again {failed : FailedAttempt} {a : Again} {w' : PullWorld}
      (hkeeps : ¬ MemoryDenies s.exclusions w)
      (hattempt : descriptorAttempt seams c s.exclusions w = (.ok (.inr failed), w'))
      (hleft : s.attempts + 1 < maxDescriptorAttempts) (hmore : failed.noneLeft = false)
      (ha : a ≠ .memoryDropped) :
      TurnEnds seams c s w
        (.ok (.inr (a, { exclusions := failed.exclusions, attempts := s.attempts + 1 }))) w'

section Turn

variable {seams : ModuleSeams} {c : Capsule} {s s' : LoopState} {w w₁ w₂ w' : PullWorld}
  {x : DescriptorExclusions} {ts : List Again}

/-- The head of a turn, once it is known whether the memory is dropped. -/
theorem head_of_memoryDenies (h : MemoryDenies x w) :
    (if x.usableHolders w.own = 0 then x.stopTrustingMemory else (false, x))
      = (true, x.settle w.own) := by
  obtain ⟨hnobody, htrusts, hne⟩ := h
  unfold DescriptorExclusions.settle
  rw [if_pos hnobody, if_pos hnobody]
  simp [DescriptorExclusions.stopTrustingMemory, htrusts, hne]

theorem head_of_not_memoryDenies (h : ¬ MemoryDenies x w) :
    (if x.usableHolders w.own = 0 then x.stopTrustingMemory else (false, x))
      = (false, x.settle w.own) := by
  unfold DescriptorExclusions.settle
  by_cases hnobody : x.usableHolders w.own = 0
  · rw [if_pos hnobody, if_pos hnobody]
    have hkept : (x.trustsMemory && !x.remembered.isEmpty) = false := by
      by_contra hdrop
      refine h ⟨hnobody, ?_⟩
      simpa using hdrop
    simp [DescriptorExclusions.stopTrustingMemory, hkept]
  · rw [if_neg hnobody, if_neg hnobody]

theorem loopTurn_of_memoryDenies (h : MemoryDenies s.exclusions w) :
    loopTurn seams c s w
      = (.ok (.inr (.memoryDropped, { s with exclusions := s.exclusions.settle w.own })), w) := by
  unfold loopTurn
  rw [bind_of_ok (show Prog.read w = (.ok w, w) from rfl), head_of_memoryDenies h]
  rfl

theorem turnEnds (seams : ModuleSeams) (c : Capsule) (s : LoopState) (w : PullWorld) :
    TurnEnds seams c s w (loopTurn seams c s w).1 (loopTurn seams c s w).2 := by
  by_cases hdenies : MemoryDenies s.exclusions w
  · rw [loopTurn_of_memoryDenies hdenies]
    exact .memoryDropped hdenies
  generalize hrun : loopTurn seams c s w = end'
  unfold loopTurn at hrun
  rw [bind_of_ok (show Prog.read w = (.ok w, w) from rfl), head_of_not_memoryDenies hdenies] at hrun
  dsimp only at hrun
  rw [if_neg Bool.false_ne_true] at hrun
  have hends := attemptEnds seams c s.exclusions w
  generalize hattempt : descriptorAttempt seams c s.exclusions w = attempt at hends
  obtain ⟨r, w'⟩ := attempt
  cases hends with
  | unanswered hround =>
    rw [handle_of_run hround] at hrun
    dsimp only at hrun
    by_cases hspent : maxDescriptorAttempts ≤ s.attempts + 1
    · rw [if_pos hspent] at hrun
      rw [← hrun]
      exact .gaveUp hdenies hattempt (Or.inl hspent)
    · rw [if_neg hspent] at hrun
      rw [← hrun]
      exact .again hdenies hattempt (Nat.lt_of_not_le hspent) rfl (by simp)
  | delivered hround hpull =>
    rw [handle_of_run hround] at hrun
    dsimp only at hrun
    rw [handle_of_run hpull] at hrun
    rw [← hrun]
    exact .delivered hdenies hattempt
  | terminal hround hpull =>
    rw [handle_of_run hround] at hrun
    dsimp only at hrun
    rw [handle_of_run hpull] at hrun
    rw [← hrun]
    exact .terminal hdenies hattempt
  | @demoted source info f w₁ w₂ w₃ hround hpull hf hrecord =>
    rw [handle_of_run hround] at hrun
    dsimp only at hrun
    rw [handle_of_run hpull] at hrun
    cases f with
    | terminal e => exact absurd rfl (hf e)
    | badDescriptor e | unsatisfiableDescriptor e =>
      dsimp only at hrun
      rw [bind_of_ok hrecord, bind_of_ok (show markPull (.demote source) w₃
        = (.ok (), w₃.note (.ask (.demote source))) from rfl),
        bind_of_ok (show Prog.read _ = (.ok (w₃.note (.ask (.demote source))), _) from rfl),
        World.note_own] at hrun
      by_cases hspent : maxDescriptorAttempts ≤ s.attempts + 1
      · rw [if_pos (by simp [hspent])] at hrun
        rw [← hrun]
        exact .gaveUp hdenies hattempt (Or.inl hspent)
      generalize hnone : (decide (((s.exclusions.settle w.own).demote source).usableHolders w₃.own
        = 0) && !((s.exclusions.settle w.own).demote source).trustsMemory) = none' at hrun hattempt
      cases none' with
      | true =>
        rw [if_pos (by simp)] at hrun
        rw [← hrun]
        exact .gaveUp hdenies hattempt (Or.inr rfl)
      | false =>
        rw [if_neg (by simp [hspent])] at hrun
        rw [← hrun]
        exact .again hdenies hattempt (Nat.lt_of_not_le hspent) rfl (by simp)

theorem turnEnds_of_run {r : Except DownloadError (Nat ⊕ (Again × LoopState))}
    (h : loopTurn seams c s w = (r, w')) : TurnEnds seams c s w r w' := by
  have hends := turnEnds seams c s w
  rwa [h] at hends

/-! ## The loop is the attempt loop -/

/-- The memory that a turn drops is dropped at the head of the attempt as well. -/
theorem descriptorAttempt_settle :
    descriptorAttempt seams c (x.settle w.own) w = descriptorAttempt seams c x w := by
  unfold descriptorAttempt
  rw [bind_of_ok (show Prog.read w = (.ok w, w) from rfl),
    bind_of_ok (show Prog.read w = (.ok w, w) from rfl), DescriptorExclusions.settle_settle]

theorem attemptLoop_settle {left : Nat} :
    attemptLoop seams c left (x.settle w.own) w = attemptLoop seams c left x w := by
  cases left with
  | zero =>
    show Prog.bind (descriptorAttempt seams c (x.settle w.own)) _ w
      = Prog.bind (descriptorAttempt seams c x) _ w
    unfold Prog.bind
    rw [descriptorAttempt_settle]
  | succ left =>
    show Prog.bind (descriptorAttempt seams c (x.settle w.own)) _ w
      = Prog.bind (descriptorAttempt seams c x) _ w
    unfold Prog.bind
    rw [descriptorAttempt_settle]

theorem trustsMemory_settle_of_memoryDenies (h : MemoryDenies x w) :
    (x.settle w.own).trustsMemory = false := by
  unfold DescriptorExclusions.settle
  rw [if_pos h.1]
  rfl

/-- An attempt trusts the memory no more than the one before it. -/
theorem trustsMemory_of_failed {failed : FailedAttempt}
    (h : descriptorAttempt seams c x w = (.ok (.inr failed), w')) :
    failed.exclusions.trustsMemory = (x.settle w.own).trustsMemory := by
  cases attemptEnds_of_run h with
  | unanswered hround => rfl
  | demoted hround hpull hf hrecord => rfl

theorem trustsMemory_settle_le : (x.settle w.own).trustsMemory.toNat ≤ x.trustsMemory.toNat := by
  unfold DescriptorExclusions.settle
  split
  · exact Nat.zero_le _
  · exact Nat.le_refl _

/-- The loop has ended, with the outcome of the attempt loop, after one turn for each
attempt that is left and one for the memory if it is still trusted. -/
theorem loopTurns_eq (seams : ModuleSeams) (c : Capsule) :
    ∀ (turns left : Nat) (s : LoopState) (w : PullWorld),
      s.attempts + left + 1 = maxDescriptorAttempts →
      left + 1 + s.exclusions.trustsMemory.toNat ≤ turns →
      loopTurns seams c turns s w
        = ((attemptLoop seams c left s.exclusions w).1.map some,
            (attemptLoop seams c left s.exclusions w).2) := by
  intro turns
  induction turns with
  | zero =>
    intro left s w hs hturns
    exact absurd hturns (by omega)
  | succ turns ih =>
    intro left s w hs hturns
    show (loopTurn seams c s >>= _) w = _
    generalize hturn : loopTurn seams c s w = turn
    obtain ⟨r, w'⟩ := turn
    cases turnEnds_of_run hturn with
    | memoryDropped h =>
      rw [bind_of_ok hturn]
      dsimp only
      have htrusts := trustsMemory_settle_of_memoryDenies h
      have hrest := ih left { s with exclusions := s.exclusions.settle w.own } w hs (by
        simp only [htrusts, h.2.1, Bool.toNat_true, Bool.toNat_false] at hturns ⊢
        omega)
      rwa [attemptLoop_settle] at hrest
    | delivered hkeeps hattempt =>
      rw [bind_of_ok hturn, attemptLoop_of_delivered hattempt]
      rfl
    | terminal hkeeps hattempt =>
      rw [bind_of_error hturn, attemptLoop_of_terminal hattempt]
      rfl
    | gaveUp hkeeps hattempt hspent =>
      rw [bind_of_error hturn, attemptLoop_of_gaveUp hattempt]
      · rfl
      · rcases hspent with hspent | hnone
        · exact Or.inl (by omega)
        · exact Or.inr hnone
    | @again failed a w' hkeeps hattempt hleft hmore ha =>
      cases left with
      | zero => exact absurd hleft (by omega)
      | succ left =>
        have htrusts : failed.exclusions.trustsMemory.toNat ≤ s.exclusions.trustsMemory.toNat :=
          trustsMemory_of_failed hattempt ▸ trustsMemory_settle_le
        rw [bind_of_ok hturn, attemptLoop_of_again hattempt hmore]
        exact ih left _ w' (by dsimp only; omega) (by dsimp only; omega)

/-! ## What an attempt asks -/

/-- The pull under a descriptor begins: room is asked for its plan. -/
def Effect.IsPullStart : Effect ModuleAsk → Prop
  | .ask (.reserve _ _) => True
  | _ => False

instance : DecidablePred Effect.IsPullStart
  | .ask (.reserve _ _) => isTrue trivial
  | .ask (.findProviders _) | .ask (.getModuleInfo _ _) | .ask (.fetchChunk _)
  | .ask (.fetchModuleRange _ _ _ _) | .ask (.hashGate _ _) | .ask (.verifyModuleAnchor _ _)
  | .ask (.demote _) | .writeAt _ _ _ | .readAt _ _ _ | .truncate _ _ | .finalize _ | .load _ _
  | .save _ _ | .clear _ _ | .recordBadDescriptor _ _ _ | .badDescriptorPeers _ _ => isFalse id

/-- The peer that was asked for a descriptor. -/
def Effect.askedPeer : Effect ModuleAsk → Option String
  | .ask (.getModuleInfo peer _) => some peer
  | _ => none

/-- The peers that were asked for a descriptor, in order. -/
def askedPeers (log : List (Effect ModuleAsk)) : List String := log.filterMap Effect.askedPeer

/-- No holder is asked for a descriptor once it was demoted. -/
def NeverReasks (log : List (Effect ModuleAsk)) : Prop :=
  AtEach (fun before e => ∀ peer, e.askedPeer = some peer → ¬ Demoted before peer) log

theorem askedPeers_eq_nil {log : List (Effect ModuleAsk)} (h : ∀ e ∈ log, ¬ e.IsDescriptorAsk) :
    askedPeers log = [] := by
  refine List.filterMap_eq_nil_iff.mpr fun e he => ?_
  have hnot := h e he
  unfold Effect.askedPeer
  split
  · exact absurd trivial hnot
  · rfl

/-- A round asks the holders that are not excluded in their order, each of them once, until
it ends. -/
theorem wp_askDescriptors_peers (excluded : List String) :
    ∀ (providers : List ProviderRecord) (reasons : HolderReasons) (tried : Nat) (w : PullWorld),
      wp (askDescriptors seams c excluded providers reasons tried)
        (fun _ w' => ∃ seg, w'.trace = w.trace ++ seg ∧ (∀ e ∈ seg, e.IsDescriptorAsk) ∧
          askedPeers seg <+: (providers.map (·.providerPeerId)).filter (· ∉ excluded))
        (fun _ w' => ∃ seg, w'.trace = w.trace ++ seg ∧ (∀ e ∈ seg, e.IsDescriptorAsk) ∧
          askedPeers seg <+: (providers.map (·.providerPeerId)).filter (· ∉ excluded)) w
  | [], reasons, tried, w => ⟨[], by simp, by simp, List.nil_prefix⟩
  | provider :: providers, reasons, tried, w => by
      unfold askDescriptors
      dsimp only
      split
      · rename_i hex
        rw [List.map_cons, List.filter_cons_of_neg (by simpa using hex)]
        exact wp_askDescriptors_peers excluded providers reasons tried w
      · rename_i hex
        rw [List.map_cons, List.filter_cons_of_pos (by simpa using hex), wp_bind, wp_askSeam]
        have hlast : ∀ answer : Answer ModuleInfo, ∃ seg,
            (w.note (.ask (.getModuleInfo provider.providerPeerId answer))).trace = w.trace ++ seg ∧
              (∀ e ∈ seg, e.IsDescriptorAsk) ∧
              askedPeers seg <+: provider.providerPeerId ::
                (providers.map (·.providerPeerId)).filter (· ∉ excluded) := fun answer =>
          ⟨[_], rfl, by simp [Effect.IsDescriptorAsk],
            (List.prefix_cons_inj _).mpr List.nil_prefix⟩
        have hrest : ∀ (answer : Answer ModuleInfo) (reasons : HolderReasons) (tried : Nat),
            wp (askDescriptors seams c excluded providers reasons tried)
              (fun _ w' => ∃ seg, w'.trace = w.trace ++ seg ∧ (∀ e ∈ seg, e.IsDescriptorAsk) ∧
                askedPeers seg <+: provider.providerPeerId ::
                  (providers.map (·.providerPeerId)).filter (· ∉ excluded))
              (fun _ w' => ∃ seg, w'.trace = w.trace ++ seg ∧ (∀ e ∈ seg, e.IsDescriptorAsk) ∧
                askedPeers seg <+: provider.providerPeerId ::
                  (providers.map (·.providerPeerId)).filter (· ∉ excluded))
              (w.note (.ask (.getModuleInfo provider.providerPeerId answer))) := by
          intro answer reasons tried
          have hcons : ∀ w' : PullWorld, (∃ seg,
              w'.trace = (w.note (.ask (.getModuleInfo provider.providerPeerId answer))).trace ++ seg ∧
                (∀ e ∈ seg, e.IsDescriptorAsk) ∧
                askedPeers seg <+: (providers.map (·.providerPeerId)).filter (· ∉ excluded)) →
              ∃ seg, w'.trace = w.trace ++ seg ∧ (∀ e ∈ seg, e.IsDescriptorAsk) ∧
                askedPeers seg <+: provider.providerPeerId ::
                  (providers.map (·.providerPeerId)).filter (· ∉ excluded) := by
            rintro w' ⟨seg, hseg, hasks, hpeers⟩
            refine ⟨.ask (.getModuleInfo provider.providerPeerId answer) :: seg, by simpa using hseg,
              ?_, (List.prefix_cons_inj _).mpr hpeers⟩
            simpa [Effect.IsDescriptorAsk] using hasks
          exact (wp_askDescriptors_peers excluded providers reasons tried _).mono
            (fun _ => hcons) (fun _ => hcons)
        cases seams.getModuleInfo w.tick provider.providerPeerId c with
        | none => exact hrest none _ _
        | some answer =>
          cases answer with
          | ok info => exact hlast (some (.ok info))
          | error e =>
            dsimp only
            split
            · exact hrest (some (.error e)) _ _
            · exact hlast (some (.error e))

/-- What a pull does once it has begun: it neither begins again nor does what only the loop
does. -/
def Effect.IsWithinPull (e : Effect ModuleAsk) : Prop := ¬ e.IsBetween ∧ ¬ e.IsPullStart

theorem Effect.IsStaging.isWithinPull {e : Effect ModuleAsk} (h : e.IsStaging) :
    e.IsWithinPull := by
  unfold IsWithinPull IsBetween IsPullStart
  cases e with
  | ask a => cases a <;> first | exact ⟨id, id⟩ | exact h.elim
  | _ => first | exact ⟨id, id⟩ | exact h.elim

theorem Effect.IsGating.isWithinPull {e : Effect ModuleAsk} (h : e.IsGating) :
    e.IsWithinPull := by
  refine ⟨h.not_isBetween, ?_⟩
  unfold IsPullStart
  split
  · exact fun _ => h
  · exact id

/-- A pull under a descriptor begins once. -/
theorem pullWithDescriptor_log (info : ModuleInfo) (w : PullWorld) :
    ∃ answer seg, (pullWithDescriptor seams c info w).2.trace
        = w.trace ++ .ask (.reserve info.chunkLens.length answer) :: seg ∧
      ∀ e ∈ seg, e.IsWithinPull := by
  have hstage : ∀ (layout : ChunkPlan) (state : DownloadState),
      Steps (Appends Effect.IsWithinPull)
        (pullWithDescriptor.stageAndPromote seams c info layout state) := by
    intro layout state
    refine Steps.bind (steps_of_wp fun w₁ => ?_) fun acc =>
      steps_gateAndPromote closedUnder_appends (fun _ => Effect.IsGating.isWithinPull) _ _
    exact (wp_stageChunks state.doneRanges state.takeDone w₁).mono
      (fun _ _ h => h.2.appends.mono fun _ => Effect.IsStaging.isWithinPull)
      (fun _ _ h => h.2.appends.mono fun _ => Effect.IsStaging.isWithinPull)
  have hwithin : ∀ reserved, Steps (Appends Effect.IsWithinPull) (do
      let layout ← Prog.ofExcept (ChunkPlan.fromInfo info seams.config.maxModuleSize
        fun _ => reserved)
      let resume ← orTerminal (loadOrFreshState seams (moduleDownloadKey c) layout)
      if resume.resumesStaging then
        pullWithDescriptor.stageAndPromote seams c info layout resume.state
      else do
        orTerminal (sinkTruncate seams.host 0)
        pullWithDescriptor.stageAndPromote seams c info layout resume.state) := by
    intro reserved
    refine Steps.bind (Steps.ofExcept _) fun layout =>
      Steps.bind (steps_orTerminal ?_) fun resume => ?_
    · unfold loadOrFreshState
      dsimp only
      refine Steps.bind (steps_storeLoad closedUnder_appends fun _ => ⟨id, id⟩) fun prev => ?_
      cases prev with
      | none => exact Steps.pure _
      | some prev =>
        dsimp only
        split <;> exact Steps.pure _
    · split
      · exact hstage layout resume.state
      · exact Steps.bind (steps_orTerminal (steps_sinkTruncate closedUnder_appends
          fun _ => ⟨id, id⟩)) fun _ => hstage layout resume.state
  obtain ⟨seg, hseg, hkind⟩ := hwithin (seams.reserve w.tick info.chunkLens.length)
    (w.note (.ask (.reserve info.chunkLens.length (seams.reserve w.tick info.chunkLens.length))))
  refine ⟨seams.reserve w.tick info.chunkLens.length, seg, ?_, hkind⟩
  rw [World.note_trace, List.append_assoc] at hseg
  exact hseg

/-- What the attempt that begins in `w` with the exclusions `x` adds to the log: the asks of
its round, and then at most one pull and the demotion of a holder. -/
structure AttemptLog (x : DescriptorExclusions) (w : PullWorld)
    (r : Except DownloadError (Nat ⊕ FailedAttempt)) (asks rest : List (Effect ModuleAsk)) :
    Prop where
  asks_only : ∀ e ∈ asks, e.IsDescriptorAsk
  asked : askedPeers asks <+: askable (x.settle w.own) w
  no_more_asks : ∀ e ∈ rest, ¬ e.IsDescriptorAsk
  pulls : rest.countP Effect.IsPullStart ≤ 1
  demoted : ∀ peer, Demoted rest peer → ∀ failed, r = .ok (.inr failed) →
    peer ∈ failed.exclusions.demotedHere
  kept : ∀ failed, r = .ok (.inr failed) → ∀ peer ∈ x.demotedHere,
    peer ∈ failed.exclusions.demotedHere

theorem wp_fetchModuleInfo_peers (x : DescriptorExclusions) (w : PullWorld) :
    wp (fetchModuleInfo seams c (x.settle w.own).excluded)
      (fun _ w' => ∃ seg, w'.trace = w.trace ++ seg ∧ (∀ e ∈ seg, e.IsDescriptorAsk) ∧
        askedPeers seg <+: askable (x.settle w.own) w)
      (fun _ w' => ∃ seg, w'.trace = w.trace ++ seg ∧ (∀ e ∈ seg, e.IsDescriptorAsk) ∧
        askedPeers seg <+: askable (x.settle w.own) w) w := by
  unfold fetchModuleInfo
  rw [wp_bind, wp_read]
  exact wp_askDescriptors_peers _ w.own [] 0 w

theorem Effect.IsWithinPull.not_isDescriptorAsk {e : Effect ModuleAsk} (h : e.IsWithinPull) :
    ¬ e.IsDescriptorAsk := by
  intro hask
  refine h.1 ?_
  unfold IsDescriptorAsk at hask
  split at hask
  · trivial
  · exact hask.elim

theorem countP_isPullStart_eq_zero {seg : List (Effect ModuleAsk)}
    (h : ∀ e ∈ seg, ¬ e.IsPullStart) : seg.countP Effect.IsPullStart = 0 := by
  rw [List.countP_eq_zero]
  simpa using h

/-- The log of a pull under a descriptor, as it stands in that of an attempt. -/
theorem pull_log {info : ModuleInfo} {r : Except PullFailure Nat}
    (hpull : pullWithDescriptor seams c info w₁ = (r, w₂)) :
    ∃ seg, w₂.trace = w₁.trace ++ seg ∧ (∀ e ∈ seg, ¬ e.IsDescriptorAsk) ∧
      seg.countP Effect.IsPullStart ≤ 1 ∧ ∀ peer, ¬ Demoted seg peer := by
  obtain ⟨answer, seg, hseg, hkind⟩ : ∃ answer seg,
      (pullWithDescriptor seams c info w₁).2.trace
        = w₁.trace ++ .ask (.reserve info.chunkLens.length answer) :: seg ∧
      ∀ e ∈ seg, e.IsWithinPull := pullWithDescriptor_log info w₁
  rw [hpull] at hseg
  refine ⟨_, hseg, ?_, ?_, ?_⟩
  · intro e he
    cases he with
    | head => exact id
    | tail _ he => exact (hkind e he).not_isDescriptorAsk
  · rw [List.countP_cons, countP_isPullStart_eq_zero fun e he => (hkind e he).2, Nat.zero_add]
    split
    · exact Nat.le_refl 1
    · exact Nat.zero_le 1
  · intro peer hdemoted
    cases hdemoted with
    | tail _ he => exact (hkind _ he).1 trivial

theorem attemptLog {r : Except DownloadError (Nat ⊕ FailedAttempt)}
    (h : descriptorAttempt seams c x w = (r, w')) :
    ∃ asks rest, w'.trace = w.trace ++ asks ++ rest ∧ AttemptLog x w r asks rest := by
  have hsettled := (x.settle_cases w.own).1
  cases attemptEnds_of_run h with
  | unanswered hround =>
    obtain ⟨asks, htrace, hasks, hasked⟩ :=
      (wp_of_run_error hround).mp (wp_fetchModuleInfo_peers x w)
    refine ⟨asks, [], by simpa using htrace, hasks, hasked, by simp, by simp, ?_, ?_⟩
    · intro peer hdemoted
      cases hdemoted
    · rintro failed ⟨rfl⟩ peer hpeer
      exact hsettled ▸ hpeer
  | delivered hround hpull | terminal hround hpull =>
    obtain ⟨asks, htrace, hasks, hasked⟩ :=
      (wp_of_run_ok hround).mp (wp_fetchModuleInfo_peers x w)
    obtain ⟨seg, hseg, hrest, hpulls, -⟩ := pull_log hpull
    exact ⟨asks, seg, by rw [hseg, htrace], hasks, hasked, hrest, hpulls, by simp, by simp⟩
  | @demoted source info f w₁ w₂ w₃ hround hpull hf hrecord =>
    obtain ⟨asks, htrace, hasks, hasked⟩ :=
      (wp_of_run_ok hround).mp (wp_fetchModuleInfo_peers x w)
    obtain ⟨seg, hseg, hrest, hpulls, hnone⟩ := pull_log hpull
    obtain ⟨record, hrecorded, hverdicts⟩ :
        Appends (fun e => ∃ key peer ok, e = .recordBadDescriptor key peer ok) w₂ w₃ := by
      have hsteps : Steps (Appends fun e => ∃ key peer ok, e = .recordBadDescriptor key peer ok)
          (recordIfProvenFalse seams (moduleDownloadKey c) source f) :=
        steps_recordIfProvenFalse closedUnder_appends
          (fun key peer ok => ⟨key, peer, ok, rfl⟩) _ source f
      have hmoved := hsteps w₂
      rwa [hrecord] at hmoved
    have hverdict : ∀ e ∈ record, ¬ e.IsDescriptorAsk ∧ ¬ e.IsPullStart ∧
        ∀ peer, e ≠ .ask (.demote peer) := by
      intro e he
      obtain ⟨key, peer, ok, rfl⟩ := hverdicts e he
      exact ⟨id, id, by simp⟩
    refine ⟨asks, seg ++ record ++ [.ask (.demote source)], ?_, hasks, hasked, ?_, ?_, ?_, ?_⟩
    · rw [World.note_trace, hrecorded, hseg, htrace]
      simp
    · intro e he
      simp only [List.mem_append, List.mem_singleton] at he
      rcases he with (he | he) | rfl
      · exact hrest e he
      · exact (hverdict e he).1
      · exact id
    · rw [List.countP_append, List.countP_append,
        countP_isPullStart_eq_zero fun e he => (hverdict e he).2.1,
        countP_isPullStart_eq_zero fun e he => List.mem_singleton.mp he ▸ id]
      exact hpulls
    · rintro peer hdemoted failed ⟨rfl⟩
      unfold Demoted at hdemoted
      simp only [List.mem_append, List.mem_singleton] at hdemoted
      rcases hdemoted with (he | he) | he
      · exact absurd he (hnone peer)
      · exact absurd rfl ((hverdict _ he).2.2 peer)
      · cases he
        exact List.mem_append_right _ List.mem_cons_self
    · rintro failed ⟨rfl⟩ peer hpeer
      exact List.mem_append_left _ (hsettled ▸ hpeer)

/-! ## Every turn of a call -/

/-- What holds at the head of every turn, after the turns `ts`, which added `log`. -/
structure TurnInv (ts : List Again) (s : LoopState) (log : List (Effect ModuleAsk)) : Prop where
  attempts : rounds ts = s.attempts
  left : s.attempts < maxDescriptorAttempts
  memory : ts.count .memoryDropped + s.exclusions.trustsMemory.toNat ≤ 1
  demoted : ∀ peer, Demoted log peer → peer ∈ s.exclusions.demotedHere
  pulls : log.countP Effect.IsPullStart ≤ s.attempts
  reasks : NeverReasks log

variable {log asks rest : List (Effect ModuleAsk)}
  {r : Except DownloadError (Nat ⊕ FailedAttempt)}

theorem AttemptLog.not_demoted (h : AttemptLog x w r asks rest) {peer : String}
    (hpeer : peer ∈ askedPeers asks) : peer ∉ (x.settle w.own).excluded := by
  have hmem := h.asked.subset hpeer
  simpa using (List.mem_filter.mp hmem).2

/-- The asks of an attempt go to nobody that was demoted before. -/
theorem NeverReasks.attempt (h : NeverReasks log)
    (hdemoted : ∀ peer, Demoted log peer → peer ∈ x.demotedHere)
    (hattempt : AttemptLog x w r asks rest) : NeverReasks (log ++ asks ++ rest) := by
  refine atEach_append.mpr ⟨atEach_append.mpr ⟨h, ?_⟩, atEach_of_forall ?_⟩
  · intro before e after hsplit peer hpeer hbefore
    have hmem : e ∈ asks := by rw [hsplit]; simp
    rcases List.mem_append.mp hbefore with hlog | hasks
    · refine hattempt.not_demoted (List.mem_filterMap.mpr ⟨e, hmem, hpeer⟩) ?_
      refine DescriptorExclusions.demotedHere_excluded ?_
      rw [(x.settle_cases w.own).1]
      exact hdemoted peer hlog
    · exact hattempt.asks_only _ (by rw [hsplit]; exact List.mem_append_left _ hasks)
  · intro e he before peer hpeer
    refine absurd ?_ (hattempt.no_more_asks e he)
    unfold Effect.askedPeer at hpeer
    split at hpeer
    · trivial
    · cases hpeer

theorem AttemptLog.countP_le (h : AttemptLog x w r asks rest) :
    (asks ++ rest).countP Effect.IsPullStart ≤ 1 := by
  have hnone : asks.countP Effect.IsPullStart = 0 := by
    refine countP_isPullStart_eq_zero fun e he hstart => ?_
    have hask := h.asks_only e he
    unfold Effect.IsPullStart at hstart
    split at hstart
    · exact hask
    · exact hstart
  rw [List.countP_append, hnone, Nat.zero_add]
  exact h.pulls

/-- A turn that goes on adds its log and keeps what holds at the head of every turn. -/
theorem TurnInv.next (h : TurnInv ts s log) {a : Again}
    (hturn : loopTurn seams c s w = (.ok (.inr (a, s')), w')) :
    ∃ seg, w'.trace = w.trace ++ seg ∧ TurnInv (ts ++ [a]) s' (log ++ seg) := by
  cases turnEnds_of_run hturn with
  | memoryDropped hdenies =>
    refine ⟨[], by simp, ?_, h.left, ?_, ?_, ?_, ?_⟩
    · rw [rounds, List.countP_append, ← rounds, h.attempts]
      rfl
    · have hbefore := h.memory
      rw [hdenies.2.1, Bool.toNat_true] at hbefore
      rw [List.count_append, trustsMemory_settle_of_memoryDenies hdenies]
      simpa using hbefore
    · rw [List.append_nil, (s.exclusions.settle_cases w.own).1]
      exact h.demoted
    · rw [List.append_nil]
      exact h.pulls
    · rw [List.append_nil]
      exact h.reasks
  | @again failed _ _ hkeeps hattempt hleft hmore ha =>
    obtain ⟨asks, rest, htrace, hlog⟩ := attemptLog hattempt
    refine ⟨asks ++ rest, by rw [htrace, List.append_assoc], ?_, hleft, ?_, ?_, ?_, ?_⟩
    · rw [rounds, List.countP_append, ← rounds, h.attempts]
      simp [ha]
    · have hbefore := h.memory
      have htrusts : failed.exclusions.trustsMemory.toNat ≤ s.exclusions.trustsMemory.toNat :=
        trustsMemory_of_failed hattempt ▸ trustsMemory_settle_le
      rw [List.count_append, List.count_singleton, if_neg (by simpa using ha), Nat.add_zero]
      dsimp only
      omega
    · intro peer hpeer
      dsimp only
      rcases List.mem_append.mp hpeer with hbefore | hthis
      · exact hlog.kept failed rfl peer (h.demoted peer hbefore)
      rcases List.mem_append.mp hthis with hask | hrest
      · exact absurd (hlog.asks_only _ hask) id
      · exact hlog.demoted peer hrest failed rfl
    · rw [List.countP_append]
      exact Nat.add_le_add h.pulls hlog.countP_le
    · rw [← List.append_assoc]
      exact h.reasks.attempt h.demoted hlog

theorem Turns.inv (h : Turns seams c w ts s w₁) :
    ∃ log, w₁.trace = w.trace ++ log ∧ TurnInv ts s log := by
  induction h with
  | @start x w₁ hstart =>
    obtain ⟨located, ok, htrace⟩ := hstart.log_of_first
    refine ⟨_, htrace, rfl, show 0 < maxDescriptorAttempts by decide, ?_, ?_, ?_, ?_⟩
    · rw [List.count_nil, Nat.zero_add]
      exact Bool.toNat_le _
    · intro peer hpeer
      simp [Demoted] at hpeer
    · refine Nat.le_of_eq (countP_isPullStart_eq_zero fun e he => ?_)
      simp only [List.mem_cons, List.not_mem_nil, or_false] at he
      rcases he with rfl | rfl <;> exact id
    · refine atEach_of_forall fun e he before peer hpeer => ?_
      simp only [List.mem_cons, List.not_mem_nil, or_false] at he
      rcases he with rfl | rfl <;> cases hpeer
  | next h hturn ih =>
    obtain ⟨log, htrace, hinv⟩ := ih
    obtain ⟨seg, hseg, hnext⟩ := hinv.next hturn
    exact ⟨log ++ seg, by rw [hseg, htrace, List.append_assoc], hnext⟩

/-! ## The end of a call -/

/-- A loop that has ended did so in one of its turns. -/
theorem Turns.lastTurn (h : Turns seams c w ts s w₁) :
    ∀ turns, (loopTurns seams c turns s w₁).1 ≠ .ok none →
      ∃ ts' s' w₂ r', Turns seams c w ts' s' w₂ ∧
        loopTurn seams c s' w₂ = (r', (loopTurns seams c turns s w₁).2) ∧
        ∀ more, r' ≠ .ok (.inr more) := by
  intro turns
  induction turns generalizing ts s w₁ with
  | zero => exact fun hend => absurd rfl hend
  | succ turns ih =>
    intro hend
    generalize hturn : loopTurn seams c s w₁ = turn
    obtain ⟨r', w₂⟩ := turn
    have hrun : loopTurns seams c (turns + 1) s w₁ = (loopTurn seams c s >>= _) w₁ := rfl
    cases r' with
    | error e =>
      rw [bind_of_error hturn] at hrun
      rw [hrun]
      exact ⟨ts, s, w₁, _, h, hturn, by simp⟩
    | ok out =>
      rw [bind_of_ok hturn] at hrun
      cases out with
      | inl len =>
        rw [hrun]
        exact ⟨ts, s, w₁, _, h, hturn, by simp⟩
      | inr more =>
        obtain ⟨a, s'⟩ := more
        dsimp only at hrun
        rw [hrun] at hend ⊢
        exact ih (h.next hturn) hend

/-- A call that gets as far as its first attempt ends as its loop does. -/
theorem AttemptAt.loopTurns_eq (h : AttemptAt seams c w 0 x w₁) :
    loopTurns seams c (maxDescriptorAttempts + 1) { exclusions := x, attempts := 0 } w₁
      = ((download seams c w).1.map some, (download seams c w).2) := by
  obtain ⟨left, hleft, hrest⟩ := h.download_eq
  rw [hrest]
  refine DigDownload.loopTurns_eq seams c _ left _ w₁ hleft ?_
  have htrusts : x.trustsMemory.toNat ≤ 1 := Bool.toNat_le _
  dsimp only
  omega

/-- A call that does not get that far has asked nobody but the locator. -/
theorem download_log_of_not_started (h : ∀ x w₁, ¬ AttemptAt seams c w 0 x w₁) :
    ∃ log, (download seams c w).2.trace = w.trace ++ log ∧
      ∀ e ∈ log, ∃ answer, e = .ask (.findProviders answer) := by
  have hwp : wp (download seams c) (fun _ w' => ∃ log, w'.trace = w.trace ++ log ∧
      ∀ e ∈ log, ∃ answer, e = .ask (.findProviders answer))
      (fun _ w' => ∃ log, w'.trace = w.trace ++ log ∧
        ∀ e ∈ log, ∃ answer, e = .ask (.findProviders answer)) w := by
    have hlocate : ∀ answer, ∃ log, (w.note (.ask (.findProviders answer))).trace
        = w.trace ++ log ∧ ∀ e ∈ log, ∃ answer, e = Effect.ask (.findProviders answer) :=
      fun answer => ⟨[_], rfl, by simp⟩
    refine wp_download_begins (fun _ => ⟨[], by simp, by simp⟩) (fun _ _ _ _ => hlocate _)
      (fun _ _ _ => hlocate _) fun id located hid hlocated hne => ?_
    exfalso
    have hread : wp (rememberedVerdicts seams (moduleDownloadKey c)) (fun _ _ => True)
        (fun _ _ => False)
        { w.note (.ask (.findProviders (.ok located))) with own := located } :=
      wp_rememberedVerdicts_reads trivial trivial
    obtain ⟨remembered, hremembered, -⟩ := hread.exists_ok
    exact h _ _ (.first hid hlocated hne (Prod.ext hremembered rfl))
  exact wp_same.mp hwp

/-- A turn asks holders that it knows, in their order. -/
theorem askedPeers_turn (s : LoopState) (w : PullWorld) :
    (askedPeers ((loopTurn seams c s w).2.trace.drop w.tick)).Sublist (knownIds w) := by
  have hattempted : ∀ r w', descriptorAttempt seams c s.exclusions w = (r, w') →
      (askedPeers (w'.trace.drop w.tick)).Sublist (knownIds w) := by
    intro r w' hattempt
    obtain ⟨asks, rest, htrace, hlog⟩ := attemptLog hattempt
    rw [htrace, List.append_assoc, World.tick, List.drop_left, askedPeers, List.filterMap_append,
      ← askedPeers, ← askedPeers, askedPeers_eq_nil hlog.no_more_asks, List.append_nil]
    exact hlog.asked.sublist.trans List.filter_sublist
  generalize hturn : loopTurn seams c s w = turn
  obtain ⟨r, w'⟩ := turn
  cases turnEnds_of_run hturn with
  | memoryDropped hdenies =>
    rw [World.tick, List.drop_length]
    exact List.nil_sublist _
  | delivered hkeeps hattempt => exact hattempted _ _ hattempt
  | terminal hkeeps hattempt => exact hattempted _ _ hattempt
  | gaveUp hkeeps hattempt hspent => exact hattempted _ _ hattempt
  | again hkeeps hattempt hleft hmore ha => exact hattempted _ _ hattempt

/-- What a call whose log is `log` has asked of the holders, beyond one turn. -/
structure CallInv (log : List (Effect ModuleAsk)) : Prop where
  pulls : log.countP Effect.IsPullStart ≤ maxDescriptorAttempts
  reasks : NeverReasks log

theorem TurnInv.last (h : TurnInv ts s log) {r : Except DownloadError (Nat ⊕ (Again × LoopState))}
    (hturn : loopTurn seams c s w = (r, w')) (hlast : ∀ more, r ≠ .ok (.inr more)) :
    ∃ seg, w'.trace = w.trace ++ seg ∧ CallInv (log ++ seg) := by
  have hattempted : ∀ r, descriptorAttempt seams c s.exclusions w = (r, w') →
      ∃ seg, w'.trace = w.trace ++ seg ∧ CallInv (log ++ seg) := by
    intro r hattempt
    obtain ⟨asks, rest, htrace, hlog⟩ := attemptLog hattempt
    refine ⟨asks ++ rest, by rw [htrace, List.append_assoc], ?_, ?_⟩
    · have hleft := h.left
      have hpulls := h.pulls
      have hthis := hlog.countP_le
      rw [List.countP_append]
      omega
    · rw [← List.append_assoc]
      exact h.reasks.attempt h.demoted hlog
  cases turnEnds_of_run hturn with
  | memoryDropped hdenies => exact absurd rfl (hlast _)
  | delivered hkeeps hattempt => exact hattempted _ hattempt
  | terminal hkeeps hattempt => exact hattempted _ hattempt
  | gaveUp hkeeps hattempt hspent => exact hattempted _ hattempt
  | again hkeeps hattempt hleft hmore ha => exact absurd rfl (hlast _)

theorem download_callInv (seams : ModuleSeams) (c : Capsule) (w : PullWorld) :
    CallInv ((download seams c w).2.trace.drop w.tick) := by
  have hdrop : ∀ log, (download seams c w).2.trace = w.trace ++ log → CallInv log →
      CallInv ((download seams c w).2.trace.drop w.tick) := by
    intro log hlog hinv
    rwa [hlog, World.tick, List.drop_left]
  by_cases hstarted : ∃ x w₁, AttemptAt seams c w 0 x w₁
  · obtain ⟨x, w₁, hstart⟩ := hstarted
    have hrun := hstart.loopTurns_eq
    obtain ⟨ts, s, w₂, r, hturns, hturn, hlast⟩ :=
      (Turns.start hstart).lastTurn (maxDescriptorAttempts + 1) (by
        rw [hrun]
        cases (download seams c w).1 <;> simp [Except.map])
    rw [hrun] at hturn
    obtain ⟨log, htrace, hinv⟩ := hturns.inv
    obtain ⟨seg, hseg, hcall⟩ := hinv.last hturn hlast
    exact hdrop _ (by rw [hseg, htrace, List.append_assoc]) hcall
  · obtain ⟨log, hlog, honly⟩ :=
      download_log_of_not_started fun x w₁ h => hstarted ⟨x, w₁, h⟩
    refine hdrop log hlog ⟨?_, atEach_of_forall fun e he before peer hpeer => ?_⟩
    · rw [countP_isPullStart_eq_zero]
      · exact Nat.zero_le _
      · intro e he
        obtain ⟨answer, rfl⟩ := honly e he
        exact id
    · obtain ⟨answer, rfl⟩ := honly e he
      cases hpeer

/-! ## The loop of a chunk -/

section Chunk

variable {info : ModuleInfo} {layout : ChunkPlan} {index : Nat} {relocated : Bool}
  {reasons refused : HolderReasons} {bytes : Bytes}

theorem chunkTurn_of_served
    (h : tryHolders seams c (layout.chunkSpan index).1 (layout.chunkSpan index).2
      (info.chunkHashes.getD index "") (rotation w.own index) reasons w = (.ok (.ok bytes), w')) :
    chunkTurn seams c info layout index relocated reasons w = (.ok (.inl bytes), w') := by
  unfold chunkTurn
  rw [bind_of_ok (show Prog.read w = (.ok w, w) from rfl), bind_of_ok h]
  rfl

/-- A turn in which nobody serves the chunk is the last one after the holders were located
once more. -/
theorem chunkTurn_of_not_served
    (h : tryHolders seams c (layout.chunkSpan index).1 (layout.chunkSpan index).2
      (info.chunkHashes.getD index "") (rotation w.own index) reasons w
        = (.ok (.error refused), w')) :
    chunkTurn seams c info layout index true reasons w
      = (.error (chunkNotServed c layout index w.own.length refused), w') := by
  unfold chunkTurn
  rw [bind_of_ok (show Prog.read w = (.ok w, w) from rfl), bind_of_ok h]
  rfl

theorem located_ok {content : ContentId} {refreshed : List ProviderRecord}
    (h : seams.findProviders w.tick content = .ok refreshed) :
    Prog.bind (askSeam (seams.findProviders · content) .findProviders) Prog.ofExcept w
      = ((.ok refreshed : Except DownloadError _), w.note (.ask (.findProviders (.ok refreshed)))) := by
  simp [Prog.bind, askSeam, h, Prog.ofExcept]

theorem located_error {content : ContentId} {e : DownloadError}
    (h : seams.findProviders w.tick content = .error e) :
    Prog.bind (askSeam (seams.findProviders · content) .findProviders) Prog.ofExcept w
      = (.error e, w.note (.ask (.findProviders (.error e)))) := by
  simp [Prog.bind, askSeam, h, Prog.ofExcept]

section NotServed

variable {content : ContentId} {refreshed : List ProviderRecord} {e : DownloadError}
  (h : tryHolders seams c (layout.chunkSpan index).1 (layout.chunkSpan index).2
    (info.chunkHashes.getD index "") (rotation w.own index) reasons w = (.ok (.error refused), w'))

include h

theorem chunkTurn_of_notDownloadable (hid : moduleContentId c = none) :
    chunkTurn seams c info layout index false reasons w = (.error .notDownloadable, w') := by
  unfold chunkTurn
  rw [bind_of_ok (show Prog.read w = (.ok w, w) from rfl), bind_of_ok h, hid]
  rfl

theorem chunkTurn_of_locator_error (hid : moduleContentId c = some content)
    (hlocated : seams.findProviders w'.tick content = .error e) :
    chunkTurn seams c info layout index false reasons w
      = (.error e, w'.note (.ask (.findProviders (.error e)))) := by
  unfold chunkTurn
  rw [bind_of_ok (show Prog.read w = (.ok w, w) from rfl), bind_of_ok h, hid]
  exact bind_of_error (located_error hlocated)

/-- A turn in which nobody serves the chunk learns of new holders and goes on. -/
theorem chunkTurn_of_located (hid : moduleContentId c = some content)
    (hlocated : seams.findProviders w'.tick content = .ok refreshed) :
    chunkTurn seams c info layout index false reasons w
      = (.ok (.inr refused), { w'.note (.ask (.findProviders (.ok refreshed))) with
          own := mergeNewProviders w'.own refreshed }) := by
  unfold chunkTurn
  rw [bind_of_ok (show Prog.read w = (.ok w, w) from rfl), bind_of_ok h, hid]
  exact bind_of_ok (located_ok hlocated)

end NotServed

/-- A round over holders does not fail by itself. -/
theorem tryHolders_ok (seams : ModuleSeams) (c : Capsule) (offset len : Nat)
    (expected : String) (peers : List String) (reasons : HolderReasons) (w : PullWorld) :
    ∃ r w', tryHolders seams c offset len expected peers reasons w = (.ok r, w') := by
  have hround : wp (tryHolders seams c offset len expected peers reasons) _ _ w :=
    wp_tryHolders offset len expected peers reasons w
  obtain ⟨r, hr, -⟩ := hround.exists_ok
  exact ⟨r, _, Prod.ext hr rfl⟩

/-- The loop of a chunk has ended after two turns, as the model has it. -/
theorem chunkTurns_eq (info : ModuleInfo) (layout : ChunkPlan) (index : Nat) (w : PullWorld) :
    chunkTurns seams c info layout index 2 false [] (w.note (.ask (.fetchChunk index)))
      = ((fetchVerifiedChunk seams c info layout index w).1.map some,
          (fetchVerifiedChunk seams c info layout index w).2) := by
  generalize hrun : fetchVerifiedChunk seams c info layout index w = end'
  unfold fetchVerifiedChunk at hrun
  generalize hmarked : w.note (.ask (.fetchChunk index)) = marked
  rw [bind_of_ok (show markPull (.fetchChunk index) w = (.ok (), marked) from
      congrArg (Prod.mk (Except.ok ())) hmarked),
    bind_of_ok (show Prog.read marked = (.ok marked, marked) from rfl)] at hrun
  show (chunkTurn seams c info layout index false [] >>= _) marked = _
  obtain ⟨r, w₁, hfirst⟩ := tryHolders_ok seams c (layout.chunkSpan index).1
    (layout.chunkSpan index).2 (info.chunkHashes.getD index "") (rotation marked.own index) []
    marked
  rw [bind_of_ok hfirst] at hrun
  cases r with
  | ok bytes =>
    rw [bind_of_ok (chunkTurn_of_served hfirst), ← hrun]
    rfl
  | error reasons =>
    dsimp only at hrun
    cases hid : moduleContentId c with
    | none =>
      rw [hid] at hrun
      rw [bind_of_error (chunkTurn_of_notDownloadable hfirst hid), ← hrun]
      rfl
    | some content =>
      rw [hid] at hrun
      dsimp only at hrun
      cases hlocated : seams.findProviders w₁.tick content with
      | error e =>
        rw [bind_of_error (located_error hlocated)] at hrun
        rw [bind_of_error (chunkTurn_of_locator_error hfirst hid hlocated), ← hrun]
        rfl
      | ok refreshed =>
        generalize hlearnt : ({ w₁.note (.ask (.findProviders (.ok refreshed))) with
          own := mergeNewProviders w₁.own refreshed } : PullWorld) = learnt
        rw [bind_of_ok (located_ok hlocated), bind_of_ok (show Prog.update _ _ = (.ok (), learnt)
            from congrArg (Prod.mk (Except.ok ())) hlearnt),
          bind_of_ok (show Prog.read learnt = (.ok learnt, learnt) from rfl)] at hrun
        rw [bind_of_ok ((chunkTurn_of_located hfirst hid hlocated).trans
          (congrArg (Prod.mk (Except.ok (Sum.inr reasons))) hlearnt))]
        show (chunkTurn seams c info layout index true reasons >>= _) learnt = _
        obtain ⟨r, w₂, hsecond⟩ := tryHolders_ok seams c
          (layout.chunkSpan index).1 (layout.chunkSpan index).2 (info.chunkHashes.getD index "")
          (rotation learnt.own index) reasons learnt
        rw [bind_of_ok hsecond] at hrun
        cases r with
        | ok bytes =>
          rw [bind_of_ok (chunkTurn_of_served hsecond), ← hrun]
          rfl
        | error refused =>
          rw [bind_of_error (chunkTurn_of_not_served hsecond), ← hrun]
          rfl

end Chunk

/-- What bounds the asks of the pull that begins in `w`. `ends`: its loop has ended, as the
pull does, after one turn more than there are attempts. `chunks`: so has the loop of a
chunk, after two turns. `rounds`: before each turn, fewer rounds were asked than there are
attempts. `memory`: one turn at most drops the remembered verdicts, and it asks nobody.
`asked`: a turn asks each holder that is known when it begins once at most. `pulls`: at
most as many pulls begin as there are attempts. `reasks`: nobody is asked once demoted. -/
structure DescriptorPhaseBounded (seams : ModuleSeams) (c : Capsule) (w : PullWorld) : Prop where
  ends : ∀ x w₁, AttemptAt seams c w 0 x w₁ →
    loopTurns seams c (maxDescriptorAttempts + 1) { exclusions := x, attempts := 0 } w₁
      = ((download seams c w).1.map some, (download seams c w).2)
  chunks : ∀ info layout index w₁,
    chunkTurns seams c info layout index 2 false [] (w₁.note (.ask (.fetchChunk index)))
      = ((fetchVerifiedChunk seams c info layout index w₁).1.map some,
          (fetchVerifiedChunk seams c info layout index w₁).2)
  rounds : ∀ ts s w₁, Turns seams c w ts s w₁ → rounds ts < maxDescriptorAttempts
  memory : ∀ ts s w₁, Turns seams c w ts s w₁ → ts.count .memoryDropped ≤ 1 ∧
    ∀ s' w₂, loopTurn seams c s w₁ = (.ok (.inr (.memoryDropped, s')), w₂) → w₂ = w₁
  asked : ∀ ts s w₁, Turns seams c w ts s w₁ →
    (askedPeers ((loopTurn seams c s w₁).2.trace.drop w₁.tick)).Sublist (knownIds w₁)
  pulls : ((download seams c w).2.trace.drop w.tick).countP Effect.IsPullStart
    ≤ maxDescriptorAttempts
  reasks : NeverReasks ((download seams c w).2.trace.drop w.tick)

/-- The descriptor phase is bounded, whatever the holders and the store answer. -/
theorem descriptorPhase_bounded (seams : ModuleSeams) (c : Capsule) (w : PullWorld) :
    DescriptorPhaseBounded seams c w where
  ends x w₁ h := h.loopTurns_eq
  chunks info layout index w₁ := chunkTurns_eq info layout index w₁
  rounds ts s w₁ h := by
    obtain ⟨log, -, hinv⟩ := h.inv
    rw [hinv.attempts]
    exact hinv.left
  memory ts s w₁ h := by
    obtain ⟨log, -, hinv⟩ := h.inv
    refine ⟨Nat.le_trans (Nat.le_add_right _ _) hinv.memory, fun s' w₂ hturn => ?_⟩
    cases turnEnds_of_run hturn with
    | memoryDropped hdenies => rfl
    | again hkeeps hattempt hleft hmore ha => exact absurd rfl ha
  asked ts s w₁ h := askedPeers_turn s w₁
  pulls := (download_callInv seams c w).pulls
  reasks := (download_callInv seams c w).reasks

end Turn

end DigDownload
