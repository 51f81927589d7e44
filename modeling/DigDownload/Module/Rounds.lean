import DigDownload.Module.Availability
import DigDownload.Module.Reputation

/-!
# Whom a pull asks before it gives up

The attempt loop asks for a descriptor in rounds. This module says which attempt ends
a pull that fails, and whom that attempt asked. A round that obtains nothing has asked
every holder that is not excluded, and a chunk that is not obtained has been asked of
every holder that is known, as long as every error a holder answers with is recoverable.
A single error that is not ends the round at the holder that gave it.
-/

namespace DigDownload

open Slices Tiling Prog Past

/-! ## The attempts of a pull -/

/-- Attempt `n` of a pull started in `w` begins in the given state, with the given
exclusions. -/
inductive AttemptAt (seams : ModuleSeams) (c : Capsule) (w : PullWorld) :
    Nat → DescriptorExclusions → PullWorld → Prop where
  | first {id : ContentId} {located : List ProviderRecord} {remembered : List String}
      {w₁ : PullWorld} (hid : moduleContentId c = some id)
      (hlocated : seams.findProviders w.tick id = .ok located) (hne : located ≠ [])
      (hremembered : rememberedVerdicts seams (moduleDownloadKey c)
        { w.note (.ask (.findProviders (.ok located))) with own := located }
          = (.ok remembered, w₁)) :
      AttemptAt seams c w 0 (.new remembered) w₁
  | next {n : Nat} {x : DescriptorExclusions} {w₁ w₂ : PullWorld} {failed : FailedAttempt}
      (h : AttemptAt seams c w n x w₁)
      (hattempt : descriptorAttempt seams c x w₁ = (.ok (.inr failed), w₂))
      (hleft : n + 1 < maxDescriptorAttempts) (hmore : failed.noneLeft = false) :
      AttemptAt seams c w (n + 1) failed.exclusions w₂

/-- Attempt `n`, begun in `w₁`, ends the pull with the error `e` and leaves `w'`. -/
structure LastAttempt (seams : ModuleSeams) (c : Capsule) (w : PullWorld) (n : Nat)
    (x : DescriptorExclusions) (w₁ : PullWorld) (e : DownloadError) (w' : PullWorld) : Prop where
  attempt : AttemptAt seams c w n x w₁
  ends : descriptorAttempt seams c x w₁ = (.error e, w') ∨
    ∃ failed, descriptorAttempt seams c x w₁ = (.ok (.inr failed), w') ∧ failed.error = e ∧
      (failed.noneLeft = true ∨ n + 1 = maxDescriptorAttempts)

/-- No holder was located at all: the id names nothing, or the locator knows nobody. -/
def NoHolder (seams : ModuleSeams) (c : Capsule) (w : PullWorld) : Prop :=
  ∀ id, moduleContentId c = some id → seams.findProviders w.tick id = .ok []

section Attempts

variable {seams : ModuleSeams} {c : Capsule} {info : ModuleInfo} {layout : ChunkPlan}
  {w w₁ w' : PullWorld} {n : Nat} {x : DescriptorExclusions} {e : DownloadError}

/-- A loop that fails does so in one of its attempts. -/
theorem lastAttempt_of_attemptLoop {left : Nat} (h : AttemptAt seams c w n x w₁)
    (hn : n + left + 1 = maxDescriptorAttempts)
    (hrun : attemptLoop seams c left x w₁ = (.error e, w')) :
    ∃ n x w₁, LastAttempt seams c w n x w₁ e w' := by
  induction left generalizing n x w₁ with
  | zero =>
    rcases bind_eq_error.mp hrun with hattempt | ⟨r, w₂, hattempt, hrest⟩
    · exact ⟨n, x, w₁, h, Or.inl hattempt⟩
    · cases r with
      | inl len => cases hrest
      | inr failed =>
        cases hrest
        exact ⟨n, x, w₁, h, Or.inr ⟨failed, hattempt, rfl, Or.inr hn⟩⟩
  | succ left ih =>
    rcases bind_eq_error.mp hrun with hattempt | ⟨r, w₂, hattempt, hrest⟩
    · exact ⟨n, x, w₁, h, Or.inl hattempt⟩
    · cases r with
      | inl len => cases hrest
      | inr failed =>
        dsimp only at hrest
        cases hnone : failed.noneLeft with
        | true =>
          rw [if_pos hnone] at hrest
          cases hrest
          exact ⟨n, x, w₁, h, Or.inr ⟨failed, hattempt, rfl, Or.inl hnone⟩⟩
        | false =>
          rw [if_neg (by simp [hnone])] at hrest
          exact ih (h.next hattempt (by omega) hnone) (by omega) hrest

/-- A pull that fails, the locator not being at fault, knew no holder or fails in one of
its attempts. -/
theorem lastAttempt_of_error
    (hlocator : ∀ t id, ∃ located, seams.findProviders t id = .ok located)
    (hrun : download seams c w = (.error e, w')) :
    NoHolder seams c w ∨ ∃ n x w₁, LastAttempt seams c w n x w₁ e w' := by
  unfold download at hrun
  cases hid : moduleContentId c with
  | none => exact Or.inl fun id hid' => by simp [hid] at hid'
  | some id =>
    rw [hid] at hrun
    obtain ⟨located, hlocated⟩ := hlocator w.tick id
    have hask := run_findProviders hlocated
    rcases bind_eq_error.mp hrun with hfail | ⟨located', w₁, hok, hrest⟩
    · rw [hask] at hfail
      cases hfail
    rw [hask] at hok
    cases hok
    by_cases hne : located = []
    · subst hne
      exact Or.inl fun id' hid' => by
        rw [hid, Option.some.injEq] at hid'
        rw [← hid', hlocated]
    · rw [if_neg hne] at hrest
      rcases bind_eq_error.mp hrest with hfail | ⟨_, w₂, hset, hrest⟩
      · cases hfail
      cases hset
      rcases bind_eq_error.mp hrest with hfail | ⟨remembered, w₃, hremembered, hloop⟩
      · have hno : wp (rememberedVerdicts seams (moduleDownloadKey c)) (fun _ _ => True)
            (fun _ _ => False) { w.note (.ask (.findProviders (.ok located))) with own := located } :=
          wp_rememberedVerdicts_reads trivial trivial
        exact (hno.error (congrArg Prod.fst hfail)).elim
      · exact Or.inr (lastAttempt_of_attemptLoop (.first hid hlocated hne hremembered) rfl hloop)

/-! ## Who was asked -/

/-- The holder was asked for a descriptor. -/
def AskedForDescriptor (log : List (Effect ModuleAsk)) (peer : String) : Prop :=
  ∃ answer, Effect.ask (.getModuleInfo peer answer) ∈ log

/-- Some chunk was obtained and written, or each of the holders was asked for it, after
every point of the log at which a chunk had to be fetched. -/
def ChunksAskedOf (ids : List String) (log : List (Effect ModuleAsk)) : Prop :=
  ∀ before index after, log = before ++ .ask (.fetchChunk index) :: after →
    (∃ off landed, Effect.writeAt off landed true ∈ after) ∨
      ∀ peer ∈ ids, ∃ off len answer,
        Effect.ask (.fetchModuleRange peer off len answer) ∈ after

/-- The effect marks that a chunk has to be fetched. -/
def Effect.IsChunkMark : Effect ModuleAsk → Prop
  | .ask (.fetchChunk _) => True
  | _ => False

section Asked

variable {ids : List String} {log seg : List (Effect ModuleAsk)}

/-- What follows without another chunk to fetch changes nothing. -/
theorem ChunksAskedOf.append (h : ChunksAskedOf ids log) (hseg : ChunksAskedOf ids seg) :
    ChunksAskedOf ids (log ++ seg) := by
  intro before index after hsplit
  rcases append_eq_append_cons_iff.mp hsplit with ⟨rest, hlog, rfl⟩ | ⟨front, hfront, -⟩
  · rcases h before index rest hlog with ⟨off, landed, hmem⟩ | hall
    · exact Or.inl ⟨off, landed, List.mem_append_left _ hmem⟩
    · refine Or.inr fun peer hpeer => ?_
      obtain ⟨off, len, answer, hmem⟩ := hall peer hpeer
      exact ⟨off, len, answer, List.mem_append_left _ hmem⟩
  · exact hseg front index after hfront

theorem chunksAskedOf_of_unmarked (h : ∀ e ∈ seg, ¬ e.IsChunkMark) : ChunksAskedOf ids seg := by
  intro before index after hsplit
  exact absurd trivial (h (.ask (.fetchChunk index)) (by rw [hsplit]; simp))

/-- One chunk, with all that was done for it. -/
theorem chunksAskedOf_cons {index : Nat} (hmarks : ∀ e ∈ seg, ¬ e.IsChunkMark)
    (h : (∃ off landed, Effect.writeAt off landed true ∈ seg) ∨
      ∀ peer ∈ ids, ∃ off len answer, Effect.ask (.fetchModuleRange peer off len answer) ∈ seg) :
    ChunksAskedOf ids (.ask (.fetchChunk index) :: seg) := by
  intro before i after hsplit
  cases before with
  | nil =>
    rw [List.nil_append, List.cons.injEq] at hsplit
    exact hsplit.2 ▸ h
  | cons e before =>
    rw [List.cons_append, List.cons.injEq] at hsplit
    exact absurd trivial (hmarks (.ask (.fetchChunk i)) (by rw [hsplit.2]; simp))

end Asked

/-- No answer keeps a round from its other holders: every error is recoverable, or there are
no others. -/
def HearsAll (seams : ModuleSeams) (c : Capsule) (peers : Set String) : Prop :=
  peers.Subsingleton ∨
    ∀ t p e, seams.getModuleInfo t p c = some (.error e) → e.isRecoverable = true

theorem HearsAll.mono {peers peers' : Set String} (h : HearsAll seams c peers)
    (hsub : ∀ p ∈ peers', p ∈ peers) : HearsAll seams c peers' :=
  h.imp (fun hone => hone.anti hsub) id

/-- A round that obtains nothing has asked every holder that is not excluded. -/
theorem wp_askDescriptors_asks (excluded : List String) :
    ∀ (providers : List ProviderRecord) (reasons : HolderReasons) (tried : Nat) (w : PullWorld),
      HearsAll seams c (fun id => id ∈ holderIds providers) →
      wp (askDescriptors seams c excluded providers reasons tried) (fun _ _ => True)
        (fun _ w' => ∃ seg, w'.trace = w.trace ++ seg ∧
          ∀ p ∈ providers, p.providerPeerId ∉ excluded →
            AskedForDescriptor seg p.providerPeerId) w
  | [], reasons, tried, w, _ => ⟨[], by simp, by simp⟩
  | provider :: providers, reasons, tried, w, hears => by
      have hears' : HearsAll seams c (fun id => id ∈ holderIds providers) :=
        hears.mono fun _ hp => List.mem_cons_of_mem _ hp
      unfold askDescriptors
      dsimp only
      split
      · rename_i hex
        refine (wp_askDescriptors_asks excluded providers reasons tried w hears').mono
          (fun _ _ h => h) ?_
        rintro e w' ⟨seg, hseg, hasked⟩
        refine ⟨seg, hseg, fun p hp hout => ?_⟩
        cases hp with
        | head => exact absurd hex hout
        | tail _ hp => exact hasked p hp hout
      rw [wp_bind, wp_askSeam]
      -- the rest of the round, once this holder gave no descriptor
      have hrest : ∀ (answer : Answer ModuleInfo) (reasons : HolderReasons) (tried : Nat),
          wp (askDescriptors seams c excluded providers reasons tried) (fun _ _ => True)
            (fun _ w' => ∃ seg, w'.trace = w.trace ++ seg ∧
              ∀ p ∈ provider :: providers, p.providerPeerId ∉ excluded →
                AskedForDescriptor seg p.providerPeerId)
            (w.note (.ask (.getModuleInfo provider.providerPeerId answer))) := by
        intro answer reasons tried
        refine (wp_askDescriptors_asks excluded providers reasons tried _ hears').mono
          (fun _ _ h => h) ?_
        rintro e w' ⟨seg, hseg, hasked⟩
        refine ⟨.ask (.getModuleInfo provider.providerPeerId answer) :: seg, by simpa using hseg,
          fun p hp hout => ?_⟩
        cases hp with
        | head => exact ⟨answer, List.mem_cons_self⟩
        | tail _ hp =>
          obtain ⟨answer', hmem⟩ := hasked p hp hout
          exact ⟨answer', List.mem_cons_of_mem _ hmem⟩
      cases hanswer : seams.getModuleInfo w.tick provider.providerPeerId c with
      | none => exact hrest none _ _
      | some answer =>
        cases answer with
        | ok info => trivial
        | error e =>
          dsimp only
          split
          · exact hrest (some (.error e)) _ _
          · rename_i hfinal
            -- nobody else is there to be asked
            obtain hone | hrec := hears
            · refine ⟨[_], rfl, fun p hp _ => ?_⟩
              have hsame : p.providerPeerId = provider.providerPeerId :=
                hone (List.mem_map_of_mem hp) List.mem_cons_self
              rw [hsame]
              exact ⟨some (.error e), List.mem_cons_self⟩
            · exact absurd (hrec _ _ _ hanswer) hfinal

/-- A round over holders that serves no chunk has asked each of them for it. -/
theorem wp_tryHolders_asks (offset len : Nat) (expected : String) :
    ∀ (peers : List String) (reasons : HolderReasons) (w : PullWorld),
      wp (tryHolders seams c offset len expected peers reasons)
        (fun r w' => w'.own = w.own ∧ ∃ seg, w'.trace = w.trace ++ seg ∧
          (∀ e ∈ seg, ¬ e.IsChunkMark) ∧
          ((∃ reasons, r = .error reasons) → ∀ peer ∈ peers, ∃ answer,
            Effect.ask (.fetchModuleRange peer offset len answer) ∈ seg))
        (fun _ _ => False) w
  | [], reasons, w => ⟨rfl, [], by simp, by simp, by simp⟩
  | peer :: peers, reasons, w => by
      unfold tryHolders
      rw [wp_bind]
      have hone : wp (fetchChunkFrom seams c peer offset len expected)
          (fun _ w₁ => ∃ answer, w₁ = w.note (.ask (.fetchModuleRange peer offset len answer)))
          (fun _ _ => False) w := by
        unfold fetchChunkFrom
        rw [wp_bind, wp_askSeam]
        generalize seams.fetchModuleRange w.tick peer c offset len = answer
        cases answer with
        | none => exact ⟨_, rfl⟩
        | some answer =>
          cases answer with
          | error e => exact ⟨_, rfl⟩
          | ok bytes =>
            dsimp only
            split
            · exact ⟨_, rfl⟩
            split <;> exact ⟨_, rfl⟩
      refine hone.mono (fun r w₁ hw₁ => ?_) (fun _ _ h => h)
      obtain ⟨answer, rfl⟩ := hw₁
      cases r with
      | ok bytes =>
        refine ⟨rfl, [_], rfl, by simp [Effect.IsChunkMark], ?_⟩
        rintro ⟨reasons, h⟩
        cases h
      | error reason =>
        refine (wp_tryHolders_asks offset len expected peers _ _).mono ?_ (fun _ _ h => h)
        rintro r w' ⟨hown, seg, hseg, hmarks, hasked⟩
        refine ⟨hown, .ask (.fetchModuleRange peer offset len answer) :: seg, by simpa using hseg,
          ?_, fun hr p hp => ?_⟩
        · simpa [Effect.IsChunkMark] using hmarks
        · cases hp with
          | head => exact ⟨answer, List.mem_cons_self⟩
          | tail _ hp =>
            obtain ⟨answer', hmem⟩ := hasked hr p hp
            exact ⟨answer', List.mem_cons_of_mem _ hmem⟩

/-- A chunk that is not obtained has been asked of every holder known by then. -/
theorem wp_fetchVerifiedChunk_asks (hsound : PartsSound seams c)
    (hid : ∃ id, moduleContentId c = some id) (index : Nat) (w : PullWorld) :
    wp (fetchVerifiedChunk seams c info layout index)
      (fun _ w' => ∃ seg, w'.trace = w.trace ++ .ask (.fetchChunk index) :: seg ∧
        ∀ e ∈ seg, ¬ e.IsChunkMark)
      (fun _ w' => ∃ seg, w'.trace = w.trace ++ .ask (.fetchChunk index) :: seg ∧
        ChunksAskedOf (knownIds w') (.ask (.fetchChunk index) :: seg)) w := by
  unfold fetchVerifiedChunk
  rw [wp_bind, wp_markPull, wp_bind, wp_read, wp_bind]
  refine (wp_tryHolders_asks _ _ _ _ _ _).mono ?_ (fun _ _ h => h.elim)
  rintro r w₁ ⟨-, seg, hseg, hmarks, -⟩
  cases r with
  | ok bytes => exact ⟨seg, by simpa using hseg, hmarks⟩
  | error reasons =>
    obtain ⟨content, hcontent⟩ := hid
    rw [hcontent]
    dsimp only
    obtain ⟨refreshed, hrefreshed⟩ := hsound.locator w₁.tick content
    rw [wp_bind, show wp (Prog.bind _ _) _ _ _ ↔ _ from wp_bind _ _, wp_askSeam, hrefreshed,
      wp_ofExcept_ok, wp_bind, wp_update, wp_bind, wp_read, wp_bind]
    refine (wp_tryHolders_asks _ _ _ _ _ _).mono ?_ (fun _ _ h => h.elim)
    rintro r w₂ ⟨hown, seg', hseg', hmarks', hasked⟩
    have htrace : w₂.trace = w.trace ++ .ask (.fetchChunk index) ::
        (seg ++ .ask (.findProviders (.ok refreshed)) :: seg') := by
      rw [hseg']
      simp [hseg]
    have hunmarked : ∀ e ∈ seg ++ Effect.ask (.findProviders (.ok refreshed)) :: seg',
        ¬ e.IsChunkMark := by
      intro e he
      rcases List.mem_append.mp he with he | he
      · exact hmarks e he
      cases he with
      | head => exact id
      | tail _ he => exact hmarks' e he
    cases r with
    | ok bytes => exact ⟨_, htrace, hunmarked⟩
    | error reasons =>
      refine ⟨_, htrace, chunksAskedOf_cons hunmarked (Or.inr fun peer hpeer => ?_)⟩
      obtain ⟨p, hp, rfl⟩ := List.mem_map.mp hpeer
      rw [hown] at hp
      obtain ⟨answer, hmem⟩ := hasked ⟨_, rfl⟩ _ (mem_rotation index hp)
      exact ⟨_, _, answer, List.mem_append_right _ (List.mem_cons_of_mem _ hmem)⟩

/-- `w'` is `w` after some more effects, and every chunk fetched in them was obtained, or
asked of every holder known by then. -/
def AsksFairly (w w' : PullWorld) : Prop :=
  ∃ seg, w'.trace = w.trace ++ seg ∧ ChunksAskedOf (knownIds w') seg

/-- The same, when every chunk fetched was obtained, whoever is known. -/
def Obtains (w w' : PullWorld) : Prop :=
  ∃ seg, w'.trace = w.trace ++ seg ∧ ∀ ids, ChunksAskedOf ids seg

theorem Obtains.trans {w₂ : PullWorld} (h : Obtains w w₁) (h' : Obtains w₁ w₂) :
    Obtains w w₂ := by
  obtain ⟨seg, hseg, hids⟩ := h
  obtain ⟨seg', hseg', hids'⟩ := h'
  exact ⟨seg ++ seg', by rw [hseg', hseg, List.append_assoc],
    fun ids => (hids ids).append (hids' ids)⟩

theorem Obtains.asksFairly {w₂ : PullWorld} (h : Obtains w w₁) (h' : AsksFairly w₁ w₂) :
    AsksFairly w w₂ := by
  obtain ⟨seg, hseg, hids⟩ := h
  obtain ⟨seg', hseg', hids'⟩ := h'
  exact ⟨seg ++ seg', by rw [hseg', hseg, List.append_assoc], (hids _).append hids'⟩

theorem AsksFairly.then {w₂ : PullWorld} (h : AsksFairly w w₁) (hown : w₂.own = w₁.own)
    (h' : Appends (fun e => ¬ e.IsChunkMark) w₁ w₂) : AsksFairly w w₂ := by
  obtain ⟨seg, hseg, hids⟩ := h
  obtain ⟨seg', hseg', hunmarked⟩ := h'
  have hknown : knownIds w₂ = knownIds w₁ := by
    unfold knownIds
    rw [hown]
  exact ⟨seg ++ seg', by rw [hseg', hseg, List.append_assoc],
    hknown ▸ hids.append (chunksAskedOf_of_unmarked hunmarked)⟩

theorem Obtains.of_appends (h : Appends (fun e => ¬ e.IsChunkMark) w w') : Obtains w w' := by
  obtain ⟨seg, hseg, hunmarked⟩ := h
  exact ⟨seg, hseg, fun ids => chunksAskedOf_of_unmarked hunmarked⟩

theorem AsksFairly.chunks (h : AsksFairly w w') :
    ChunksAskedOf (knownIds w') (w'.trace.drop w.tick) := by
  obtain ⟨seg, hseg, hasked⟩ := h
  rw [hseg, World.tick, List.drop_left]
  exact hasked

theorem Obtains.refl (w : PullWorld) : Obtains w w := .of_appends (Std.Refl.refl w)

theorem wp_stageChunk_asks (hsound : PartsSound seams c)
    (hid : ∃ id, moduleContentId c = some id) (checkpointed : Finset Nat)
    (acc : Staging) (hn : n < layout.chunkCount) (w : PullWorld) :
    wp (stageChunk seams c info layout checkpointed acc n) (fun _ w' => Obtains w w')
      (fun _ w' => AsksFairly w w') w := by
  unfold stageChunk
  dsimp only
  rw [wp_bind, wp_orTerminal]
  refine (wp_resumedChunk checkpointed n _ _ w).mono ?_ (fun _ _ h => h.elim)
  rintro r w₁ ⟨hw₁, -⟩
  have hread : Obtains w w₁ := by
    rcases hw₁ with rfl | ⟨a, rfl⟩
    · exact Obtains.refl _
    · exact Obtains.of_appends ⟨[_], rfl, by simp [Effect.IsChunkMark]⟩
  cases r with
  | some bytes => exact hread
  | none =>
    dsimp only
    rw [wp_bind, wp_handle]
    refine ((wp_fetchVerifiedChunk layout n w₁).and
      (wp_fetchVerifiedChunk_asks hsound hid n w₁)).mono ?_ ?_
    · rintro bytes w₂ ⟨⟨hattr, -⟩, seg, hseg, hmarks⟩
      have hfits : (layout.chunkSpan n).1 + bytes.length ≤ u64Max := by
        rw [hattr.1]
        exact layout.chunkSpan_fits hn
      rw [wp_pure, wp_bind, wp_orTerminal]
      refine wp_sinkWriteAt_sound hsound.host hfits ?_
      rw [wp_bind, wp_orTerminal]
      refine wp_storeSave_sound hsound.host ?_
      refine hread.trans ⟨.ask (.fetchChunk n) :: (seg ++
        [.writeAt (layout.chunkSpan n).1 bytes true, .save (acc.state.markDone n) true]),
        by simp [hseg], fun ids => chunksAskedOf_cons ?_ 
          (Or.inl ⟨(layout.chunkSpan n).1, bytes, by simp⟩)⟩
      intro e he
      rcases List.mem_append.mp he with he | he
      · exact hmarks e he
      · simp only [List.mem_cons, List.not_mem_nil, or_false] at he
        rcases he with rfl | rfl <;> exact fun h => h
    · rintro e w₂ ⟨-, seg, hseg, hasked⟩
      have hfair : AsksFairly w w₂ := hread.asksFairly ⟨_, hseg, hasked⟩
      dsimp only
      split <;> exact hfair

theorem steps_gateAndPromote_unmarked (hashed : Bytes) :
    Steps (Appends fun e => ¬ e.IsChunkMark) (gateAndPromote seams c info layout hashed) := by
  refine steps_gateAndPromote closedUnder_appends (fun e he hmark => ?_) layout hashed
  unfold Effect.IsChunkMark at hmark
  split at hmark
  · exact he
  · exact hmark

theorem wp_stageChunks_asks (hsound : PartsSound seams c)
    (hid : ∃ id, moduleContentId c = some id) (checkpointed : Finset Nat) (state : DownloadState)
    (w : PullWorld) :
    wp ((List.range layout.chunkCount).foldlM (stageChunk seams c info layout checkpointed)
        { state, hashed := [], anyChunkVerified := false })
      (fun _ w' => Obtains w w') (fun _ w' => AsksFairly w w') w :=
  wp_foldlM_range (I := fun _ _ w' => Obtains w w') (Obtains.refl w) _ fun _ hn acc w₁ hacc =>
    (wp_stageChunk_asks hsound hid _ acc hn w₁).mono (fun _ _ h => hacc.trans h)
      (fun _ _ h => hacc.asksFairly h)

/-- How a pull under one descriptor fails when the node's parts are sound: it speaks of
the descriptor, and the chunk that it could not obtain was asked of every known holder. -/
structure PullFails (w : PullWorld) (f : PullFailure) (w' : PullWorld) : Prop where
  not_terminal : ∀ e, f ≠ .terminal e
  supportsReadBack : w'.sink.supportsReadBack = true
  asks : AsksFairly w w'

theorem wp_pullWithDescriptor_parts (hsound : PartsSound seams c)
    (hid : ∃ id, moduleContentId c = some id) (hsup : w.sink.supportsReadBack = true) :
    wp (pullWithDescriptor seams c info) (fun _ _ => True) (PullFails w) w := by
  have hunmarked : ∀ e : Effect ModuleAsk, e.IsEntering → ¬ e.IsChunkMark := by
    intro e he hmark
    unfold Effect.IsChunkMark at hmark
    split at hmark
    · exact he
    · exact hmark
  refine wp_pullWithDescriptor_stages (fun f w₁ hentry => ?_) (fun layout state w₁ henters => ?_)
  · obtain ⟨hplan, -⟩ := hentry.plan_of_sound hsound.host
    obtain ⟨seg, hseg, hids⟩ := Obtains.of_appends (hentry.quiet.appends.mono hunmarked)
    refine ⟨?_, hentry.keeps.supportsReadBack.trans hsup, seg, hseg, hids _⟩
    rintro e rfl
    rcases ChunkPlan.fromInfo_error hplan with ⟨hf, -⟩ | ⟨⟨e', he'⟩, -⟩
    · cases hf
    · cases he'
  · have hobtains : Obtains w w₁ := .of_appends (henters.appends.mono hunmarked)
    have hsup₁ := henters.keeps.supportsReadBack.trans hsup
    rw [pullWithDescriptor.stageAndPromote, wp_bind]
    refine (((wp_stageChunks state.doneRanges state.takeDone w₁).and
      (wp_stageChunks_sound hsound hid state.doneRanges state.takeDone w₁)).and
      (wp_stageChunks_asks hsound hid state.doneRanges state.takeDone w₁)).mono ?_ ?_
    · rintro acc w₃ ⟨⟨⟨hstaged, hstages⟩, -⟩, hobtains₃⟩
      have hsup₃ := hstages.supportsReadBack.trans hsup₁
      refine ((wp_gateAndPromote_sound hsound hstaged hsup₃).and
        ((steps_gateAndPromote_unmarked acc.hashed).wp w₃)).mono (fun _ _ _ => trivial) ?_
      rintro f w₄ ⟨⟨hf, hsup₄⟩, seg, hseg, hunmarked⟩
      refine ⟨?_, hsup₄, (hobtains.trans hobtains₃).asksFairly
        ⟨seg, hseg, chunksAskedOf_of_unmarked hunmarked⟩⟩
      rintro e rfl
      cases hf
    · rintro f w₃ ⟨⟨⟨-, hstages⟩, hf, -⟩, hasks⟩
      exact ⟨hf, hstages.supportsReadBack.trans hsup₁, hobtains.asksFairly hasks⟩

/-- The holder was demoted in this call. -/
def Demoted (log : List (Effect ModuleAsk)) (peer : String) : Prop :=
  Effect.ask (.demote peer) ∈ log

/-- How an attempt fails when the node's parts are sound and no answer keeps a round from its
other holders. -/
structure AttemptFails (x : DescriptorExclusions) (w : PullWorld) (failed : FailedAttempt)
    (w' : PullWorld) : Prop where
  supportsReadBack : w'.sink.supportsReadBack = true
  remembered : failed.exclusions.remembered = x.remembered
  demoted : (∀ p ∈ x.demotedHere, Demoted w.trace p) →
    ∀ p ∈ failed.exclusions.demotedHere, Demoted w'.trace p
  nobody : failed.noneLeft = true → ∀ p ∈ knownIds w', p ∈ failed.exclusions.demotedHere
  asked : (∀ e ∈ w'.trace.drop w.tick, ¬ e.IsDescriptor) →
    ∀ p ∈ knownIds w', p ∉ (x.settle w.own).excluded →
      AskedForDescriptor (w'.trace.drop w.tick) p
  unlearnt : (∀ e ∈ w'.trace.drop w.tick, ¬ e.IsDescriptor) → w'.own = w.own
  chunks : ChunksAskedOf (knownIds w') (w'.trace.drop w.tick)

/-- Asking for a descriptor marks no chunk. -/
theorem obtains_of_round (h : Quiet Effect.IsDescriptorAsk w w') : Obtains w w' := by
  refine .of_appends (h.appends.mono fun e hask hmark => ?_)
  unfold Effect.IsChunkMark at hmark
  split at hmark
  · exact hask
  · exact hmark

section Attempt

variable {source : String} {w₂ w₃ : PullWorld}

/-- The pull under the descriptor of `source` has failed, and its source is demoted. -/
theorem wp_demote_parts (e : DownloadError) (hsup : w₂.sink.supportsReadBack = true)
    (hfair : AsksFairly w w₂)
    (hdescriptor : ∃ rest, w₂.trace = w.trace ++ rest ∧ ∃ e ∈ rest, e.IsDescriptor)
    (hown : w₃.own = w₂.own) (hsink : w₃.sink = w₂.sink)
    (happ : Appends (fun e => ¬ e.IsChunkMark) w₂ w₃) :
    wp (do
        markPull (.demote source)
        let w' ← Prog.read
        pure (.inr {
          error := e
          exclusions := (x.settle w.own).demote source
          noneLeft := ((x.settle w.own).demote source).usableHolders w'.own = 0 &&
            !((x.settle w.own).demote source).trustsMemory }) : PullM (Nat ⊕ FailedAttempt))
      (fun r w' => ∀ failed, r = .inr failed → AttemptFails x w failed w')
      (fun _ _ => False) w₃ := by
  obtain ⟨hsettled, hremembered⟩ := x.settle_cases w.own
  rw [wp_bind, wp_markPull, wp_bind, wp_read, wp_pure]
  rintro failed ⟨rfl⟩
  have happends : Appends (fun e => ¬ e.IsChunkMark) w₂ (w₃.note (.ask (.demote source))) :=
    IsTrans.trans _ _ _ happ ⟨[_], rfl, by simp [Effect.IsChunkMark]⟩
  obtain ⟨seg, hseg, -⟩ := happ
  obtain ⟨rest, hrest, e', he', hobtained⟩ := hdescriptor
  have hpast : e' ∈ (w₃.note (.ask (.demote source))).trace.drop w.tick := by
    rw [World.note_trace, hseg, hrest, World.tick]
    simp [he']
  refine ⟨by rw [World.note_sink, hsink, hsup], hremembered, fun hbefore p hp => ?_,
    fun hnone p hp => ?_, fun hno => ?_, fun hno => ?_, AsksFairly.chunks (hfair.then ?_ happends)⟩
  · rcases List.mem_append.mp hp with hp | hp
    · rw [hsettled] at hp
      have := hbefore p hp
      unfold Demoted at this ⊢
      simp [hseg, hrest, this]
    · rw [List.mem_singleton.mp hp]
      exact List.mem_append_right _ List.mem_cons_self
  · simp only [World.note_own, Bool.and_eq_true, Bool.not_eq_true'] at hnone
    have hall := DescriptorExclusions.usableHolders_eq_zero.mp (of_decide_eq_true hnone.1) p hp
    rwa [DescriptorExclusions.excluded_of_forgetful hnone.2] at hall
  · exact absurd hobtained (hno e' hpast)
  · exact absurd hobtained (hno e' hpast)
  · exact hown

/-- A round that obtains nothing has asked everyone it may, and changes nothing else. -/
theorem attemptFails_of_round (e : DownloadError) {seg : List (Effect ModuleAsk)}
    (hsup : w.sink.supportsReadBack = true)
    (hquiet : Quiet Effect.IsDescriptorAsk w w') (hown : w'.own = w.own)
    (hseg : w'.trace = w.trace ++ seg)
    (hasked : ∀ p ∈ w.own, p.providerPeerId ∉ (x.settle w.own).excluded →
      AskedForDescriptor seg p.providerPeerId) :
    AttemptFails x w { error := e, exclusions := x.settle w.own, noneLeft := false } w' := by
  have hdrop : w'.trace.drop w.tick = seg := by rw [hseg, World.tick, List.drop_left]
  refine ⟨by rw [hquiet.sink, hsup], (x.settle_cases w.own).2, fun hbefore p hp => ?_, by simp,
    fun _ p hp hex => ?_, fun _ => hown, ?_⟩
  · dsimp only at hp
    rw [(x.settle_cases w.own).1] at hp
    unfold Demoted
    rw [hseg]
    exact List.mem_append_left _ (hbefore p hp)
  · obtain ⟨q, hq, rfl⟩ := List.mem_map.mp hp
    rw [hown] at hq
    rw [hdrop]
    exact hasked q hq hex
  · obtain ⟨seg', hseg', hids⟩ := obtains_of_round hquiet
    rw [hdrop, List.append_cancel_left (hseg.symm.trans hseg')]
    exact hids _

/-- An attempt, under whatever descriptor and whatever answers. -/
theorem wp_descriptorAttempt_parts (hsound : PartsSound seams c)
    (hid : ∃ id, moduleContentId c = some id) (hsup : w.sink.supportsReadBack = true)
    (hears : HearsAll seams c (fun id => id ∈ knownIds w)) (x : DescriptorExclusions) :
    wp (descriptorAttempt seams c x) (fun r w' => ∀ failed, r = .inr failed →
      AttemptFails x w failed w') (fun _ _ => False) w := by
  unfold descriptorAttempt
  rw [wp_bind, wp_read]
  dsimp only
  have hasks : wp (fetchModuleInfo seams c (x.settle w.own).excluded) (fun _ _ => True)
      (fun _ w' => ∃ seg, w'.trace = w.trace ++ seg ∧
        ∀ p ∈ w.own, p.providerPeerId ∉ (x.settle w.own).excluded →
          AskedForDescriptor seg p.providerPeerId) w :=
    wp_askDescriptors_asks _ w.own [] 0 w hears
  rw [wp_handle]
  refine (((wp_fetchModuleInfo (x.settle w.own).excluded w).and hasks).and
    (((quiet_fetchModuleInfo _).wp w).and ((steps_fetchModuleInfo_own _).wp w))).mono ?_ ?_
  · rintro ⟨source, info⟩ w₁ ⟨⟨⟨-, -, seg, htrace, hseg, -⟩, -⟩, hquiet, -⟩
    dsimp only at htrace ⊢
    have hsup₁ : w₁.sink.supportsReadBack = true := by rw [hquiet.sink, hsup]
    rw [wp_handle]
    refine (wp_pullWithDescriptor_parts hsound hid hsup₁).mono ?_ ?_
    · intro len w₂ _ failed hfailed
      cases hfailed
    rintro f w₂ ⟨hterminal, hsup₂, hpulled⟩
    have hfair : AsksFairly w w₂ := (obtains_of_round hquiet).asksFairly hpulled
    have hdescriptor : ∃ rest, w₂.trace = w.trace ++ rest ∧ ∃ e ∈ rest, e.IsDescriptor := by
      obtain ⟨seg', hseg', -⟩ := hpulled
      refine ⟨seg ++ [.ask (.getModuleInfo source (some (.ok info)))] ++ seg', ?_,
        .ask (.getModuleInfo source (some (.ok info))), by simp, trivial⟩
      rw [hseg', htrace]
      simp
    cases f with
    | terminal e => exact absurd rfl (hterminal e)
    | unsatisfiableDescriptor e =>
      exact wp_demote_parts e hsup₂ hfair hdescriptor rfl rfl (Std.Refl.refl w₂)
    | badDescriptor e =>
      refine (wp_bind _ _).mpr (wp_ignoringFailure.mpr ?_)
      exact wp_storeRecordBadDescriptor
        (fun _ => wp_demote_parts e hsup₂ hfair hdescriptor rfl rfl
          ⟨[_], rfl, by simp [Effect.IsChunkMark]⟩)
        (fun _ => wp_demote_parts e hsup₂ hfair hdescriptor rfl rfl
          ⟨[_], rfl, by simp [Effect.IsChunkMark]⟩)
  · rintro e w₁ ⟨⟨-, seg, hseg, hasked⟩, hquiet, hown⟩ failed hfailed
    cases hfailed
    exact attemptFails_of_round e hsup hquiet hown hseg hasked

end Attempt

/-! ## Runs -/

/-- Every holder that the locator ever names is one of these. -/
def LocatesAmong (seams : ModuleSeams) (peers : Set String) : Prop :=
  ∀ t id located, seams.findProviders t id = .ok located →
    ∀ p ∈ located, p.providerPeerId ∈ peers

/-- The remembered verdicts single nobody out: they name none of the holders, or all of them. -/
def SparesAll (remembered : List String) (peers : Set String) : Prop :=
  (∀ p ∈ peers, p ∉ remembered) ∨ ∀ p ∈ peers, p ∈ remembered

/-- The holders that are known stay among these. -/
def StaysAmong (peers : Set String) (w w' : PullWorld) : Prop :=
  (∀ p ∈ knownIds w, p ∈ peers) → ∀ p ∈ knownIds w', p ∈ peers

section Among

variable {peers : Set String} {remembered : List String} {located : List ProviderRecord}

instance : Std.Refl (StaysAmong peers) := ⟨fun _ => id⟩

instance : IsTrans PullWorld (StaysAmong peers) := ⟨fun _ _ _ h h' hw => h' (h hw)⟩

theorem closedUnderAttempts_staysAmong (h : LocatesAmong seams peers) :
    ClosedUnderAttempts seams (StaysAmong peers) where
  effect _ _ _ _ _ := id
  learn w t id fresh hfresh hw p hp := by
    obtain ⟨record, hrecord, rfl⟩ := List.mem_map.mp hp
    obtain ⟨new, hmerge, hlearnt⟩ := mergeNewProviders_learnt w.own fresh
    rw [hmerge, List.mem_append] at hrecord
    obtain hknown | hnew := hrecord
    · exact hw _ (List.mem_map_of_mem hknown)
    · exact h t id fresh hfresh record (hlearnt.located record hnew)

/-- Where the verdicts single nobody out, an attempt passes over those only that were demoted in
this call: it honours verdicts on none of the holders, or drops its memory. -/
theorem mem_demotedHere_of_excluded (hspares : SparesAll x.remembered peers)
    (hknown : ∀ p ∈ holderIds located, p ∈ peers) {p : String} (hp : p ∈ holderIds located)
    (hex : p ∈ (x.settle located).excluded) : p ∈ x.demotedHere := by
  by_cases hall : ∀ q ∈ holderIds located, q ∈ x.excluded
  · rw [DescriptorExclusions.settle_of_none hall,
      DescriptorExclusions.excluded_of_forgetful rfl] at hex
    exact hex
  · push Not at hall
    obtain ⟨q, hq, hfree⟩ := hall
    rw [DescriptorExclusions.settle_of_usable hq hfree] at hex
    cases htrusts : x.trustsMemory with
    | false => rwa [DescriptorExclusions.excluded_of_forgetful htrusts] at hex
    | true =>
      rw [DescriptorExclusions.excluded_of_trusting htrusts] at hex hfree
      refine (List.mem_append.mp hex).resolve_right fun hverdict => ?_
      obtain hnone | hevery := hspares
      · exact hnone p (hknown p hp) hverdict
      · exact hfree (List.mem_append_right _ (hevery q (hknown q hq)))

/-- What every attempt of a run starts with. -/
structure AttemptStarts (peers : Set String) (remembered : List String) (w : PullWorld)
    (x : DescriptorExclusions) : Prop where
  supportsReadBack : w.sink.supportsReadBack = true
  known : ∀ p ∈ knownIds w, p ∈ peers
  remembered : x.remembered = remembered
  demoted : ∀ p ∈ x.demotedHere, Demoted w.trace p

theorem AttemptAt.content (h : AttemptAt seams c w n x w₁) :
    ∃ id, moduleContentId c = some id := by
  induction h with
  | first hid hlocated hne hremembered => exact ⟨_, hid⟩
  | next h hattempt hleft hmore ih => exact ih

theorem AttemptAt.starts {sink : Sink} {store : StateStore} (hsound : PartsSound seams c)
    (hsup : sink.supportsReadBack = true) (hears : HearsAll seams c peers)
    (hamong : LocatesAmong seams peers)
    (h : AttemptAt seams c (PullWorld.fresh sink store) n x w₁) :
    AttemptStarts peers (rememberedAtStart seams c store) w₁ x := by
  induction h with
  | @first id located remembered w₁ hid hlocated hne hremembered =>
    have hread : wp (rememberedVerdicts seams (moduleDownloadKey c))
        (fun r w' => r = rememberedAtStart seams c store ∧ w'.sink = sink ∧ w'.own = located)
        (fun _ _ => False)
        { (PullWorld.fresh sink store).note (.ask (.findProviders (.ok located))) with
          own := located } := wp_rememberedVerdicts fun e => ⟨rfl, rfl, rfl⟩
    obtain ⟨hverdicts, hsink, hown⟩ := hread.ok (congrArg Prod.fst hremembered)
    rw [hremembered] at hsink hown
    refine ⟨hsink ▸ hsup, fun p hp => ?_, hverdicts,
      fun p hp => absurd hp (by simp [DescriptorExclusions.new])⟩
    rw [knownIds, hown] at hp
    obtain ⟨record, hrecord, rfl⟩ := List.mem_map.mp hp
    exact hamong _ _ _ hlocated record hrecord
  | @next n x w₁ w₂ failed h hattempt hleft hmore ih =>
    have hfails := (wp_descriptorAttempt_parts hsound h.content ih.supportsReadBack
      (hears.mono ih.known) x).ok (congrArg Prod.fst hattempt) _ rfl
    have hstays : ∀ p ∈ knownIds (descriptorAttempt seams c x w₁).2, p ∈ peers :=
      steps_descriptorAttempt (closedUnderAttempts_staysAmong hamong) x w₁ ih.known
    rw [hattempt] at hfails hstays
    exact ⟨hfails.supportsReadBack, hstays, hfails.remembered.trans ih.remembered,
      hfails.demoted ih.demoted⟩

end Among

/-- What a pull that fails in attempt `n`, begun in `w₁`, owes the holders. `exhausted`: the
attempts are spent, or every known holder not demoted in this call was asked in the last
round. `answered`: if that round obtained no descriptor, every holder not demoted in this call
was asked in it. `chunks`: a chunk that was not obtained was asked of every known holder. -/
structure EndsFairly (n : Nat) (w₁ w' : PullWorld) : Prop where
  exhausted : n + 1 = maxDescriptorAttempts ∨ ∀ p ∈ knownIds w', ¬ Demoted w'.trace p →
    AskedForDescriptor (w'.trace.drop w₁.tick) p
  answered : (∀ e ∈ w'.trace.drop w₁.tick, ¬ e.IsDescriptor) →
    ∀ p ∈ knownIds w', ¬ Demoted w'.trace p → AskedForDescriptor (w'.trace.drop w₁.tick) p
  chunks : ChunksAskedOf (knownIds w') (w'.trace.drop w₁.tick)

theorem LastAttempt.endsFairly {sink : Sink} {store : StateStore} {peers : Set String}
    (hsound : PartsSound seams c) (hsup : sink.supportsReadBack = true)
    (hears : HearsAll seams c peers) (hamong : LocatesAmong seams peers)
    (hspares : SparesAll (rememberedAtStart seams c store) peers)
    (h : LastAttempt seams c (PullWorld.fresh sink store) n x w₁ e w') : EndsFairly n w₁ w' := by
  have hstarts := h.attempt.starts hsound hsup hears hamong
  have hwp := wp_descriptorAttempt_parts hsound h.attempt.content hstarts.supportsReadBack
    (hears.mono hstarts.known) x
  rcases h.ends with hfail | ⟨failed, hattempt, -, hlast⟩
  · exact (hwp.error (congrArg Prod.fst hfail)).elim
  · have hfails := hwp.ok (congrArg Prod.fst hattempt) failed rfl
    rw [hattempt] at hfails
    refine ⟨?_, fun hno p hp hnot => hfails.asked hno p hp fun hex => hnot ?_, hfails.chunks⟩
    · rcases hlast with hnone | hspent
      · refine Or.inr fun p hp hnot => absurd ?_ hnot
        exact hfails.demoted hstarts.demoted p (hfails.nobody hnone p hp)
      · exact Or.inl hspent
    · rw [knownIds, hfails.unlearnt hno] at hp
      have hhere : p ∈ x.demotedHere :=
        mem_demotedHere_of_excluded (hstarts.remembered ▸ hspares) hstarts.known hp hex
      have hextends : Extends w₁ (descriptorAttempt seams c x w₁).2 :=
        steps_descriptorAttempt closedUnderRun_extends.attempts x w₁
      rw [hattempt] at hextends
      exact hextends.subset _ (hstarts.demoted p hhere)

end Attempts

/-- The pull, if it fails, ends in an attempt, and every attempt it can end in has been
fair to the holders. -/
def NoSingleAnswerEnds (seams : ModuleSeams) (c : Capsule) (w : PullWorld) : Prop :=
  ∀ e w', download seams c w = (.error e, w') →
    (NoHolder seams c w ∨ ∃ n x w₁, LastAttempt seams c w n x w₁ e w') ∧
      ∀ n x w₁, LastAttempt seams c w n x w₁ e w' → EndsFairly n w₁ w'

/-! ## A pull in vain -/

/-- Two holders, in the order in which they are asked. -/
def locatedPair (first second : String) : List ProviderRecord :=
  [{ providerPeerId := first, addresses := [] }, { providerPeerId := second, addresses := [] }]

/-- An honest holder, and before it one that always gives the same answer to an ask for a
descriptor. -/
def pairSeams (first second : String) (answer : Answer ModuleInfo) : ModuleSeams :=
  { silentSeams with
    findProviders := fun _ _ => .ok (locatedPair first second)
    getModuleInfo := fun _ peer _ => if peer = first then answer else some (.ok (smallInfo [3])) }

/-- A store with a standing verdict on each of some holders. -/
def storeRememberingAll (remembered : List String) : StateStore :=
  { emptyStore with verdicts := fun _ => remembered.map fun p => ⟨p, 0⟩ }

section Vain

variable {first second : String} {answer : Answer ModuleInfo} {e : DownloadError} {w : PullWorld}
  {x : DescriptorExclusions} {remembered excluded : List String}

theorem pairSeams_parts (first second : String) (answer : Answer ModuleInfo) :
    PartsSound (pairSeams first second answer) smallCapsule where
  locator _ _ := ⟨locatedPair first second, rfl⟩
  host := Host.healthy_sound
  anchor t reader hreadable reason := by
    obtain ⟨bytes, hbytes⟩ := hreadable 0 reader.len (by simp)
    show smallVerifier reader ≠ _
    rw [smallVerifier, hbytes]
    dsimp only
    split <;> simp

theorem pairSeams_among {peers : Set String} (hfirst : first ∈ peers) (hsecond : second ∈ peers) :
    LocatesAmong (pairSeams first second answer) peers := by
  intro t id located hlocated p hp
  cases hlocated
  simp only [locatedPair, List.mem_cons, List.not_mem_nil, or_false] at hp
  obtain rfl | rfl := hp
  · exact hfirst
  · exact hsecond

/-- What the first holder's answer leaves behind. -/
def answered (first : String) (answer : Answer ModuleInfo) : Effect ModuleAsk :=
  .ask (.getModuleInfo first answer)

/-- A round fails with `e` after the first holder alone was asked. -/
def InVain (first second : String) (answer : Answer ModuleInfo) (excluded : List String)
    (e : DownloadError) : Prop :=
  ∀ w, wp (askDescriptors (pairSeams first second answer) smallCapsule excluded
      (locatedPair first second) [] 0) (fun _ _ => False)
    (fun e' w' => e' = e ∧ w' = w.note (answered first answer)) w

/-- A refusal that is not recoverable ends the round. -/
theorem inVain_of_refusal (he : e.isRecoverable = false) (hfirst : first ∉ excluded) :
    InVain first second (some (.error e)) excluded e := by
  intro w
  have hanswer : (pairSeams first second (some (.error e))).getModuleInfo w.tick first smallCapsule
      = some (.error e) := if_pos rfl
  unfold locatedPair askDescriptors
  dsimp only
  rw [if_neg hfirst, wp_bind, wp_askSeam, hanswer]
  dsimp only
  rw [if_neg (by simp [he])]
  exact ⟨rfl, rfl⟩

/-- A holder that a verdict names is passed over, after the other one stays silent. -/
theorem inVain_of_silence (hfirst : first ∉ excluded) (hsecond : second ∈ excluded) :
    ∃ e, InVain first second none excluded e := by
  apply Exists.intro
  intro w
  have hanswer : (pairSeams first second none).getModuleInfo w.tick first smallCapsule = none :=
    if_pos rfl
  unfold locatedPair askDescriptors
  dsimp only
  rw [if_neg hfirst, wp_bind, wp_askSeam, hanswer]
  dsimp only
  unfold askDescriptors
  dsimp only
  rw [if_pos hsecond]
  exact ⟨rfl, rfl⟩

theorem descriptorAttempt_inVain (hvain : InVain first second answer
      (x.settle (locatedPair first second)).excluded e)
    (hown : w.own = locatedPair first second) :
    descriptorAttempt (pairSeams first second answer) smallCapsule x w
      = (.ok (.inr ⟨e, x.settle (locatedPair first second), false⟩),
          w.note (answered first answer)) := by
  have hwp : wp (descriptorAttempt (pairSeams first second answer) smallCapsule x)
      (fun r w' => r = .inr ⟨e, x.settle (locatedPair first second), false⟩ ∧
        w' = w.note (answered first answer)) (fun _ _ => False) w := by
    unfold descriptorAttempt
    rw [wp_bind, wp_read]
    dsimp only
    rw [hown, wp_handle]
    unfold fetchModuleInfo
    rw [wp_bind, wp_read, hown]
    refine (hvain w).mono (fun _ _ h => h.elim) ?_
    rintro e' w' ⟨rfl, rfl⟩
    exact ⟨rfl, rfl⟩
  obtain ⟨r, hr, rfl, hw⟩ := hwp.exists_ok
  exact Prod.ext hr hw

/-- The state in which the attempts of the pull begin. -/
def vainStart (first second : String) (remembered : List String) : PullWorld :=
  { (PullWorld.fresh emptySink (storeRememberingAll remembered)).note
      (.ask (.findProviders (.ok (locatedPair first second)))) with
    own := locatedPair first second }.note (.badDescriptorPeers (moduleDownloadKey smallCapsule) true)

/-- The state in which its last attempt begins. -/
def vainAgain (first second : String) (answer : Answer ModuleInfo) (remembered : List String) :
    PullWorld :=
  ((vainStart first second remembered).note (answered first answer)).note (answered first answer)

theorem rememberedAtStart_pair (c : Capsule) :
    rememberedAtStart (pairSeams first second answer) c (storeRememberingAll remembered)
      = remembered := by
  show livePeers (remembered.map fun p => ⟨p, 0⟩) 0 = remembered
  rw [livePeers, List.filter_map, List.map_map]
  simp [Function.comp_def, isExpired]

/-- The pull ends with its third attempt, and each of them asked the first holder alone. -/
theorem download_inVain (hvain : InVain first second answer
    ((DescriptorExclusions.new remembered).settle (locatedPair first second)).excluded e) :
    download (pairSeams first second answer) smallCapsule
        (PullWorld.fresh emptySink (storeRememberingAll remembered))
        = (.error e, (vainAgain first second answer remembered).note (answered first answer)) ∧
      ∃ x, LastAttempt (pairSeams first second answer) smallCapsule
        (PullWorld.fresh emptySink (storeRememberingAll remembered)) 2 x
        (vainAgain first second answer remembered) e
        ((vainAgain first second answer remembered).note (answered first answer)) := by
  obtain ⟨id, hid⟩ : ∃ id, moduleContentId smallCapsule = some id :=
    Option.isSome_iff_exists.mp (by decide +kernel)
  have hread : rememberedVerdicts (pairSeams first second answer) (moduleDownloadKey smallCapsule)
      { (PullWorld.fresh emptySink (storeRememberingAll remembered)).note
          (.ask (.findProviders (.ok (locatedPair first second)))) with
        own := locatedPair first second } = (.ok remembered, vainStart first second remembered) :=
    Prod.ext (congrArg Except.ok (rememberedAtStart_pair smallCapsule)) rfl
  have hstart : AttemptAt (pairSeams first second answer) smallCapsule
      (PullWorld.fresh emptySink (storeRememberingAll remembered)) 0 (.new remembered)
      (vainStart first second remembered) :=
    AttemptAt.first hid rfl (List.cons_ne_nil _ _) hread
  have hagain : InVain first second answer (((DescriptorExclusions.new remembered).settle
      (locatedPair first second)).settle (locatedPair first second)).excluded e := by
    rwa [DescriptorExclusions.settle_settle]
  have hone := descriptorAttempt_inVain hvain
    (show (vainStart first second remembered).own = locatedPair first second from rfl)
  have htwo := descriptorAttempt_inVain hagain (show ((vainStart first second remembered).note
    (answered first answer)).own = locatedPair first second from rfl)
  have hthree := descriptorAttempt_inVain hagain
    (show (vainAgain first second answer remembered).own = locatedPair first second from rfl)
  rw [DescriptorExclusions.settle_settle] at htwo hthree
  constructor
  · have hwp : wp (download (pairSeams first second answer) smallCapsule) (fun _ _ => False)
        (fun e' w' => e' = e ∧
          w' = (vainAgain first second answer remembered).note (answered first answer))
        (PullWorld.fresh emptySink (storeRememberingAll remembered)) := by
      unfold download
      rw [hid]
      dsimp only
      rw [wp_bind, show wp (Prog.bind _ _) _ _ _ ↔ _ from wp_bind _ _, wp_askSeam,
        show (pairSeams first second answer).findProviders _ id = .ok (locatedPair first second)
          from rfl, wp_ofExcept_ok,
        if_neg (show locatedPair first second ≠ [] from List.cons_ne_nil _ _), wp_bind, wp_update,
        wp_bind, wp_of_run_ok hread]
      show wp (attemptLoop _ _ 2 (.new remembered)) _ _ _
      unfold attemptLoop
      rw [wp_bind, wp_of_run_ok hone]
      dsimp only
      unfold attemptLoop
      rw [if_neg Bool.false_ne_true, wp_bind, wp_of_run_ok htwo]
      dsimp only
      unfold attemptLoop
      rw [if_neg Bool.false_ne_true, wp_bind]
      exact (wp_of_run_ok hthree).mpr ⟨rfl, rfl⟩
    obtain ⟨e', hfail, rfl, hw⟩ := hwp.exists_error
    exact Prod.ext hfail hw
  · exact ⟨_, (hstart.next hone (by decide) rfl).next htwo (by decide) rfl,
      Or.inr ⟨_, hthree, rfl, Or.inr rfl⟩⟩

/-- The honest holder behind it was not asked. -/
theorem inVain_not_endsFairly (hne : second ≠ first) (hanswer : ∀ info, answer ≠ some (.ok info)) :
    ¬ EndsFairly 2 (vainAgain first second answer remembered)
      ((vainAgain first second answer remembered).note (answered first answer)) := by
  intro h
  have hdrop : ((vainAgain first second answer remembered).note (answered first answer)).trace.drop
      (vainAgain first second answer remembered).tick = [answered first answer] := by
    rw [World.note_trace, World.tick, List.drop_left]
  have hasked := h.answered ?_ second ?_ ?_
  · obtain ⟨answer', hmem⟩ := hasked
    rw [hdrop, List.mem_singleton, answered, Effect.ask.injEq, ModuleAsk.getModuleInfo.injEq]
      at hmem
    exact hne hmem.1
  · rw [hdrop]
    intro e he hdescriptor
    rw [List.mem_singleton.mp he, answered] at hdescriptor
    unfold Effect.IsDescriptor at hdescriptor
    split at hdescriptor
    · rename_i heq
      cases heq
      exact hanswer _ rfl
    · exact hdescriptor
  · exact List.mem_cons_of_mem _ List.mem_cons_self
  · simp [Demoted, vainAgain, vainStart, answered, PullWorld.fresh]

end Vain

/-- A pull ends only when it has been fair to every holder, whatever the holders answer, exactly
where no answer keeps a round from the other holders and no verdict is honoured on some of them:
the holders that are located are one and the same, or every error that they answer an ask for a
descriptor with is recoverable; and the verdicts that the store remembers name none of them, or
all. Any other error, and any other verdicts, end some pull before an honest holder is asked. -/
theorem noSingleAnswerEnds_iff (errors : DownloadError → Prop) (peers : Set String)
    (remembered : List String) :
    (∀ (seams : ModuleSeams) (c : Capsule) (sink : Sink) (store : StateStore),
      PartsSound seams c → sink.supportsReadBack = true → LocatesAmong seams peers →
      rememberedAtStart seams c store = remembered →
      (∀ t p e, seams.getModuleInfo t p c = some (.error e) → errors e) →
      NoSingleAnswerEnds seams c (PullWorld.fresh sink store)) ↔
    (peers.Subsingleton ∨ ∀ e, errors e → e.isRecoverable = true) ∧ SparesAll remembered peers := by
  constructor
  · intro h
    -- no pull of two of these holders is in vain
    have hfair : ∀ {first second answer e}, first ∈ peers → second ∈ peers → second ≠ first →
        (∀ info, answer ≠ some (.ok info)) → (∀ e, answer = some (.error e) → errors e) →
        ¬ InVain first second answer ((DescriptorExclusions.new remembered).settle
          (locatedPair first second)).excluded e := by
      intro first second answer e hfirst hsecond hne hanswer herrors hvain
      obtain ⟨hrun, x, hlast⟩ := download_inVain hvain
      refine inVain_not_endsFairly hne hanswer ((h _ _ emptySink (storeRememberingAll remembered)
        (pairSeams_parts first second answer) rfl (pairSeams_among hfirst hsecond)
        (rememberedAtStart_pair _) ?_ e _ hrun).2 2 x _ hlast)
      intro t p e' hanswers
      simp only [pairSeams] at hanswers
      split at hanswers
      · exact herrors e' hanswers
      · cases hanswers
    have hspares : SparesAll remembered peers := by
      by_contra hsome
      rw [SparesAll, not_or] at hsome
      push Not at hsome
      obtain ⟨⟨second, hsecond, hverdict⟩, first, hfirst, hfree⟩ := hsome
      have hnew : (DescriptorExclusions.new remembered).excluded = remembered := by
        simp [DescriptorExclusions.excluded, DescriptorExclusions.new, List.ne_nil_of_mem hverdict]
      have hsettled : (DescriptorExclusions.new remembered).settle (locatedPair first second)
          = .new remembered :=
        DescriptorExclusions.settle_of_usable List.mem_cons_self (by rwa [hnew])
      obtain ⟨e, hvain⟩ := inVain_of_silence hfree hverdict
      rw [← hnew, ← hsettled] at hvain
      exact hfair hfirst hsecond (fun heq => hfree (heq ▸ hverdict))
        (fun _ => (Option.some_ne_none _).symm)
        (fun _ heq => by cases heq) hvain
    refine ⟨?_, hspares⟩
    by_contra hsome
    rw [not_or, Set.not_subsingleton_iff] at hsome
    obtain ⟨⟨first, hfirst, second, hsecond, hne⟩, hfinal⟩ := hsome
    push Not at hfinal
    obtain ⟨e, he, hrec⟩ := hfinal
    have herrors : ∀ e', some (Except.error e) = (some (.error e') : Answer ModuleInfo) →
        errors e' := by
      rintro e' ⟨rfl⟩
      exact he
    refine hfair hfirst hsecond (Ne.symm hne) (fun info heq => by cases heq) herrors
      (inVain_of_refusal (Bool.eq_false_iff.mpr hrec) fun hex => ?_)
    have hhere := mem_demotedHere_of_excluded hspares (fun p hp => ?_) List.mem_cons_self hex
    · exact absurd hhere (by simp [DescriptorExclusions.new])
    · simp only [holderIds, locatedPair, List.map_cons, List.map_nil, List.mem_cons,
        List.not_mem_nil, or_false] at hp
      obtain rfl | rfl := hp
      · exact hfirst
      · exact hsecond
  · rintro ⟨hhears, hspares⟩ seams c sink store hsound hsup hamong hremembered hanswers e w' hrun
    have hears : HearsAll seams c peers :=
      hhears.imp id fun hrec t p e' h' => hrec e' (hanswers t p e' h')
    exact ⟨lastAttempt_of_error hsound.locator hrun, fun n x w₁ hlast =>
      hlast.endsFairly hsound hsup hears hamong (hremembered ▸ hspares)⟩

/-- A holder that answers `NotFound` ends the pull. The honest holder behind it was located
and neither demoted nor remembered, and was not asked once. -/
theorem refusing_holder_denies :
    PartsSound (pairSeams holderB holderA (some (.error (.notFound "module")))) smallCapsule ∧
    ∃ w', download (pairSeams holderB holderA (some (.error (.notFound "module")))) smallCapsule
        (PullWorld.fresh emptySink (storeRememberingAll [])) = (.error (.notFound "module"), w') ∧
      holderA ∈ knownIds w' ∧ ¬ Demoted w'.trace holderA ∧
      ¬ AskedForDescriptor w'.trace holderA := by
  have hvain : InVain holderB holderA (some (.error (.notFound "module")))
      ((DescriptorExclusions.new []).settle (locatedPair holderB holderA)).excluded
      (.notFound "module") := inVain_of_refusal rfl (by decide +kernel)
  refine ⟨pairSeams_parts _ _ _, _, (download_inVain hvain).1, by decide +kernel, ?_, ?_⟩
  · simp [Demoted, vainAgain, vainStart, answered, PullWorld.fresh]
  · simp [AskedForDescriptor, vainAgain, vainStart, answered, PullWorld.fresh, holderA, holderB]

end DigDownload
