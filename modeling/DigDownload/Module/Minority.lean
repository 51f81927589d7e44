import Mathlib.Data.Finset.Card
import DigDownload.Module.Truth

/-!
# A minority of bad holders cannot deny a module

One holder that always answers with a true descriptor within the limits, and serves
every piece of the module, is enough: its own pull cannot fail, every other pull
that fails demotes one more holder, and the attempt budget is larger than the number
of holders that can fail. The locator, the sink, the store and the anchor verifier
are assumed not to fail.
-/

namespace DigDownload

open Slices Tiling Prog

/-! ## The assumptions -/

/-- Every window of the view can be read. -/
def ModuleReader.Readable (reader : ModuleReader) : Prop :=
  ∀ off len, off + len ≤ reader.len → ∃ bytes, reader.readAt off len = .ok bytes

/-- The node's own parts do not fail: the locator answers, the host is sound, the plan of
an acceptable descriptor can be allocated, and the verifier reaches an answer on a view
it can read. -/
structure NodeSound (seams : ModuleSeams) (c : Capsule) : Prop where
  content : ∃ id, moduleContentId c = some id
  locator : ∀ t id, ∃ providers, seams.findProviders t id = .ok providers
  host : seams.host.Sound
  allocates : ∀ t count, count ≤ maxModuleChunkCount → seams.reserve t count = none
  anchor : ∀ t reader, ModuleReader.Readable reader →
    ∀ reason, seams.verifyModuleAnchor t reader c ≠ .unavailable reason

/-- The same without the allocator and without a capsule that names something. -/
structure PartsSound (seams : ModuleSeams) (c : Capsule) : Prop where
  locator : ∀ t id, ∃ providers, seams.findProviders t id = .ok providers
  host : seams.host.Sound
  anchor : ∀ t reader, ModuleReader.Readable reader →
    ∀ reason, seams.verifyModuleAnchor t reader c ≠ .unavailable reason

theorem NodeSound.parts {seams : ModuleSeams} {c : Capsule} (h : NodeSound seams c) :
    PartsSound seams c := ⟨h.locator, h.host, h.anchor⟩

/-- `peer` always supplies a true descriptor of `module` within the limits, and serves
every window of it, possibly with more bytes behind. -/
structure HonestHolder (seams : ModuleSeams) (c : Capsule) (module : Bytes) (peer : String) :
    Prop where
  describes : ∀ t, ∃ info, seams.getModuleInfo t peer c = some (.ok info) ∧
    Describes seams.sha256 info module ∧ WithinLimits seams.config info
  serves : ∀ t off len, off + len ≤ module.length →
    ∃ answer, seams.fetchModuleRange t peer c off len = some (.ok answer) ∧
      answer.take len = slice module off len

/-! ## Holders stay known -/

/-- The holders known in a state, by id. -/
def knownIds (w : PullWorld) : List String := w.own.map (·.providerPeerId)

/-- No known holder is forgotten. -/
def Remembers (w w' : PullWorld) : Prop := ∀ id ∈ knownIds w, id ∈ knownIds w'

instance : Std.Refl Remembers := ⟨fun _ _ h => h⟩

instance : IsTrans PullWorld Remembers := ⟨fun _ _ _ h h' id hid => h' id (h id hid)⟩

theorem mergeNewProviders_subset (known fresh : List ProviderRecord) :
    ∀ p ∈ known, p ∈ mergeNewProviders known fresh := by
  induction fresh generalizing known with
  | nil => exact fun p hp => hp
  | cons f fresh ih =>
    intro p hp
    unfold mergeNewProviders
    split
    · exact ih known p hp
    · exact ih (known ++ [f]) p (List.mem_append_left _ hp)

/-- A pull forgets no holder. -/
theorem closedUnderPull_remembers {seams : ModuleSeams} : ClosedUnderPull seams Remembers where
  effect _ _ _ _ _ _ hid := hid
  learn w _ _ fresh _ id hid := by
    obtain ⟨p, hp, rfl⟩ := List.mem_map.mp hid
    exact List.mem_map.mpr ⟨p, mergeNewProviders_subset _ _ p hp, rfl⟩

/-- The rotation of a chunk starts at its index and goes once around. -/
theorem mem_rotation {providers : List ProviderRecord} (index : Nat) {p : ProviderRecord}
    (hp : p ∈ providers) : p.providerPeerId ∈ rotation providers index := by
  obtain ⟨i, hi, rfl⟩ := List.mem_iff_getElem.mp hp
  have hpos : 0 < providers.length := Nat.zero_lt_of_lt hi
  have hmod : index % providers.length < providers.length := Nat.mod_lt _ hpos
  unfold rotation
  refine List.mem_map.mpr
    ⟨(i + (providers.length - index % providers.length)) % providers.length,
      List.mem_range.mpr (Nat.mod_lt _ hpos), ?_⟩
  have hstep : (index + (i + (providers.length - index % providers.length)) % providers.length)
      % providers.length = i := by
    have hdiv := Nat.div_add_mod index providers.length
    have hsum : index + (i + (providers.length - index % providers.length))
        = i + providers.length * (index / providers.length + 1) := by
      rw [Nat.mul_add]
      omega
    rw [Nat.add_mod_mod, hsum, Nat.add_mul_mod_self_left, Nat.mod_eq_of_lt hi]
  rw [hstep, List.getElem?_eq_getElem hi]

section Minority

variable {seams : ModuleSeams} {c : Capsule} {info : ModuleInfo} {layout : ChunkPlan}
  {module : Bytes} {peer : String} {w w' : PullWorld} {n : Nat}

/-! ## Fetching from the honest holder -/

/-- `peer` serves every chunk that the descriptor describes. -/
def ServesChunks (seams : ModuleSeams) (c : Capsule) (info : ModuleInfo) (layout : ChunkPlan)
    (peer : String) : Prop :=
  ∀ i < layout.chunkCount, ∀ t, ∃ answer,
    seams.fetchModuleRange t peer c (layout.chunkSpan i).1 (layout.chunkSpan i).2
      = some (.ok answer) ∧
    Attributed seams (layout.chunkSpan i).2 (info.chunkHashes.getD i "")
      (answer.take (layout.chunkSpan i).2)

/-- A holder that serves a module serves the chunks of its true descriptor. -/
theorem HonestHolder.servesChunks (h : HonestHolder seams c module peer)
    (hd : Describes seams.sha256 info module) (hlens : layout.chunkLens = info.chunkLens) :
    ServesChunks seams c info layout peer := by
  intro i hi t
  have hle : (layout.chunkSpan i).1 + (layout.chunkSpan i).2 ≤ module.length := by
    rw [← hd.lens_sum, ← hlens, layout.lens_sum]
    exact layout.chunkSpan_le hi
  obtain ⟨answer, hanswer, htake⟩ := h.serves t _ _ hle
  refine ⟨answer, hanswer, by rw [htake, length_slice_of_le hle], ?_⟩
  have hi' : i < info.chunkLens.length := by
    rw [← hlens]
    exact hi
  have hchunk := hd.chunks i hi'
  have hget : layout.chunkLens.getD i 0 = (layout.chunkSpan i).2 := rfl
  rw [← hlens, hget] at hchunk
  rw [htake, ← hchunk, layout.chunkSpan_of_lt hi]

/-- A round over holders one of which serves the chunk ends with the chunk. -/
theorem wp_tryHolders_of_mem {offset len : Nat} {expected : String}
    (hserves : ∀ t, ∃ answer, seams.fetchModuleRange t peer c offset len = some (.ok answer) ∧
      Attributed seams len expected (answer.take len)) :
    ∀ (peers : List String) (reasons : HolderReasons) (w : PullWorld), peer ∈ peers →
      wp (tryHolders seams c offset len expected peers reasons)
        (fun r _ => ∃ bytes, r = .ok bytes) (fun _ _ => False) w
  | [], _, _, hmem => by cases hmem
  | p :: peers, reasons, w, hmem => by
      unfold tryHolders
      rw [wp_bind]
      by_cases hp : p = peer
      · subst hp
        obtain ⟨answer, hanswer, hlen, hhash⟩ := hserves w.tick
        unfold fetchChunkFrom
        rw [wp_bind, wp_askSeam, hanswer]
        dsimp only
        rw [if_neg (not_not.mpr hlen), if_neg (not_not.mpr hhash)]
        exact ⟨_, rfl⟩
      · refine (wp_fetchChunkFrom p offset len expected w).mono (fun r w' _ => ?_)
          (fun _ _ h => h)
        cases r with
        | ok bytes => exact ⟨bytes, rfl⟩
        | error reason =>
          exact wp_tryHolders_of_mem hserves peers _ w' (List.mem_of_ne_of_mem (Ne.symm hp) hmem)

/-- Fetching a chunk fails only when it is found nowhere, and then no known holder serves
the chunks of the descriptor. -/
theorem wp_fetchVerifiedChunk_sound (hsound : PartsSound seams c)
    (hid : ∃ id, moduleContentId c = some id) (hn : n < layout.chunkCount)
    (w : PullWorld) :
    wp (fetchVerifiedChunk seams c info layout n) (fun _ _ => True)
      (fun e _ => e.isNotFound = true ∧ ∀ peer ∈ knownIds w, ¬ ServesChunks seams c info layout peer)
      w := by
  -- one round over the holders known at some moment
  have hround : ∀ (w : PullWorld) (reasons : HolderReasons),
      wp (tryHolders seams c (layout.chunkSpan n).1 (layout.chunkSpan n).2
          (info.chunkHashes.getD n "") (rotation w.own n) reasons)
        (fun r _ => (∃ bytes, r = .ok bytes) ∨
          ∀ peer ∈ knownIds w, ¬ ServesChunks seams c info layout peer)
        (fun _ _ => False) w := by
    intro w reasons
    by_cases hex : ∃ peer ∈ knownIds w, ServesChunks seams c info layout peer
    · obtain ⟨peer, hmem, hserves⟩ := hex
      obtain ⟨p, hp, rfl⟩ := List.mem_map.mp hmem
      exact (wp_tryHolders_of_mem (hserves n hn) _ reasons w (mem_rotation n hp)).mono
        (fun _ _ h => Or.inl h) (fun _ _ h => h)
    · refine (wp_tryHolders _ _ _ _ _ _).mono (fun _ _ _ => Or.inr ?_) (fun _ _ h => h)
      exact fun peer hmem hserves => hex ⟨peer, hmem, hserves⟩
  obtain ⟨id, hid⟩ := hid
  unfold fetchVerifiedChunk
  rw [wp_bind, wp_markPull, wp_bind, wp_read, wp_bind]
  refine (hround _ []).mono (fun r w₁ hr => ?_) (fun _ _ h => h.elim)
  cases r with
  | ok bytes => trivial
  | error reasons =>
    have hnone : ∀ peer ∈ knownIds w, ¬ ServesChunks seams c info layout peer :=
      hr.resolve_left (by simp)
    dsimp only
    rw [hid]
    dsimp only
    rw [wp_bind, show wp (Prog.bind _ _) _ _ w₁ ↔ _ from wp_bind _ _, wp_askSeam]
    obtain ⟨refreshed, hrefreshed⟩ := hsound.locator w₁.tick id
    rw [hrefreshed, wp_ofExcept_ok, wp_bind, wp_update, wp_bind, wp_read, wp_bind]
    refine (hround _ reasons).mono (fun r w₂ _ => ?_) (fun _ _ h => h.elim)
    cases r with
    | ok bytes => trivial
    | error reasons => exact ⟨rfl, hnone⟩

/-! ## Staging and the gates -/

/-- On a sound node a turn of the staging loop fails only when its chunk is found nowhere. -/
theorem wp_stageChunk_sound (hsound : PartsSound seams c)
    (hid : ∃ id, moduleContentId c = some id) (checkpointed : Finset Nat)
    (acc : Staging) (hn : n < layout.chunkCount) (w : PullWorld) :
    wp (stageChunk seams c info layout checkpointed acc n) (fun _ w' => Remembers w w')
      (fun f _ => (∀ e, f ≠ .terminal e) ∧
        ∀ peer ∈ knownIds w, ¬ ServesChunks seams c info layout peer) w := by
  refine wp.mono (Q := fun _ w' => True ∧ Remembers w w')
    (E := fun f w' => ((∀ e, f ≠ .terminal e) ∧
      ∀ peer ∈ knownIds w, ¬ ServesChunks seams c info layout peer) ∧ Remembers w w')
    (wp.and ?_ ((steps_stageChunk closedUnderPull_remembers layout checkpointed acc n).wp w))
    (fun _ _ h => h.2) (fun _ _ h => h.1)
  unfold stageChunk
  dsimp only
  rw [wp_bind, wp_orTerminal]
  refine (wp_resumedChunk checkpointed n _ _ w).mono ?_ (fun _ _ h => h.elim)
  rintro r w₁ ⟨hw₁, -⟩
  have hown : knownIds w₁ = knownIds w := by
    rcases hw₁ with rfl | ⟨a, rfl⟩ <;> rfl
  cases r with
  | some bytes => trivial
  | none =>
    dsimp only
    rw [wp_bind, wp_handle]
    refine ((wp_fetchVerifiedChunk layout n w₁).and
      (wp_fetchVerifiedChunk_sound hsound hid hn w₁)).mono ?_ ?_
    · rintro bytes w₂ ⟨⟨hattr, -⟩, -⟩
      have hfits : (layout.chunkSpan n).1 + bytes.length ≤ u64Max := by
        rw [hattr.1]
        exact layout.chunkSpan_fits hn
      rw [wp_pure, wp_bind, wp_orTerminal]
      refine wp_sinkWriteAt_sound hsound.host hfits ?_
      rw [wp_bind, wp_orTerminal]
      exact wp_storeSave_sound hsound.host trivial
    · rintro e w₂ ⟨-, hfound, hnone⟩
      dsimp only
      rw [if_pos (by simp [hfound])]
      exact ⟨by simp, hown ▸ hnone⟩

/-- On a sound node the whole loop fails only when some chunk is found nowhere. -/
theorem wp_stageChunks_sound (hsound : PartsSound seams c)
    (hid : ∃ id, moduleContentId c = some id) (checkpointed : Finset Nat)
    (state : DownloadState) (w : PullWorld) :
    wp ((List.range layout.chunkCount).foldlM (stageChunk seams c info layout checkpointed)
        { state, hashed := [], anyChunkVerified := false })
      (fun _ w' => Remembers w w')
      (fun f _ => (∀ e, f ≠ .terminal e) ∧
        ∀ peer ∈ knownIds w, ¬ ServesChunks seams c info layout peer) w := by
  refine wp_foldlM_range (I := fun _ _ w' => Remembers w w') (Std.Refl.refl w) _
    (fun n hn acc w₁ h => ?_)
  refine (wp_stageChunk_sound hsound hid checkpointed acc hn w₁).mono
    (fun _ _ h' => IsTrans.trans _ _ _ h h') ?_
  rintro f w₂ ⟨hf, hnone⟩
  exact ⟨hf, fun peer hmem => hnone peer (h peer hmem)⟩

/-- The view of a staging area that the loop has verified can be read everywhere. -/
theorem stagedReader_readable {acc : Staging} (hs : seams.host.Sound)
    (h : StagedPrefix seams info layout layout.chunkCount acc w)
    (hsup : w.sink.supportsReadBack = true) :
    ModuleReader.Readable (stagedReader seams info layout w).toModuleReader := by
  intro off len hle
  refine StagedModuleReader.readAt_total (fun i hi => ?_) hle
  have hcovers : layout.totalSize ≤ w.sink.staged.length := by
    rw [← layout.start_chunkCount]
    exact h.covers
  have hspan := layout.chunkSpan_le hi
  have hread := Sink.read_of_le hsup (Nat.le_trans hspan hcovers) (layout.chunkSpan_fits hi)
  have hlen := length_slice_of_le (Nat.le_trans hspan hcovers)
  refine ⟨slice w.sink.staged (layout.chunkSpan i).1 (layout.chunkSpan i).2, ?_⟩
  have hchunk := h.chunks i hi
  have hfault : seams.host.readAt w.tick (layout.chunkSpan i).1 (layout.chunkSpan i).2 = none :=
    hs.readAt _ _ _
  simp [StagedModuleReader.verifiedChunk, stagedReader, hfault, hread, hlen, hchunk]

/-- On a sound node the gates accept the module or prove the descriptor false. -/
theorem wp_gateAndPromote_sound {acc : Staging} (hsound : PartsSound seams c)
    (h : StagedPrefix seams info layout layout.chunkCount acc w)
    (hsup : w.sink.supportsReadBack = true) :
    wp (gateAndPromote seams c info layout acc.hashed) (fun _ _ => True)
      (fun f w' => f.isProvenFalse = true ∧ w'.sink.supportsReadBack = true) w := by
  have hcovers : layout.totalSize ≤ w.sink.staged.length := by
    rw [← layout.start_chunkCount]
    exact h.covers
  unfold gateAndPromote
  dsimp only
  rw [wp_bind, wp_markPull]
  split
  · exact ⟨rfl, hsup⟩
  rw [wp_bind, wp_read]
  split
  · rename_i hno
    rw [World.note_sink, hsup] at hno
    cases hno
  rw [wp_bind, wp_askSeam]
  generalize hgate : Effect.ask (ModuleAsk.hashGate _ _) = gate
  have hreadable : ModuleReader.Readable (stagedReader seams info layout (w.note gate)).toModuleReader :=
    stagedReader_readable hsound.host (h.congr rfl) hsup
  cases hans : seams.verifyModuleAnchor (w.note gate).tick
      (stagedReader seams info layout (w.note gate)).toModuleReader c with
  | notAnchored => exact ⟨rfl, hsup⟩
  | unavailable reason => exact absurd hans (hsound.anchor _ _ hreadable reason)
  | anchored =>
    refine (wp_handle _ _).mpr ?_
    refine wp_promoteVerified_sound hsound.host ?_ ?_ layout.fits (fun w₁ _ _ _ => ?_)
    · exact hsup
    · exact hcovers
    · rw [wp_bind, wp_orTerminal]
      exact wp_storeClear_sound hsound.host trivial

/-! ## A pull and the attempts -/

/-- How a pull fails on a sound node: the run goes on, and a descriptor that the node
accepts and whose chunks a known holder serves was proven false. -/
structure FailsSoundly (seams : ModuleSeams) (c : Capsule) (info : ModuleInfo) (w : PullWorld)
    (f : PullFailure) (w' : PullWorld) : Prop where
  not_terminal : ∀ e, f ≠ .terminal e
  supportsReadBack : w'.sink.supportsReadBack = true
  proven : ChunkPlan.Acceptable info seams.config.maxModuleSize →
    (∃ peer ∈ knownIds w, ∀ layout : ChunkPlan, layout.chunkLens = info.chunkLens →
      ServesChunks seams c info layout peer) → f.isProvenFalse = true

theorem FailsSoundly.of_provenFalse {f : PullFailure} (hf : f.isProvenFalse = true)
    (hsup : w'.sink.supportsReadBack = true) : FailsSoundly seams c info w f w' := by
  refine ⟨?_, hsup, fun _ _ => hf⟩
  rintro e rfl
  cases hf

theorem wp_pullWithDescriptor_sound (hsound : NodeSound seams c)
    (hsup : w.sink.supportsReadBack = true) :
    wp (pullWithDescriptor seams c info) (fun _ _ => True) (FailsSoundly seams c info w) w := by
  refine wp_pullWithDescriptor_stages (fun f w₁ hentry => ?_) (fun layout state w₁ henters => ?_)
  · have hsup₁ := hentry.keeps.supportsReadBack.trans hsup
    obtain ⟨hplan, -⟩ := hentry.plan_of_sound hsound.host
    rcases ChunkPlan.fromInfo_error hplan with ⟨hf, -⟩ | ⟨⟨e, rfl⟩, -, hreserve⟩
    · exact FailsSoundly.of_provenFalse hf hsup₁
    · refine ⟨by simp, hsup₁, fun ha => ?_⟩
      exact absurd (hsound.allocates w.tick _ ha.count_le) hreserve
  · obtain ⟨-, -, -, hlens⟩ := ChunkPlan.fromInfo_ok henters.plan
    have hsup₁ := henters.keeps.supportsReadBack.trans hsup
    have hknown : knownIds w₁ = knownIds w := by rw [knownIds, knownIds, henters.own]
    rw [pullWithDescriptor.stageAndPromote, wp_bind]
    refine ((wp_stageChunks state.doneRanges state.takeDone w₁).and
      (wp_stageChunks_sound hsound.parts hsound.content state.doneRanges state.takeDone w₁)).mono
        ?_ ?_
    · rintro acc w₂ ⟨⟨hstaged, hstages⟩, -⟩
      refine (wp_gateAndPromote_sound hsound.parts hstaged
        (hstages.supportsReadBack.trans hsup₁)).mono (fun _ _ h => h) ?_
      exact fun f w₃ h₃ => FailsSoundly.of_provenFalse h₃.1 h₃.2
    · rintro f w₂ ⟨⟨-, hstages⟩, hf, hnone⟩
      refine ⟨hf, hstages.supportsReadBack.trans hsup₁, ?_⟩
      rintro - ⟨peer, hmem, hserves⟩
      exact absurd (hserves layout hlens) (hnone peer (hknown ▸ hmem))

/-- The honest holder's own pull fails only where hashes collide. -/
theorem wp_pullWithDescriptor_honest (hsound : NodeSound seams c)
    (hanchor : AnchorNeverDenies seams c (· = module)) (h : HonestHolder seams c module peer)
    (hd : Describes seams.sha256 info module) (hlim : WithinLimits seams.config info)
    (hknown : peer ∈ knownIds w) (hsup : w.sink.supportsReadBack = true) :
    wp (pullWithDescriptor seams c info) (fun _ _ => True)
      (fun _ w' => ¬ NoCollision seams.sha256 w'.trace module) w := by
  refine ((wp_pullWithDescriptor_true hd ?_ hanchor hlim w).and
    (wp_pullWithDescriptor_sound hsound hsup)).mono (fun _ _ _ => trivial) ?_
  · rfl
  rintro f w' ⟨htrue, hfails⟩ hno
  have hproven := hfails.proven (hd.acceptable_iff.mpr hlim)
    ⟨peer, hknown, fun layout hlens => h.servesChunks hd hlens⟩
  rw [htrue hno] at hproven
  cases hproven

/-- A round that can reach the honest holder ends with a descriptor, if the failures of the
others are recoverable. -/
theorem wp_askDescriptors_honest (h : HonestHolder seams c module peer)
    (hothers : ∀ t p e, seams.getModuleInfo t p c = some (.error e) → e.isRecoverable = true)
    {excluded : List String} (hex : peer ∉ excluded) :
    ∀ (providers : List ProviderRecord) (reasons : HolderReasons) (tried : Nat) (w : PullWorld),
      peer ∈ providers.map (·.providerPeerId) →
      wp (askDescriptors seams c excluded providers reasons tried) (fun _ _ => True)
        (fun _ _ => False) w
  | [], _, _, _, hmem => by cases hmem
  | p :: providers, reasons, tried, w, hmem => by
      unfold askDescriptors
      dsimp only
      have hrest : p.providerPeerId ≠ peer → peer ∈ providers.map (·.providerPeerId) :=
        fun hne => List.mem_of_ne_of_mem (Ne.symm hne) hmem
      split
      · rename_i hskip
        refine wp_askDescriptors_honest h hothers hex providers _ _ w (hrest ?_)
        rintro rfl
        exact hex hskip
      rw [wp_bind, wp_askSeam]
      have hne : ∀ answer, seams.getModuleInfo w.tick p.providerPeerId c = answer →
          (∀ info, answer ≠ some (.ok info)) → p.providerPeerId ≠ peer := by
        rintro answer hanswer hnone rfl
        obtain ⟨info, hinfo, -⟩ := h.describes w.tick
        exact hnone info (hanswer.symm.trans hinfo)
      cases ha : seams.getModuleInfo w.tick p.providerPeerId c with
      | none =>
        exact wp_askDescriptors_honest h hothers hex providers _ _ _
          (hrest (hne _ ha (by simp)))
      | some answer =>
        cases answer with
        | ok info => trivial
        | error e =>
          dsimp only
          rw [if_pos (hothers _ _ _ ha)]
          exact wp_askDescriptors_honest h hothers hex providers _ _ _
            (hrest (hne _ ha (by simp)))

/-- The run before an attempt: the honest holder is known and not excluded, and every
attempt so far demoted one other holder. -/
structure Attempting (peer : String) (x : DescriptorExclusions) (w : PullWorld) : Prop where
  known : peer ∈ knownIds w
  supportsReadBack : w.sink.supportsReadBack = true
  not_remembered : peer ∉ x.remembered
  not_demoted : peer ∉ x.demotedHere
  nodup : x.demotedHere.Nodup
  demoted : ∀ p ∈ x.demotedHere, Effect.ask (.demote p) ∈ w.trace

theorem DescriptorExclusions.settle_cases (x : DescriptorExclusions)
    (providers : List ProviderRecord) :
    (x.settle providers).demotedHere = x.demotedHere ∧
      (x.settle providers).remembered = x.remembered := by
  unfold settle
  split <;> exact ⟨rfl, rfl⟩

theorem DescriptorExclusions.mem_excluded {x : DescriptorExclusions} {p : String}
    (h : p ∈ x.excluded) : p ∈ x.demotedHere ∨ p ∈ x.remembered := by
  unfold excluded at h
  split at h
  · exact List.mem_append.mp h
  · exact Or.inl h

theorem DescriptorExclusions.demotedHere_excluded {x : DescriptorExclusions} {p : String}
    (h : p ∈ x.demotedHere) : p ∈ x.excluded := by
  unfold excluded
  split
  · exact List.mem_append_left _ h
  · exact h

/-- A holder that is known and not excluded is usable. -/
theorem DescriptorExclusions.usableHolders_ne_zero {x : DescriptorExclusions}
    (hknown : peer ∈ knownIds w) (hex : peer ∉ x.excluded) : x.usableHolders w.own ≠ 0 := by
  obtain ⟨p, hp, rfl⟩ := List.mem_map.mp hknown
  unfold usableHolders
  rw [Nat.ne_zero_iff_zero_lt, List.length_pos_iff_exists_mem]
  exact ⟨p, List.mem_filter.mpr ⟨hp, by simpa using hex⟩⟩

/-- A demotion of another holder that was not excluded. -/
theorem Attempting.demote {x settled : DescriptorExclusions} {source : String}
    (h : Attempting peer x w) (hdemoted : settled.demotedHere = x.demotedHere)
    (hremembered : settled.remembered = x.remembered) (hne : source ≠ peer)
    (hsource : source ∉ settled.excluded) (hext : Extends w w') (hknown : peer ∈ knownIds w')
    (hsup : w'.sink.supportsReadBack = true) :
    Attempting peer (settled.demote source) (w'.note (.ask (.demote source))) where
  known := hknown
  supportsReadBack := hsup
  not_remembered := hremembered ▸ h.not_remembered
  not_demoted hmem := by
    rcases List.mem_append.mp hmem with hmem | hmem
    · exact h.not_demoted (hdemoted ▸ hmem)
    · exact hne (List.mem_singleton.mp hmem).symm
  nodup := by
    refine List.nodup_append.mpr ⟨hdemoted ▸ h.nodup, List.nodup_singleton _, ?_⟩
    rintro p hp q hq rfl
    rw [List.mem_singleton.mp hq] at hp
    exact hsource (DescriptorExclusions.demotedHere_excluded hp)
  demoted p hp := by
    rw [World.note_trace]
    rcases List.mem_append.mp hp with hp | hp
    · exact List.mem_append_left _ (hext.subset _ (h.demoted p (hdemoted ▸ hp)))
    · rw [List.mem_singleton.mp hp]
      exact List.mem_append_right _ (List.mem_singleton_self _)

/-- A pull that fails under the honest holder's own descriptor needs a collision. -/
theorem wp_pullWithDescriptor_collides (hsound : NodeSound seams c)
    (hanchor : AnchorNeverDenies seams c (· = module)) (h : HonestHolder seams c module peer)
    {source : String} {t : Nat} (hanswer : seams.getModuleInfo t source c = some (.ok info))
    (hknown : peer ∈ knownIds w) (hsup : w.sink.supportsReadBack = true) :
    wp (pullWithDescriptor seams c info) (fun _ _ => True)
      (fun _ w' => source = peer → ¬ NoCollision seams.sha256 w'.trace module) w := by
  by_cases hs : source = peer
  · subst hs
    obtain ⟨info', hinfo', hd, hlim⟩ := h.describes t
    rw [hinfo', Option.some.injEq, Except.ok.injEq] at hanswer
    subst hanswer
    exact (wp_pullWithDescriptor_honest hsound hanchor h hd hlim hknown hsup).mono
      (fun _ _ h => h) (fun _ _ h _ => h)
  · exact wp_of_forall (fun _ _ => trivial) (fun _ _ hs' => absurd hs' hs)

/-- The source of a descriptor is demoted; if hashes do not collide it is not the honest holder,
who stays there to be asked. -/
theorem wp_demote_honest {x settled : DescriptorExclusions} {source : String} {w₂ w₃ : PullWorld}
    (e : DownloadError) (ha : Attempting peer x w) (hdemoted : settled.demotedHere = x.demotedHere)
    (hremembered : settled.remembered = x.remembered) (hsource : source ∉ settled.excluded)
    (hcollides : source = peer → ¬ NoCollision seams.sha256 w₂.trace module)
    (hsup : w₃.sink.supportsReadBack = true) (hknown : peer ∈ knownIds w₃)
    (hext₂ : Extends w w₂) (hext₃ : Extends w₂ w₃) :
    wp (do
        markPull (.demote source)
        let w ← Prog.read
        pure (.inr {
          error := e
          exclusions := settled.demote source
          noneLeft := (settled.demote source).usableHolders w.own = 0 &&
            !(settled.demote source).trustsMemory }) : PullM (Nat ⊕ FailedAttempt))
      (fun r w' => ∀ failed, r = .inr failed → NoCollision seams.sha256 w'.trace module →
        failed.noneLeft = false ∧ Attempting peer failed.exclusions w' ∧
          failed.exclusions.demotedHere.length = x.demotedHere.length + 1)
      (fun _ _ => False) w₃ := by
  rw [wp_bind, wp_markPull, wp_bind, wp_read, wp_pure]
  rintro failed ⟨rfl⟩ hno
  have hne : source ≠ peer := fun hs => hcollides hs (hno.of_subset fun e he => by
    rw [World.note_trace]
    exact List.mem_append_left _ (hext₃.subset e he))
  have hnext : Attempting peer (settled.demote source) (w₃.note (.ask (.demote source))) :=
    ha.demote hdemoted hremembered hne hsource (IsTrans.trans _ _ _ hext₂ hext₃) hknown hsup
  have husable : (settled.demote source).usableHolders w₃.own ≠ 0 := by
    refine DescriptorExclusions.usableHolders_ne_zero hknown fun hmem => ?_
    rcases DescriptorExclusions.mem_excluded hmem with hmem | hmem
    · exact hnext.not_demoted hmem
    · exact hnext.not_remembered hmem
  refine ⟨by simp [husable], hnext, ?_⟩
  rw [← hdemoted]
  exact List.length_append

/-- An attempt ends the pull well, or demotes one more holder that is not the honest one,
or a hash collided. -/
theorem wp_descriptorAttempt_honest (hsound : NodeSound seams c)
    (hanchor : AnchorNeverDenies seams c (· = module)) (h : HonestHolder seams c module peer)
    (hothers : ∀ t p e, seams.getModuleInfo t p c = some (.error e) → e.isRecoverable = true)
    {x : DescriptorExclusions} (ha : Attempting peer x w) :
    wp (descriptorAttempt seams c x)
      (fun r w' => ∀ failed, r = .inr failed → NoCollision seams.sha256 w'.trace module →
        failed.noneLeft = false ∧ Attempting peer failed.exclusions w' ∧
          failed.exclusions.demotedHere.length = x.demotedHere.length + 1)
      (fun _ _ => False) w := by
  unfold descriptorAttempt
  rw [wp_bind, wp_read]
  dsimp only
  obtain ⟨hdemoted, hremembered⟩ := x.settle_cases w.own
  generalize x.settle w.own = settled at hdemoted hremembered
  have hex : peer ∉ settled.excluded := fun hmem => by
    rcases DescriptorExclusions.mem_excluded hmem with hmem | hmem
    · exact ha.not_demoted (hdemoted ▸ hmem)
    · exact ha.not_remembered (hremembered ▸ hmem)
  rw [wp_handle]
  refine (((wp_fetchModuleInfo settled.excluded w).and
    ((quiet_fetchModuleInfo settled.excluded).wp w)).and
    (((steps_fetchModuleInfo_own settled.excluded).wp w).and
    (wp_askDescriptors_honest h hothers hex w.own [] 0 w ha.known))).mono ?_
    (fun _ _ he => he.2.2.elim)
  rintro ⟨source, info⟩ w₁ ⟨⟨⟨hsource, -, seg, -, -, hanswer⟩, hquiet⟩, hown, -⟩
  have hknown₁ : peer ∈ knownIds w₁ := by
    unfold knownIds
    rw [hown]
    exact ha.known
  have hsup₁ : w₁.sink.supportsReadBack = true := by
    rw [hquiet.sink]
    exact ha.supportsReadBack
  have hext₁ : Extends w w₁ := hquiet.appends.mono fun _ _ => trivial
  dsimp only at hsource hanswer ⊢
  rw [wp_handle]
  refine (((wp_pullWithDescriptor_sound hsound hsup₁).and
    (wp_pullWithDescriptor_collides hsound hanchor h hanswer hknown₁ hsup₁)).and
    (((steps_pullWithDescriptor closedUnderPull_remembers).wp w₁).and
      ((steps_pullWithDescriptor closedUnderPull_appends).wp w₁))).mono ?_ ?_
  · rintro n w₂ -
    simp
  rintro f w₂ ⟨⟨hfails, hcollides⟩, hremembers, happends⟩
  have hext₂ : Extends w w₂ := IsTrans.trans _ _ _ hext₁ (happends.mono fun _ _ => trivial)
  have hdemote : ∀ (w₃ : PullWorld) (e : DownloadError), w₃.own = w₂.own → w₃.sink = w₂.sink →
      Extends w₂ w₃ → _ := fun w₃ e hown₃ hsink₃ hext₃ =>
    wp_demote_honest e ha hdemoted hremembered hsource hcollides
      (by rw [hsink₃]; exact hfails.supportsReadBack)
      (by rw [knownIds, hown₃]; exact hremembers peer hknown₁) hext₂ hext₃
  cases f with
  | terminal e => exact absurd rfl (hfails.not_terminal e)
  | unsatisfiableDescriptor e => exact hdemote w₂ e rfl rfl (Std.Refl.refl w₂)
  | badDescriptor e =>
    refine (wp_bind _ _).mpr (wp_ignoringFailure.mpr ?_)
    exact wp_storeRecordBadDescriptor
      (fun _ => hdemote _ e rfl rfl (closedUnderRun_extends.effect _ _ _ trivial rfl))
      (fun _ => hdemote _ e rfl rfl (closedUnderRun_extends.effect.note _ trivial trivial))

/-- The attempts end well, or a hash collided, or as many holders were demoted as there
are attempts, the honest one not among them. -/
theorem wp_attemptLoop_honest (hsound : NodeSound seams c)
    (hanchor : AnchorNeverDenies seams c (· = module)) (h : HonestHolder seams c module peer)
    (hothers : ∀ t p e, seams.getModuleInfo t p c = some (.error e) → e.isRecoverable = true) :
    ∀ (left : Nat) (x : DescriptorExclusions) (w : PullWorld), Attempting peer x w →
      wp (attemptLoop seams c left x) (fun _ _ => True)
        (fun _ w' => NoCollision seams.sha256 w'.trace module →
          ∃ ids : Finset String, ids.card = x.demotedHere.length + left + 1 ∧
            ∀ p ∈ ids, p ≠ peer ∧ Effect.ask (.demote p) ∈ w'.trace) w
  | 0, x, w, ha => by
      unfold attemptLoop
      rw [wp_bind]
      refine (wp_descriptorAttempt_honest hsound hanchor h hothers ha).mono (fun r w₁ hr => ?_)
        (fun _ _ h => h.elim)
      cases r with
      | inl n => trivial
      | inr failed =>
        intro hno
        obtain ⟨-, hnext, hlen⟩ := hr failed rfl hno
        refine ⟨failed.exclusions.demotedHere.toFinset, ?_, fun p hp => ?_⟩
        · rw [List.toFinset_card_of_nodup hnext.nodup, hlen]
        · rw [List.mem_toFinset] at hp
          exact ⟨fun hpeer => hnext.not_demoted (hpeer ▸ hp), hnext.demoted p hp⟩
  | left + 1, x, w, ha => by
      unfold attemptLoop
      rw [wp_bind]
      refine (wp_descriptorAttempt_honest hsound hanchor h hothers ha).mono (fun r w₁ hr => ?_)
        (fun _ _ h => h.elim)
      cases r with
      | inl n => trivial
      | inr failed =>
        dsimp only
        by_cases hno₁ : NoCollision seams.sha256 w₁.trace module
        · obtain ⟨hleft, hnext, hlen⟩ := hr failed rfl hno₁
          rw [if_neg (by simp [hleft])]
          refine (wp_attemptLoop_honest hsound hanchor h hothers left _ w₁ hnext).mono
            (fun _ _ h => h) (fun e w₂ hids hno => ?_)
          obtain ⟨ids, hcard, hids⟩ := hids hno
          exact ⟨ids, by omega, hids⟩
        · -- a collision stays in the trace, however the loop goes on
          have hstays : ∀ w₂, Extends w₁ w₂ → ¬ NoCollision seams.sha256 w₂.trace module :=
            fun w₂ hext hno => hno₁ (hno.of_appends hext)
          split
          · exact fun hno => absurd hno hno₁
          · exact ((steps_attemptLoop closedUnderRun_extends.attempts left _).wp w₁).mono
              (fun _ _ _ => trivial)
              (fun _ w₂ hext hno => absurd hno (hstays w₂ hext))

/-- If one located holder that no remembered verdict names always supplies a true
descriptor within the limits and serves its module, if the other holders' failures to
supply one are recoverable, and if fewer holders than there are attempts, that one aside,
supply descriptors whose pull fails, then the run returns a module that the anchor
verifier accepted. The clock reading is that of the call which reads the verdicts. -/
theorem download_of_honest_holder (seams : ModuleSeams) (c : Capsule) (sink : Sink)
    (store : StateStore) (module : Bytes) (peer : String) (content : ContentId)
    (providers : List ProviderRecord) (hsound : NodeSound seams c)
    (hsup : sink.supportsReadBack = true) (hanchor : AnchorNeverDenies seams c (· = module))
    (hid : moduleContentId c = some content)
    (hfound : seams.findProviders 0 content = .ok providers)
    (hlocated : ∃ p ∈ providers, p.providerPeerId = peer)
    (h : HonestHolder seams c module peer)
    (hothers : ∀ t p e, seams.getModuleInfo t p c = some (.error e) → e.isRecoverable = true)
    (hremembered : peer ∉ livePeers (store.verdicts (moduleDownloadKey c)) (seams.host.unixNow 1))
    (hno : NoCollision seams.sha256
      (download seams c (PullWorld.fresh sink store)).2.trace module)
    (hminority : ∀ ids : Finset String,
      (∀ p ∈ ids, p ≠ peer ∧
        Effect.ask (.demote p) ∈ (download seams c (PullWorld.fresh sink store)).2.trace) →
      ids.card ≤ maxDescriptorAttempts - 1) :
    ∃ n delivered, (download seams c (PullWorld.fresh sink store)).1 = .ok n ∧
      (download seams c (PullWorld.fresh sink store)).2.sink.artifacts
        = sink.artifacts ++ [delivered] ∧
      n = delivered.length ∧
      ∃ reader : ModuleReader, reader.ReadsOnly delivered ∧
        Effect.ask (.verifyModuleAnchor reader .anchored)
          ∈ (download seams c (PullWorld.fresh sink store)).2.trace := by
  have hrun : wp (download seams c) (fun _ _ => True)
      (fun _ w' => NoCollision seams.sha256 w'.trace module →
        ∃ ids : Finset String, ids.card = maxDescriptorAttempts ∧
          ∀ p ∈ ids, p ≠ peer ∧ Effect.ask (.demote p) ∈ w'.trace)
      (PullWorld.fresh sink store) := by
    have hne : providers ≠ [] := by
      rintro rfl
      simp at hlocated
    -- every start of the attempt loop that remembers no verdict against the holder
    have hloop : ∀ (remembered : List String) (w : PullWorld), peer ∉ remembered →
        w.own = providers → w.sink = sink →
        wp (attemptLoop seams c (maxDescriptorAttempts - 1) (DescriptorExclusions.new remembered))
          (fun _ _ => True)
          (fun _ w' => NoCollision seams.sha256 w'.trace module →
            ∃ ids : Finset String, ids.card = maxDescriptorAttempts ∧
              ∀ p ∈ ids, p ≠ peer ∧ Effect.ask (.demote p) ∈ w'.trace) w := by
      intro remembered w hmem hown hsink
      refine wp_attemptLoop_honest hsound hanchor h hothers _ _ w ⟨?_, ?_, hmem, ?_, ?_, ?_⟩
      · unfold knownIds
        rw [hown]
        exact List.mem_map.mpr hlocated
      · rw [hsink, hsup]
      · exact List.not_mem_nil
      · exact List.nodup_nil
      · exact fun p hp => absurd hp List.not_mem_nil
    rw [download, hid]
    dsimp only
    rw [wp_bind, show wp (Prog.bind _ _) _ _ _ ↔ _ from wp_bind _ _, wp_askSeam]
    rw [show (PullWorld.fresh sink store).tick = 0 from rfl, hfound, wp_ofExcept_ok, if_neg hne,
      wp_bind, wp_update, wp_bind]
    exact wp_rememberedVerdicts_reads (hloop _ _ hremembered rfl rfl)
      (hloop [] _ List.not_mem_nil rfl rfl)
  cases hr : (download seams c (PullWorld.fresh sink store)).1 with
  | ok n =>
    obtain ⟨⟨earlier, p, info, attempt, delivered, htrace, -, hprom, hn, hart⟩, -⟩ :=
      (wp_download seams c sink store).ok hr
    obtain ⟨reader, hreader, hmem⟩ := hprom.anchored
    exact ⟨n, delivered, rfl, hart, hn, reader, hreader, by rw [htrace]; simp [hmem]⟩
  | error e =>
    obtain ⟨ids, hcard, hids⟩ := hrun.error hr hno
    have := hminority ids hids
    rw [hcard] at this
    exact absurd this (by decide)

/-- The peer that is demoted. -/
def Effect.demoted? : Effect ModuleAsk → Option String
  | .ask (.demote peer) => some peer
  | _ => none

/-- The small capsule with a liar in front, whose descriptor cuts another module into other
chunks and who serves one byte of garbage, and a silent holder behind it. -/
def hostileSeams : ModuleSeams :=
  { smallSeams with
    findProviders := fun _ _ => .ok [{ providerPeerId := holderB, addresses := [] },
      { providerPeerId := "silent", addresses := [] }, { providerPeerId := holderA, addresses := [] }]
    getModuleInfo := fun _ peer _ =>
      if peer = holderB then some (.ok {
        totalSize := 2
        moduleHash := hexOf (smallSha256 [9])
        chunkHashes := [hexOf (smallSha256 [1]), hexOf (smallSha256 [9])]
        chunkLens := [1, 1] })
      else if peer = holderA then some (.ok (smallInfo [3]))
      else none
    fetchModuleRange := fun _ peer _ offset len =>
      if peer = holderA then some (.ok (slice smallModule offset len))
      else if peer = holderB then some (.ok [0])
      else none }

theorem smallSeams_sound {seams : ModuleSeams} (hhost : seams.host = Host.healthy)
    (hlocator : ∀ t id, ∃ providers, seams.findProviders t id = .ok providers)
    (hreserve : ∀ t count, seams.reserve t count = none)
    (hverifier : ∀ t reader, seams.verifyModuleAnchor t reader smallCapsule = smallVerifier reader) :
    NodeSound seams smallCapsule where
  content := Option.isSome_iff_exists.mp (by decide +kernel)
  locator := hlocator
  host := hhost ▸ Host.healthy_sound
  allocates t count _ := hreserve t count
  anchor t reader hreadable reason := by
    obtain ⟨bytes, hbytes⟩ := hreadable 0 reader.len (by simp)
    rw [hverifier, smallVerifier, hbytes]
    dsimp only
    split <;> simp

theorem hostileSeams_delivers :
    ∃ n delivered, (download hostileSeams smallCapsule (PullWorld.fresh emptySink emptyStore)).1
        = .ok n ∧
      (download hostileSeams smallCapsule (PullWorld.fresh emptySink emptyStore)).2.sink.artifacts
        = [] ++ [delivered] ∧
      n = delivered.length ∧
      ∃ reader : ModuleReader, reader.ReadsOnly delivered ∧
        Effect.ask (.verifyModuleAnchor reader .anchored)
          ∈ (download hostileSeams smallCapsule (PullWorld.fresh emptySink emptyStore)).2.trace := by
  obtain ⟨content, hid⟩ : ∃ content, moduleContentId smallCapsule = some content :=
    Option.isSome_iff_exists.mp (by decide +kernel)
  refine download_of_honest_holder hostileSeams smallCapsule emptySink emptyStore smallModule
    holderA content _ (smallSeams_sound rfl (fun _ _ => ⟨_, rfl⟩) (fun _ _ => rfl) fun _ _ => rfl)
    rfl (smallVerifier_neverDenies fun _ _ => rfl) hid rfl ⟨⟨holderA, []⟩, by simp, rfl⟩ ?_ ?_
    (by simp [emptyStore, livePeers]) (noCollision_of_tabled (by decide +kernel) _) ?_
  · have hne : holderA ≠ holderB := by decide
    refine ⟨fun t => ⟨smallInfo [3], by simp [hostileSeams, hne], smallInfo_describes,
      by decide, by decide, by decide⟩, fun t off len hle => ⟨slice smallModule off len, rfl, ?_⟩⟩
    rw [take_slice, Nat.min_self]
  · intro t p e he
    simp only [hostileSeams] at he
    split at he
    · cases he
    split at he <;> cases he
  · intro ids hids
    have hdemoted : ((download hostileSeams smallCapsule
        (PullWorld.fresh emptySink emptyStore)).2.trace.all fun e =>
          e.demoted?.all (· = holderB)) = true := by decide +kernel
    have hsub : ids ⊆ {holderB} := fun p hp => by
      have := List.all_eq_true.mp hdemoted _ (hids p hp).2
      simpa [Effect.demoted?] using this
    exact Nat.le_trans (Finset.card_le_card hsub) (by decide)

/-! ## Beyond the limits -/

/-- Where every descriptor that can be obtained is one the node does not take, a pull never
returns. -/
theorem wp_attemptLoop_unacceptable
    (h : ∀ t p info, seams.getModuleInfo t p c = some (.ok info) →
      ¬ ChunkPlan.Acceptable info seams.config.maxModuleSize) :
    ∀ (left : Nat) (x : DescriptorExclusions) (w : PullWorld),
      wp (attemptLoop seams c left x) (fun _ _ => False) (fun _ _ => True) w := by
  have hattempt : ∀ (x : DescriptorExclusions) (w : PullWorld),
      wp (descriptorAttempt seams c x) (fun r _ => ∃ failed, r = .inr failed) (fun _ _ => True)
        w := by
    intro x w
    unfold descriptorAttempt
    rw [wp_bind, wp_read]
    dsimp only
    rw [wp_handle]
    refine (wp_fetchModuleInfo _ w).mono ?_ (fun e w₁ _ => ⟨_, rfl⟩)
    rintro ⟨source, info⟩ w₁ ⟨-, -, seg, -, -, hanswer⟩
    dsimp only
    rw [wp_handle]
    refine (wp_pullWithDescriptor_unacceptable (h _ _ _ hanswer) w₁).mono
      (fun _ _ h => h.elim) (fun f w₂ _ => ?_)
    cases f with
    | terminal e => trivial
    | badDescriptor e =>
      refine (wp_bind _ _).mpr (wp_ignoringFailure.mpr ?_)
      exact wp_of_forall (fun _ _ => ⟨_, rfl⟩) (fun _ _ => ⟨_, rfl⟩)
    | unsatisfiableDescriptor e => exact ⟨_, rfl⟩
  intro left
  induction left with
  | zero =>
    intro x w
    unfold attemptLoop
    rw [wp_bind]
    refine (hattempt x w).mono ?_ (fun _ _ h => h)
    rintro _ w₁ ⟨failed, rfl⟩
    trivial
  | succ left ih =>
    intro x w
    unfold attemptLoop
    rw [wp_bind]
    refine (hattempt x w).mono ?_ (fun _ _ h => h)
    rintro _ w₁ ⟨failed, rfl⟩
    dsimp only
    split
    · trivial
    · exact ih _ _

theorem wp_download_unacceptable
    (h : ∀ t p info, seams.getModuleInfo t p c = some (.ok info) →
      ¬ ChunkPlan.Acceptable info seams.config.maxModuleSize) (w : PullWorld) :
    wp (download seams c) (fun _ _ => False) (fun _ _ => True) w := by
  exact wp_download_of_invariant trivial id id id id
    fun _ w₁ _ => wp_attemptLoop_unacceptable h _ _ w₁

/-- One holder, which always supplies the given descriptor and serves the given module, on
a sound node whose anchor verifier accepts everything. -/
def soleHolderSeams (info : ModuleInfo) (module : Bytes) : ModuleSeams :=
  { smallSeams with
    getModuleInfo := fun _ _ _ => some (.ok info)
    fetchModuleRange := fun _ _ _ offset len => some (.ok (slice module offset len))
    verifyModuleAnchor := fun _ _ _ => .anchored }

/-- The empty module, in no chunks. -/
def hollowInfo : ModuleInfo where
  totalSize := 0
  moduleHash := hexOf (smallSha256 [])
  chunkHashes := []
  chunkLens := []

/-- A module of one byte, in that byte and `n` empty chunks. -/
def crowdedInfo (n : Nat) : ModuleInfo where
  totalSize := 1
  moduleHash := hexOf (smallSha256 [1])
  chunkHashes := hexOf (smallSha256 [1]) :: List.replicate n (hexOf (smallSha256 []))
  chunkLens := 1 :: List.replicate n 0

theorem hollowInfo_describes : Describes smallSha256 hollowInfo [] :=
  ⟨rfl, rfl, rfl, rfl, by simp [hollowInfo]⟩

theorem crowdedInfo_describes (n : Nat) : Describes smallSha256 (crowdedInfo n) [1] := by
  refine ⟨rfl, by simp [crowdedInfo], rfl, by simp [crowdedInfo], fun i hi => ?_⟩
  cases i with
  | zero => simp [crowdedInfo, start, slice]
  | succ i =>
    have hi' : i < n := by simpa [crowdedInfo] using hi
    simp [crowdedInfo, start, slice, List.getD, hi']

theorem crowdedInfo_not_acceptable {n : Nat} (h : maxModuleChunkCount ≤ n) (maxModuleSize : Nat) :
    ¬ ChunkPlan.Acceptable (crowdedInfo n) maxModuleSize := by
  intro ha
  have hcount := ha.count_le
  simp only [crowdedInfo, List.length_cons, List.length_replicate] at hcount
  omega

theorem soleHolderSeams_sound (info : ModuleInfo) (module : Bytes) :
    NodeSound (soleHolderSeams info module) smallCapsule where
  content := Option.isSome_iff_exists.mp (by decide +kernel)
  locator := fun _ _ => ⟨_, rfl⟩
  host := Host.healthy_sound
  allocates _ _ _ := rfl
  anchor _ _ _ _ := by simp [soleHolderSeams]

/-- A sole holder that is honest in every way is denied when its true descriptor has no
chunks, or more than a plan may have. -/
theorem soleHolder_denied :
    (NodeSound (soleHolderSeams hollowInfo []) smallCapsule ∧
      Describes smallSha256 hollowInfo [] ∧
      hollowInfo.totalSize ≤ (soleHolderSeams hollowInfo []).config.maxModuleSize ∧
      ¬ ∃ n, (download (soleHolderSeams hollowInfo []) smallCapsule
        (PullWorld.fresh emptySink emptyStore)).1 = .ok n) ∧
    (NodeSound (soleHolderSeams (crowdedInfo maxModuleChunkCount) [1]) smallCapsule ∧
      Describes smallSha256 (crowdedInfo maxModuleChunkCount) [1] ∧
      (crowdedInfo maxModuleChunkCount).totalSize
        ≤ (soleHolderSeams (crowdedInfo maxModuleChunkCount) [1]).config.maxModuleSize ∧
      ¬ ∃ n, (download (soleHolderSeams (crowdedInfo maxModuleChunkCount) [1]) smallCapsule
        (PullWorld.fresh emptySink emptyStore)).1 = .ok n) := by
  have hdenied : ∀ (info : ModuleInfo) (module : Bytes),
      ¬ ChunkPlan.Acceptable info (soleHolderSeams info module).config.maxModuleSize →
      ¬ ∃ n, (download (soleHolderSeams info module) smallCapsule
        (PullWorld.fresh emptySink emptyStore)).1 = .ok n := by
    rintro info module hna ⟨n, hn⟩
    have hall : ∀ t p info', (soleHolderSeams info module).getModuleInfo t p smallCapsule
        = some (.ok info') →
        ¬ ChunkPlan.Acceptable info' (soleHolderSeams info module).config.maxModuleSize := by
      rintro t p info' hinfo
      cases hinfo
      exact hna
    exact (wp_download_unacceptable hall _).ok hn
  refine ⟨⟨soleHolderSeams_sound _ _, hollowInfo_describes, Nat.zero_le _, hdenied _ _ ?_⟩,
    soleHolderSeams_sound _ _, crowdedInfo_describes _, ?_, hdenied _ _ ?_⟩
  · exact fun ha => ha.lens_ne_nil rfl
  · simp [crowdedInfo, soleHolderSeams, smallSeams]
  · exact crowdedInfo_not_acceptable (Nat.le_refl _) _

end Minority

end DigDownload
