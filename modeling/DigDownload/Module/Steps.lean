import DigDownload.Calls
import DigDownload.Module.Pull

/-!
# What the parts of a pull do

For each function of the pull, one lemma on what it returns and one on what it
leaves alone. Asking for descriptors and fetching a chunk touch nothing that
persists; a chunk that is returned, whether fetched or read back, has the length
and the hash that the descriptor gives it.
-/

namespace DigDownload

open Slices Tiling Prog

/-! ## Kinds of effects -/

namespace Effect

/-- A descriptor was asked for. -/
def IsDescriptorAsk : Effect ModuleAsk → Prop
  | .ask (.getModuleInfo _ _) => True
  | _ => False

/-- A chunk was being fetched. -/
def IsFetching : Effect ModuleAsk → Prop
  | .ask (.fetchChunk _) | .ask (.fetchModuleRange _ _ _ _) | .ask (.findProviders _) => True
  | _ => False

/-- A chunk was being staged: read back, fetched, written and checkpointed. -/
def IsStaging : Effect ModuleAsk → Prop
  | .readAt _ _ _ | .writeAt _ _ _ | .save _ _ => True
  | e => e.IsFetching

/-- A descriptor was obtained from a holder. -/
def IsDescriptor : Effect ModuleAsk → Prop
  | .ask (.getModuleInfo _ (some (.ok _))) => True
  | _ => False

/-- Something the attempt loop does, between or around pulls. -/
def IsBetween : Effect ModuleAsk → Prop
  | .ask (.getModuleInfo _ _) | .ask (.demote _) | .recordBadDescriptor _ _ _
  | .badDescriptorPeers _ _ => True
  | _ => False

/-- The staging area was promoted, or an attempt to promote it failed. -/
def IsFinalize : Effect ModuleAsk → Prop
  | .finalize _ => True
  | _ => False

instance : DecidablePred IsFinalize := fun e => by unfold IsFinalize; split <;> infer_instance

theorem IsFetching.isStaging {e : Effect ModuleAsk} (h : e.IsFetching) : e.IsStaging := by
  unfold IsStaging
  split <;> trivial

/-- The chunk of that index was being fetched. -/
def IsFetchOf (index : Nat) : Effect ModuleAsk → Prop
  | .ask (.fetchChunk i) => i = index
  | e => e.IsFetching

theorem IsFetchOf.isFetching {index : Nat} {e : Effect ModuleAsk} (h : e.IsFetchOf index) :
    e.IsFetching := by
  unfold IsFetchOf at h
  split at h
  · trivial
  · exact h

/-- The staging loop was being entered: room for the plan was asked for, the checkpoint was
loaded, or what was staged was dropped. -/
def IsEntering : Effect ModuleAsk → Prop
  | .ask (.reserve _ _) | .load _ _ | .truncate _ _ => True
  | _ => False

/-- A gate was passed or not, and the staging area promoted or dropped. -/
def IsGating : Effect ModuleAsk → Prop
  | .ask (.hashGate _ _) | .ask (.verifyModuleAnchor _ _) | .readAt _ _ _ | .truncate _ _
  | .finalize _ | .clear _ _ => True
  | _ => False

theorem IsGating.not_isBetween {e : Effect ModuleAsk} (h : e.IsGating) : ¬ e.IsBetween := by
  unfold IsBetween
  split
  · exact fun _ => h
  · exact fun _ => h
  · exact fun _ => h
  · exact fun _ => h
  · exact id

end Effect

section Parts

variable {ε α : Type} {seams : ModuleSeams} {c : Capsule} {info : ModuleInfo} {w : PullWorld}

@[simp] theorem wp_askSeam {seam : Nat → α} {asked : α → ModuleAsk} {Q : α → PullWorld → Prop}
    {E : ε → PullWorld → Prop} :
    wp (askSeam seam asked) Q E w ↔ Q (seam w.tick) (w.note (.ask (asked (seam w.tick)))) := Iff.rfl

@[simp] theorem wp_markPull {a : ModuleAsk} {Q : Unit → PullWorld → Prop}
    {E : ε → PullWorld → Prop} : wp (markPull a) Q E w ↔ Q () (w.note (.ask a)) := Iff.rfl

@[simp] theorem wp_orTerminal {m : PullM α} {Q : α → PullWorld → Prop}
    {E : PullFailure → PullWorld → Prop} :
    wp (orTerminal m) Q E w ↔ wp m Q (fun e => E (.terminal e)) w := by
  unfold orTerminal
  rw [wp_handle]
  rfl

theorem quiet_askSeam {K : Effect ModuleAsk → Prop} {seam : Nat → α} {asked : α → ModuleAsk}
    (h : ∀ a, K (.ask (asked a))) : Steps (Quiet K) (askSeam seam asked : Prog PullWorld ε α) :=
  fun _ => Quiet.note (h _)

/-! ## Asking for descriptors -/

/-- A round moves the state along every relation that its asks move it along. -/
theorem steps_askDescriptors {R : PullWorld → PullWorld → Prop} [Std.Refl R]
    [IsTrans PullWorld R] (hR : ∀ w e, Effect.IsDescriptorAsk e → R w (w.note e))
    (excluded : List String) :
    ∀ (providers : List ProviderRecord) (reasons : HolderReasons) (tried : Nat),
      Steps R (askDescriptors seams c excluded providers reasons tried)
  | [], reasons, tried => Steps.fail _
  | provider :: providers, reasons, tried => by
      unfold askDescriptors
      dsimp only
      split
      · exact steps_askDescriptors hR excluded providers reasons tried
      refine Steps.bind (fun w => hR w _ trivial) fun answer => ?_
      cases answer with
      | none => exact steps_askDescriptors hR excluded providers _ _
      | some answer =>
        cases answer with
        | ok info => exact Steps.pure _
        | error e =>
          dsimp only
          split
          · exact steps_askDescriptors hR excluded providers _ _
          · exact Steps.fail e

theorem steps_fetchModuleInfo {R : PullWorld → PullWorld → Prop} [Std.Refl R]
    [IsTrans PullWorld R] (hR : ∀ w e, Effect.IsDescriptorAsk e → R w (w.note e))
    (excluded : List String) : Steps R (fetchModuleInfo seams c excluded) :=
  Steps.bind Steps.read fun _ => steps_askDescriptors hR excluded _ _ _

theorem quiet_fetchModuleInfo (excluded : List String) :
    Steps (Quiet Effect.IsDescriptorAsk) (fetchModuleInfo seams c excluded) :=
  steps_fetchModuleInfo (fun _ _ => Quiet.note) excluded

/-- No holder is learnt of in a round. -/
theorem steps_fetchModuleInfo_own (excluded : List String) :
    Steps (fun w w' : PullWorld => w'.own = w.own) (fetchModuleInfo seams c excluded) := by
  have : Std.Refl fun w w' : PullWorld => w'.own = w.own := ⟨fun _ => rfl⟩
  have : IsTrans PullWorld fun w w' => w'.own = w.own := ⟨fun _ _ _ h h' => h'.trans h⟩
  exact steps_fetchModuleInfo (fun _ _ _ => rfl) excluded

/-- The round ends with the answer of a holder that is not excluded, just given, and no
holder before it answered with a descriptor. -/
theorem wp_askDescriptors (excluded : List String) :
    ∀ (providers : List ProviderRecord) (reasons : HolderReasons) (tried : Nat) (w : PullWorld),
      wp (askDescriptors seams c excluded providers reasons tried)
        (fun r w' => r.1 ∉ excluded ∧ (∃ p ∈ providers, p.providerPeerId = r.1) ∧
          ∃ seg, w'.trace = w.trace ++ seg ++ [.ask (.getModuleInfo r.1 (some (.ok r.2)))] ∧
            (∀ e ∈ seg, e.IsDescriptorAsk ∧ ¬ e.IsDescriptor) ∧
            seams.getModuleInfo (w.trace ++ seg).length r.1 c = some (.ok r.2))
        (fun _ w' => ∃ seg, w'.trace = w.trace ++ seg ∧
          ∀ e ∈ seg, e.IsDescriptorAsk ∧ ¬ e.IsDescriptor) w
  | [], reasons, tried, w => ⟨[], by simp, by simp⟩
  | provider :: providers, reasons, tried, w => by
      unfold askDescriptors
      dsimp only
      split
      · refine (wp_askDescriptors excluded providers reasons tried w).mono ?_ (fun _ _ h => h)
        rintro r w' ⟨hex, ⟨p, hp, hid⟩, hseg⟩
        exact ⟨hex, ⟨p, List.mem_cons_of_mem _ hp, hid⟩, hseg⟩
      rename_i hnot
      rw [wp_bind, wp_askSeam]
      -- the rest of the round, once this holder gave no descriptor
      have hrest : ∀ (answer : Answer ModuleInfo) (reasons : HolderReasons) (tried : Nat),
          (∀ info, answer ≠ some (.ok info)) →
          wp (askDescriptors seams c excluded providers reasons tried)
            (fun r w' => r.1 ∉ excluded ∧ (∃ p ∈ provider :: providers, p.providerPeerId = r.1) ∧
              ∃ seg, w'.trace = w.trace ++ seg ++ [.ask (.getModuleInfo r.1 (some (.ok r.2)))] ∧
                (∀ e ∈ seg, e.IsDescriptorAsk ∧ ¬ e.IsDescriptor) ∧
                seams.getModuleInfo (w.trace ++ seg).length r.1 c = some (.ok r.2))
            (fun _ w' => ∃ seg, w'.trace = w.trace ++ seg ∧
              ∀ e ∈ seg, e.IsDescriptorAsk ∧ ¬ e.IsDescriptor)
            (w.note (.ask (.getModuleInfo provider.providerPeerId answer))) := by
        intro answer reasons tried hanswer
        have hkind : Effect.IsDescriptorAsk
              (.ask (.getModuleInfo provider.providerPeerId answer)) ∧
            ¬ Effect.IsDescriptor (.ask (.getModuleInfo provider.providerPeerId answer)) := by
          refine ⟨trivial, ?_⟩
          rcases answer with _ | (_ | info)
          · exact id
          · exact id
          · exact absurd rfl (hanswer info)
        refine (wp_askDescriptors excluded providers reasons tried _).mono ?_ ?_
        · rintro r w' ⟨hex, ⟨p, hp, hid⟩, seg, htrace, hseg, hans⟩
          refine ⟨hex, ⟨p, List.mem_cons_of_mem _ hp, hid⟩, _ :: seg, by simpa using htrace, ?_,
            by simpa using hans⟩
          simpa [or_imp, forall_and, hkind] using hseg
        · rintro e w' ⟨seg, htrace, hseg⟩
          refine ⟨_ :: seg, by simpa using htrace, ?_⟩
          simpa [or_imp, forall_and, hkind] using hseg
      cases ha : seams.getModuleInfo w.tick provider.providerPeerId c with
      | none => exact hrest none _ _ (by simp)
      | some answer =>
        cases answer with
        | ok info =>
          refine ⟨hnot, ⟨provider, List.mem_cons_self, rfl⟩, [], by simp, by simp, ?_⟩
          simpa [World.tick] using ha
        | error e =>
          dsimp only
          split
          · exact hrest (some (.error e)) _ _ (by simp)
          · exact ⟨[.ask (.getModuleInfo provider.providerPeerId (some (.error e)))], by simp,
              by simp [Effect.IsDescriptorAsk, Effect.IsDescriptor]⟩

theorem wp_fetchModuleInfo (excluded : List String) (w : PullWorld) :
    wp (fetchModuleInfo seams c excluded)
      (fun r w' => r.1 ∉ excluded ∧ (∃ p ∈ w.own, p.providerPeerId = r.1) ∧
        ∃ seg, w'.trace = w.trace ++ seg ++ [.ask (.getModuleInfo r.1 (some (.ok r.2)))] ∧
          (∀ e ∈ seg, e.IsDescriptorAsk ∧ ¬ e.IsDescriptor) ∧
          seams.getModuleInfo (w.trace ++ seg).length r.1 c = some (.ok r.2))
      (fun _ w' => ∃ seg, w'.trace = w.trace ++ seg ∧
        ∀ e ∈ seg, e.IsDescriptorAsk ∧ ¬ e.IsDescriptor) w :=
  wp_askDescriptors excluded w.own [] 0 w

/-! ## Fetching a chunk -/

theorem quiet_fetchChunkFrom (index : Nat) (peer : String) (offset len : Nat)
    (expected : String) :
    Steps (Quiet (Effect.IsFetchOf index)) (fetchChunkFrom seams c peer offset len expected) := by
  unfold fetchChunkFrom
  refine Steps.bind (quiet_askSeam fun _ => trivial) fun answer => ?_
  cases answer with
  | none => exact Steps.pure _
  | some answer =>
    cases answer with
    | error e => exact Steps.pure _
    | ok bytes =>
      dsimp only
      split
      · exact Steps.pure _
      split <;> exact Steps.pure _

theorem quiet_tryHolders (index offset len : Nat) (expected : String) :
    ∀ (peers : List String) (reasons : HolderReasons),
      Steps (Quiet (Effect.IsFetchOf index)) (tryHolders seams c offset len expected peers reasons)
  | [], reasons => Steps.pure _
  | peer :: peers, reasons => by
      unfold tryHolders
      refine Steps.bind (quiet_fetchChunkFrom index peer offset len expected) fun r => ?_
      cases r with
      | ok bytes => exact Steps.pure _
      | error reason => exact quiet_tryHolders index offset len expected peers _

theorem quiet_fetchVerifiedChunk (layout : ChunkPlan) (index : Nat) :
    Steps (Quiet (Effect.IsFetchOf index)) (fetchVerifiedChunk seams c info layout index) := by
  unfold fetchVerifiedChunk
  refine Steps.bind (fun _ => Quiet.note rfl) fun _ => Steps.bind Steps.read fun w => ?_
  refine Steps.bind (quiet_tryHolders index _ _ _ _ _) fun r => ?_
  cases r with
  | ok bytes => exact Steps.pure _
  | error reasons =>
    cases hid : moduleContentId c with
    | none => exact Steps.fail _
    | some content =>
      refine Steps.bind (Steps.bind (quiet_askSeam fun _ => trivial) fun r => Steps.ofExcept r)
        fun refreshed => Steps.bind ?_ fun _ => Steps.bind Steps.read fun w' => ?_
      · exact Steps.update fun w => ⟨rfl, rfl, [], by simp, by simp⟩
      refine Steps.bind (quiet_tryHolders index _ _ _ _ _) fun r => ?_
      cases r with
      | ok bytes => exact Steps.pure _
      | error reasons => exact Steps.fail _

/-- The bytes a holder answered with in this run, cut to the window that was asked for. -/
def ServedIn (trace : List (Effect ModuleAsk)) (bytes : Bytes) : Prop :=
  ∃ peer offset len answer, Effect.ask (.fetchModuleRange peer offset len (some (.ok answer))) ∈ trace ∧
    bytes = answer.take len

/-- What makes bytes acceptable as a chunk: the length and the hash. -/
def Attributed (seams : ModuleSeams) (len : Nat) (expected : String) (bytes : Bytes) : Prop :=
  bytes.length = len ∧ hexOf (seams.sha256 bytes) = expected

theorem wp_fetchChunkFrom (peer : String) (offset len : Nat) (expected : String) (w : PullWorld) :
    wp (fetchChunkFrom seams c peer offset len expected)
      (fun r w' => ∀ bytes, r = .ok bytes →
        Attributed seams len expected bytes ∧ ServedIn w'.trace bytes)
      (fun _ _ => False) w := by
  unfold fetchChunkFrom
  rw [wp_bind, wp_askSeam]
  cases ha : seams.fetchModuleRange w.tick peer c offset len with
  | none => simp
  | some answer =>
    cases answer with
    | error e => simp
    | ok answer =>
      dsimp only
      split
      · simp
      rename_i hlen
      split
      · simp
      rename_i hhash
      rw [wp_pure]
      rintro bytes hbytes
      cases hbytes
      exact ⟨⟨not_not.mp hlen, not_not.mp hhash⟩, peer, offset, len, answer, by simp, rfl⟩

theorem wp_tryHolders (offset len : Nat) (expected : String) :
    ∀ (peers : List String) (reasons : HolderReasons) (w : PullWorld),
      wp (tryHolders seams c offset len expected peers reasons)
        (fun r w' => ∀ bytes, r = .ok bytes →
          Attributed seams len expected bytes ∧ ServedIn w'.trace bytes)
        (fun _ _ => False) w
  | [], reasons, w => by simp [tryHolders]
  | peer :: peers, reasons, w => by
      unfold tryHolders
      rw [wp_bind]
      refine (wp_fetchChunkFrom peer offset len expected w).mono (fun r w' h => ?_) (fun _ _ h => h)
      cases r with
      | ok bytes =>
        rintro bytes' hbytes'
        cases hbytes'
        exact h bytes rfl
      | error reason => exact wp_tryHolders offset len expected peers _ w'

/-- A fetched chunk was served by a holder and is the chunk the descriptor describes. -/
theorem wp_fetchVerifiedChunk (layout : ChunkPlan) (index : Nat) (w : PullWorld) :
    wp (fetchVerifiedChunk seams c info layout index)
      (fun bytes w' => Attributed seams (layout.chunkSpan index).2 (info.chunkHashes.getD index "")
        bytes ∧ ServedIn w'.trace bytes)
      (fun _ _ => True) w := by
  unfold fetchVerifiedChunk
  rw [wp_bind, wp_markPull, wp_bind, wp_read, wp_bind]
  refine (wp_tryHolders _ _ _ _ _ _).mono (fun r w' h => ?_) (fun _ _ h => h.elim)
  cases r with
  | ok bytes => exact h bytes rfl
  | error reasons =>
    dsimp only
    cases hid : moduleContentId c with
    | none => trivial
    | some content =>
      dsimp only
      rw [wp_bind]
      refine wp.mono (Q := fun _ _ => True) (E := fun _ _ => True)
        (wp_of_forall (fun _ _ => trivial) (fun _ _ => trivial)) (fun refreshed w₁ _ => ?_)
        (fun _ _ _ => trivial)
      rw [wp_bind, wp_update, wp_bind, wp_read, wp_bind]
      refine (wp_tryHolders _ _ _ _ _ _).mono (fun r w₂ h => ?_) (fun _ _ h => h.elim)
      cases r with
      | ok bytes => exact h bytes rfl
      | error reasons => trivial

/-- `info` is the true descriptor of `module`: its size, its hash, and a chunking of it
with the hash of every chunk. -/
structure Describes (sha256 : Bytes → Bytes) (info : ModuleInfo) (module : Bytes) : Prop where
  size : module.length = info.totalSize
  lens_sum : info.chunkLens.sum = module.length
  hash : hexOf (sha256 module) = info.moduleHash
  hashes_length : info.chunkHashes.length = info.chunkLens.length
  chunks : ∀ i < info.chunkLens.length,
    hexOf (sha256 (slice module (start info.chunkLens i) (info.chunkLens.getD i 0)))
      = info.chunkHashes.getD i ""

/-! ## Reading a chunk back -/

/-- A resumed chunk is what is staged, and is the chunk the descriptor describes. -/
theorem wp_resumedChunk (checkpointed : Finset Nat) (index offset len : Nat) (w : PullWorld) :
    wp (resumedChunk seams info checkpointed index offset len)
      (fun r w' => (w' = w ∨ ∃ a, w' = w.note (.readAt offset len a)) ∧
        ∀ bytes, r = some bytes → index ∈ checkpointed ∧ w.sink.read offset len = .ok bytes ∧
          Attributed seams len (info.chunkHashes.getD index "") bytes ∧
          w' = w.note (.readAt offset len (some bytes)))
      (fun _ _ => False) w := by
  unfold resumedChunk
  split
  · rename_i hdone
    unfold readBackVerifiedChunk
    rw [wp_handle]
    refine wp_sinkReadAt (fun bytes hread => ?_) (fun e => ?_)
    · dsimp only
      split
      · exact ⟨Or.inr ⟨_, rfl⟩, by simp⟩
      · rename_i hgood
        obtain ⟨hlen, hhash⟩ := not_or.mp hgood
        refine ⟨Or.inr ⟨_, rfl⟩, fun bytes' hbytes' => ?_⟩
        cases hbytes'
        exact ⟨hdone, hread, ⟨not_not.mp hlen, not_not.mp hhash⟩, rfl⟩
    · exact ⟨Or.inr ⟨_, rfl⟩, by simp⟩
  · exact ⟨Or.inl rfl, by simp⟩

/-! ## Entering the staging loop -/

/-- A pull up to its staging loop: the plan, and the checkpoint that is resumed. -/
def enterStaging (seams : ModuleSeams) (c : Capsule) (info : ModuleInfo) :
    Prog PullWorld PullFailure (ChunkPlan × DownloadState) := do
  let reserved ← askSeam (fun t => seams.reserve t info.chunkLens.length)
    (.reserve info.chunkLens.length)
  let layout ← Prog.ofExcept
    (ChunkPlan.fromInfo info seams.config.maxModuleSize fun _ => reserved)
  let resume ← orTerminal (loadOrFreshState seams (moduleDownloadKey c) layout)
  if resume.resumesStaging then
    pure (layout, resume.state)
  else do
    orTerminal (sinkTruncate seams.host 0)
    pure (layout, resume.state)

/-- A pull enters the staging loop, and stages and promotes. -/
theorem pullWithDescriptor_eq_stages (seams : ModuleSeams) (c : Capsule) (info : ModuleInfo) :
    pullWithDescriptor seams c info = (do
      let entered ← enterStaging seams c info
      pullWithDescriptor.stageAndPromote seams c info entered.1 entered.2) := by
  rw [pullWithDescriptor, enterStaging]
  simp only [LawfulMonad.bind_assoc]
  congr 1
  funext reserved
  congr 1
  funext layout
  congr 1
  funext resume
  split
  · rw [LawfulMonad.pure_bind]
  · simp only [LawfulMonad.bind_assoc, LawfulMonad.pure_bind]

section Entering

variable (seams : ModuleSeams) (c : Capsule) (info : ModuleInfo) (w : PullWorld)

/-- The descriptor's plan, with what the allocator answers at the start of the pull. -/
def planAt : Except PullFailure ChunkPlan :=
  ChunkPlan.fromInfo info seams.config.maxModuleSize
    fun _ => seams.reserve w.tick info.chunkLens.length

/-- The run once the allocator has answered. -/
def afterReserve : PullWorld :=
  w.note (.ask (.reserve info.chunkLens.length (seams.reserve w.tick info.chunkLens.length)))

/-- The run once the checkpoint was loaded, or could not be. -/
def afterLoad (ok : Bool) : PullWorld :=
  (afterReserve seams info w).note (.load (moduleDownloadKey c) ok)

/-- How the staging loop starts: with a checkpoint of the plan and what is staged, or with
neither. -/
inductive Enters (layout : ChunkPlan) : DownloadState → PullWorld → Prop where
  | resumed {prev : DownloadState} (hplan : planAt seams info w = .ok layout)
      (hload : w.store.checkpoints (moduleDownloadKey c) = some prev)
      (hsame : prev.chunkLens = layout.chunkLens) :
      Enters layout prev (afterLoad seams c info w true)
  | fresh (hplan : planAt seams info w = .ok layout)
      (hother : ∀ prev, w.store.checkpoints (moduleDownloadKey c) = some prev →
        prev.chunkLens ≠ layout.chunkLens) :
      Enters layout
        { DownloadState.new (moduleDownloadKey c) with
          totalLength := layout.totalSize, chunkLens := layout.chunkLens }
        ({ afterLoad seams c info w true with sink := w.sink.shorten 0 }.note (.truncate 0 true))

/-- How a pull fails before its staging loop. -/
inductive EntryFails : PullFailure → PullWorld → Prop where
  | plan {f : PullFailure} (hplan : planAt seams info w = .error f) :
      EntryFails f (afterReserve seams info w)
  | load {layout : ChunkPlan} {e : DownloadError} (hplan : planAt seams info w = .ok layout)
      (hfault : seams.host.load (afterReserve seams info w).tick = some e) :
      EntryFails (.terminal e) (afterLoad seams c info w false)
  | truncate {layout : ChunkPlan} {e : DownloadError} (hplan : planAt seams info w = .ok layout)
      (hfault : seams.host.truncate (afterLoad seams c info w true).tick = some e) :
      EntryFails (.terminal e) ((afterLoad seams c info w true).note (.truncate 0 false))

/-- Before its staging loop a pull plans, loads its checkpoint, and drops what is staged if the
checkpoint is not one of the plan. -/
theorem wp_enterStaging :
    wp (enterStaging seams c info) (fun entered => Enters seams c info w entered.1 entered.2)
      (EntryFails seams c info w) w := by
  rw [enterStaging, wp_bind, wp_askSeam, wp_bind]
  cases hplan : planAt seams info w with
  | error f =>
    rw [planAt] at hplan
    rw [hplan]
    exact .plan hplan
  | ok layout =>
    have hfresh : (∀ prev, w.store.checkpoints (moduleDownloadKey c) = some prev →
          prev.chunkLens ≠ layout.chunkLens) →
        wp (do
            orTerminal (sinkTruncate seams.host 0)
            pure (layout, { DownloadState.new (moduleDownloadKey c) with
              totalLength := layout.totalSize, chunkLens := layout.chunkLens }))
          (fun entered => Enters seams c info w entered.1 entered.2) (EntryFails seams c info w)
          (afterLoad seams c info w true) := by
      intro hother
      rw [wp_bind, wp_orTerminal]
      exact wp_sinkTruncate_cases (fun _ => .fresh hplan hother) fun e => .truncate hplan
    have hplan' := hplan
    rw [planAt] at hplan'
    rw [hplan', wp_ofExcept_ok, wp_bind, wp_orTerminal, loadOrFreshState]
    dsimp only
    rw [wp_bind]
    refine wp_storeLoad_cases (fun _ => ?_) fun e => .load hplan
    rw [World.note_store]
    cases hload : w.store.checkpoints (moduleDownloadKey c) with
    | none => exact hfresh (by simp [hload])
    | some prev =>
      dsimp only
      split
      · rename_i hsame
        exact .resumed hplan hload hsame
      · rename_i hother
        refine hfresh fun prev' hprev' => ?_
        rw [hload] at hprev'
        cases hprev'
        exact hother

variable {seams c info w}

/-- On a sound host only the plan can fail. -/
theorem EntryFails.plan_of_sound {f : PullFailure} {w' : PullWorld}
    (h : EntryFails seams c info w f w') (hs : seams.host.Sound) :
    planAt seams info w = .error f ∧ w' = afterReserve seams info w := by
  cases h with
  | plan hplan => exact ⟨hplan, rfl⟩
  | load hplan hfault => simp [hs.load] at hfault
  | truncate hplan hfault => simp [hs.truncate] at hfault

theorem quiet_afterReserve : Quiet Effect.IsEntering w (afterReserve seams info w) :=
  ⟨rfl, rfl, [.ask (.reserve _ _)], rfl, by simp [Effect.IsEntering]⟩

theorem quiet_afterLoad (ok : Bool) : Quiet Effect.IsEntering w (afterLoad seams c info w ok) :=
  IsTrans.trans _ _ _ quiet_afterReserve
    ⟨rfl, rfl, [.load _ ok], rfl, by simp [Effect.IsEntering]⟩

theorem EntryFails.quiet {f : PullFailure} {w' : PullWorld}
    (h : EntryFails seams c info w f w') : Quiet Effect.IsEntering w w' := by
  cases h with
  | plan => exact quiet_afterReserve
  | load => exact quiet_afterLoad false
  | truncate =>
    exact IsTrans.trans _ _ _ (quiet_afterLoad true)
      ⟨rfl, rfl, [.truncate 0 false], rfl, by simp [Effect.IsEntering]⟩

section Enters

variable {layout : ChunkPlan} {state : DownloadState} {w' : PullWorld}

theorem Enters.plan (h : Enters seams c info w layout state w') :
    planAt seams info w = .ok layout := by
  cases h with
  | resumed hplan | fresh hplan => exact hplan

theorem Enters.chunkLens (h : Enters seams c info w layout state w') :
    state.chunkLens = layout.chunkLens := by
  cases h with
  | resumed hplan hload hsame => exact hsame
  | fresh => rfl

theorem Enters.own (h : Enters seams c info w layout state w') : w'.own = w.own := by
  cases h with
  | resumed | fresh => rfl

theorem Enters.store (h : Enters seams c info w layout state w') : w'.store = w.store := by
  cases h with
  | resumed | fresh => rfl

theorem Enters.appends (h : Enters seams c info w layout state w') :
    Appends Effect.IsEntering w w' := by
  cases h with
  | resumed => exact (quiet_afterLoad true).appends
  | fresh =>
    exact IsTrans.trans _ _ _ (quiet_afterLoad true).appends
      ⟨[.truncate 0 true], rfl, by simp [Effect.IsEntering]⟩

end Enters

/-- A pull is what its staging loop and its gates are, wherever that loop can start. -/
theorem wp_pullWithDescriptor_stages {Q : Nat → PullWorld → Prop}
    {E : PullFailure → PullWorld → Prop} (hentry : ∀ f w', EntryFails seams c info w f w' → E f w')
    (hrest : ∀ layout state w', Enters seams c info w layout state w' →
      wp (pullWithDescriptor.stageAndPromote seams c info layout state) Q E w') :
    wp (pullWithDescriptor seams c info) Q E w := by
  rw [pullWithDescriptor_eq_stages, wp_bind]
  exact (wp_enterStaging seams c info w).mono (fun entered w' h => hrest _ _ w' h) hentry

end Entering

/-! ## How a call begins -/

section Beginning

variable {Q : Nat → PullWorld → Prop} {E : DownloadError → PullWorld → Prop}

/-- The verdicts are those in the store, or none if they cannot be read. -/
theorem wp_rememberedVerdicts_reads {key : String} {Q : List String → PullWorld → Prop}
    (hok : Q (livePeers (w.store.verdicts key) (seams.host.unixNow w.tick))
      (w.note (.badDescriptorPeers key true)))
    (herr : Q [] (w.note (.badDescriptorPeers key false))) :
    wp (rememberedVerdicts seams key) Q E w := by
  rw [rememberedVerdicts, wp_handle]
  exact wp_storeBadDescriptorPeers hok fun _ => herr

/-- A call ends without an attempt, or gets to its first one with holders and verdicts. -/
theorem wp_download_begins (hnone : moduleContentId c = none → E .notDownloadable w)
    (hlost : ∀ id e, moduleContentId c = some id → seams.findProviders w.tick id = .error e →
      E e (w.note (.ask (.findProviders (.error e)))))
    (hempty : ∀ id, moduleContentId c = some id → seams.findProviders w.tick id = .ok [] →
      E (.notFound (moduleDownloadKey c)) (w.note (.ask (.findProviders (.ok [])))))
    (hattempts : ∀ id located, moduleContentId c = some id →
      seams.findProviders w.tick id = .ok located → located ≠ [] →
      wp (rememberedVerdicts seams (moduleDownloadKey c))
        (fun remembered w₁ => wp (attemptLoop seams c (maxDescriptorAttempts - 1)
          (.new remembered)) Q E w₁) E
        { w.note (.ask (.findProviders (.ok located))) with own := located }) :
    wp (download seams c) Q E w := by
  rw [download]
  cases hid : moduleContentId c with
  | none => exact hnone hid
  | some id =>
    dsimp only
    rw [wp_bind, show wp (Prog.bind _ _) _ _ _ ↔ _ from wp_bind _ _, wp_askSeam]
    cases hlocated : seams.findProviders w.tick id with
    | error e => exact hlost id e hid hlocated
    | ok located =>
      rw [wp_ofExcept_ok]
      by_cases hne : located = []
      · subst hne
        exact hempty id hid hlocated
      · rw [if_neg hne, wp_bind, wp_update, wp_bind]
        exact hattempts id located hid hlocated hne

/-- What holds at the start of a call, and whatever the locator and the store answer, holds
at the head of its attempts. -/
theorem wp_download_of_invariant {I : PullWorld → Prop} (h : I w)
    (hlocator : ∀ {w answer}, I w → I (w.note (.ask (.findProviders answer))))
    (hown : ∀ {w located}, I w → I { w with own := located })
    (hverdicts : ∀ {w ok}, I w → I (w.note (.badDescriptorPeers (moduleDownloadKey c) ok)))
    (hfail : ∀ {w e}, I w → E e w)
    (hattempts : ∀ remembered w, I w →
      wp (attemptLoop seams c (maxDescriptorAttempts - 1) (.new remembered)) Q E w) :
    wp (download seams c) Q E w := by
  refine wp_download_begins (fun _ => hfail h) (fun _ _ _ _ => hfail (hlocator h))
    (fun _ _ _ => hfail (hlocator h)) fun id located _ _ _ => ?_
  have hlocated : I { w.note (.ask (.findProviders (.ok located))) with own := located } :=
    hown (hlocator h)
  exact wp_rememberedVerdicts_reads (hattempts _ _ (hverdicts hlocated))
    (hattempts _ _ (hverdicts hlocated))

end Beginning

/-! ## What every pull does -/

/-- A relation that holds across everything a pull does: its effects, whatever they do to
the sink and the store, and the holders it learns of. -/
structure ClosedUnderPull (seams : ModuleSeams) (R : PullWorld → PullWorld → Prop) : Prop where
  effect : ClosedUnder (fun e => ¬ Effect.IsBetween e) R
  learn : ∀ (w : PullWorld) t id fresh, seams.findProviders t id = .ok fresh →
    R w { w with own := mergeNewProviders w.own fresh }

/-- The locator is asked, and answers. -/
theorem run_findProviders {id : ContentId} {located : List ProviderRecord}
    (h : seams.findProviders w.tick id = .ok located) :
    Prog.bind (askSeam (seams.findProviders · id) .findProviders) Prog.ofExcept w
      = ((.ok located : Except DownloadError _), w.note (.ask (.findProviders (.ok located)))) := by
  simp [Prog.bind, askSeam, h, Prog.ofExcept]

section Closed

variable {R : PullWorld → PullWorld → Prop}

theorem steps_askSeam (hR : ClosedUnderPull seams R) {seam : Nat → α} {asked : α → ModuleAsk}
    (h : ∀ a, ¬ Effect.IsBetween (.ask (asked a))) :
    Steps R (askSeam seam asked : Prog PullWorld ε α) := fun w => hR.effect.note w (h _) trivial

variable [Std.Refl R] [IsTrans PullWorld R]

theorem steps_orTerminal {m : PullM α} (h : Steps R m) : Steps R (orTerminal m) :=
  Steps.handle h fun r => by
    cases r with
    | ok a => exact Steps.pure a
    | error e => exact Steps.fail _

theorem steps_tryHolders (hR : ClosedUnderPull seams R) (offset len : Nat) (expected : String) :
    ∀ (peers : List String) (reasons : HolderReasons),
      Steps R (tryHolders seams c offset len expected peers reasons)
  | [], reasons => Steps.pure _
  | peer :: peers, reasons => by
      unfold tryHolders fetchChunkFrom
      refine Steps.bind (Steps.bind (steps_askSeam hR fun _ => id) fun answer => ?_) fun r => ?_
      · cases answer with
        | none => exact Steps.pure _
        | some answer =>
          cases answer with
          | error e => exact Steps.pure _
          | ok bytes =>
            dsimp only
            split
            · exact Steps.pure _
            split <;> exact Steps.pure _
      · cases r with
        | ok bytes => exact Steps.pure _
        | error reason => exact steps_tryHolders hR offset len expected peers _

theorem steps_fetchVerifiedChunk (hR : ClosedUnderPull seams R) (layout : ChunkPlan) (index : Nat) :
    Steps R (fetchVerifiedChunk seams c info layout index) := by
  unfold fetchVerifiedChunk
  refine Steps.bind (fun w => hR.effect.note w id trivial) fun _ => Steps.bind Steps.read fun w =>
    Steps.bind (steps_tryHolders hR _ _ _ _ _) fun r => ?_
  cases r with
  | ok bytes => exact Steps.pure _
  | error reasons =>
    cases moduleContentId c with
    | none => exact Steps.fail _
    | some content =>
      refine steps_of_wp fun w₁ => ?_
      have hask := hR.effect.note w₁ (e := .ask (.findProviders (seams.findProviders w₁.tick content)))
        id trivial
      rw [wp_bind, show wp (Prog.bind _ _) _ _ _ ↔ _ from wp_bind _ _, wp_askSeam]
      cases hanswer : seams.findProviders w₁.tick content with
      | error e =>
        rw [hanswer] at hask
        exact hask
      | ok refreshed =>
        rw [hanswer] at hask
        have hlearnt := IsTrans.trans _ _ _ hask (hR.learn _ _ _ refreshed hanswer)
        rw [wp_ofExcept_ok, wp_bind, wp_update, wp_bind, wp_read, wp_bind]
        refine ((steps_tryHolders hR _ _ _ _ _).wp _).mono (fun r w₂ h₂ => ?_)
          (fun _ _ h₂ => IsTrans.trans _ _ _ hlearnt h₂)
        cases r with
        | ok bytes => exact IsTrans.trans _ _ _ hlearnt h₂
        | error reasons => exact IsTrans.trans _ _ _ hlearnt h₂

theorem steps_stageChunk (hR : ClosedUnderPull seams R) (layout : ChunkPlan)
    (checkpointed : Finset Nat) (acc : Staging) (index : Nat) :
    Steps R (stageChunk seams c info layout checkpointed acc index) := by
  unfold stageChunk
  dsimp only
  refine Steps.bind (steps_orTerminal ?_) fun staged => ?_
  · unfold resumedChunk readBackVerifiedChunk
    split
    · refine Steps.handle (steps_sinkReadAt hR.effect fun _ => id) fun r => ?_
      cases r with
      | ok bytes =>
        dsimp only
        split <;> exact Steps.pure _
      | error e => exact Steps.pure _
    · exact Steps.pure _
  cases staged with
  | some bytes => exact Steps.pure _
  | none =>
    refine Steps.bind (Steps.handle (steps_fetchVerifiedChunk hR _ _) fun r => ?_) fun bytes =>
      Steps.bind (steps_orTerminal (steps_sinkWriteAt hR.effect fun _ _ => id)) fun _ =>
        Steps.bind (steps_orTerminal (steps_storeSave hR.effect fun _ => id)) fun _ =>
          Steps.pure _
    cases r with
    | ok bytes => exact Steps.pure _
    | error e =>
      dsimp only
      split <;> exact Steps.fail _

theorem steps_promoteModule {K : Effect ModuleAsk → Prop} (hR : ClosedUnder K R)
    (hK : ∀ e, Effect.IsGating e → K e) (key : String) (total : Nat) :
    Steps R (promoteModule seams key total) := by
  unfold promoteModule
  refine Steps.handle (steps_promoteVerified hR (fun _ => hK _ trivial) (fun _ _ _ => hK _ trivial)
    fun _ => hK _ trivial) fun r => ?_
  cases r with
  | ok u =>
    exact Steps.bind (steps_orTerminal (steps_storeClear hR fun _ => hK _ trivial)) fun _ =>
      Steps.pure _
  | error e =>
    exact Steps.bind (steps_ignoringFailure (steps_storeClear hR fun _ => hK _ trivial)) fun _ =>
      Steps.bind (steps_ignoringFailure (steps_sinkTruncate hR fun _ => hK _ trivial)) fun _ =>
        Steps.fail _

theorem steps_gateAndPromote {K : Effect ModuleAsk → Prop} (hR : ClosedUnder K R)
    (hK : ∀ e, Effect.IsGating e → K e) (layout : ChunkPlan) (hashed : Bytes) :
    Steps R (gateAndPromote seams c info layout hashed) := by
  unfold gateAndPromote
  dsimp only
  refine Steps.bind (fun w => hR.note w (hK _ trivial) trivial) fun _ => ?_
  split
  · exact Steps.fail _
  refine Steps.bind Steps.read fun w => ?_
  split
  · exact Steps.fail _
  refine Steps.bind (fun w => hR.note w (hK _ trivial) trivial) fun answer => ?_
  cases answer with
  | notAnchored => exact Steps.fail _
  | unavailable reason => exact Steps.fail _
  | anchored => exact steps_promoteModule hR hK _ _

/-- A whole pull stays within a relation that each of its parts stays in. -/
theorem steps_pullWithDescriptor (hR : ClosedUnderPull seams R) :
    Steps R (pullWithDescriptor seams c info) := by
  have hrest : ∀ (layout : ChunkPlan) (state : DownloadState),
      Steps R (pullWithDescriptor.stageAndPromote seams c info layout state) :=
    fun layout state => Steps.bind (Steps.foldlM (fun _ _ => steps_stageChunk hR _ _ _ _) _ _)
      fun _ => steps_gateAndPromote hR.effect (fun _ => Effect.IsGating.not_isBetween) _ _
  unfold pullWithDescriptor
  refine Steps.bind (steps_askSeam hR fun _ => id) fun reserved => Steps.bind (Steps.ofExcept _)
    fun layout => Steps.bind (steps_orTerminal ?_) fun resume => ?_
  · unfold loadOrFreshState
    dsimp only
    refine Steps.bind (steps_storeLoad hR.effect fun _ => id) fun prev => ?_
    cases prev with
    | none => exact Steps.pure _
    | some prev =>
      dsimp only
      split <;> exact Steps.pure _
  · split
    · exact hrest layout resume.state
    · exact Steps.bind (steps_orTerminal (steps_sinkTruncate hR.effect fun _ => id)) fun _ =>
        hrest layout resume.state

/-- A verdict is all that is recorded about a failed pull. -/
theorem steps_recordIfProvenFalse {K : Effect ModuleAsk → Prop} (hR : ClosedUnder K R)
    (hK : ∀ key peer ok, K (.recordBadDescriptor key peer ok)) (key source : String)
    (f : PullFailure) : Steps R (recordIfProvenFalse seams key source f) := by
  unfold recordIfProvenFalse
  split
  · exact steps_ignoringFailure (steps_storeRecordBadDescriptor hR fun _ => hK _ _ _)
  · exact Steps.pure _

end Closed

/-- A stretch of a pull adds to the trace, and nothing that only the attempt loop does. -/
theorem closedUnderPull_appends :
    ClosedUnderPull seams (Appends fun e => ¬ Effect.IsBetween e) :=
  ⟨closedUnder_appends, fun _ _ _ _ _ => ⟨[], by simp, by simp⟩⟩

/-! ## What every run does -/

/-- A relation that holds across everything a run does. -/
structure ClosedUnderRun (R : PullWorld → PullWorld → Prop) : Prop where
  effect : ClosedUnder (fun _ => True) R
  learn : ∀ w providers, R w { w with own := providers }

/-- A relation that holds across everything the attempts of a run do. They learn of holders only
by merging. -/
structure ClosedUnderAttempts (seams : ModuleSeams) (R : PullWorld → PullWorld → Prop) :
    Prop where
  effect : ClosedUnder (fun _ => True) R
  learn : ∀ (w : PullWorld) t id fresh, seams.findProviders t id = .ok fresh →
    R w { w with own := mergeNewProviders w.own fresh }

theorem ClosedUnderAttempts.pull {R : PullWorld → PullWorld → Prop}
    (hR : ClosedUnderAttempts seams R) : ClosedUnderPull seams R :=
  ⟨hR.effect.mono fun _ _ => trivial, hR.learn⟩

theorem ClosedUnderRun.attempts {R : PullWorld → PullWorld → Prop} (hR : ClosedUnderRun R) :
    ClosedUnderAttempts seams R := ⟨hR.effect, fun w _ _ _ _ => hR.learn w _⟩

theorem ClosedUnderRun.pull {R : PullWorld → PullWorld → Prop} (hR : ClosedUnderRun R) :
    ClosedUnderPull seams R := hR.attempts.pull

section ClosedRun

variable {R : PullWorld → PullWorld → Prop} [Std.Refl R] [IsTrans PullWorld R]

theorem steps_descriptorAttempt (hR : ClosedUnderAttempts seams R) (exclusions : DescriptorExclusions) :
    Steps R (descriptorAttempt seams c exclusions) := by
  refine Steps.bind Steps.read fun w => Steps.handle (steps_fetchModuleInfo ?_ _) fun r => ?_
  · intro w e he
    refine hR.effect.note w trivial ?_
    unfold Effect.Silent
    split <;> trivial
  cases r with
  | error e => exact Steps.pure _
  | ok r =>
    refine Steps.handle (steps_pullWithDescriptor hR.pull) fun r' => ?_
    have hdemote : ∀ (f : PullFailure) (failed : PullWorld → FailedAttempt),
        Steps R (do
          recordIfProvenFalse seams (moduleDownloadKey c) r.1 f
          markPull (.demote r.1)
          let w ← Prog.read
          pure (.inr (failed w)) : PullM (Nat ⊕ FailedAttempt)) := by
      intro f failed
      exact Steps.bind (steps_recordIfProvenFalse hR.effect (fun _ _ _ => trivial) _ _ _) fun _ =>
        Steps.bind (fun w => hR.effect.note w trivial trivial) fun _ =>
          Steps.bind Steps.read fun w => Steps.pure _
    cases r' with
    | ok len => exact Steps.pure _
    | error f =>
      cases f with
      | terminal e => exact Steps.fail e
      | badDescriptor e => exact hdemote _ _
      | unsatisfiableDescriptor e => exact hdemote _ _

theorem steps_attemptLoop (hR : ClosedUnderAttempts seams R) :
    ∀ (left : Nat) (exclusions : DescriptorExclusions),
      Steps R (attemptLoop seams c left exclusions)
  | 0, exclusions => by
      unfold attemptLoop
      refine Steps.bind (steps_descriptorAttempt hR exclusions) fun r => ?_
      cases r with
      | inl len => exact Steps.pure len
      | inr failed => exact Steps.fail _
  | left + 1, exclusions => by
      unfold attemptLoop
      refine Steps.bind (steps_descriptorAttempt hR exclusions) fun r => ?_
      cases r with
      | inl len => exact Steps.pure len
      | inr failed =>
        dsimp only
        split
        · exact Steps.fail _
        · exact steps_attemptLoop hR left failed.exclusions

theorem steps_rememberedVerdicts (hR : ClosedUnder (fun _ => True) R) (key : String) :
    Steps R (rememberedVerdicts seams key) :=
  Steps.handle (steps_storeBadDescriptorPeers hR fun _ => trivial) fun r => by
    cases r with
    | ok peers => exact Steps.pure peers
    | error e => exact Steps.pure []

end ClosedRun

/-- A state and a later one of the same run. -/
abbrev Extends : PullWorld → PullWorld → Prop := Appends fun _ => True

theorem Extends.subset {w' : PullWorld} (h : Extends w w') : ∀ e ∈ w.trace, e ∈ w'.trace := by
  obtain ⟨seg, hseg, -⟩ := h
  intro e he
  rw [hseg]
  exact List.mem_append_left _ he

theorem closedUnderRun_extends : ClosedUnderRun Extends :=
  ⟨closedUnder_appends, fun _ _ => ⟨[], by simp, by simp⟩⟩

theorem closedUnderRun_replays : ClosedUnderRun Replays :=
  ⟨closedUnder_replays, fun _ _ => ⟨[], by simp⟩⟩

end Parts

end DigDownload
