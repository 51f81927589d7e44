import DigDownload.Module.Integrity

/-!
# True descriptors

A descriptor is true when it describes a module that is anchored under the capsule.
What a true descriptor needs of the world around it is stated here once: that no
byte string seen in the run collides with a piece of the module, and that the
anchor verifier never denies a module it could only read faithfully. Under these,
the staging loop absorbs the module itself, so neither gate finds anything wrong.
-/

namespace DigDownload

open Slices Tiling Prog

/-! ## The assumptions -/

/-- The byte strings that were hashed as candidates for a chunk: served by a holder, or
read back from the staging area. -/
def Seen (trace : List (Effect ModuleAsk)) (bytes : Bytes) : Prop :=
  ServedIn trace bytes ∨ ∃ off len, Effect.readAt off len (some bytes) ∈ trace

/-- Nothing seen in the run has the hash of a piece of the module without being it. -/
def NoCollision (sha256 : Bytes → Bytes) (trace : List (Effect ModuleAsk)) (module : Bytes) :
    Prop :=
  ∀ bytes, Seen trace bytes → ∀ off len,
    hexOf (sha256 bytes) = hexOf (sha256 (slice module off len)) → bytes = slice module off len

/-- The verifier does not deny an anchored module that it could only read faithfully. -/
def AnchorNeverDenies (seams : ModuleSeams) (c : Capsule) (isModule : Bytes → Prop) : Prop :=
  ∀ t module reader, isModule module → ModuleReader.ReadsOnly reader module →
    seams.verifyModuleAnchor t reader c ≠ .notAnchored

/-- The limits this node puts on any descriptor, true or not. -/
structure WithinLimits (config : ModuleDownloadConfig) (info : ModuleInfo) : Prop where
  size_le : info.totalSize ≤ config.maxModuleSize
  lens_ne_nil : info.chunkLens ≠ []
  count_le : info.chunkLens.length ≤ maxModuleChunkCount

section Truth

variable {seams : ModuleSeams} {c : Capsule} {info : ModuleInfo} {layout : ChunkPlan}
  {module : Bytes} {acc : Staging} {w w' : PullWorld} {n : Nat}

theorem ServedIn.mono {trace trace' : List (Effect ModuleAsk)} {bytes : Bytes}
    (h : ServedIn trace bytes) (hsub : ∀ e ∈ trace, e ∈ trace') : ServedIn trace' bytes := by
  obtain ⟨peer, off, len, answer, hmem, hbytes⟩ := h
  exact ⟨peer, off, len, answer, hsub _ hmem, hbytes⟩

theorem Seen.mono {trace trace' : List (Effect ModuleAsk)} {bytes : Bytes} (h : Seen trace bytes)
    (hsub : ∀ e ∈ trace, e ∈ trace') : Seen trace' bytes := by
  rcases h with h | ⟨off, len, hmem⟩
  · exact Or.inl (h.mono hsub)
  · exact Or.inr ⟨off, len, hsub _ hmem⟩

theorem NoCollision.of_subset {sha256 : Bytes → Bytes} {trace trace' : List (Effect ModuleAsk)}
    (h : NoCollision sha256 trace' module) (hsub : ∀ e ∈ trace, e ∈ trace') :
    NoCollision sha256 trace module := fun bytes hseen => h bytes (hseen.mono hsub)

theorem NoCollision.of_appends {K : Effect ModuleAsk → Prop}
    (h : NoCollision seams.sha256 w'.trace module) (ha : Appends K w w') :
    NoCollision seams.sha256 w.trace module := by
  obtain ⟨seg, hseg, -⟩ := ha
  exact h.of_subset fun e he => by rw [hseg]; exact List.mem_append_left _ he

/-- A true descriptor is accepted exactly within the limits. -/
theorem Describes.acceptable_iff {config : ModuleDownloadConfig}
    (h : Describes seams.sha256 info module) :
    ChunkPlan.Acceptable info config.maxModuleSize ↔ WithinLimits config info := by
  constructor
  · exact fun ha => ⟨ha.size_le, ha.lens_ne_nil, ha.count_le⟩
  · exact fun hl => ⟨hl.size_le, hl.lens_ne_nil, hl.count_le, h.hashes_length.symm,
      h.lens_sum.trans h.size, Nat.le_trans hl.size_le config.maxModuleSize_le⟩

/-! ## Staging under a true descriptor -/

/-- What a turn of the staging loop absorbs was seen and is attributed. -/
theorem wp_stageChunk_absorbs (checkpointed : Finset Nat) (acc : Staging) (n : Nat)
    (w : PullWorld) :
    wp (stageChunk seams c info layout checkpointed acc n)
      (fun acc' w' => ∃ bytes, acc'.hashed = acc.hashed ++ bytes ∧ Seen w'.trace bytes ∧
        Attributed seams (layout.chunkSpan n).2 (info.chunkHashes.getD n "") bytes)
      (fun f _ => f.isProvenFalse = false) w := by
  unfold stageChunk
  dsimp only
  rw [wp_bind, wp_orTerminal]
  refine (wp_resumedChunk checkpointed n _ _ w).mono ?_ (fun _ _ h => h.elim)
  rintro r w₁ ⟨-, hres⟩
  cases r with
  | some bytes =>
    obtain ⟨-, -, hattr, rfl⟩ := hres bytes rfl
    exact ⟨bytes, rfl, Or.inr ⟨(layout.chunkSpan n).1, (layout.chunkSpan n).2, by simp⟩, hattr⟩
  | none =>
    dsimp only
    rw [wp_bind, wp_handle]
    refine (wp_fetchVerifiedChunk layout n w₁).mono ?_ ?_
    · rintro bytes w₂ ⟨hattr, hserved⟩
      rw [wp_pure, wp_bind, wp_orTerminal]
      refine wp_sinkWriteAt (fun _ => ?_) (fun _ _ => rfl)
      rw [wp_bind, wp_orTerminal]
      refine wp_storeSave ?_ (fun _ => rfl)
      exact ⟨bytes, rfl, Or.inl (hserved.mono fun e he => by simp [he]), hattr⟩
    · rintro e w₂ -
      dsimp only
      split <;> rfl

/-- A seen and attributed chunk is the chunk of the module. -/
theorem Describes.chunk_eq (h : Describes seams.sha256 info module)
    (hlens : layout.chunkLens = info.chunkLens) (hn : n < layout.chunkCount) {bytes : Bytes}
    (hno : NoCollision seams.sha256 w.trace module) (hseen : Seen w.trace bytes)
    (ha : Attributed seams (layout.chunkSpan n).2 (info.chunkHashes.getD n "") bytes) :
    bytes = slice module (layout.chunkSpan n).1 (layout.chunkSpan n).2 := by
  have hn' : n < info.chunkLens.length := by
    rw [← hlens]
    exact hn
  refine hno bytes hseen _ _ ?_
  have hchunk := h.chunks n hn'
  rw [← hlens] at hchunk
  have hspan := layout.chunkSpan_of_lt hn
  have hget : layout.chunkLens.getD n 0 = (layout.chunkSpan n).2 := rfl
  rw [hspan]
  rw [hget, hspan] at hchunk
  rw [ha.2, hchunk]

/-- Under a true descriptor the loop absorbs the module, as long as nothing collides. -/
theorem wp_stageChunks_true (hd : Describes seams.sha256 info module)
    (hlens : layout.chunkLens = info.chunkLens) (checkpointed : Finset Nat)
    (state : DownloadState) (w : PullWorld) :
    wp ((List.range layout.chunkCount).foldlM (stageChunk seams c info layout checkpointed)
        { state, hashed := [], anyChunkVerified := false })
      (fun acc' w' => NoCollision seams.sha256 w'.trace module → acc'.hashed = module)
      (fun f _ => f.isProvenFalse = false) w := by
  have hloop := wp_foldlM_range (f := stageChunk seams c info layout checkpointed)
    (I := fun n acc' w' => NoCollision seams.sha256 w'.trace module →
      acc'.hashed = module.take (start layout.chunkLens n))
    (E := fun f _ => f.isProvenFalse = false)
    (b := { state, hashed := [], anyChunkVerified := false }) (s := w) (fun _ => by simp)
    layout.chunkCount ?_
  · refine hloop.mono (fun acc' w' h hno => ?_) (fun _ _ h => h)
    rw [h hno, layout.start_chunkCount, ← layout.lens_sum, hlens, hd.lens_sum, List.take_length]
  · intro n hn acc w₁ hacc
    refine ((wp_stageChunk_absorbs checkpointed acc n w₁).and
      ((steps_stageChunk closedUnderPull_appends layout checkpointed acc n).wp w₁)).mono ?_
        (fun _ _ h => h.1)
    rintro acc' w₂ ⟨⟨bytes, hhashed, hseen, hattr⟩, happ⟩ hno
    rw [hhashed, hacc (hno.of_appends happ), hd.chunk_eq hlens hn hno hseen hattr,
      take_start_succ _ hn, layout.chunkSpan_of_lt hn]

/-- The gates find nothing wrong with an anchored module that was fully absorbed. -/
theorem wp_gateAndPromote_true (hd : Describes seams.sha256 info module)
    {isModule : Bytes → Prop} (hmodule : isModule module)
    (hanchor : AnchorNeverDenies seams c isModule)
    (h : StagedPrefix seams info layout layout.chunkCount acc w) (hacc : acc.hashed = module) :
    wp (gateAndPromote seams c info layout acc.hashed) (fun _ _ => True)
      (fun f _ => f.isProvenFalse = false) w := by
  have htake : w.sink.staged.take layout.totalSize = module := by
    rw [← hacc, h.hashed, layout.start_chunkCount]
  have hcovers : layout.totalSize ≤ w.sink.staged.length := by
    rw [← layout.start_chunkCount]
    exact h.covers
  unfold gateAndPromote
  dsimp only
  rw [wp_bind, wp_markPull]
  split
  · rename_i hne
    exact absurd (by rw [hacc]; exact hd.hash) hne
  rw [wp_bind, wp_read]
  split
  · rfl
  rw [wp_bind, wp_askSeam]
  generalize hgate : Effect.ask (ModuleAsk.hashGate _ _) = gate
  have hview : (stagedReader seams info layout (w.note gate)).toModuleReader.ReadsOnly module := by
    rw [← htake]
    exact stagedReader_readsOnly hcovers
  cases hans : seams.verifyModuleAnchor (w.note gate).tick
      (stagedReader seams info layout (w.note gate)).toModuleReader c with
  | notAnchored => exact absurd hans (hanchor _ _ _ hmodule hview)
  | unavailable reason => rfl
  | anchored =>
    refine (wp_handle _ _).mpr ?_
    refine wp_promoteVerified (fun reads _ _ _ => ?_) (fun e w₁ _ _ _ _ => ?_)
    · rw [wp_bind, wp_orTerminal]
      exact wp_storeClear trivial fun _ => rfl
    · rw [wp_bind, wp_ignoringFailure]
      refine wp_of_forall (fun _ w₂ => ?_) (fun _ w₂ => ?_)
      · rw [wp_bind, wp_ignoringFailure]
        exact wp_of_forall (fun _ _ => rfl) (fun _ _ => rfl)
      · rw [wp_bind, wp_ignoringFailure]
        exact wp_of_forall (fun _ _ => rfl) (fun _ _ => rfl)

/-- A descriptor that is not acceptable is proven false at once. -/
theorem wp_pullWithDescriptor_unacceptable
    (h : ¬ ChunkPlan.Acceptable info seams.config.maxModuleSize) (w : PullWorld) :
    wp (pullWithDescriptor seams c info) (fun _ _ => False) (fun f _ => f.isProvenFalse = true)
      w := by
  refine wp_pullWithDescriptor_stages (fun f w₁ hentry => ?_) (fun layout state w₁ henters => ?_)
  · cases hentry with
    | plan hplan =>
      rcases ChunkPlan.fromInfo_error hplan with ⟨hf, -⟩ | ⟨-, ha, -⟩
      · exact hf
      · exact absurd ha h
    | load hplan | truncate hplan => exact absurd (ChunkPlan.fromInfo_ok hplan).1 h
  · exact absurd (ChunkPlan.fromInfo_ok henters.plan).1 h

/-- A true descriptor within the limits is never proven false. -/
theorem wp_pullWithDescriptor_true (hd : Describes seams.sha256 info module)
    {isModule : Bytes → Prop} (hmodule : isModule module)
    (hanchor : AnchorNeverDenies seams c isModule) (hlim : WithinLimits seams.config info)
    (w : PullWorld) :
    wp (pullWithDescriptor seams c info) (fun _ _ => True)
      (fun f w' => NoCollision seams.sha256 w'.trace module → f.isProvenFalse = false) w := by
  refine wp_pullWithDescriptor_stages (fun f w₁ hentry _ => ?_) (fun layout state w₁ henters => ?_)
  · cases hentry with
    | plan hplan =>
      rcases ChunkPlan.fromInfo_error hplan with ⟨-, hna⟩ | ⟨⟨e, rfl⟩, -, -⟩
      · exact absurd (hd.acceptable_iff.mpr hlim) hna
      · rfl
    | load | truncate => rfl
  · obtain ⟨-, -, -, hlens⟩ := ChunkPlan.fromInfo_ok henters.plan
    rw [pullWithDescriptor.stageAndPromote, wp_bind]
    refine ((wp_stageChunks_true hd hlens state.doneRanges state.takeDone w₁).and
      (wp_stageChunks state.doneRanges state.takeDone w₁)).mono ?_ (fun _ _ h _ => h.1)
    rintro acc w₂ ⟨htrue, hstaged, -⟩
    by_cases hno : NoCollision seams.sha256 w₂.trace module
    · exact (wp_gateAndPromote_true hd hmodule hanchor hstaged (htrue hno)).mono
        (fun _ _ h => h) (fun _ _ h _ => h)
    · have hgates : Steps (Appends fun _ => True)
          (gateAndPromote seams c info layout acc.hashed) :=
        steps_gateAndPromote closedUnder_appends (fun _ _ => trivial) layout acc.hashed
      refine (hgates.wp w₂).mono (fun _ _ _ => trivial) (fun f w₃ happ hno' => ?_)
      exact absurd (hno'.of_appends happ) hno

end Truth

/-! ## A small capsule

A module of three bytes, on which the theorems of this development are instantiated. -/

section Small

def smallCapsule : Capsule where
  storeId := "1111111111111111111111111111111111111111111111111111111111111111"
  root := "2222222222222222222222222222222222222222222222222222222222222222"

def smallModule : Bytes := [1, 2, 3]

/-- The true descriptor of the small module under a given chunking. -/
def smallInfo (chunkLens : List Nat) : ModuleInfo where
  totalSize := 3
  moduleHash := hexOf (smallSha256 smallModule)
  chunkHashes := (List.range chunkLens.length).map fun i =>
    hexOf (smallSha256 (slice smallModule (start chunkLens i) (chunkLens.getD i 0)))
  chunkLens

/-- A verifier that reads the whole module and accepts the small one. -/
def smallVerifier (reader : ModuleReader) : ModuleAnchor :=
  match reader.readAt 0 reader.len with
  | .ok module => if module = smallModule then .anchored else .notAnchored
  | .error _ => .unavailable "unreadable"

/-- One honest holder, a healthy host, and no limit that matters. -/
def smallSeams : ModuleSeams where
  sha256 := smallSha256
  findProviders _ _ := .ok [{ providerPeerId := holderA, addresses := [] }]
  getModuleInfo _ _ _ := some (.ok (smallInfo [3]))
  fetchModuleRange _ _ _ offset len := some (.ok (slice smallModule offset len))
  verifyModuleAnchor _ reader _ := smallVerifier reader
  reserve _ _ := none
  host := Host.healthy
  config := {
    rangeTimeout := 30 * 10 ^ 9
    maxModuleSize := 512 * 1024 * 1024
    maxModuleSize_le := by decide }

theorem smallInfo_describes : Describes smallSha256 (smallInfo [3]) smallModule :=
  ⟨rfl, rfl, rfl, rfl, by decide +kernel⟩

theorem smallVerifier_neverDenies {seams : ModuleSeams} {c : Capsule}
    (h : ∀ t reader, seams.verifyModuleAnchor t reader c = smallVerifier reader) :
    AnchorNeverDenies seams c (· = smallModule) := by
  rintro t module reader rfl ⟨hlen, hreads⟩ hdeny
  rw [h, smallVerifier] at hdeny
  split at hdeny
  · rename_i bytes hbytes
    have hmodule := hreads _ _ _ hbytes
    rw [hlen, slice_zero_length] at hmodule
    simp [hmodule] at hdeny
  · cases hdeny

/-- Every byte string seen in a trace is one of the tabled ones. -/
def seesOnlyTabled (trace : List (Effect ModuleAsk)) : Bool :=
  trace.all fun
    | .ask (.fetchModuleRange _ _ len (some (.ok answer))) => smallSha256 (answer.take len) ≠ []
    | .readAt _ _ (some bytes) => smallSha256 bytes ≠ []
    | _ => true

theorem noCollision_of_tabled {trace : List (Effect ModuleAsk)} (h : seesOnlyTabled trace = true)
    (module : Bytes) : NoCollision smallSha256 trace module := by
  intro bytes hseen off len hhash
  unfold seesOnlyTabled at h
  rw [List.all_eq_true] at h
  refine smallSha256_inj ?_ hhash
  rcases hseen with ⟨peer, o, n, answer, hmem, rfl⟩ | ⟨o, n, hmem⟩
  · simpa using h _ hmem
  · simpa using h _ hmem

/-- Every descriptor obtained in a trace is one of the listed ones. -/
def obtainsOnly (infos : List ModuleInfo) (trace : List (Effect ModuleAsk)) : Bool :=
  trace.all fun
    | .ask (.getModuleInfo _ (some (.ok info))) => info ∈ infos
    | _ => true

theorem mem_of_obtainsOnly {infos : List ModuleInfo} {trace : List (Effect ModuleAsk)}
    {peer : String} {info : ModuleInfo} (h : obtainsOnly infos trace = true)
    (hmem : Effect.ask (.getModuleInfo peer (some (.ok info))) ∈ trace) : info ∈ infos := by
  unfold obtainsOnly at h
  rw [List.all_eq_true] at h
  simpa using h _ hmem

end Small

end DigDownload
