import DigDownload.Module.Availability

/-!
# What a pull may cost

The holders of a module say how large it is and where its chunks end, and none of them need be
right. Still a pull does a bounded amount of work for them: under a descriptor it fetches each
chunk once, which asks every holder that it knows twice at most, and writes each byte of the
module once; and the size and the number of the chunks are limits of this node.
-/

namespace DigDownload

open Tiling Prog

/-! ## Costs -/

namespace Effect

/-- The requests to one holder for a range. -/
def requests (peer : String) : Effect ModuleAsk → Nat
  | .ask (.fetchModuleRange p _ _ _) => if p = peer then 1 else 0
  | _ => 0

/-- The bytes that one holder is asked for. -/
def requestedBytes (peer : String) : Effect ModuleAsk → Nat
  | .ask (.fetchModuleRange p _ length _) => if p = peer then length else 0
  | _ => 0

/-- The calls of the locator. -/
def locates : Effect ModuleAsk → Nat
  | .ask (.findProviders _) => 1
  | _ => 0

/-- The bytes that are staged. -/
def writtenBytes : Effect ModuleAsk → Nat
  | .writeAt _ landed _ => landed.length
  | _ => 0

/-- The checkpoints that are saved. -/
def saves : Effect ModuleAsk → Nat
  | .save _ _ => 1
  | _ => 0

/-- An effect that costs nothing of this. -/
def IsFree (e : Effect ModuleAsk) : Prop :=
  (∀ peer, e.requests peer = 0) ∧ (∀ peer, e.requestedBytes peer = 0) ∧ e.locates = 0 ∧
    e.writtenBytes = 0 ∧ e.saves = 0

end Effect

/-- What a part of a pull may do: how often it may ask a holder for a range, and for how many bytes
in all, for each record that it has of the holder; how often it may ask the locator, how many bytes
it may stage, and how often it may save its checkpoint. -/
structure Allowance where
  passes : Nat
  bytes : Nat
  locates : Nat
  written : Nat
  saves : Nat

namespace Allowance

instance : Zero Allowance := ⟨⟨0, 0, 0, 0, 0⟩⟩

instance : Add Allowance := ⟨fun a b => ⟨a.passes + b.passes, a.bytes + b.bytes,
  a.locates + b.locates, a.written + b.written, a.saves + b.saves⟩⟩

/-- A log keeps to an allowance for a holder that is listed so many times. -/
structure Covers (a : Allowance) (peer : String) (records : Nat) (log : List (Effect ModuleAsk)) :
    Prop where
  requests : (log.map (Effect.requests peer)).sum ≤ records * a.passes
  requested : (log.map (Effect.requestedBytes peer)).sum ≤ records * a.bytes
  locates : (log.map Effect.locates).sum ≤ a.locates
  written : (log.map Effect.writtenBytes).sum ≤ a.written
  saves : (log.map Effect.saves).sum ≤ a.saves

/-- One allowance grants at least what another does. -/
structure Le (a b : Allowance) : Prop where
  passes : a.passes ≤ b.passes
  bytes : a.bytes ≤ b.bytes
  locates : a.locates ≤ b.locates
  written : a.written ≤ b.written
  saves : a.saves ≤ b.saves

variable {a b : Allowance} {peer : String} {records known : Nat}
  {log log' : List (Effect ModuleAsk)}

theorem Covers.append (h : a.Covers peer records log) (h' : b.Covers peer records log') :
    (a + b).Covers peer records (log ++ log') := by
  constructor
  · rw [List.map_append, List.sum_append]
    exact (Nat.add_le_add h.requests h'.requests).trans_eq (Nat.mul_add _ _ _).symm
  · rw [List.map_append, List.sum_append]
    exact (Nat.add_le_add h.requested h'.requested).trans_eq (Nat.mul_add _ _ _).symm
  · rw [List.map_append, List.sum_append]
    exact Nat.add_le_add h.locates h'.locates
  · rw [List.map_append, List.sum_append]
    exact Nat.add_le_add h.written h'.written
  · rw [List.map_append, List.sum_append]
    exact Nat.add_le_add h.saves h'.saves

/-- The more often a holder is listed, the more it may be asked. -/
theorem Covers.more (h : a.Covers peer records log) (hle : records ≤ known) :
    a.Covers peer known log :=
  ⟨h.requests.trans (Nat.mul_le_mul_right _ hle), h.requested.trans (Nat.mul_le_mul_right _ hle),
    h.locates, h.written, h.saves⟩

theorem Covers.mono (h : a.Covers peer records log) (hle : a.Le b) : b.Covers peer records log :=
  ⟨h.requests.trans (Nat.mul_le_mul_left _ hle.passes),
    h.requested.trans (Nat.mul_le_mul_left _ hle.bytes), h.locates.trans hle.locates,
    h.written.trans hle.written, h.saves.trans hle.saves⟩

theorem covers_of_free (h : ∀ e ∈ log, e.IsFree) : (0 : Allowance).Covers peer records log := by
  have hsum : ∀ cost : Effect ModuleAsk → Nat, (∀ e ∈ log, cost e = 0) → (log.map cost).sum ≤ 0 :=
    fun cost hcost => Nat.le_of_eq (List.sum_eq_zero fun n hn => by
      obtain ⟨e, he, rfl⟩ := List.mem_map.mp hn
      exact hcost e he)
  exact ⟨(hsum _ fun e he => (h e he).1 peer).trans (Nat.zero_le _),
    (hsum _ fun e he => (h e he).2.1 peer).trans (Nat.zero_le _), hsum _ fun e he => (h e he).2.2.1,
    hsum _ fun e he => (h e he).2.2.2.1, hsum _ fun e he => (h e he).2.2.2.2⟩

theorem add_eq (a b : Allowance) : a + b = ⟨a.passes + b.passes, a.bytes + b.bytes,
    a.locates + b.locates, a.written + b.written, a.saves + b.saves⟩ := rfl

theorem zero_le : (0 : Allowance).Le a :=
  ⟨Nat.zero_le _, Nat.zero_le _, Nat.zero_le _, Nat.zero_le _, Nat.zero_le _⟩

theorem le_add : a.Le (a + b) :=
  ⟨Nat.le_add_right _ _, Nat.le_add_right _ _, Nat.le_add_right _ _, Nat.le_add_right _ _,
    Nat.le_add_right _ _⟩

end Allowance

/-- How many times a holder is listed. -/
def recordsOf (peer : String) (w : PullWorld) : Nat :=
  (w.own.map (·.providerPeerId)).count peer

/-- From `w` to `w'` a pull does no more than its allowance for a holder; it may learn of more
records of it. -/
def Spends (peer : String) (a : Allowance) (w w' : PullWorld) : Prop :=
  recordsOf peer w ≤ recordsOf peer w' ∧
    ∃ seg, w'.trace = w.trace ++ seg ∧ a.Covers peer (recordsOf peer w') seg

theorem recordsOf_congr {peer : String} {w w' : PullWorld} (h : w'.own = w.own) :
    recordsOf peer w' = recordsOf peer w := by
  rw [recordsOf, h, recordsOf]

section Spends

variable {peer : String} {a b : Allowance} {w w' w'' : PullWorld} {seams : ModuleSeams}
  {c : Capsule}
  {info : ModuleInfo} {layout : ChunkPlan} {ε α : Type}

theorem Spends.mono (h : Spends peer a w w') (hle : a.Le b) : Spends peer b w w' := by
  obtain ⟨hown, seg, hseg, hcovers⟩ := h
  exact ⟨hown, seg, hseg, hcovers.mono hle⟩

theorem Spends.trans (h : Spends peer a w w') (h' : Spends peer b w' w'') :
    Spends peer (a + b) w w'' := by
  obtain ⟨hown, seg, hseg, hcovers⟩ := h
  obtain ⟨hown', seg', hseg', hcovers'⟩ := h'
  refine ⟨hown.trans hown', seg ++ seg', ?_, (hcovers.more hown').append hcovers'⟩
  rw [hseg', hseg, List.append_assoc]

theorem spends_of_free (hown : recordsOf peer w ≤ recordsOf peer w')
    (h : Appends Effect.IsFree w w') :
    Spends peer 0 w w' := by
  obtain ⟨seg, hseg, hfree⟩ := h
  exact ⟨hown, seg, hseg, Allowance.covers_of_free hfree⟩

/-- What is free may be done before as well as after. -/
theorem Spends.after_free (h' : Spends peer a w' w'') (h : Spends peer 0 w w') :
    Spends peer a w w'' :=
  (h.trans h').mono ⟨(Nat.zero_add _).le, (Nat.zero_add _).le, (Nat.zero_add _).le,
    (Nat.zero_add _).le, (Nat.zero_add _).le⟩

theorem Spends.trans_free (h : Spends peer a w w') (h' : Spends peer 0 w' w'') :
    Spends peer a w w'' := h.trans h'

theorem graded_spends : Graded (Spends peer) where
  refl w := spends_of_free (Nat.le_refl _) (Std.Refl.refl w)
  trans := Spends.trans
  weaken _ h := h.mono Allowance.le_add

instance : Std.Refl (Spends peer 0) := ⟨graded_spends.refl⟩

instance : IsTrans PullWorld (Spends peer 0) := ⟨fun _ _ _ h h' => h.trans h'⟩

/-- What is free costs nothing. -/
theorem closedUnder_spends : ClosedUnder Effect.IsFree (Spends peer 0) := fun _ _ e he _ =>
  spends_of_free (Nat.le_refl _) ⟨[e], rfl, by simpa using he⟩

/-- A merge drops no record. -/
theorem recordsOf_merge (fresh : List ProviderRecord) (w : PullWorld) :
    recordsOf peer w ≤ recordsOf peer { w with own := mergeNewProviders w.own fresh } := by
  obtain ⟨new, hmerge, -⟩ := mergeNewProviders_learnt w.own fresh
  rw [recordsOf, recordsOf, hmerge]
  exact ((List.sublist_append_left w.own new).map _).count_le peer

/-! ## Fetching a chunk -/

/-- What it may take to fetch a chunk of that length. -/
def fetchAllowance (len : Nat) : Allowance := ⟨2, 2 * len, 1, 0, 0⟩

/-- Asking a holder at most so often for the same range. -/
structure Passes (peer : String) (n len : Nat) (w w' : PullWorld) : Prop where
  own : w'.own = w.own
  asks : ∃ seg, w'.trace = w.trace ++ seg ∧ (seg.map (Effect.requests peer)).sum ≤ n ∧
    (seg.map (Effect.requestedBytes peer)).sum ≤ n * len ∧ (seg.map Effect.locates).sum = 0 ∧
      (seg.map Effect.writtenBytes).sum = 0 ∧ (seg.map Effect.saves).sum = 0

/-- Asking everybody in the list once is one pass. -/
theorem Passes.spends {len : Nat} (h : Passes peer (recordsOf peer w) len w w') :
    Spends peer ⟨1, len, 0, 0, 0⟩ w w' := by
  obtain ⟨seg, hseg, hrequests, hbytes, hlocates, hwritten, hsaves⟩ := h.asks
  refine ⟨Nat.le_of_eq (recordsOf_congr h.own).symm, seg, hseg, ?_, ?_, hlocates.le, hwritten.le,
    hsaves.le⟩
  · rw [recordsOf, h.own, Nat.mul_one]
    exact hrequests
  · rw [recordsOf, h.own]
    exact hbytes

theorem steps_fetchChunkFrom_passes (asked : String) (offset len : Nat) (expected : String) :
    Steps (Passes peer ([asked].count peer) len)
      (fetchChunkFrom seams c asked offset len expected) := by
  refine steps_of_wp fun w => ?_
  rw [fetchChunkFrom, wp_bind, wp_askSeam]
  have hask : ∀ answer : Answer Bytes, Passes peer ([asked].count peer) len w
      (w.note (.ask (.fetchModuleRange asked offset len answer))) := by
    intro answer
    refine ⟨rfl, [_], rfl, ?_⟩
    by_cases hpeer : asked = peer
    · simp [Effect.requests, Effect.requestedBytes, Effect.locates, Effect.writtenBytes,
        Effect.saves, hpeer]
    · simp [Effect.requests, Effect.requestedBytes, Effect.locates, Effect.writtenBytes,
        Effect.saves, hpeer]
  cases seams.fetchModuleRange w.tick asked c offset len with
  | none => exact hask none
  | some answer =>
    cases answer with
    | error e => exact hask (some (.error e))
    | ok bytes =>
      dsimp only
      split
      · exact hask (some (.ok bytes))
      · split <;> exact hask (some (.ok bytes))

theorem Passes.trans {n m len : Nat} (h : Passes peer n len w w') (h' : Passes peer m len w' w'') :
    Passes peer (n + m) len w w'' := by
  obtain ⟨seg, hseg, hrequests, hbytes, hlocates, hwritten, hsaves⟩ := h.asks
  obtain ⟨seg', hseg', hrequests', hbytes', hlocates', hwritten', hsaves'⟩ := h'.asks
  refine ⟨h'.own.trans h.own, seg ++ seg', ?_, ?_, ?_, ?_, ?_, ?_⟩
  · rw [hseg', hseg, List.append_assoc]
  · rw [List.map_append, List.sum_append]
    exact Nat.add_le_add hrequests hrequests'
  · rw [List.map_append, List.sum_append, Nat.add_mul]
    exact Nat.add_le_add hbytes hbytes'
  · rw [List.map_append, List.sum_append, hlocates, hlocates']
  · rw [List.map_append, List.sum_append, hwritten, hwritten']
  · rw [List.map_append, List.sum_append, hsaves, hsaves']

theorem Passes.more {n m len : Nat} (h : Passes peer n len w w') (hle : n ≤ m) :
    Passes peer m len w w' := by
  obtain ⟨seg, hseg, hrequests, hbytes, hrest⟩ := h.asks
  exact ⟨h.own, seg, hseg, hrequests.trans hle, hbytes.trans (Nat.mul_le_mul_right _ hle), hrest⟩

theorem graded_passes (len : Nat) : Graded (Passes peer · len) where
  refl w := ⟨rfl, [], by simp⟩
  trans := Passes.trans
  weaken b h := h.more (Nat.le_add_right _ b)

theorem steps_tryHolders_passes (offset len : Nat) (expected : String) :
    ∀ (peers : List String) (reasons : HolderReasons),
      Steps (Passes peer (peers.count peer) len)
        (tryHolders seams c offset len expected peers reasons)
  | [], reasons => (graded_passes len).refl
  | asked :: peers, reasons => by
      have hcount : ([asked] ++ peers).count peer = [asked].count peer + peers.count peer :=
        List.count_append
      rw [List.singleton_append] at hcount
      rw [tryHolders, hcount]
      refine (graded_passes len).bind (steps_fetchChunkFrom_passes asked offset len expected)
        fun r => ?_
      cases r with
      | ok bytes => exact fun w => ((graded_passes len).refl w).more (Nat.zero_le _)
      | error reason => exact steps_tryHolders_passes offset len expected peers _

/-- Everybody in the list is asked for a chunk, one after the other. -/
theorem wp_tryHolders_spends (index offset len : Nat) (expected : String)
    (reasons : HolderReasons) (w : PullWorld) :
    wp (tryHolders seams c offset len expected (rotation w.own index) reasons)
      (fun _ => Spends peer ⟨1, len, 0, 0, 0⟩ w) (fun _ => Spends peer ⟨1, len, 0, 0, 0⟩ w) w := by
  have hpass : Passes peer ((rotation w.own index).count peer) len w
      (tryHolders seams c offset len expected (rotation w.own index) reasons w).2 :=
    steps_tryHolders_passes offset len expected (rotation w.own index) reasons w
  rw [count_rotation] at hpass
  exact wp_same.mpr hpass.spends

/-- A chunk takes two passes over the holders and one call of the locator at most. -/
theorem steps_fetchVerifiedChunk_spends (layout : ChunkPlan) (index : Nat) :
    Steps (Spends peer (fetchAllowance (layout.chunkSpan index).2))
      (fetchVerifiedChunk seams c info layout index) := by
  refine steps_of_wp fun w => ?_
  rw [fetchVerifiedChunk, wp_bind, wp_markPull, wp_bind, wp_read, wp_bind]
  have hmarked : Spends peer 0 w (w.note (.ask (.fetchChunk index))) :=
    closedUnder_spends.note w ⟨fun _ => rfl, fun _ => rfl, rfl, rfl, rfl⟩ trivial
  generalize w.note (.ask (.fetchChunk index)) = marked at hmarked ⊢
  have honce : ∀ {w₁ : PullWorld}, Spends peer ⟨1, (layout.chunkSpan index).2, 0, 0, 0⟩ marked w₁ →
      Spends peer (fetchAllowance (layout.chunkSpan index).2) w w₁ := fun h =>
    (h.after_free hmarked).mono (by constructor <;> simp only [fetchAllowance] <;> omega)
  refine (wp_tryHolders_spends index _ _ _ _ marked).mono (fun r w₁ h₁ => ?_)
    (fun _ _ h₁ => honce h₁)
  cases r with
  | ok bytes => exact honce h₁
  | error reasons =>
    cases moduleContentId c with
    | none => exact honce h₁
    | some content =>
      have hlocated : ∀ answer, Spends peer ⟨0, 0, 1, 0, 0⟩ w₁
          (w₁.note (.ask (.findProviders answer))) := fun answer =>
        ⟨Nat.le_refl _, [_], rfl, by constructor <;> simp [Effect.requests, Effect.requestedBytes,
          Effect.locates, Effect.writtenBytes, Effect.saves]⟩
      have hlearn : ∀ {w₂ : PullWorld} (fresh : List ProviderRecord),
          Spends peer ⟨0, 0, 1, 0, 0⟩ w₁ w₂ →
            Spends peer ⟨0, 0, 1, 0, 0⟩ w₁ { w₂ with own := mergeNewProviders w₂.own fresh } :=
        fun fresh h =>
          h.trans_free (spends_of_free (recordsOf_merge fresh _) ⟨[], by simp, by simp⟩)
      have htwice : ∀ {w₂ w₃ : PullWorld}, Spends peer ⟨0, 0, 1, 0, 0⟩ w₁ w₂ →
          Spends peer ⟨1, (layout.chunkSpan index).2, 0, 0, 0⟩ w₂ w₃ →
            Spends peer (fetchAllowance (layout.chunkSpan index).2) w w₃ := fun h h' =>
        (((h₁.after_free hmarked).trans h).trans h').mono (by
          constructor <;> simp only [Allowance.add_eq, fetchAllowance] <;> omega)
      dsimp only
      rw [wp_bind, show wp (Prog.bind _ _) _ _ _ ↔ _ from wp_bind _ _, wp_askSeam]
      cases seams.findProviders w₁.tick content with
      | error e =>
        exact htwice (hlocated (.error e)) ((graded_spends.refl _).mono Allowance.zero_le)
      | ok refreshed =>
        rw [wp_ofExcept_ok, wp_bind, wp_update, wp_bind, wp_read, wp_bind]
        have hlearnt := hlearn refreshed (hlocated (.ok refreshed))
        refine (wp_tryHolders_spends index _ _ _ _ _).mono (fun r w₃ h₃ => ?_)
          (fun _ _ h₃ => htwice hlearnt h₃)
        cases r with
        | ok bytes => exact htwice hlearnt h₃
        | error reasons => exact htwice hlearnt h₃

/-! ## Staging the chunks -/

/-- What it may take to stage a chunk of that length. -/
def chunkAllowance (len : Nat) : Allowance := ⟨2, 2 * len, 1, len, 1⟩

theorem spends_write {offset len : Nat} {landed : Bytes} {ok : Bool} {sink : Sink}
    (hlen : landed.length ≤ len) :
    Spends peer ⟨0, 0, 0, len, 0⟩ w ({ w with sink }.note (.writeAt offset landed ok)) :=
  ⟨Nat.le_refl _, [_], rfl, by constructor <;> simp [Effect.requests, Effect.requestedBytes,
    Effect.locates, Effect.writtenBytes, Effect.saves, hlen]⟩

theorem spends_save {state : DownloadState} {ok : Bool} {store : StateStore} :
    Spends peer ⟨0, 0, 0, 0, 1⟩ w ({ w with store }.note (.save state ok)) :=
  ⟨Nat.le_refl _, [_], rfl, by constructor <;> simp [Effect.requests, Effect.requestedBytes,
    Effect.locates, Effect.writtenBytes, Effect.saves]⟩

theorem steps_stageChunk_spends (checkpointed : Finset Nat) (acc : Staging) (index : Nat) :
    Steps (Spends peer (chunkAllowance (layout.chunkSpan index).2))
      (stageChunk seams c info layout checkpointed acc index) := by
  refine steps_of_wp fun w => ?_
  rw [stageChunk, wp_bind, wp_orTerminal]
  refine (wp_resumedChunk _ _ _ _ w).mono (fun staged w₁ h₁ => ?_) (fun _ _ h => h.elim)
  have hread : Spends peer 0 w w₁ := by
    rcases h₁.1 with rfl | ⟨answer, rfl⟩
    · exact graded_spends.refl _
    · exact closedUnder_spends.note w ⟨fun _ => rfl, fun _ => rfl, rfl, rfl, rfl⟩ trivial
  cases staged with
  | some bytes =>
    exact hread.mono Allowance.zero_le
  | none =>
    have hfetched : ∀ {w₂ : PullWorld},
        Spends peer (fetchAllowance (layout.chunkSpan index).2) w₁ w₂ →
          Spends peer (chunkAllowance (layout.chunkSpan index).2) w w₂ := fun h =>
      (h.after_free hread).mono (by
        constructor <;> simp only [fetchAllowance, chunkAllowance] <;> omega)
    have hspends : Steps (Spends peer (fetchAllowance (layout.chunkSpan index).2))
        (fetchVerifiedChunk seams c info layout index) :=
      steps_fetchVerifiedChunk_spends layout index
    dsimp only
    rw [wp_bind, wp_handle]
    refine ((wp_fetchVerifiedChunk layout index w₁).and (hspends.wp w₁)).mono
      (fun bytes w₂ h₂ => ?_)
      (fun e w₂ h₂ => ?_)
    · obtain ⟨⟨⟨hlen, -⟩, -⟩, hfetch⟩ := h₂
      have hwritten : ∀ {w₃ : PullWorld},
          Spends peer ⟨0, 0, 0, (layout.chunkSpan index).2, 0⟩ w₂ w₃ →
            Spends peer (chunkAllowance (layout.chunkSpan index).2) w w₃ := fun h =>
        ((hfetch.after_free hread).trans h).mono (by
          constructor <;> simp only [Allowance.add_eq, fetchAllowance, chunkAllowance] <;> omega)
      have hsaved : ∀ {w₃ w₄ : PullWorld},
          Spends peer ⟨0, 0, 0, (layout.chunkSpan index).2, 0⟩ w₂ w₃ →
            Spends peer ⟨0, 0, 0, 0, 1⟩ w₃ w₄ →
              Spends peer (chunkAllowance (layout.chunkSpan index).2) w w₄ := fun h h' =>
        (((hfetch.after_free hread).trans h).trans h').mono (by
          constructor <;> simp only [Allowance.add_eq, fetchAllowance, chunkAllowance] <;> omega)
      rw [wp_pure, wp_bind, wp_orTerminal]
      refine wp_sinkWriteAt (fun _ => ?_) (fun e n => hwritten (spends_write ?_))
      · have hwrite : Spends peer ⟨0, 0, 0, (layout.chunkSpan index).2, 0⟩ w₂
            (World.note { w₂ with sink := w₂.sink.write (layout.chunkSpan index).1 bytes }
              (.writeAt (layout.chunkSpan index).1 bytes true)) := spends_write hlen.le
        rw [wp_bind, wp_orTerminal]
        exact wp_storeSave (hsaved hwrite spends_save) (fun e => hsaved hwrite spends_save)
      · exact (List.length_take_le' _ _).trans hlen.le
    · dsimp only
      split <;> exact hfetched h₂.2

/-- What it may take to stage the first `n` chunks. -/
def stagedAllowance (layout : ChunkPlan) (n : Nat) : Allowance :=
  ⟨2 * n, 2 * start layout.chunkLens n, n, start layout.chunkLens n, n⟩

theorem stagedAllowance_le {n m : Nat} (h : n ≤ m) :
    (stagedAllowance layout n).Le (stagedAllowance layout m) :=
  ⟨Nat.mul_le_mul_left 2 h, Nat.mul_le_mul_left 2 (start_mono h), h, start_mono h, h⟩

/-- One chunk after the other, the staging loop spends what the module takes. -/
theorem wp_stageChunks_spends (peer : String) (checkpointed : Finset Nat) (acc : Staging)
    (w : PullWorld) :
    wp ((List.range layout.chunkCount).foldlM (stageChunk seams c info layout checkpointed) acc)
      (fun _ => Spends peer (stagedAllowance layout layout.chunkCount) w)
      (fun _ => Spends peer (stagedAllowance layout layout.chunkCount) w) w := by
  refine wp_foldlM_range (I := fun n _ w' => Spends peer (stagedAllowance layout n) w w')
    ((graded_spends.refl w).mono Allowance.zero_le) _ fun n hn acc w₁ h => ?_
  have hnext : ∀ {w₂ : PullWorld}, Spends peer (chunkAllowance (layout.chunkSpan n).2) w₁ w₂ →
      Spends peer (stagedAllowance layout (n + 1)) w w₂ := fun h' => (h.trans h').mono (by
    have hlen : start layout.chunkLens (n + 1) = start layout.chunkLens n +
        layout.chunkLens[n] := start_succ hn
    rw [layout.chunkSpan_of_lt hn]
    constructor <;> simp only [Allowance.add_eq, stagedAllowance, chunkAllowance] <;> omega)
  refine ((steps_stageChunk_spends checkpointed acc n).wp w₁).mono (fun _ _ h' => hnext h')
    (fun _ _ h' => (hnext h').mono (stagedAllowance_le hn))

/-! ## A pull -/

/-- What a pull may take under one descriptor, whatever it says. -/
def pullAllowance (config : ModuleDownloadConfig) : Allowance :=
  ⟨2 * maxModuleChunkCount, 2 * config.maxModuleSize, maxModuleChunkCount, config.maxModuleSize,
    maxModuleChunkCount⟩

theorem stagedAllowance_le_pull (hplan : planAt seams info w = .ok layout) :
    (stagedAllowance layout layout.chunkCount).Le (pullAllowance seams.config) := by
  obtain ⟨hacceptable, -, htotal, -⟩ := ChunkPlan.fromInfo_ok hplan
  have hcount : layout.chunkCount ≤ maxModuleChunkCount := layout.lens_count
  have hsize : start layout.chunkLens layout.chunkCount ≤ seams.config.maxModuleSize := by
    rw [layout.start_chunkCount, htotal]
    exact hacceptable.size_le
  exact ⟨Nat.mul_le_mul_left 2 hcount, Nat.mul_le_mul_left 2 hsize, hcount, hsize, hcount⟩

theorem Effect.IsEntering.isFree {e : Effect ModuleAsk} (h : e.IsEntering) : e.IsFree := by
  unfold Effect.IsEntering at h
  split at h <;> first | exact ⟨fun _ => rfl, fun _ => rfl, rfl, rfl, rfl⟩ | exact h.elim

theorem Effect.IsGating.isFree {e : Effect ModuleAsk} (h : e.IsGating) : e.IsFree := by
  unfold Effect.IsGating at h
  split at h <;> first | exact ⟨fun _ => rfl, fun _ => rfl, rfl, rfl, rfl⟩ | exact h.elim

theorem Effect.IsDescriptorAsk.isFree {e : Effect ModuleAsk} (h : e.IsDescriptorAsk) :
    e.IsFree := by
  unfold Effect.IsDescriptorAsk at h
  split at h
  · exact ⟨fun _ => rfl, fun _ => rfl, rfl, rfl, rfl⟩
  · exact h.elim

theorem steps_pullWithDescriptor_spends :
    Steps (Spends peer (pullAllowance seams.config)) (pullWithDescriptor seams c info) := by
  refine steps_of_wp fun w => ?_
  refine wp_pullWithDescriptor_stages (fun f w' hfails => ?_) (fun layout state w₁ henters => ?_)
  · have hown : w'.own = w.own := by cases hfails <;> rfl
    have hfree := hfails.quiet.appends.mono fun _ => Effect.IsEntering.isFree
    exact (spends_of_free (Nat.le_of_eq (recordsOf_congr hown).symm) hfree).mono Allowance.zero_le
  · have hentered : Spends peer 0 w w₁ :=
      spends_of_free (Nat.le_of_eq (recordsOf_congr henters.own).symm)
        (henters.appends.mono fun _ => Effect.IsEntering.isFree)
    have hlimit := stagedAllowance_le_pull henters.plan
    rw [pullWithDescriptor.stageAndPromote, wp_bind]
    refine (wp_stageChunks_spends peer state.doneRanges _ w₁).mono (fun staging w₂ h => ?_)
      (fun f w₂ h => ?_)
    · have hgated : Steps (Spends peer 0) (gateAndPromote seams c info layout staging.hashed) :=
        steps_gateAndPromote closedUnder_spends (fun _ => Effect.IsGating.isFree) layout
          staging.hashed
      refine (hgated.wp w₂).mono (fun _ w₃ h' => ?_) (fun _ w₃ h' => ?_)
      · exact ((h.after_free hentered).trans_free h').mono hlimit
      · exact ((h.after_free hentered).trans_free h').mono hlimit
    · exact (h.after_free hentered).mono hlimit

theorem steps_recordIfProvenFalse_spends (key source : String) (f : PullFailure) :
    Steps (Spends peer 0) (recordIfProvenFalse seams key source f) :=
  steps_recordIfProvenFalse closedUnder_spends
    (fun _ _ _ => ⟨fun _ => rfl, fun _ => rfl, rfl, rfl, rfl⟩) key source f

/-- An attempt takes what its pull takes: the round before it and the verdict after it are free. -/
theorem steps_descriptorAttempt_spends (exclusions : DescriptorExclusions) :
    Steps (Spends peer (pullAllowance seams.config)) (descriptorAttempt seams c exclusions) := by
  have hround : ∀ excluded, Steps (Spends peer 0) (fetchModuleInfo seams c excluded) :=
    fun excluded => steps_fetchModuleInfo (fun w e he => closedUnder_spends.note w he.isFree (by
      unfold Effect.IsDescriptorAsk at he
      split at he
      · trivial
      · exact he.elim)) excluded
  refine steps_of_wp fun w => ?_
  rw [descriptorAttempt, wp_bind, wp_read]
  dsimp only
  rw [wp_handle]
  refine ((hround _).wp w).mono (fun r w₁ h₁ => ?_) (fun e w₁ h₁ => h₁.mono Allowance.zero_le)
  dsimp only
  rw [wp_handle]
  refine (steps_pullWithDescriptor_spends.wp w₁).mono (fun len w₂ h₂ => h₂.after_free h₁)
    (fun f w₂ h₂ => ?_)
  have hpulled := h₂.after_free h₁
  cases f with
  | terminal e => exact hpulled
  | badDescriptor e | unsatisfiableDescriptor e =>
    dsimp only
    rw [wp_bind]
    refine ((steps_recordIfProvenFalse_spends _ _ _).wp w₂).mono (fun _ w₃ h₃ => ?_)
      (fun _ w₃ h₃ => hpulled.trans_free h₃)
    rw [wp_bind, wp_markPull, wp_bind, wp_read]
    have hdemoted : Spends peer 0 w₃ (w₃.note (.ask (.demote r.1))) :=
      closedUnder_spends.note w₃ ⟨fun _ => rfl, fun _ => rfl, rfl, rfl, rfl⟩ trivial
    exact (hpulled.trans_free h₃).trans_free hdemoted

/-- What so many attempts may take. -/
def attemptsAllowance (config : ModuleDownloadConfig) (attempts : Nat) : Allowance :=
  ⟨attempts * (2 * maxModuleChunkCount), attempts * (2 * config.maxModuleSize),
    attempts * maxModuleChunkCount, attempts * config.maxModuleSize,
    attempts * maxModuleChunkCount⟩

theorem attemptsAllowance_succ (config : ModuleDownloadConfig) (attempts : Nat) :
    attemptsAllowance config (attempts + 1)
      = pullAllowance config + attemptsAllowance config attempts := by
  rw [attemptsAllowance, attemptsAllowance, pullAllowance, Allowance.add_eq]
  simp only [Nat.succ_mul, Nat.add_comm]

theorem steps_attemptLoop_spends :
    ∀ (left : Nat) (exclusions : DescriptorExclusions),
      Steps (Spends peer (attemptsAllowance seams.config (left + 1)))
        (attemptLoop seams c left exclusions)
  | 0, exclusions => by
      rw [attemptsAllowance_succ, attemptLoop]
      refine graded_spends.bind (steps_descriptorAttempt_spends exclusions) fun r w => ?_
      cases r <;> exact (graded_spends.refl w).mono Allowance.zero_le
  | left + 1, exclusions => by
      rw [attemptsAllowance_succ, attemptLoop]
      refine graded_spends.bind (steps_descriptorAttempt_spends exclusions) fun r => ?_
      cases r with
      | inl len => exact fun w => (graded_spends.refl w).mono Allowance.zero_le
      | inr failed =>
        dsimp only
        split
        · exact fun w => (graded_spends.refl w).mono Allowance.zero_le
        · exact steps_attemptLoop_spends left failed.exclusions

/-- What a call may take: its attempts, and the first call of the locator. -/
def callAllowance (config : ModuleDownloadConfig) : Allowance :=
  ⟨0, 0, 1, 0, 0⟩ + attemptsAllowance config maxDescriptorAttempts

/-- What has been done since `w` is within the allowance for a holder, as often as it is listed
in `w'`. -/
def Within (peer : String) (a : Allowance) (w w' : PullWorld) : Prop :=
  a.Covers peer (recordsOf peer w') (w'.trace.drop w.tick)

theorem within_of_trace (seg : List (Effect ModuleAsk)) (htrace : w'.trace = w.trace ++ seg)
    (h : a.Covers peer (recordsOf peer w') seg) : Within peer a w w' := by
  rwa [Within, htrace, World.tick, List.drop_left]

theorem covers_located {records : Nat} (answer : Except DownloadError (List ProviderRecord)) :
    Allowance.Covers ⟨0, 0, 1, 0, 0⟩ peer records [.ask (.findProviders answer)] := by
  constructor <;> simp [Effect.requests, Effect.requestedBytes, Effect.locates,
    Effect.writtenBytes, Effect.saves]

/-- The state in which the attempts of a call begin. -/
def atAttempts (c : Capsule) (w : PullWorld) (located : List ProviderRecord) (ok : Bool) :
    PullWorld :=
  World.note { w.note (.ask (.findProviders (.ok located))) with own := located }
    (.badDescriptorPeers (moduleDownloadKey c) ok)

theorem Spends.within_call {located : List ProviderRecord} {ok : Bool}
    (h : Spends peer (attemptsAllowance seams.config maxDescriptorAttempts)
      (atAttempts c w located ok) w') : Within peer (callAllowance seams.config) w w' := by
  obtain ⟨-, seg, hseg, hcovers⟩ := h
  have hverdicts : (0 : Allowance).Covers peer (recordsOf peer w')
      [.badDescriptorPeers (moduleDownloadKey c) ok] :=
    Allowance.covers_of_free fun e he => by
      rw [List.mem_singleton.mp he]
      exact ⟨fun _ => rfl, fun _ => rfl, rfl, rfl, rfl⟩
  refine within_of_trace ([.ask (.findProviders (.ok located))] ++
    [.badDescriptorPeers (moduleDownloadKey c) ok] ++ seg) ?_ ?_
  · rw [hseg, atAttempts, World.note_trace, World.note_trace, List.append_assoc, List.append_assoc]
    rfl
  · exact ((covers_located (.ok located)).append hverdicts).append hcovers

/-- Whatever its holders say and serve, and whatever the sink and the store do, a pull asks a
holder for a range, and for so many bytes in all, no more often for each record that it has of it
than the limits of this node allow for its attempts; nor does it ask the locator, stage bytes or
save its checkpoint more often than they allow. -/
theorem download_bounded (seams : ModuleSeams) (c : Capsule) (w : PullWorld) (peer : String) :
    Within peer (callAllowance seams.config) w (download seams c w).2 := by
  refine (wp_same (P := Within peer (callAllowance seams.config) w)).mp ?_
  have hlocated : ∀ answer, Within peer (callAllowance seams.config) w
      (w.note (.ask (.findProviders answer))) := fun answer =>
    within_of_trace _ rfl ((covers_located answer).mono Allowance.le_add)
  have hattempts : ∀ located ok remembered,
      wp (attemptLoop seams c (maxDescriptorAttempts - 1) (.new remembered))
        (fun _ => Within peer (callAllowance seams.config) w)
        (fun _ => Within peer (callAllowance seams.config) w) (atAttempts c w located ok) :=
    fun located ok remembered =>
      ((steps_attemptLoop_spends _ _).wp _).mono (fun _ _ h => h.within_call)
        (fun _ _ h => h.within_call)
  refine wp_download_begins (fun _ => ?_) (fun id e _ _ => hlocated _) (fun id _ _ => hlocated _)
    (fun id located _ _ _ => ?_)
  · exact within_of_trace [] (List.append_nil _).symm
      ((Allowance.covers_of_free (by simp)).mono Allowance.zero_le)
  · exact wp_rememberedVerdicts_reads (hattempts located true _) (hattempts located false _)

end Spends

end DigDownload
