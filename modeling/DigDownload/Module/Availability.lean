import Mathlib.Data.List.Rotate
import DigDownload.Module.Minority

/-!
# Whom a chunk is asked of

A chunk is asked of every known holder, in an order that starts at the chunk's own index.
Where none of them serves it the holders are located once more, the new ones join the
list, and the list is gone through again, again from the chunk's index, in a list that may
have grown. This module counts these asks and says when they end with the chunk.
-/

namespace DigDownload

open Slices Prog

/-! ## The asks for a chunk -/

/-- One request for a window to a holder, with its answer. -/
structure ChunkAsk where
  peer : String
  offset : Nat
  len : Nat
  answer : Answer Bytes

/-- The request as it stands in the trace. -/
def ChunkAsk.effect (a : ChunkAsk) : Effect ModuleAsk :=
  .ask (.fetchModuleRange a.peer a.offset a.len a.answer)

/-- The request that an effect is, if it is one. -/
def Effect.chunkAsk? : Effect ModuleAsk → Option ChunkAsk
  | .ask (.fetchModuleRange peer offset len answer) => some { peer, offset, len, answer }
  | _ => none

/-- The requests for windows in a stretch of the trace, in order. -/
def chunkAsks (log : List (Effect ModuleAsk)) : List ChunkAsk := log.filterMap Effect.chunkAsk?

/-- The answer to the request is the chunk of that hash, perhaps with more bytes behind. -/
def ChunkAsk.Serves (seams : ModuleSeams) (expected : String) (a : ChunkAsk) : Prop :=
  ∃ answer, a.answer = some (.ok answer) ∧ Attributed seams a.len expected (answer.take a.len)

/-- The holder answers the window of a chunk with that chunk, whenever it is asked. -/
def ServesAlways (seams : ModuleSeams) (c : Capsule) (offset len : Nat) (expected peer : String) :
    Prop :=
  ∀ t, ∃ answer, seams.fetchModuleRange t peer c offset len = some (.ok answer) ∧
    Attributed seams len expected (answer.take len)

@[simp] theorem chunkAsks_nil : chunkAsks [] = [] := rfl

@[simp] theorem chunkAsks_append (log seg : List (Effect ModuleAsk)) :
    chunkAsks (log ++ seg) = chunkAsks log ++ chunkAsks seg := by
  simp [chunkAsks]

@[simp] theorem chunkAsks_effect (asks : List ChunkAsk) :
    chunkAsks (asks.map ChunkAsk.effect) = asks := by
  induction asks with
  | nil => rfl
  | cons a asks ih => simpa [chunkAsks, ChunkAsk.effect, Effect.chunkAsk?] using ih

/-! ## The order of the asks -/

/-- The rotation of a chunk is a rotation: its index, modulo the number of holders. -/
theorem rotation_eq_rotate (providers : List ProviderRecord) (index : Nat) :
    rotation providers index = (providers.map (·.providerPeerId)).rotate index := by
  apply List.ext_getElem
  · simp [rotation]
  · intro k hk hk'
    have hlen : k < providers.length := by simpa [rotation] using hk
    have hmod : (index + k) % providers.length < providers.length :=
      Nat.mod_lt _ (by omega)
    simp only [rotation, List.getElem_map, List.getElem_range, List.getElem_rotate,
      List.length_map, List.getElem?_eq_getElem hmod]
    simp only [Nat.add_comm k index]

/-- A pass asks each entry of the list once, wherever it starts. -/
theorem count_rotation (providers : List ProviderRecord) (index : Nat) (peer : String) :
    (rotation providers index).count peer = (providers.map (·.providerPeerId)).count peer := by
  rw [rotation_eq_rotate]
  exact (List.rotate_perm _ _).count_eq _

/-- The holders that locating again has added to those that were known. -/
structure Learnt (known refreshed fresh : List ProviderRecord) : Prop where
  nodup : (fresh.map (·.providerPeerId)).Nodup
  unknown : ∀ p ∈ fresh, p.providerPeerId ∉ known.map (·.providerPeerId)
  located : ∀ p ∈ fresh, p ∈ refreshed
  complete : ∀ p ∈ refreshed, p.providerPeerId ∈ (known ++ fresh).map (·.providerPeerId)

theorem learnt_nil (known : List ProviderRecord) : Learnt known [] [] :=
  ⟨List.nodup_nil, by simp, by simp, by simp⟩

/-- Merging appends each located holder that is not known yet, once. -/
theorem mergeNewProviders_learnt (known refreshed : List ProviderRecord) :
    ∃ fresh, mergeNewProviders known refreshed = known ++ fresh ∧
      Learnt known refreshed fresh := by
  induction refreshed generalizing known with
  | nil => exact ⟨[], by simp [mergeNewProviders], learnt_nil known⟩
  | cons p refreshed ih =>
    rw [mergeNewProviders]
    by_cases hknown : known.any fun k => k.providerPeerId = p.providerPeerId
    · rw [if_pos hknown]
      obtain ⟨fresh, hmerge, hlearnt⟩ := ih known
      have hmem : p.providerPeerId ∈ known.map (·.providerPeerId) := by
        simpa [List.any_eq_true] using hknown
      refine ⟨fresh, hmerge, hlearnt.nodup, hlearnt.unknown,
        fun q hq => List.mem_cons_of_mem _ (hlearnt.located q hq), ?_⟩
      intro q hq
      cases hq with
      | head =>
        rw [List.map_append]
        exact List.mem_append_left _ hmem
      | tail _ hq => exact hlearnt.complete q hq
    · rw [if_neg hknown]
      obtain ⟨fresh, hmerge, hlearnt⟩ := ih (known ++ [p])
      have hnot : p.providerPeerId ∉ known.map (·.providerPeerId) := by
        simpa [List.any_eq_true] using hknown
      have hapart : ∀ q ∈ fresh, q.providerPeerId ∉ known.map (·.providerPeerId) ∧
          q.providerPeerId ≠ p.providerPeerId := by
        intro q hq
        have hout := hlearnt.unknown q hq
        rw [List.map_append, List.mem_append, not_or] at hout
        exact ⟨hout.1, by simpa using hout.2⟩
      refine ⟨p :: fresh, by rw [hmerge]; simp, ?_, ?_, ?_, ?_⟩
      · rw [List.map_cons, List.nodup_cons]
        constructor
        · intro hmem
          obtain ⟨q, hq, hid⟩ := List.mem_map.mp hmem
          exact (hapart q hq).2 hid
        · exact hlearnt.nodup
      · intro q hq
        cases hq with
        | head => exact hnot
        | tail _ hq => exact (hapart q hq).1
      · intro q hq
        cases hq with
        | head => exact List.mem_cons_self
        | tail _ hq => exact List.mem_cons_of_mem _ (hlearnt.located q hq)
      · intro q hq
        cases hq with
        | head => simp
        | tail _ hq => simpa using hlearnt.complete q hq

/-! ## One pass over the holders -/

section Passes

variable {seams : ModuleSeams} {c : Capsule} {info : ModuleInfo} {layout : ChunkPlan}
  {w w' : PullWorld} {offset len index : Nat} {expected : String} {peers : List String}
  {asks : List ChunkAsk}

/-- `w'` is `w` after the given requests for one window, each answered as the holder
answers at some moment. -/
structure AsksFor (seams : ModuleSeams) (c : Capsule) (offset len : Nat) (w : PullWorld)
    (asks : List ChunkAsk) (w' : PullWorld) : Prop where
  own : w'.own = w.own
  trace : w'.trace = w.trace ++ asks.map ChunkAsk.effect
  window : ∀ a ∈ asks, a.offset = offset ∧ a.len = len
  answered : ∀ a ∈ asks, ∃ t, a.answer = seams.fetchModuleRange t a.peer c offset len

theorem AsksFor.cons {a : ChunkAsk} (h : AsksFor seams c offset len (w.note a.effect) asks w')
    (hwindow : a.offset = offset ∧ a.len = len)
    (hanswer : a.answer = seams.fetchModuleRange w.tick a.peer c offset len) :
    AsksFor seams c offset len w (a :: asks) w' where
  own := h.own
  trace := by
    rw [h.trace]
    simp
  window := by
    intro b hb
    cases hb with
    | head => exact hwindow
    | tail _ hb => exact h.window b hb
  answered := by
    intro b hb
    cases hb with
    | head => exact ⟨w.tick, hanswer⟩
    | tail _ hb => exact h.answered b hb

/-- One request, and what its outcome says about its answer. -/
theorem wp_fetchChunkFrom_ask (peer : String) (offset len : Nat) (expected : String)
    (w : PullWorld) :
    wp (fetchChunkFrom seams c peer offset len expected)
      (fun r w' => ∃ answer,
        answer = seams.fetchModuleRange w.tick peer c offset len ∧
        w' = w.note (ChunkAsk.effect { peer, offset, len, answer }) ∧
        ((∃ bytes, r = .ok bytes) ↔
          ChunkAsk.Serves seams expected { peer, offset, len, answer }))
      (fun _ _ => False) w := by
  rw [fetchChunkFrom, wp_bind, wp_askSeam]
  cases hanswer : seams.fetchModuleRange w.tick peer c offset len with
  | none => exact ⟨none, rfl, rfl, by simp [ChunkAsk.Serves]⟩
  | some answer =>
    cases answer with
    | error e => exact ⟨some (.error e), rfl, rfl, by simp [ChunkAsk.Serves]⟩
    | ok answer =>
      have hserves : ∀ r : Except String Bytes,
          ((∃ bytes, r = .ok bytes) ↔ Attributed seams len expected (answer.take len)) →
          ((∃ bytes, r = .ok bytes) ↔ ChunkAsk.Serves seams expected
            { peer, offset, len, answer := some (.ok answer) }) := by
        intro r hr
        simpa [ChunkAsk.Serves] using hr
      dsimp only
      by_cases hlen : (answer.take len).length ≠ len
      · rw [if_pos hlen]
        refine ⟨_, rfl, rfl, hserves _ ?_⟩
        simp only [reduceCtorEq, exists_false, false_iff]
        exact fun h => hlen h.1
      rw [if_neg hlen]
      by_cases hhash : hexOf (seams.sha256 (answer.take len)) ≠ expected
      · rw [if_pos hhash]
        refine ⟨_, rfl, rfl, hserves _ ?_⟩
        simp only [reduceCtorEq, exists_false, false_iff]
        exact fun h => hhash h.2
      · rw [if_neg hhash]
        refine ⟨_, rfl, rfl, hserves _ ?_⟩
        simp only [Except.ok.injEq, exists_eq', true_iff]
        exact ⟨not_not.mp hlen, not_not.mp hhash⟩

/-- A pass ends at the first holder that serves the chunk; where none does, each was asked
once, in order. -/
theorem wp_tryHolders_pass (offset len : Nat) (expected : String) (peers : List String)
    (reasons : HolderReasons) (w : PullWorld) :
    wp (tryHolders seams c offset len expected peers reasons)
      (fun r w' => ∃ asks, AsksFor seams c offset len w asks w' ∧
        (∀ bytes, r = .ok bytes → ∃ a ∈ asks, a.Serves seams expected) ∧
        (∀ reasons, r = .error reasons → asks.map (·.peer) = peers ∧
          ∀ a ∈ asks, ¬ a.Serves seams expected))
      (fun _ _ => False) w := by
  induction peers generalizing reasons w with
  | nil =>
    rw [tryHolders, wp_pure]
    refine ⟨[], ⟨rfl, by simp, by simp, by simp⟩, ?_, ?_⟩
    · intro bytes hr
      cases hr
    · intro reasons hr
      exact ⟨rfl, by simp⟩
  | cons peer peers ih =>
    rw [tryHolders, wp_bind]
    refine (wp_fetchChunkFrom_ask peer offset len expected w).mono ?_ (fun _ _ h => h)
    rintro r w₁ ⟨answer, hanswer, rfl, hserves⟩
    cases r with
    | ok bytes =>
      have hstop : AsksFor seams c offset len w [{ peer, offset, len, answer }]
          (w.note (ChunkAsk.effect { peer, offset, len, answer })) :=
        AsksFor.cons ⟨rfl, by simp, by simp, by simp⟩ ⟨rfl, rfl⟩ hanswer
      refine ⟨_, hstop, ?_, ?_⟩
      · intro bytes' _
        exact ⟨_, List.mem_cons_self, hserves.mp ⟨bytes, rfl⟩⟩
      · intro reasons hr
        cases hr
    | error reason =>
      have hnot : ¬ ChunkAsk.Serves seams expected { peer, offset, len, answer } := by
        intro h
        obtain ⟨bytes, hbytes⟩ := hserves.mpr h
        cases hbytes
      refine (ih _ _).mono ?_ (fun _ _ h => h)
      rintro r w₂ ⟨asks, hasks, hok, herror⟩
      refine ⟨_, hasks.cons ⟨rfl, rfl⟩ hanswer, ?_, ?_⟩
      · intro bytes hr
        obtain ⟨a, ha, hserved⟩ := hok bytes hr
        exact ⟨a, List.mem_cons_of_mem _ ha, hserved⟩
      · intro reasons hr
        obtain ⟨hpeers, hnone⟩ := herror reasons hr
        refine ⟨by rw [List.map_cons, hpeers], fun a ha => ?_⟩
        cases ha with
        | head => exact hnot
        | tail _ ha => exact hnone a ha

/-- A holder that was asked and did not serve the chunk does not always serve it. -/
theorem AsksFor.not_servesAlways (h : AsksFor seams c offset len w asks w') {a : ChunkAsk}
    (ha : a ∈ asks) (hnot : ¬ a.Serves seams expected) :
    ¬ ServesAlways seams c offset len expected a.peer := by
  intro halways
  obtain ⟨t, ht⟩ := h.answered a ha
  obtain ⟨answer, hanswer, hattributed⟩ := halways t
  refine hnot ⟨answer, ht.trans hanswer, ?_⟩
  rw [(h.window a ha).2]
  exact hattributed

/-! ## Both passes -/

/-- When the holders are located again, if the first pass serves nothing. -/
def relocateTick (w : PullWorld) : Nat := w.tick + 1 + w.own.length

/-- How fetching a chunk comes out, for a chunk at `offset` of the given length and hash:
`refreshed` are the holders that locating again finds, `run` is the end of the fetch. -/
structure ChunkFetched (seams : ModuleSeams) (c : Capsule) (offset len : Nat) (expected : String)
    (w : PullWorld) (refreshed : List ProviderRecord) (run : Except DownloadError Bytes × PullWorld) :
    Prop where
  available : (∃ p ∈ mergeNewProviders w.own refreshed,
      ServesAlways seams c offset len expected p.providerPeerId) → ∃ bytes, run.1 = .ok bytes
  sound : ∀ bytes, run.1 = .ok bytes →
    bytes.length = len ∧ hexOf (seams.sha256 bytes) = expected
  asks : ∃ seg, run.2.trace = w.trace ++ seg ∧
    (∀ a ∈ chunkAsks seg, a.offset = offset ∧ a.len = len) ∧
    ((∀ a ∈ chunkAsks seg, ¬ a.Serves seams expected) ↔ ∃ e, run.1 = .error e) ∧
    ((∃ e, run.1 = .error e) →
      ∃ fresh, run.2.own = w.own ++ fresh ∧ Learnt w.own refreshed fresh ∧
        ∀ peer, ((chunkAsks seg).map (·.peer)).count peer
          = 2 * (w.own.map (·.providerPeerId)).count peer
            + (fresh.map (·.providerPeerId)).count peer)

variable {refreshed : List ProviderRecord} {asks' : List ChunkAsk} {w₁ w₂ : PullWorld}

/-- The mark of the chunk and the requests of a pass, as a stretch of the trace. -/
theorem AsksFor.chunkAsks_seg (h : AsksFor seams c offset len (w.note (.ask (.fetchChunk index)))
    asks w') :
    ∃ seg, w'.trace = w.trace ++ seg ∧ chunkAsks seg = asks := by
  refine ⟨.ask (.fetchChunk index) :: asks.map ChunkAsk.effect, ?_, ?_⟩
  · rw [h.trace]
    simp
  · show chunkAsks ([_] ++ _) = _
    rw [chunkAsks_append, chunkAsks_effect]
    rfl

/-- The same over both passes and the call to the locator between them. -/
theorem AsksFor.chunkAsks_segs
    (h : AsksFor seams c offset len (w.note (.ask (.fetchChunk index))) asks w₁)
    {answer : Except DownloadError (List ProviderRecord)} {own : List ProviderRecord}
    (h' : AsksFor seams c offset len
      { w₁.note (.ask (.findProviders answer)) with own := own } asks' w₂) :
    ∃ seg, w₂.trace = w.trace ++ seg ∧ chunkAsks seg = asks ++ asks' := by
  obtain ⟨seg, hseg, hasks⟩ := h.chunkAsks_seg
  refine ⟨seg ++ [.ask (.findProviders answer)] ++ asks'.map ChunkAsk.effect, ?_, ?_⟩
  · rw [h'.trace]
    simp [hseg]
  · rw [chunkAsks_append, chunkAsks_append, hasks, chunkAsks_effect]
    simp [chunkAsks, Effect.chunkAsk?]

/-- A fetch that ends with the chunk. -/
theorem chunkFetched_ok {bytes : Bytes} {seg : List (Effect ModuleAsk)}
    (hattributed : Attributed seams len expected bytes) (hseg : w'.trace = w.trace ++ seg)
    (hwindow : ∀ a ∈ chunkAsks seg, a.offset = offset ∧ a.len = len)
    (hserved : ∃ a ∈ chunkAsks seg, a.Serves seams expected) :
    ChunkFetched seams c offset len expected w refreshed (.ok bytes, w') where
  available _ := ⟨bytes, rfl⟩
  sound := by
    intro bytes' hbytes'
    cases hbytes'
    exact hattributed
  asks := by
    refine ⟨seg, hseg, hwindow, ?_, ?_⟩
    · constructor
      · intro hnone
        obtain ⟨a, ha, hserves⟩ := hserved
        exact absurd hserves (hnone a ha)
      · rintro ⟨e, he⟩
        cases he
    · rintro ⟨e, he⟩
      cases he

/-- A fetch that ends without it, after both passes. -/
theorem chunkFetched_error {e : DownloadError}
    (hfirst : AsksFor seams c offset len (w.note (.ask (.fetchChunk index))) asks w₁)
    (hpeers : asks.map (·.peer) = rotation w.own index)
    (hnone : ∀ a ∈ asks, ¬ a.Serves seams expected)
    {answer : Except DownloadError (List ProviderRecord)}
    (hsecond : AsksFor seams c offset len
      { w₁.note (.ask (.findProviders answer)) with own := mergeNewProviders w.own refreshed }
      asks' w₂)
    (hpeers' : asks'.map (·.peer) = rotation (mergeNewProviders w.own refreshed) index)
    (hnone' : ∀ a ∈ asks', ¬ a.Serves seams expected) :
    ChunkFetched seams c offset len expected w refreshed (.error e, w₂) where
  available := by
    rintro ⟨p, hp, halways⟩
    have hmem := mem_rotation index hp
    rw [← hpeers'] at hmem
    obtain ⟨a, ha, hid⟩ := List.mem_map.mp hmem
    exact absurd (hid ▸ halways) (hsecond.not_servesAlways ha (hnone' a ha))
  sound := by
    intro bytes hbytes
    cases hbytes
  asks := by
    obtain ⟨seg, hseg, hall⟩ := hfirst.chunkAsks_segs hsecond
    refine ⟨seg, hseg, ?_, ?_, ?_⟩
    · intro a ha
      rw [hall] at ha
      rcases List.mem_append.mp ha with ha | ha
      · exact hfirst.window a ha
      · exact hsecond.window a ha
    · refine ⟨fun _ => ⟨e, rfl⟩, fun _ a ha => ?_⟩
      rw [hall] at ha
      rcases List.mem_append.mp ha with ha | ha
      · exact hnone a ha
      · exact hnone' a ha
    · intro _
      obtain ⟨fresh, hmerge, hlearnt⟩ := mergeNewProviders_learnt w.own refreshed
      refine ⟨fresh, hsecond.own.trans hmerge, hlearnt, fun peer => ?_⟩
      rw [hall, List.map_append, List.count_append, hpeers, hpeers', count_rotation,
        count_rotation, hmerge, List.map_append, List.count_append]
      omega

/-- Fetching a chunk succeeds when a known holder, or one that is newly located, always serves
it; it ends with an error exactly when none of its requests is answered with the chunk, and
has then made two of them for each known entry and one for each new holder. -/
theorem fetchVerifiedChunk_available (seams : ModuleSeams) (c : Capsule) (info : ModuleInfo)
    (layout : ChunkPlan) (index : Nat) (w : PullWorld) (content : ContentId)
    (refreshed : List ProviderRecord) (hid : moduleContentId c = some content)
    (hlocated : seams.findProviders (relocateTick w) content = .ok refreshed) :
    ChunkFetched seams c (layout.chunkSpan index).1 (layout.chunkSpan index).2
      (info.chunkHashes.getD index "") w refreshed
      (fetchVerifiedChunk seams c info layout index w) := by
  have hrun : wp (fetchVerifiedChunk seams c info layout index)
      (fun bytes w' => ChunkFetched seams c (layout.chunkSpan index).1 (layout.chunkSpan index).2
        (info.chunkHashes.getD index "") w refreshed (.ok bytes, w'))
      (fun e w' => ChunkFetched seams c (layout.chunkSpan index).1 (layout.chunkSpan index).2
        (info.chunkHashes.getD index "") w refreshed (.error e, w')) w := by
    rw [fetchVerifiedChunk, wp_bind, wp_markPull, wp_bind, wp_read, wp_bind]
    refine ((wp_tryHolders_pass _ _ _ _ _ _).and (wp_tryHolders _ _ _ _ _ _)).mono ?_
      (fun _ _ h => h.1.elim)
    rintro r w₁ ⟨⟨asks, hfirst, hok, herror⟩, hsound⟩
    cases r with
    | ok bytes =>
      obtain ⟨seg, hseg, hasks⟩ := hfirst.chunkAsks_seg
      refine chunkFetched_ok (hsound bytes rfl).1 hseg ?_ ?_
      · rw [hasks]
        exact hfirst.window
      · rw [hasks]
        exact hok bytes rfl
    | error reasons =>
      obtain ⟨hpeers, hnone⟩ := herror reasons rfl
      have htick : w₁.tick = relocateTick w := by
        have hlen := congrArg List.length hpeers
        have htrace := congrArg List.length hfirst.trace
        simp only [rotation, List.length_map, List.length_range] at hlen
        simp only [World.note_own, World.note_trace, List.length_append, List.length_map,
          List.length_singleton, hlen] at hlen htrace
        exact htrace
      dsimp only
      rw [hid]
      dsimp only
      rw [wp_bind, show wp (Prog.bind _ _) _ _ w₁ ↔ _ from wp_bind _ _, wp_askSeam, htick,
        hlocated, wp_ofExcept_ok, wp_bind, wp_update, wp_bind, wp_read, wp_bind]
      have hown : w₁.own = w.own := hfirst.own
      rw [World.note_own, hown]
      refine ((wp_tryHolders_pass _ _ _ _ _ _).and (wp_tryHolders _ _ _ _ _ _)).mono ?_
        (fun _ _ h => h.1.elim)
      rintro r w₂ ⟨⟨asks', hsecond, hok', herror'⟩, hsound'⟩
      cases r with
      | ok bytes =>
        obtain ⟨seg, hseg, hall⟩ := hfirst.chunkAsks_segs hsecond
        refine chunkFetched_ok (hsound' bytes rfl).1 hseg ?_ ?_
        · intro a ha
          rw [hall] at ha
          rcases List.mem_append.mp ha with ha | ha
          · exact hfirst.window a ha
          · exact hsecond.window a ha
        · obtain ⟨a, ha, hserves⟩ := hok' bytes rfl
          exact ⟨a, hall ▸ List.mem_append_right _ ha, hserves⟩
      | error reasons' =>
        obtain ⟨hpeers', hnone'⟩ := herror' reasons' rfl
        exact chunkFetched_error hfirst hpeers hnone hsecond hpeers' hnone'
  rw [wp] at hrun
  cases hend : fetchVerifiedChunk seams c info layout index w with
  | mk r w' =>
    rw [hend] at hrun
    cases r with
    | ok bytes => exact hrun
    | error e => exact hrun

end Passes

/-- The small module as a single chunk. -/
def smallLayout : ChunkPlan where
  totalSize := 3
  chunkLens := [3]
  offsets := [0]
  lens_sum := rfl
  lens_ne_nil := by simp
  lens_count := by decide
  offsets_eq := rfl
  fits := by decide

/-- A pull that knows one holder. -/
def oneHolder : PullWorld :=
  { PullWorld.fresh emptySink emptyStore with own := [{ providerPeerId := holderA, addresses := [] }] }

/-- A pull that knows a silent holder and one that has other bytes. -/
def poorHolders : PullWorld :=
  { PullWorld.fresh emptySink emptyStore with
    own := [{ providerPeerId := "silent", addresses := [] },
      { providerPeerId := holderB, addresses := [] }] }

/-- The locator then names one of them again, and a third, which serves. -/
def growingHolders : List ProviderRecord :=
  [{ providerPeerId := holderB, addresses := [] }, { providerPeerId := holderA, addresses := [] }]

def growingSeams : ModuleSeams :=
  { smallSeams with
    findProviders := fun _ _ => .ok growingHolders
    fetchModuleRange := fun _ peer _ offset len =>
      if peer = holderA then some (.ok (slice smallModule offset len))
      else if peer = holderB then some (.ok (List.replicate len 0)) else none }

/-- The chunk is obtained in the second pass, of the holder that was located for it. -/
theorem fetchVerifiedChunk_small :
    (fetchVerifiedChunk growingSeams smallCapsule (smallInfo [3]) smallLayout 0 poorHolders).1
        = .ok smallModule ∧
      ChunkFetched growingSeams smallCapsule 0 3 (hexOf (smallSha256 smallModule)) poorHolders
        growingHolders
        (fetchVerifiedChunk growingSeams smallCapsule (smallInfo [3]) smallLayout 0
          poorHolders) := by
  obtain ⟨content, hid⟩ : ∃ content, moduleContentId smallCapsule = some content :=
    Option.isSome_iff_exists.mp (by decide +kernel)
  exact ⟨by decide +kernel, fetchVerifiedChunk_available growingSeams smallCapsule (smallInfo [3])
    smallLayout 0 poorHolders content growingHolders hid rfl⟩

/-- The small capsule with a holder that misses its first request. -/
def flakySeams : ModuleSeams :=
  { smallSeams with
    fetchModuleRange := fun t _ _ offset len =>
      if t = 1 then none else some (.ok (slice smallModule offset len)) }

/-- No holder always serves the chunk, and yet it is obtained: the second pass asks again. -/
theorem flaky_holder_serves :
    (¬ ∃ p ∈ mergeNewProviders oneHolder.own [{ providerPeerId := holderA, addresses := [] }],
      ServesAlways flakySeams smallCapsule 0 3 (hexOf (smallSha256 smallModule))
        p.providerPeerId) ∧
    (fetchVerifiedChunk flakySeams smallCapsule (smallInfo [3]) smallLayout 0 oneHolder).1
      = .ok smallModule := by
  constructor
  · rintro ⟨p, -, halways⟩
    obtain ⟨answer, hanswer, -⟩ := halways 1
    cases hanswer
  · decide +kernel

end DigDownload
