import DigDownload.Module.Availability
import DigDownload.Module.Reputation
import DigDownload.Module.Resumption

/-!
# Pulls that find leftovers

A pull may find a checkpoint and staged bytes that earlier pulls have left behind, of this
plan or of another one, whole or damaged. Where the holders serve the chunks of the
descriptor, the leftovers decide which chunks are fetched and nothing else: a chunk that
is absorbed is the one the descriptor's hash stands for, whether it was read back or
fetched, and the chunks are absorbed in the order of the plan.
-/

namespace DigDownload

open Slices Tiling
open Prog hiding bind_assoc bind_pure

/-! ## A pull up to one of its chunks -/

section Stages

variable (seams : ModuleSeams) (c : Capsule) (info : ModuleInfo)

/-- The first `n` turns of the staging loop. -/
def stagingTurns (layout : ChunkPlan) (state : DownloadState) (n : Nat) :
    Prog PullWorld PullFailure Staging :=
  (List.range n).foldlM (stageChunk seams c info layout state.doneRanges)
    { state := state.takeDone, hashed := [], anyChunkVerified := false }

/-- A pull that is stopped when its staging loop reaches chunk `n`. -/
def pullUpTo (n : Nat) : Prog PullWorld PullFailure Staging := do
  let entered ← enterStaging seams c info
  stagingTurns seams c info entered.1 entered.2 n

/-- A pull enters the staging loop, takes all its turns and passes the gates. -/
theorem pullWithDescriptor_eq_turns :
    pullWithDescriptor seams c info = (do
      let entered ← enterStaging seams c info
      let staging ← stagingTurns seams c info entered.1 entered.2 entered.1.chunkCount
      gateAndPromote seams c info entered.1 staging.hashed) :=
  pullWithDescriptor_eq_stages seams c info

theorem stagingTurns_succ (layout : ChunkPlan) (state : DownloadState) (n : Nat) :
    stagingTurns seams c info layout state (n + 1) = (do
      let acc ← stagingTurns seams c info layout state n
      stageChunk seams c info layout state.doneRanges acc n) := by
  rw [stagingTurns, stagingTurns, List.range_succ, List.foldlM_append]
  simp only [List.foldlM_cons, List.foldlM_nil, bind_pure]

end Stages

/-! ## The property -/

/-- The chunk that had to be fetched, if the effect is the mark of one. -/
def Effect.chunkFetch? : Effect ModuleAsk → Option Nat
  | .ask (.fetchChunk i) => some i
  | _ => none

/-- The chunks that had to be fetched in a stretch of the trace, in order. -/
def chunkFetches (log : List (Effect ModuleAsk)) : List Nat := log.filterMap Effect.chunkFetch?

section Property

variable (seams : ModuleSeams) (c : Capsule) (info : ModuleInfo)

/-- The same start without the checkpoint of the capsule and without staged bytes. -/
def withoutLeftovers (w : PullWorld) : PullWorld :=
  { w with
    sink := { w.sink with staged := [] }
    store := w.store.put (moduleDownloadKey c) none }

/-- Each chunk of the descriptor is served by a holder that is known, whenever that holder is
asked. What the others answer is left open. -/
def ChunksServed (known : List ProviderRecord) : Prop :=
  ∀ i len expected, info.chunkLens[i]? = some len → info.chunkHashes[i]? = some expected →
    ∃ p ∈ known, ServesAlways seams c (start info.chunkLens i) len expected p.providerPeerId

/-- The bytes that a pull may hash as chunk `i`: what a holder answers for its window, or
what was left there in the staging area. -/
inductive Candidate (staged : Bytes) (i : Nat) : Bytes → Prop
  | served {t : Nat} {peer : String} {answer : Bytes}
      (h : seams.fetchModuleRange t peer c (start info.chunkLens i) (info.chunkLens.getD i 0)
        = some (.ok answer)) :
      Candidate staged i (answer.take (info.chunkLens.getD i 0))
  | staged : Candidate staged i (slice staged (start info.chunkLens i) (info.chunkLens.getD i 0))

/-- No two candidates for one chunk collide. -/
def CollisionFree (staged : Bytes) : Prop :=
  ∀ i bytes bytes', Candidate seams c info staged i bytes →
    Candidate seams c info staged i bytes' → bytes.length = bytes'.length →
    hexOf (seams.sha256 bytes) = hexOf (seams.sha256 bytes') → bytes = bytes'

/-- The verifier gives the same answer about the same module whenever it is asked. -/
def AnchorsSteadily : Prop :=
  ∀ t reader, seams.verifyModuleAnchor t reader c = seams.verifyModuleAnchor 0 reader c

/-- The chunk is checkpointed under the lengths of the descriptor, and what is staged when
the loop reaches it has its length and its hash. -/
def ResumedInTurn (w : PullWorld) (i : Nat) : Prop :=
  (∃ prev, w.store.checkpoints (moduleDownloadKey c) = some prev ∧
    prev.Records info.chunkLens i) ∧
  Matches seams.sha256 (pullUpTo seams c info i w).2.sink info i

end Property

/-! ## Stretches of a run and their fetches -/

/-- `w'` is `w` after a stretch in which exactly these chunks had to be fetched. -/
def Fetches (fetched : List Nat) (w w' : PullWorld) : Prop :=
  ∃ seg, w'.trace = w.trace ++ seg ∧ chunkFetches seg = fetched

section Fetches

variable {fetched fetched' : List Nat} {w w' w'' : PullWorld}

theorem Fetches.trans (h : Fetches fetched w w') (h' : Fetches fetched' w' w'') :
    Fetches (fetched ++ fetched') w w'' := by
  obtain ⟨seg, hseg, hfetched⟩ := h
  obtain ⟨seg', hseg', hfetched'⟩ := h'
  refine ⟨seg ++ seg', ?_, ?_⟩
  · rw [hseg', hseg, List.append_assoc]
  · rw [← hfetched, ← hfetched']
    exact List.filterMap_append

/-- A stretch without marks. -/
theorem Fetches.of_appends {K : Effect ModuleAsk → Prop} (h : Appends K w w')
    (hK : ∀ e, K e → e.chunkFetch? = none) : Fetches [] w w' := by
  obtain ⟨seg, hseg, hk⟩ := h
  exact ⟨seg, hseg, List.filterMap_eq_nil_iff.mpr fun e he => hK e (hk e he)⟩

theorem Fetches.note {e : Effect ModuleAsk} (he : e.chunkFetch? = none)
    (h : Fetches fetched w w') : Fetches fetched w (w'.note e) := by
  have hnote : Fetches [] w' (w'.note e) := ⟨[e], rfl, by simp [chunkFetches, he]⟩
  have hall := h.trans hnote
  rwa [List.append_nil] at hall

theorem Fetches.refl (w : PullWorld) : Fetches [] w w := ⟨[], by simp, rfl⟩

end Fetches

/-! ## Fetching a chunk that is served -/

section Pull

variable {seams : ModuleSeams} {c : Capsule} {info : ModuleInfo} {layout : ChunkPlan}
  {w w₁ : PullWorld} {n offset len : Nat} {expected : String} {acc : Staging}

/-- The bytes are the answer of a holder, cut to the window. -/
def AnsweredBy (seams : ModuleSeams) (c : Capsule) (offset len : Nat) (bytes : Bytes) : Prop :=
  ∃ t peer answer, seams.fetchModuleRange t peer c offset len = some (.ok answer) ∧
    bytes = answer.take len

theorem wp_fetchChunkFrom_answered (peer : String) (w : PullWorld) :
    wp (fetchChunkFrom seams c peer offset len expected)
      (fun r _ => ∀ bytes, r = .ok bytes → AnsweredBy seams c offset len bytes)
      (fun _ _ => False) w := by
  rw [fetchChunkFrom, wp_bind, wp_askSeam]
  cases hanswer : seams.fetchModuleRange w.tick peer c offset len with
  | none => simp
  | some answer =>
    cases answer with
    | error e => simp
    | ok answer =>
      dsimp only
      split
      · simp
      split
      · simp
      · rw [wp_pure]
        intro bytes hbytes
        cases hbytes
        exact ⟨w.tick, peer, answer, hanswer, rfl⟩

theorem wp_tryHolders_answered (peers : List String) (reasons : HolderReasons) (w : PullWorld) :
    wp (tryHolders seams c offset len expected peers reasons)
      (fun r _ => ∀ bytes, r = .ok bytes → AnsweredBy seams c offset len bytes)
      (fun _ _ => False) w := by
  induction peers generalizing reasons w with
  | nil => simp [tryHolders]
  | cons peer peers ih =>
    rw [tryHolders, wp_bind]
    refine (wp_fetchChunkFrom_answered peer w).mono ?_ (fun _ _ h => h)
    intro r w₁ hr
    cases r with
    | ok bytes =>
      intro bytes' hbytes'
      cases hbytes'
      exact hr bytes rfl
    | error reason => exact ih _ w₁

@[simp] theorem chunkFetches_asks (asks : List ChunkAsk) :
    chunkFetches (asks.map ChunkAsk.effect) = [] := by
  induction asks with
  | nil => rfl
  | cons a asks ih => exact ih

/-- A chunk that a known holder always serves is fetched in the first pass over the holders. -/
theorem wp_fetchVerifiedChunk_served
    (hserved : ∃ p ∈ w.own, ServesAlways seams c (layout.chunkSpan n).1 (layout.chunkSpan n).2
      (info.chunkHashes.getD n "") p.providerPeerId) :
    wp (fetchVerifiedChunk seams c info layout n)
      (fun bytes w' => w'.own = w.own ∧ Fetches [n] w w' ∧
        AnsweredBy seams c (layout.chunkSpan n).1 (layout.chunkSpan n).2 bytes)
      (fun _ _ => False) w := by
  obtain ⟨p, hp, halways⟩ := hserved
  have hmem : p.providerPeerId ∈ rotation w.own n := mem_rotation n hp
  rw [fetchVerifiedChunk, wp_bind, wp_markPull, wp_bind, wp_read, wp_bind]
  refine (((wp_tryHolders_of_mem halways _ [] _ hmem).and (wp_tryHolders_pass _ _ _ _ [] _)).and
    (wp_tryHolders_answered _ [] _)).mono ?_ (fun _ _ h => h.1.1)
  rintro r w' ⟨⟨⟨bytes, rfl⟩, asks, hasks, -, -⟩, hanswered⟩
  rw [wp_pure]
  refine ⟨hasks.own, ⟨.ask (.fetchChunk n) :: asks.map ChunkAsk.effect, ?_, ?_⟩,
    hanswered bytes rfl⟩
  · rw [hasks.trace, World.note_trace, List.append_assoc]
    rfl
  · show n :: chunkFetches (asks.map ChunkAsk.effect) = [n]
    rw [chunkFetches_asks]

/-! ## The staging loop -/

/-- What the descriptor's hashes stand for: piece `i` is the only candidate for chunk `i`,
and a known holder serves it. -/
structure Pinned (seams : ModuleSeams) (c : Capsule) (info : ModuleInfo) (layout : ChunkPlan)
    (known : List ProviderRecord) (staged : Bytes) (piece : Nat → Bytes) : Prop where
  lens : layout.chunkLens = info.chunkLens
  served : ∀ i < layout.chunkCount, ∃ p ∈ known, ServesAlways seams c (layout.chunkSpan i).1
    (layout.chunkSpan i).2 (info.chunkHashes.getD i "") p.providerPeerId
  unique : ∀ i < layout.chunkCount, ∀ bytes, Candidate seams c info staged i bytes →
    Attributed seams (layout.chunkSpan i).2 (info.chunkHashes.getD i "") bytes → bytes = piece i

/-- Where nothing collides, holders that serve the chunks pin them down. -/
theorem exists_pinned {known : List ProviderRecord} {staged : Bytes}
    (hserved : ChunksServed seams c info known) (hno : CollisionFree seams c info staged)
    (hlens : layout.chunkLens = info.chunkLens)
    (hhashes : info.chunkLens.length = info.chunkHashes.length) :
    ∃ piece, Pinned seams c info layout known staged piece := by
  have hspan : ∀ i, i < layout.chunkCount →
      layout.chunkSpan i = (start info.chunkLens i, info.chunkLens.getD i 0) := by
    intro i hi
    rw [layout.chunkSpan_of_lt hi, ← hlens, List.getD, List.getElem?_eq_getElem hi]
    rfl
  have hholder : ∀ i, i < layout.chunkCount → ∃ p ∈ known, ServesAlways seams c
      (layout.chunkSpan i).1 (layout.chunkSpan i).2 (info.chunkHashes.getD i "")
      p.providerPeerId := by
    intro i hi
    have hlt : i < info.chunkLens.length := by
      rw [← hlens]
      exact hi
    have hlt' : i < info.chunkHashes.length := by
      rw [← hhashes]
      exact hlt
    rw [hspan i hi, List.getD, List.getElem?_eq_getElem hlt, List.getD,
      List.getElem?_eq_getElem hlt']
    exact hserved i _ _ (List.getElem?_eq_getElem hlt) (List.getElem?_eq_getElem hlt')
  -- the piece of a chunk is the first answer of the holder that serves it
  have hpiece : ∀ i, ∃ piece, i < layout.chunkCount → ∀ bytes,
      Candidate seams c info staged i bytes →
      Attributed seams (layout.chunkSpan i).2 (info.chunkHashes.getD i "") bytes →
      bytes = piece := by
    intro i
    by_cases hi : i < layout.chunkCount
    · obtain ⟨p, -, halways⟩ := hholder i hi
      obtain ⟨answer, hanswer, hattr⟩ := halways 0
      refine ⟨answer.take (layout.chunkSpan i).2, fun _ bytes hcand hattr' => ?_⟩
      rw [hspan i hi] at hanswer hattr hattr' ⊢
      exact hno i _ _ hcand (.served hanswer) (hattr'.1.trans hattr.1.symm)
        (hattr'.2.trans hattr.2.symm)
    · exact ⟨[], fun h => absurd h hi⟩
  choose piece hunique using hpiece
  exact ⟨piece, hlens, hholder, hunique⟩

/-- The staging loop at turn `n`, started in `w₁`: it has absorbed the first pieces, and what
lies behind them in the staging area is what lay there at the start. -/
structure Assembling (seams : ModuleSeams) (info : ModuleInfo) (layout : ChunkPlan)
    (piece : Nat → Bytes) (w₁ : PullWorld) (n : Nat) (acc : Staging) (w : PullWorld) : Prop where
  staged : StagedPrefix seams info layout n acc w
  hashed : acc.hashed = ((List.range n).map piece).flatten
  known : w.own = w₁.own
  readBack : w.sink.supportsReadBack = w₁.sink.supportsReadBack
  artifacts : w.sink.artifacts = w₁.sink.artifacts
  behind : w.sink.staged.drop (start layout.chunkLens n)
    = w₁.sink.staged.drop (start layout.chunkLens n)

/-- A write changes nothing behind it. -/
theorem Sink.drop_write (s : Sink) {off n : Nat} {bytes : Bytes} (h : off + bytes.length ≤ n) :
    (s.write off bytes).staged.drop n = s.staged.drop n := by
  unfold Sink.write
  split
  · rfl
  · exact drop_overwrite 0 s.staged bytes h

/-- The run after `n` turns, but for how the first pieces are staged. -/
structure Absorbed (layout : ChunkPlan) (piece : Nat → Bytes) (w₁ : PullWorld) (n : Nat)
    (hashed : Bytes) (w : PullWorld) : Prop where
  hashed : hashed = ((List.range n).map piece).flatten
  known : w.own = w₁.own
  readBack : w.sink.supportsReadBack = w₁.sink.supportsReadBack
  artifacts : w.sink.artifacts = w₁.sink.artifacts
  behind : w.sink.staged.drop (start layout.chunkLens n)
    = w₁.sink.staged.drop (start layout.chunkLens n)

theorem Assembling.absorbed {piece : Nat → Bytes}
    (h : Assembling seams info layout piece w₁ n acc w) :
    Absorbed layout piece w₁ n acc.hashed w :=
  ⟨h.hashed, h.known, h.readBack, h.artifacts, h.behind⟩

theorem Absorbed.assembling {piece : Nat → Bytes}
    (h : Absorbed layout piece w₁ n acc.hashed w) (hstaged : StagedPrefix seams info layout n acc w) :
    Assembling seams info layout piece w₁ n acc w :=
  ⟨hstaged, h.hashed, h.known, h.readBack, h.artifacts, h.behind⟩

/-- A turn that touches nothing behind its chunk absorbs the piece of it. -/
theorem Absorbed.succ {piece : Nat → Bytes} {hashed bytes : Bytes} {w' : PullWorld}
    (h : Absorbed layout piece w₁ n hashed w) (hn : n < layout.chunkCount)
    (hpiece : bytes = piece n) (hown : w'.own = w.own)
    (hreadBack : w'.sink.supportsReadBack = w.sink.supportsReadBack)
    (hartifacts : w'.sink.artifacts = w.sink.artifacts)
    (hbehind : w'.sink.staged.drop (start layout.chunkLens (n + 1))
      = w.sink.staged.drop (start layout.chunkLens (n + 1))) :
    Absorbed layout piece w₁ (n + 1) (hashed ++ bytes) w' where
  hashed := by
    rw [hpiece, List.range_succ, List.map_append, List.flatten_append, ← h.hashed]
    simp
  known := hown.trans h.known
  readBack := hreadBack.trans h.readBack
  artifacts := hartifacts.trans h.artifacts
  behind := by
    rw [hbehind, start_succ hn, ← List.drop_drop, h.behind, List.drop_drop]

/-- The window of a chunk is where the descriptor says. -/
theorem Pinned.window {known : List ProviderRecord} {staged : Bytes} {piece : Nat → Bytes}
    {layout : ChunkPlan} (h : Pinned seams c info layout known staged piece)
    (hn : n < layout.chunkCount) :
    layout.chunkSpan n = (start info.chunkLens n, info.chunkLens.getD n 0) := by
  have hlt : n < layout.chunkLens.length := hn
  rw [layout.chunkSpan_of_lt hn, ← h.lens, List.getD, List.getElem?_eq_getElem hlt]
  rfl

/-- What is resumed is the piece: nothing has been written there since the loop began. -/
theorem Absorbed.resumed_piece {piece : Nat → Bytes} {hashed staged bytes : Bytes}
    (h : Absorbed layout piece w₁ n hashed w)
    (hpinned : Pinned seams c info layout w₁.own staged piece) (hn : n < layout.chunkCount)
    (hstaged : w₁.sink.staged = staged)
    (hread : w.sink.read (layout.chunkSpan n).1 (layout.chunkSpan n).2 = .ok bytes)
    (hattr : Attributed seams (layout.chunkSpan n).2 (info.chunkHashes.getD n "") bytes) :
    bytes = piece n := by
  refine hpinned.unique n hn bytes ?_ hattr
  obtain ⟨hbytes, -, -, -⟩ := Sink.read_ok hread
  have hslice : bytes = slice staged (start info.chunkLens n) (info.chunkLens.getD n 0) := by
    rw [hbytes, hpinned.window hn, ← hstaged]
    show (w.sink.staged.drop _).take _ = (w₁.sink.staged.drop _).take _
    rw [← hpinned.lens, h.behind]
  rw [hslice]
  exact .staged

/-- A turn, but for how its piece is staged. The chunk is fetched unless it is checkpointed
and what is staged matches. -/
theorem wp_stageChunk_absorbed (hhost : seams.host.Sound) {checkpointed : Finset Nat}
    {staged : Bytes} {piece : Nat → Bytes}
    (hpinned : Pinned seams c info layout w₁.own staged piece)
    (hstaged : ∀ i ∈ checkpointed, w₁.sink.staged = staged)
    (h : Absorbed layout piece w₁ n acc.hashed w) (hn : n < layout.chunkCount) :
    wp (stageChunk seams c info layout checkpointed acc n)
      (fun acc' w' => Absorbed layout piece w₁ (n + 1) acc'.hashed w' ∧
        Fetches (if n ∈ checkpointed ∧ Matches seams.sha256 w.sink info n then [] else [n]) w w')
      (fun _ _ => False) w := by
  have hwindow := hpinned.window hn
  rw [stageChunk, wp_bind, wp_orTerminal]
  refine ((wp_resumedChunk checkpointed n _ _ w).and
    (wp_resumedChunk_matches hhost.readAt hpinned.lens hn checkpointed w)).mono ?_
    (fun _ _ h => h.1.elim)
  rintro r w₂ ⟨⟨hw₂, hresumed⟩, hnone⟩
  cases r with
  | some bytes =>
    obtain ⟨hmem, hread, hattr, rfl⟩ := hresumed bytes rfl
    have hmatches : Matches seams.sha256 w.sink info n := by
      refine ⟨bytes, ?_, hattr.2⟩
      rw [hwindow] at hread
      exact hread
    have hpiece := h.resumed_piece hpinned hn (hstaged n hmem) hread hattr
    rw [if_pos ⟨hmem, hmatches⟩, wp_pure]
    exact ⟨h.succ hn hpiece rfl rfl rfl rfl, (Fetches.refl w).note rfl⟩
  | none =>
    have hnot : ¬ (n ∈ checkpointed ∧ Matches seams.sha256 w.sink info n) :=
      fun hboth => hnone rfl hboth.1 hboth.2
    have hsame : w₂.own = w.own ∧ w₂.sink = w.sink ∧ Fetches [] w w₂ := by
      rcases hw₂ with rfl | ⟨a, rfl⟩
      · exact ⟨rfl, rfl, Fetches.refl _⟩
      · exact ⟨rfl, rfl, (Fetches.refl _).note rfl⟩
    obtain ⟨hown₂, hsink₂, hfetches₂⟩ := hsame
    have hserved : ∃ p ∈ w₂.own, ServesAlways seams c (layout.chunkSpan n).1
        (layout.chunkSpan n).2 (info.chunkHashes.getD n "") p.providerPeerId := by
      rw [hown₂, h.known]
      exact hpinned.served n hn
    dsimp only
    rw [if_neg hnot, wp_bind, wp_handle]
    refine (((wp_fetchVerifiedChunk_served hserved).and (wp_fetchVerifiedChunk layout n w₂)).and
      ((quiet_fetchVerifiedChunk layout n).wp w₂)).mono ?_ (fun _ _ h => h.1.1.elim)
    rintro bytes w₃ ⟨⟨⟨hown₃, hfetches₃, t, peer, answer, hanswer, hbytes⟩, hattr, -⟩, hquiet⟩
    have hpiece : bytes = piece n := by
      refine hpinned.unique n hn bytes ?_ hattr
      rw [hwindow] at hanswer hbytes
      rw [hbytes]
      exact .served hanswer
    have hfits : (layout.chunkSpan n).1 + bytes.length ≤ u64Max := by
      rw [hattr.1]
      exact layout.chunkSpan_fits hn
    have hnext : (layout.chunkSpan n).1 + bytes.length ≤ start layout.chunkLens (n + 1) := by
      rw [hattr.1, layout.chunkSpan_of_lt hn]
      exact (start_succ hn).ge
    have hsink₃ : w₃.sink = w.sink := hquiet.sink.trans hsink₂
    rw [wp_pure, wp_bind, wp_orTerminal]
    refine wp_sinkWriteAt_sound hhost hfits ?_
    rw [wp_bind, wp_orTerminal]
    refine wp_storeSave_sound hhost ?_
    rw [wp_pure]
    refine ⟨h.succ hn hpiece (hown₃.trans hown₂) ?_ ?_ ?_,
      ((hfetches₂.trans hfetches₃).note rfl).note rfl⟩
    · simp [hsink₃]
    · simp [hsink₃]
    · show (w₃.sink.write _ bytes).staged.drop _ = _
      rw [Sink.drop_write _ hnext, hsink₃]

/-- One turn absorbs the piece of its chunk. The chunk is fetched unless it is checkpointed
and what is staged matches. -/
theorem wp_stageChunk_assembling (hhost : seams.host.Sound) {checkpointed : Finset Nat}
    {staged : Bytes} {piece : Nat → Bytes}
    (hpinned : Pinned seams c info layout w₁.own staged piece)
    (hstaged : ∀ i ∈ checkpointed, w₁.sink.staged = staged)
    (h : Assembling seams info layout piece w₁ n acc w) (hn : n < layout.chunkCount) :
    wp (stageChunk seams c info layout checkpointed acc n)
      (fun acc' w' => Assembling seams info layout piece w₁ (n + 1) acc' w' ∧
        Fetches (if n ∈ checkpointed ∧ Matches seams.sha256 w.sink info n then [] else [n]) w w')
      (fun _ _ => False) w := by
  refine ((wp_stageChunk checkpointed h.staged hn).and
    (wp_stageChunk_absorbed hhost hpinned hstaged h.absorbed hn)).mono ?_ (fun _ _ h => h.2)
  rintro acc' w' ⟨⟨hcovered, -⟩, habsorbed, hfetches⟩
  exact ⟨habsorbed.assembling hcovered, hfetches⟩

/-- The chunks among the first `n` that are not resumed when the loop reaches them. -/
def unresumed (seams : ModuleSeams) (c : Capsule) (info : ModuleInfo) (layout : ChunkPlan)
    (state : DownloadState) (w₁ : PullWorld) (n : Nat) : List Nat :=
  (List.range n).filter fun i => ¬ (i ∈ state.doneRanges ∧
    Matches seams.sha256 (stagingTurns seams c info layout state i w₁).2.sink info i)

/-- The loop absorbs the pieces in order and fetches the chunks that are not resumed. -/
theorem wp_stagingTurns (hhost : seams.host.Sound) {state : DownloadState} {staged : Bytes}
    {piece : Nat → Bytes} (hpinned : Pinned seams c info layout w₁.own staged piece)
    (hstaged : ∀ i ∈ state.doneRanges, w₁.sink.staged = staged) (hn : n ≤ layout.chunkCount) :
    wp (stagingTurns seams c info layout state n)
      (fun acc w' => Assembling seams info layout piece w₁ n acc w' ∧
        Fetches (unresumed seams c info layout state w₁ n) w₁ w')
      (fun _ _ => False) w₁ := by
  induction n with
  | zero => exact ⟨⟨StagedPrefix.zero _ _, rfl, rfl, rfl, rfl, rfl⟩, Fetches.refl w₁⟩
  | succ n ih =>
    obtain ⟨acc, hok, hassembling, hfetches⟩ := (ih (Nat.le_of_succ_le hn)).exists_ok
    have hrun : stagingTurns seams c info layout state n w₁
        = (.ok acc, (stagingTurns seams c info layout state n w₁).2) := Prod.ext hok rfl
    rw [stagingTurns_succ, wp_bind, wp_of_run_ok hrun]
    refine (wp_stageChunk_assembling hhost hpinned hstaged hassembling hn).mono ?_
      (fun _ _ h => h)
    rintro acc' w' ⟨hassembling', hfetches'⟩
    refine ⟨hassembling', ?_⟩
    have hall := hfetches.trans hfetches'
    have hlast : unresumed seams c info layout state w₁ (n + 1)
        = unresumed seams c info layout state w₁ n
          ++ if n ∈ state.doneRanges ∧ Matches seams.sha256
              (stagingTurns seams c info layout state n w₁).2.sink info n then [] else [n] := by
      rw [unresumed, List.range_succ, List.filter_append, ← unresumed]
      congr 1
      split
      · rename_i hresumed
        exact List.filter_cons_of_neg (by simpa using hresumed)
      · rename_i hnot
        exact List.filter_cons_of_pos (decide_eq_true hnot)
    rw [hlast]
    exact hall

/-! ## The stages of a pull -/

theorem Effect.IsEntering.chunkFetch_eq_none {e : Effect ModuleAsk} (h : e.IsEntering) :
    e.chunkFetch? = none := by
  unfold Effect.chunkFetch?
  split
  · exact h.elim
  · rfl

section Entered

variable {state : DownloadState}

/-- The chunks that are resumed are those that are checkpointed under the plan. -/
theorem Enters.mem_doneRanges (h : Enters seams c info w layout state w₁) {i : Nat}
    (hi : i < layout.chunkCount) : i ∈ state.doneRanges ↔
      ∃ prev, w.store.checkpoints (moduleDownloadKey c) = some prev ∧
        prev.Records info.chunkLens i := by
  obtain ⟨-, -, -, hlens⟩ := ChunkPlan.fromInfo_ok h.plan
  cases h with
  | resumed _ hload hsame =>
    constructor
    · intro hmem
      refine ⟨state, hload, hsame.trans hlens, hmem, ?_⟩
      rw [← hlens]
      exact hi
    · rintro ⟨prev, hprev, hrec⟩
      rw [hload, Option.some.injEq] at hprev
      rw [hprev]
      exact hrec.done
  | fresh _ hother =>
    constructor
    · intro hmem
      simp [DownloadState.new] at hmem
    · rintro ⟨prev, hprev, hrec⟩
      exact absurd (hrec.plan.trans hlens.symm) (hother prev hprev)

/-- Where a chunk may be resumed, what is staged is what the pull has found. -/
theorem Enters.staged (h : Enters seams c info w layout state w₁) {i : Nat}
    (hi : i ∈ state.doneRanges) : w₁.sink.staged = w.sink.staged ∧
      w.store.checkpoints (moduleDownloadKey c) ≠ none := by
  cases h with
  | resumed _ hload => exact ⟨rfl, by simp [hload]⟩
  | fresh => simp [DownloadState.new] at hi

end Entered

/-- How a stretch of a pull from `w` ends: its result, and the artifacts it adds. -/
structure EndsWith (outcome : Except PullFailure Nat) (promoted : List Bytes) (w : PullWorld)
    (run : Except PullFailure Nat × PullWorld) : Prop where
  result : run.1 = outcome
  artifacts : run.2.sink.artifacts = w.sink.artifacts ++ promoted

/-- What the gates make of the answer of the verifier. -/
def afterAnchor (seams : ModuleSeams) (c : Capsule) (layout : ChunkPlan) :
    ModuleAnchor → Prog PullWorld PullFailure Nat
  | .notAnchored =>
      Prog.fail (.badDescriptor (.verify (.metadata (s!"assembled module is not " ++
        s!"chain-anchored under ({c.storeId}, {c.root})"))))
  | .unavailable reason =>
      Prog.fail (.terminal (.state (s!"cannot verify the chain anchor for ({c.storeId}, " ++
        s!"{c.root}): {sanitizeUntrustedText reason maxErrorReasonChars}")))
  | .anchored => promoteModule seams (moduleDownloadKey c) layout.totalSize

section Gates

variable {outcome : Except PullFailure Nat} {promoted : List Bytes} {module : Bytes}

/-- How a stretch ends, from what holds after it. -/
theorem endsWith_of_wp {prog : Prog PullWorld PullFailure Nat}
    (h : wp prog (fun n w' => EndsWith outcome promoted w (.ok n, w'))
      (fun f w' => EndsWith outcome promoted w (.error f, w')) w) :
    EndsWith outcome promoted w (prog w) :=
  (wp_outcome (R := fun r w' => EndsWith outcome promoted w (r, w'))).mp h

/-- A module with another digest than the descriptor's is refused. -/
theorem endsWith_mismatch (c : Capsule) (layout : ChunkPlan)
    (hhash : hexOf (seams.sha256 module) ≠ info.moduleHash) :
    ∃ f, ∀ w : PullWorld,
      EndsWith (.error f) [] w (gateAndPromote seams c info layout module w) := by
  apply Exists.intro
  intro w
  refine endsWith_of_wp ?_
  rw [gateAndPromote]
  dsimp only
  rw [wp_bind, wp_markPull, if_pos hhash]
  exact ⟨rfl, (List.append_nil _).symm⟩

/-- A sink that does not read back cannot be asked about. -/
theorem endsWith_blind (c : Capsule) (layout : ChunkPlan)
    (hhash : ¬ hexOf (seams.sha256 module) ≠ info.moduleHash) :
    ∃ f, ∀ w : PullWorld, w.sink.supportsReadBack = false →
      EndsWith (.error f) [] w (gateAndPromote seams c info layout module w) := by
  apply Exists.intro
  intro w hblind
  refine endsWith_of_wp ?_
  rw [gateAndPromote]
  dsimp only
  rw [wp_bind, wp_markPull, if_neg hhash, wp_bind, wp_read, World.note_sink, if_pos hblind]
  exact ⟨rfl, (List.append_nil _).symm⟩

/-- The verifier is asked about the module itself. -/
theorem endsWith_asked (hhost : seams.host.Sound) (hanchor : AnchorsSteadily seams c)
    {acc : Staging} (hp : StagedPrefix seams info layout layout.chunkCount acc w)
    (hhash : ¬ hexOf (seams.sha256 acc.hashed) ≠ info.moduleHash)
    (hsup : w.sink.supportsReadBack = true)
    (hrest : ∀ w₁ : PullWorld, w₁.sink = w.sink →
      wp (afterAnchor seams c layout
          (seams.verifyModuleAnchor 0 (moduleView seams info layout acc.hashed) c))
        (fun n w' => EndsWith outcome promoted w (.ok n, w'))
        (fun f w' => EndsWith outcome promoted w (.error f, w')) w₁) :
    EndsWith outcome promoted w (gateAndPromote seams c info layout acc.hashed w) := by
  refine endsWith_of_wp ?_
  rw [gateAndPromote]
  dsimp only
  rw [wp_bind, wp_markPull, if_neg hhash, wp_bind, wp_read, World.note_sink, hsup,
    if_neg (by decide), wp_bind, wp_askSeam, hanchor]
  generalize Effect.ask (ModuleAsk.hashGate _ _) = gate
  have hview : (stagedReader seams info layout (w.note gate)).toModuleReader
      = moduleView seams info layout acc.hashed :=
    stagedReader_eq_moduleView hhost.readAt (hp.congr rfl) hsup
  rw [hview]
  exact hrest _ rfl

/-- A module that is anchored is promoted. -/
theorem wp_promoteModule_ends (c : Capsule) (hhost : seams.host.Sound) {acc : Staging}
    (hp : StagedPrefix seams info layout layout.chunkCount acc w)
    (hsup : w.sink.supportsReadBack = true) (hsink : w₁.sink = w.sink) :
    wp (promoteModule seams (moduleDownloadKey c) layout.totalSize)
      (fun n w' => EndsWith (.ok layout.totalSize) [acc.hashed] w (.ok n, w'))
      (fun f w' => EndsWith (.ok layout.totalSize) [acc.hashed] w (.error f, w')) w₁ := by
  have hcovers : layout.totalSize ≤ w₁.sink.staged.length := by
    rw [hsink, ← layout.start_chunkCount]
    exact hp.covers
  have hmodule : w₁.sink.staged.take layout.totalSize = acc.hashed := by
    rw [hsink, ← layout.start_chunkCount, ← hp.hashed]
  refine (wp_handle _ _).mpr ?_
  refine wp_promoteVerified_sound hhost (hsink ▸ hsup) hcovers layout.fits
    fun w₂ _ _ hsink₂ => ?_
  rw [wp_bind, wp_orTerminal]
  refine wp_storeClear_sound hhost ⟨rfl, ?_⟩
  rw [World.note_sink, hsink₂, ← hmodule, ← hsink]
  rfl

end Gates

/-- What the gates make of a module is fixed by the module. -/
theorem exists_endsWith_gateAndPromote (hhost : seams.host.Sound)
    (hanchor : AnchorsSteadily seams c) (info : ModuleInfo) (layout : ChunkPlan) (module : Bytes)
    (readBack : Bool) :
    ∃ outcome promoted, ∀ (acc : Staging) (w : PullWorld),
      StagedPrefix seams info layout layout.chunkCount acc w → acc.hashed = module →
      w.sink.supportsReadBack = readBack →
      EndsWith outcome promoted w (gateAndPromote seams c info layout acc.hashed w) := by
  by_cases hhash : hexOf (seams.sha256 module) ≠ info.moduleHash
  · obtain ⟨f, hends⟩ := endsWith_mismatch c layout hhash
    exact ⟨.error f, [], fun acc w _ hmodule _ => hmodule ▸ hends w⟩
  cases readBack with
  | false =>
    obtain ⟨f, hends⟩ := endsWith_blind c layout hhash
    exact ⟨.error f, [], fun acc w _ hmodule hblind => hmodule ▸ hends w hblind⟩
  | true =>
    cases hanswer : seams.verifyModuleAnchor 0 (moduleView seams info layout module) c with
    | notAnchored =>
      apply Exists.intro
      apply Exists.intro []
      intro acc w hp hmodule hsup
      apply endsWith_asked hhost hanchor hp (hmodule ▸ hhash) hsup
      intro w₁ hw₁
      rw [hmodule, hanswer]
      exact ⟨rfl, by rw [hw₁, List.append_nil]⟩
    | unavailable reason =>
      apply Exists.intro
      apply Exists.intro []
      intro acc w hp hmodule hsup
      apply endsWith_asked hhost hanchor hp (hmodule ▸ hhash) hsup
      intro w₁ hw₁
      rw [hmodule, hanswer]
      exact ⟨rfl, by rw [hw₁, List.append_nil]⟩
    | anchored =>
      refine ⟨.ok layout.totalSize, [module], fun acc w hp hmodule hsup =>
        endsWith_asked hhost hanchor hp (hmodule ▸ hhash) hsup fun w₁ hw₁ => ?_⟩
      rw [hmodule, hanswer]
      have hpromoted := wp_promoteModule_ends c hhost hp hsup hw₁
      rw [hmodule] at hpromoted
      exact hpromoted

/-- How a pull under a descriptor ends is fixed by what the holders serve: a checkpoint and the
staged bytes that it speaks of make no difference. -/
theorem exists_endsWith_pull (hhost : seams.host.Sound) (hanchor : AnchorsSteadily seams c)
    {known : List ProviderRecord} {staged : Bytes} (hserved : ChunksServed seams c info known)
    (hno : CollisionFree seams c info staged) (t : Nat) (readBack : Bool) :
    ∃ outcome promoted, ∀ w : PullWorld, w.own = known → w.tick = t →
      w.sink.supportsReadBack = readBack →
      (w.store.checkpoints (moduleDownloadKey c) ≠ none → w.sink.staged = staged) →
      EndsWith outcome promoted w (pullWithDescriptor seams c info w) := by
  have hends : ∀ {outcome promoted} {w : PullWorld},
      wp (pullWithDescriptor seams c info)
        (fun n w' => EndsWith outcome promoted w (.ok n, w'))
        (fun f w' => EndsWith outcome promoted w (.error f, w')) w →
      EndsWith outcome promoted w (pullWithDescriptor seams c info w) := by
    intro outcome promoted w h
    exact (wp_outcome (R := fun r w' => EndsWith outcome promoted w (r, w'))).mp h
  cases hplan : ChunkPlan.fromInfo info seams.config.maxModuleSize
      fun _ => seams.reserve t info.chunkLens.length with
  | error f =>
    refine ⟨.error f, [], fun w _ ht _ _ => hends ?_⟩
    refine wp_pullWithDescriptor_stages (fun f' w₁ hentry => ?_) (fun layout state w₁ henters => ?_)
    · obtain ⟨hf', rfl⟩ := hentry.plan_of_sound hhost
      rw [planAt, ht, hplan] at hf'
      cases hf'
      exact ⟨rfl, (List.append_nil _).symm⟩
    · have hplan' := henters.plan
      rw [planAt, ht, hplan] at hplan'
      cases hplan'
  | ok layout =>
    obtain ⟨hacceptable, -, -, hlens⟩ := ChunkPlan.fromInfo_ok hplan
    obtain ⟨piece, hpinned⟩ := exists_pinned hserved hno hlens hacceptable.hashes_length
    obtain ⟨outcome, promoted, hgates⟩ := exists_endsWith_gateAndPromote hhost hanchor info layout
      ((List.range layout.chunkCount).map piece).flatten readBack
    refine ⟨outcome, promoted, fun w hown ht hsup hleft => hends ?_⟩
    refine wp_pullWithDescriptor_stages (fun f w₁ hentry => ?_) (fun layout' state w₁ henters => ?_)
    · obtain ⟨hf, -⟩ := hentry.plan_of_sound hhost
      rw [planAt, ht, hplan] at hf
      cases hf
    · have hplan' := henters.plan
      rw [planAt, ht, hplan] at hplan'
      obtain rfl : layout = layout' := Except.ok.inj hplan'
      have hpinned₁ : Pinned seams c info layout w₁.own staged piece := by
        rw [henters.own, hown]
        exact hpinned
      have hstaged : ∀ i ∈ state.doneRanges, w₁.sink.staged = staged := by
        intro i hi
        obtain ⟨hsame, hsome⟩ := henters.staged hi
        exact hsame.trans (hleft hsome)
      rw [pullWithDescriptor.stageAndPromote, wp_bind]
      refine (wp_stagingTurns hhost hpinned₁ hstaged (Nat.le_refl _)).mono ?_ (fun _ _ h => h.elim)
      rintro acc w₂ ⟨hassembling, -⟩
      have hgate := hgates acc w₂ hassembling.staged hassembling.hashed
        (hassembling.readBack.trans (henters.keeps.supportsReadBack.trans hsup))
      refine (wp_outcome (R := fun r w' => EndsWith outcome promoted w (r, w'))).mpr
        ⟨hgate.result, ?_⟩
      rw [hgate.artifacts, hassembling.artifacts, henters.keeps.artifacts]

/-- The gates fetch nothing. -/
theorem Effect.IsGating.chunkFetch_eq_none {e : Effect ModuleAsk} (h : e.IsGating) :
    e.chunkFetch? = none := by
  unfold Effect.chunkFetch?
  split
  · exact h.elim
  · rfl

/-- A pull fetches, in order, the chunks of its plan that are not resumed in their turn. -/
theorem exists_fetches_pull (hhost : seams.host.Sound) (hserved : ChunksServed seams c info w.own)
    (hno : CollisionFree seams c info w.sink.staged) :
    ∃ fetched, Fetches fetched w (pullWithDescriptor seams c info w).2 ∧
      fetched.Pairwise (· < ·) ∧
      ∀ i, i ∈ fetched ↔ (∃ plan, ChunkPlan.fromInfo info seams.config.maxModuleSize
          (fun _ => seams.reserve w.tick info.chunkLens.length) = .ok plan) ∧
        i < info.chunkLens.length ∧ ¬ ResumedInTurn seams c info w i := by
  have hentering : wp (enterStaging seams c info) _ _ w := wp_enterStaging seams c info w
  rw [pullWithDescriptor_eq_turns]
  cases hrun : enterStaging seams c info w with
  | mk r w₁ =>
    cases r with
    | error f =>
      have hentry := (wp_of_run_error hrun).mp hentering
      obtain ⟨hplan, -⟩ := hentry.plan_of_sound hhost
      rw [planAt] at hplan
      rw [bind_of_error hrun]
      refine ⟨[], Fetches.of_appends hentry.quiet.appends
        fun _ => Effect.IsEntering.chunkFetch_eq_none, List.Pairwise.nil, fun i => ?_⟩
      simp [hplan]
    | ok entered =>
      obtain ⟨layout, state⟩ := entered
      have henters : Enters seams c info w layout state w₁ := (wp_of_run_ok hrun).mp hentering
      obtain ⟨hacceptable, -, -, hlens⟩ := ChunkPlan.fromInfo_ok henters.plan
      obtain ⟨piece, hpinned⟩ := exists_pinned hserved hno hlens hacceptable.hashes_length
      have hpinned₁ : Pinned seams c info layout w₁.own w.sink.staged piece := by
        rw [henters.own]
        exact hpinned
      obtain ⟨acc, hok, -, hfetches⟩ := (wp_stagingTurns hhost hpinned₁
        (fun i hi => (henters.staged hi).1) (Nat.le_refl _)).exists_ok
      have hloop : stagingTurns seams c info layout state layout.chunkCount w₁
          = (.ok acc, (stagingTurns seams c info layout state layout.chunkCount w₁).2) :=
        Prod.ext hok rfl
      have hbefore : Fetches [] w w₁ :=
        Fetches.of_appends henters.appends fun _ => Effect.IsEntering.chunkFetch_eq_none
      have hgating : Steps (Appends Effect.IsGating)
          (gateAndPromote seams c info layout acc.hashed) :=
        steps_gateAndPromote closedUnder_appends (fun _ h => h) layout acc.hashed
      have hgates := Fetches.of_appends
        (hgating (stagingTurns seams c info layout state layout.chunkCount w₁).2)
        fun _ => Effect.IsGating.chunkFetch_eq_none
      rw [bind_of_ok hrun, bind_of_ok hloop]
      refine ⟨_, (hbefore.trans hfetches).trans hgates, ?_, fun i => ?_⟩
      · rw [List.nil_append, List.append_nil]
        exact List.pairwise_lt_range.filter _
      · have hturn : pullUpTo seams c info i w = stagingTurns seams c info layout state i w₁ :=
          bind_of_ok hrun
        have hcount : layout.chunkCount = info.chunkLens.length := by
          rw [← hlens]
          rfl
        rw [List.nil_append, List.append_nil, unresumed, List.mem_filter, List.mem_range, hcount,
          decide_eq_true_eq, ResumedInTurn, hturn]
        constructor
        · rintro ⟨hi, hnot⟩
          refine ⟨⟨layout, henters.plan⟩, hi, fun hresumed => hnot ⟨?_, hresumed.2⟩⟩
          exact (henters.mem_doneRanges (hcount ▸ hi)).mpr hresumed.1
        · rintro ⟨-, hi, hnot⟩
          refine ⟨hi, fun hresumed => hnot ⟨?_, hresumed.2⟩⟩
          exact (henters.mem_doneRanges (hcount ▸ hi)).mp hresumed.1

/-! ## Leftovers save fetches and change nothing else -/

/-- Whatever checkpoint and staged bytes it finds, a pull ends as it would without them and
promotes the same bytes, and it fetches, in order, the chunks of its plan that are not
resumed in their turn. -/
theorem leftovers_only_save_fetches (seams : ModuleSeams) (c : Capsule) (info : ModuleInfo)
    (w : PullWorld) (hhost : seams.host.Sound) (hanchor : AnchorsSteadily seams c)
    (hserved : ChunksServed seams c info w.own)
    (hno : CollisionFree seams c info w.sink.staged) :
    (pullWithDescriptor seams c info w).1
        = (pullWithDescriptor seams c info (withoutLeftovers c w)).1 ∧
      (pullWithDescriptor seams c info w).2.sink.artifacts
        = (pullWithDescriptor seams c info (withoutLeftovers c w)).2.sink.artifacts ∧
      ∃ fetched, Fetches fetched w (pullWithDescriptor seams c info w).2 ∧
        fetched.Pairwise (· < ·) ∧
        ∀ i, i ∈ fetched ↔ (∃ plan, ChunkPlan.fromInfo info seams.config.maxModuleSize
            (fun _ => seams.reserve w.tick info.chunkLens.length) = .ok plan) ∧
          i < info.chunkLens.length ∧ ¬ ResumedInTurn seams c info w i := by
  obtain ⟨outcome, promoted, hpull⟩ := exists_endsWith_pull hhost hanchor hserved hno w.tick
    w.sink.supportsReadBack
  have hleft := hpull w rfl rfl rfl fun _ => rfl
  have hfresh := hpull (withoutLeftovers c w) rfl rfl rfl fun hsome => by
    simp [withoutLeftovers, StateStore.put] at hsome
  refine ⟨hleft.result.trans hfresh.result.symm, ?_, exists_fetches_pull hhost hserved hno⟩
  rw [hleft.artifacts, hfresh.artifacts]
  rfl

/-- The small capsule in single bytes. The first chunk is checkpointed and its staged byte is
damaged, the second is staged and not checkpointed, the third can be resumed; the checkpoint
names a fourth, and the staging area has a byte too many. -/
def damagedStart : PullWorld where
  sink := { emptySink with staged := [9, 2, 3, 0] }
  store := { emptyStore with checkpoints := smallCheckpoint {0, 2, 3} }
  trace := []
  own := [{ providerPeerId := holderA, addresses := [] }]

theorem damagedStart_chunksServed :
    ChunksServed smallSeams smallCapsule (smallInfo [1, 1, 1]) damagedStart.own := by
  intro i len expected hlen hexpected
  refine ⟨_, List.mem_singleton_self _, fun t => ⟨_, rfl, ?_⟩⟩
  match i, hlen, hexpected with
  | 0, hlen, hexpected =>
    cases hlen
    cases hexpected
    exact ⟨rfl, rfl⟩
  | 1, hlen, hexpected =>
    cases hlen
    cases hexpected
    exact ⟨rfl, rfl⟩
  | 2, hlen, hexpected =>
    cases hlen
    cases hexpected
    exact ⟨rfl, rfl⟩
  | i + 3, hlen, _ => cases hlen

theorem damagedStart_collisionFree :
    CollisionFree smallSeams smallCapsule (smallInfo [1, 1, 1]) damagedStart.sink.staged := by
  have htabled : ∀ i bytes, Candidate smallSeams smallCapsule (smallInfo [1, 1, 1])
      damagedStart.sink.staged i bytes → smallSha256 bytes ≠ [] := by
    intro i bytes hcandidate
    cases hcandidate with
    | served h =>
      cases h
      match i with
      | 0 => decide
      | 1 => decide
      | 2 => decide
      | i + 3 =>
        show smallSha256 [] ≠ []
        decide
    | staged =>
      match i with
      | 0 => decide
      | 1 => decide
      | 2 => decide
      | i + 3 =>
        show smallSha256 [] ≠ []
        decide
  intro i bytes bytes' hcandidate _ _ hhash
  exact smallSha256_inj (htabled i bytes hcandidate) hhash

theorem damagedStart_saves_fetches :
    (pullWithDescriptor smallSeams smallCapsule (smallInfo [1, 1, 1]) damagedStart).1
        = (pullWithDescriptor smallSeams smallCapsule (smallInfo [1, 1, 1])
          (withoutLeftovers smallCapsule damagedStart)).1 ∧
      (pullWithDescriptor smallSeams smallCapsule (smallInfo [1, 1, 1]) damagedStart).2.sink.artifacts
        = (pullWithDescriptor smallSeams smallCapsule (smallInfo [1, 1, 1])
          (withoutLeftovers smallCapsule damagedStart)).2.sink.artifacts ∧
      ∃ fetched, Fetches fetched damagedStart
          (pullWithDescriptor smallSeams smallCapsule (smallInfo [1, 1, 1]) damagedStart).2 ∧
        fetched.Pairwise (· < ·) ∧
        ∀ i, i ∈ fetched ↔
          (∃ plan, ChunkPlan.fromInfo (smallInfo [1, 1, 1]) smallSeams.config.maxModuleSize
            (fun _ => smallSeams.reserve damagedStart.tick 3) = .ok plan) ∧
          i < 3 ∧ ¬ ResumedInTurn smallSeams smallCapsule (smallInfo [1, 1, 1]) damagedStart i :=
  leftovers_only_save_fetches smallSeams smallCapsule (smallInfo [1, 1, 1]) damagedStart
    Host.healthy_sound (fun _ _ => rfl) damagedStart_chunksServed damagedStart_collisionFree

example : chunkFetches (pullWithDescriptor smallSeams smallCapsule (smallInfo [1, 1, 1])
    damagedStart).2.trace = [0, 1] := by decide +kernel

end Pull

end DigDownload
