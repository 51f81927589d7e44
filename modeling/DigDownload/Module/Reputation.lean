import DigDownload.Module.Elimination
import DigDownload.Module.Truth

/-!
# Remembered verdicts and denial

When every holder always behaves in the same way, what a pull under its descriptor comes
to is fixed by that behaviour, whatever the pulls before it have left in the staging area:
a chunk that is resumed is the chunk that the holders would serve. The attempts are then
the game of elimination, and remembered verdicts deny a module exactly when they turn a
game that is won into one that is lost.
-/

namespace DigDownload

open Slices Tiling Prog

/-! ## What a holder's behaviour comes to -/

section Behaviour

variable (seams : ModuleSeams) (c : Capsule) (located : List ProviderRecord)

/-- Every answer is fixed: the locator names the same holders, and each of them, the
verifier and the allocator answer a call as they answer it at the start. The host is sound. -/
structure Steady : Prop where
  content : ∃ id, moduleContentId c = some id
  findProviders : ∀ t id, seams.findProviders t id = .ok located
  getModuleInfo : ∀ t peer, seams.getModuleInfo t peer c = seams.getModuleInfo 0 peer c
  fetchModuleRange : ∀ t peer off len,
    seams.fetchModuleRange t peer c off len = seams.fetchModuleRange 0 peer c off len
  verifyModuleAnchor : ∀ t reader,
    seams.verifyModuleAnchor t reader c = seams.verifyModuleAnchor 0 reader c
  reserve : ∀ t count, seams.reserve t count = seams.reserve 0 count
  host : seams.host.Sound

/-- What a holder serves for a window and its hash. -/
def servedBy (off len : Nat) (expected peer : String) : Option Bytes :=
  match seams.fetchModuleRange 0 peer c off len with
  | some (.ok answer) =>
      if (answer.take len).length = len ∧ hexOf (seams.sha256 (answer.take len)) = expected then
        some (answer.take len)
      else
        none
  | _ => none

/-- What the holders serve for a chunk: the answer of the first that serves it, in the
order of the rotation. -/
def servedChunk (index off len : Nat) (expected : String) : Option Bytes :=
  (rotation located index).findSome? (servedBy seams c off len expected)

/-- What the holders serve for a chunk of a descriptor. -/
def servedUnder (info : ModuleInfo) (layout : ChunkPlan) (i : Nat) : Option Bytes :=
  servedChunk seams c located i (layout.chunkSpan i).1 (layout.chunkSpan i).2
    (info.chunkHashes.getD i "")

/-- The first `n` chunks of a descriptor as the holders serve them. -/
def assembled (info : ModuleInfo) (layout : ChunkPlan) (n : Nat) : Option Bytes :=
  (List.range n).foldlM
    (fun out i => (servedUnder seams c located info layout i).map (out ++ ·)) []

/-- The view of a module that the anchor verifier gets when exactly it is staged. -/
def moduleView (info : ModuleInfo) (layout : ChunkPlan) (module : Bytes) : ModuleReader :=
  StagedModuleReader.toModuleReader {
    sha256 := seams.sha256
    read := fun off len => .ok (slice module off len)
    layout
    chunkHashes := info.chunkHashes }

/-- What the gates make of a module. -/
def gateKind (info : ModuleInfo) (layout : ChunkPlan) (module : Bytes) : HolderKind :=
  if hexOf (seams.sha256 module) ≠ info.moduleHash then .demotable
  else
    match seams.verifyModuleAnchor 0 (moduleView seams info layout module) c with
    | .anchored => .good
    | .notAnchored => .demotable
    | .unavailable _ => .fatal

/-- What a pull under a descriptor comes to. -/
def descriptorKind (info : ModuleInfo) : HolderKind :=
  match ChunkPlan.fromInfo info seams.config.maxModuleSize fun _ =>
      seams.reserve 0 info.chunkLens.length with
  | .error _ => .demotable
  | .ok layout =>
      match assembled seams c located info layout layout.chunkCount with
      | none => .demotable
      | some module => gateKind seams c info layout module

/-- What asking a holder for a descriptor comes to. -/
def holderKind (peer : String) : HolderKind :=
  match seams.getModuleInfo 0 peer c with
  | none => .mute
  | some (.error e) => if e.isRecoverable then .mute else .fatal
  | some (.ok info) => descriptorKind seams c located info

theorem descriptorKind_ne_mute (info : ModuleInfo) :
    descriptorKind seams c located info ≠ .mute := by
  unfold descriptorKind
  split
  · simp
  split
  · simp
  unfold gateKind
  split
  · simp
  split <;> simp

end Behaviour

/-! ## Rounds -/

/-- Nothing outside the trace has changed. -/
structure Undisturbed (w w' : PullWorld) : Prop where
  sink : w'.sink = w.sink
  store : w'.store = w.store
  own : w'.own = w.own

theorem Undisturbed.refl (w : PullWorld) : Undisturbed w w := ⟨rfl, rfl, rfl⟩

theorem Undisturbed.trans {w w' w'' : PullWorld} (h : Undisturbed w w')
    (h' : Undisturbed w' w'') : Undisturbed w w'' :=
  ⟨h'.sink.trans h.sink, h'.store.trans h.store, h'.own.trans h.own⟩

theorem Undisturbed.note (w : PullWorld) (e : Effect ModuleAsk) : Undisturbed w (w.note e) :=
  ⟨rfl, rfl, rfl⟩

theorem mergeNewProviders_of_known (known : List ProviderRecord) :
    ∀ fresh : List ProviderRecord, (∀ p ∈ fresh, p ∈ known) → mergeNewProviders known fresh = known
  | [], _ => rfl
  | p :: fresh, h => by
      unfold mergeNewProviders
      rw [if_pos (List.any_eq_true.mpr ⟨p, h p List.mem_cons_self, by simp⟩)]
      exact mergeNewProviders_of_known known fresh fun q hq => h q (List.mem_cons_of_mem _ hq)

section Steady

variable {seams : ModuleSeams} {c : Capsule} {located : List ProviderRecord} {info : ModuleInfo}
  {layout : ChunkPlan} {w w' : PullWorld} {n : Nat} {acc : Staging}

theorem wp_fetchChunkFrom_steady (h : Steady seams c located) (peer : String) (off len : Nat)
    (expected : String) (w : PullWorld) :
    wp (fetchChunkFrom seams c peer off len expected)
      (fun r w' => Undisturbed w w' ∧ ∀ bytes, r = .ok bytes ↔
        servedBy seams c off len expected peer = some bytes)
      (fun _ _ => False) w := by
  unfold fetchChunkFrom servedBy
  rw [wp_bind, wp_askSeam, h.fetchModuleRange]
  cases seams.fetchModuleRange 0 peer c off len with
  | none => exact ⟨Undisturbed.note w _, by simp⟩
  | some answer =>
    cases answer with
    | error e => exact ⟨Undisturbed.note w _, by simp⟩
    | ok answer =>
      dsimp only
      by_cases hlen : (answer.take len).length = len
      · by_cases hhash : hexOf (seams.sha256 (answer.take len)) = expected
        · rw [if_neg (not_not.mpr hlen), if_neg (not_not.mpr hhash), if_pos ⟨hlen, hhash⟩]
          exact ⟨Undisturbed.note w _, by simp⟩
        · rw [if_neg (not_not.mpr hlen), if_pos hhash, if_neg fun h => hhash h.2]
          exact ⟨Undisturbed.note w _, by simp⟩
      · rw [if_pos hlen, if_neg fun h => hlen h.1]
        exact ⟨Undisturbed.note w _, by simp⟩

/-- A round over holders finds what the first of them that serves the chunk answers. -/
theorem wp_tryHolders_steady (h : Steady seams c located) (off len : Nat) (expected : String) :
    ∀ (peers : List String) (reasons : HolderReasons) (w : PullWorld),
      wp (tryHolders seams c off len expected peers reasons)
        (fun r w' => Undisturbed w w' ∧ ∀ bytes, r = .ok bytes ↔
          peers.findSome? (servedBy seams c off len expected) = some bytes)
        (fun _ _ => False) w
  | [], reasons, w => ⟨Undisturbed.refl w, by simp⟩
  | peer :: peers, reasons, w => by
      unfold tryHolders
      rw [wp_bind, List.findSome?_cons]
      refine (wp_fetchChunkFrom_steady h peer off len expected w).mono ?_ (fun _ _ h => h)
      rintro r w₁ ⟨hw₁, hr⟩
      cases r with
      | ok bytes =>
        rw [(hr bytes).mp rfl]
        exact ⟨hw₁, by simp⟩
      | error reason =>
        have hnone : servedBy seams c off len expected peer = none := by
          cases hs : servedBy seams c off len expected peer with
          | none => rfl
          | some bytes => cases (hr bytes).mpr hs
        rw [hnone]
        refine (wp_tryHolders_steady h off len expected peers _ w₁).mono ?_ (fun _ _ h => h)
        exact fun r w₂ h₂ => ⟨hw₁.trans h₂.1, h₂.2⟩

/-- Fetching a chunk finds what the holders serve for it, and finds nothing only if none
of them serves it. -/
theorem wp_fetchVerifiedChunk_steady (h : Steady seams c located) (hown : w.own = located)
    (n : Nat) :
    wp (fetchVerifiedChunk seams c info layout n)
      (fun bytes w' => Undisturbed w w' ∧
        servedUnder seams c located info layout n = some bytes)
      (fun e w' => Undisturbed w w' ∧ e.isNotFound = true ∧
        servedUnder seams c located info layout n = none) w := by
  obtain ⟨id, hid⟩ := h.content
  unfold fetchVerifiedChunk servedUnder servedChunk
  rw [wp_bind, wp_markPull, wp_bind, wp_read, wp_bind, World.note_own, hown]
  refine (wp_tryHolders_steady h _ _ _ _ _ _).mono ?_ (fun _ _ h => h.elim)
  rintro r w₁ ⟨hw₁, hr⟩
  have hw₁' : Undisturbed w w₁ := (Undisturbed.note w _).trans hw₁
  cases r with
  | ok bytes => exact ⟨hw₁', (hr bytes).mp rfl⟩
  | error reasons =>
    have hnone : (rotation located n).findSome? (servedBy seams c (layout.chunkSpan n).1
        (layout.chunkSpan n).2 (info.chunkHashes.getD n "")) = none := by
      rw [Option.eq_none_iff_forall_ne_some]
      intro bytes hs
      cases (hr bytes).mpr hs
    have hown₁ : w₁.own = located := hw₁'.own.trans hown
    have hmerge : mergeNewProviders located located = located :=
      mergeNewProviders_of_known _ _ fun _ hp => hp
    dsimp only
    rw [hid]
    dsimp only
    rw [wp_bind, show wp (Prog.bind _ _) _ _ w₁ ↔ _ from wp_bind _ _, wp_askSeam,
      h.findProviders, wp_ofExcept_ok, wp_bind, wp_update, wp_bind, wp_read, wp_bind]
    dsimp only
    rw [World.note_own, hown₁, hmerge]
    refine (wp_tryHolders_steady h _ _ _ _ _ _).mono ?_ (fun _ _ h => h.elim)
    rintro r w₂ ⟨hw₂, hr⟩
    have hw₂' : Undisturbed w w₂ :=
      ⟨hw₂.sink.trans hw₁'.sink, hw₂.store.trans hw₁'.store, hw₂.own.trans hown.symm⟩
    cases r with
    | ok bytes => exact ⟨hw₂', (hr bytes).mp rfl⟩
    | error reasons => exact ⟨hw₂', rfl, hnone⟩

/-- A round over the holders ends with the answer of the first that is not excluded and
gives one. -/
theorem wp_askDescriptors_steady (h : Steady seams c located) (excluded : List String) :
    ∀ (providers : List ProviderRecord) (reasons : HolderReasons) (tried : Nat) (w : PullWorld),
      wp (askDescriptors seams c excluded providers reasons tried)
        (fun r w' => Undisturbed w w' ∧ seams.getModuleInfo 0 r.1 c = some (.ok r.2) ∧
          ∃ rest, answering (holderKind seams c located) excluded (holderIds providers)
            = r.1 :: rest)
        (fun _ w' => Undisturbed w w' ∧
          (answering (holderKind seams c located) excluded (holderIds providers) = [] ∨
            ∃ p rest, answering (holderKind seams c located) excluded (holderIds providers)
              = p :: rest ∧ holderKind seams c located p = .fatal)) w
  | [], reasons, tried, w => ⟨Undisturbed.refl w, Or.inl rfl⟩
  | provider :: providers, reasons, tried, w => by
      -- a holder that is skipped or gives no answer leaves the round to the others
      have hskip : ¬ (provider.providerPeerId ∉ excluded ∧
            holderKind seams c located provider.providerPeerId ≠ .mute) →
          answering (holderKind seams c located) excluded (holderIds (provider :: providers))
            = answering (holderKind seams c located) excluded (holderIds providers) := by
        intro hno
        exact List.filter_cons_of_neg (by simpa using hno)
      have hfirst : provider.providerPeerId ∉ excluded →
          holderKind seams c located provider.providerPeerId ≠ .mute →
          ∃ rest, answering (holderKind seams c located) excluded
            (holderIds (provider :: providers)) = provider.providerPeerId :: rest := by
        intro hex hkind
        exact ⟨_, List.filter_cons_of_pos (by simpa using And.intro hex hkind)⟩
      unfold askDescriptors
      dsimp only
      split
      · rename_i hex
        rw [hskip fun hno => hno.1 hex]
        exact wp_askDescriptors_steady h excluded providers reasons tried w
      rename_i hex
      rw [wp_bind, wp_askSeam, h.getModuleInfo]
      have hnext : holderKind seams c located provider.providerPeerId = .mute →
          ∀ (e : Effect ModuleAsk) (reasons : HolderReasons) (tried : Nat),
          wp (askDescriptors seams c excluded providers reasons tried)
            (fun r w' => Undisturbed w w' ∧ seams.getModuleInfo 0 r.1 c = some (.ok r.2) ∧
              ∃ rest, answering (holderKind seams c located) excluded
                (holderIds (provider :: providers)) = r.1 :: rest)
            (fun _ w' => Undisturbed w w' ∧
              (answering (holderKind seams c located) excluded
                  (holderIds (provider :: providers)) = [] ∨
                ∃ p rest, answering (holderKind seams c located) excluded
                  (holderIds (provider :: providers)) = p :: rest ∧
                  holderKind seams c located p = .fatal)) (w.note e) := by
        intro hmute e reasons tried
        rw [hskip fun hno => hno.2 hmute]
        refine (wp_askDescriptors_steady h excluded providers reasons tried _).mono ?_ ?_
        · exact fun r w' h' => ⟨(Undisturbed.note w e).trans h'.1, h'.2⟩
        · exact fun _ w' h' => ⟨(Undisturbed.note w e).trans h'.1, h'.2⟩
      cases ha : seams.getModuleInfo 0 provider.providerPeerId c with
      | none => exact hnext (by simp [holderKind, ha]) _ _ _
      | some answer =>
        cases answer with
        | ok info =>
          refine ⟨Undisturbed.note w _, ha, hfirst hex ?_⟩
          simpa [holderKind, ha] using descriptorKind_ne_mute seams c located info
        | error e =>
          dsimp only
          split
          · rename_i he
            exact hnext (by simp [holderKind, ha, he]) _ _ _
          · rename_i he
            have hfatal : holderKind seams c located provider.providerPeerId = .fatal := by
              simp [holderKind, ha, he]
            obtain ⟨rest, hrest⟩ := hfirst hex (by simp [hfatal])
            exact ⟨Undisturbed.note w _, Or.inr ⟨_, rest, hrest, hfatal⟩⟩

/-! ## Staging -/

/-- If the staging area holds all of a chunk, then what it holds there is what the holders
serve for its hash. -/
def Backed (seams : ModuleSeams) (c : Capsule) (located : List ProviderRecord) (staged : Bytes)
    (lens : List Nat) (i : Nat) : Prop :=
  i < lens.length → lens.getD i 0 = 0 ∨ start lens i + lens.getD i 0 ≤ staged.length →
    servedChunk seams c located i (start lens i) (lens.getD i 0)
        (hexOf (seams.sha256 (slice staged (start lens i) (lens.getD i 0))))
      = some (slice staged (start lens i) (lens.getD i 0))

/-- The window of a chunk of no bytes is the same in every staging area. -/
theorem Backed.of_slice {staged staged' : Bytes} {lens : List Nat} {i : Nat}
    (h : Backed seams c located staged lens i)
    (hs : i < lens.length → lens.getD i 0 ≠ 0 → start lens i + lens.getD i 0 ≤ staged'.length →
      start lens i + lens.getD i 0 ≤ staged.length ∧
        slice staged' (start lens i) (lens.getD i 0) = slice staged (start lens i) (lens.getD i 0)) :
    Backed seams c located staged' lens i := by
  intro hi hin
  by_cases hzero : lens.getD i 0 = 0
  · have := h hi (Or.inl hzero)
    rw [hzero] at this ⊢
    simpa [slice] using this
  · obtain ⟨hle, heq⟩ := hs hi hzero (hin.resolve_left hzero)
    rw [heq]
    exact h hi (Or.inr hle)

/-- A write leaves a window alone that it does not meet. -/
theorem Sink.slice_write_disjoint (s : Sink) {off off' len : Nat} {bytes : Bytes}
    (hd : off' + len ≤ off ∨ off + bytes.length ≤ off') (hl : off' + len ≤ s.staged.length) :
    slice (s.write off bytes).staged off' len = slice s.staged off' len := by
  unfold Sink.write
  split
  · rfl
  · exact slice_overwrite_disjoint 0 bytes hd hl

theorem Sink.length_write_le (s : Sink) (off : Nat) (bytes : Bytes) :
    (s.write off bytes).staged.length ≤ max s.staged.length (off + bytes.length) := by
  unfold Sink.write
  split
  · exact Nat.le_max_left _ _
  · exact Nat.le_of_eq (length_overwrite _ _ _ _)

/-- What a run may start from, and what every pull leaves behind: the sink reads back, and
the checkpoint of the capsule names chunks whose staged bytes the holders would serve. -/
structure Standing (seams : ModuleSeams) (c : Capsule) (located : List ProviderRecord)
    (sink : Sink) (store : StateStore) : Prop where
  supportsReadBack : sink.supportsReadBack = true
  key : ∀ state, store.checkpoints (moduleDownloadKey c) = some state →
    state.key = moduleDownloadKey c
  backed : ∀ state, store.checkpoints (moduleDownloadKey c) = some state →
    ∀ i ∈ state.doneRanges, Backed seams c located sink.staged state.chunkLens i

/-- Dropping the staged bytes leaves nothing that could be resumed. -/
theorem Standing.truncate {sink : Sink} {store : StateStore}
    (h : Standing seams c located sink store) : Standing seams c located (sink.shorten 0) store where
  supportsReadBack := h.supportsReadBack
  key := h.key
  backed state hstate i hi := by
    refine (h.backed state hstate i hi).of_slice fun _ hzero hle => ?_
    have hempty : (sink.shorten 0).staged.length = 0 := by simp [Sink.shorten]
    omega

/-- Where a pull can start: the holders are known and the state is one to start from. -/
structure Ready (seams : ModuleSeams) (c : Capsule) (located : List ProviderRecord)
    (w : PullWorld) : Prop where
  own : w.own = located
  standing : Standing seams c located w.sink w.store

theorem Ready.undisturbed (h : Ready seams c located w) (hw : Undisturbed w w') :
    Ready seams c located w' :=
  ⟨hw.own.trans h.own, by rw [hw.sink, hw.store]; exact h.standing⟩

/-- The run after `n` turns of the staging loop: what is absorbed is what the holders serve,
and so is every chunk that is staged or may still be resumed. -/
structure StagedSteadily (seams : ModuleSeams) (c : Capsule) (located : List ProviderRecord)
    (info : ModuleInfo) (layout : ChunkPlan) (resumable : Finset Nat) (n : Nat) (acc : Staging)
    (w : PullWorld) : Prop where
  ready : Ready seams c located w
  key : acc.state.key = moduleDownloadKey c
  lens : acc.state.chunkLens = layout.chunkLens
  done : ∀ i ∈ acc.state.doneRanges, i < n
  assembled : assembled seams c located info layout n = some acc.hashed
  staged : ∀ i < n, Backed seams c located w.sink.staged layout.chunkLens i
  pending : ∀ i ∈ resumable, n ≤ i → Backed seams c located w.sink.staged layout.chunkLens i

theorem StagedSteadily.undisturbed {resumable : Finset Nat}
    (h : StagedSteadily seams c located info layout resumable n acc w) (hw : Undisturbed w w') :
    StagedSteadily seams c located info layout resumable n acc w' where
  ready := h.ready.undisturbed hw
  key := h.key
  lens := h.lens
  done := h.done
  assembled := h.assembled
  staged i hi := by rw [hw.sink]; exact h.staged i hi
  pending i hi hn := by rw [hw.sink]; exact h.pending i hi hn

theorem assembled_succ {module bytes : Bytes}
    (h : assembled seams c located info layout n = some module)
    (hs : servedUnder seams c located info layout n = some bytes) :
    assembled seams c located info layout (n + 1) = some (module ++ bytes) := by
  unfold assembled at h ⊢
  rw [List.range_succ, List.foldlM_append, h]
  simp [hs]

/-- A chunk that nobody serves leaves nothing to assemble. -/
theorem assembled_eq_none
    (hs : servedUnder seams c located info layout n = none) {N : Nat} (hn : n < N) :
    assembled seams c located info layout N = none := by
  induction N with
  | zero => omega
  | succ N ih =>
    unfold assembled at ih ⊢
    rw [List.range_succ, List.foldlM_append]
    rcases Nat.lt_succ_iff_lt_or_eq.mp hn with hn | rfl
    · rw [ih hn]
      rfl
    · cases (List.range n).foldlM (fun out i =>
          (servedUnder seams c located info layout i).map (out ++ ·)) ([] : Bytes) with
      | none => rfl
      | some out => simp [hs]

/-- How the staging loop gives a descriptor up. -/
def GivesUp (seams : ModuleSeams) (c : Capsule) (located : List ProviderRecord)
    (info : ModuleInfo) (layout : ChunkPlan) (f : PullFailure) (w : PullWorld) : Prop :=
  (∀ e, f ≠ .terminal e) ∧ Ready seams c located w ∧
    assembled seams c located info layout layout.chunkCount = none

/-- A write of chunk `n` leaves the other chunks as they were. -/
theorem Backed.write {sink : Sink} {bytes : Bytes} {i : Nat} (hn : n < layout.chunkLens.length)
    (hcovers : start layout.chunkLens n ≤ sink.staged.length)
    (hlen : bytes.length = layout.chunkLens[n]) (hne : i ≠ n)
    (h : Backed seams c located sink.staged layout.chunkLens i) :
    Backed seams c located (sink.write (start layout.chunkLens n) bytes).staged
      layout.chunkLens i := by
  refine h.of_slice fun hi hzero hin => ?_
  have hget : layout.chunkLens.getD i 0 = layout.chunkLens[i] := by simp [List.getD, hi]
  have hmax := sink.length_write_le (start layout.chunkLens n) bytes
  rw [hlen] at hmax
  rw [hget] at hzero hin ⊢
  rcases spans_disjoint hi hn hne with hbefore | hafter
  · have hle := Nat.le_trans hbefore hcovers
    exact ⟨hle, sink.slice_write_disjoint (Or.inl hbefore) hle⟩
  · have hle : start layout.chunkLens i + layout.chunkLens[i] ≤ sink.staged.length := by
      have := Nat.pos_of_ne_zero hzero
      omega
    exact ⟨hle, sink.slice_write_disjoint (Or.inr (by rw [hlen]; exact hafter)) hle⟩

section Turn

variable {resumable : Finset Nat} {bytes : Bytes} {i : Nat}

/-- The chunks that are done after a turn. -/
theorem StagedSteadily.done_succ (hs : StagedSteadily seams c located info layout resumable n acc w)
    (hi : i ∈ insert n acc.state.doneRanges) : i < n + 1 := by
  rcases Finset.mem_insert.mp hi with rfl | hi
  · exact Nat.lt_succ_self i
  · exact Nat.lt_succ_of_lt (hs.done i hi)

/-- What is read back of a chunk is what the holders would serve. -/
theorem StagedSteadily.servedUnder_read
    (hs : StagedSteadily seams c located info layout resumable n acc w) (hmem : n ∈ resumable)
    (hn : n < layout.chunkCount)
    (hread : w.sink.read (layout.chunkSpan n).1 (layout.chunkSpan n).2 = .ok bytes)
    (hattr : Attributed seams (layout.chunkSpan n).2 (info.chunkHashes.getD n "") bytes) :
    servedUnder seams c located info layout n = some bytes := by
  have hn' : n < layout.chunkLens.length := hn
  have hspan := layout.chunkSpan_of_lt hn
  have hget : layout.chunkLens.getD n 0 = layout.chunkLens[n] := by simp [List.getD, hn']
  obtain ⟨hbytes, hle, -, -⟩ := Sink.read_ok hread
  have hbacked := hs.pending n hmem (Nat.le_refl n) hn' (Or.inr (by rw [hspan] at hle; rwa [hget]))
  rw [hget] at hbacked
  unfold servedUnder
  rw [hspan] at hbytes ⊢
  rw [← hattr.2, hbytes]
  exact hbacked

/-- A turn that resumes its chunk. -/
theorem StagedSteadily.resume
    (hs : StagedSteadily seams c located info layout resumable n acc w) (hmem : n ∈ resumable)
    (hserved : servedUnder seams c located info layout n = some bytes) :
    StagedSteadily seams c located info layout resumable (n + 1)
      { state := acc.state.markDone n, hashed := acc.hashed ++ bytes, anyChunkVerified := true }
      w where
  ready := hs.ready
  key := hs.key
  lens := hs.lens
  done i hi := hs.done_succ hi
  assembled := assembled_succ hs.assembled hserved
  staged i hi := by
    rcases Nat.lt_succ_iff_lt_or_eq.mp hi with hi | rfl
    · exact hs.staged i hi
    · exact hs.pending i hmem (Nat.le_refl i)
  pending i hi hle := hs.pending i hi (Nat.le_of_succ_le hle)

/-- After the write of a chunk that the holders serve, the chunks up to it are what they serve. -/
theorem StagedSteadily.backed_write
    (hs : StagedSteadily seams c located info layout resumable n acc w)
    (hn : n < layout.chunkLens.length)
    (hcovers : start layout.chunkLens n ≤ w.sink.staged.length)
    (hattr : Attributed seams layout.chunkLens[n] (info.chunkHashes.getD n "") bytes)
    (hserved : servedUnder seams c located info layout n = some bytes) (hi : i < n + 1) :
    Backed seams c located (w.sink.write (start layout.chunkLens n) bytes).staged
      layout.chunkLens i := by
  have hget : layout.chunkLens.getD n 0 = layout.chunkLens[n] := by simp [List.getD, hn]
  rcases Nat.lt_succ_iff_lt_or_eq.mp hi with hi | rfl
  · exact (hs.staged i hi).write hn hcovers hattr.1 (Nat.ne_of_lt hi)
  · intro _ _
    have hself : slice (w.sink.write (start layout.chunkLens i) bytes).staged
        (start layout.chunkLens i) layout.chunkLens[i] = bytes := by
      rw [← hattr.1, slice_write]
    rw [hget, hself]
    unfold servedUnder at hserved
    rw [layout.chunkSpan_of_lt hn] at hserved
    rw [hattr.2]
    exact hserved

/-- A turn that stages and checkpoints what the holders serve for its chunk. -/
theorem StagedSteadily.stage {w' : PullWorld}
    (hs : StagedSteadily seams c located info layout resumable n acc w)
    (hn : n < layout.chunkLens.length)
    (hcovers : start layout.chunkLens n ≤ w.sink.staged.length)
    (hattr : Attributed seams layout.chunkLens[n] (info.chunkHashes.getD n "") bytes)
    (hserved : servedUnder seams c located info layout n = some bytes)
    (hown : w'.own = w.own) (hsink : w'.sink = w.sink.write (start layout.chunkLens n) bytes)
    (hstore : w'.store = w.store.put (acc.state.markDone n).key (some (acc.state.markDone n))) :
    StagedSteadily seams c located info layout resumable (n + 1)
      { state := (acc.state.markDone n).markDone n, hashed := acc.hashed ++ bytes,
        anyChunkVerified := true } w' := by
  have hput : ∀ state, w'.store.checkpoints (moduleDownloadKey c) = some state →
      state = acc.state.markDone n := by
    intro state hstate
    simpa [hstore, StateStore.put, hs.key, eq_comm] using hstate
  have hstaged : ∀ i < n + 1, Backed seams c located w'.sink.staged layout.chunkLens i := by
    intro i hi
    rw [hsink]
    exact hs.backed_write hn hcovers hattr hserved hi
  exact {
    ready := {
      own := hown.trans hs.ready.own
      standing := {
        supportsReadBack := by simpa [hsink] using hs.ready.standing.supportsReadBack
        key := fun state hstate => by
          rw [hput state hstate]
          exact hs.key
        backed := fun state hstate i hi => by
          rw [hput state hstate] at hi ⊢
          rw [DownloadState.markDone_chunkLens, hs.lens]
          exact hstaged i (hs.done_succ hi) } }
    key := hs.key
    lens := hs.lens
    done := fun i hi => by
      rw [DownloadState.markDone_doneRanges, DownloadState.markDone_doneRanges,
        Finset.insert_idem] at hi
      exact hs.done_succ hi
    assembled := assembled_succ hs.assembled hserved
    staged := hstaged
    pending := fun i hi hle => by
      rw [hsink]
      exact (hs.pending i hi (Nat.le_of_succ_le hle)).write hn hcovers hattr.1 (by omega) }

/-- One turn of the staging loop absorbs what the holders serve for its chunk, or gives the
descriptor up because nobody serves it. -/
theorem wp_stageChunk_steady (h : Steady seams c located)
    (hs : StagedSteadily seams c located info layout resumable n acc w)
    (hp : StagedPrefix seams info layout n acc w) (hn : n < layout.chunkCount) :
    wp (stageChunk seams c info layout resumable acc n)
      (StagedSteadily seams c located info layout resumable (n + 1))
      (GivesUp seams c located info layout) w := by
  have hspan := layout.chunkSpan_of_lt hn
  unfold stageChunk
  dsimp only
  rw [wp_bind, wp_orTerminal]
  refine (wp_resumedChunk resumable n _ _ w).mono ?_ (fun _ _ h => h.elim)
  rintro r w₁ ⟨hw₁, hres⟩
  have hw₁' : Undisturbed w w₁ := by
    rcases hw₁ with rfl | ⟨a, rfl⟩
    · exact Undisturbed.refl _
    · exact Undisturbed.note _ _
  have hs₁ := hs.undisturbed hw₁'
  cases r with
  | some bytes =>
    obtain ⟨hmem, hread, hattr, -⟩ := hres bytes rfl
    exact hs₁.resume hmem (hs.servedUnder_read hmem hn hread hattr)
  | none =>
    dsimp only
    rw [wp_bind, wp_handle]
    refine ((wp_fetchVerifiedChunk layout n w₁).and
      (wp_fetchVerifiedChunk_steady h hs₁.ready.own n)).mono ?_ ?_
    · rintro bytes w₂ ⟨⟨hattr, -⟩, hw₂, hserved⟩
      have hcovers : start layout.chunkLens n ≤ w₂.sink.staged.length := by
        rw [hw₂.sink, hw₁'.sink]
        exact hp.covers
      have hfits : (layout.chunkSpan n).1 + bytes.length ≤ u64Max := by
        rw [hattr.1]
        exact layout.chunkSpan_fits hn
      rw [wp_pure, wp_bind, wp_orTerminal]
      refine wp_sinkWriteAt_sound h.host hfits ?_
      rw [wp_bind, wp_orTerminal]
      refine wp_storeSave_sound h.host ?_
      rw [wp_pure, hspan]
      rw [hspan] at hattr
      exact (hs₁.undisturbed hw₂).stage hn hcovers hattr hserved rfl rfl rfl
    · rintro e w₂ ⟨-, hw₂, hnot, hnone⟩
      dsimp only
      rw [if_pos (by simp [hnot])]
      exact ⟨by simp, hs₁.ready.undisturbed hw₂, assembled_eq_none hnone hn⟩

end Turn

/-- The whole loop absorbs what the holders serve for the descriptor, or gives it up. -/
theorem wp_stageChunks_steady (h : Steady seams c located) {state : DownloadState}
    (hready : Ready seams c located w) (hkey : state.key = moduleDownloadKey c)
    (hlens : state.chunkLens = layout.chunkLens)
    (hbacked : ∀ i ∈ state.doneRanges, Backed seams c located w.sink.staged layout.chunkLens i) :
    wp ((List.range layout.chunkCount).foldlM
        (stageChunk seams c info layout state.doneRanges)
        { state := state.takeDone, hashed := [], anyChunkVerified := false })
      (fun acc w' => StagedPrefix seams info layout layout.chunkCount acc w' ∧
        Ready seams c located w' ∧
        assembled seams c located info layout layout.chunkCount = some acc.hashed)
      (GivesUp seams c located info layout) w := by
  have hstart : StagedSteadily seams c located info layout state.doneRanges 0
      { state := state.takeDone, hashed := [], anyChunkVerified := false } w :=
    { ready := hready
      key := hkey
      lens := hlens
      done := by simp
      assembled := rfl
      staged := fun i hi => absurd hi (Nat.not_lt_zero i)
      pending := fun i hi _ => hbacked i hi }
  refine (wp_foldlM_range (I := fun n acc w' => StagedPrefix seams info layout n acc w' ∧
    StagedSteadily seams c located info layout state.doneRanges n acc w')
    ⟨StagedPrefix.zero _ _, hstart⟩ _ ?_).mono ?_ (fun _ _ h => h)
  · rintro n hn acc w₁ ⟨hp, hs⟩
    exact ((wp_stageChunk state.doneRanges hp hn).and (wp_stageChunk_steady h hs hp hn)).mono
      (fun _ _ h => ⟨h.1.1, h.2⟩) (fun _ _ h => h.2)
  · rintro acc w₁ ⟨hp, hs⟩
    exact ⟨hp, hs.ready, hs.assembled⟩

/-! ## Pulls -/

/-- How a pull of a given kind fails: for good, or so that the next one can start. -/
def FailsAs (seams : ModuleSeams) (c : Capsule) (located : List ProviderRecord)
    (kind : HolderKind) (f : PullFailure) (w : PullWorld) : Prop :=
  ((∃ e, f = .terminal e) ∧ kind = .fatal) ∨
    ((∀ e, f ≠ .terminal e) ∧ kind = .demotable ∧ Ready seams c located w)

/-- The view of a staging area that holds a module is the view of the module. -/
theorem stagedReader_eq_moduleView (hreads : seams.host.ReadsBack)
    (hp : StagedPrefix seams info layout layout.chunkCount acc w)
    (hsup : w.sink.supportsReadBack = true) :
    (stagedReader seams info layout w).toModuleReader
      = moduleView seams info layout acc.hashed := by
  have hread : ∀ i < layout.chunkCount,
      Except.ok (slice acc.hashed (layout.chunkSpan i).1 (layout.chunkSpan i).2)
        = (stagedReader seams info layout w).read (layout.chunkSpan i).1 (layout.chunkSpan i).2 := by
    intro i hi
    have hle := layout.chunkSpan_le hi
    have hcovers : layout.totalSize ≤ w.sink.staged.length := by
      rw [← layout.start_chunkCount]
      exact hp.covers
    have hfault : seams.host.readAt w.tick (layout.chunkSpan i).1 (layout.chunkSpan i).2 = none :=
      hreads _ _ _
    unfold stagedReader
    dsimp only
    rw [hfault, Sink.read_of_le hsup (Nat.le_trans hle hcovers) (layout.chunkSpan_fits hi),
      hp.hashed, layout.start_chunkCount, slice_take hle]
  unfold moduleView StagedModuleReader.toModuleReader
  congr 1
  exact (StagedModuleReader.readAt_congr (r := stagedReader seams info layout w)
    (fun off len => .ok (slice acc.hashed off len)) hread).symm

theorem wp_gateAndPromote_steady (h : Steady seams c located) (hready : Ready seams c located w)
    (hp : StagedPrefix seams info layout layout.chunkCount acc w) :
    wp (gateAndPromote seams c info layout acc.hashed)
      (fun _ _ => gateKind seams c info layout acc.hashed = .good)
      (FailsAs seams c located (gateKind seams c info layout acc.hashed)) w := by
  have hsup := hready.standing.supportsReadBack
  have hcovers : layout.totalSize ≤ w.sink.staged.length := by
    rw [← layout.start_chunkCount]
    exact hp.covers
  unfold gateAndPromote gateKind
  dsimp only
  rw [wp_bind, wp_markPull]
  split
  · exact Or.inr ⟨by simp, rfl, hready.undisturbed (Undisturbed.note w _)⟩
  rw [wp_bind, wp_read]
  split
  · rename_i hno
    rw [World.note_sink, hsup] at hno
    cases hno
  rw [wp_bind, wp_askSeam, h.verifyModuleAnchor]
  generalize hgate : Effect.ask (ModuleAsk.hashGate _ _) = gate
  have hview : (stagedReader seams info layout (w.note gate)).toModuleReader
      = moduleView seams info layout acc.hashed :=
    stagedReader_eq_moduleView h.host.readAt (hp.congr rfl) hsup
  rw [hview]
  cases seams.verifyModuleAnchor 0 (moduleView seams info layout acc.hashed) c with
  | notAnchored =>
    refine Or.inr ⟨by simp, rfl, hready.undisturbed ?_⟩
    exact (Undisturbed.note w _).trans (Undisturbed.note _ _)
  | unavailable reason => exact Or.inl ⟨⟨_, rfl⟩, rfl⟩
  | anchored =>
    refine (wp_handle _ _).mpr ?_
    refine wp_promoteVerified_sound h.host ?_ ?_ layout.fits (fun w₁ _ _ _ => ?_)
    · exact hsup
    · exact hcovers
    · rw [wp_bind, wp_orTerminal]
      exact wp_storeClear_sound h.host rfl

/-- What a pull under a descriptor comes to is its kind, whatever it starts from. -/
theorem wp_pullWithDescriptor_steady (h : Steady seams c located)
    (hready : Ready seams c located w) :
    wp (pullWithDescriptor seams c info)
      (fun _ _ => descriptorKind seams c located info = .good)
      (FailsAs seams c located (descriptorKind seams c located info)) w := by
  have hplanAt : planAt seams info w = ChunkPlan.fromInfo info seams.config.maxModuleSize
      fun _ => seams.reserve 0 info.chunkLens.length := by
    rw [planAt, h.reserve]
  refine wp_pullWithDescriptor_stages (fun f w₁ hentry => ?_) (fun layout state w₁ henters => ?_)
  · obtain ⟨hplan, rfl⟩ := hentry.plan_of_sound h.host
    have hkind : descriptorKind seams c located info = .demotable := by
      rw [descriptorKind, ← hplanAt, hplan]
    refine Or.inr ⟨?_, hkind, hready.undisturbed (Undisturbed.note w _)⟩
    rcases ChunkPlan.fromInfo_error hplan with ⟨hf, -⟩ | ⟨⟨e, rfl⟩, -, -⟩
    · rintro e rfl
      cases hf
    · simp
  · have hplan := henters.plan
    have hstart : Ready seams c located w₁ ∧ state.key = moduleDownloadKey c ∧
        ∀ i ∈ state.doneRanges, Backed seams c located w₁.sink.staged layout.chunkLens i := by
      cases henters with
      | resumed _ hload hsame =>
        refine ⟨hready.undisturbed ⟨rfl, rfl, rfl⟩, hready.standing.key state hload, fun i hi => ?_⟩
        rw [← hsame]
        exact hready.standing.backed state hload i hi
      | fresh => exact ⟨⟨hready.own, hready.standing.truncate⟩, rfl, by simp [DownloadState.new]⟩
    obtain ⟨hready₁, hkey, hbacked⟩ := hstart
    have hkind : descriptorKind seams c located info
        = match assembled seams c located info layout layout.chunkCount with
          | none => .demotable
          | some module => gateKind seams c info layout module := by
      rw [descriptorKind, ← hplanAt, hplan]
    rw [hkind, pullWithDescriptor.stageAndPromote, wp_bind]
    refine (wp_stageChunks_steady h hready₁ hkey henters.chunkLens hbacked).mono ?_ ?_
    · rintro acc w₂ ⟨hp, hready₂, hassembled⟩
      rw [hassembled]
      exact wp_gateAndPromote_steady h hready₂ hp
    · rintro f w₂ ⟨hf, hready₂, hnone⟩
      rw [hnone]
      exact Or.inr ⟨hf, rfl, hready₂⟩

/-! ## Attempts -/

/-- What a failed attempt says about the game: it is not won at once, and it goes on with
the exclusions of the attempt unless nobody is left. -/
def Continues (kind : String → HolderKind) (located : List ProviderRecord)
    (x : DescriptorExclusions) (failed : FailedAttempt) : Prop :=
  play kind located 0 x = false ∧
    ∀ left, play kind located (left + 1) x
      = (!failed.noneLeft && play kind located left failed.exclusions)

/-- An attempt is a turn of the game. -/
theorem wp_descriptorAttempt_steady (h : Steady seams c located) (hready : Ready seams c located w)
    (x : DescriptorExclusions) :
    wp (descriptorAttempt seams c x)
      (fun r w' => match r with
        | .inl _ => ∀ left, play (holderKind seams c located) located left x = true
        | .inr failed => Ready seams c located w' ∧
            Continues (holderKind seams c located) located x failed)
      (fun _ _ => ∀ left, play (holderKind seams c located) located left x = false) w := by
  unfold descriptorAttempt
  rw [wp_bind, wp_read, hready.own]
  dsimp only
  rw [wp_handle]
  have hround : wp (fetchModuleInfo seams c (x.settle located).excluded) _ _ w :=
    wp_askDescriptors_steady h (x.settle located).excluded w.own [] 0 w
  rw [hready.own] at hround
  refine hround.mono ?_ ?_
  · rintro ⟨source, info⟩ w₁ ⟨hw₁, hinfo, rest, hfirst⟩
    have hready₁ := hready.undisturbed hw₁
    have hkind : holderKind seams c located source = descriptorKind seams c located info := by
      dsimp only at hinfo
      simp [holderKind, hinfo]
    rw [wp_handle]
    refine (wp_pullWithDescriptor_steady h hready₁).mono ?_ ?_
    · rintro n w₂ hgood left
      exact (play_cons hfirst).mpr (Or.inl (hkind.trans hgood))
    · rintro f w₂ (⟨⟨e, rfl⟩, hfatal⟩ | ⟨hf, hdem, hready₂⟩)
      · intro left
        exact play_of_fatal hfirst (hkind.trans hfatal)
      -- the source is demoted, and the game goes on without it
      have hcontinues : ∀ e : DownloadError, Continues (holderKind seams c located) located x {
          error := e
          exclusions := (x.settle located).demote source
          noneLeft := ((x.settle located).demote source).usableHolders located = 0 &&
            !((x.settle located).demote source).trustsMemory } := by
        refine fun e => ⟨?_, fun left => ?_⟩
        · have hplay : play (holderKind seams c located) located 0 x = true ↔ _ := play_cons hfirst
          simpa [hkind, hdem] using not_congr hplay
        · exact play_demotable hfirst (hkind.trans hdem)
      have hdemote : ∀ (w₃ : PullWorld) (e : DownloadError), Ready seams c located w₃ →
          wp (do
              markPull (.demote source)
              let w ← Prog.read
              pure (.inr {
                error := e
                exclusions := (x.settle located).demote source
                noneLeft := ((x.settle located).demote source).usableHolders w.own = 0 &&
                  !((x.settle located).demote source).trustsMemory }) : PullM (Nat ⊕ FailedAttempt))
            (fun r w' => match r with
              | .inl _ => ∀ left, play (holderKind seams c located) located left x = true
              | .inr failed => Ready seams c located w' ∧
                  Continues (holderKind seams c located) located x failed)
            (fun _ _ => ∀ left, play (holderKind seams c located) located left x = false) w₃ := by
        intro w₃ e hready₃
        rw [wp_bind, wp_markPull, wp_bind, wp_read, wp_pure, World.note_own, hready₃.own]
        exact ⟨hready₃.undisturbed (Undisturbed.note _ _), hcontinues e⟩
      cases f with
      | terminal e => exact absurd rfl (hf e)
      | unsatisfiableDescriptor e => exact hdemote w₂ e hready₂
      | badDescriptor e =>
        refine (wp_bind _ _).mpr (wp_ignoringFailure.mpr ?_)
        refine wp_storeRecordBadDescriptor (fun _ => hdemote _ e ?_) (fun _ => hdemote _ e ?_)
        · exact ⟨hready₂.own, ⟨hready₂.standing.supportsReadBack, hready₂.standing.key,
            hready₂.standing.backed⟩⟩
        · exact hready₂.undisturbed (Undisturbed.note _ _)
  · rintro e w₁ ⟨hw₁, hstuck⟩
    have hlost : ∀ left, play (holderKind seams c located) located left x = false := by
      intro left
      rcases hstuck with hnil | ⟨p, rest, hfirst, hfatal⟩
      · exact play_nil hnil
      · exact play_of_fatal hfirst hfatal
    refine ⟨hready.undisturbed hw₁, hlost 0, fun left => ?_⟩
    simp [hlost, play_settle]

/-- The attempts follow the game to its end. -/
theorem wp_attemptLoop_steady (h : Steady seams c located) :
    ∀ (left : Nat) (x : DescriptorExclusions) (w : PullWorld), Ready seams c located w →
      wp (attemptLoop seams c left x)
        (fun _ _ => play (holderKind seams c located) located left x = true)
        (fun _ _ => play (holderKind seams c located) located left x = false) w
  | 0, x, w, hready => by
      unfold attemptLoop
      rw [wp_bind]
      refine (wp_descriptorAttempt_steady h hready x).mono (fun r w₁ hr => ?_) (fun _ _ h => h 0)
      cases r with
      | inl n => exact hr 0
      | inr failed => exact hr.2.1
  | left + 1, x, w, hready => by
      unfold attemptLoop
      rw [wp_bind]
      refine (wp_descriptorAttempt_steady h hready x).mono (fun r w₁ hr => ?_)
        (fun _ _ h => h (left + 1))
      cases r with
      | inl n => exact hr (left + 1)
      | inr failed =>
        obtain ⟨hready₁, -, hgoes⟩ := hr
        dsimp only
        rw [hgoes left]
        cases hnone : failed.noneLeft with
        | true => simp
        | false => simpa using wp_attemptLoop_steady h left failed.exclusions w₁ hready₁

/-- The verdicts that a store gives at a moment: none if it cannot be read. -/
def rememberedAt (seams : ModuleSeams) (key : String) (store : StateStore) (t : Nat) : List String :=
  match seams.host.badDescriptorPeers t with
  | none => livePeers (store.verdicts key) (seams.host.unixNow t)
  | some _ => []

theorem wp_rememberedVerdicts {key : String} {Q : List String → PullWorld → Prop}
    {E : DownloadError → PullWorld → Prop}
    (h : ∀ e, Q (rememberedAt seams key w.store w.tick) (w.note e)) :
    wp (rememberedVerdicts seams key) Q E w := by
  rw [rememberedVerdicts, wp_handle]
  rw [rememberedAt] at h
  rw [wp, storeBadDescriptorPeers]
  cases hfault : seams.host.badDescriptorPeers w.tick with
  | none =>
    rw [hfault] at h
    exact h _
  | some e =>
    rw [hfault] at h
    exact h _

/-- The verdicts that a pull honours: they are read right after the holders are located. -/
def rememberedAtStart (seams : ModuleSeams) (c : Capsule) (store : StateStore) : List String :=
  rememberedAt seams (moduleDownloadKey c) store 1

/-- A download returns exactly when its game is won. -/
theorem wp_download_steady (h : Steady seams c located) {sink : Sink} {store : StateStore}
    (hstanding : Standing seams c located sink store) :
    wp (download seams c)
      (fun _ _ => Serves (holderKind seams c located) maxDescriptorAttempts (holderIds located) []
        (rememberedAtStart seams c store))
      (fun _ _ => ¬ Serves (holderKind seams c located) maxDescriptorAttempts (holderIds located) []
        (rememberedAtStart seams c store)) (PullWorld.fresh sink store) := by
  obtain ⟨id, hid⟩ := h.content
  -- the attempts, once the verdicts are read
  have hloop : ∀ (remembered : List String) (w : PullWorld), Ready seams c located w →
      wp (attemptLoop seams c (maxDescriptorAttempts - 1) (DescriptorExclusions.new remembered))
        (fun _ _ => Serves (holderKind seams c located) maxDescriptorAttempts (holderIds located)
          [] remembered)
        (fun _ _ => ¬ Serves (holderKind seams c located) maxDescriptorAttempts
          (holderIds located) [] remembered) w := by
    intro remembered w hready
    refine (wp_attemptLoop_steady h _ _ w hready).mono (fun _ _ hwon => ?_) (fun _ _ hlost => ?_)
    · exact (play_new remembered).mp hwon
    · exact fun hs => Bool.false_ne_true (hlost.symm.trans ((play_new remembered).mpr hs))
  refine wp_download_begins (fun hnone => ?_) (fun id e _ hlost => ?_) (fun id _ hempty => ?_)
    (fun id found _ hfound _ => ?_)
  · simp [hid] at hnone
  · simp [h.findProviders] at hlost
  · obtain rfl : located = [] := by simpa [h.findProviders] using hempty
    rintro (hr | ⟨-, hr⟩)
    · exact not_reaches_nil hr
    · exact not_reaches_nil hr
  · obtain rfl : located = found := by simpa [h.findProviders] using hfound
    refine wp_rememberedVerdicts fun e => hloop _ _ ?_
    exact ⟨rfl, hstanding⟩

theorem download_ok_iff (h : Steady seams c located) {sink : Sink} {store : StateStore}
    (hstanding : Standing seams c located sink store) :
    (∃ n, (download seams c (PullWorld.fresh sink store)).1 = .ok n) ↔
      Serves (holderKind seams c located) maxDescriptorAttempts (holderIds located) []
        (rememberedAtStart seams c store) := by
  have hwp := wp_download_steady h hstanding
  constructor
  · rintro ⟨n, hn⟩
    exact hwp.ok hn
  · intro hs
    cases hr : (download seams c (PullWorld.fresh sink store)).1 with
    | ok n => exact ⟨n, rfl⟩
    | error e => exact absurd hs (hwp.error hr)

/-- The same store without the verdicts on a capsule. -/
def StateStore.forget (store : StateStore) (key : String) : StateStore :=
  { store with verdicts := Function.update store.verdicts key [] }

theorem Standing.forget {sink : Sink} {store : StateStore}
    (h : Standing seams c located sink store) :
    Standing seams c located sink (store.forget (moduleDownloadKey c)) :=
  ⟨h.supportsReadBack, h.key, h.backed⟩

theorem rememberedAtStart_forget (store : StateStore) :
    rememberedAtStart seams c (store.forget (moduleDownloadKey c)) = [] := by
  unfold rememberedAtStart rememberedAt
  split
  · simp [StateStore.forget, livePeers]
  · rfl

/-- Among holders of fixed behaviour, verdicts deny no module that could be had without them
exactly when this holds: if the first holder that answers and is not demotable is good,
with fewer than three demotable ones before it, then the same is true with the remembered
holders left out, or all others are demotable and a good one is reached among the
remembered in the attempts that are left. -/
theorem verdicts_harmless_iff (h : Steady seams c located) {sink : Sink} {store : StateStore}
    (hstanding : Standing seams c located sink store) :
    ((∃ n, (download seams c
        (PullWorld.fresh sink (store.forget (moduleDownloadKey c)))).1 = .ok n) →
      ∃ n, (download seams c (PullWorld.fresh sink store)).1 = .ok n) ↔
    (Reaches (holderKind seams c located) maxDescriptorAttempts
        (answering (holderKind seams c located) [] (holderIds located)) →
      Serves (holderKind seams c located) maxDescriptorAttempts (holderIds located) []
        (rememberedAtStart seams c store)) := by
  rw [download_ok_iff h hstanding, download_ok_iff h hstanding.forget, rememberedAtStart_forget,
    serves_of_no_memory]

end Steady

/-! ## A silent holder and a remembered one -/

def silentLocated : List ProviderRecord :=
  [{ providerPeerId := holderB, addresses := [] }, { providerPeerId := holderA, addresses := [] }]

/-- An honest holder, and before it one that never answers. -/
def silentSeams : ModuleSeams :=
  { smallSeams with
    findProviders := fun _ _ => .ok silentLocated
    getModuleInfo := fun _ peer _ =>
      if peer = holderB then none else some (.ok (smallInfo [3]))
    fetchModuleRange := fun _ peer _ offset len =>
      if peer = holderB then none else some (.ok (slice smallModule offset len)) }

/-- A store that remembers a verdict on one holder of the small capsule. -/
def storeRemembering (peer : String) : StateStore :=
  { emptyStore with
    verdicts := fun _ => [{ peerId := peer, recordedAtUnix := 0 }] }

/-- A verdict on the honest holder denies the module: the silent one is still there to ask. -/
theorem silentSeams_denies :
    (∃ n, (download silentSeams smallCapsule (PullWorld.fresh emptySink
      ((storeRemembering holderA).forget (moduleDownloadKey smallCapsule)))).1 = .ok n) ∧
    ¬ ∃ n, (download silentSeams smallCapsule
      (PullWorld.fresh emptySink (storeRemembering holderA))).1 = .ok n := by
  constructor
  · exact ⟨3, by decide +kernel⟩
  · rintro ⟨n, hn⟩
    have hfails : ((download silentSeams smallCapsule
        (PullWorld.fresh emptySink (storeRemembering holderA))).1.toOption) = none := by
      decide +kernel
    rw [hn] at hfails
    cases hfails

theorem silentSeams_steady : Steady silentSeams smallCapsule silentLocated where
  content := Option.isSome_iff_exists.mp (by decide +kernel)
  findProviders _ _ := rfl
  getModuleInfo _ _ := rfl
  fetchModuleRange _ _ _ _ := rfl
  verifyModuleAnchor _ _ := rfl
  reserve _ _ := rfl
  host := Host.healthy_sound

/-- A verdict on the silent holder is harmless. -/
theorem silentSeams_serves : ∃ n, (download silentSeams smallCapsule
    (PullWorld.fresh emptySink (storeRemembering holderB))).1 = .ok n := by
  refine (verdicts_harmless_iff silentSeams_steady ⟨rfl, by simp [storeRemembering, emptyStore],
    by simp [storeRemembering, emptyStore]⟩).mpr (fun _ => Or.inl ?_) ⟨3, by decide +kernel⟩
  have hanswering : answering (holderKind silentSeams smallCapsule silentLocated)
      ([] ++ rememberedAtStart silentSeams smallCapsule (storeRemembering holderB))
      (holderIds silentLocated) = [holderA] := by
    decide +kernel
  rw [hanswering]
  exact reaches_cons_good (by decide +kernel)

end DigDownload
