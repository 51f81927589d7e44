import DigDownload.Resource.Inheritance
import DigDownload.Resource.Integrity

/-!
# Under which root a download is verified

A commitment that a holder declares is adopted only under the generation root of the content
that is downloaded. One that is restored from a checkpoint is not compared with it. In a
history in which a download restores only what downloads of the same generation saved, every
proof is checked against the root of the content.
-/

namespace DigDownload

open Prog Past Relation

/-- A commitment can be restored from a checkpoint. -/
def DownloadState.Restorable (seams : ResourceSeams) (state : DownloadState) : Prop :=
  state.chunkLens ≠ [] ∧ ∃ reserve commitment,
    ResourceCommitment.fromFirstFrameBounded state.totalLength state.chunkLens state.root
      state.inclusionProof seams.config.maxResourceSize reserve = .ok commitment

namespace Session

/-- If the later session restores the checkpoint, both download the same generation. -/
def SameRoot (last : Session) (state : DownloadState) (s : Session) : Prop :=
  state.Restorable s.seams → contentRootHex last.target.content = contentRootHex s.target.content

end Session

/-! ## One session -/

/-- A checkpoint of a key, under the root of a content. -/
structure Rooted (key : String) (content : ContentId) (state : DownloadState) : Prop where
  keyed : state.key = key
  root : ∀ want, contentRootHex content = some want → state.root = some want

section Rooted

variable {seams : ResourceSeams} {content : ContentId} {key : String} {resume : DownloadState}
  {commitment : ResourceCommitment} {want : String}

/-- A layout is adopted under the root that was asked for only. -/
theorem root_of_adoptLayout {provider : ProviderRecord} {fetched : FetchedRange}
    {reserve : Nat → Option String} (hwant : contentRootHex content = some want)
    (h : adoptLayout seams content provider fetched reserve = .ok commitment) :
    commitment.root = some want := by
  have hdeclared : ∀ declared : RangeMeta,
      adoptLayout.adoptDeclared seams provider reserve declared = .ok commitment →
        commitment.root = declared.root := by
    intro declared hadopt
    unfold adoptLayout.adoptDeclared at hadopt
    split at hadopt
    · split at hadopt
      · cases hadopt
      · split at hadopt
        · rename_i hbuilt
          cases hadopt
          exact (ResourceCommitment.fromFirstFrameBounded_ok hbuilt).2.2.1
        · cases hadopt
    · cases hadopt
  unfold adoptLayout at h
  rw [hwant] at h
  dsimp only at h
  split at h
  · cases h
  · rename_i want' got hwant' hgot
    cases hwant'
    split at h
    · cases h
    · rename_i hsame
      rw [hdeclared _ h, hgot, not_not.mp hsame]
  · rename_i hnone
    cases hnone

/-- A commitment that is restored from a rooted checkpoint, or declared by a holder, is under
the root of the content. -/
theorem Origin.root (horigin : Origin seams content resume commitment)
    (h : resume.Restorable seams → resume.root = some want)
    (hwant : contentRootHex content = some want) : commitment.root = some want := by
  cases horigin with
  | restored hlens hbuilt =>
    rw [(ResourceCommitment.fromFirstFrameBounded_ok hbuilt).2.2.1]
    exact h ⟨hlens, _, _, hbuilt⟩
  | adopted hadopt => exact root_of_adoptLayout hwant hadopt

/-- A session that restores only what is under the root of its content saves only such
checkpoints. -/
theorem saveInvariant_rooted (hkey : resume.key = key)
    (h : resume.Restorable seams → ∀ want, contentRootHex content = some want →
      resume.root = some want) :
    SaveInvariant seams content resume fun _ => Rooted key content where
  later _ h := h
  erase _ h := ⟨h.keyed, h.root⟩
  start horigin := by
    refine ⟨?_, fun want hwant => horigin.root (fun hr => h hr want hwant) hwant⟩
    unfold DownloadState.carried DownloadState.kept
    split <;> exact hkey
  done _ _ _ h := ⟨h.keyed, h.root⟩

end Rooted

/-! ## The proof of a run -/

section Run

variable {seams : ResourceSeams} {target : Target} {sink : Sink} {store : StateStore}
  {commitment : ResourceCommitment}

/-- Only the check of the whole resource checks proofs. -/
theorem Effect.ChecksRoot.of_kind {K : Effect ResourceAsk → Prop}
    (hK : ∀ leaf proof root answer, ¬ K (.ask (.verifyInclusion leaf proof root answer)))
    (root : Option String) {e : Effect ResourceAsk} (he : K e) : e.ChecksRoot root := by
  unfold Effect.ChecksRoot
  split
  · exact absurd he (hK _ _ _ _)
  · trivial

/-- Every proof that a run checks is checked against the root of its commitment. -/
theorem checksRoot_of_run (turns : List Turn)
    (henter : (entering seams target (JobWorld.start seams target sink store)).1 = .ok commitment) :
    ∀ e ∈ (downloadResource seams target turns sink store).2.trace,
      e.ChecksRoot commitment.root := by
  have hsetup : ∀ e : Effect ResourceAsk, e.IsSetup → e.ChecksRoot commitment.root :=
    fun e he => .of_kind (fun _ _ _ _ h => h) _ he
  have hloop : ∀ e : Effect ResourceAsk, e.IsLoop → e.ChecksRoot commitment.root :=
    fun e he => .of_kind (fun _ _ _ _ h => h.elim id id) _ he
  have hentering : Steps (Appends fun e => e.ChecksRoot commitment.root) (entering seams target) :=
    steps_entering (closedUnderSetup_appends.mono hsetup)
  have hscheduling : Steps (Appends fun e => e.ChecksRoot commitment.root)
      (scheduleLoop seams target.content (downloadKey seams target) turns) :=
    steps_scheduleLoop (closedUnderLoop_appends.mono hloop) turns
  have hfinish : Steps (Appends fun e => e.ChecksRoot commitment.root)
      (finish seams (downloadKey seams target) commitment) :=
    steps_finish commitment (closedUnderKeeping_appends.mono fun _ he => he.2)
  have hentered : Steps (Appends fun e => e.ChecksRoot commitment.root)
      (entered seams target turns commitment) :=
    Steps.bind hscheduling fun _ => hfinish
  have hrun : Appends (fun e => e.ChecksRoot commitment.root)
      (JobWorld.start seams target sink store)
      (downloadResource seams target turns sink store).2 := by
    rw [downloadResource, runJob_eq]
    refine (wp_same (P := Appends (fun e => e.ChecksRoot commitment.root) _)).mp ?_
    rw [wp_bind]
    refine wp_iff.mpr ⟨fun commitment' henter' => ?_, fun halt henter' => ?_⟩
    · obtain rfl : commitment = commitment' := by
        rw [henter] at henter'
        exact Except.ok.inj henter'
      exact (hentered.wp _).mono (fun _ _ h => IsTrans.trans _ _ _ (hentering _) h)
        (fun _ _ h => IsTrans.trans _ _ _ (hentering _) h)
    · rw [henter] at henter'
      cases henter'
  obtain ⟨seg, htrace, hseg⟩ := hrun
  intro e he
  rw [htrace] at he
  exact hseg e he

end Run

/-! ## Histories -/

namespace Session

variable {s : Session} {store : StateStore}

/-- The session checked a proof that was accepted, and every proof it checked, against the
root that it was asked for. -/
structure ProvesUnder (s : Session) (store : StateStore) (want : String) : Prop where
  accepted : ∃ leaf proof,
    .ask (.verifyInclusion leaf proof (some want) true) ∈ (s.run store).2.trace
  only : ∀ leaf proof root answer,
    .ask (.verifyInclusion leaf proof root answer) ∈ (s.run store).2.trace → root = some want

/-- A session that restores only what is under the root of its content is verified under
that root. -/
theorem provesUnder {n : Nat} {want : String} (hverify : s.seams.config.verifyWholeResource = true)
    (hresumed : (store.resumed s.key).Restorable s.seams →
      (store.resumed s.key).root = some want)
    (hwant : contentRootHex s.target.content = some want) (hrun : (s.run store).1 = .ok n) :
    s.ProvesUnder store want := by
  obtain ⟨commitment, artifact, henter, -, hpromotes⟩ :=
    (resource_integrity s.seams s.target s.turns s.sink store hverify).1 n hrun
  have hroot : commitment.root = some want := by
    have hcommitting : wp (entering s.seams s.target)
        (fun commitment _ => Origin s.seams s.target.content (store.resumed s.key) commitment)
        (fun _ _ => True) (JobWorld.start s.seams s.target s.sink store) := by
      rw [entering_eq, wp_bind]
      refine wp.mono (wp_committing rfl) (fun commitment w h => ?_) (fun _ _ _ => trivial)
      rw [wp_bind]
      exact wp_of_forall (fun _ _ => h.1) (fun _ _ => trivial)
    exact (hcommitting.ok henter).root hresumed hwant
  refine ⟨⟨_, _, hroot ▸ hpromotes.accepted⟩, fun leaf proof root answer hmem => ?_⟩
  have hchecks := checksRoot_of_run s.turns henter _ hmem
  exact hchecks.trans hroot

end Session

section Histories

variable {store : StateStore} {saver : String → Option Session}
  {past : List (Session × StateStore)}

/-- Every checkpoint that is stored was saved, under the root of the session that saved it. -/
def StoredRooted (store : StateStore) (saver : String → Option Session) : Prop :=
  ∀ key state, store.checkpoints key = some state →
    ∃ last, saver key = some last ∧ Rooted key last.target.content state

/-- What a session takes up is its own, and what it restores is under its root. -/
theorem StoredRooted.resumed (h : StoredRooted store saver) (s : Session)
    (hfits : ∀ state last, store.checkpoints s.key = some state → saver s.key = some last →
      Session.SameRoot last state s) :
    (store.resumed s.key).key = s.key ∧ ((store.resumed s.key).Restorable s.seams →
      ∀ want, contentRootHex s.target.content = some want →
        (store.resumed s.key).root = some want) := by
  unfold StateStore.resumed
  cases hstate : store.checkpoints s.key with
  | none => exact ⟨rfl, fun hrestorable => absurd rfl hrestorable.1⟩
  | some state =>
    obtain ⟨last, hlast, hrooted⟩ := h s.key state hstate
    refine ⟨hrooted.keyed, fun hrestorable want hwant => hrooted.root want ?_⟩
    rw [hfits state last hstate hlast hrestorable]
    exact hwant

theorem StoredRooted.later (h : StoredRooted store saver) (s : Session)
    (hfits : ∀ state last, store.checkpoints s.key = some state → saver s.key = some last →
      Session.SameRoot last state s) :
    StoredRooted (s.leaves store)
      (if s.saved store then Function.update saver s.key (some s) else saver) := by
  intro key state hstate
  obtain ⟨hkey, hresumed⟩ := h.resumed s hfits
  cases Session.checkpoint_of_leaves (saveInvariant_rooted hkey hresumed) (fun h => h.keyed)
    hstate with
  | inl hold =>
    obtain ⟨last, hlast, hrooted⟩ := h key state hold.1
    refine ⟨last, ?_, hrooted⟩
    split
    · rename_i hsaved
      rw [Function.update_of_ne, hlast]
      intro hkey
      rw [hold.2 hkey] at hsaved
      cases hsaved
    · exact hlast
  | inr hnew =>
    obtain ⟨rfl, hsaved, before, -, hrooted⟩ := hnew
    exact ⟨s, by rw [if_pos hsaved, Function.update_self], hrooted⟩

theorem History.rooted (h : History Session.SameRoot store saver past) :
    StoredRooted store saver := by
  induction h with
  | start hempty =>
    intro key state hstate
    rw [hempty] at hstate
    cases hstate
  | later _ s hfits ih => exact ih.later s hfits

/-- In a history in which every session restores only what sessions of the same generation
saved, a download that is checked as a whole and returns was verified under the root of its
content and under no other. -/
theorem verified_under_own_root (h : History Session.SameRoot store saver past) (s : Session)
    (hfits : ∀ state last, store.checkpoints s.key = some state → saver s.key = some last →
      Session.SameRoot last state s) (hverify : s.seams.config.verifyWholeResource = true)
    {n : Nat} {want : String} (hwant : contentRootHex s.target.content = some want)
    (hrun : (s.run store).1 = .ok n) : s.ProvesUnder store want :=
  Session.provesUnder hverify (fun hr => (h.rooted.resumed s hfits).2 hr want hwant) hwant hrun

end Histories

/-! ## A checkpoint of another generation -/

/-- The small resource is resumed under its own root. -/
theorem verified_under_own_root_small :
    (chunkwise 1 (List.replicate 3 (.completed 0))).ProvesUnder chunkStore (hexOf smallRoot) := by
  have hrun : ((chunkwise 1 (List.replicate 3 (.completed 0))).run chunkStore).1 = .ok 3 := by
    decide +kernel
  refine verified_under_own_root (firstChunk_history _) _ (fun state last _ hlast _ => ?_) rfl rfl
    hrun
  obtain rfl : firstChunk = last := Option.some.inj hlast
  rfl

/-- Another generation. -/
def otherRoot : Bytes32 := ⟨List.replicate 32 3, by decide⟩

/-- A download of the other generation under the same key, from a holder that serves the
small resource and states no root. -/
def misrooted : Session :=
  { chunkwise 1 (List.replicate 3 (.completed 0)) with
    seams := { (chunkwise 1 []).seams with
      fetchRange := fun _ _ req =>
        let answer := honestRange smallResource [1, 1, 1] (some "proof") req
        some (.ok { answer with rangeMeta := { answer.rangeMeta with root := none } }) }
    target := { smallTarget with content := .root smallStoreId otherRoot } }

def Effect.checkedRoot : Effect ResourceAsk → Option (Option String)
  | .ask (.verifyInclusion _ _ root _) => some root
  | _ => none

/-- What is promoted for the other generation was verified under the root of the one that
was checkpointed. -/
theorem verified_under_other_root :
    ¬ ∀ (store : StateStore) (saver : String → Option Session) (past : List (Session × StateStore))
      (s : Session) (n : Nat) (want : String), History (fun _ _ _ => True) store saver past →
      s.seams.config.verifyWholeResource = true → contentRootHex s.target.content = some want →
      (s.run store).1 = .ok n → s.ProvesUnder store want := by
  intro h
  have hrun : (misrooted.run chunkStore).1 = .ok 3 := by decide +kernel
  have hroots : (misrooted.run chunkStore).2.trace.filterMap Effect.checkedRoot
      = [some (hexOf smallRoot)] := by decide +kernel
  obtain ⟨⟨leaf, proof, hmem⟩, -⟩ := h chunkStore chunkSaver _ misrooted 3 (hexOf otherRoot)
    (firstChunk_history _) rfl rfl hrun
  have hchecked : some (hexOf otherRoot) ∈
      (misrooted.run chunkStore).2.trace.filterMap Effect.checkedRoot :=
    List.mem_filterMap.mpr ⟨_, hmem, rfl⟩
  rw [hroots, List.mem_singleton] at hchecked
  exact absurd hchecked (by decide +kernel)

end DigDownload
