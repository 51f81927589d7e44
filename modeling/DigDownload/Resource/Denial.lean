import DigDownload.Resource.Resuming
import DigDownload.Resource.Roots

/-!
# Denial by a checkpoint

A download adopts the layout that a holder declares, and saves it before anything of it is
verified. The next download under the key restores it and asks no holder for another. Where
honest holders do not contradict what is restored, a denial lasts for one download at most:
the download returns, or it fails and the next one returns. Where they do, no range of it is
ever accepted from them, and what denies the download outlives it.
-/

namespace DigDownload

open Prog

variable {content : ContentId} {sink : Sink} {store : StateStore} {bytes : Bytes}
  {commitment adopted : ResourceCommitment} {turns : List Turn} {p : ProviderRecord}

/-! ## What may be restored -/

/-- What a holder answers about ranges does not contradict the lengths of a commitment. -/
def UnopposedLengths (seams : ResourceSeams) (content : ContentId)
    (commitment : ResourceCommitment) (p : ProviderRecord) : Prop :=
  ∀ t offset length req fetched, rangeRequest content offset length true = .ok req →
    seams.fetchRange t p req = some (.ok fetched) →
    (∀ n, fetched.rangeMeta.totalLength = some n → n = commitment.totalLength) ∧
      ∀ lens, fetched.rangeMeta.chunkLens = some lens → lens = commitment.layout.chunkLens

/-- An honest holder does not contradict a commitment under the root of the resource whose
lengths it does not contradict. -/
theorem Truthful.unopposed_of_lengths {seams : ResourceSeams}
    (h : Truthful seams content bytes commitment p)
    (hlengths : UnopposedLengths seams content adopted p) (hroot : adopted.root = commitment.root) :
    Unopposed seams content adopted p := by
  intro t offset length req fetched hreq hanswer
  obtain ⟨htotal, hlens⟩ := hlengths t offset length req fetched hreq hanswer
  obtain ⟨fetched', hanswer', htrue⟩ := h.ranges t offset length true req hreq
  rw [hanswer] at hanswer'
  cases hanswer'
  refine checkConsistent_of_agrees htotal hlens fun root hdeclared => ?_
  rw [hroot, htrue.root root hdeclared]

namespace Session

/-- Nothing stands in the way of a session, which is not paused, in the download of a resource
that has a chunk. -/
structure Untroubled (s : Session) (store : StateStore) (bytes : Bytes)
    (commitment : ResourceCommitment) : Prop where
  favourable : Favourable s.seams s.target s.sink store bytes commitment
  resource : IsResource s.seams s.target.content bytes commitment
  running : s.target.startPaused = false
  chunks : commitment.layout.chunkLens ≠ []
  asserts : AssertionsHold s.seams commitment

/-- A commitment is for no more bytes than the resource has, and its lengths are not
contradicted by the holders that the session locates. -/
structure Plausible (s : Session) (bytes : Bytes) (adopted : ResourceCommitment) : Prop where
  fits : adopted.totalLength ≤ bytes.length
  unopposed : ∀ p, Located s.seams s.target.content p →
    UnopposedLengths s.seams s.target.content adopted p
  asserts : AssertionsHold s.seams adopted

/-- The session, under whatever turns, waits until enough fetches have ended. Then it has
returned, or it has failed, and every session of its key that comes next and that nothing
stands in the way of delivers the resource. -/
def Relents (s : Session) (store : StateStore) (bytes : Bytes) (commitment : ResourceCommitment) :
    Prop :=
  ∃ n, ∀ turns, (∀ message, .control message ∉ turns) →
    (({ s with turns }.run store).1 = .error .pending ∧ turns.countP Turn.isCompletion < n) ∨
    (∃ length, ({ s with turns }.run store).1 = .ok length) ∨
    (∃ e, ({ s with turns }.run store).1 = .error (.failed e)) ∧
      ∀ next : Session, next.key = s.key →
        next.Untroubled ({ s with turns }.run store).2.store bytes commitment →
        CompletesAfter (planRanges commitment.layout next.seams.config.window).length next.seams
          next.target next.sink ({ s with turns }.run store).2.store bytes

variable {s : Session}

/-- A session that finds no checkpoint delivers the resource. -/
theorem Untroubled.completes (hs : s.Untroubled store bytes commitment)
    (hempty : store.checkpoints s.key = none) :
    CompletesAfter (planRanges commitment.layout s.seams.config.window).length s.seams s.target
      s.sink store bytes :=
  completesAfter_of_intact hs.favourable hs.resource (resumed_of_none hempty) (Or.inl rfl)
    hs.asserts hs.running hs.chunks intact_of_fresh

/-- A session that has entered the loop under a commitment that serves relents. -/
theorem Untroubled.relents_of_prepared (hs : s.Untroubled store bytes commitment)
    {resume : DownloadState} {staging : Sink}
    (hprepared : Prepared s.seams s.target s.sink store bytes resume staging adopted)
    (hlens : adopted.layout.chunkLens ≠ []) : s.Relents store bytes commitment := by
  have ho := hprepared.obliging hs.favourable hs.resource
  refine ⟨(planRanges adopted.layout s.seams.config.window).length, fun turns hturns => ?_⟩
  cases hprepared.download hs.favourable hs.resource hs.running hlens hturns with
  | inr hwaiting => exact Or.inl hwaiting
  | inl hended =>
    obtain ⟨w, hsmooth, hall, hhashed, -, hsup, -, hrun⟩ := hended
    have hrun' : { s with turns }.run store = finish s.seams s.key adopted w := hrun
    have hfinish := wp_finish_settled hs.favourable.host s.key
      (hsup.trans hs.favourable.readBack) (hsmooth.total_le ho hall) hhashed
    refine Or.inr ?_
    rw [hrun']
    cases hend : (finish s.seams s.key adopted w).1 with
    | ok length => exact Or.inl ⟨length, rfl⟩
    | error halt =>
      obtain ⟨hdropped, -⟩ := hfinish.error hend
      refine Or.inr ⟨⟨_, congrArg _ hdropped.halt_eq⟩, fun next hkey hnext => ?_⟩
      refine hnext.completes ?_
      rw [hkey]
      exact hdropped.cleared

/-- A session that relents and is denied once is not denied again. -/
theorem Relents.not_denied_again (h : s.Relents store bytes commitment)
    (hturns : ∀ message, .control message ∉ turns) {e : DownloadError}
    (hdenied : (downloadResource s.seams s.target turns s.sink store).1 = .error (.failed e))
    (hs : s.Untroubled (downloadResource s.seams s.target turns s.sink store).2.store bytes
      commitment) :
    (downloadResource s.seams s.target turns s.sink
      (downloadResource s.seams s.target turns s.sink store).2.store).1 ≠ .error (.failed e) := by
  intro hagain
  obtain ⟨n, hrelents⟩ := h
  have hrun : { s with turns }.run store = downloadResource s.seams s.target turns s.sink store := rfl
  have hended := hrelents turns hturns
  rw [hrun, hdenied] at hended
  obtain ⟨hpending, -⟩ | ⟨length, hlength⟩ | ⟨-, hnext⟩ := hended
  · cases hpending
  · cases hlength
  · cases (hnext s rfl hs turns hturns).1 _ hagain

end Session

/-! ## Over a history -/

section Histories

variable {saver : String → Option Session} {past : List (Session × StateStore)}

/-- After any history of downloads of the generation, a download from honest holders relents,
if what it restores from the checkpoint that the history left is not contradicted by them. -/
theorem relents_of_plausible (h : History Session.SameRoot store saver past) (s : Session)
    (hfits : ∀ state last, store.checkpoints s.key = some state → saver s.key = some last →
      Session.SameRoot last state s)
    (hs : s.Untroubled store bytes commitment)
    (hwanted : ∀ adopted, (store.resumed s.key).Restores s.seams adopted →
      s.Plausible bytes adopted) :
    s.Relents store bytes commitment := by
  obtain ⟨want, hwant, hcommitted⟩ := hs.resource.root
  have hasserts : ∀ adopted, adopted = commitment ∨
      (store.resumed s.key).Restores s.seams adopted → AssertionsHold s.seams adopted := by
    intro adopted hadopted
    cases hadopted with
    | inl htrue => exact htrue ▸ hs.asserts
    | inr hrestored => exact (hwanted adopted hrestored).asserts
  obtain ⟨adopted, henter, hadopted, hsink, hknown, hlocated, hdone⟩ :=
    loopStart_honest hs.favourable hs.resource rfl
      fun adopted hadopted r hr _ hdebug => hasserts adopted hadopted hdebug r hr
  have hserves : adopted.totalLength ≤ bytes.length ∧
      ∀ p, Located s.seams s.target.content p → Unopposed s.seams s.target.content adopted p := by
    cases hadopted with
    | inl htrue =>
      subst htrue
      exact ⟨hs.resource.length_eq.ge, fun p hp => (hs.favourable.honest p hp).unopposed⟩
    | inr hrestored =>
      obtain ⟨hne, reserve, hbuilt⟩ := hrestored
      have hwanted' := hwanted adopted ⟨hne, reserve, hbuilt⟩
      -- the history restores what is under the root of the content only
      have hroot : adopted.root = commitment.root := by
        rw [(ResourceCommitment.fromFirstFrameBounded_ok hbuilt).2.2.1, hcommitted]
        exact (h.rooted.resumed s hfits).2 ⟨hne, reserve, adopted, hbuilt⟩ want hwant
      exact ⟨hwanted'.fits, fun p hp =>
        (hs.favourable.honest p hp).unopposed_of_lengths (hwanted'.unopposed p hp) hroot⟩
  have hlens : adopted.layout.chunkLens ≠ [] := by
    cases hadopted with
    | inl htrue => exact htrue ▸ hs.chunks
    | inr hrestored =>
      obtain ⟨hne, reserve, hbuilt⟩ := hrestored
      rw [(ResourceCommitment.fromFirstFrameBounded_ok hbuilt).1]
      exact hne
  have hprepared : Prepared s.seams s.target s.sink store bytes
      ((store.resumed s.key).kept adopted.layout.chunkLens)
      ((store.resumed s.key).keptStaging adopted.layout.chunkLens s.sink) adopted := {
    entered := henter
    staging_eq := hsink
    known := hknown
    located := hlocated
    done := by
      intro i range hrange
      obtain ⟨-, -, -, hindex⟩ := planRanges_span hrange
      rw [hdone i range hrange, hsink, ReadsBack, hindex]
      rfl
    serves := fun p hp => (hs.favourable.honest p hp).servesRanges (hserves.2 p hp) hserves.1
      (hasserts adopted hadopted)
    fits := hserves.1 }
  exact hs.relents_of_prepared hprepared hlens

end Histories

/-! ## A layout that is contradicted -/

/-- A session on the small resource from an honest holder, under a clock that is fast. -/
def honestSession : Session where
  seams := { honestSeams smallResource smallCommitment with now := fun t => 10 ^ 12 * t }
  target := smallTarget
  turns := []
  sink := emptySink
  lasts := 0

theorem honestSession_untroubled (store : StateStore) :
    honestSession.Untroubled store smallResource smallCommitment where
  favourable := honestSeams_favourable rfl rfl rfl rfl store _
  resource := {
    root := honestSeams_small.root
    accepted := honestSeams_small.accepted
    proven := honestSeams_small.proven }
  running := rfl
  chunks := by decide
  asserts h := by cases h

/-- After a session that has the resource in other chunks the download from an honest holder
relents. -/
theorem relents_of_plausible_small :
    honestSession.Relents chunkStore smallResource smallCommitment := by
  refine relents_of_plausible (firstChunk_history _) honestSession (fun state last _ hlast _ => ?_)
    (honestSession_untroubled chunkStore) fun adopted hrestored => ?_
  · obtain rfl : firstChunk = last := Option.some.inj hlast
    rfl
  · obtain ⟨-, reserve, hbuilt⟩ := hrestored
    obtain ⟨-, htotal, -⟩ := ResourceCommitment.fromFirstFrameBounded_ok hbuilt
    have htotal' : adopted.totalLength = 3 := htotal
    refine ⟨htotal'.le, fun p _ t offset length req fetched hreq hanswer => ?_,
      fun h => by cases h⟩
    obtain ⟨-, -, hskip⟩ := rangeRequest_ok hreq
    cases hanswer
    refine ⟨fun n hn => ?_, fun lens hlens => ?_⟩
    · rw [htotal']
      exact (Option.some.inj hn).symm
    · simp only [honestRange, hskip] at hlens
      cases hlens

/-- The commitment to a resource of four bytes, under the root of the small one. -/
def longCommitment : ResourceCommitment where
  layout := { chunkLens := [2, 2], offsets := [0, 2, 4], offsets_eq := by decide, fits := by decide }
  totalLength := 4
  root := some (hexOf smallRoot)
  inclusionProof := some "proof"
  total := by decide

/-- A session with a holder that declares the small resource to be longer than it is. It is
cancelled before anything is fetched. -/
def lyingSession : Session where
  seams := honestSeams [1, 2, 3, 4] longCommitment
  target := smallTarget
  turns := [.control (some .cancel)]
  sink := emptySink
  lasts := 64

theorem lyingSession_saved : lyingSession.saved emptyStore = true := by decide +kernel

/-- Eighteen fetches that end. -/
def fruitless : List Turn := List.replicate 18 (.completed 0)

theorem honestSession_denied :
    (downloadResource honestSession.seams honestSession.target fruitless honestSession.sink
      (lyingSession.leaves emptyStore)).1 = .error (.failed (.noProviders 2)) := by
  decide +kernel

theorem honestSession_denied_again :
    (downloadResource honestSession.seams honestSession.target fruitless honestSession.sink
      (downloadResource honestSession.seams honestSession.target fruitless honestSession.sink
        (lyingSession.leaves emptyStore)).2.store).1 = .error (.failed (.noProviders 2)) := by
  decide +kernel

/-- What the liar declared denies the honest download after it, and the one after that. -/
theorem denied_by_checkpoint :
    ¬ ∀ (store : StateStore) (saver : String → Option Session) (past : List (Session × StateStore))
      (s : Session) (bytes : Bytes) (commitment : ResourceCommitment),
      History Session.SameRoot store saver past →
      (∀ state last, store.checkpoints s.key = some state → saver s.key = some last →
        Session.SameRoot last state s) →
      s.Untroubled store bytes commitment → s.Relents store bytes commitment := by
  intro h
  have hhistory : History Session.SameRoot (lyingSession.leaves emptyStore) _
      ([] ++ [(lyingSession, emptyStore)]) :=
    .later (.start fun _ => rfl) lyingSession fun _ _ hstate => by cases hstate
  rw [if_pos lyingSession_saved] at hhistory
  have hfits : ∀ state last, (lyingSession.leaves emptyStore).checkpoints honestSession.key
      = some state → Function.update (fun _ => none) lyingSession.key (some lyingSession)
        honestSession.key = some last → Session.SameRoot last state honestSession := by
    intro state last _ hlast _
    rw [Function.update_apply, if_pos (show honestSession.key = lyingSession.key from rfl)] at hlast
    cases hlast
    rfl
  have hrelents := h _ _ _ honestSession smallResource smallCommitment hhistory hfits
    (honestSession_untroubled _)
  exact hrelents.not_denied_again (by simp [fruitless]) honestSession_denied
    (honestSession_untroubled _) honestSession_denied_again

end DigDownload
