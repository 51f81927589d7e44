import DigDownload.Resource.Boundaries
import DigDownload.Resource.Obliging

/-!
# Honest holders

A holder is honest about a resource if it says that it has it, answers every request for a
range with the bytes of that range, and declares nothing that is not so. With honest
holders a download of the resource adopts its true layout, and every range that it plans
is served.
-/

namespace DigDownload

open Prog Slices Tiling

variable {seams : ResourceSeams} {content : ContentId} {key : String} {target : Target}
  {sink : Sink} {bytes : Bytes} {commitment : ResourceCommitment} {w w' : JobWorld}

/-! ## The truth about a resource -/

/-- An answer that is true to a resource: it has the bytes that were asked for, and what it
declares is so. Unless the layout was to be skipped, it declares all that is adopted. -/
structure TrueAnswer (bytes : Bytes) (commitment : ResourceCommitment) (req : RangeRequest)
    (fetched : FetchedRange) : Prop where
  bytes : req.offset + req.length ≤ bytes.length →
    fetched.bytes = slice bytes req.offset req.length
  totalLength : ∀ n, fetched.rangeMeta.totalLength = some n → n = commitment.totalLength
  chunkLens : ∀ lens, fetched.rangeMeta.chunkLens = some lens → lens = commitment.layout.chunkLens
  chunkCount : ∀ n, fetched.rangeMeta.chunkCount = some n → n = commitment.layout.chunkLens.length
  root : ∀ root, fetched.rangeMeta.root = some root → commitment.root = some root
  declared : req.skipLayout = false →
    fetched.rangeMeta.totalLength.isSome = true ∧ fetched.rangeMeta.chunkLens.isSome = true ∧
      fetched.rangeMeta.root.isSome = true ∧
      fetched.rangeMeta.inclusionProof = commitment.inclusionProof

/-- A holder that answers correctly whatever it is asked about a resource, at any moment. -/
structure Truthful (seams : ResourceSeams) (content : ContentId) (bytes : Bytes)
    (commitment : ResourceCommitment) (p : ProviderRecord) : Prop where
  available : ∀ t item, availabilityItem content = .ok item →
    ∃ more, seams.queryAvailability t p item = .ok (true :: more)
  ranges : ∀ t offset length skipLayout req,
    rangeRequest content offset length skipLayout = .ok req →
    ∃ fetched, seams.fetchRange t p req = some (.ok fetched) ∧
      TrueAnswer bytes commitment req fetched

/-- A resource as it is, under its content id: its layout is accepted by the node, its root
is the one of the id, and its proof is accepted for it. -/
structure IsResource (seams : ResourceSeams) (content : ContentId) (bytes : Bytes)
    (commitment : ResourceCommitment) : Prop where
  root : ∃ root, contentRootHex content = some root ∧ commitment.root = some root
  accepted : ∀ t, ResourceCommitment.fromFirstFrameBounded bytes.length commitment.layout.chunkLens
    commitment.root commitment.inclusionProof seams.config.maxResourceSize (seams.reserve t)
      = .ok commitment
  proven : seams.config.verifyWholeResource = true → ∀ t, seams.verifyInclusion t
    (seams.sha256 bytes) commitment.inclusionProof commitment.root = true

/-- The moment at which a job looks for holders for the first time. -/
def locatingAt (seams : ResourceSeams) (target : Target) (sink : Sink) (store : StateStore) : Nat :=
  (openJob seams (downloadKey seams target) (JobWorld.start seams target sink store)).2.tick

/-- Nothing stands in the way of a download: the caps leave room, the selector chooses among
the holders it is offered, the sink and the store do not fail, and holders are located, all
of which are honest. -/
structure Favourable (seams : ResourceSeams) (target : Target) (sink : Sink) (store : StateStore)
    (bytes : Bytes) (commitment : ResourceCommitment) : Prop where
  room : RoomForOne seams.config
  orders : OrdersSome seams
  chooses : ChoosesCandidates seams
  host : seams.host.Sound
  readBack : sink.supportsReadBack = true
  claimed : ∀ t path, sink.stagingPath = some path → seams.claim t path = true
  found : ∃ p found, seams.findProviders (locatingAt seams target sink store) target.content
    = .ok (p :: found)
  honest : ∀ p, Located seams target.content p → Truthful seams target.content bytes commitment p

theorem IsResource.length_eq (h : IsResource seams content bytes commitment) :
    bytes.length = commitment.totalLength :=
  (ResourceCommitment.fromFirstFrameBounded_ok (h.accepted 0)).2.1.symm

theorem IsResource.item (h : IsResource seams content bytes commitment) :
    ∃ item, availabilityItem content = .ok item := by
  obtain ⟨root, hroot, -⟩ := h.root
  cases content with
  | store => cases hroot
  | root storeId root => exact ⟨_, rfl⟩
  | resource storeId root retrievalKey => exact ⟨_, rfl⟩

/-- What the request for a range asks for. -/
theorem rangeRequest_ok {offset length : Nat} {skipLayout : Bool} {req : RangeRequest}
    (h : rangeRequest content offset length skipLayout = .ok req) :
    req.offset = offset ∧ req.length = length ∧ req.skipLayout = skipLayout := by
  rw [rangeRequest] at h
  cases hitem : availabilityItem content with
  | error e =>
    rw [hitem] at h
    cases h
  | ok item =>
    rw [hitem] at h
    cases h
    exact ⟨rfl, rfl, rfl⟩

/-! ## True answers are accepted -/

/-- A commitment is consistent with what does not contradict any of its parts. -/
theorem checkConsistent_of_agrees {total : Option Nat} {lens : Option (List Nat)}
    {root : Option String} (htotal : ∀ n, total = some n → n = commitment.totalLength)
    (hlens : ∀ l, lens = some l → l = commitment.layout.chunkLens)
    (hroot : ∀ r, root = some r → commitment.root = some r) :
    commitment.checkConsistent total lens root = .ok () := by
  have htotal' : total.filter (· ≠ commitment.totalLength) = none := by
    rw [Option.filter_eq_none_iff]
    intro n hn
    simpa using htotal n hn
  have hlens' : lens.filter (· ≠ commitment.layout.chunkLens) = none := by
    rw [Option.filter_eq_none_iff]
    intro l hl
    simpa using hlens l hl
  unfold ResourceCommitment.checkConsistent
  rw [htotal']
  dsimp only
  rw [hlens', if_neg (by simp)]
  split
  · rename_i declared committed hcommitted
    rw [hroot declared rfl] at hcommitted
    cases hcommitted
    exact if_neg (not_not.mpr rfl)
  · rfl

/-- A true answer agrees with the commitment. -/
theorem TrueAnswer.checkConsistent {req : RangeRequest} {fetched : FetchedRange}
    (h : TrueAnswer bytes commitment req fetched) :
    commitment.checkConsistent fetched.rangeMeta.totalLength fetched.rangeMeta.chunkLens
      fetched.rangeMeta.root = .ok () :=
  checkConsistent_of_agrees h.totalLength h.chunkLens h.root

/-- The bytes of a range of a resource. -/
def bytesOf (bytes : Bytes) (range : Range) : Bytes := slice bytes range.offset range.length

section Ranges

variable {window : Nat} {range : Range}

/-- A planned range lies within the resource. -/
theorem planRanges_end_le (h : range ∈ planRanges commitment.layout window) :
    range.offset + range.length ≤ commitment.totalLength := by
  obtain ⟨i, hi⟩ := List.mem_iff_getElem?.mp h
  obtain ⟨hlt, hoffset, hlength, -⟩ := planRanges_span hi
  have hend := span_end_le_sum hlt
  rw [planRanges_sum, ← hoffset, ← hlength, commitment.total] at hend
  exact hend

theorem length_bytesOf (hfits : commitment.totalLength ≤ bytes.length)
    (h : range ∈ planRanges commitment.layout window) :
    (bytesOf bytes range).length = range.length := by
  rw [bytesOf, length_slice_of_le]
  exact Nat.le_trans (planRanges_end_le h) hfits

/-- The ranges of a resource are the resource. -/
theorem planBytes_bytesOf (hlength : bytes.length = commitment.totalLength) :
    ResourceHasher.planBytes commitment.layout window (bytesOf bytes) = bytes := by
  have hlens : ((planRanges commitment.layout window).map (bytesOf bytes)).map List.length
      = rangeLens (planRanges commitment.layout window) := by
    rw [List.map_map, rangeLens]
    exact List.map_congr_left fun r hr => length_bytesOf hlength.ge hr
  have hpieces := take_sum_eq_flatten bytes ((planRanges commitment.layout window).map (bytesOf bytes))
    fun i hi => by
      rw [List.length_map] at hi
      rw [hlens, List.getElem_map, ← planRanges_offset hi,
        length_bytesOf hlength.ge (List.getElem_mem hi)]
      rfl
  rw [hlens, planRanges_sum, commitment.total, ← hlength, List.take_length] at hpieces
  exact hpieces.symm

/-- No assertion of a build with debug assertions fails on the ranges of a plan. -/
def AssertionsHold (seams : ResourceSeams) (commitment : ResourceCommitment) : Prop :=
  seams.debugAssertions = true → ∀ range ∈ planRanges commitment.layout seams.config.window,
    FollowsBytes commitment.layout.chunkLens range.chunkStart

/-- The bytes of a planned range pass its check. -/
theorem verifyRange_of_planned
    (h : range ∈ planRanges commitment.layout seams.config.window)
    (hfollows : seams.debugAssertions = true → FollowsBytes commitment.layout.chunkLens range.chunkStart)
    {staged : Bytes} (hlen : staged.length = range.length) :
    verifyRange seams.debugAssertions commitment range.chunkStart range.length staged = .ok := by
  obtain ⟨hlt, hle, hoffset, hend⟩ :=
    (planRanges_consecutive commitment.layout seams.config.window).chunks range h
  rw [verifyRange_eq_ok]
  refine ⟨hlen, Nat.lt_of_lt_of_le hlt hle, ?_, hfollows⟩
  have hfits : range.offset + range.length ≤ u64Max :=
    Nat.le_trans (planRanges_end_le h) commitment.fits
  rw [← hoffset, saturatingAdd, Nat.min_eq_left hfits, hend]
  exact ⟨range.chunkEnd, hle, rfl⟩

/-- What a holder answers about ranges does not contradict a commitment. -/
def Unopposed (seams : ResourceSeams) (content : ContentId) (commitment : ResourceCommitment)
    (p : ProviderRecord) : Prop :=
  ∀ t offset length req fetched, rangeRequest content offset length true = .ok req →
    seams.fetchRange t p req = some (.ok fetched) →
    commitment.checkConsistent fetched.rangeMeta.totalLength fetched.rangeMeta.chunkLens
      fetched.rangeMeta.root = .ok ()

theorem Truthful.unopposed {p : ProviderRecord} (h : Truthful seams content bytes commitment p) :
    Unopposed seams content commitment p := by
  intro t offset length req fetched hreq hanswer
  obtain ⟨fetched', hanswer', htrue⟩ := h.ranges t offset length true req hreq
  rw [hanswer] at hanswer'
  cases hanswer'
  exact htrue.checkConsistent

/-- An honest holder serves every range of a plan that it does not contradict. -/
theorem Truthful.servesRanges {p : ProviderRecord} {adopted : ResourceCommitment}
    (h : Truthful seams content bytes commitment p) (hunopposed : Unopposed seams content adopted p)
    (hfits : adopted.totalLength ≤ bytes.length) (hasserts : AssertionsHold seams adopted) :
    ServesRanges seams content adopted (fun _ => True) (bytesOf bytes) p := by
  intro t range req hplan _ hreq
  obtain ⟨fetched, hanswer, htrue⟩ := h.ranges t _ _ _ req hreq
  obtain ⟨hoffset, hlen, -⟩ := rangeRequest_ok hreq
  have hbytes : fetched.bytes = bytesOf bytes range := by
    have hasked := htrue.bytes
    rw [hoffset, hlen] at hasked
    exact hasked (Nat.le_trans (planRanges_end_le hplan) hfits)
  refine ⟨fetched, hanswer, ?_, hbytes⟩
  rw [verifyFetched, hunopposed t _ _ req fetched hreq hanswer]
  dsimp only
  refine verifyRange_of_planned hplan (fun hdebug => hasserts hdebug range hplan) ?_
  rw [hbytes, length_bytesOf hfits hplan]

end Ranges

/-! ## Entering the loop -/

/-- The room that is asked for does not depend on who asks for it. -/
theorem fromFirstFrameBounded_reserved {total max : Nat} {lens : List Nat}
    {root proof : Option String} {reserve : Nat → Option String} :
    ResourceCommitment.fromFirstFrameBounded total lens root proof max
        (fun _ => reserve (lens.length + 1))
      = ResourceCommitment.fromFirstFrameBounded total lens root proof max reserve := rfl

/-- The first holder that is probed is one whose layout is adopted. -/
theorem adoptLayout_true (hres : IsResource seams content bytes commitment) {t : Nat}
    {p : ProviderRecord} {req : RangeRequest} {fetched : FetchedRange}
    (h : TrueAnswer bytes commitment req fetched) (hlayout : req.skipLayout = false) :
    adoptLayout seams content p fetched
        (fun _ => seams.reserve t ((fetched.rangeMeta.chunkLens.getD []).length + 1))
      = .ok commitment := by
  obtain ⟨htotal, hlens, hroot, hproof⟩ := h.declared hlayout
  obtain ⟨total, htotal⟩ := Option.isSome_iff_exists.mp htotal
  obtain ⟨lens, hlens⟩ := Option.isSome_iff_exists.mp hlens
  obtain ⟨root, hroot⟩ := Option.isSome_iff_exists.mp hroot
  obtain ⟨want, hwant, hcommitted⟩ := hres.root
  have hsame := h.root root hroot
  rw [hcommitted] at hsame
  cases hsame
  have hcount : fetched.rangeMeta.chunkCount.filter (· ≠ lens.length) = none := by
    rw [Option.filter_eq_none_iff]
    intro n hn
    rw [h.chunkLens lens hlens]
    simpa using h.chunkCount n hn
  have haccepted := hres.accepted t
  rw [hcommitted, ← h.chunkLens lens hlens, hres.length_eq, ← h.totalLength total htotal,
    ← hproof, ← fromFirstFrameBounded_reserved] at haccepted
  rw [adoptLayout, hwant, hroot]
  dsimp only
  rw [if_neg (not_not.mpr rfl), adoptLayout.adoptDeclared, htotal, hlens]
  dsimp only
  rw [hcount, hroot, Option.getD_some, haccepted]

/-- Honest holders confirm. -/
theorem wp_confirmHolders_truthful {item : AvailabilityItem}
    (hitem : availabilityItem content = .ok item) (found : List ProviderRecord) :
    ∀ w, (∀ p ∈ found, Truthful seams content bytes commitment p) →
      wp (confirmHolders seams item found)
        (fun confirmed w' => OnlyTraced w w' ∧ confirmed = found) (fun _ _ => False) w := by
  induction found with
  | nil => exact fun w _ => ⟨.refl w, rfl⟩
  | cons p found ih =>
    intro w hhonest
    obtain ⟨more, hanswer⟩ := (hhonest p List.mem_cons_self).available w.tick item hitem
    rw [confirmHolders, wp_bind, wp_askJob, hanswer]
    dsimp only
    rw [wp_bind]
    refine (ih _ fun q hq => hhonest q (List.mem_cons_of_mem _ hq)).mono
      (fun confirmed w₁ h₁ => ?_) (fun _ _ h => h)
    obtain ⟨⟨hown, hsink, hstore⟩, rfl⟩ := h₁
    exact ⟨⟨hown, hsink, hstore⟩, rfl⟩

/-- The job finds holders, all of them located. -/
theorem wp_discover_truthful (hres : IsResource seams content bytes commitment)
    (hhonest : ∀ p, Located seams content p → Truthful seams content bytes commitment p)
    (hfound : ∃ p found, seams.findProviders w.tick content = .ok (p :: found)) :
    wp (discover seams content)
      (fun _ w' => w'.sink = w.sink ∧ w'.store = w.store ∧ ∃ providers ≠ [],
        (∀ p ∈ providers, Located seams content p) ∧ w'.own = { w.own with providers })
      (fun _ _ => False) w := by
  obtain ⟨item, hitem⟩ := hres.item
  obtain ⟨p, found, hfound⟩ := hfound
  have hlocated : ∀ q ∈ p :: found, Located seams content q := fun q hq =>
    ⟨w.tick, p :: found, hfound, hq⟩
  rw [discover, hitem]
  dsimp only
  rw [wp_bind, locateAndConfirm, wp_bind, wp_askJob, hfound]
  dsimp only
  rw [hitem]
  dsimp only
  refine (wp_confirmHolders_truthful hitem _ _ fun q hq => hhonest q (hlocated q hq)).mono
    (fun confirmed w₁ h₁ => ?_) (fun _ _ h => h.elim)
  obtain ⟨⟨hown, hsink, hstore⟩, rfl⟩ := h₁
  rw [wp_bind, wp_modifyJob, if_neg (List.cons_ne_nil _ _), wp_pure]
  refine ⟨hsink, hstore, p :: found, List.cons_ne_nil _ _, hlocated, ?_⟩
  rw [hown]
  rfl

/-- A commitment that is restored from a checkpoint. -/
def DownloadState.Restores (seams : ResourceSeams) (resume : DownloadState)
    (commitment : ResourceCommitment) : Prop :=
  resume.chunkLens ≠ [] ∧ ∃ reserve,
    ResourceCommitment.fromFirstFrameBounded resume.totalLength resume.chunkLens resume.root
      resume.inclusionProof seams.config.maxResourceSize reserve = .ok commitment

/-- A checkpoint that describes nothing yet, or the resource of a commitment. -/
def DownloadState.AgreesWith (resume : DownloadState) (commitment : ResourceCommitment) : Prop :=
  resume.chunkLens = [] ∨ resume.totalLength = commitment.totalLength ∧
    resume.chunkLens = commitment.layout.chunkLens ∧ resume.root = commitment.root ∧
    resume.inclusionProof = commitment.inclusionProof

/-- The staging area that is left for a list of chunks: it is kept if the checkpoint is about
the same ones. -/
def DownloadState.keptStaging (resume : DownloadState) (chunkLens : List Nat) (sink : Sink) : Sink :=
  if resume.chunkLens = [] ∨ resume.chunkLens = chunkLens then sink else sink.shorten 0

section Checkpoint

variable {resume : DownloadState} {adopted : ResourceCommitment}

theorem DownloadState.AgreesWith.kept (h : resume.AgreesWith commitment) :
    resume.kept commitment.layout.chunkLens = resume := by
  rw [DownloadState.kept, if_pos (h.imp_right fun hsame => hsame.2.1)]

theorem DownloadState.AgreesWith.keptStaging (h : resume.AgreesWith commitment) :
    resume.keptStaging commitment.layout.chunkLens sink = sink := by
  rw [DownloadState.keptStaging, if_pos (h.imp_right fun hsame => hsame.2.1)]

theorem DownloadState.keptStaging_readBack (chunkLens : List Nat) :
    (resume.keptStaging chunkLens sink).supportsReadBack = sink.supportsReadBack := by
  rw [DownloadState.keptStaging]
  split
  · rfl
  · rfl

theorem DownloadState.mem_of_mem_kept {chunkLens : List Nat} {i : Nat}
    (h : i ∈ (resume.kept chunkLens).doneRanges) : i ∈ resume.doneRanges := by
  rw [DownloadState.kept] at h
  split at h
  · exact h
  · cases h

/-- A commitment is what it declares. -/
theorem ResourceCommitment.eq_of_declared (hlens : adopted.layout.chunkLens
      = commitment.layout.chunkLens) (hroot : adopted.root = commitment.root)
    (hproof : adopted.inclusionProof = commitment.inclusionProof) : adopted = commitment := by
  have hlayout : adopted.layout = commitment.layout := ChunkLayout.eq_of_chunkLens hlens
  have htotal : adopted.totalLength = commitment.totalLength := by
    rw [← adopted.total, ← commitment.total, hlayout]
  obtain ⟨layout, total, root, proof, h⟩ := adopted
  obtain ⟨layout', total', root', proof', h'⟩ := commitment
  obtain rfl : layout = layout' := hlayout
  obtain rfl : total = total' := htotal
  obtain rfl : root = root' := hroot
  obtain rfl : proof = proof' := hproof
  rfl

/-- What is restored from a checkpoint that agrees with a commitment is that commitment. -/
theorem DownloadState.AgreesWith.eq_of_restores (h : resume.AgreesWith commitment)
    (hrestores : resume.Restores seams adopted) : adopted = commitment := by
  obtain ⟨hne, reserve, hbuilt⟩ := hrestores
  obtain ⟨hlens, -, hroot, hproof⟩ := ResourceCommitment.fromFirstFrameBounded_ok hbuilt
  obtain ⟨-, hlens', hroot', hproof'⟩ := h.resolve_left hne
  exact ResourceCommitment.eq_of_declared (hlens.trans hlens') (hroot.trans hroot')
    (hproof.trans hproof')

/-- The commitment of the checkpoint is restored, or none is. -/
theorem wp_restoreCommitment_restores (hnone : w.own.commitment = none) :
    wp (restoreCommitment seams)
      (fun _ w' => w'.sink = w.sink ∧ w'.store = w.store ∧ ∃ restored,
        (∀ adopted, restored = some adopted → w.own.resume.Restores seams adopted) ∧
        w'.own = { w.own with commitment := restored })
      (fun _ _ => False) w := by
  rw [restoreCommitment, wp_bind, wp_getJob]
  dsimp only
  split
  · refine ⟨rfl, rfl, none, by simp, ?_⟩
    rw [← hnone]
  · rename_i hlens
    rw [wp_bind, wp_askJob]
    split
    · rename_i adopted hbuilt
      rw [wp_modifyJob]
      refine ⟨rfl, rfl, some adopted, fun _ h => ?_, rfl⟩
      cases h
      exact ⟨hlens, _, hbuilt⟩
    · rw [wp_modifyJob]
      exact ⟨rfl, rfl, none, by simp, rfl⟩

/-- The job opens with the checkpoint under its key. -/
theorem wp_openJob_restores (hs : seams.host.Sound)
    (hclaimed : ∀ t path, w.sink.stagingPath = some path → seams.claim t path = true)
    (hnone : w.own.commitment = none) :
    wp (openJob seams key)
      (fun _ w' => w'.sink = w.sink ∧ w'.store = w.store ∧ ∃ restored,
        (∀ adopted, restored = some adopted → (w.store.resumed key).Restores seams adopted) ∧
        w'.own = { w.own with resume := w.store.resumed key, commitment := restored })
      (fun _ _ => False) w := by
  rw [openJob, wp_bind, loadCheckpoint, wp_bind, wp_attempt]
  refine wp_storeLoad_sound hs ?_
  dsimp only
  rw [wp_modifyJob, wp_bind]
  refine wp.mono (wp_restoreCommitment_restores ?_) (fun _ w₁ h₁ => ?_) (fun _ _ h => h)
  · exact hnone
  obtain ⟨hsink, hstore, restored, hrestored, hown⟩ := h₁
  rw [claimStaging, wp_bind, wp_read]
  cases hpath : w₁.sink.stagingPath with
  | none => exact ⟨hsink, hstore, restored, hrestored, hown⟩
  | some path =>
    dsimp only
    rw [wp_bind, wp_askJob, if_pos (hclaimed _ path (hsink ▸ hpath)), wp_pure]
    exact ⟨hsink, hstore, restored, hrestored, hown⟩

/-- The job downloads under the commitment that it has, or adopts the true one. -/
theorem wp_obtainCommitment_truthful (hres : IsResource seams content bytes commitment)
    (hhonest : ∀ p ∈ w.own.providers, Truthful seams content bytes commitment p)
    (hknown : w.own.providers ≠ []) :
    wp (obtainCommitment seams content)
      (fun adopted w' => (adopted = commitment ∨ w.own.commitment = some adopted) ∧
        w'.sink = w.sink ∧ w'.own = { w.own with commitment := some adopted })
      (fun _ _ => False) w := by
  rw [obtainCommitment, wp_bind, wp_getJob]
  cases hcommitted : w.own.commitment with
  | some adopted =>
    dsimp only
    rw [wp_pure]
    refine ⟨Or.inr rfl, rfl, ?_⟩
    rw [← hcommitted]
  | none =>
    dsimp only
    obtain ⟨item, hitem⟩ := hres.item
    obtain ⟨req, hreq⟩ : ∃ req, rangeRequest content 0 1 false = .ok req := by
      rw [rangeRequest, hitem]
      exact ⟨_, rfl⟩
    obtain ⟨p, rest, hproviders⟩ := List.exists_cons_of_ne_nil hknown
    obtain ⟨fetched, hanswer, htrue⟩ :=
      (hhonest p (hproviders ▸ List.mem_cons_self)).ranges w.tick _ _ _ req hreq
    obtain ⟨-, -, hlayout⟩ := rangeRequest_ok hreq
    rw [wp_bind, establishCommitment, wp_bind, wp_getJob, hreq]
    dsimp only
    rw [wp_bind, hproviders, probeHolders, wp_bind, wp_askJob, hanswer]
    dsimp only [underTimeout]
    rw [wp_bind, wp_askJob, adoptLayout_true hres htrue hlayout]
    dsimp only
    rw [wp_pure, wp_pure, wp_bind, wp_modifyJob, wp_pure]
    refine ⟨Or.inl rfl, rfl, ?_⟩
    rw [← hproviders]
    rfl

/-- What belongs to another plan is dropped. -/
theorem wp_discardBytes_sound (hs : seams.host.Sound) (key : String)
    (adopted : ResourceCommitment) (w : JobWorld) :
    wp (discardBytesStagedForAnotherPlan seams key adopted)
      (fun _ w' => w'.sink = w.own.resume.keptStaging adopted.layout.chunkLens w.sink ∧
        w'.own = { w.own with resume := w.own.resume.kept adopted.layout.chunkLens })
      (fun _ _ => False) w := by
  rw [discardBytesStagedForAnotherPlan, wp_bind, wp_getJob, DownloadState.kept,
    DownloadState.keptStaging]
  split
  · exact ⟨rfl, rfl⟩
  · rw [wp_bind, wp_modifyJob, wp_bind, wp_ignoringFailure]
    refine wp_storeClear_sound hs ?_
    rw [wp_ignoringFailure]
    refine wp_sinkTruncate_sound hs ?_
    exact ⟨rfl, rfl⟩

/-- The job plans a layout over the checkpoint that it took up: the one of the checkpoint,
or the true one. -/
theorem wp_beforeReadBack_truthful {store : StateStore}
    (hw : Favourable seams target sink store bytes commitment)
    (hres : IsResource seams target.content bytes commitment)
    (hresume : store.resumed (downloadKey seams target) = resume) :
    wp (beforeReadBack seams target)
      (fun adopted w' => (adopted = commitment ∨ resume.Restores seams adopted) ∧
        w'.sink = resume.keptStaging adopted.layout.chunkLens sink ∧ ∃ providers ≠ [],
        (∀ p ∈ providers, Located seams target.content p) ∧
        w'.own = Job.planned seams.config adopted { Job.new seams target with
          providers
          commitment := some adopted
          resume := resume.carried adopted })
      (fun _ _ => False) (JobWorld.start seams target sink store) := by
  have hopen : wp (openJob seams (downloadKey seams target)) _ _
      (JobWorld.start seams target sink store) := wp_openJob_restores hw.host hw.claimed rfl
  rw [show (JobWorld.start seams target sink store).store.resumed (downloadKey seams target)
    = resume from hresume] at hopen
  rw [beforeReadBack, wp_bind, committing, wp_bind]
  -- the moment at which holders are located is the one at which the job has opened
  refine wp_iff.mpr ⟨fun _ hrun => ?_, fun _ hrun => hopen.error hrun⟩
  obtain ⟨hsink, -, restored, hrestored, hown⟩ := hopen.ok hrun
  rw [wp_bind]
  refine (wp_discover_truthful hres hw.honest hw.found).mono (fun _ w₁ h₁ => ?_) (fun _ _ h => h)
  obtain ⟨hsink₁, -, providers, hknown, hlocated, hown₁⟩ := h₁
  rw [hown] at hown₁
  have hproviders : w₁.own.providers = providers := by rw [hown₁]
  have hcommitted : w₁.own.commitment = restored := by rw [hown₁]
  refine (wp_obtainCommitment_truthful hres
    (fun p hp => hw.honest p (hlocated p (hproviders ▸ hp))) (hproviders ▸ hknown)).mono
    (fun adopted w₂ h₂ => ?_) (fun _ _ h => h)
  obtain ⟨hadopted, hsink₂, hown₂⟩ := h₂
  rw [hcommitted] at hadopted
  rw [hown₁] at hown₂
  have hkept : w₂.own.resume = resume := by
    rw [hown₂]
  rw [wp_bind]
  refine (wp_discardBytes_sound hw.host _ adopted w₂).mono (fun _ w₃ h₃ => ?_) (fun _ _ h => h)
  obtain ⟨hsink₃, hown₃⟩ := h₃
  rw [hkept] at hsink₃ hown₃
  rw [wp_bind, persistCommitment, wp_bind, wp_modifyJob, wp_checkpoint]
  refine wp_storeSave_sound hw.host ?_
  rw [wp_bind, wp_modifyJob, wp_pure]
  refine ⟨hadopted.imp_right fun hsome => hrestored adopted hsome, ?_, providers, hknown,
    hlocated, ?_⟩
  · show w₃.sink = _
    rw [hsink₃, hsink₂, hsink₁, hsink]
    rfl
  · show Job.planned seams.config adopted { w₃.own with resume := _ } = _
    rw [hown₃, hown₂]
    rfl

end Checkpoint

/-! ## Reading back -/

/-- A range sent back to the queue is the one that is not done any more. -/
theorem Job.isDone_unresume {job : Job} {range : Range} {i : Nat} :
    (job.unresume range).IsDone i ↔ job.IsDone i ∧ range.index ≠ i := by
  show (job.rangeState.set range.index .pending)[i]? = some .done ↔ _
  by_cases hsame : range.index = i
  · subst hsame
    constructor
    · intro hdone
      rw [List.getElem?_set_self'] at hdone
      cases hget : job.rangeState[range.index]? with
      | none =>
        rw [hget] at hdone
        cases hdone
      | some state =>
        rw [hget] at hdone
        cases hdone
    · exact fun hdone => absurd rfl hdone.2
  · rw [List.getElem?_set_ne hsame]
    exact ⟨fun hdone => ⟨hdone, hsame⟩, fun hdone => hdone.1⟩

/-- The bytes of a range are there to be read back: all of them are staged, and there is a
hash to bind them to. -/
def ReadsWhole (hashes : Bool) (sink : Sink) (range : Range) : Prop :=
  hashes = true ∧ range.offset + range.length ≤ sink.staged.length

/-- What is read back whole stays done, and the rest goes back to the queue. -/
theorem wp_rehydrate_whole (hreads : seams.host.ReadsBack) (resumed : List Range)
    (hplanned : ∀ r ∈ resumed, r ∈ planRanges commitment.layout seams.config.window ∧
      (seams.debugAssertions = true → FollowsBytes commitment.layout.chunkLens r.chunkStart)) :
    ∀ w : JobWorld, w.sink.supportsReadBack = true →
      wp (rehydrateResumedRanges seams commitment resumed)
        (fun _ w' => w'.sink = w.sink ∧ w'.own.providers = w.own.providers ∧
          ∀ i, w'.own.IsDone i ↔ w.own.IsDone i ∧
            ∀ r ∈ resumed, r.index = i → ReadsWhole w.own.hasher.isSome w.sink r)
        (fun _ _ => False) w := by
  induction resumed with
  | nil => exact fun w _ => ⟨rfl, rfl, fun i => by simp⟩
  | cons range resumed ih =>
    intro w hsup
    obtain ⟨⟨hplan, hfollows⟩, hrest⟩ := List.forall_mem_cons.mp hplanned
    have hback : ¬ ReadsWhole w.own.hasher.isSome w.sink range → ∀ w₁ : JobWorld,
        w₁.own = w.own → w₁.sink = w.sink →
        wp (modifyJob (·.unresume range) >>= fun _ => rehydrateResumedRanges seams commitment resumed)
          (fun _ w' => w'.sink = w.sink ∧ w'.own.providers = w.own.providers ∧
            ∀ i, w'.own.IsDone i ↔ w.own.IsDone i ∧
              ∀ r ∈ range :: resumed, r.index = i → ReadsWhole w.own.hasher.isSome w.sink r)
          (fun _ _ => False) w₁ := by
      intro hpartial w₁ hown hsink
      rw [wp_bind, wp_modifyJob, hown]
      refine wp.mono (ih hrest _ (hsink ▸ hsup)) (fun _ w₂ h₂ => ?_) (fun _ _ h => h)
      obtain ⟨hsink₂, hproviders, hdone⟩ := h₂
      refine ⟨hsink₂.trans hsink, hproviders, fun i => ?_⟩
      rw [hdone, Job.isDone_unresume, List.forall_mem_cons]
      show _ ∧ (∀ r ∈ resumed, r.index = i → ReadsWhole w.own.hasher.isSome w₁.sink r) ↔ _
      rw [hsink]
      constructor
      · rintro ⟨⟨hi, hne⟩, hall⟩
        exact ⟨hi, fun heq => absurd heq hne, hall⟩
      · rintro ⟨hi, hfirst, hall⟩
        exact ⟨⟨hi, fun heq => hpartial (hfirst heq)⟩, hall⟩
    have hfits : range.offset + range.length ≤ u64Max :=
      Nat.le_trans (planRanges_end_le hplan) commitment.fits
    rw [rehydrateResumedRanges, wp_bind, wp_getJob, wp_bind, wp_attempt, stagedRange]
    split
    · rename_i hhash
      refine wp_sinkReadAt_sound hreads (fun bytes hread => ?_) (fun e hread => ?_)
      · -- all of the range is there
        obtain ⟨rfl, hlen, -, -⟩ := Sink.read_ok hread
        have hwhole : ReadsWhole w.own.hasher.isSome w.sink range := ⟨hhash, hlen⟩
        have hverified : verifyRange seams.debugAssertions commitment range.chunkStart range.length
            (slice w.sink.staged range.offset range.length) = .ok :=
          verifyRange_of_planned hplan hfollows (length_slice_of_le hlen)
        dsimp only
        rw [hverified]
        dsimp only
        rw [wp_bind, wp_modifyJob]
        refine wp.mono (ih hrest _ hsup) (fun _ w₂ h₂ => ?_) (fun _ _ h => h)
        obtain ⟨hsink₂, hproviders, hdone⟩ := h₂
        have hsome : (w.own.feed range.offset
            (slice w.sink.staged range.offset range.length)).hasher.isSome
              = w.own.hasher.isSome := by simp [Job.feed]
        refine ⟨hsink₂, hproviders, fun i => ?_⟩
        rw [hdone, List.forall_mem_cons]
        show w.own.IsDone i ∧ (∀ r ∈ resumed, r.index = i → ReadsWhole (w.own.feed _ _).hasher.isSome
          w.sink r) ↔ _
        rw [hsome]
        exact ⟨fun h => ⟨h.1, fun _ => hwhole, h.2⟩, fun h => ⟨h.1, h.2.2⟩⟩
      · dsimp only
        refine hback (fun hwhole => ?_) _ rfl rfl
        rw [Sink.read_of_le hsup hwhole.2 hfits] at hread
        cases hread
    · rename_i hhash
      exact hback (fun hwhole => hhash hwhole.1) w rfl rfl

/-- What a fresh plan over a checkpoint takes as done. -/
theorem Job.isDone_planned {config : DownloadConfig} {job : Job} {i : Nat} {range : Range}
    (h : (planRanges commitment.layout config.window)[i]? = some range) :
    (job.planned config commitment).IsDone i ↔ i ∈ job.resume.doneRanges := by
  obtain ⟨-, -, -, hindex⟩ := planRanges_span h
  show ((planRanges commitment.layout config.window).map fun r =>
    if job.resume.isDone r.index then RangeState.done else .pending)[i]? = some .done ↔ _
  rw [List.getElem?_map, h, Option.map_some, hindex]
  by_cases hdone : i ∈ job.resume.doneRanges
  · simp [DownloadState.isDone, hdone]
  · simp [DownloadState.isDone, hdone]

/-- Where nothing stands in the way, the job enters the loop under the commitment of its
checkpoint or the true one, with holders, and with what it could read back of what its
checkpoint says is done. -/
theorem wp_entering_truthful {store : StateStore} {resume : DownloadState}
    (hw : Favourable seams target sink store bytes commitment)
    (hres : IsResource seams target.content bytes commitment)
    (hresume : store.resumed (downloadKey seams target) = resume)
    (hasserts : ∀ adopted, adopted = commitment ∨ resume.Restores seams adopted →
      ∀ r ∈ planRanges adopted.layout seams.config.window,
      r.index ∈ resume.doneRanges → seams.debugAssertions = true →
      FollowsBytes adopted.layout.chunkLens r.chunkStart) :
    wp (entering seams target)
      (fun adopted w' => (adopted = commitment ∨ resume.Restores seams adopted) ∧
        w'.sink = resume.keptStaging adopted.layout.chunkLens sink ∧ w'.own.providers ≠ [] ∧
        (∀ p ∈ w'.own.providers, Located seams target.content p) ∧
        ∀ i range, (planRanges adopted.layout seams.config.window)[i]? = some range →
          (w'.own.IsDone i ↔ i ∈ (resume.kept adopted.layout.chunkLens).doneRanges ∧
            ReadsWhole seams.config.verifyWholeResource w'.sink range))
      (fun _ _ => False) (JobWorld.start seams target sink store) := by
  rw [entering_eq_readBack, wp_bind]
  refine (wp_beforeReadBack_truthful hw hres hresume).mono (fun adopted w₁ h₁ => ?_)
    (fun _ _ h => h)
  obtain ⟨hadopted, hsink, providers, hknown, hlocated, hown⟩ := h₁
  have hranges : w₁.own.ranges = planRanges adopted.layout seams.config.window := by
    rw [hown]
    rfl
  have hproviders : w₁.own.providers = providers := by
    rw [hown]
    rfl
  have hhash : w₁.own.hasher.isSome = seams.config.verifyWholeResource := by
    rw [hown]
    show (if seams.config.verifyWholeResource then some ResourceHasher.new else none).isSome = _
    cases seams.config.verifyWholeResource <;> rfl
  have hplanned : ∀ i range, (planRanges adopted.layout seams.config.window)[i]? = some range →
      (w₁.own.IsDone i ↔ i ∈ (resume.kept adopted.layout.chunkLens).doneRanges) := by
    intro i range hrange
    rw [hown, Job.isDone_planned hrange]
    rfl
  have hresumed : ∀ r ∈ w₁.own.doneRanges,
      r ∈ planRanges adopted.layout seams.config.window ∧ w₁.own.IsDone r.index := by
    intro r hr
    obtain ⟨hmem, hstate⟩ := Job.mem_doneRanges.mp hr
    exact ⟨hranges ▸ hmem, hstate⟩
  rw [wp_bind, readBack, wp_bind, wp_getJob, wp_bind]
  refine (wp_rehydrate_whole hw.host.readAt w₁.own.doneRanges (fun r hr => ?_) w₁ ?_).mono
    (fun _ w₂ h₂ => ?_) (fun _ _ h => h)
  · obtain ⟨hplan, hstate⟩ := hresumed r hr
    obtain ⟨i, hi⟩ := List.mem_iff_getElem?.mp hplan
    obtain ⟨-, -, -, hindex⟩ := planRanges_span hi
    rw [hindex, hplanned i r hi, ← hindex] at hstate
    exact ⟨hplan, hasserts adopted hadopted r hplan (DownloadState.mem_of_mem_kept hstate)⟩
  · rw [hsink, DownloadState.keptStaging_readBack]
    exact hw.readBack
  · obtain ⟨hsink₂, hproviders₂, hdone₂⟩ := h₂
    rw [wp_bind, wp_getJob, wp_emit, wp_pure]
    rw [hproviders] at hproviders₂
    refine ⟨hadopted, hsink₂.trans hsink, hproviders₂ ▸ hknown, hproviders₂ ▸ hlocated,
      fun i range hrange => ?_⟩
    obtain ⟨-, -, -, hindex⟩ := planRanges_span hrange
    show w₂.own.IsDone i ↔ _ ∧ ReadsWhole _ w₂.sink range
    rw [hdone₂, hplanned i range hrange, hhash, hsink₂]
    constructor
    · rintro ⟨hi, hall⟩
      refine ⟨hi, hall range (Job.mem_doneRanges.mpr ⟨?_, ?_⟩) hindex⟩
      · rw [hranges]
        exact List.mem_of_getElem? hrange
      · rw [hindex]
        exact (hplanned i range hrange).mpr hi
    · rintro ⟨hi, hwhole⟩
      refine ⟨hi, fun r hr heq => ?_⟩
      -- a plan has one range of an index
      obtain ⟨k, hk⟩ := List.mem_iff_getElem?.mp (hresumed r hr).1
      obtain ⟨-, -, -, hindex'⟩ := planRanges_span hk
      have hki : k = i := hindex'.symm.trans heq
      rw [hki, hrange] at hk
      exact Option.some.inj hk ▸ hwhole

/-! ## An honest holder -/

/-- The small resource's world, with one honest holder of another resource. -/
def honestSeams (bytes : Bytes) (commitment : ResourceCommitment) : ResourceSeams :=
  { smallResourceSeams with
    fetchRange := fun _ _ req =>
      some (.ok (honestRange bytes commitment.layout.chunkLens (some "proof") req))
    verifyInclusion := fun _ leaf proof root =>
      leaf = smallSha256 bytes ∧ proof = some "proof" ∧ root = some (hexOf smallRoot) }

section HonestSeams

variable (hroot : commitment.root = some (hexOf smallRoot))
  (hproof : commitment.inclusionProof = some "proof")
  (hlength : bytes.length = commitment.totalLength)
include hroot hproof hlength

theorem honestRange_trueAnswer {req : RangeRequest} (hreq : req.root = hexOf smallRoot) :
    TrueAnswer bytes commitment req
      (honestRange bytes commitment.layout.chunkLens (some "proof") req) where
  bytes _ := rfl
  totalLength n h := by
    cases h
    exact hlength
  chunkLens lens h := by
    simp only [honestRange] at h
    cases hskip : req.skipLayout with
    | true => simp [hskip] at h
    | false =>
      rw [hskip, if_neg Bool.false_ne_true] at h
      cases h
      rfl
  chunkCount n h := by
    cases h
    rfl
  root root h := by
    cases h
    rw [hroot, hreq]
  declared hskip := by simp [honestRange, hskip, hproof]

theorem honestSeams_favourable (hread : sink.supportsReadBack = true) (store : StateStore)
    (now : Nat → Nat) :
    Favourable { honestSeams bytes commitment with now } smallTarget sink store bytes
      commitment where
  room := ⟨Nat.le_add_left 1 3, Nat.le_add_left 1 1⟩
  orders t req hne := by
    obtain ⟨c, hc⟩ := List.exists_mem_of_ne_nil _ hne
    refine ⟨c, hc, ?_⟩
    show c.peerId ∈ (req.candidates.map (·.peerId)).rotate t
    rw [List.mem_rotate]
    exact List.mem_map_of_mem hc
  chooses := by
    refine ⟨fun t req peer hpeer => ?_, fun t req pin hpin => by cases hpin⟩
    rw [← List.mem_map, ← List.mem_rotate (n := t)]
    exact hpeer
  host := Host.healthy_sound
  readBack := hread
  claimed _ _ _ := rfl
  found := ⟨_, _, rfl⟩
  honest p _ := by
    refine ⟨fun t item _ => ⟨[], rfl⟩, fun t offset length skipLayout req hreq => ⟨_, rfl, ?_⟩⟩
    cases hreq
    exact honestRange_trueAnswer hroot hproof hlength rfl

end HonestSeams

end DigDownload
