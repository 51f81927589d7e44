import DigDownload.Resource.GivingUp
import DigDownload.Resource.Untrusted
import DigDownload.Resource.Feeds

/-!
# Holders that answer

When every holder that can be located serves the ranges that are wanted of it, no fetch
fails: no holder is ever backing off, something is outstanding whenever a range is missing,
and every fetch that ends leaves one range less. So the loop is over as soon as as many
fetches have ended as there were ranges missing, in whatever order they end.
-/

namespace DigDownload

open Prog Slices Tiling

variable {seams : ResourceSeams} {content : ContentId} {key : String}
  {commitment : ResourceCommitment} {wanted : Nat → Prop} {own : Range → Bytes} {w w' : JobWorld}

/-! ## What is asked of the world -/

/-- A selector that names candidates only, in its order and in its pins. -/
structure ChoosesCandidates (seams : ResourceSeams) : Prop where
  ordered : ∀ t req, ∀ peer ∈ (seams.select t req).ordered,
    ∃ c ∈ req.candidates, c.peerId = peer
  pinned : ∀ t req, ∀ pin ∈ (seams.select t req).assignments,
    ∃ c ∈ req.candidates, c.peerId = pin.2

/-- The locator names the holder, at some moment. -/
def Located (seams : ResourceSeams) (content : ContentId) (p : ProviderRecord) : Prop :=
  ∃ t found, seams.findProviders t content = .ok found ∧ p ∈ found

/-- The holder serves the wanted ranges of a plan: its answers pass the check and are the
bytes that the range has. -/
def ServesRanges (seams : ResourceSeams) (content : ContentId) (commitment : ResourceCommitment)
    (wanted : Nat → Prop) (own : Range → Bytes) (p : ProviderRecord) : Prop :=
  ∀ t range req, range ∈ planRanges commitment.layout seams.config.window →
    wanted range.index → rangeRequest content range.offset range.length true = .ok req →
    ∃ fetched, seams.fetchRange t p req = some (.ok fetched) ∧
      verifyFetched seams commitment range fetched = .ok ∧ fetched.bytes = own range

/-- A world in which nothing fails: the caps leave room, the selector chooses among the
holders it is offered, the sink and the store do not fail, and every holder that is located
serves what is wanted. -/
structure Obliging (seams : ResourceSeams) (content : ContentId) (commitment : ResourceCommitment)
    (wanted : Nat → Prop) (own : Range → Bytes) : Prop where
  room : RoomForOne seams.config
  orders : OrdersSome seams
  chooses : ChoosesCandidates seams
  host : seams.host.Sound
  item : ∃ item, availabilityItem content = .ok item
  serves : ∀ p, Located seams content p → ServesRanges seams content commitment wanted own p
  length : ∀ range ∈ planRanges commitment.layout seams.config.window,
    (own range).length = range.length

/-- What is staged for every range that is done are the bytes that the range has. -/
def Staged (own : Range → Bytes) (w : JobWorld) : Prop :=
  ∀ i range, w.own.IsDone i → w.own.ranges[i]? = some range →
    slice w.sink.staged range.offset range.length = own range

/-- A job to which nothing has happened: its holders were located, none of them has failed,
and what is done is staged as it should be. -/
structure Smooth (seams : ResourceSeams) (content : ContentId) (commitment : ResourceCommitment)
    (wanted : Nat → Prop) (own : Range → Bytes) (w : JobWorld) : Prop where
  books : Books seams.config commitment w.own
  running : w.own.paused = false
  known : w.own.providers ≠ []
  located : ∀ p ∈ w.own.providers, Located seams content p
  healthy : ∀ peer now, w.own.tracker.isAvailable peer now = true
  unfailed : w.own.totalFailures = 0
  issued : ∀ fetch ∈ w.own.inflight, ∃ p, fetch.provider = some p ∧ Located seams content p
  unwanted : ∀ i < w.own.ranges.length, ¬ wanted i → w.own.IsDone i
  staged : Staged own w

/-! ## Filling -/

/-- What a plan picks for a range is a source that it orders or pins. -/
theorem Job.mem_of_pickFromPlan {config : DownloadConfig} {job : Job} {plan : SelectPlan}
    {range : Nat} {peer : String} (h : job.pickFromPlan config plan range = some peer) :
    peer ∈ plan.ordered ∨ ∃ pin ∈ plan.assignments, pin.2 = peer := by
  rw [Job.pickFromPlan] at h
  cases hpin : plan.assignments.find? (·.1 = range) with
  | none =>
    rw [hpin] at h
    exact Or.inl (List.mem_of_find?_eq_some h)
  | some pin =>
    rw [hpin] at h
    dsimp only at h
    split at h
    · cases h
      exact Or.inr ⟨pin, List.mem_of_find?_eq_some hpin, rfl⟩
    · exact Or.inl (List.mem_of_find?_eq_some h)

/-- Under a plan that names known holders only, every fetch that is issued knows its holder. -/
theorem wp_fillFrom_issued {plan : SelectPlan} (known : List ProviderRecord)
    (hordered : ∀ peer ∈ plan.ordered, ∃ p ∈ known, p.providerPeerId = peer)
    (hpinned : ∀ pin ∈ plan.assignments, ∃ p ∈ known, p.providerPeerId = pin.2) (fuel : Nat) :
    ∀ w : JobWorld, w.own.providers = known →
      (∀ fetch ∈ w.own.inflight, ∃ p, fetch.provider = some p ∧ Located seams content p) →
      (∀ p ∈ known, Located seams content p) →
      wp (fillFrom seams plan fuel)
        (fun _ w' => ∀ fetch ∈ w'.own.inflight,
          ∃ p, fetch.provider = some p ∧ Located seams content p)
        (fun _ _ => False) w := by
  induction fuel with
  | zero => exact fun w _ hissued _ => hissued
  | succ fuel ih =>
    intro w hknown hissued hlocated
    rw [fillFrom, wp_bind, wp_getJob]
    split
    · exact hissued
    split
    · exact hissued
    rename_i range hrange
    split
    · exact hissued
    rename_i peer hpick
    rw [wp_bind, wp_modifyJob, wp_bind, wp_noteJob]
    refine ih _ hknown (fun fetch hfetch => ?_) hlocated
    have hfetch' : fetch ∈ (w.own.issue range peer).inflight := hfetch
    cases List.mem_append.mp hfetch' with
    | inl hold => exact hissued fetch hold
    | inr hnew =>
      obtain rfl := List.mem_singleton.mp hnew
      -- the holder that was picked is a known one
      have hpeer : ∃ p ∈ known, p.providerPeerId = peer := by
        cases Job.mem_of_pickFromPlan hpick with
        | inl hmem => exact hordered peer hmem
        | inr hpin =>
          obtain ⟨pin, hmem, rfl⟩ := hpin
          exact hpinned pin hmem
      obtain ⟨p, hp, hid⟩ := hpeer
      have hfind : (w.own.providers.find? fun p => p.providerPeerId = peer).isSome = true := by
        rw [hknown, List.find?_isSome]
        exact ⟨p, hp, by simpa using hid⟩
      obtain ⟨q, hq⟩ := Option.isSome_iff_exists.mp hfind
      have hmem := List.mem_of_find?_eq_some hq
      rw [hknown] at hmem
      exact ⟨q, hq, hlocated q hmem⟩

/-- A candidate is a holder that is known. -/
theorem Job.exists_of_mem_candidates {job : Job} {now : Nat} {c : CandidateRef}
    (h : c ∈ job.candidates now) : ∃ p ∈ job.providers, p.providerPeerId = c.peerId := by
  obtain ⟨p, hp, rfl⟩ := List.mem_map.mp h
  exact ⟨p, (List.mem_filter.mp hp).1, rfl⟩

theorem wp_fillUnlessPaused_issued (hchooses : ChoosesCandidates seams)
    (hissued : ∀ fetch ∈ w.own.inflight, ∃ p, fetch.provider = some p ∧ Located seams content p)
    (hlocated : ∀ p ∈ w.own.providers, Located seams content p) (key : String) :
    wp (fillUnlessPaused seams key)
      (fun _ w' => ∀ fetch ∈ w'.own.inflight,
        ∃ p, fetch.provider = some p ∧ Located seams content p)
      (fun _ _ => False) w := by
  rw [fillUnlessPaused, wp_bind, wp_getJob]
  split
  · exact hissued
  · rw [fill, wp_bind, wp_readClock, wp_bind, wp_getJob, wp_bind, wp_askJob]
    refine wp_fillFrom_issued w.own.providers (fun peer hpeer => ?_)
      (fun pin hpin => ?_) _ _ rfl hissued hlocated
    · obtain ⟨c, hc, rfl⟩ := hchooses.ordered _ _ peer hpeer
      exact Job.exists_of_mem_candidates hc
    · obtain ⟨c, hc, hid⟩ := hchooses.pinned _ _ pin hpin
      rw [← hid]
      exact Job.exists_of_mem_candidates hc

/-! ## The head of an iteration -/

/-- As many ranges are missing when the same ones are done. -/
theorem countP_isIncomplete_eq {states states' : List RangeState}
    (hlen : states'.length = states.length)
    (hdone : ∀ i : Nat, states'[i]? = some .done ↔ states[i]? = some .done) :
    states'.countP (·.isIncomplete) = states.countP (·.isIncomplete) := by
  induction states generalizing states' with
  | nil =>
    rw [List.eq_nil_of_length_eq_zero hlen]
  | cons state states ih =>
    cases states' with
    | nil => cases hlen
    | cons state' states' =>
      have hrest := ih (Nat.succ.inj hlen) fun i => hdone (i + 1)
      have hfirst : state' = .done ↔ state = .done := by simpa using hdone 0
      have hsame : state'.isIncomplete = state.isIncomplete := by
        cases state <;> cases state' <;> simp_all [RangeState.isIncomplete]
      rw [List.countP_cons, List.countP_cons, hrest, hsame]

theorem Fills.pendingCount_eq (h : Fills w w') : w'.own.pendingCount = w.own.pendingCount :=
  countP_isIncomplete_eq h.length h.done

/-- Handing out ranges is no trouble. -/
theorem Smooth.fills (h : Smooth seams content commitment wanted own w) (hfills : Fills w w')
    (hbooks : Books seams.config commitment w'.own)
    (hissued : ∀ fetch ∈ w'.own.inflight, ∃ p, fetch.provider = some p ∧ Located seams content p) :
    Smooth seams content commitment wanted own w' where
  books := hbooks
  running := by rw [hfills.own]; exact h.running
  known := by rw [hfills.own]; exact h.known
  located := by rw [hfills.own]; exact h.located
  healthy := by rw [hfills.own]; exact h.healthy
  unfailed := by rw [hfills.own]; exact h.unfailed
  issued := hissued
  unwanted := by
    intro i hi hunwanted
    rw [hfills.own] at hi
    exact (hfills.done i).mpr (h.unwanted i hi hunwanted)
  staged := by
    intro i range hdone hrange
    rw [hfills.own] at hrange
    rw [hfills.sink]
    exact h.staged i range ((hfills.done i).mp hdone) hrange

/-- The loop is over, or it waits with something outstanding. -/
theorem wp_loopHead_smooth (ho : Obliging seams content commitment wanted own)
    (h : Smooth seams content commitment wanted own w) (hplan : w.own.ranges ≠ []) (key : String) :
    wp (loopHead seams content key)
      (fun head w' => Smooth seams content commitment wanted own w' ∧
        w'.own.ranges = w.own.ranges ∧ w'.own.pendingCount = w.own.pendingCount ∧
        (head = .finished ∧ w'.own.allDone = true ∨ head = .waiting none ∧ w'.own.inflight ≠ []))
      (fun _ _ => False) w := by
  refine wp_loopHead fun w₁ hrun hfills => ?_
  have hwalks : Walks seams content (fillUnlessPaused seams key) w := walks_fillUnlessPaused key
  have hb₁ : Books seams.config commitment w₁.own := (hwalks.ok hrun).books h.books
  have hissued := (wp_of_run_ok hrun).mp
    (wp_fillUnlessPaused_issued ho.chooses h.issued h.located key)
  have h₁ := h.fills hfills hb₁ hissued
  have hranges : w₁.own.ranges = w.own.ranges := by rw [hfills.own]
  -- with nothing outstanding everything is done, because no holder is backing off
  have hidle : w₁.own.inflight = [] → w₁.own.allDone = true := by
    intro hidle
    by_contra hmissing
    obtain ⟨-, hbacking⟩ := (wp_of_run_ok hrun).mp
      (wp_fillUnlessPaused_backingOff ho.room ho.orders h.books h.running key)
    have hpending := hb₁.nextPending_isSome (hranges ▸ hplan) hidle (by simpa using hmissing)
    obtain ⟨p, hp⟩ := List.exists_mem_of_ne_nil _ h.known
    have hunavailable := hbacking hidle hpending p hp
    rw [h.healthy] at hunavailable
    cases hunavailable
  split
  · rename_i hall
    exact ⟨h₁, hranges, hfills.pendingCount_eq, Or.inl ⟨rfl, hall.1⟩⟩
  rename_i hmissing
  have hout : w₁.own.inflight ≠ [] := fun hnone => hmissing ⟨hidle hnone, hnone⟩
  split
  · rename_i hmore
    rw [h₁.unfailed] at hmore
    exact absurd hmore (Nat.not_lt_zero _)
  split
  · rename_i hnone
    exact absurd hnone.2.1 hout
  · exact ⟨h₁, hranges, hfills.pendingCount_eq, Or.inr ⟨rfl, hout⟩⟩

/-- The head of an iteration is settled at once. -/
theorem wp_settledHead_smooth (ho : Obliging seams content commitment wanted own)
    (h : Smooth seams content commitment wanted own w) (hplan : w.own.ranges ≠ []) (key : String) :
    wp (settledHead seams content key)
      (fun head w' => Smooth seams content commitment wanted own w' ∧
        w'.own.ranges = w.own.ranges ∧ w'.own.pendingCount = w.own.pendingCount ∧
        (head = .finished ∧ w'.own.allDone = true ∨ head = .waiting none ∧ w'.own.inflight ≠ []))
      (fun _ _ => False) w := by
  rw [settledHead, wp_bind]
  refine (wp_loopHead_smooth ho h hplan key).mono (fun head w₁ h₁ => ?_) (fun _ _ h => h)
  obtain ⟨-, -, -, hhead⟩ := id h₁
  cases hhead with
  | inl hfinished =>
    rw [hfinished.1] at h₁ ⊢
    exact h₁
  | inr hwaiting =>
    rw [hwaiting.1] at h₁ ⊢
    exact h₁

/-! ## The turns -/

/-- The end of a fetch that is served, in full. -/
theorem wp_takeTurn_succeeded (hs : seams.host.Sound) (wakeup : Option Nat) {choice : Nat}
    {fetch : Fetch} {fetched : FetchedRange} {range : Range} {job : Job}
    {Q : Bool → JobWorld → Prop} {E : Halt → JobWorld → Prop}
    (hended : Ended seams content w (choice % w.own.inflight.length) fetch (.ok fetched)
      commitment range)
    (hverified : verifyFetched seams commitment range fetched = .ok)
    (hfits : range.offset + fetched.bytes.length ≤ u64Max)
    (hjob : job = (w.own.taken (choice % w.own.inflight.length) fetch).complete range fetch.range
      fetch.peer fetched.bytes)
    (h : Q true {
      sink := w.sink.write range.offset fetched.bytes
      store := w.store.put job.resume.key (some job.resume)
      own := job
      trace := w.trace ++ [
        .ask (.fetched fetch.range fetch.peer (some (.ok fetched))),
        .writeAt range.offset fetched.bytes true,
        .ask (.record fetch.peer fetched.bytes.length .ok),
        .save job.resume true,
        .ask (.emit (.rangeCompleted fetch.range fetch.peer job.snapshot))] }) :
    wp (takeTurn seams content wakeup (.completed choice)) Q E w := by
  have hhandle : wp (handleResult seams fetch.range fetch.peer (.ok fetched)) (fun _ => Q true) E
      ({ w with own := { w.own with
          inflight := w.own.inflight.eraseIdx (choice % w.own.inflight.length) } }.note
        (.ask (.fetched fetch.range fetch.peer (some (.ok fetched))))) := by
    refine wp_handleResult_served hended.committed hended.planned hverified ?_
    rw [rangeSucceeded, wp_bind, wp_orFail]
    refine wp_sinkWriteAt_sound hs hfits ?_
    rw [wp_bind, wp_modifyJob, wp_bind, wp_noteJob, wp_bind, wp_checkpoint]
    refine wp_storeSave_sound hs ?_
    rw [wp_bind, wp_getJob, wp_emit]
    subst hjob
    simpa [afterTake, World.note] using h
  rw [takeTurn, wp_bind, wp_read, hended.outstanding]
  dsimp only
  rw [hended.answered]
  dsimp only
  rw [wp_bind, wp_modifyJob, wp_bind, wp_noteJob, wp_bind]
  exact hhandle

/-- What an outstanding fetch has come to: its holder serves it. -/
theorem Smooth.ended (ho : Obliging seams content commitment wanted own)
    (h : Smooth seams content commitment wanted own w) {choice : Nat} {fetch : Fetch}
    (hfetch : w.own.inflight[choice]? = some fetch) :
    ∃ range fetched, Ended seams content w choice fetch (.ok fetched) commitment range ∧
      verifyFetched seams commitment range fetched = .ok ∧ fetched.bytes = own range := by
  have hstate := h.books.inFlight hfetch
  obtain ⟨hlt, -⟩ := List.getElem?_eq_some_iff.mp hstate
  rw [h.books.planned.states] at hlt
  obtain ⟨range, hrange⟩ : ∃ range, w.own.ranges[fetch.range]? = some range :=
    ⟨_, List.getElem?_eq_getElem hlt⟩
  -- what is with a source is not done, so it is wanted
  have hwanted : wanted fetch.range := by
    by_contra hunwanted
    have hdone := h.unwanted fetch.range hlt hunwanted
    rw [Job.IsDone, hstate] at hdone
    cases hdone
  have hplanned : range ∈ planRanges commitment.layout seams.config.window := by
    rw [← h.books.planned.ranges]
    exact List.mem_of_getElem? hrange
  rw [← h.books.planned.index_eq hrange] at hwanted
  obtain ⟨p, hprovider, hlocated⟩ := h.issued fetch (List.mem_of_getElem? hfetch)
  obtain ⟨item, hitem⟩ := ho.item
  obtain ⟨req, hreq⟩ : ∃ req, rangeRequest content range.offset range.length true = .ok req := by
    rw [rangeRequest, hitem]
    exact ⟨_, rfl⟩
  obtain ⟨fetched, hanswer, hverified, hbytes⟩ :=
    ho.serves p hlocated w.tick range req hplanned hwanted hreq
  refine ⟨range, fetched, ⟨hfetch, ?_, h.books.planned.committed, hrange⟩, hverified, hbytes⟩
  rw [fetchOutcome, hprovider, hrange]
  dsimp only
  rw [hreq]
  dsimp only
  rw [hanswer]
  rfl

/-- A fetch that was served leaves one range less, and is no trouble. -/
theorem Smooth.succeed (ho : Obliging seams content commitment wanted own)
    (h : Smooth seams content commitment wanted own w) {choice : Nat} {fetch : Fetch}
    {fetched : FetchedRange} {range : Range} (hstep : JobStep seams content w w')
    (hended : Ended seams content w choice fetch (.ok fetched) commitment range)
    (hbytes : fetched.bytes = own range)
    (hsink : w'.sink = w.sink.write range.offset fetched.bytes)
    (hjob : w'.own = (w.own.taken choice fetch).complete range fetch.range fetch.peer
      fetched.bytes) :
    Smooth seams content commitment wanted own w' ∧ w'.own.ranges = w.own.ranges ∧
      w'.own.pendingCount + 1 = w.own.pendingCount := by
  have hstate := h.books.inFlight hended.outstanding
  obtain ⟨hlt, hget⟩ := List.getElem?_eq_some_iff.mp hstate
  have hranges : w'.own.ranges = w.own.ranges := by
    rw [hjob]
    simp [Job.complete, Job.feed]
  have hstates : w'.own.rangeState = w.own.rangeState.set fetch.range .done := by
    rw [hjob]
    simp [Job.complete, Job.feed]
  have hplan := hended.planned
  rw [h.books.planned.ranges] at hplan
  have hlen : fetched.bytes.length = range.length := by
    rw [hbytes]
    exact ho.length range (List.mem_of_getElem? hplan)
  have hdone : ∀ i, w'.own.IsDone i → i ≠ fetch.range → w.own.IsDone i := by
    intro i hi hne
    rw [Job.IsDone, hstates, List.getElem?_set_ne (Ne.symm hne)] at hi
    exact hi
  refine ⟨?_, hranges, ?_⟩
  · exact {
      books := hstep.books h.books
      running := by rw [hjob]; simpa [Job.complete, Job.feed] using h.running
      known := by rw [hjob]; simpa [Job.complete, Job.feed] using h.known
      located := by rw [hjob]; simpa [Job.complete, Job.feed] using h.located
      healthy := by
        intro peer now
        rw [hjob]
        show ((w.own.taken choice fetch).tracker.recordSuccess fetch.peer).isAvailable peer now = true
        rw [Job.taken_tracker]
        by_cases hpeer : peer = fetch.peer
        · subst hpeer
          exact SourceTracker.isAvailable_recordSuccess_self
        · rw [SourceTracker.isAvailable_recordSuccess_ne hpeer]
          exact h.healthy peer now
      unfailed := by rw [hjob]; simpa [Job.complete, Job.feed] using h.unfailed
      issued := by
        intro other hother
        have hother' : other ∈ w.own.inflight.eraseIdx choice := by
          rw [hjob] at hother
          simpa [Job.complete, Job.feed] using hother
        exact h.issued other (List.mem_of_mem_eraseIdx hother')
      unwanted := by
        intro i hi hunwanted
        rw [hranges] at hi
        have hearlier := h.unwanted i hi hunwanted
        have hne : fetch.range ≠ i := by
          intro heq
          rw [← heq, Job.IsDone, hstate] at hearlier
          cases hearlier
        rw [Job.IsDone, hstates, List.getElem?_set_ne hne]
        exact hearlier
      staged := by
        intro i other hi hother
        rw [hranges] at hother
        rw [hsink]
        by_cases hsame : i = fetch.range
        · -- the range that was just written
          subst hsame
          obtain rfl : other = range := Option.some.inj (hother.symm.trans hended.planned)
          rw [← hlen, Sink.slice_write, hbytes]
        · have hearlier := h.staged i other (hdone i hi hsame) hother
          rw [h.books.planned.ranges] at hother
          exact slice_write_other hplan hother (Ne.symm hsame) hlen hearlier
            (ho.length other (List.mem_of_getElem? hother)) }
  · -- one range less is missing
    have hpos : 0 < w.own.rangeState.countP (·.isIncomplete) := by
      rw [List.countP_pos_iff]
      exact ⟨_, List.mem_of_getElem? hstate, rfl⟩
    have hmissing : (RangeState.inFlight fetch.peer).isIncomplete = true := rfl
    have hthere : RangeState.done.isIncomplete = false := rfl
    rw [Job.pendingCount, Job.pendingCount, hstates, List.countP_set hlt, hget, hmissing, hthere,
      if_pos rfl, if_neg Bool.false_ne_true]
    omega

/-- `w'` is `w` after calls that leave a trace and nothing else. -/
structure OnlyTraced (w w' : JobWorld) : Prop where
  own : w'.own = w.own
  sink : w'.sink = w.sink
  store : w'.store = w.store

theorem OnlyTraced.refl (w : JobWorld) : OnlyTraced w w := ⟨rfl, rfl, rfl⟩

theorem OnlyTraced.note (h : OnlyTraced w w') (e : Effect ResourceAsk) : OnlyTraced w (w'.note e) :=
  ⟨h.own, h.sink, h.store⟩

/-- The holders that confirm are among those that were found. -/
theorem wp_confirmHolders_subset (item : AvailabilityItem) (found : List ProviderRecord) :
    ∀ w, wp (confirmHolders seams item found)
      (fun confirmed w' => OnlyTraced w w' ∧ ∀ p ∈ confirmed, p ∈ found)
      (fun _ _ => False) w := by
  induction found with
  | nil => exact fun w => ⟨.refl w, fun p hp => hp⟩
  | cons p found ih =>
    intro w
    rw [confirmHolders, wp_bind, wp_askJob]
    split
    · rw [wp_bind]
      refine (ih _).mono (fun confirmed w₁ h₁ => ?_) (fun _ _ h => h)
      obtain ⟨⟨hown, hsink, hstore⟩, hfound⟩ := h₁
      refine ⟨⟨hown, hsink, hstore⟩, fun q hq => ?_⟩
      cases List.mem_cons.mp hq with
      | inl heq => exact heq ▸ List.mem_cons_self
      | inr hmem => exact List.mem_cons_of_mem _ (hfound q hmem)
    · refine (ih _).mono (fun confirmed w₁ h₁ => ?_) (fun _ _ h => h)
      obtain ⟨⟨hown, hsink, hstore⟩, hfound⟩ := h₁
      exact ⟨⟨hown, hsink, hstore⟩, fun q hq => List.mem_cons_of_mem _ (hfound q hq)⟩

/-- Looking for more holders finds located ones, or fails with the locator. -/
theorem wp_discoverMore_located (w : JobWorld) :
    wp (discoverMore seams content)
      (fun _ w' => ∃ fresh, (∀ p ∈ fresh, Located seams content p) ∧
        w'.own = { w.own with providers := w.own.providers ++ fresh } ∧ w'.sink = w.sink)
      (fun halt w' => (∃ e, halt = .failed e) ∧ OnlyTraced w w') w := by
  rw [discoverMore, wp_bind, locateAndConfirm, wp_bind, wp_askJob]
  cases hfound : seams.findProviders w.tick content with
  | error e => exact ⟨⟨e, rfl⟩, (OnlyTraced.refl w).note _⟩
  | ok found =>
    dsimp only
    cases hitem : availabilityItem content with
    | error e => exact ⟨⟨e, rfl⟩, (OnlyTraced.refl w).note _⟩
    | ok item =>
      refine (wp_confirmHolders_subset item found _).mono (fun more w₁ h₁ => ?_)
        (fun _ _ h => h.elim)
      obtain ⟨⟨hown, hsink, -⟩, hmore⟩ := h₁
      have hlocated : ∀ p ∈ more.filter (fun p =>
          !(w₁.own.providers.map (·.providerPeerId)).contains p.providerPeerId),
          Located seams content p := fun p hp =>
        ⟨w.tick, found, hfound, hmore p (List.mem_filter.mp hp).1⟩
      rw [World.note_own] at hown
      rw [wp_bind, wp_getJob, wp_bind, wp_modifyJob]
      split
      · exact ⟨_, hlocated, by simp [hown], hsink⟩
      · exact ⟨_, hlocated, by simp [hown], hsink⟩

/-- More holders are no trouble. -/
theorem Smooth.learn (h : Smooth seams content commitment wanted own w)
    {fresh : List ProviderRecord} (hfresh : ∀ p ∈ fresh, Located seams content p) {now : Nat}
    (hown : w'.own = { w.own with
      lastRefresh := now, providers := w.own.providers ++ fresh })
    (hsink : w'.sink = w.sink) : Smooth seams content commitment wanted own w' where
  books := h.books.aside (by rw [hown])
  running := by rw [hown]; exact h.running
  known := by
    rw [hown]
    exact List.append_ne_nil_of_left_ne_nil h.known _
  located := by
    rw [hown]
    intro p hp
    cases List.mem_append.mp hp with
    | inl hold => exact h.located p hold
    | inr hnew => exact hfresh p hnew
  healthy := by rw [hown]; exact h.healthy
  unfailed := by rw [hown]; exact h.unfailed
  issued := by rw [hown]; exact h.issued
  unwanted := by rw [hown]; exact h.unwanted
  staged := by
    rw [Staged, hown, hsink]
    exact h.staged

/-- Whether a turn is the end of a fetch. -/
def Turn.isCompletion : Turn → Bool
  | .completed _ => true
  | _ => false

/-- A turn other than a control message is no trouble; the end of a fetch leaves one range
less, and always happens while something is outstanding. -/
theorem wp_takeTurn_smooth (ho : Obliging seams content commitment wanted own)
    (h : Smooth seams content commitment wanted own w) (hout : w.own.inflight ≠ []) {turn : Turn}
    (hturn : ∀ message, turn ≠ .control message) :
    wp (takeTurn seams content none turn)
      (fun happened w' => Smooth seams content commitment wanted own w' ∧
        w'.own.ranges = w.own.ranges ∧
        w'.own.pendingCount + (if turn.isCompletion then 1 else 0) = w.own.pendingCount ∧
        (happened = false → w' = w))
      (fun _ _ => False) w := by
  cases turn with
  | control message => exact absurd rfl (hturn message)
  | wake =>
    rw [takeTurn, wp_bind, wp_read, wp_pure]
    exact ⟨h, rfl, rfl, fun _ => rfl⟩
  | refresh =>
    rw [takeTurn, wp_bind, wp_read]
    split
    · rw [wp_bind, refreshTurn, wp_bind, wp_readClock, wp_bind, wp_modifyJob, wp_handle]
      refine (wp_discoverMore_located _).mono (fun added w₁ h₁ => ?_) (fun halt w₁ h₁ => ?_)
      · obtain ⟨fresh, hfresh, hown, hsink⟩ := h₁
        have hlearned := h.learn hfresh hown hsink
        exact ⟨hlearned, by rw [hown]; rfl, by rw [hown]; rfl, fun hno => by cases hno⟩
      · -- a failure to locate holders is ignored
        obtain ⟨⟨e, rfl⟩, hown, hsink, -⟩ := h₁
        have hown' : w₁.own = { w.own with
            lastRefresh := seams.now w.tick, providers := w.own.providers ++ [] } := by
          rw [hown, List.append_nil]
          rfl
        have hlearned := h.learn (fun p hp => by cases hp) hown' hsink
        exact ⟨hlearned, by rw [hown]; rfl, by rw [hown]; rfl, fun hno => by cases hno⟩
    · exact ⟨h, rfl, rfl, fun _ => rfl⟩
  | completed choice =>
    have hlt : choice % w.own.inflight.length < w.own.inflight.length :=
      Nat.mod_lt _ (List.length_pos_iff.mpr hout)
    obtain ⟨range, fetched, hended, hverified, hbytes⟩ :=
      h.ended ho (List.getElem?_eq_getElem hlt)
    have hplan := hended.planned
    rw [h.books.planned.ranges] at hplan
    have hfits : range.offset + fetched.bytes.length ≤ u64Max := by
      obtain ⟨hi, hoffset, hlength, -⟩ := planRanges_span hplan
      have hend := span_end_le_sum hi
      rw [planRanges_sum, ← hoffset, ← hlength] at hend
      rw [hbytes, ho.length range (List.mem_of_getElem? hplan)]
      exact Nat.le_trans hend (commitment.total ▸ commitment.fits)
    refine wp_takeTurn_succeeded ho.host none hended hverified hfits rfl ?_
    have hstep : JobStep seams content w _ := .succeed hended hverified rfl
    obtain ⟨hsmooth, hranges, hcount⟩ := h.succeed ho hstep hended hbytes rfl rfl
    exact ⟨hsmooth, hranges, hcount, fun hno => by cases hno⟩

/-! ## The loop -/

/-- A waiting loop goes on until nothing is missing, or until the turns are used up with fewer
fetches ended than ranges were missing. -/
theorem wp_scheduleFrom_smooth (ho : Obliging seams content commitment wanted own)
    (turns : List Turn) (hturns : ∀ message, .control message ∉ turns) (key : String) :
    ∀ w : JobWorld, Smooth seams content commitment wanted own w → w.own.inflight ≠ [] →
      wp (scheduleFrom seams content key turns none)
        (fun _ w' => Smooth seams content commitment wanted own w' ∧ w'.own.allDone = true)
        (fun halt _ => halt = .pending ∧ turns.countP Turn.isCompletion < w.own.pendingCount) w := by
  induction turns with
  | nil =>
    intro w h hout
    refine ⟨rfl, ?_⟩
    -- what is outstanding is missing
    obtain ⟨fetch, hfetch⟩ := List.exists_mem_of_ne_nil _ hout
    have hstate := h.books.scheduled.state fetch hfetch
    show 0 < w.own.rangeState.countP (·.isIncomplete)
    rw [List.countP_pos_iff]
    exact ⟨_, List.mem_of_getElem? hstate, rfl⟩
  | cons turn turns ih =>
    intro w h hout
    have hrest : ∀ message, .control message ∉ turns := fun message hmem =>
      hturns message (List.mem_cons_of_mem _ hmem)
    have hturn : ∀ message, turn ≠ .control message := fun message heq =>
      hturns message (heq ▸ List.mem_cons_self)
    have hplan : w.own.ranges ≠ [] := by
      intro hnil
      obtain ⟨fetch, hfetch⟩ := List.exists_mem_of_ne_nil _ hout
      obtain ⟨hlt, -⟩ := List.getElem?_eq_some_iff.mp (h.books.scheduled.state fetch hfetch)
      rw [h.books.planned.states, hnil] at hlt
      exact absurd hlt (Nat.not_lt_zero _)
    rw [scheduleFrom, wp_bind]
    refine (wp_takeTurn_smooth ho h hout hturn).mono (fun happened w₁ h₁ => ?_)
      (fun _ _ h => h.elim)
    obtain ⟨hsmooth, hranges, hcount, hsame⟩ := h₁
    rw [List.countP_cons]
    cases happened with
    | false =>
      obtain rfl := hsame rfl
      rw [if_neg Bool.false_ne_true]
      refine (ih hrest w₁ h hout).mono (fun _ _ h => h) (fun halt w₂ h₂ => ⟨h₂.1, ?_⟩)
      have := h₂.2
      omega
    | true =>
      rw [if_pos rfl, wp_bind]
      refine (wp_settledHead_smooth ho hsmooth (hranges ▸ hplan) key).mono (fun head w₂ h₂ => ?_)
        (fun _ _ h => h.elim)
      obtain ⟨hsmooth₂, -, hcount₂, hhead⟩ := h₂
      cases hhead with
      | inl hfinished =>
        rw [hfinished.1]
        exact ⟨hsmooth₂, hfinished.2⟩
      | inr hwaiting =>
        rw [hwaiting.1]
        refine (ih hrest w₂ hsmooth₂ hwaiting.2).mono (fun _ _ h => h) (fun halt w₃ h₃ => ⟨h₃.1, ?_⟩)
        have := h₃.2
        omega

/-- The loop goes on until nothing is missing, or until the turns are used up with fewer
fetches ended than ranges were missing. -/
theorem wp_scheduleLoop_smooth (ho : Obliging seams content commitment wanted own)
    (h : Smooth seams content commitment wanted own w) (hplan : w.own.ranges ≠ [])
    {turns : List Turn} (hturns : ∀ message, .control message ∉ turns) (key : String) :
    wp (scheduleLoop seams content key turns)
      (fun _ w' => Smooth seams content commitment wanted own w' ∧ w'.own.allDone = true)
      (fun halt _ => halt = .pending ∧ turns.countP Turn.isCompletion < w.own.pendingCount) w := by
  rw [scheduleLoop, wp_bind]
  refine (wp_settledHead_smooth ho h hplan key).mono (fun head w₁ h₁ => ?_) (fun _ _ h => h.elim)
  obtain ⟨hsmooth, -, hcount, hhead⟩ := h₁
  cases hhead with
  | inl hfinished =>
    rw [hfinished.1]
    exact ⟨hsmooth, hfinished.2⟩
  | inr hwaiting =>
    rw [hwaiting.1]
    rw [← hcount]
    exact wp_scheduleFrom_smooth ho turns hturns key w₁ hsmooth hwaiting.2

/-! ## What is staged in the end -/

/-- The bytes of the ranges are as long as the ranges. -/
theorem Obliging.map_length (ho : Obliging seams content commitment wanted own) :
    ((planRanges commitment.layout seams.config.window).map own).map List.length
      = rangeLens (planRanges commitment.layout seams.config.window) := by
  rw [List.map_map, rangeLens]
  exact List.map_congr_left ho.length

/-- Once nothing is missing, the bytes of the ranges are staged one after the other. -/
theorem Smooth.take_staged (ho : Obliging seams content commitment wanted own)
    (h : Smooth seams content commitment wanted own w) (hall : w.own.allDone = true) :
    w.sink.staged.take commitment.totalLength
      = ResourceHasher.planBytes commitment.layout seams.config.window own := by
  have hpieces := take_sum_eq_flatten w.sink.staged
    ((planRanges commitment.layout seams.config.window).map own) fun i hi => by
      rw [List.length_map] at hi
      have hrange : w.own.ranges[i]? = some (planRanges commitment.layout seams.config.window)[i] := by
        rw [h.books.planned.ranges, List.getElem?_eq_getElem hi]
      have hi' : i < w.own.rangeState.length := by
        rw [h.books.planned.states, h.books.planned.ranges]
        exact hi
      rw [ho.map_length, List.getElem_map, ← planRanges_offset hi, ho.length _ (List.getElem_mem hi)]
      exact h.staged i _ (Job.isDone_of_allDone hall hi') hrange
  rw [ho.map_length, planRanges_sum, commitment.total] at hpieces
  exact hpieces

/-- The staging area covers the resource. -/
theorem Smooth.total_le (ho : Obliging seams content commitment wanted own)
    (h : Smooth seams content commitment wanted own w) (hall : w.own.allDone = true) :
    commitment.totalLength ≤ w.sink.staged.length := by
  have htake := congrArg List.length (h.take_staged ho hall)
  rw [ResourceHasher.planBytes, List.length_flatten, ho.map_length, planRanges_sum, commitment.total,
    List.length_take] at htake
  omega

end DigDownload
