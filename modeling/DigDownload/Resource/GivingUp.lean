import Mathlib.Data.List.Rotate
import DigDownload.Resource.Errors

/-!
# When a download gives up

An iteration in which nothing is outstanding reads the clock twice: when it fills, and when
it looks for the end of the first backoff window. Between the two it may wait for the
locator. It gives up within the budget exactly when every holder was backing off at the
first reading and none is at the second.
-/

namespace DigDownload

open Prog Relation

section Clock

variable {seams : ResourceSeams} {content : ContentId} {key : String}
  {commitment : ResourceCommitment} {w w' w'' : JobWorld}

/-! ## Reading the clock -/

/-- `w'` is `w` after effects none of which is a reading of the clock. -/
abbrev Unread : JobWorld → JobWorld → Prop := Appends (· ≠ .ask .clock)

/-- `w'` is `w` after a reading of the clock and no other one. -/
def ReadOnce (w w' : JobWorld) : Prop :=
  ∃ seg, w'.trace = w.trace ++ .ask .clock :: seg ∧ ∀ e ∈ seg, e ≠ .ask .clock

/-- The clock was not read after the moment at which `w` was left. -/
def NoSecond (w w' : JobWorld) : Prop := ∀ t, w.tick < t → w'.trace[t]? ≠ some (.ask .clock)

theorem ReadOnce.unread (h : ReadOnce w w') (h' : Unread w' w'') : ReadOnce w w'' := by
  obtain ⟨seg, hseg, hkind⟩ := h
  obtain ⟨seg', hseg', hkind'⟩ := h'
  refine ⟨seg ++ seg', by rw [hseg', hseg, List.append_assoc, List.cons_append], fun e he => ?_⟩
  cases List.mem_append.mp he with
  | inl he => exact hkind e he
  | inr he => exact hkind' e he

theorem ReadOnce.noSecond (h : ReadOnce w w') : NoSecond w w' := by
  obtain ⟨seg, hseg, hkind⟩ := h
  intro t ht hclock
  rw [World.tick] at ht
  rw [hseg, List.getElem?_append_right (Nat.le_of_lt ht)] at hclock
  obtain ⟨n, hn⟩ : ∃ n, t - w.trace.length = n + 1 := ⟨t - w.trace.length - 1, by omega⟩
  rw [hn, List.getElem?_cons_succ] at hclock
  exact hkind _ (List.mem_of_getElem? hclock) rfl

theorem ReadOnce.tick_lt (h : ReadOnce w w') : w.tick < w'.tick := by
  obtain ⟨seg, hseg, -⟩ := h
  simp [World.tick, hseg]

theorem Unread.noSecond (h : Unread w w') : NoSecond w w' := by
  obtain ⟨seg, hseg, hkind⟩ := h
  intro t ht hclock
  rw [hseg, List.getElem?_append_right (Nat.le_of_lt ht)] at hclock
  exact hkind _ (List.mem_of_getElem? hclock) rfl

/-! ## Filling -/

/-- A selector that orders a candidate whenever it is offered one. -/
def OrdersSome (seams : ResourceSeams) : Prop :=
  ∀ t req, req.candidates ≠ [] → ∃ c ∈ req.candidates, c.peerId ∈ (seams.select t req).ordered

/-- Caps that let something be fetched. -/
structure RoomForOne (config : DownloadConfig) : Prop where
  concurrency : 1 ≤ config.maxConcurrency
  perSource : 1 ≤ config.maxInflightPerSource

/-- A plan that orders a source finds one, when nothing is outstanding. -/
theorem Job.pickFromPlan_isSome {config : DownloadConfig} {job : Job} (hroom : RoomForOne config)
    (hidle : ∀ peer, job.inflightOf peer = 0) {plan : SelectPlan} {peer : String}
    (hordered : peer ∈ plan.ordered) (range : Nat) :
    (job.pickFromPlan config plan range).isSome = true := by
  have hcap : ∀ peer, job.underCap config peer = true := fun peer => by
    rw [Job.underCap, hidle]
    exact decide_eq_true hroom.perSource
  have hfind : (plan.ordered.find? (job.underCap config)).isSome = true :=
    List.find?_isSome.mpr ⟨peer, hordered, hcap peer⟩
  unfold Job.pickFromPlan
  split
  · split
    · rfl
    · exact hfind
  · exact hfind

/-- Handing out leaves something outstanding, or it had nothing to hand out or nobody to
hand it to. -/
theorem wp_fillFrom_idle (plan : SelectPlan) (fuel : Nat) :
    ∀ w, wp (fillFrom seams plan fuel)
      (fun _ w₁ => w₁.own.inflight ≠ [] ∨ w₁ = w ∧ (fuel = 0 ∨
        seams.config.maxConcurrency ≤ w.own.inflight.length ∨
        ∀ range, w.own.nextPending = some range →
          w.own.pickFromPlan seams.config plan range = none))
      (fun _ _ => False) w := by
  induction fuel with
  | zero => exact fun w => Or.inr ⟨rfl, Or.inl rfl⟩
  | succ fuel ih =>
    intro w
    rw [fillFrom, wp_bind, wp_getJob]
    split
    · rename_i hfull
      exact Or.inr ⟨rfl, Or.inr (Or.inl hfull)⟩
    split
    · rename_i hnone
      exact Or.inr ⟨rfl, Or.inr (Or.inr fun range hrange => by rw [hnone] at hrange; cases hrange)⟩
    rename_i range hrange
    split
    · rename_i hpick
      refine Or.inr ⟨rfl, Or.inr (Or.inr fun range' hrange' => ?_)⟩
      rw [hrange] at hrange'
      cases hrange'
      exact hpick
    · rw [wp_bind, wp_modifyJob, wp_bind, wp_noteJob]
      refine (ih _).mono (fun _ w₁ h₁ => Or.inl ?_) (fun _ _ h => h)
      cases h₁ with
      | inl hout => exact hout
      | inr hsame =>
        rw [hsame.1]
        simp [Job.issue]

/-- When filling leaves nothing outstanding, every holder is backing off. -/
theorem wp_fillUnlessPaused_backingOff (hroom : RoomForOne seams.config) (hselect : OrdersSome seams)
    (hb : Books seams.config commitment w.own) (hpaused : w.own.paused = false) (key : String) :
    wp (fillUnlessPaused seams key)
      (fun _ w₁ => ReadOnce w w₁ ∧ (w₁.own.inflight = [] → w₁.own.nextPending.isSome = true →
        ∀ p ∈ w.own.providers,
          w.own.tracker.isAvailable p.providerPeerId (seams.now w.tick) = false))
      (fun _ _ => False) w := by
  have hissues : ∀ plan fuel, Steps Unread (fillFrom seams plan fuel) := fun plan fuel =>
    steps_fillFrom_closed (closedUnderKeeping_appends.serving.mono fun e (he : e.IsIssue) hclock => by
      rw [hclock] at he
      exact he) plan fuel
  rw [fillUnlessPaused, wp_bind, wp_getJob, hpaused, if_neg Bool.false_ne_true, fill, wp_bind,
    wp_readClock, wp_bind, wp_getJob, wp_bind, wp_askJob]
  generalize hplan : seams.select _ _ = plan
  refine (((hissues _ _).wp _).and (wp_fillFrom_idle _ _ _)).mono (fun _ w₁ h₁ => ⟨?_, ?_⟩)
    (fun _ _ h => h.2)
  · refine ReadOnce.unread ⟨[.ask (.select (w.own.selectRequest key (seams.now w.tick)) plan)], ?_,
      by simp⟩ h₁.1
    simp [World.note]
  · intro hidle hpending
    obtain ⟨hsame, hwhy⟩ := h₁.2.resolve_left (fun hout => hout hidle)
    have hown : w₁.own = w.own := by rw [hsame]; rfl
    rw [hown] at hidle hpending
    obtain ⟨range, hrange⟩ := Option.isSome_iff_exists.mp hpending
    have hnobody : w.own.pickFromPlan seams.config plan range = none := by
      rcases hwhy with hfuel | hfull | hpick
      · rw [World.note_own] at hfuel
        rw [Job.nextPending, List.eq_nil_of_length_eq_zero hfuel] at hrange
        cases hrange
      · rw [World.note_own, World.note_own, hidle] at hfull
        exact absurd hroom.concurrency (by simpa using hfull)
      · exact hpick range hrange
    have hinflightOf : ∀ peer, w.own.inflightOf peer = 0 := fun peer => by
      rw [hb.scheduled.perSource, hidle, List.countP_nil]
    -- an offered candidate would have been ordered, and a range handed to it
    intro p hp
    by_contra havailable
    have hcandidates : w.own.candidates (seams.now w.tick) ≠ [] := by
      have hmem : CandidateRef.ofProvider p ∈ w.own.candidates (seams.now w.tick) :=
        List.mem_map_of_mem (List.mem_filter.mpr ⟨hp, by simpa using havailable⟩)
      exact List.ne_nil_of_mem hmem
    obtain ⟨c, -, hc⟩ := hselect (w.note (.ask .clock)).tick
      ((w.note (.ask .clock)).own.selectRequest key (seams.now w.tick)) hcandidates
    rw [hplan] at hc
    have hpicked := Job.pickFromPlan_isSome hroom hinflightOf hc range
    rw [hnobody] at hpicked
    cases hpicked

/-! ## Locating again -/

/-- No seam of the node or of the network reports the error that is the scheduler's own. -/
structure NeverGivesUp (seams : ResourceSeams) (content : ContentId) : Prop where
  locator : ∀ t n, seams.findProviders t content ≠ .error (.noProviders n)
  transport : ∀ t p req n, seams.fetchRange t p req ≠ some (.error (.noProviders n))
  host : ∀ n, ¬ seams.host.Raises (.noProviders n)

/-- A stop that is not the scheduler giving up. -/
def Halt.NotGivingUp (halt : Halt) : Prop := ∀ n, halt ≠ .failed (.noProviders n)

/-- Locating again adds holders to those that are known, and reads no clock. -/
theorem wp_discoverMore_own (hnever : NeverGivesUp seams content) :
    wp (discoverMore seams content)
      (fun added w' => Unread w w' ∧ ∃ fresh, fresh.length = added ∧
        w'.own = { w.own with providers := w.own.providers ++ fresh })
      (fun halt w' => Unread w w' ∧ halt.NotGivingUp) w := by
  have hread : ClosedUnderLoop (· ≠ .ask .clock) Unread := closedUnderLoop_appends
  have hunread : Steps Unread (discoverMore seams content) :=
    steps_discoverMore hread (by simp) (by simp) (by simp)
  have hown : wp (discoverMore seams content)
      (fun added w' => ∃ fresh, fresh.length = added ∧
        w'.own = { w.own with providers := w.own.providers ++ fresh })
      (fun halt _ => halt.NotGivingUp) w := by
    rw [discoverMore, wp_bind, locateAndConfirm, wp_bind, wp_askJob]
    cases hfound : seams.findProviders w.tick content with
    | error e =>
      intro n hn
      cases hn
      exact hnever.locator _ _ hfound
    | ok found =>
      dsimp only
      cases hitem : availabilityItem content with
      | error e =>
        intro n hn
        cases hn
        cases content <;> cases hitem
      | ok item =>
        have hconfirm : Steps SameOwn (confirmHolders seams item found) :=
          steps_confirmHolders closedUnder_sameOwn (fun _ _ => trivial) item found
        refine ((hconfirm.wp _).and (wp_confirmHolders content item found _)).mono
          (fun more w₁ h₁ => ?_) (fun _ _ h => h.2.elim)
        have hsame : w₁.own = w.own := h₁.1
        rw [wp_bind, wp_getJob, wp_bind, wp_modifyJob]
        split
        · exact ⟨_, rfl, by simp [hsame]⟩
        · rename_i hnone
          exact ⟨_, Nat.eq_zero_of_not_pos hnone, by simp [hsame]⟩
  exact (hunread.wp w).and hown

/-! ## The head of an iteration -/

/-- The head of the iteration from `w` looks, in `w₂`, for the end of the first backoff
window. -/
structure Samples (seams : ResourceSeams) (w w₂ : JobWorld) : Prop where
  once : ReadOnce w w₂
  backingOff : ∀ p ∈ w.own.providers,
    w.own.tracker.isAvailable p.providerPeerId (seams.now w.tick) = false
  providers : w₂.own.providers = w.own.providers
  tracker : w₂.own.tracker = w.own.tracker
  withinBudget : ¬ w₂.own.budget seams.config < w₂.own.totalFailures

/-- A job with a plan of which nothing is outstanding has something to hand out. -/
theorem Books.nextPending_isSome {job : Job} (hb : Books seams.config commitment job)
    (hplan : job.ranges ≠ []) (hidle : job.inflight = []) (hmissing : job.allDone = false) :
    job.nextPending.isSome = true := by
  have hnonempty : job.rangeState ≠ [] := by
    intro hnil
    have hlen := hb.planned.states
    rw [hnil] at hlen
    exact hplan (List.eq_nil_of_length_eq_zero hlen.symm)
  have hnone : ∀ state ∈ job.rangeState, RangeState.isInFlight state ≠ true := by
    have htotal := hb.scheduled.total
    rw [hidle, List.length_nil, List.countP_eq_zero] at htotal
    exact htotal
  unfold Job.allDone at hmissing
  rw [Bool.and_eq_false_iff] at hmissing
  have hexists : ¬ (job.rangeState.all (· = .done)) = true := by
    cases hmissing with
    | inl hempty => exact absurd (by simpa using hempty) hnonempty
    | inr hall => simp [hall]
  rw [List.all_eq_true] at hexists
  push Not at hexists
  obtain ⟨state, hmem, hstate⟩ := hexists
  rw [Job.nextPending, List.findIdx?_isSome, List.any_eq_true]
  refine ⟨state, hmem, ?_⟩
  cases state with
  | pending => rfl
  | inFlight peer => exact absurd rfl (hnone _ hmem)
  | done => exact absurd rfl hstate

/-- The head of an iteration reads the clock a second time at most, and then to look for the
end of the first backoff window, while every holder was backing off when it filled. -/
theorem wp_loopHead_sampling {Q : Head → JobWorld → Prop} {E : Halt → JobWorld → Prop}
    (hroom : RoomForOne seams.config) (hselect : OrdersSome seams)
    (hnever : NeverGivesUp seams content) (hb : Books seams.config commitment w.own)
    (hplan : w.own.ranges ≠ [])
    (hgoes : ∀ head w', NoSecond w w' → Q head w')
    (hstops : ∀ halt w', NoSecond w w' → (∀ n, halt = .failed (.noProviders n) →
      w'.own.budget seams.config < w'.own.totalFailures) → E halt w')
    (hsamples : ∀ w₂, Samples seams w w₂ → wp (waitOut seams) Q E w₂) :
    wp (loopHead seams content key) Q E w := by
  refine wp_loopHead fun w₁ hrun hfills => ?_
  have hpaused : w₁.own.paused = w.own.paused := by rw [hfills.own]
  have hfailed : ∀ {w' : JobWorld} (reason : String),
      Unread w' (w'.note (.ask (.emit (.failed reason)))) := fun reason => ⟨[_], rfl, by simp⟩
  cases hp : w.own.paused with
  | true =>
    -- nothing happens while the download is paused
    have hsame : w₁ = w := by
      rw [fillUnlessPaused_paused hp] at hrun
      cases hrun
      rfl
    have hunread : Unread w w₁ := by
      rw [hsame]
      exact Std.Refl.refl w
    split
    · exact hgoes _ _ hunread.noSecond
    split
    · rename_i hmore
      exact hstops _ _ (Unread.noSecond (IsTrans.trans _ _ _ hunread (hfailed _))) fun _ _ => hmore
    split
    · rename_i hrunning
      rw [hpaused, hp] at hrunning
      cases hrunning.1
    · exact hgoes _ _ hunread.noSecond
  | false =>
    obtain ⟨honce, hbacking⟩ := (wp_of_run_ok hrun).mp
      (wp_fillUnlessPaused_backingOff hroom hselect hb hp key)
    have hwalks : Walks seams content (fillUnlessPaused seams key) w := walks_fillUnlessPaused key
    have hb₁ : Books seams.config commitment w₁.own := (hwalks.ok hrun).books hb
    have hplan₁ : w₁.own.ranges ≠ [] := by
      rw [hfills.own]
      exact hplan
    split
    · exact hgoes _ _ honce.noSecond
    split
    · rename_i hmore
      exact hstops _ _ (honce.unread (hfailed _)).noSecond fun _ _ => hmore
    rename_i hwithin
    split
    · rename_i hidle
      have hall := hbacking hidle.2.1 (hb₁.nextPending_isSome hplan₁ hidle.2.1 hidle.2.2)
      have hproviders : w₁.own.providers = w.own.providers := by rw [hfills.own]
      have htracker : w₁.own.tracker = w.own.tracker := by rw [hfills.own]
      rw [stalled, wp_bind, wp_getJob]
      split
      · rw [wp_bind, relocate, wp_bind, wp_noteJob, wp_bind, wp_modifyJob]
        have hrelocate : Unread w₁ { w₁.note (.ask .relocate) with
            own := { w₁.own with relocateAttempts := w₁.own.relocateAttempts + 1 } } :=
          ⟨[_], rfl, by simp⟩
        refine (wp_discoverMore_own hnever).mono (fun added w₂ h₂ => ?_) (fun halt w₂ h₂ => ?_)
        · obtain ⟨hunread, fresh, hfresh, hown⟩ := h₂
          have honce₂ := honce.unread (IsTrans.trans _ _ _ hrelocate hunread)
          rw [wp_bind, wp_modifyJob]
          split
          · exact hgoes _ _ honce₂.noSecond
          · rename_i hnone
            have hnil : fresh = [] :=
              List.eq_nil_of_length_eq_zero (hfresh.trans (Nat.eq_zero_of_not_pos hnone))
            refine hsamples _ ⟨honce₂, hall, ?_, ?_, ?_⟩
            · simp [hown, hnil, hproviders]
            · simp [hown, htracker]
            · simpa [hown, Job.budget] using hwithin
        · have honce₂ := honce.unread (IsTrans.trans _ _ _ hrelocate h₂.1)
          exact hstops _ _ honce₂.noSecond fun n hn => absurd hn (h₂.2 n)
      · exact hsamples _ ⟨honce, hall, hproviders, htracker, hwithin⟩
    · exact hgoes _ _ honce.noSecond

/-! ## Giving up -/

/-- In the iteration from `w`, every holder is backing off when it fills and none is any
more at the moment `t` at which it looks for the end of the first backoff window. -/
structure Lapses (seams : ResourceSeams) (content : ContentId) (key : String) (w : JobWorld)
    (t : Nat) : Prop where
  reading : (loopHead seams content key w).2.trace[t]? = some (.ask .clock)
  later : w.tick < t
  known : w.own.providers ≠ []
  backingOff : ∀ p ∈ w.own.providers,
    w.own.tracker.isAvailable p.providerPeerId (seams.now w.tick) = false
  lapsed : ∀ p ∈ w.own.providers,
    w.own.tracker.isAvailable p.providerPeerId (seams.now t) = true

/-- The download has failed more often than its budget allows, or knows nobody to ask. -/
def Spent (config : DownloadConfig) (job : Job) : Prop :=
  job.budget config < job.totalFailures ∨ job.providers = []

/-- An iteration gives up unspent exactly when all windows lapse in it. -/
theorem loopHead_givesUp_iff (hroom : RoomForOne seams.config) (hselect : OrdersSome seams)
    (hnever : NeverGivesUp seams content) (hb : Books seams.config commitment w.own)
    (hplan : w.own.ranges ≠ []) :
    (∃ n, (loopHead seams content key w).1 = .error (.failed (.noProviders n)) ∧
        ¬ Spent seams.config (loopHead seams content key w).2.own) ↔
      ∃ t, Lapses seams content key w t := by
  -- the second reading, and what every holder is at it
  let Lapsing (w' : JobWorld) (t : Nat) : Prop := w'.trace[t]? = some (.ask .clock) ∧ w.tick < t ∧
    w.own.providers ≠ [] ∧ (∀ p ∈ w.own.providers,
      w.own.tracker.isAvailable p.providerPeerId (seams.now w.tick) = false) ∧
    ∀ p ∈ w.own.providers, w.own.tracker.isAvailable p.providerPeerId (seams.now t) = true
  have hnone : ∀ w', NoSecond w w' → ¬ ∃ t, Lapsing w' t := by
    intro w' hno hlapse
    obtain ⟨t, hclock, hlater, -⟩ := hlapse
    exact hno t hlater hclock
  have hhead : wp (loopHead seams content key) (fun _ w' => ¬ ∃ t, Lapsing w' t)
      (fun halt w' => (∃ n, halt = .failed (.noProviders n) ∧ ¬ Spent seams.config w'.own) ↔
        ∃ t, Lapsing w' t) w := by
    refine wp_loopHead_sampling hroom hselect hnever hb hplan (fun head w' => hnone w')
      (fun halt w' hno hgave => iff_of_false ?_ (hnone w' hno)) fun w₂ h₂ => ?_
    · intro hunspent
      obtain ⟨n, hn, hspent⟩ := hunspent
      exact hspent (Or.inl (hgave n hn))
    · have htick := h₂.once.tick_lt
      -- the only later reading is the one in `w₂`
      have honly : ∀ (seg : List (Effect ResourceAsk)) (t : Nat), (∀ e ∈ seg, e ≠ .ask .clock) →
          w.tick < t → (w₂.trace ++ .ask .clock :: seg)[t]? = some (.ask .clock) → t = w₂.tick := by
        intro seg t hseg hlater hclock
        rcases Nat.lt_trichotomy t w₂.tick with hlt | heq | hgt
        · rw [List.getElem?_append_left hlt] at hclock
          exact absurd hclock (h₂.once.noSecond t hlater)
        · exact heq
        · rw [World.tick] at hgt
          rw [List.getElem?_append_right (Nat.le_of_lt hgt)] at hclock
          obtain ⟨n, hn⟩ : ∃ n, t - w₂.trace.length = n + 1 :=
            ⟨t - w₂.trace.length - 1, by omega⟩
          rw [hn, List.getElem?_cons_succ] at hclock
          exact absurd rfl (hseg _ (List.mem_of_getElem? hclock))
      rw [waitOut, wp_bind, wp_readClock, wp_bind, wp_getJob]
      split
      · rename_i hearliest
        intro hlapse
        obtain ⟨t, hclock, hlater, -, -, hlapsed⟩ := hlapse
        obtain rfl := honly [] t (by simp) hlater hclock
        rw [Job.earliestBackoff_eq_none.mpr] at hearliest
        · cases hearliest
        · intro p hp
          rw [World.note_own] at hp ⊢
          rw [h₂.providers] at hp
          rw [h₂.tracker]
          exact hlapsed p hp
      · rename_i hearliest
        rw [wp_failWith]
        have hall := Job.earliestBackoff_eq_none.mp hearliest
        rw [World.note_own, h₂.providers, h₂.tracker] at hall
        constructor
        · intro hgave
          obtain ⟨n, -, hunspent⟩ := hgave
          refine ⟨w₂.tick, ?_, htick, fun hempty => hunspent (Or.inr ?_), h₂.backingOff, hall⟩
          · simp [World.note, World.tick]
          · exact h₂.providers.trans hempty
        · intro hlapse
          obtain ⟨t, -, -, hknown, -⟩ := hlapse
          refine ⟨_, rfl, fun hspent => ?_⟩
          cases hspent with
          | inl hmore => exact h₂.withinBudget hmore
          | inr hempty => exact hknown (h₂.providers.symm.trans hempty)
  have hlapses : ∀ t, Lapsing (loopHead seams content key w).2 t ↔ Lapses seams content key w t :=
    fun t => ⟨fun h => ⟨h.1, h.2.1, h.2.2.1, h.2.2.2.1, h.2.2.2.2⟩,
      fun h => ⟨h.reading, h.later, h.known, h.backingOff, h.lapsed⟩⟩
  rw [← exists_congr hlapses]
  cases hr : loopHead seams content key w with
  | mk r w' =>
    cases r with
    | ok head =>
      refine iff_of_false (fun hgave => ?_) ((wp_of_run_ok hr).mp hhead)
      obtain ⟨n, hn, -⟩ := hgave
      cases hn
    | error halt =>
      rw [← (wp_of_run_error hr).mp hhead]
      simp

/-! ## The turns -/

theorem fetchOutcome_ne_noProviders (hnever : NeverGivesUp seams content) (job : Job)
    (fetch : Fetch) (t n : Nat) :
    fetchOutcome seams content job fetch t ≠ some (.error (.noProviders n)) := by
  unfold fetchOutcome
  split
  · simp
  · split
    · rename_i e he
      intro heq
      cases heq
      cases content <;> cases he
    · unfold underTimeout
      split
      · rename_i answer hanswer
        intro heq
        rw [heq] at hanswer
        exact hnever.transport _ _ _ _ hanswer
      · simp
      · simp
  · simp

/-- No turn gives up. -/
theorem wp_takeTurn_notGivingUp (hnever : NeverGivesUp seams content) (wakeup : Option Nat)
    (turn : Turn) :
    wp (takeTurn seams content wakeup turn) (fun _ _ => True) (fun halt _ => halt.NotGivingUp) w := by
  have haside : (∀ choice, turn ≠ .completed choice) →
      wp (takeTurn seams content wakeup turn) (fun _ _ => True)
        (fun halt _ => halt.NotGivingUp) w := fun hturn =>
    (wp_takeTurn_aside_error wakeup hturn).mono (fun _ _ h => h) fun halt _ h n hn => by
      cases h _ hn
  cases turn with
  | control message => exact haside (by simp)
  | wake => exact haside (by simp)
  | refresh => exact haside (by simp)
  | completed choice =>
    rw [takeTurn, wp_bind, wp_read]
    split
    · exact trivial
    split
    · exact trivial
    rename_i answer hanswer
    rw [wp_bind, wp_modifyJob, wp_bind, wp_noteJob, wp_bind]
    refine (wp_handleResult_error _ _ answer).mono (fun _ _ _ => trivial) fun halt _ h n hn => ?_
    cases h _ hn with
    | inl hraises => exact hnever.host n hraises
    | inr herror =>
      rw [herror] at hanswer
      exact fetchOutcome_ne_noProviders hnever _ _ _ _ hanswer

end Clock

/-! ## The whole run -/

section Run

variable {seams : ResourceSeams} {target : Target} {sink : Sink} {store : StateStore}
  {commitment : ResourceCommitment}

/-- A run gives up only when it is spent, if in none of its iterations all backoff windows
lapse between the two readings of the clock; and wherever they do, a run gives up unspent. -/
theorem noProviders_timely
    (henter : (entering seams target (JobWorld.start seams target sink store)).1 = .ok commitment)
    (hplan : planRanges commitment.layout seams.config.window ≠ [])
    (hroom : RoomForOne seams.config) (hselect : OrdersSome seams)
    (hnever : NeverGivesUp seams target.content) :
    (∀ turns n,
      (∀ w t, Visits seams target.content (downloadKey seams target)
          (loopStart seams target sink store) .head w →
        w.trace <+: (loopRun seams target sink store turns).2.trace →
        ¬ Lapses seams target.content (downloadKey seams target) w t) →
      (loopRun seams target sink store turns).1 = .error (.failed (.noProviders n)) →
      Spent seams.config (loopRun seams target sink store turns).2.own) ∧
    ∀ w t, Visits seams target.content (downloadKey seams target)
        (loopStart seams target sink store) .head w →
      Lapses seams target.content (downloadKey seams target) w t →
      ∃ turns n,
        (loopRun seams target sink store turns).1 = .error (.failed (.noProviders n)) ∧
        ¬ Spent seams.config (loopRun seams target sink store turns).2.own := by
  obtain ⟨hbooks, -, -, -⟩ := loopStart_spec henter
  have hhead : ∀ w, Visits seams target.content (downloadKey seams target)
      (loopStart seams target sink store) .head w →
      ((∃ n, (loopHead seams target.content (downloadKey seams target) w).1
          = .error (.failed (.noProviders n)) ∧
          ¬ Spent seams.config (loopHead seams target.content (downloadKey seams target) w).2.own) ↔
        ∃ t, Lapses seams target.content (downloadKey seams target) w t) := by
    intro w hvisit
    have hb := (LoopSteps.steps hvisit).books hbooks
    refine loopHead_givesUp_iff hroom hselect hnever hb ?_
    rw [hb.planned.ranges]
    exact hplan
  constructor
  · intro turns n hno hrun
    by_contra hunspent
    cases hend : loopRun seams target sink store turns with
    | mk r w' =>
      rw [hend] at hrun hunspent hno
      obtain rfl : r = .error (.failed (.noProviders n)) := hrun
      have hstops := (wp_of_run_error hend).mp (wp_scheduleLoop turns)
      cases hstops with
      | @head w _ _ hvisit hhalt =>
        have happends : Steps (Appends fun _ => True)
            (loopHead seams target.content (downloadKey seams target)) :=
          steps_loopHead (closedUnderLoop_appends.mono fun _ _ => trivial)
        obtain ⟨seg, hseg, -⟩ := happends w
        rw [hhalt] at hseg
        obtain ⟨t, ht⟩ := (hhead w hvisit).mp ⟨n, by rw [hhalt], by rw [hhalt]; exact hunspent⟩
        exact hno w t hvisit ⟨seg, hseg.symm⟩ ht
      | turn _ hhalt =>
        exact (wp_of_run_error hhalt).mp (wp_takeTurn_notGivingUp hnever _ _) n rfl
  · intro w t hvisit hlapse
    obtain ⟨n, hn, hunspent⟩ := (hhead w hvisit).mpr ⟨t, hlapse⟩
    obtain ⟨turns, hturns⟩ := Visits.stops hvisit (Prod.ext hn rfl)
    refine ⟨turns, n, ?_, ?_⟩
    · rw [loopRun, hturns]
    · rw [loopRun, hturns]
      exact hunspent

end Run

/-! ## A slow locator -/

/-- One holder that answers the probe and refuses every range, and a locator that answers the
second time only after a long while. -/
def slowLocatorSeams : ResourceSeams :=
  { smallResourceSeams with
    fetchRange := fun _ p req =>
      if req.skipLayout then some (.error (.transport p.providerPeerId "busy"))
      else some (.ok (honestRange smallResource [2, 1] (some "proof") req))
    now := fun t => if t < 24 then 10 ^ 6 * t else 10 ^ 12 }

theorem slowLocatorSeams_ordersSome : OrdersSome slowLocatorSeams := by
  intro t req hne
  obtain ⟨c, hc⟩ := List.exists_mem_of_ne_nil _ hne
  refine ⟨c, hc, ?_⟩
  show c.peerId ∈ (req.candidates.map (·.peerId)).rotate t
  rw [List.mem_rotate]
  exact List.mem_map_of_mem hc

theorem slowLocatorSeams_neverGivesUp :
    NeverGivesUp slowLocatorSeams smallTarget.content := by
  refine ⟨fun t n h => ?_, fun t p req n h => ?_, fun n h => ?_⟩
  · cases h
  · simp only [slowLocatorSeams] at h
    split at h
    · cases h
    · cases h
  · cases h with
    | writeAt h => cases h
    | truncate h => cases h
    | finalize h => cases h
    | load h => cases h
    | save h => cases h

theorem slowLocatorSeams_enters :
    (entering slowLocatorSeams smallTarget
      (JobWorld.start slowLocatorSeams smallTarget emptySink emptyStore)).1 = .ok smallCommitment := by
  decide +kernel

/-- The iterations of the download from a slow locator, up to the one that relocates. -/
def slowHead : Nat → JobWorld
  | 0 => loopStart slowLocatorSeams smallTarget emptySink emptyStore
  | n + 1 => (takeTurn slowLocatorSeams smallTarget.content none (.completed 0)
      (loopHead slowLocatorSeams smallTarget.content "small" (slowHead n)).2).2

/-- The holder's backoff ends while the locator is asked, and the download gives up. -/
theorem noProviders_timely_slow :
    ∃ turns n, (loopRun slowLocatorSeams smallTarget emptySink emptyStore turns).1
        = .error (.failed (.noProviders n)) ∧
      ¬ Spent slowLocatorSeams.config
        (loopRun slowLocatorSeams smallTarget emptySink emptyStore turns).2.own := by
  have hstep : ∀ n, (loopHead slowLocatorSeams smallTarget.content "small" (slowHead n)).1
        = .ok (.waiting none) →
      (takeTurn slowLocatorSeams smallTarget.content none (.completed 0)
        (loopHead slowLocatorSeams smallTarget.content "small" (slowHead n)).2).1 = .ok true →
      LoopSteps slowLocatorSeams smallTarget.content "small" (.head, slowHead n)
        (.head, slowHead (n + 1)) := by
    intro n hhead hturn
    exact (ReflTransGen.single (.wait (Prod.ext hhead rfl))).tail (.turn (Prod.ext hturn rfl))
  have hvisit : Visits slowLocatorSeams smallTarget.content "small" (slowHead 0) .head (slowHead 2) :=
    (hstep 0 (by decide +kernel) (by decide +kernel)).trans
      (hstep 1 (by decide +kernel) (by decide +kernel))
  refine (noProviders_timely slowLocatorSeams_enters (by decide +kernel) ⟨by decide, by decide⟩
    slowLocatorSeams_ordersSome slowLocatorSeams_neverGivesUp).2 (slowHead 2) 26 hvisit ?_
  exact ⟨by rfl, by decide +kernel, by decide +kernel, by decide +kernel, by decide +kernel⟩

/-- A download gives up within its budget on a holder whose backoff has ended. -/
theorem gives_up_on_available_holder :
    ¬ ∀ (seams : ResourceSeams) (target : Target) (sink : Sink) (store : StateStore)
      (commitment : ResourceCommitment) (turns : List Turn) (n : Nat),
      (entering seams target (JobWorld.start seams target sink store)).1 = .ok commitment →
      planRanges commitment.layout seams.config.window ≠ [] →
      RoomForOne seams.config → OrdersSome seams → NeverGivesUp seams target.content →
      (∀ s t, s ≤ t → seams.now s ≤ seams.now t) →
      (loopRun seams target sink store turns).1 = .error (.failed (.noProviders n)) →
      Spent seams.config (loopRun seams target sink store turns).2.own := by
  intro h
  have hclock : ∀ s t, s ≤ t → slowLocatorSeams.now s ≤ slowLocatorSeams.now t := by
    intro s t hst
    simp only [slowLocatorSeams]
    split
    · split
      · exact Nat.mul_le_mul_left _ hst
      · omega
    · split
      · omega
      · exact Nat.le_refl _
  have hspent := h slowLocatorSeams smallTarget emptySink emptyStore smallCommitment
    [.completed 0, .completed 0] 2 slowLocatorSeams_enters (by decide +kernel)
    ⟨by decide, by decide⟩ slowLocatorSeams_ordersSome slowLocatorSeams_neverGivesUp hclock
    (by decide +kernel)
  cases hspent with
  | inl hmore => exact absurd hmore (by decide +kernel)
  | inr hempty => exact absurd hempty (by decide +kernel)

end DigDownload
