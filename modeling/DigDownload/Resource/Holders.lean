import DigDownload.Lib.Keyed
import DigDownload.Resource.Traces

/-!
# The holders that a job knows

A job starts without holders and learns of some each time the locator is asked: those of the
answer that confirm and that it did not know. What it knows is therefore determined by the calls
at which it asked. The answers of the locator and of the holders are those of the seams.
-/

namespace DigDownload

open Prog Keyed

/-- The holders of an answer that confirm, asked one after the other from a call on. -/
def confirming (seams : ResourceSeams) (item : AvailabilityItem) :
    Nat → List ProviderRecord → List ProviderRecord
  | _, [] => []
  | t, p :: found =>
      match seams.queryAvailability t p item with
      | .ok (true :: _) => p :: confirming seams item (t + 1) found
      | _ => confirming seams item (t + 1) found

/-- The holders that confirm when the locator is asked at a call. -/
def locatedAt (seams : ResourceSeams) (content : ContentId) (t : Nat) : List ProviderRecord :=
  match seams.findProviders t content, availabilityItem content with
  | .ok found, .ok item => confirming seams item (t + 1) found
  | _, _ => []

/-- The calls of a trace, counted from `t`, that ask the locator. -/
def locates (t : Nat) : List (Effect ResourceAsk) → List Nat
  | [] => []
  | e :: trace => if e.isLocate then t :: locates (t + 1) trace else locates (t + 1) trace

/-- What a stretch of a run, from the call `t` on, locates. -/
def located (seams : ResourceSeams) (content : ContentId) (t : Nat)
    (seg : List (Effect ResourceAsk)) : List (List ProviderRecord) :=
  (locates t seg).map (locatedAt seams content)

/-- Some holders after what a stretch of a run locates. -/
def learned (seams : ResourceSeams) (content : ContentId) (t : Nat)
    (seg : List (Effect ResourceAsk)) (known : List ProviderRecord) : List ProviderRecord :=
  (located seams content t seg).foldl (learn ProviderRecord.providerPeerId) known

section Located

variable {seams : ResourceSeams} {content : ContentId} {t : Nat}
variable {seg seg' : List (Effect ResourceAsk)} {known : List ProviderRecord}

theorem locates_append :
    locates t (seg ++ seg') = locates t seg ++ locates (t + seg.length) seg' := by
  induction seg generalizing t with
  | nil => rfl
  | cons e seg ih =>
    have hlen : t + (e :: seg).length = t + 1 + seg.length := by
      rw [List.length_cons]
      omega
    rw [List.cons_append, locates, locates, ih, hlen]
    split <;> rfl

theorem locates_eq_nil (h : ∀ e ∈ seg, e.isLocate = false) : locates t seg = [] := by
  induction seg generalizing t with
  | nil => rfl
  | cons e seg ih =>
    rw [locates, h e List.mem_cons_self]
    exact ih fun e' he' => h e' (List.mem_cons_of_mem e he')

theorem learned_append : learned seams content t (seg ++ seg') known =
    learned seams content (t + seg.length) seg' (learned seams content t seg known) := by
  rw [learned, located, locates_append, List.map_append, List.foldl_append]
  rfl

theorem learned_of_not_isLocate (h : ∀ e ∈ seg, e.isLocate = false) :
    learned seams content t seg known = known := by
  rw [learned, located, locates_eq_nil h]
  rfl

/-- One question to the locator, and the calls that follow up on it. -/
theorem learned_cons (answer : Except DownloadError (List ProviderRecord))
    (h : ∀ e ∈ seg, e.isLocate = false) :
    learned seams content t (.ask (.findProviders answer) :: seg) known =
      learn ProviderRecord.providerPeerId known (locatedAt seams content t) := by
  rw [learned, located, locates, locates_eq_nil h]
  rfl

end Located

/-! ## What a job learns -/

/-- The holders known in `w'` are those known in `w` and what was located since. -/
def Learns (seams : ResourceSeams) (content : ContentId) (w w' : JobWorld) : Prop :=
  ∃ seg, w'.trace = w.trace ++ seg ∧
    w'.own.providers = learned seams content w.tick seg w.own.providers

section Learning

variable {seams : ResourceSeams} {content : ContentId}

instance : Std.Refl (Learns seams content) := ⟨fun w => ⟨[], by simp, rfl⟩⟩

instance : IsTrans JobWorld (Learns seams content) := ⟨by
  rintro a b c ⟨s, hs, hown⟩ ⟨t, ht, hown'⟩
  refine ⟨s ++ t, by rw [ht, hs, List.append_assoc], ?_⟩
  have htick : b.tick = a.tick + s.length := by
    rw [World.tick, hs, List.length_append]
    rfl
  rw [hown', hown, learned_append, htick]⟩

/-- A job forgets no holder, and keeps them in their order. -/
theorem prefix_providers {w w' : JobWorld} (h : Learns seams content w w') :
    w.own.providers <+: w'.own.providers := by
  obtain ⟨seg, -, hown⟩ := h
  rw [hown]
  exact prefix_foldl_learn

/-- A call that does not ask the locator teaches nothing. -/
theorem closedUnder_learns (K : Effect ResourceAsk → Prop) :
    ClosedUnder (fun e => K e ∧ e.isLocate = false) (Learns seams content) :=
  fun _ _ e he _ => ⟨[e], rfl, (learned_of_not_isLocate (by simpa using he.2)).symm⟩

theorem closedUnderPlanning_learns (K : Effect ResourceAsk → Prop) :
    ClosedUnderPlanning K (Learns seams content) :=
  ⟨closedUnder_learns K, fun _ _ _ hknown => ⟨[], by simp, hknown⟩⟩

theorem closedUnderKeeping_learns (K : Effect ResourceAsk → Prop) :
    ClosedUnderKeeping K (Learns seams content) :=
  ⟨closedUnder_learns K, fun _ _ hknown => ⟨[], by simp, hknown⟩⟩

/-- Exactly the confirming holders are kept, and they are only asked. -/
theorem wp_confirmHolders_confirming (item : AvailabilityItem) (found : List ProviderRecord) :
    ∀ w : JobWorld, wp (confirmHolders seams item found)
      (fun confirmed w' => confirmed = confirming seams item w.tick found ∧
        ∃ seg, w' = { w with trace := w.trace ++ seg } ∧ ∀ e ∈ seg, e.isLocate = false)
      (fun _ _ => False) w := by
  induction found with
  | nil => exact fun w => ⟨rfl, [], by simp, by simp⟩
  | cons p found ih =>
    intro w
    -- the question to the first holder, and what was asked after it
    let asked : Effect ResourceAsk :=
      .ask (.queryAvailability p.providerPeerId (seams.queryAvailability w.tick p item))
    have hseg : ∀ (w' : JobWorld) (seg : List (Effect ResourceAsk)),
        w' = { w.note asked with trace := (w.note asked).trace ++ seg } →
        (∀ e ∈ seg, e.isLocate = false) →
        ∃ seg, w' = { w with trace := w.trace ++ seg } ∧ ∀ e ∈ seg, e.isLocate = false := by
      intro w' seg hw' hseg
      refine ⟨asked :: seg, by rw [hw']; simp [World.note], fun e he => ?_⟩
      cases he with
      | head => rfl
      | tail _ hmem => exact hseg e hmem
    have hrest := ih (w.note asked)
    rw [show (w.note asked).tick = w.tick + 1 by simp [World.note, World.tick]] at hrest
    rw [confirmHolders, wp_bind, wp_askJob]
    split
    · rename_i hanswer
      rw [wp_bind]
      refine hrest.mono (fun confirmed w' h => ?_) (fun _ _ h => h)
      obtain ⟨rfl, seg, hw', hquiet⟩ := h
      exact ⟨by rw [confirming, hanswer], hseg w' seg hw' hquiet⟩
    · rename_i hanswer
      refine hrest.mono (fun confirmed w' h => ?_) (fun _ _ h => h)
      obtain ⟨rfl, seg, hw', hquiet⟩ := h
      refine ⟨?_, hseg w' seg hw' hquiet⟩
      rw [confirming]
      split
      · exact absurd ‹_› (hanswer _)
      · rfl

/-- Asking the locator gives the holders that confirm, and changes nothing. -/
theorem wp_locateAndConfirm_located (w : JobWorld) :
    wp (locateAndConfirm seams content)
      (fun more w' => more = locatedAt seams content w.tick ∧ ∃ answer seg,
        w' = { w with trace := w.trace ++ .ask (.findProviders answer) :: seg } ∧
          ∀ e ∈ seg, e.isLocate = false)
      (fun _ w' => locatedAt seams content w.tick = [] ∧
        ∃ answer, w' = w.note (.ask (.findProviders answer))) w := by
  rw [locateAndConfirm, wp_bind, wp_askJob, locatedAt]
  cases hfound : seams.findProviders w.tick content with
  | error e => exact ⟨rfl, _, rfl⟩
  | ok found =>
    dsimp only
    cases hitem : availabilityItem content with
    | error e => exact ⟨rfl, _, rfl⟩
    | ok item =>
      refine (wp_confirmHolders_confirming item found _).mono (fun more w' h => ?_)
        (fun _ _ h => h.elim)
      obtain ⟨rfl, seg, rfl, hseg⟩ := h
      exact ⟨by simp [World.note, World.tick], .ok found, seg, by simp [World.note], hseg⟩

theorem Learns.note {w w' : JobWorld} (h : Learns seams content w w') {e : Effect ResourceAsk}
    (he : e.isLocate = false) : Learns seams content w (w'.note e) := by
  refine IsTrans.trans _ _ _ h ⟨[e], rfl, ?_⟩
  rw [learned_of_not_isLocate (by simpa using he)]
  rfl

theorem learns_located {w : JobWorld} {answer : Except DownloadError (List ProviderRecord)}
    (seg : List (Effect ResourceAsk)) {own : Job} (hseg : ∀ e ∈ seg, e.isLocate = false)
    (hown : own.providers =
      learn ProviderRecord.providerPeerId w.own.providers (locatedAt seams content w.tick)) :
    Learns seams content w
      { w with trace := w.trace ++ .ask (.findProviders answer) :: seg, own } :=
  ⟨_, rfl, hown.trans (learned_cons answer hseg).symm⟩

/-- Locating more holders learns those that confirm, and says how many entries were new. -/
theorem wp_discoverMore_learns (w : JobWorld) :
    wp (discoverMore seams content)
      (fun n w' => Learns seams content w w' ∧ w'.own.providers =
          learn ProviderRecord.providerPeerId w.own.providers (locatedAt seams content w.tick) ∧
        n = (unknown ProviderRecord.providerPeerId w.own.providers
          (locatedAt seams content w.tick)).length)
      (fun _ w' => Learns seams content w w') w := by
  rw [discoverMore, wp_bind]
  refine (wp_locateAndConfirm_located w).mono (fun more w₁ h₁ => ?_) (fun halt w₁ h₁ => ?_)
  · obtain ⟨rfl, answer, seg, rfl, hseg⟩ := h₁
    rw [wp_bind, wp_getJob, wp_bind, wp_modifyJob]
    have hlearns : Learns seams content w
        { w with
          trace := w.trace ++ .ask (.findProviders answer) :: seg
          own := { w.own with
            providers := learn ProviderRecord.providerPeerId w.own.providers
              (locatedAt seams content w.tick) } } := learns_located seg hseg rfl
    split
    · rw [wp_bind, wp_emit]
      exact ⟨hlearns.note rfl, rfl, rfl⟩
    · rename_i hnone
      exact ⟨hlearns, rfl, (Nat.eq_zero_of_not_pos hnone).symm⟩
  · obtain ⟨hnone, answer, rfl⟩ := h₁
    have hsame : w.own.providers =
        learn ProviderRecord.providerPeerId w.own.providers (locatedAt seams content w.tick) := by
      rw [hnone, learn_nil_right]
    exact learns_located [] (by simp) hsame

theorem steps_discoverMore_learns : Steps (Learns seams content) (discoverMore seams content) :=
  steps_of_wp fun w =>
    (wp_discoverMore_learns w).mono (fun _ _ h => h.1) (fun _ _ h => h)

/-- A job that knows nobody learns the holders of its first answer. -/
theorem wp_discover_learns {w : JobWorld} (hnone : w.own.providers = []) :
    wp (discover seams content) (fun _ w' => Learns seams content w w')
      (fun _ w' => Learns seams content w w') w := by
  rw [discover]
  split
  · exact (Std.Refl.refl w : Learns seams content w w)
  rw [wp_bind]
  refine (wp_locateAndConfirm_located w).mono (fun more w₁ h₁ => ?_) (fun halt w₁ h₁ => ?_)
  · obtain ⟨rfl, answer, seg, rfl, hseg⟩ := h₁
    have hfirst : locatedAt seams content w.tick =
        learn ProviderRecord.providerPeerId w.own.providers (locatedAt seams content w.tick) := by
      rw [hnone, learn_nil_left]
    have hlearns : Learns seams content w
        { w with
          trace := w.trace ++ .ask (.findProviders answer) :: seg
          own := { w.own with providers := locatedAt seams content w.tick } } :=
      learns_located seg hseg hfirst
    rw [wp_bind, wp_modifyJob]
    split
    · rw [wp_failWith]
      exact hlearns.note rfl
    · exact hlearns
  · obtain ⟨hempty, answer, rfl⟩ := h₁
    refine learns_located [] (by simp) ?_
    rw [hempty, learn_nil_right]

/-- The same holders are known. -/
def SameKnown (w w' : JobWorld) : Prop := w'.own.providers = w.own.providers

instance : Std.Refl SameKnown := ⟨fun _ => rfl⟩

instance : IsTrans JobWorld SameKnown := ⟨fun _ _ _ h h' => Eq.trans h' h⟩

theorem closedUnderPlanning_sameKnown (K : Effect ResourceAsk → Prop) :
    ClosedUnderPlanning K SameKnown := ⟨fun _ _ _ _ _ => rfl, fun _ _ _ hknown => hknown⟩

/-- Over a whole run a job that began with nobody knows what it has located. -/
theorem learns_runJob {target : Target} {w : JobWorld} (turns : List Turn)
    (hnone : w.own.providers = []) :
    Learns seams target.content w (runJob seams target turns w).2 := by
  have hopen : Steps (Learns seams target.content) (openJob seams (downloadKey seams target)) :=
    steps_openJob (closedUnderPlanning_learns _)
  have hsame : Steps SameKnown (openJob seams (downloadKey seams target)) :=
    steps_openJob (closedUnderPlanning_sameKnown _)
  have hrest : ∀ w₁, Learns seams target.content w w₁ → wp (do
      let commitment ← obtainCommitment seams target.content
      planDownload seams (downloadKey seams target) commitment
      entered seams target turns commitment) (fun _ w' => Learns seams target.content w w')
      (fun _ w' => Learns seams target.content w w') w₁ := by
    intro w₁ h₁
    have hsteps : Steps (Learns seams target.content) (do
        let commitment ← obtainCommitment seams target.content
        planDownload seams (downloadKey seams target) commitment
        entered seams target turns commitment) :=
      Steps.bind (steps_obtainCommitment (closedUnderPlanning_learns _)) fun commitment =>
        Steps.bind (steps_planDownload (closedUnderPlanning_learns _) commitment) fun _ =>
        Steps.bind (steps_scheduleLoop_keeping (closedUnderKeeping_learns _)
          steps_discoverMore_learns turns) fun _ =>
        steps_finish commitment (closedUnderKeeping_learns _)
    exact (hsteps.wp w₁).mono (fun _ _ h => IsTrans.trans _ _ _ h₁ h)
      (fun _ _ h => IsTrans.trans _ _ _ h₁ h)
  refine wp_same.mp ?_
  rw [runJob_eq, entering_eq, committing]
  simp only [LawfulMonad.bind_assoc, pure_bind]
  rw [wp_bind]
  refine ((hopen.wp w).and (hsame.wp w)).mono (fun _ w₁ h₁ => ?_) (fun _ _ h => h.1)
  rw [wp_bind]
  refine (wp_discover_learns (h₁.2.trans hnone)).mono (fun _ w₂ h₂ => ?_) (fun _ w₂ h₂ => ?_)
  · exact hrest w₂ (IsTrans.trans _ _ _ h₁.1 h₂)
  · exact IsTrans.trans _ _ _ h₁.1 h₂

/-- The holders that a download knows, by the calls of its trace. -/
theorem providers_downloadResource (seams : ResourceSeams) (target : Target) (turns : List Turn)
    (sink : Sink) (store : StateStore) :
    (downloadResource seams target turns sink store).2.own.providers =
      learned seams target.content 0
        (downloadResource seams target turns sink store).2.trace [] := by
  have hnone : (JobWorld.start seams target sink store).own.providers = [] := rfl
  obtain ⟨seg, htrace, hproviders⟩ := learns_runJob turns hnone
  rw [downloadResource, hproviders, htrace]
  rfl

end Learning

end DigDownload
