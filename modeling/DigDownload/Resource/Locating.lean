import DigDownload.Resource.Endings

/-!
# How often the locator is asked

A download asks the locator once before it plans, again for each relocate, and again for each
refresh. The relocates are bounded by the configuration, and a refresh comes an interval after
the last one at the earliest. So what a download asks of the locator is bounded by how long it
takes, whatever its holders do.
-/

namespace DigDownload

open Prog Relation

/-- How often the locator was asked. -/
def locateCount (trace : List (Effect ResourceAsk)) : Nat := trace.countP Effect.isLocate

/-- The locator was asked so many times more, outside of relocates and refreshes. -/
structure Looks (n : Nat) (w w' : JobWorld) : Prop where
  located : locateCount w'.trace ≤ locateCount w.trace + n
  attempts : w'.own.relocateAttempts = w.own.relocateAttempts
  lastRefresh : w'.own.lastRefresh = w.own.lastRefresh
  later : w.tick ≤ w'.tick

/-- The locator was asked for each relocate, of which there are no more than the configuration
allows, and for each refresh, of which each comes an interval after the last at the earliest. -/
structure Asks (seams : ResourceSeams) (w w' : JobWorld) : Prop where
  asked : ∃ relocates refreshes,
    locateCount w'.trace ≤ locateCount w.trace + relocates + refreshes ∧
    w'.own.relocateAttempts = w.own.relocateAttempts + relocates ∧
    (seams.config.refreshInterval = none → refreshes = 0) ∧
    ∀ interval, seams.config.refreshInterval = some interval →
      w.own.lastRefresh + refreshes * interval ≤ w'.own.lastRefresh
  allowed : w.own.relocateAttempts ≤ seams.config.maxRelocateAttempts →
    w'.own.relocateAttempts ≤ seams.config.maxRelocateAttempts
  read : w'.own.lastRefresh = w.own.lastRefresh ∨ ∃ t ≤ w'.tick, w'.own.lastRefresh = seams.now t
  later : w.tick ≤ w'.tick

section Looking

variable {seams : ResourceSeams} {content : ContentId} {key : String} {w w' w'' : JobWorld}
  {n m : Nat} {α : Type}

/-- Two stretches ask the locator as often as they do together. -/
theorem Looks.trans (h : Looks n w w') (h' : Looks m w' w'') : Looks (n + m) w w'' where
  located := by
    have := h.located
    have := h'.located
    omega
  attempts := h'.attempts.trans h.attempts
  lastRefresh := h'.lastRefresh.trans h.lastRefresh
  later := h.later.trans h'.later

theorem Looks.more (h : Looks n w w') (hle : n ≤ m) : Looks m w w' :=
  ⟨h.located.trans (Nat.add_le_add_left hle _), h.attempts, h.lastRefresh, h.later⟩

/-- How often the locator is asked adds up along a program. -/
theorem graded_looks : Graded Looks where
  refl _ := ⟨Nat.le_refl _, rfl, rfl, Nat.le_refl _⟩
  trans := Looks.trans
  weaken m h := h.more (Nat.le_add_right _ m)

instance : Std.Refl (Looks 0) := ⟨graded_looks.refl⟩

instance : IsTrans JobWorld (Looks 0) := ⟨fun _ _ _ h h' => h.trans h'⟩

theorem locateCount_note (e : Effect ResourceAsk) :
    locateCount (w.note e).trace = locateCount w.trace + if e.isLocate then 1 else 0 := by
  rw [World.note_trace, locateCount, List.countP_append, List.countP_singleton]
  rfl

/-- Any effect but a look at the locator is free. -/
theorem closedUnder_looks : ClosedUnder (fun e => e.isLocate = false) (Looks 0) :=
  fun w store e he _ => by
    refine ⟨?_, rfl, rfl, ?_⟩
    · rw [World.note_trace, locateCount, List.countP_append, List.countP_singleton, he]
      exact Nat.le_refl _
    · show w.trace.length ≤ (w.trace ++ [e]).length
      rw [List.length_append]
      exact Nat.le_add_right _ _

theorem closedUnderPlanning_looks {K : Effect ResourceAsk → Prop} :
    ClosedUnderPlanning K (Looks 0) :=
  ⟨closedUnder_looks.mono fun _ he => he.2, fun _ _ hidle _ =>
    ⟨Nat.le_refl _, hidle.relocateAttempts, hidle.lastRefresh, Nat.le_refl _⟩⟩

theorem closedUnderServing_looks {K : Effect ResourceAsk → Prop} :
    ClosedUnderServing K (Looks 0) :=
  ⟨closedUnder_looks.mono fun _ he => he.2, fun _ _ hsame =>
    ⟨Nat.le_refl _, hsame.relocateAttempts, hsame.lastRefresh, Nat.le_refl _⟩⟩

theorem steps_modifyJob_looks {f : Job → Job}
    (h : ∀ job, (f job).relocateAttempts = job.relocateAttempts ∧
      (f job).lastRefresh = job.lastRefresh) : Steps (Looks 0) (modifyJob f) := fun w =>
  ⟨Nat.le_refl _, (h w.own).1, (h w.own).2, Nat.le_refl _⟩

/-! ## Looking for holders -/

/-- The locator is asked once, and then the holders that it names. -/
theorem steps_locateAndConfirm_looks : Steps (Looks 1) (locateAndConfirm seams content) := by
  have hask : Steps (Looks 1) (askJob (seams.findProviders · content) .findProviders) := fun w => by
    refine ⟨?_, rfl, rfl, ?_⟩
    · show locateCount (w.note _).trace ≤ _
      rw [locateCount_note]
      exact Nat.le_refl _
    · show w.tick ≤ (w.note _).tick
      rw [World.tick, World.tick, World.note_trace, List.length_append]
      exact Nat.le_add_right _ _
  refine graded_looks.bind (b := 0) hask fun answer => ?_
  split
  · exact Steps.fail _
  split
  · exact Steps.fail _
  · exact steps_confirmHolders closedUnder_looks (fun _ _ => rfl) _ _

/-- To discover more takes one look. -/
theorem steps_discoverMore_looks : Steps (Looks 1) (discoverMore seams content) := by
  refine graded_looks.bind (b := 0) steps_locateAndConfirm_looks fun more => ?_
  refine Steps.bind steps_getJob fun job => ?_
  refine Steps.bind (steps_modifyJob_looks fun _ => ⟨rfl, rfl⟩) fun _ => ?_
  split
  · exact Steps.bind (steps_emit closedUnder_looks rfl) fun _ => Steps.pure _
  · exact Steps.pure _

/-! ## Relocates and refreshes -/

/-- What does not ask the locator takes no relocate and no refresh. -/
theorem Looks.asks (h : Looks 0 w w') : Asks seams w w' where
  asked := ⟨0, 0, h.located, h.attempts, fun _ => rfl, fun interval _ => by
    rw [Nat.zero_mul, Nat.add_zero]
    exact h.lastRefresh.ge⟩
  allowed hle := by
    rw [h.attempts]
    exact hle
  read := Or.inl h.lastRefresh
  later := h.later

/-- The looks for relocates and for refreshes are counted apart, and each count adds up. -/
theorem Asks.trans (h : Asks seams w w') (h' : Asks seams w' w'') : Asks seams w w'' := by
  obtain ⟨m, k, hlocated, hattempts, hnone, hspaced⟩ := h.asked
  obtain ⟨m', k', hlocated', hattempts', hnone', hspaced'⟩ := h'.asked
  refine ⟨⟨m + m', k + k', by omega, by omega, fun hinterval => ?_, fun interval hinterval => ?_⟩,
    fun hle => h'.allowed (h.allowed hle), ?_, h.later.trans h'.later⟩
  · rw [hnone hinterval, hnone' hinterval]
  · have hfirst := hspaced interval hinterval
    have hthen := hspaced' interval hinterval
    rw [Nat.add_mul]
    omega
  · rcases h'.read with hsame | hread
    · rcases h.read with hkept | ⟨t, ht, hread⟩
      · exact Or.inl (hsame.trans hkept)
      · exact Or.inr ⟨t, ht.trans h'.later, hsame.trans hread⟩
    · exact Or.inr hread

instance : Std.Refl (Asks seams) := ⟨fun w => (graded_looks.refl w).asks⟩

instance : IsTrans JobWorld (Asks seams) := ⟨fun _ _ _ => Asks.trans⟩

theorem closedUnderServing_asks {K : Effect ResourceAsk → Prop} :
    ClosedUnderServing K (Asks seams) :=
  ⟨fun w store e he hstore => (closedUnder_looks w store e he.2 hstore).asks, fun w own hsame =>
    ((closedUnderServing_looks (K := K)).own w own hsame).asks⟩

/-- A relocate asks the locator once, and takes one of the attempts that are left. -/
theorem wp_relocate_asks (hleft : w.own.relocateAttempts < seams.config.maxRelocateAttempts) :
    wp (relocate seams content) (fun _ => Asks seams w) (fun _ => Asks seams w) w := by
  rw [relocate, wp_bind, wp_noteJob, wp_bind, wp_modifyJob]
  have hnoted : Looks 0 w (w.note (.ask .relocate)) := closedUnder_looks.note w rfl trivial
  have hasks : ∀ {w₁ : JobWorld}, Looks 1 { w.note (.ask .relocate) with
      own := { w.own with relocateAttempts := w.own.relocateAttempts + 1 } } w₁ →
      Asks seams w w₁ := fun h => by
    have hlast : _ = w.own.lastRefresh := h.lastRefresh
    refine ⟨⟨1, 0, ?_, h.attempts, fun _ => rfl, fun interval _ => ?_⟩, fun _ => ?_, Or.inl hlast,
      hnoted.later.trans h.later⟩
    · exact h.located.trans (Nat.add_le_add_right hnoted.located 1)
    · rw [Nat.zero_mul, Nat.add_zero]
      exact hlast.ge
    · rw [h.attempts]
      exact hleft
  exact (steps_discoverMore_looks.wp _).mono (fun _ _ h => hasks h) (fun _ _ h => hasks h)

/-- A stalled loop takes one of the relocates that are left, or none. -/
theorem steps_stalled_asks : Steps (Asks seams) (stalled seams content) := by
  refine steps_of_wp fun w => ?_
  have hwait : Steps (Asks seams) (waitOut seams) := steps_waitOut closedUnderServing_asks
  rw [stalled, wp_bind, wp_getJob]
  split
  · rename_i hrelocate
    rw [wp_bind]
    refine (wp_relocate_asks hrelocate.2).mono (fun added w₁ h₁ => ?_) (fun _ _ h => h)
    rw [wp_bind, wp_modifyJob]
    have hlearnt : Asks seams w { w₁ with own := { w₁.own with relocatedSinceProgress := true } } :=
      h₁.trans (Looks.asks ⟨Nat.le_refl _, rfl, rfl, Nat.le_refl _⟩)
    split
    · exact hlearnt
    · exact (hwait.wp _).mono (fun _ _ h => hlearnt.trans h) (fun _ _ h => hlearnt.trans h)
  · exact hwait.wp w

/-- A refresh asks the locator once, and is due. -/
theorem wp_refreshTurn_asks {interval : Nat} (hinterval : seams.config.refreshInterval = some interval)
    (hdue : w.own.lastRefresh + interval ≤ seams.now w.tick) :
    wp (refreshTurn seams content) (fun _ => Asks seams w) (fun _ => Asks seams w) w := by
  rw [refreshTurn, wp_bind, wp_readClock, wp_bind, wp_modifyJob, wp_handle]
  have hread : Looks 0 w (w.note (.ask .clock)) := closedUnder_looks.note w rfl trivial
  have hasks : ∀ {w₁ : JobWorld}, Looks 1 { w.note (.ask .clock) with
      own := { w.own with lastRefresh := seams.now w.tick } } w₁ → Asks seams w w₁ := fun h => by
    have hlast : _ = seams.now w.tick := h.lastRefresh
    refine ⟨⟨0, 1, ?_, h.attempts, fun hnone => ?_, fun interval' hinterval' => ?_⟩, fun hle => ?_,
      Or.inr ⟨w.tick, hread.later.trans h.later, hlast⟩, hread.later.trans h.later⟩
    · exact h.located.trans (Nat.add_le_add_right hread.located 1)
    · rw [hinterval] at hnone
      cases hnone
    · rw [hinterval, Option.some.injEq] at hinterval'
      rw [Nat.one_mul, ← hinterval', hlast]
      exact hdue
    · rw [h.attempts]
      exact hle
  refine (steps_discoverMore_looks.wp _).mono (fun _ _ h => hasks h) (fun halt _ h => ?_)
  cases halt <;> exact hasks h

/-- A turn asks the locator for a refresh only, and only when one is due. -/
theorem steps_takeTurn_asks (wakeup : Option Nat) (turn : Turn) :
    Steps (Asks seams) (takeTurn seams content wakeup turn) := by
  cases turn with
  | control message =>
    exact Steps.bind (steps_controlTurn closedUnderServing_asks message) fun _ => Steps.pure _
  | wake => exact Steps.bind Steps.read fun w => Steps.pure _
  | completed choice => exact steps_takeTurn_completed closedUnderServing_asks wakeup choice
  | refresh =>
    refine steps_of_wp fun w => ?_
    rw [takeTurn, wp_bind, wp_read]
    split
    · rename_i hdue
      cases hinterval : seams.config.refreshInterval with
      | none =>
        rw [hinterval] at hdue
        cases hdue.2
      | some interval =>
        rw [hinterval] at hdue
        rw [wp_bind]
        exact wp_refreshTurn_asks hinterval (of_decide_eq_true hdue.2)
    · exact Std.Refl.refl w

/-- The loop, over all its turns. -/
theorem steps_scheduleLoop_asks (turns : List Turn) :
    Steps (Asks seams) (scheduleLoop seams content key turns) :=
  steps_scheduleLoop_of_turns
    (steps_loopHead_of_stalled closedUnderServing_asks steps_stalled_asks) steps_takeTurn_asks turns

/-! ## The whole run -/

/-- The discovery takes one look. -/
theorem steps_discover_looks : Steps (Looks 1) (discover seams content) := by
  rw [discover]
  split
  · exact fun w => (graded_looks.refl w).more (Nat.zero_le 1)
  · refine graded_looks.bind (b := 0) steps_locateAndConfirm_looks fun providers => ?_
    refine Steps.bind (steps_modifyJob_looks fun _ => ⟨rfl, rfl⟩) fun _ => ?_
    split
    · exact steps_failWith closedUnder_looks rfl
    · exact Steps.pure _

/-- A job asks the locator once before it schedules. -/
theorem steps_entering_looks (target : Target) : Steps (Looks 1) (entering seams target) := by
  rw [entering_eq, committing]
  have hopen : Steps (Looks 0) (openJob seams (downloadKey seams target)) :=
    steps_openJob closedUnderPlanning_looks
  have hcommit : Steps (Looks 1) (committing seams target) :=
    graded_looks.bind (a := 0) (b := 1) hopen fun _ =>
      graded_looks.bind (b := 0) steps_discover_looks fun _ =>
        steps_obtainCommitment closedUnderPlanning_looks
  exact graded_looks.bind (b := 0) hcommit fun commitment =>
    Steps.bind (steps_planDownload closedUnderPlanning_looks commitment) fun _ => Steps.pure _

theorem Effect.IsFinish.isLocate {e : Effect ResourceAsk} (h : e.IsFinish) :
    e.isLocate = false := by
  rw [Effect.IsFinish.eq_def] at h
  split at h <;> first | rfl | exact h.elim

theorem locateCount_of_appends (h : Appends (fun e => e.isLocate = false) w w') :
    locateCount w'.trace = locateCount w.trace := by
  obtain ⟨seg, hseg, hnone⟩ := h
  have hzero : seg.countP Effect.isLocate = 0 :=
    List.countP_eq_zero.mpr fun e he => by rw [hnone e he]; exact Bool.false_ne_true
  rw [hseg, locateCount, List.countP_append, hzero, Nat.add_zero]
  rfl

end Looking

/-- The locator was asked once, once for each relocate that the configuration allows, and once
for each refresh interval between the first reading of the clock and another one of the run. -/
def LocatesSparingly (seams : ResourceSeams) (w : JobWorld) : Prop :=
  ∃ refreshes t, t ≤ w.tick ∧
    locateCount w.trace ≤ 1 + seams.config.maxRelocateAttempts + refreshes ∧
    (seams.config.refreshInterval = none → refreshes = 0) ∧
    ∀ interval, seams.config.refreshInterval = some interval →
      seams.now 0 + refreshes * interval ≤ seams.now t

section Sparingly

variable {seams : ResourceSeams} {target : Target} {sink : Sink} {store : StateStore}
  {w w' : JobWorld}

/-- A download that ends before its loop has looked once at most. -/
theorem LocatesSparingly.of_looks (h : Looks 1 (JobWorld.start seams target sink store) w) :
    LocatesSparingly seams w := by
  refine ⟨0, 0, Nat.zero_le _, ?_, fun _ => rfl, fun interval _ => ?_⟩
  · have hone : locateCount w.trace ≤ 0 + 1 := h.located
    omega
  · rw [Nat.zero_mul]
    exact Nat.le_refl _

/-- A download that ends in its loop: its discovery, and what the loop has asked. -/
theorem LocatesSparingly.of_asks (h : Looks 1 (JobWorld.start seams target sink store) w)
    (h' : Asks seams w w') : LocatesSparingly seams w' := by
  obtain ⟨relocates, refreshes, hlocated, hattempts, hnone, hspaced⟩ := h'.asked
  have hone : locateCount w.trace ≤ 0 + 1 := h.located
  have hfresh : w.own.relocateAttempts = 0 := h.attempts
  have hfirst : w.own.lastRefresh = seams.now 0 := h.lastRefresh
  have hallowed := h'.allowed (hfresh ▸ Nat.zero_le _)
  have hcount : locateCount w'.trace ≤ 1 + seams.config.maxRelocateAttempts + refreshes := by omega
  rcases h'.read with hsame | ⟨t, ht, hread⟩
  · refine ⟨refreshes, 0, Nat.zero_le _, hcount, hnone, fun interval hinterval => ?_⟩
    have hlast := hspaced interval hinterval
    rwa [hsame, hfirst] at hlast
  · refine ⟨refreshes, t, ht, hcount, hnone, fun interval hinterval => ?_⟩
    have hlast := hspaced interval hinterval
    rwa [hread, hfirst] at hlast

theorem LocatesSparingly.appends (h : LocatesSparingly seams w)
    (happends : Appends (fun e => e.isLocate = false) w w') : LocatesSparingly seams w' := by
  obtain ⟨refreshes, t, ht, hcount, hrest⟩ := h
  refine ⟨refreshes, t, ?_, ?_, hrest⟩
  · obtain ⟨seg, hseg, -⟩ := happends
    refine ht.trans ?_
    rw [World.tick, World.tick, hseg, List.length_append]
    exact Nat.le_add_right _ _
  · rwa [locateCount_of_appends happends]

/-- However long a download goes on and whatever its holders, the locator and its owner do, it
asks the locator no more often than its relocates and the time that has passed allow. -/
theorem locates_sparingly (seams : ResourceSeams) (target : Target) (turns : List Turn)
    (sink : Sink) (store : StateStore) :
    LocatesSparingly seams (downloadResource seams target turns sink store).2 := by
  refine (wp_same (P := LocatesSparingly seams)).mp ?_
  rw [runJob_eq, wp_bind]
  refine ((steps_entering_looks target).wp _).mono (fun commitment w h => ?_)
    (fun _ _ h => .of_looks h)
  rw [entered, wp_bind]
  refine ((steps_scheduleLoop_asks turns).wp w).mono (fun _ w₁ h₁ => ?_)
    (fun _ _ h₁ => .of_asks h h₁)
  have hfinish := finish_appends seams (downloadKey seams target) commitment w₁
  exact wp_same.mpr ((LocatesSparingly.of_asks h h₁).appends
    (hfinish.mono fun _ he => he.isLocate))

end Sparingly

end DigDownload
