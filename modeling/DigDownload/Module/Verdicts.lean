import DigDownload.Module.Truth

/-!
# Who earns a verdict

A verdict is recorded against the holder whose descriptor was just proven false.
The checks that prove a descriptor false mix evidence with this node's own limits,
so a true descriptor can be proven false: exactly when it is beyond the limits.
-/

namespace DigDownload

open Slices Tiling Prog

/-- The descriptor obtained last in a trace, and from whom. -/
def LastDescriptor (trace : List (Effect ModuleAsk)) (peer : String) (info : ModuleInfo) : Prop :=
  ∃ before after, trace = before ++ .ask (.getModuleInfo peer (some (.ok info))) :: after ∧
    ∀ e ∈ after, ¬ e.IsDescriptor

/-- Every verdict is against a holder whose descriptor, the one obtained last, was false. -/
def VerdictsSound (isTrue : ModuleInfo → Prop) (trace : List (Effect ModuleAsk)) : Prop :=
  ∀ earlier key peer ok later,
    trace = earlier ++ .recordBadDescriptor key peer ok :: later →
    ∃ info, LastDescriptor earlier peer info ∧ ¬ isTrue info

/-- Every descriptor of the given kind that was obtained got its holder a verdict before
the next descriptor was obtained. -/
def AlwaysBranded (kind : ModuleInfo → Prop) (trace : List (Effect ModuleAsk)) : Prop :=
  ∀ before peer info after,
    trace = before ++ .ask (.getModuleInfo peer (some (.ok info))) :: after → kind info →
    ∃ between key ok later, after = between ++ .recordBadDescriptor key peer ok :: later ∧
      ∀ e ∈ between, ¬ e.IsDescriptor

/-- A descriptor is true when it describes a module anchored under the capsule. -/
def IsTrueDescriptor (sha256 : Bytes → Bytes) (isModule : Bytes → Prop) (info : ModuleInfo) :
    Prop := ∃ module, isModule module ∧ Describes sha256 info module

/-! ## Traces with verdicts -/

section Traces

variable {trace seg : List (Effect ModuleAsk)} {peer : String} {info : ModuleInfo}
  {isTrue kind : ModuleInfo → Prop}

/-- A verdict was recorded. -/
def Effect.IsVerdict : Effect ModuleAsk → Prop
  | .recordBadDescriptor _ _ _ => True
  | _ => False

theorem LastDescriptor.append (h : LastDescriptor trace peer info)
    (hseg : ∀ e ∈ seg, ¬ e.IsDescriptor) : LastDescriptor (trace ++ seg) peer info := by
  obtain ⟨before, after, rfl, hafter⟩ := h
  refine ⟨before, after ++ seg, by simp, fun e he => ?_⟩
  exact (List.mem_append.mp he).elim (hafter e) (hseg e)

/-- There is one last descriptor at most. -/
theorem LastDescriptor.unique {peer' : String} {info' : ModuleInfo}
    (h : LastDescriptor trace peer info) (h' : LastDescriptor trace peer' info') :
    peer = peer' ∧ info = info' := by
  obtain ⟨b, a, rfl, ha⟩ := h
  obtain ⟨b', a', heq, ha'⟩ := h'
  rcases List.append_eq_append_iff.mp heq with ⟨as, -, has⟩ | ⟨as, -, has⟩
  · cases as with
    | nil =>
      rw [List.nil_append, List.cons.injEq] at has
      simpa using has.1
    | cons e as =>
      rw [List.cons_append, List.cons.injEq] at has
      exact absurd trivial (ha (.ask (.getModuleInfo peer' (some (.ok info')))) (by simp [has.2]))
  · cases as with
    | nil =>
      rw [List.nil_append, List.cons.injEq] at has
      simpa [eq_comm] using has.1
    | cons e as =>
      rw [List.cons_append, List.cons.injEq] at has
      exact absurd trivial (ha' (.ask (.getModuleInfo peer (some (.ok info)))) (by simp [has.2]))

theorem VerdictsSound.append (h : VerdictsSound isTrue trace)
    (hseg : ∀ e ∈ seg, ¬ e.IsVerdict) : VerdictsSound isTrue (trace ++ seg) := by
  intro earlier key peer ok later htrace
  rcases List.append_eq_append_iff.mp htrace with ⟨as, -, has⟩ | ⟨as, has, has'⟩
  · exact absurd trivial (hseg (.recordBadDescriptor key peer ok) (by simp [has]))
  · cases as with
    | nil =>
      rw [List.nil_append] at has'
      exact absurd trivial (hseg (.recordBadDescriptor key peer ok) (by simp [← has']))
    | cons e as =>
      rw [List.cons_append, List.cons.injEq] at has'
      exact h earlier key peer ok as (by rw [has, has'.1])

theorem VerdictsSound.record (h : VerdictsSound isTrue trace)
    (hlast : LastDescriptor trace peer info) (hfalse : ¬ isTrue info) (key : String) (ok : Bool) :
    VerdictsSound isTrue (trace ++ [.recordBadDescriptor key peer ok]) := by
  intro earlier key' peer' ok' later htrace
  rcases List.append_eq_append_iff.mp htrace with ⟨as, has, has'⟩ | ⟨as, has, has'⟩
  · cases as with
    | nil =>
      rw [List.nil_append, List.cons.injEq] at has'
      rw [List.append_nil] at has
      have hpeer : peer = peer' := by simpa using (Effect.recordBadDescriptor.inj has'.1).2.1
      subst hpeer
      exact ⟨info, has ▸ hlast, hfalse⟩
    | cons e as => simp at has'
  · cases as with
    | nil =>
      rw [List.nil_append, List.cons.injEq] at has'
      rw [List.append_nil] at has
      have hpeer : peer' = peer := (Effect.recordBadDescriptor.inj has'.1).2.1
      subst hpeer
      exact ⟨info, has ▸ hlast, hfalse⟩
    | cons e as =>
      rw [List.cons_append, List.cons.injEq] at has'
      exact h earlier key' peer' ok' as (by rw [has, has'.1])

theorem AlwaysBranded.append (h : AlwaysBranded kind trace)
    (hseg : ∀ e ∈ seg, ¬ e.IsDescriptor) : AlwaysBranded kind (trace ++ seg) := by
  intro before peer info after htrace hkind
  rcases List.append_eq_append_iff.mp htrace with ⟨as, -, has⟩ | ⟨as, has, has'⟩
  · exact absurd trivial (hseg (.ask (.getModuleInfo peer (some (.ok info)))) (by simp [has]))
  · cases as with
    | nil =>
      rw [List.nil_append] at has'
      exact absurd trivial (hseg (.ask (.getModuleInfo peer (some (.ok info))))
        (by simp [← has']))
    | cons e as =>
      rw [List.cons_append, List.cons.injEq] at has'
      obtain ⟨between, key, ok, later, rfl, hbetween⟩ :=
        h before peer info as (by rw [has, has'.1]) hkind
      exact ⟨between, key, ok, later ++ seg, by simp [has'.2], hbetween⟩

/-- A new descriptor, and what was done under it: either it is not of the kind, or its
holder got a verdict. -/
theorem AlwaysBranded.attempt (h : AlwaysBranded kind trace)
    (hseg : ∀ e ∈ seg, ¬ e.IsDescriptor)
    (hkind : kind info → ∃ key ok, Effect.recordBadDescriptor key peer ok ∈ seg) :
    AlwaysBranded kind (trace ++ .ask (.getModuleInfo peer (some (.ok info))) :: seg) := by
  intro before peer' info' after htrace hkind'
  rcases List.append_eq_append_iff.mp htrace with ⟨as, has, has'⟩ | ⟨as, has, has'⟩
  · cases as with
    | nil =>
      rw [List.nil_append, List.cons.injEq] at has'
      obtain ⟨rfl, rfl⟩ : peer = peer' ∧ info = info' := by simpa using has'.1
      obtain ⟨key, ok, hmem⟩ := hkind hkind'
      obtain ⟨between, later, hsplit⟩ := List.append_of_mem hmem
      exact ⟨between, key, ok, later, by rw [← has'.2, hsplit],
        fun e he => hseg e (by simp [hsplit, he])⟩
    | cons e as =>
      rw [List.cons_append, List.cons.injEq] at has'
      exact absurd trivial (hseg (.ask (.getModuleInfo peer' (some (.ok info'))))
        (by simp [has'.2]))
  · cases as with
    | nil =>
      rw [List.nil_append, List.cons.injEq] at has'
      obtain ⟨rfl, rfl⟩ : peer' = peer ∧ info' = info := by simpa using has'.1
      obtain ⟨key, ok, hmem⟩ := hkind hkind'
      obtain ⟨between, later, hsplit⟩ := List.append_of_mem hmem
      exact ⟨between, key, ok, later, by rw [has'.2, hsplit],
        fun e he => hseg e (by simp [hsplit, he])⟩
    | cons e as =>
      rw [List.cons_append, List.cons.injEq] at has'
      obtain ⟨between, key, ok, later, rfl, hbetween⟩ :=
        h before peer' info' as (by rw [has, has'.1]) hkind'
      exact ⟨between, key, ok, later ++ .ask (.getModuleInfo peer (some (.ok info))) :: seg,
        by simp [has'.2], hbetween⟩

end Traces

/-! ## The run -/

section Run

variable {seams : ModuleSeams} {c : Capsule} {isModule : Bytes → Prop} {info : ModuleInfo}
  {w w' : PullWorld}

/-- A true descriptor that this node cannot take. -/
def BeyondLimits (seams : ModuleSeams) (isModule : Bytes → Prop) (info : ModuleInfo) : Prop :=
  IsTrueDescriptor seams.sha256 isModule info ∧ ¬ WithinLimits seams.config info

/-- What a pull says about a true descriptor: proven false exactly beyond the limits. -/
theorem wp_pullWithDescriptor_verdict (hanchor : AnchorNeverDenies seams c isModule)
    (w : PullWorld) :
    wp (pullWithDescriptor seams c info)
      (fun _ _ => ¬ BeyondLimits seams isModule info)
      (fun f w' => (BeyondLimits seams isModule info → f.isProvenFalse = true) ∧
        ((∀ module, isModule module → NoCollision seams.sha256 w'.trace module) →
          IsTrueDescriptor seams.sha256 isModule info → WithinLimits seams.config info →
          f.isProvenFalse = false)) w := by
  have hbeyond : BeyondLimits seams isModule info →
      ¬ ChunkPlan.Acceptable info seams.config.maxModuleSize := by
    rintro ⟨⟨module, -, hd⟩, hlim⟩ ha
    exact hlim (hd.acceptable_iff.mp ha)
  refine wp_iff.mpr ⟨fun n hn hb => ?_, fun f hf => ⟨fun hb => ?_, ?_⟩⟩
  · exact (wp_pullWithDescriptor_unacceptable (hbeyond hb) w).ok hn
  · exact (wp_pullWithDescriptor_unacceptable (hbeyond hb) w).error hf
  · rintro hno ⟨module, hmodule, hd⟩ hlim
    exact (wp_pullWithDescriptor_true hd hmodule hanchor hlim w).error hf (hno module hmodule)

/-- The ledger of verdicts: sound as long as nothing collided and every true descriptor
obtained was within the limits, and complete on the true descriptors beyond them. -/
structure Ledger (seams : ModuleSeams) (isModule : Bytes → Prop) (w : PullWorld) : Prop where
  sound : (∀ module, isModule module → NoCollision seams.sha256 w.trace module) →
    (∀ peer info, Effect.ask (.getModuleInfo peer (some (.ok info))) ∈ w.trace →
      ¬ BeyondLimits seams isModule info) →
    VerdictsSound (IsTrueDescriptor seams.sha256 isModule) w.trace
  branded : AlwaysBranded (BeyondLimits seams isModule) w.trace

/-- Effects that obtain no descriptor and record no verdict leave the ledger as it is. -/
theorem Ledger.extend {seg : List (Effect ModuleAsk)} (h : Ledger seams isModule w)
    (htrace : w'.trace = w.trace ++ seg)
    (hseg : ∀ e ∈ seg, ¬ e.IsDescriptor ∧ ¬ e.IsVerdict) : Ledger seams isModule w' := by
  have hsub : ∀ e ∈ w.trace, e ∈ w'.trace := fun e he => by
    rw [htrace]
    exact List.mem_append_left _ he
  refine ⟨fun hno hlim => ?_, ?_⟩
  · rw [htrace]
    exact (h.sound (fun module hm => (hno module hm).of_subset hsub)
      fun peer info hmem => hlim peer info (hsub _ hmem)).append fun e he => (hseg e he).2
  · rw [htrace]
    exact h.branded.append fun e he => (hseg e he).1

/-- A new descriptor and the pull under it. -/
theorem Ledger.attempt {peer : String} {seg : List (Effect ModuleAsk)}
    (h : Ledger seams isModule w)
    (htrace : w'.trace = w.trace ++ .ask (.getModuleInfo peer (some (.ok info))) :: seg)
    (hseg : ∀ e ∈ seg, ¬ e.IsDescriptor ∧ ¬ e.IsVerdict)
    (hlim : ¬ BeyondLimits seams isModule info) : Ledger seams isModule w' := by
  have hsub : ∀ e ∈ w.trace, e ∈ w'.trace := fun e he => by
    rw [htrace]
    exact List.mem_append_left _ he
  refine ⟨fun hno hlim' => ?_, ?_⟩
  · rw [htrace]
    refine (h.sound (fun module hm => (hno module hm).of_subset hsub)
      fun peer info hmem => hlim' peer info (hsub _ hmem)).append fun e he => ?_
    rcases List.mem_cons.mp he with rfl | he
    · exact id
    · exact (hseg e he).2
  · rw [htrace]
    exact h.branded.attempt (fun e he => (hseg e he).1) fun hb => absurd hb hlim

/-- The same, when the pull proved the descriptor false and its holder got a verdict. -/
theorem Ledger.brand {peer key : String} {ok : Bool} {seg : List (Effect ModuleAsk)}
    (h : Ledger seams isModule w)
    (htrace : w'.trace = w.trace ++ .ask (.getModuleInfo peer (some (.ok info))) :: seg ++
      [.recordBadDescriptor key peer ok])
    (hseg : ∀ e ∈ seg, ¬ e.IsDescriptor ∧ ¬ e.IsVerdict)
    (hfalse : (∀ module, isModule module → NoCollision seams.sha256 w'.trace module) →
      WithinLimits seams.config info → ¬ IsTrueDescriptor seams.sha256 isModule info) :
    Ledger seams isModule w' := by
  have hsub : ∀ e ∈ w.trace, e ∈ w'.trace := fun e he => by
    rw [htrace, List.append_assoc]
    exact List.mem_append_left _ he
  refine ⟨fun hno hlim => ?_, ?_⟩
  · have hsound := h.sound (fun module hm => (hno module hm).of_subset hsub)
      fun peer info hmem => hlim peer info (hsub _ hmem)
    have hlast : LastDescriptor (w.trace ++ .ask (.getModuleInfo peer (some (.ok info))) :: seg)
        peer info := ⟨w.trace, seg, rfl, fun e he => (hseg e he).1⟩
    rw [htrace]
    refine (hsound.append fun e he => ?_).record hlast (fun htrue => ?_) key ok
    · rcases List.mem_cons.mp he with rfl | he
      · exact id
      · exact (hseg e he).2
    · have hmem : Effect.ask (.getModuleInfo peer (some (.ok info))) ∈ w'.trace := by
        simp [htrace]
      by_cases hw : WithinLimits seams.config info
      · exact hfalse hno hw htrue
      · exact hlim peer info hmem ⟨htrue, hw⟩
  · rw [htrace, List.append_assoc, List.cons_append]
    refine h.branded.attempt (fun e he => ?_) fun _ => ⟨key, ok, by simp⟩
    rcases List.mem_append.mp he with he | he
    · exact (hseg e he).1
    · rw [List.mem_singleton.mp he]
      exact id

theorem not_isBetween {e : Effect ModuleAsk} (h : ¬ e.IsBetween) :
    ¬ e.IsDescriptor ∧ ¬ e.IsVerdict := by
  constructor
  · intro hd
    unfold Effect.IsDescriptor at hd
    split at hd
    · exact h trivial
    · exact hd
  · intro hv
    unfold Effect.IsVerdict at hv
    split at hv
    · exact h trivial
    · exact hv

theorem isDescriptorAsk_not_isVerdict {e : Effect ModuleAsk} (h : e.IsDescriptorAsk) :
    ¬ e.IsVerdict := by
  intro hv
  unfold Effect.IsVerdict at hv
  split at hv
  · exact h
  · exact hv

/-- Every attempt keeps the ledger. -/
theorem wp_descriptorAttempt_ledger (hanchor : AnchorNeverDenies seams c isModule)
    (exclusions : DescriptorExclusions) (h : Ledger seams isModule w) :
    wp (descriptorAttempt seams c exclusions) (fun _ => Ledger seams isModule)
      (fun _ => Ledger seams isModule) w := by
  unfold descriptorAttempt
  rw [wp_bind, wp_read]
  dsimp only
  generalize exclusions.settle w.own = settled
  rw [wp_handle]
  refine (wp_fetchModuleInfo settled.excluded w).mono ?_ ?_
  · rintro ⟨peer, info⟩ w₁ ⟨-, -, asks, htrace₁, hasks, -⟩
    -- the ledger just before the descriptor came in
    have h₀ : Ledger seams isModule { w with trace := w.trace ++ asks } :=
      h.extend rfl fun e he => ⟨(hasks e he).2, isDescriptorAsk_not_isVerdict (hasks e he).1⟩
    dsimp only at htrace₁ ⊢
    rw [wp_handle]
    refine ((wp_pullWithDescriptor_verdict hanchor w₁).and
      ((steps_pullWithDescriptor closedUnderPull_appends).wp w₁)).mono ?_ ?_
    · rintro n w₂ ⟨hlim, seg, htrace₂, hseg⟩
      have htrace : w₂.trace = w.trace ++ asks ++
          .ask (.getModuleInfo peer (some (.ok info))) :: seg := by
        simp [htrace₂, htrace₁]
      exact h₀.attempt htrace (fun e he => not_isBetween (hseg e he)) hlim
    · rintro f w₂ ⟨⟨hbeyond, htrue⟩, seg, htrace₂, hseg⟩
      have htrace : w₂.trace = w.trace ++ asks ++
          .ask (.getModuleInfo peer (some (.ok info))) :: seg := by
        simp [htrace₂, htrace₁]
      have hkept : f.isProvenFalse = false → Ledger seams isModule w₂ := fun hf =>
        h₀.attempt htrace (fun e he => not_isBetween (hseg e he)) fun hb => by
          simp [hbeyond hb] at hf
      have hdemoted : ∀ w₃ : PullWorld, Ledger seams isModule w₃ →
          Ledger seams isModule (w₃.note (.ask (.demote peer))) := fun w₃ h₃ =>
        h₃.extend (World.note_trace _ _) (by simp [Effect.IsDescriptor, Effect.IsVerdict])
      have hrecord : ∀ (ok : Bool) (w₃ : PullWorld), f.isProvenFalse = true →
          w₃.trace = w₂.trace ++ [.recordBadDescriptor (moduleDownloadKey c) peer ok] →
          Ledger seams isModule w₃ := by
        intro ok w₃ hf htrace₃
        have htrace₃' : w₃.trace = w.trace ++ asks ++
            .ask (.getModuleInfo peer (some (.ok info))) :: seg ++
            [.recordBadDescriptor (moduleDownloadKey c) peer ok] := by
          rw [htrace₃, htrace]
        refine h₀.brand htrace₃' (fun e he => not_isBetween (hseg e he)) fun hno hlim htrue' => ?_
        have hno₂ : ∀ module, isModule module → NoCollision seams.sha256 w₂.trace module :=
          fun module hm => (hno module hm).of_subset fun e he => by
            rw [htrace₃]
            exact List.mem_append_left _ he
        rw [htrue hno₂ htrue' hlim] at hf
        cases hf
      cases f with
      | terminal e => exact hkept rfl
      | unsatisfiableDescriptor e => exact hdemoted _ (hkept rfl)
      | badDescriptor e =>
        refine (wp_bind _ _).mpr ((wp_ignoringFailure).mpr ?_)
        refine wp_storeRecordBadDescriptor (fun verdicts => ?_) (fun e' => ?_)
        · exact hdemoted _ (hrecord true _ rfl rfl)
        · exact hdemoted _ (hrecord false _ rfl rfl)
  · rintro e w₁ ⟨asks, htrace, hasks⟩
    exact h.extend htrace fun e he => ⟨(hasks e he).2, isDescriptorAsk_not_isVerdict (hasks e he).1⟩

theorem wp_attemptLoop_ledger (hanchor : AnchorNeverDenies seams c isModule) :
    ∀ (left : Nat) (exclusions : DescriptorExclusions) (w : PullWorld),
      Ledger seams isModule w →
      wp (attemptLoop seams c left exclusions) (fun _ => Ledger seams isModule)
        (fun _ => Ledger seams isModule) w
  | 0, exclusions, w, h => by
      unfold attemptLoop
      rw [wp_bind]
      refine (wp_descriptorAttempt_ledger hanchor exclusions h).mono (fun r w₁ hr => ?_)
        (fun _ _ he => he)
      cases r <;> exact hr
  | left + 1, exclusions, w, h => by
      unfold attemptLoop
      rw [wp_bind]
      refine (wp_descriptorAttempt_ledger hanchor exclusions h).mono (fun r w₁ hr => ?_)
        (fun _ _ he => he)
      cases r with
      | inl n => exact hr
      | inr failed =>
        dsimp only
        split
        · exact hr
        · exact wp_attemptLoop_ledger hanchor left failed.exclusions w₁ hr

theorem wp_download_ledger (hanchor : AnchorNeverDenies seams c isModule) (sink : Sink)
    (store : StateStore) :
    wp (download seams c) (fun _ => Ledger seams isModule) (fun _ => Ledger seams isModule)
      (PullWorld.fresh sink store) := by
  have hstart : Ledger seams isModule (PullWorld.fresh sink store) := by
    refine ⟨fun _ _ => ?_, ?_⟩
    · intro earlier key peer ok later htrace
      simp [PullWorld.fresh] at htrace
    · intro before peer info after htrace
      simp [PullWorld.fresh] at htrace
  have hnote : ∀ {w : PullWorld} {e : Effect ModuleAsk}, Ledger seams isModule w →
      ¬ e.IsDescriptor ∧ ¬ e.IsVerdict → Ledger seams isModule (w.note e) := fun h he =>
    h.extend (World.note_trace _ _) (by simpa using he)
  exact wp_download_of_invariant hstart (fun h => hnote h ⟨id, id⟩)
    (fun h => ⟨h.sound, h.branded⟩) (fun h => hnote h ⟨id, id⟩) id
    fun _ _ h => wp_attemptLoop_ledger hanchor _ _ _ h

/-- In a run without collisions, verdicts go to false descriptors only exactly when every
true descriptor that was obtained is within the limits of this node. -/
theorem verdictsSound_iff (seams : ModuleSeams) (c : Capsule) (sink : Sink) (store : StateStore)
    (isModule : Bytes → Prop) (hanchor : AnchorNeverDenies seams c isModule)
    (hno : ∀ module, isModule module → NoCollision seams.sha256
      (download seams c (PullWorld.fresh sink store)).2.trace module) :
    VerdictsSound (IsTrueDescriptor seams.sha256 isModule)
        (download seams c (PullWorld.fresh sink store)).2.trace ↔
      ∀ peer info, Effect.ask (.getModuleInfo peer (some (.ok info))) ∈
          (download seams c (PullWorld.fresh sink store)).2.trace →
        IsTrueDescriptor seams.sha256 isModule info → WithinLimits seams.config info := by
  have hledger : Ledger seams isModule (download seams c (PullWorld.fresh sink store)).2 := by
    have hrun := wp_iff.mp (wp_download_ledger hanchor sink store)
    cases hr : (download seams c (PullWorld.fresh sink store)).1 with
    | ok n => exact hrun.1 n hr
    | error e => exact hrun.2 e hr
  constructor
  · intro hsound peer info hmem htrue
    by_contra hlim
    obtain ⟨before, after, htrace⟩ := List.append_of_mem hmem
    obtain ⟨between, key, ok, later, rfl, hbetween⟩ :=
      hledger.branded before peer info after htrace ⟨htrue, hlim⟩
    -- the verdict that followed is against this very descriptor
    obtain ⟨info', hlast, hfalse⟩ := hsound
      (before ++ .ask (.getModuleInfo peer (some (.ok info))) :: between) key peer ok later
      (by simp [htrace])
    have hthis : LastDescriptor (before ++ .ask (.getModuleInfo peer (some (.ok info))) :: between)
        peer info := ⟨before, between, rfl, hbetween⟩
    obtain ⟨-, rfl⟩ := hlast.unique hthis
    exact hfalse htrue
  · intro hlim
    exact hledger.sound hno fun peer info hmem hb => hb.2 (hlim peer info hmem hb.1)

/-- The small capsule with a liar in front: its descriptor gives the module a wrong hash. -/
def lyingSeams : ModuleSeams :=
  { smallSeams with
    findProviders := fun _ _ => .ok [{ providerPeerId := holderB, addresses := [] },
      { providerPeerId := holderA, addresses := [] }]
    getModuleInfo := fun _ peer _ => some (.ok (if peer = holderB then
      { smallInfo [3] with moduleHash := hexOf (smallSha256 [9]) } else smallInfo [3])) }

theorem lyingSeams_verdictsSound :
    VerdictsSound (IsTrueDescriptor smallSha256 (· = smallModule))
      (download lyingSeams smallCapsule (PullWorld.fresh emptySink emptyStore)).2.trace := by
  refine (verdictsSound_iff lyingSeams smallCapsule emptySink emptyStore (· = smallModule)
    (smallVerifier_neverDenies fun _ _ => rfl)
    (fun module _ => noCollision_of_tabled (by decide +kernel) module)).mpr ?_
  rintro peer info hmem ⟨module, -, hd⟩
  have hinfos : info ∈ [{ smallInfo [3] with moduleHash := hexOf (smallSha256 [9]) },
      smallInfo [3]] := mem_of_obtainsOnly (by decide +kernel) hmem
  simp only [List.mem_cons, List.not_mem_nil, or_false] at hinfos
  rcases hinfos with rfl | rfl <;> exact ⟨by decide, by decide, by decide +kernel⟩

/-- The small capsule on a node that takes two bytes at most. -/
def tightSeams : ModuleSeams :=
  { smallSeams with config := {
      rangeTimeout := 30 * 10 ^ 9, maxModuleSize := 2, maxModuleSize_le := by decide } }

/-- There the honest holder is branded for its true descriptor: nothing collides and the
anchor verifier denies nothing. -/
theorem tightSeams_brands_honest :
    AnchorNeverDenies tightSeams smallCapsule (· = smallModule) ∧
    (∀ module, NoCollision smallSha256
      (download tightSeams smallCapsule (PullWorld.fresh emptySink emptyStore)).2.trace module) ∧
    ¬ VerdictsSound (IsTrueDescriptor smallSha256 (· = smallModule))
      (download tightSeams smallCapsule (PullWorld.fresh emptySink emptyStore)).2.trace := by
  refine ⟨smallVerifier_neverDenies fun _ _ => rfl,
    fun module => noCollision_of_tabled (by decide +kernel) module, fun hsound => ?_⟩
  generalize htrace : (download tightSeams smallCapsule
    (PullWorld.fresh emptySink emptyStore)).2.trace = trace at hsound
  have hverdict : trace.any (fun
      | .recordBadDescriptor _ _ _ => true
      | _ => false) = true := by
    rw [← htrace]
    decide +kernel
  have honly : obtainsOnly [smallInfo [3]] trace = true := by
    rw [← htrace]
    decide +kernel
  obtain ⟨e, hmem, he⟩ := List.any_eq_true.mp hverdict
  split at he
  · rename_i key peer ok
    obtain ⟨earlier, later, hsplit⟩ := List.append_of_mem hmem
    obtain ⟨info, ⟨before, after, hearlier, -⟩, hfalse⟩ := hsound earlier key peer ok later hsplit
    have hobtained : Effect.ask (.getModuleInfo peer (some (.ok info))) ∈ trace := by
      simp [hsplit, hearlier]
    rw [List.mem_singleton.mp (mem_of_obtainsOnly honly hobtained)] at hfalse
    exact hfalse ⟨smallModule, rfl, smallInfo_describes⟩
  · cases he

end Run

end DigDownload
