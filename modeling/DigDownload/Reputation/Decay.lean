import DigDownload.Reputation.Record

/-!
# How long a verdict stands

A verdict is live until the clock shows more than `BAD_DESCRIPTOR_TTL` past its timestamp.
A timestamp taken while the clock was ahead is in the future of the readings that follow,
and the verdict stays live until the clock has caught up with it and passed it.
-/

namespace DigDownload

/-! ## Runs of clock readings -/

/-- What reads the clock: recording a verdict, or asking which ones are live. -/
inductive ReputationStep where
  | record (peerId : String) (now : Nat)
  | ask (now : Nat)
  deriving DecidableEq, Repr

namespace ReputationStep

/-- What the clock shows at the step. -/
def now : ReputationStep → Nat
  | .record _ now => now
  | .ask now => now

/-- The record after the step. -/
def apply (verdicts : List BadDescriptorVerdict) : ReputationStep → List BadDescriptorVerdict
  | .record peerId now => recordVerdict verdicts peerId now
  | .ask _ => verdicts

/-- The step records a new verdict of the peer. -/
def Refreshes (peerId : String) : ReputationStep → Prop
  | .record other _ => other = peerId
  | .ask _ => False

end ReputationStep

/-- The record after some steps. -/
def afterSteps (verdicts : List BadDescriptorVerdict) (steps : List ReputationStep) :
    List BadDescriptorVerdict :=
  steps.foldl ReputationStep.apply verdicts

/-- In every run that starts with a reading of `first` and does not refresh the verdict, asking
while the clock shows more than the TTL past `first` does not find it live; and the verdict is
not live at every reading a clock can show. -/
def Decays (verdicts : List BadDescriptorVerdict) (peerId : String) (recorded first : Nat) :
    Prop :=
  (∀ steps : List ReputationStep, steps.head?.map ReputationStep.now = some first →
    (∀ step ∈ steps, ¬ step.Refreshes peerId) →
    ∀ before now after, steps = before ++ .ask now :: after → now ≤ u64Max →
      first + badDescriptorTtl < now →
      peerId ∉ livePeers (afterSteps (recordVerdict verdicts peerId recorded) before) now) ∧
  ∃ now ≤ u64Max, peerId ∉ livePeers (recordVerdict verdicts peerId recorded) now

/-! ## Liveness of one verdict -/

theorem mem_livePeers {verdicts : List BadDescriptorVerdict} {peerId : String} {now : Nat} :
    peerId ∈ livePeers verdicts now ↔
      ∃ verdict ∈ verdicts, verdict.peerId = peerId ∧
        now ≤ verdict.recordedAtUnix + badDescriptorTtl := by
  simp only [livePeers, List.mem_map, List.mem_filter, isExpired, Bool.not_eq_true',
    decide_eq_false_iff_not, Nat.not_lt]
  constructor
  · rintro ⟨verdict, ⟨hmem, hage⟩, hid⟩
    exact ⟨verdict, hmem, hid, by omega⟩
  · rintro ⟨verdict, hmem, hid, hage⟩
    exact ⟨verdict, ⟨hmem, by omega⟩, hid⟩

theorem mem_recordVerdict {verdicts : List BadDescriptorVerdict} {peerId : String} {now : Nat}
    {verdict : BadDescriptorVerdict} (h : verdict ∈ recordVerdict verdicts peerId now)
    (hhex : isHexPeerId peerId) :
    verdict = ⟨peerId, now⟩ ∨ verdict ∈ verdicts ∧ verdict.peerId ≠ peerId := by
  rw [recordVerdict_eq_put hhex] at h
  rcases Recency.mem_joined.mp (Recency.put_sublist.subset h) with ⟨hmem, -, hother⟩ | hnew
  · exact Or.inr ⟨hmem, hother⟩
  · exact Or.inl hnew

/-- What a recording leaves of another peer was there before. -/
theorem mem_of_mem_recordVerdict {verdicts : List BadDescriptorVerdict} {other : String}
    {now : Nat} {verdict : BadDescriptorVerdict} (h : verdict ∈ recordVerdict verdicts other now)
    (hother : other ≠ verdict.peerId) : verdict ∈ verdicts := by
  by_cases hhex : isHexPeerId other
  · rcases mem_recordVerdict h hhex with rfl | hold
    · exact absurd rfl hother
    · exact hold.1
  · rwa [recordVerdict_of_not_hex hhex] at h

/-- A verdict that is recorded is there right after. -/
theorem mem_recordVerdict_self {peerId : String} (hhex : isHexPeerId peerId)
    (verdicts : List BadDescriptorVerdict) (now : Nat) :
    ⟨peerId, now⟩ ∈ recordVerdict verdicts peerId now := by
  rw [recordVerdict_eq_put hhex]
  exact Recency.entry_mem_put (by decide)

/-! ## Decay -/

/-- The verdicts of one peer keep their timestamp while none of them is refreshed. -/
theorem recordedAt_of_not_refreshed {verdicts : List BadDescriptorVerdict} {peerId : String}
    {recorded : Nat} {steps : List ReputationStep}
    (hrecorded : ∀ v ∈ verdicts, v.peerId = peerId → v.recordedAtUnix = recorded)
    (hsteps : ∀ step ∈ steps, ¬ step.Refreshes peerId) :
    ∀ v ∈ afterSteps verdicts steps, v.peerId = peerId → v.recordedAtUnix = recorded := by
  induction steps generalizing verdicts with
  | nil => exact hrecorded
  | cons step steps ih =>
    refine ih ?_ fun s hs => hsteps s (List.mem_cons_of_mem _ hs)
    have hstep := hsteps step List.mem_cons_self
    cases step with
    | record other now =>
      intro v hv hid
      refine hrecorded v (mem_of_mem_recordVerdict hv ?_) hid
      rw [hid]
      exact hstep
    | ask now => exact hrecorded

theorem not_live_of_advance {verdicts : List BadDescriptorVerdict} {peerId : String}
    {recorded now : Nat}
    (hrecorded : ∀ v ∈ verdicts, v.peerId = peerId → v.recordedAtUnix = recorded)
    (hnow : recorded + badDescriptorTtl < now) : peerId ∉ livePeers verdicts now := by
  intro hlive
  obtain ⟨v, hv, hid, hage⟩ := mem_livePeers.mp hlive
  have := hrecorded v hv hid
  omega

/-- A verdict is live at every reading up to the TTL past its timestamp. -/
theorem live_of_le {peerId : String} (hhex : isHexPeerId peerId)
    (verdicts : List BadDescriptorVerdict) {recorded now : Nat}
    (hnow : now ≤ recorded + badDescriptorTtl) :
    peerId ∈ livePeers (recordVerdict verdicts peerId recorded) now :=
  mem_livePeers.mpr ⟨_, mem_recordVerdict_self hhex verdicts recorded, rfl, hnow⟩

theorem recordedAt_recordVerdict {peerId : String} (hhex : isHexPeerId peerId)
    (verdicts : List BadDescriptorVerdict) (recorded : Nat) :
    ∀ v ∈ recordVerdict verdicts peerId recorded, v.peerId = peerId →
      v.recordedAtUnix = recorded := by
  intro v hv hid
  rcases mem_recordVerdict hv hhex with rfl | ⟨-, hother⟩
  · rfl
  · exact absurd hid hother

/-- With a first reading behind the timestamp, the verdict outlives the TTL. -/
theorem not_decays_of_ahead {peerId : String} (hhex : isHexPeerId peerId)
    (verdicts : List BadDescriptorVerdict) {recorded first : Nat} (hahead : first < recorded)
    (hrecorded : recorded + badDescriptorTtl < u64Max) :
    ¬ Decays verdicts peerId recorded first := by
  intro h
  refine h.1 [.ask first, .ask (first + badDescriptorTtl + 1)] rfl ?_ [.ask first]
    (first + badDescriptorTtl + 1) [] rfl (by omega) (by omega) ?_
  · intro step hstep
    rcases List.mem_pair.mp hstep with rfl | rfl <;> exact id
  · exact live_of_le hhex verdicts (by omega)

/-- A verdict decays with the clock's advance since the first reading exactly when that
reading is not behind its timestamp and a clock can pass the timestamp by the TTL. -/
theorem decays_iff (verdicts : List BadDescriptorVerdict) (peerId : String)
    (recorded first : Nat) (hhex : isHexPeerId peerId) :
    Decays verdicts peerId recorded first ↔
      recorded ≤ first ∧ recorded + badDescriptorTtl < u64Max := by
  constructor
  · intro h
    have hpasses : recorded + badDescriptorTtl < u64Max := by
      obtain ⟨now, hnow, hdead⟩ := h.2
      by_contra hfull
      exact hdead (live_of_le hhex verdicts (by omega))
    refine ⟨?_, hpasses⟩
    by_contra hahead
    exact not_decays_of_ahead hhex verdicts (by omega) hpasses h
  · intro h
    obtain ⟨hle, hpasses⟩ := h
    constructor
    · intro steps hfirst hsteps before now after hsplit hnow hadvance
      refine not_live_of_advance (recordedAt_of_not_refreshed
        (recordedAt_recordVerdict hhex verdicts recorded) fun step hstep => ?_) (by omega)
      exact hsteps step (by rw [hsplit]; exact List.mem_append_left _ hstep)
    · exact ⟨recorded + badDescriptorTtl + 1, hpasses,
        not_live_of_advance (recordedAt_recordVerdict hhex verdicts recorded) (by omega)⟩

/-- The peer of the examples. -/
def somePeerId : String := String.ofList (List.replicate 64 'a')

theorem decays_iff_steady :
    Decays [] somePeerId 1700000000 1700000060 ↔
      1700000000 ≤ 1700000060 ∧ 1700000000 + badDescriptorTtl < u64Max :=
  decays_iff [] somePeerId 1700000000 1700000060 (by decide)

/-- Recorded while the clock showed a year too much, the verdict is live a day and more after
the clock was set right. -/
theorem outlives_clock_step : ¬ Decays [] somePeerId 1731536000 1700000000 :=
  not_decays_of_ahead (by decide) [] (by decide) (by decide)

end DigDownload
