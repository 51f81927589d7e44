import DigDownload.Lib.Recency
import DigDownload.Progress

/-!
# The verdict record over many calls

`record_verdict` is called with whatever id came off the wire and whatever the clock
shows. The record it builds is a bounded list in order of latest recording, so a holder
leaves it only by expiry, by a new verdict or behind a full list of others. How long a
verdict stands is counted from its timestamp, which need not be when the clock was first
read after it.
-/

namespace DigDownload

/-! ## Calls of `record_verdict` -/

/-- The arguments of one call of `record_verdict`. -/
structure RecordCall where
  peerId : String
  now : Nat
  deriving DecidableEq, Repr

/-- The record after a sequence of calls, none of them made before. -/
def recordAll (calls : List RecordCall) : List BadDescriptorVerdict :=
  calls.foldl (fun verdicts call => recordVerdict verdicts call.peerId call.now) []

/-- The calls that record: those whose id is 64 hex digits. -/
def recordings (calls : List RecordCall) : List RecordCall :=
  calls.filter fun call => isHexPeerId call.peerId

/-- The latest recording of `peerId` is the one at `n`. -/
def LatestRecording (calls : List RecordCall) (n : Nat) (peerId : String) : Prop :=
  (recordings calls)[n]?.map RecordCall.peerId = some peerId ∧
    ∀ m call, n < m → (recordings calls)[m]? = some call → call.peerId ≠ peerId

/-- The verdict a call records. -/
def RecordCall.verdict (call : RecordCall) : BadDescriptorVerdict :=
  { peerId := call.peerId, recordedAtUnix := call.now }

/-- A verdict of `call` is gone for a reason when a later recording expired it or is of the
same id, or when as many others as the record holds were recorded since. -/
def GoneForReason (call : RecordCall) (later : List RecordCall) : Prop :=
  (∃ other ∈ later, isExpired call.verdict other.now ∨ other.peerId = call.peerId) ∨
    maxBadDescriptorPeers ≤ ((later.map RecordCall.peerId).toFinset.erase call.peerId).card

/-- What holds of the record after `calls`. -/
structure WellKept (calls : List RecordCall) (verdicts : List BadDescriptorVerdict) : Prop where
  bounded : verdicts.length ≤ maxBadDescriptorPeers
  hex : ∀ verdict ∈ verdicts, isHexPeerId verdict.peerId
  nodup : (verdicts.map (·.peerId)).Nodup
  dated : ∀ verdict ∈ verdicts, ∃ n call, (recordings calls)[n]? = some call ∧
    call.verdict = verdict ∧ LatestRecording calls n verdict.peerId
  sorted : verdicts.Pairwise fun v w =>
    ∀ m n, LatestRecording calls m v.peerId → LatestRecording calls n w.peerId → m < n
  kept : ∀ before call later, recordings calls = before ++ call :: later →
    call.verdict ∈ verdicts ∨ GoneForReason call later

/-! ## The record as a bounded list -/

/-- A recording puts its verdict in and finds stale what has expired by then. -/
def RecordCall.toPut (call : RecordCall) : Recency.Put BadDescriptorVerdict :=
  { entry := call.verdict, stale := fun verdict => isExpired verdict call.now }

@[simp] theorem RecordCall.toPut_entry (call : RecordCall) : call.toPut.entry = call.verdict := rfl

theorem recordVerdict_eq_put {peerId : String} (h : isHexPeerId peerId)
    (verdicts : List BadDescriptorVerdict) (now : Nat) :
    recordVerdict verdicts peerId now =
      Recency.put BadDescriptorVerdict.peerId maxBadDescriptorPeers verdicts
        (RecordCall.toPut ⟨peerId, now⟩) := by
  rw [recordVerdict, if_pos h]
  rfl

theorem recordVerdict_of_not_hex {peerId : String} (h : ¬ isHexPeerId peerId)
    (verdicts : List BadDescriptorVerdict) (now : Nat) :
    recordVerdict verdicts peerId now = verdicts := by
  rw [recordVerdict, if_neg h]

theorem recordings_concat_of_hex {calls : List RecordCall} {call : RecordCall}
    (h : isHexPeerId call.peerId) : recordings (calls ++ [call]) = recordings calls ++ [call] := by
  simp [recordings, h]

theorem recordings_concat_of_not_hex {calls : List RecordCall} {call : RecordCall}
    (h : ¬ isHexPeerId call.peerId) : recordings (calls ++ [call]) = recordings calls := by
  simp [recordings, h]

theorem recordAll_concat (calls : List RecordCall) (call : RecordCall) :
    recordAll (calls ++ [call]) = recordVerdict (recordAll calls) call.peerId call.now := by
  rw [recordAll, List.foldl_append]
  rfl

theorem recordAll_eq_puts (calls : List RecordCall) :
    recordAll calls = Recency.puts BadDescriptorVerdict.peerId maxBadDescriptorPeers
      ((recordings calls).map RecordCall.toPut) := by
  induction calls using List.reverseRecOn with
  | nil => rfl
  | append_singleton calls call ih =>
    rw [recordAll_concat]
    by_cases hhex : isHexPeerId call.peerId
    · rw [recordVerdict_eq_put hhex, ih, recordings_concat_of_hex hhex, List.map_append]
      exact Recency.puts_concat.symm
    · rw [recordVerdict_of_not_hex hhex, ih, recordings_concat_of_not_hex hhex]

/-- The position of a latest recording is that of the latest put. -/
theorem latestRecording_iff {calls : List RecordCall} {n : Nat} {peerId : String} :
    LatestRecording calls n peerId ↔
      Recency.Latest BadDescriptorVerdict.peerId
        ((recordings calls).map RecordCall.toPut) n peerId := by
  simp only [LatestRecording, Recency.Latest, List.getElem?_map, Option.map_eq_some_iff]
  constructor
  · intro h
    obtain ⟨⟨call, hcall, hid⟩, hlater⟩ := h
    constructor
    · exact ⟨call.toPut, ⟨call, hcall, rfl⟩, hid⟩
    · rintro m put hm ⟨other, hother, rfl⟩
      exact hlater m other hm hother
  · intro h
    obtain ⟨⟨put, ⟨call, hcall, rfl⟩, hid⟩, hlater⟩ := h
    constructor
    · exact ⟨call, hcall, hid⟩
    · intro m other hm hother
      exact hlater m other.toPut hm ⟨other, hother, rfl⟩

theorem isHexPeerId_of_mem_recordings {calls : List RecordCall} {call : RecordCall}
    (h : call ∈ recordings calls) : isHexPeerId call.peerId :=
  (List.mem_filter.mp h).2

/-- After any calls, with any ids and any clock readings, the record is well kept. -/
theorem recordAll_wellKept (calls : List RecordCall) : WellKept calls (recordAll calls) := by
  rw [recordAll_eq_puts]
  have hordered : Recency.Ordered BadDescriptorVerdict.peerId
      ((recordings calls).map RecordCall.toPut) (Recency.puts BadDescriptorVerdict.peerId
        maxBadDescriptorPeers ((recordings calls).map RecordCall.toPut)) := Recency.ordered_puts
  have hdated : ∀ verdict ∈ Recency.puts BadDescriptorVerdict.peerId maxBadDescriptorPeers
      ((recordings calls).map RecordCall.toPut),
      ∃ n call, (recordings calls)[n]? = some call ∧ call.verdict = verdict ∧
        LatestRecording calls n verdict.peerId := by
    intro verdict hverdict
    obtain ⟨n, put, hput, hentry, hlatest⟩ := hordered.latest verdict hverdict
    rw [List.getElem?_map, Option.map_eq_some_iff] at hput
    obtain ⟨call, hcall, rfl⟩ := hput
    exact ⟨n, call, hcall, hentry, latestRecording_iff.mpr hlatest⟩
  constructor
  case bounded => exact Recency.length_puts_le
  case hex =>
    intro verdict hverdict
    obtain ⟨n, call, hcall, rfl, -⟩ := hdated verdict hverdict
    exact isHexPeerId_of_mem_recordings (List.mem_of_getElem? hcall)
  case nodup => exact hordered.nodup
  case dated => exact hdated
  case sorted =>
    refine hordered.sorted.imp ?_
    intro v w hvw m n hm hn
    exact hvw m n (latestRecording_iff.mp hm) (latestRecording_iff.mp hn)
  case kept =>
    intro before call later hsplit
    rw [hsplit, List.map_append, List.map_cons]
    rcases Recency.mem_puts_or BadDescriptorVerdict.peerId maxBadDescriptorPeers
      (before.map RecordCall.toPut) call.toPut (later.map RecordCall.toPut) with hmem |
        ⟨put, hput, hgone⟩ | hfull
    · exact Or.inl hmem
    · obtain ⟨other, hother, rfl⟩ := List.mem_map.mp hput
      exact Or.inr (Or.inl ⟨other, hother, hgone⟩)
    · rw [List.map_map] at hfull
      exact Or.inr (Or.inr hfull)

end DigDownload
