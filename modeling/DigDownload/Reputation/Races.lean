import DigDownload.Lib.Runs
import DigDownload.Reputation.Decay

/-!
# Recorders that race

Several pulls of one capsule record verdicts at the same time. The in-memory store holds
its lock for the whole call, so its calls come one after the other. The file-backed store
reads the sidecar, and later truncates it and writes it anew; a call that reads before
another one has written forgets what that one wrote, and whoever reads between the
truncation and the write finds nothing.
-/

namespace DigDownload

open Runs

/-! ## Recording with room to spare -/

section Room

variable {verdicts : List BadDescriptorVerdict} {peer other : String} {now : Nat}

/-- While there is room, a recording evicts nothing. -/
theorem recordVerdict_of_room (hhex : isHexPeerId peer)
    (hroom : verdicts.length < maxBadDescriptorPeers) :
    recordVerdict verdicts peer now =
      (verdicts.filter fun v => !isExpired v now && v.peerId != peer) ++ [⟨peer, now⟩] := by
  have hle := List.length_filter_le (fun v => !isExpired v now && v.peerId != peer) verdicts
  rw [recordVerdict, if_pos hhex]
  dsimp only
  rw [Nat.sub_eq_zero_of_le, List.drop_zero]
  rw [List.length_append, List.length_singleton]
  omega

theorem length_recordVerdict_of_room (hhex : isHexPeerId peer)
    (hroom : verdicts.length < maxBadDescriptorPeers) :
    (recordVerdict verdicts peer now).length ≤ verdicts.length + 1 := by
  rw [recordVerdict_of_room hhex hroom, List.length_append, List.length_singleton]
  exact Nat.succ_le_succ (List.length_filter_le _ _)

/-- Whoever was reported stays reported. -/
theorem livePeers_recordVerdict (hhex : isHexPeerId peer)
    (hroom : verdicts.length < maxBadDescriptorPeers) (h : other ∈ livePeers verdicts now) :
    other ∈ livePeers (recordVerdict verdicts peer now) now := by
  by_cases hsame : other = peer
  · subst hsame
    exact live_of_le hhex verdicts (by omega)
  · rw [recordVerdict_of_room hhex hroom]
    obtain ⟨v, hv, hid, hage⟩ := mem_livePeers.mp h
    refine mem_livePeers.mpr ⟨v, List.mem_append_left _ (List.mem_filter.mpr ⟨hv, ?_⟩), hid, hage⟩
    simp only [isExpired, Bool.and_eq_true, Bool.not_eq_true', decide_eq_false_iff_not,
      bne_iff_ne]
    exact ⟨by omega, fun he => hsame (hid.symm.trans he)⟩

end Room

/-- A record that the calls of `peers` at `now` can build on `before`: of each peer at most
one verdict, from the record before or of one of the calls. -/
structure IsRecordOf (before : List BadDescriptorVerdict) (peers : Finset String) (now : Nat)
    (verdicts : List BadDescriptorVerdict) : Prop where
  nodup : (verdicts.map (·.peerId)).Nodup
  origin : ∀ v ∈ verdicts, v ∈ before ∨ v.peerId ∈ peers ∧ v.recordedAtUnix = now

theorem IsRecordOf.recordVerdict {before verdicts : List BadDescriptorVerdict}
    {peers : Finset String} {peer : String} {now : Nat}
    (h : IsRecordOf before peers now verdicts) (hhex : isHexPeerId peer) (hpeer : peer ∈ peers) :
    IsRecordOf before peers now (recordVerdict verdicts peer now) where
  nodup := by
    rw [recordVerdict_eq_put hhex]
    exact (Recency.nodup_joined h.nodup).sublist (Recency.put_sublist.map _)
  origin := by
    intro v hv
    rcases mem_recordVerdict hv hhex with rfl | ⟨hold, -⟩
    · exact Or.inr ⟨hpeer, rfl⟩
    · exact h.origin v hold

/-- The answers of `bad_descriptor_peers`, one after the other, lose nobody. -/
def SteadyReports (reports : List (List String)) : Prop :=
  reports.Pairwise fun earlier later => ∀ peer ∈ earlier, peer ∈ later

theorem SteadyReports.concat {reports : List (List String)} {report : List String}
    (h : SteadyReports reports) (hreport : ∀ earlier ∈ reports, ∀ peer ∈ earlier, peer ∈ report) :
    SteadyReports (reports ++ [report]) := by
  rw [SteadyReports, List.pairwise_append]
  refine ⟨h, by simp, ?_⟩
  intro earlier hearlier later hlater
  rw [List.mem_singleton.mp hlater]
  exact hreport earlier hearlier

/-! ## The in-memory store -/

/-- The verdicts of one target in memory, the calls that have returned, and what was
reported. -/
structure MemoryRace where
  verdicts : List BadDescriptorVerdict
  recorded : Finset String
  reports : List (List String)

/-- A call under the lock. -/
inductive MemoryAct where
  | record (peer : String)
  | ask

namespace MemoryRace

def start (verdicts : List BadDescriptorVerdict) : MemoryRace := ⟨verdicts, ∅, []⟩

/-- One call, from taking the lock to releasing it. -/
def step (peers : Finset String) (now : Nat) (s : MemoryRace) : MemoryAct → Option MemoryRace
  | .record peer =>
      if peer ∈ peers ∧ peer ∉ s.recorded then
        some { s with
          verdicts := recordVerdict s.verdicts peer now
          recorded := insert peer s.recorded }
      else none
  | .ask => some { s with reports := s.reports ++ [livePeers s.verdicts now] }

/-- Nobody recorded is missing, and nobody reported has disappeared. -/
structure NoneLost (now : Nat) (s : MemoryRace) : Prop where
  recorded : ∀ peer ∈ s.recorded, peer ∈ livePeers s.verdicts now
  steady : SteadyReports s.reports

/-- What every call keeps: there is room for the calls to come. -/
structure Roomy (peers : Finset String) (now : Nat) (s : MemoryRace) : Prop
    extends NoneLost now s where
  subset : s.recorded ⊆ peers
  room : s.verdicts.length + (peers.card - s.recorded.card) ≤ maxBadDescriptorPeers
  told : ∀ report ∈ s.reports, ∀ peer ∈ report, peer ∈ livePeers s.verdicts now

variable {peers : Finset String} {now : Nat} {s s' : MemoryRace} {act : MemoryAct}

theorem roomy_step (hhex : ∀ peer ∈ peers, isHexPeerId peer) (h : s.Roomy peers now)
    (hstep : step peers now s act = some s') : s'.Roomy peers now := by
  cases act with
  | record peer =>
    rw [step, Option.ite_none_right_eq_some] at hstep
    obtain ⟨⟨hpeer, hnew⟩, hstep⟩ := hstep
    cases hstep
    have hcard := Finset.card_insert_of_notMem hnew
    have hsub : insert peer s.recorded ⊆ peers := Finset.insert_subset hpeer h.subset
    have hle := Finset.card_le_card hsub
    have hroom := h.room
    have hfits : s.verdicts.length < maxBadDescriptorPeers := by omega
    have hlen : (recordVerdict s.verdicts peer now).length ≤ s.verdicts.length + 1 :=
      length_recordVerdict_of_room (hhex peer hpeer) hfits
    constructor
    case subset => exact hsub
    case room =>
      show (recordVerdict s.verdicts peer now).length + (peers.card - (insert peer s.recorded).card)
        ≤ maxBadDescriptorPeers
      omega
    case told =>
      intro report hreport q hq
      exact livePeers_recordVerdict (hhex peer hpeer) hfits (h.told report hreport q hq)
    case toNoneLost =>
      refine ⟨fun q hq => ?_, h.steady⟩
      rcases Finset.mem_insert.mp hq with rfl | hq
      · exact live_of_le (hhex q hpeer) _ (by omega)
      · exact livePeers_recordVerdict (hhex peer hpeer) hfits (h.recorded q hq)
  | ask =>
    cases hstep
    constructor
    case subset => exact h.subset
    case room => exact h.room
    case told =>
      intro report hreport q hq
      rcases List.mem_append.mp hreport with hold | hnew
      · exact h.told report hold q hq
      · rwa [List.mem_singleton.mp hnew] at hq
    case toNoneLost => exact ⟨h.recorded, h.steady.concat h.told⟩

theorem roomy_start {verdicts : List BadDescriptorVerdict}
    (hroom : verdicts.length + peers.card ≤ maxBadDescriptorPeers) :
    (start verdicts).Roomy peers now where
  recorded := by simp [start]
  steady := List.Pairwise.nil
  subset := Finset.empty_subset _
  room := by simpa [start] using hroom
  told := by simp [start]

theorem noneLost_run (hhex : ∀ peer ∈ peers, isHexPeerId peer)
    {verdicts : List BadDescriptorVerdict}
    (hroom : verdicts.length + peers.card ≤ maxBadDescriptorPeers) {acts : List MemoryAct}
    (hrun : run (step peers now) (start verdicts) acts = some s) : s.NoneLost now := by
  have hinv : s.Roomy peers now :=
    invariant (fun _ _ _ h hstep => roomy_step hhex h hstep) (roomy_start hroom) hrun
  exact hinv.toNoneLost

end MemoryRace

/-! ## The file-backed store -/

/-- `serde_json` on a list of verdicts. -/
structure VerdictJson where
  encode : List BadDescriptorVerdict → Bytes
  decode : Bytes → Option (List BadDescriptorVerdict)

/-- What a record file that is absent or cannot be read counts as: no verdicts. -/
def VerdictJson.readVerdicts (json : VerdictJson) (file : Option Bytes) :
    List BadDescriptorVerdict :=
  (file.bind json.decode).getD []

/-- What `serde_json` promises of the records of a race: it reads back what it wrote, and an
empty file is no record. -/
structure VerdictJson.Reads (json : VerdictJson) (before : List BadDescriptorVerdict)
    (peers : Finset String) (now : Nat) : Prop where
  roundTrip : ∀ verdicts, IsRecordOf before peers now verdicts →
    json.decode (json.encode verdicts) = some verdicts
  empty : json.decode [] = none

/-- How far a call has come: it has not read yet, it has read and holds the new record, it
has truncated the file, or it has written it. -/
inductive RecordPhase where
  | called
  | computed (verdicts : List BadDescriptorVerdict)
  | truncated (verdicts : List BadDescriptorVerdict)
  | recorded
  deriving DecidableEq

/-- A call is between its read and its write. -/
def RecordPhase.InProgress : RecordPhase → Prop
  | .computed _ | .truncated _ => True
  | .called | .recorded => False

/-- The record file of one target, the calls by the peer that each of them records, and what
was reported. -/
structure FileRace where
  file : Option Bytes
  phase : String → RecordPhase
  reports : List (List String)

/-- One step of the call for a peer, or a call of `bad_descriptor_peers`. -/
inductive FileAct where
  | read (peer : String)
  | truncate (peer : String)
  | write (peer : String)
  | ask

namespace FileRace

def start (file : Option Bytes) : FileRace := ⟨file, fun _ => .called, []⟩

/-- The call for `peer` comes to a phase. -/
def advance (s : FileRace) (peer : String) (phase : RecordPhase) : FileRace :=
  { s with phase := Function.update s.phase peer phase }

variable (json : VerdictJson) (peers : Finset String) (now : Nat)

/-- `std::fs::write` truncates the file when it opens it, and writes from its start. -/
def step (s : FileRace) : FileAct → Option FileRace
  | .read peer =>
      if peer ∈ peers ∧ s.phase peer = .called then
        some (s.advance peer (.computed (recordVerdict (json.readVerdicts s.file) peer now)))
      else none
  | .truncate peer =>
      match s.phase peer with
      | .computed verdicts => some { s.advance peer (.truncated verdicts) with file := some [] }
      | _ => none
  | .write peer =>
      match s.phase peer with
      | .truncated verdicts =>
          let bytes := json.encode verdicts
          some { s.advance peer .recorded with
            file := some (bytes ++ (s.file.getD []).drop bytes.length) }
      | _ => none
  | .ask => some { s with reports := s.reports ++ [livePeers (json.readVerdicts s.file) now] }

/-- A call reads when no other one is between its read and its write; and whoever asks while
the file is truncated asks before anybody was reported. -/
def Alone (s : FileRace) : FileAct → Prop
  | .read _ => ∀ other, ¬ (s.phase other).InProgress
  | .ask => (∀ other verdicts, s.phase other ≠ .truncated verdicts) ∨
      ∀ report ∈ s.reports, report = []
  | .truncate _ | .write _ => True

/-- Nobody recorded is missing, unless the file is being written, and nobody reported has
disappeared. -/
structure NoneLost (s : FileRace) : Prop where
  recorded : (∀ other ∈ peers, ∀ verdicts, s.phase other ≠ .truncated verdicts) →
    ∀ peer ∈ peers, s.phase peer = .recorded → peer ∈ livePeers (json.readVerdicts s.file) now
  steady : SteadyReports s.reports

/-- The calls that have not returned. -/
def pending (s : FileRace) : Finset String := peers.filter fun peer => s.phase peer ≠ .recorded

/-- The calls have come one after the other, and `current` is the record they have built. -/
structure Serialized (before current : List BadDescriptorVerdict) (s : FileRace) : Prop where
  readable : (∀ other verdicts, s.phase other ≠ .truncated verdicts) →
    json.readVerdicts s.file = current
  alone : ∀ p q, (s.phase p).InProgress → (s.phase q).InProgress → p = q
  computed : ∀ p verdicts, s.phase p = .computed verdicts →
    p ∈ peers ∧ verdicts = recordVerdict current p now
  truncated : ∀ p verdicts, s.phase p = .truncated verdicts →
    p ∈ peers ∧ verdicts = recordVerdict current p now ∧ s.file = some []
  record : IsRecordOf before peers now current
  room : current.length + (s.pending peers).card ≤ maxBadDescriptorPeers
  live : ∀ p ∈ peers, s.phase p = .recorded → p ∈ livePeers current now
  told : ∀ report ∈ s.reports, ∀ p ∈ report, p ∈ livePeers current now
  steady : SteadyReports s.reports

variable {json peers now} {s s' : FileRace} {before current : List BadDescriptorVerdict}
  {act : FileAct} {peer : String} {phase : RecordPhase}

theorem advance_phase_self : (s.advance peer phase).phase peer = phase := by
  simp [advance]

theorem advance_phase_of_ne {other : String} (h : other ≠ peer) :
    (s.advance peer phase).phase other = s.phase other := by
  simp [advance, h]

/-- A call that comes to a phase short of its end is still one of those to come. -/
theorem pending_advance (hold : s.phase peer ≠ .recorded) (hnew : phase ≠ .recorded) :
    (s.advance peer phase).pending peers = s.pending peers := by
  ext other
  simp only [pending, Finset.mem_filter]
  by_cases hsame : other = peer
  · subst hsame
    simp [advance_phase_self, hold, hnew]
  · rw [advance_phase_of_ne hsame]

theorem card_pending_recorded (hpeer : peer ∈ peers) (hold : s.phase peer ≠ .recorded) :
    ((s.advance peer .recorded).pending peers).card + 1 = (s.pending peers).card := by
  have hmem : peer ∈ s.pending peers := Finset.mem_filter.mpr ⟨hpeer, hold⟩
  have herase : (s.advance peer .recorded).pending peers = (s.pending peers).erase peer := by
    ext other
    simp only [pending, Finset.mem_filter, Finset.mem_erase]
    by_cases hsame : other = peer
    · subst hsame
      simp [advance_phase_self]
    · rw [advance_phase_of_ne hsame]
      simp [hsame]
  rw [herase, Finset.card_erase_add_one hmem]

theorem step_read (h : step json peers now s (.read peer) = some s') :
    peer ∈ peers ∧ s.phase peer = .called ∧
      s' = s.advance peer (.computed (recordVerdict (json.readVerdicts s.file) peer now)) := by
  rw [step, Option.ite_none_right_eq_some] at h
  obtain ⟨⟨hpeer, hcalled⟩, h⟩ := h
  cases h
  exact ⟨hpeer, hcalled, rfl⟩

theorem step_truncate (h : step json peers now s (.truncate peer) = some s') :
    ∃ verdicts, s.phase peer = .computed verdicts ∧
      s' = { s.advance peer (.truncated verdicts) with file := some [] } := by
  rw [step] at h
  cases hphase : s.phase peer with
  | computed verdicts =>
    rw [hphase] at h
    cases h
    exact ⟨verdicts, rfl, rfl⟩
  | called | truncated _ | recorded =>
    rw [hphase] at h
    cases h

theorem step_write (h : step json peers now s (.write peer) = some s') :
    ∃ verdicts, s.phase peer = .truncated verdicts ∧
      s' = { s.advance peer .recorded with
        file := some (json.encode verdicts ++
          (s.file.getD []).drop (json.encode verdicts).length) } := by
  rw [step] at h
  cases hphase : s.phase peer with
  | truncated verdicts =>
    rw [hphase] at h
    cases h
    exact ⟨verdicts, rfl, rfl⟩
  | called | computed _ | recorded =>
    rw [hphase] at h
    cases h

theorem readVerdicts_truncated (hjson : json.Reads before peers now) :
    json.readVerdicts (some []) = [] := by
  rw [VerdictJson.readVerdicts, Option.bind_some, hjson.empty]
  rfl

/-- A call reads the record that the calls before it have built. -/
theorem Serialized.read (h : Serialized json peers now before current s)
    (hpeer : peer ∈ peers) (hcalled : s.phase peer = .called)
    (halone : ∀ other, ¬ (s.phase other).InProgress) :
    Serialized json peers now before current
      (s.advance peer (.computed (recordVerdict (json.readVerdicts s.file) peer now))) := by
  have hnone : ∀ other verdicts, s.phase other ≠ .truncated verdicts := by
    intro other verdicts hphase
    exact halone other (by rw [hphase]; trivial)
  have hread := h.readable hnone
  have hprogress : ∀ other, ((s.advance peer
      (.computed (recordVerdict (json.readVerdicts s.file) peer now))).phase other).InProgress →
      other = peer := by
    intro other hother
    by_contra hne
    rw [advance_phase_of_ne hne] at hother
    exact halone other hother
  constructor
  case readable => exact fun _ => hread
  case alone => exact fun p q hp hq => (hprogress p hp).trans (hprogress q hq).symm
  case computed =>
    intro p verdicts hphase
    have hp := hprogress p (by rw [hphase]; trivial)
    subst hp
    rw [advance_phase_self, hread, RecordPhase.computed.injEq] at hphase
    exact ⟨hpeer, hphase.symm⟩
  case truncated =>
    intro p verdicts hphase
    have hp := hprogress p (by rw [hphase]; trivial)
    subst hp
    rw [advance_phase_self] at hphase
    cases hphase
  case record => exact h.record
  case room =>
    rw [pending_advance (by rw [hcalled]; simp) (by simp)]
    exact h.room
  case live =>
    intro p hp hphase
    by_cases hsame : p = peer
    · subst hsame
      rw [advance_phase_self] at hphase
      cases hphase
    · rw [advance_phase_of_ne hsame] at hphase
      exact h.live p hp hphase
  case told => exact h.told
  case steady => exact h.steady

/-- Truncating the file loses nothing that the call does not hold. -/
theorem Serialized.truncate (h : Serialized json peers now before current s)
    {verdicts : List BadDescriptorVerdict} (hcomputed : s.phase peer = .computed verdicts) :
    Serialized json peers now before current
      { s.advance peer (.truncated verdicts) with file := some [] } := by
  obtain ⟨hpeer, hverdicts⟩ := h.computed peer verdicts hcomputed
  have hprogress : ∀ other, ((s.advance peer (.truncated verdicts)).phase other).InProgress →
      other = peer := by
    intro other hother
    by_contra hne
    rw [advance_phase_of_ne hne] at hother
    exact hne (h.alone other peer hother (by rw [hcomputed]; trivial))
  constructor
  case readable =>
    intro hnone
    exact absurd advance_phase_self (hnone peer verdicts)
  case alone => exact fun p q hp hq => (hprogress p hp).trans (hprogress q hq).symm
  case computed =>
    intro p other hphase
    have hp := hprogress p (by rw [hphase]; trivial)
    subst hp
    rw [advance_phase_self] at hphase
    cases hphase
  case truncated =>
    intro p other hphase
    have hp := hprogress p (by rw [hphase]; trivial)
    subst hp
    rw [advance_phase_self, RecordPhase.truncated.injEq] at hphase
    exact ⟨hpeer, hphase ▸ hverdicts, rfl⟩
  case record => exact h.record
  case room =>
    have hpending : (s.advance peer (.truncated verdicts)).pending peers = s.pending peers :=
      pending_advance (by rw [hcomputed]; simp) (by simp)
    show current.length + ((s.advance peer (.truncated verdicts)).pending peers).card ≤ _
    rw [hpending]
    exact h.room
  case live =>
    intro p hp hphase
    by_cases hsame : p = peer
    · subst hsame
      rw [advance_phase_self] at hphase
      cases hphase
    · rw [advance_phase_of_ne hsame] at hphase
      exact h.live p hp hphase
  case told => exact h.told
  case steady => exact h.steady

/-- The write puts the new record in the place of the one the call has read. -/
theorem Serialized.write (hjson : json.Reads before peers now)
    (hhex : ∀ p ∈ peers, isHexPeerId p) (h : Serialized json peers now before current s)
    {verdicts : List BadDescriptorVerdict} (htruncated : s.phase peer = .truncated verdicts) :
    Serialized json peers now before verdicts
      { s.advance peer .recorded with
        file := some (json.encode verdicts ++ (s.file.getD []).drop (json.encode verdicts).length) } := by
  obtain ⟨hpeer, hverdicts, hfile⟩ := h.truncated peer verdicts htruncated
  have hprogress : ∀ other, ¬ ((s.advance peer .recorded).phase other).InProgress := by
    intro other hother
    by_cases hsame : other = peer
    · subst hsame
      rw [advance_phase_self] at hother
      exact hother
    · rw [advance_phase_of_ne hsame] at hother
      exact hsame (h.alone other peer hother (by rw [htruncated]; trivial))
  have hcard : ((s.advance peer .recorded).pending peers).card + 1 = (s.pending peers).card :=
    card_pending_recorded hpeer (by rw [htruncated]; simp)
  have hroom := h.room
  have hfits : current.length < maxBadDescriptorPeers := by omega
  have hlen : verdicts.length ≤ current.length + 1 :=
    hverdicts ▸ length_recordVerdict_of_room (hhex peer hpeer) hfits
  have hkeeps : ∀ q, q ∈ livePeers current now → q ∈ livePeers verdicts now := by
    intro q hq
    rw [hverdicts]
    exact livePeers_recordVerdict (hhex peer hpeer) hfits hq
  have hrecord : IsRecordOf before peers now verdicts :=
    hverdicts ▸ h.record.recordVerdict (hhex peer hpeer) hpeer
  constructor
  case readable =>
    intro _
    show json.readVerdicts (some (_ ++ (s.file.getD []).drop _)) = verdicts
    rw [hfile, Option.getD_some, List.drop_nil, List.append_nil, VerdictJson.readVerdicts,
      Option.bind_some, hjson.roundTrip verdicts hrecord, Option.getD_some]
  case alone => exact fun p q hp _ => absurd hp (hprogress p)
  case computed =>
    intro p other hphase
    have hp : (s.advance peer .recorded).phase p = .computed other := hphase
    exact absurd (by rw [hp]; trivial) (hprogress p)
  case truncated =>
    intro p other hphase
    have hp : (s.advance peer .recorded).phase p = .truncated other := hphase
    exact absurd (by rw [hp]; trivial) (hprogress p)
  case record => exact hrecord
  case room =>
    show verdicts.length + ((s.advance peer .recorded).pending peers).card ≤ maxBadDescriptorPeers
    omega
  case live =>
    intro p hp hphase
    have hphase : (s.advance peer .recorded).phase p = .recorded := hphase
    by_cases hsame : p = peer
    · subst hsame
      rw [hverdicts]
      exact live_of_le (hhex p hp) _ (by omega)
    · rw [advance_phase_of_ne hsame] at hphase
      exact hkeeps p (h.live p hp hphase)
  case told => exact fun report hreport q hq => hkeeps q (h.told report hreport q hq)
  case steady => exact h.steady

/-- Asking reports the record, or nobody while nobody has been reported. -/
theorem Serialized.ask (hjson : json.Reads before peers now)
    (h : Serialized json peers now before current s) (halone : s.Alone .ask) :
    Serialized json peers now before current
      { s with reports := s.reports ++ [livePeers (json.readVerdicts s.file) now] } := by
  have hreport : (∀ p ∈ livePeers (json.readVerdicts s.file) now, p ∈ livePeers current now) ∧
      ∀ report ∈ s.reports, ∀ p ∈ report, p ∈ livePeers (json.readVerdicts s.file) now := by
    by_cases hnone : ∀ other verdicts, s.phase other ≠ .truncated verdicts
    · rw [h.readable hnone]
      exact ⟨fun _ hp => hp, h.told⟩
    · have hempty := halone.resolve_left hnone
      push Not at hnone
      obtain ⟨other, verdicts, hphase⟩ := hnone
      rw [(h.truncated other verdicts hphase).2.2, readVerdicts_truncated hjson]
      constructor
      · simp [livePeers]
      · intro report hreport p hp
        rw [hempty report hreport] at hp
        cases hp
  constructor
  case told =>
    intro report hmem p hp
    rcases List.mem_append.mp hmem with hold | hnew
    · exact h.told report hold p hp
    · rw [List.mem_singleton.mp hnew] at hp
      exact hreport.1 p hp
  case steady => exact h.steady.concat hreport.2
  case readable => exact h.readable
  case alone => exact h.alone
  case computed => exact h.computed
  case truncated => exact h.truncated
  case record => exact h.record
  case room => exact h.room
  case live => exact h.live

theorem serialized_step (hjson : json.Reads before peers now)
    (hhex : ∀ p ∈ peers, isHexPeerId p) (h : ∃ current, Serialized json peers now before current s)
    (halone : s.Alone act) (hstep : step json peers now s act = some s') :
    ∃ current, Serialized json peers now before current s' := by
  obtain ⟨current, h⟩ := h
  cases act with
  | read peer =>
    obtain ⟨hpeer, hcalled, rfl⟩ := step_read hstep
    exact ⟨current, h.read hpeer hcalled halone⟩
  | truncate peer =>
    obtain ⟨verdicts, hcomputed, rfl⟩ := step_truncate hstep
    exact ⟨current, h.truncate hcomputed⟩
  | write peer =>
    obtain ⟨verdicts, htruncated, rfl⟩ := step_write hstep
    exact ⟨verdicts, h.write hjson hhex htruncated⟩
  | ask =>
    cases hstep
    exact ⟨current, h.ask hjson halone⟩

theorem Serialized.noneLost (h : Serialized json peers now before current s) :
    s.NoneLost json peers now where
  recorded := by
    intro hnone p hp hphase
    have hread := h.readable fun other verdicts htruncated =>
      hnone other (h.truncated other verdicts htruncated).1 verdicts htruncated
    rw [hread]
    exact h.live p hp hphase
  steady := h.steady

theorem serialized_start {file : Option Bytes}
    (hnodup : ((json.readVerdicts file).map (·.peerId)).Nodup)
    (hroom : (json.readVerdicts file).length + peers.card ≤ maxBadDescriptorPeers) :
    Serialized json peers now (json.readVerdicts file) (json.readVerdicts file) (start file) where
  readable _ := rfl
  alone p q hp := by cases hp
  computed p verdicts hphase := by cases hphase
  truncated p verdicts hphase := by cases hphase
  record := ⟨hnodup, fun v hv => Or.inl hv⟩
  room := by
    refine Nat.le_trans (Nat.add_le_add_left ?_ _) hroom
    exact Finset.card_filter_le _ _
  live p _ hphase := by cases hphase
  told report hreport := by cases hreport
  steady := List.Pairwise.nil

theorem noneLost_run (hhex : ∀ p ∈ peers, isHexPeerId p) {file : Option Bytes}
    (hjson : json.Reads (json.readVerdicts file) peers now)
    (hnodup : ((json.readVerdicts file).map (·.peerId)).Nodup)
    (hroom : (json.readVerdicts file).length + peers.card ≤ maxBadDescriptorPeers)
    {acts : List FileAct} (hrun : run (step json peers now) (start file) acts = some s)
    (halone : Along (step json peers now) Alone (start file) acts) : s.NoneLost json peers now := by
  have hinv : ∃ current, Serialized json peers now (json.readVerdicts file) current s :=
    invariant_along
      (I := fun s => ∃ current, Serialized json peers now (json.readVerdicts file) current s)
      (fun _ _ _ h halone hstep => serialized_step hjson hhex h halone hstep)
      ⟨_, serialized_start hnodup hroom⟩ halone hrun
  obtain ⟨current, h⟩ := hinv
  exact h.noneLost

end FileRace

/-- Concurrent calls on the in-memory store lose no verdict, however they come; on the
file-backed one they lose none as long as each of them is alone from its read to its write
and nobody who was told of a verdict asks during a write. -/
theorem races_lose_none (peers : Finset String) (now : Nat)
    (hhex : ∀ p ∈ peers, isHexPeerId p) :
    (∀ (verdicts : List BadDescriptorVerdict) (acts : List MemoryAct) (s : MemoryRace),
      verdicts.length + peers.card ≤ maxBadDescriptorPeers →
      run (MemoryRace.step peers now) (.start verdicts) acts = some s → s.NoneLost now) ∧
    ∀ (json : VerdictJson) (file : Option Bytes) (acts : List FileAct) (s : FileRace),
      json.Reads (json.readVerdicts file) peers now →
      ((json.readVerdicts file).map (·.peerId)).Nodup →
      (json.readVerdicts file).length + peers.card ≤ maxBadDescriptorPeers →
      run (FileRace.step json peers now) (.start file) acts = some s →
      Along (FileRace.step json peers now) FileRace.Alone (.start file) acts →
      s.NoneLost json peers now := by
  constructor
  · intro verdicts acts s hroom hrun
    exact MemoryRace.noneLost_run hhex hroom hrun
  · intro json file acts s hjson hnodup hroom hrun halone
    exact FileRace.noneLost_run hhex hjson hnodup hroom hrun halone

/-- A call that runs from its start to its end while no other one is under way is alone, and
so is whoever asks next. -/
theorem FileRace.along_call {json : VerdictJson} {peers : Finset String} {now : Nat}
    {s : FileRace} {peer : String} {rest : List FileAct}
    (hidle : ∀ other, ¬ (s.phase other).InProgress)
    (hrest : ∀ s', (∀ other, ¬ (s'.phase other).InProgress) →
      Along (step json peers now) Alone s' rest) :
    Along (step json peers now) Alone s
      (.read peer :: .truncate peer :: .write peer :: .ask :: rest) := by
  refine ⟨hidle, fun s₁ h₁ => ?_⟩
  obtain ⟨-, -, rfl⟩ := step_read h₁
  refine ⟨trivial, fun s₂ h₂ => ?_⟩
  obtain ⟨verdicts, -, rfl⟩ := step_truncate h₂
  refine ⟨trivial, fun s₃ h₃ => ?_⟩
  obtain ⟨verdicts', -, rfl⟩ := step_write h₃
  have hdone : ∀ other, ¬ (((s.advance peer (.computed
      (recordVerdict (json.readVerdicts s.file) peer now))).advance peer
        (.truncated verdicts)).advance peer .recorded |>.phase other).InProgress := by
    intro other hother
    by_cases hsame : other = peer
    · subst hsame
      rw [advance_phase_self] at hother
      exact hother
    · rw [advance_phase_of_ne hsame, advance_phase_of_ne hsame, advance_phase_of_ne hsame]
        at hother
      exact hidle other hother
  refine ⟨Or.inl fun other verdicts hphase => hdone other ?_, fun s₄ h₄ => ?_⟩
  · have hphase : (((s.advance peer (.computed
        (recordVerdict (json.readVerdicts s.file) peer now))).advance peer
          (.truncated _)).advance peer .recorded |>.phase other) = .truncated verdicts := hphase
    rw [hphase]
    trivial
  · cases h₄
    exact hrest _ hdone

/-! ## Two recorders -/

/-- Another peer. -/
def otherPeerId : String := String.ofList (List.replicate 64 'b')

/-- What two calls at one time can build, from nothing. -/
def twoRecords : List (List BadDescriptorVerdict) :=
  [[], [⟨somePeerId, 1700000000⟩], [⟨otherPeerId, 1700000000⟩],
    [⟨somePeerId, 1700000000⟩, ⟨otherPeerId, 1700000000⟩],
    [⟨otherPeerId, 1700000000⟩, ⟨somePeerId, 1700000000⟩]]

def asciiBytes (text : String) : Bytes := text.toList.map fun c => c.toNat.toUInt8

/-- A list of verdicts as `serde_json` writes it. -/
def verdictsJson (verdicts : List BadDescriptorVerdict) : Bytes :=
  asciiBytes "[" ++ List.intercalate (asciiBytes ",") (verdicts.map fun verdict =>
    asciiBytes "\x7b\"peer_id\":\"" ++ asciiBytes verdict.peerId ++
      asciiBytes "\",\"recorded_at_unix\":" ++ asciiBytes (toString verdict.recordedAtUnix) ++
      asciiBytes "\x7d") ++ asciiBytes "]"

/-- `serde_json` on the records of two calls. -/
def twoJson : VerdictJson where
  encode := verdictsJson
  decode bytes := twoRecords.find? fun verdicts => verdictsJson verdicts = bytes

theorem mem_twoRecords {verdicts : List BadDescriptorVerdict}
    (h : IsRecordOf [] {somePeerId, otherPeerId} 1700000000 verdicts) : verdicts ∈ twoRecords := by
  have hone : ∀ v ∈ verdicts,
      v = ⟨somePeerId, 1700000000⟩ ∨ v = ⟨otherPeerId, 1700000000⟩ := by
    intro v hv
    obtain ⟨hpeer, hat⟩ := (h.origin v hv).resolve_left (by simp)
    rw [Finset.mem_insert, Finset.mem_singleton] at hpeer
    cases v with
    | mk peerId recordedAt =>
      obtain rfl : recordedAt = 1700000000 := hat
      rcases hpeer with rfl | rfl
      · exact Or.inl rfl
      · exact Or.inr rfl
  have hnodup := h.nodup
  match verdicts with
  | [] => simp [twoRecords]
  | [v] => rcases hone v (by simp) with rfl | rfl <;> simp [twoRecords]
  | [v, v'] =>
    rcases hone v (by simp) with rfl | rfl <;> rcases hone v' (by simp) with rfl | rfl <;>
      simp [twoRecords] at hnodup ⊢
  | v :: v' :: v'' :: rest =>
    rcases hone v (by simp) with rfl | rfl <;> rcases hone v' (by simp) with rfl | rfl <;>
      rcases hone v'' (by simp) with rfl | rfl <;> simp at hnodup

theorem twoJson_reads : twoJson.Reads [] {somePeerId, otherPeerId} 1700000000 where
  roundTrip verdicts h := by
    have hall : ∀ v ∈ twoRecords, twoJson.decode (twoJson.encode v) = some v := by
      decide +kernel
    exact hall verdicts (mem_twoRecords h)
  empty := by decide +kernel

/-- One call after the other, and a report after each. -/
def inTurn : List FileAct :=
  [.read somePeerId, .truncate somePeerId, .write somePeerId, .ask,
    .read otherPeerId, .truncate otherPeerId, .write otherPeerId, .ask]

theorem inTurn_alone : Along (FileRace.step twoJson {somePeerId, otherPeerId} 1700000000)
    FileRace.Alone (.start none) inTurn :=
  FileRace.along_call (fun _ => id) fun _ hidle => FileRace.along_call hidle fun _ _ => trivial

theorem races_lose_none_two :
    (∀ s, run (MemoryRace.step {somePeerId, otherPeerId} 1700000000) (.start [])
      [.record otherPeerId, .ask, .record somePeerId, .ask] = some s → s.NoneLost 1700000000) ∧
    ∀ s, run (FileRace.step twoJson {somePeerId, otherPeerId} 1700000000) (.start none) inTurn
      = some s → s.NoneLost twoJson {somePeerId, otherPeerId} 1700000000 := by
  have hhex : ∀ p ∈ ({somePeerId, otherPeerId} : Finset String), isHexPeerId p := by decide +kernel
  constructor
  · intro s hrun
    exact (races_lose_none _ _ hhex).1 [] _ s (by decide +kernel) hrun
  · intro s hrun
    exact (races_lose_none _ _ hhex).2 twoJson none inTurn s twoJson_reads List.nodup_nil
      (by decide +kernel) hrun inTurn_alone

/-- Both calls read before either has written; the one that writes last forgets the other. -/
def bothRead : List FileAct :=
  [.read somePeerId, .read otherPeerId, .truncate somePeerId, .write somePeerId,
    .truncate otherPeerId, .write otherPeerId]

/-- Both verdicts were recorded, and one of them is gone. -/
theorem verdict_lost :
    ∃ s, run (FileRace.step twoJson {somePeerId, otherPeerId} 1700000000) (.start none) bothRead
        = some s ∧
      ¬ s.NoneLost twoJson {somePeerId, otherPeerId} 1700000000 := by
  obtain ⟨s, hrun⟩ := Option.isSome_iff_exists.mp
    (by decide +kernel : (run (FileRace.step twoJson {somePeerId, otherPeerId} 1700000000)
      (.start none) bothRead).isSome = true)
  have hphase : (run (FileRace.step twoJson {somePeerId, otherPeerId} 1700000000) (.start none)
      bothRead).map (fun s => (s.phase somePeerId, s.phase otherPeerId))
        = some (.recorded, .recorded) := by decide +kernel
  have hlost : (run (FileRace.step twoJson {somePeerId, otherPeerId} 1700000000) (.start none)
      bothRead).map (fun s => livePeers (twoJson.readVerdicts s.file) 1700000000)
        = some [otherPeerId] := by decide +kernel
  rw [hrun, Option.map_some, Option.some.injEq, Prod.mk.injEq] at hphase
  rw [hrun, Option.map_some, Option.some.injEq] at hlost
  refine ⟨s, hrun, fun h => ?_⟩
  have hreported := h.recorded (fun other hother verdicts hwriting => ?_) somePeerId
    (Finset.mem_insert_self _ _) hphase.1
  · rw [hlost] at hreported
    exact absurd hreported (by decide +kernel)
  · rw [Finset.mem_insert, Finset.mem_singleton] at hother
    rcases hother with rfl | rfl
    · rw [hphase.1] at hwriting
      cases hwriting
    · rw [hphase.2] at hwriting
      cases hwriting

end DigDownload
