import DigDownload.Transport.Sessions

/-!
# How calls end

Every call comes to its end in a bounded number of steps, whatever the others do and whatever the
network answers, and the trailer of a stream is read up to a bound.
-/

namespace DigDownload

open Runs

/-- How many steps a call still takes, at the most: its dials, and a trailer byte by byte. -/
def CallPoint.rank : CallPoint → Nat
  | .called => maxTrailerDrain + 11
  | .dialing _ rest _ => maxTrailerDrain + 6 + rest.length
  | .dialed _ => maxTrailerDrain + 5
  | .connected _ => maxTrailerDrain + 4
  | .asking _ => maxTrailerDrain + 3
  | .reading _ => maxTrailerDrain + 2
  | .draining _ _ drained => maxTrailerDrain - drained + 1
  | .failed _ _ => 1
  | .returned _ | .dropped => 0

/-- How many bytes of a trailer a call still reads, at the most. -/
def CallPoint.room : CallPoint → Nat
  | .draining _ _ drained => maxTrailerDrain - drained
  | .failed _ _ | .returned _ | .dropped => 0
  | _ => maxTrailerDrain

/-- The bytes of its trailer that an action reads for a call. -/
def TransportAct.trailerBytes {κ : Type} (i : Nat) : TransportAct κ → Nat
  | .drain j n => if j = i then n else 0
  | _ => 0

theorem CallPoint.rank_of_isOver {point : CallPoint} (h : point.isOver = true) :
    point.rank = 0 ∧ point.room = 0 := by
  cases point with
  | returned result => exact ⟨rfl, rfl⟩
  | dropped => exact ⟨rfl, rfl⟩
  | _ => cases h

theorem CallPoint.rank_pos {point : CallPoint} (h : point.isOver = false) : 0 < point.rank := by
  cases point with
  | returned result => cases h
  | dropped => cases h
  | dialing target rest lastError =>
    simp only [rank]
    omega
  | _ => simp [rank]

namespace NatRangeTransport

variable {κ Asm : Type} {seams : TransportSeams κ Asm} {t t' : NatRangeTransport κ}
  {i j s : Nat} {call call' : Call κ} {act : TransportAct κ} {acts : List (TransportAct κ)}
  {point : CallPoint}

/-- A provider has no more targets than a call has time to dial. -/
theorem length_targets_le {provider : ProviderCandidates κ} {targets : List (String × PeerTarget)}
    (h : seams.targets provider = .ok targets) : targets.length ≤ 5 := by
  obtain ⟨peerId, -, rfl⟩ := providerDialTargets_eq_ok h
  have hcandidates : (dialCandidates seams.isDialable provider).length ≤ maxDialCandidates :=
    List.length_take_le _ _
  have hdialled := List.length_filterMap_le (dialTarget peerId seams.networkId)
    (dialCandidates seams.isDialable provider)
  simp only [List.length_append, List.length_singleton, maxDialCandidates] at *
  omega

/-- A step takes its call on to a point of a lower rank, and leaves the others where they are. -/
theorem CallStep.moves (h : CallStep seams t i call act t') :
    ∃ point : CallPoint, t'.calls = (t.goto i point).calls ∧ point.rank < call.point.rank ∧
      point.room ≤ call.point.room := by
  cases h with
  | @returns _ point hgoing hheld hover hblames =>
    obtain ⟨hrank, hroom⟩ := CallPoint.rank_of_isOver hover
    refine ⟨point, rfl, ?_, hroom ▸ Nat.zero_le _⟩
    rw [hrank]
    exact CallPoint.rank_pos hgoing
  | dials hfrom =>
    refine ⟨_, rfl, ?_⟩
    obtain ⟨hpoint, htargets⟩ | ⟨first, last, hpoint⟩ := hfrom
    · have := length_targets_le htargets
      rw [List.length_cons] at this
      simp only [hpoint, CallPoint.rank, CallPoint.room]
      omega
    · simp only [hpoint, CallPoint.rank, CallPoint.room, List.length_cons]
      omega
  | dialled hfrom =>
    refine ⟨_, rfl, ?_⟩
    simp only [hfrom, CallPoint.rank, CallPoint.room]
    omega
  | joins hfrom hpool =>
    refine ⟨_, rfl, ?_⟩
    obtain hpoint | ⟨own, hpoint⟩ := hfrom
    · simp [hpoint, CallPoint.rank, CallPoint.room]
    · simp [hpoint, CallPoint.rank, CallPoint.room]
  | inserts hfrom hpool => exact ⟨_, rfl, by simp [hfrom, CallPoint.rank, CallPoint.room]⟩
  | locks hfrom hfree => exact ⟨_, rfl, by simp [hfrom, CallPoint.rank, CallPoint.room]⟩
  | @unlocks _ s point hfrom hto hblames =>
    refine ⟨point, rfl, ?_⟩
    obtain hover | ⟨rfl, -⟩ | ⟨e, rfl⟩ := hto
    · obtain ⟨hrank, hroom⟩ := CallPoint.rank_of_isOver hover
      rw [hrank, hroom, hfrom]
      exact ⟨Nat.succ_pos _, Nat.zero_le _⟩
    · simp [hfrom, CallPoint.rank, CallPoint.room]
    · simp [hfrom, CallPoint.rank, CallPoint.room]
  | evicts hfrom => exact ⟨_, rfl, by simp [hfrom, CallPoint.rank, CallPoint.room]⟩
  | drains hfrom hmore =>
    refine ⟨_, rfl, ?_⟩
    obtain hpoint | ⟨fetched', drained', hpoint, hlt⟩ := hfrom
    · simp only [hpoint, CallPoint.rank, CallPoint.room]
      omega
    · simp only [hpoint, CallPoint.rank, CallPoint.room]
      omega

/-! ### It comes -/

/-- How many steps the calls still take, at the most. -/
def rank (t : NatRangeTransport κ) : Nat := (t.calls.map fun call => call.point.rank).sum

theorem rank_step (h : step seams t act = some t') :
    t'.rank + act.caller?.toList.length + (maxTrailerDrain + 11) * t.calls.length
      ≤ t.rank + (maxTrailerDrain + 11) * t'.calls.length := by
  obtain ⟨provider, request, rfl, rfl⟩ | ⟨i, call, hact, hcall, -, hcase⟩ := step_cases h
  · simp only [rank, TransportAct.caller?, List.map_append, List.sum_append, List.map_cons,
      List.map_nil, List.sum_singleton, List.length_append, List.length_singleton,
      Option.toList_none, List.length_nil, CallPoint.rank, Nat.mul_succ]
    omega
  · obtain ⟨point, hcalls, hrank, -⟩ := hcase.moves
    have hsum := sum_map_modify (fun call : Call κ => call.point.rank)
      (fun call => { call with point }) t.calls hcall
    have hlength : t'.calls.length = t.calls.length := by
      rw [hcalls]
      exact List.length_modify ..
    have hafter : t'.rank = ((t.calls.modify i fun call => { call with point }).map
        fun call => call.point.rank).sum := by
      rw [rank, hcalls]
      rfl
    have hsum' : t'.rank + call.point.rank = t.rank + point.rank := hafter ▸ hsum
    rw [hact, hlength, Option.toList_some, List.length_singleton]
    omega

/-- Only a call that asks for a range reads one. -/
def ReadsRanges (t : NatRangeTransport κ) : Prop :=
  ∀ (i : Nat) (call : Call κ) (s : Nat), t.calls[i]? = some call → call.point = .reading s →
    ∃ req, call.request = .fetchRange req

theorem ReadsRanges.callStep (h : t.ReadsRanges) (hcall : t.calls[i]? = some call)
    (hstep : CallStep seams t i call act t') : t'.ReadsRanges := by
  intro j call' s hcall' hpoint
  have hgoto : ∀ {point : CallPoint}, (t.goto i point).calls[j]? = some call' →
      (∀ s, point = .reading s → ∃ req, call.request = .fetchRange req) →
      ∃ req, call'.request = .fetchRange req := by
    intro point hgoto hreads
    rw [calls_goto hcall] at hgoto
    split at hgoto
    · cases hgoto
      exact hreads s hpoint
    · exact h j call' s hgoto hpoint
  cases hstep with
  | returns hgoing hheld hover hblames =>
    exact hgoto hcall' fun s hs => by rw [hs] at hover; cases hover
  | unlocks hfrom hto hblames =>
    refine hgoto hcall' fun s hs => ?_
    obtain hover | ⟨-, hreq⟩ | ⟨e, rfl⟩ := hto
    · rw [hs] at hover
      cases hover
    · exact hreq
    · cases hs
  | _ => exact hgoto hcall' fun s hs => by cases hs

theorem readsRanges_run (hrun : run (step seams) new acts = some t) : t.ReadsRanges := by
  refine invariant (fun t act t' h hstep => ?_) (fun i call s hcall => by cases hcall) hrun
  obtain ⟨provider, request, rfl, rfl⟩ | ⟨i, call, -, hcall, -, hcase⟩ := step_cases hstep
  · intro j call s hcall hpoint
    obtain hcall | ⟨rfl, -⟩ := getElem?_concat_cases hcall
    · exact h j call s hcall hpoint
    · cases hpoint
  · exact h.callStep hcall hcase

/-- The call can take a step without being dropped, or waits for a call that can. -/
def CanGoOn (seams : TransportSeams κ Asm) (t : NatRangeTransport κ) (i : Nat) (call : Call κ) :
    Prop :=
  ∃ act t', step seams t act = some t' ∧ (∀ j, act ≠ .drop j) ∧
    (act.caller? = some i ∨ ∃ j call' s, act.caller? = some j ∧ t.calls[j]? = some call' ∧
      call.point = .connected s ∧ call'.point = .asking s)

theorem step_of_caller (hact : act.caller? = some i) (hcall : t.calls[i]? = some call)
    (h : stepCall seams t i call act = some t') : step seams t act = some t' := by
  have hbind : (act.caller?.bind fun i => (t.calls[i]?).bind fun call =>
      stepCall seams t i call act) = some t' := by
    rw [hact, Option.bind_some, hcall, Option.bind_some, h]
  cases act with
  | call provider request => cases hact
  | _ => exact hbind

/-- A request that is out may fail. -/
theorem step_answer_failed (seams : TransportSeams κ Asm) (hcall : t.calls[i]? = some call)
    (hpoint : call.point = .asking s) :
    ∃ t', step seams t (.answer i (.failed "")) = some t' := by
  have hstep : stepCall seams t i call (.answer i (.failed ""))
      = t.settle i call s (.failed "") := by
    simp only [stepCall, hpoint]
  exact ⟨_, step_of_caller rfl hcall hstep⟩

theorem canGoOn (hlocked : t.Locked) (hreads : t.ReadsRanges) (hcall : t.calls[i]? = some call)
    (hgoing : call.point.isOver = false) : CanGoOn seams t i call := by
  have hown : ∀ act : TransportAct κ, act.caller? = some i → (∀ j, act ≠ .drop j) →
      (stepCall seams t i call act).isSome → CanGoOn seams t i call := by
    intro act hact hdrop hsome
    obtain ⟨t', hstep⟩ := Option.isSome_iff_exists.mp hsome
    exact ⟨act, t', step_of_caller hact hcall hstep, hdrop, .inl hact⟩
  cases hpoint : call.point with
  | called =>
    refine hown (.lookUp i) rfl (by simp) ?_
    simp [stepCall, hpoint]
  | dialing target rest lastError =>
    refine hown (.dial i (.ok ())) rfl (by simp) ?_
    simp [stepCall, hpoint]
  | dialed s =>
    refine hown (.insert i) rfl (by simp) ?_
    simp [stepCall, hpoint]
  | connected s =>
    cases hlock : t.lock? s with
    | none =>
      have hfree : (t.sessions[s]?).bind PooledConn.lockedBy = none := hlock
      refine hown (.lock i) rfl (by simp) ?_
      simp [stepCall, hpoint, hfree]
    | some j =>
      obtain ⟨call', hcall', hpoint'⟩ := hlocked.held s j hlock
      obtain ⟨t', hstep⟩ := step_answer_failed seams hcall' hpoint'
      exact ⟨_, t', hstep, by simp, .inr ⟨j, call', s, rfl, hcall', hpoint, hpoint'⟩⟩
  | asking s =>
    obtain ⟨t', hstep⟩ := step_answer_failed seams hcall hpoint
    exact ⟨_, t', hstep, by simp, .inl rfl⟩
  | reading s =>
    obtain ⟨req, hreq⟩ := hreads i call s hcall hpoint
    refine hown (.read i []) rfl (by simp) ?_
    simp [stepCall, hpoint, hreq]
  | draining s fetched drained =>
    refine hown (.drain i 0) rfl (by simp) ?_
    simp [stepCall, hpoint]
  | failed s e =>
    refine hown (.evict i) rfl (by simp) ?_
    simp [stepCall, hpoint]
  | returned result =>
    rw [hpoint] at hgoing
    cases hgoing
  | dropped =>
    rw [hpoint] at hgoing
    cases hgoing

/-- Every call comes to its end: the calls take a bounded number of steps in all, whatever the
network answers, and as long as one of them is not over, it or the call whose request it waits
for can go on. -/
theorem calls_end (seams : TransportSeams κ Asm) (acts : List (TransportAct κ))
    (t : NatRangeTransport κ) (hrun : run (step seams) new acts = some t) :
    (acts.filterMap TransportAct.caller?).length ≤ (maxTrailerDrain + 11) * t.calls.length ∧
      ∀ (i : Nat) (call : Call κ), t.calls[i]? = some call → call.point.isOver = false →
        CanGoOn seams t i call := by
  refine ⟨?_, fun i call hcall hgoing =>
    canGoOn (locked_run hrun) (readsRanges_run hrun) hcall hgoing⟩
  have hpaid := budget (I := fun _ => True) rank
    (fun t => (maxTrailerDrain + 11) * t.calls.length) (fun act => act.caller?.toList.length)
    (fun t act t' _ hstep => ⟨trivial, rank_step hstep⟩) trivial hrun
  have hsteps : (acts.filterMap TransportAct.caller?).length
      = (acts.map fun act => act.caller?.toList.length).sum := by
    rw [List.filterMap_eq_flatMap_toList, List.length_flatMap]
  have hnew : (new : NatRangeTransport κ).rank = 0 := rfl
  rw [hnew] at hpaid
  omega

/-- Two calls that race for a session. -/
theorem calls_end_racing :
    ∃ t, run (step smallTransportSeams) new racingCalls = some t ∧
      (racingCalls.filterMap TransportAct.caller?).length
        ≤ (maxTrailerDrain + 11) * t.calls.length ∧
      ∀ (i : Nat) (call : Call Unit), t.calls[i]? = some call → call.point.isOver = false →
        CanGoOn smallTransportSeams t i call := by
  have hruns : (run (step smallTransportSeams) new racingCalls).isSome := by decide +kernel
  obtain ⟨t, hrun⟩ := Option.isSome_iff_exists.mp hruns
  exact ⟨t, hrun, calls_end smallTransportSeams racingCalls t hrun⟩

/-! ### What is read of a trailer -/

/-- How many bytes of its trailer the `i`-th call still reads, at the most. -/
def room (t : NatRangeTransport κ) (i : Nat) : Nat :=
  ((t.calls[i]?).map fun call => call.point.room).getD maxTrailerDrain

theorem room_of_call (hcall : t.calls[i]? = some call) : t.room i = call.point.room := by
  rw [room, hcall]
  rfl

/-- A read of a trailer pays for its bytes. -/
theorem room_drain {n : Nat} (hcall : t.calls[i]? = some call)
    (h : stepCall seams t i call (.drain i n) = some t') : t'.room i + n ≤ t.room i := by
  have hgoto : ∀ point, (t.goto i point).room i = point.room := fun point =>
    room_of_call ((calls_goto hcall).trans (if_pos rfl))
  rw [room_of_call hcall]
  simp only [stepCall] at h
  split at h
  · rename_i s fetched drained hpoint
    have hwant : drainWant drained ≤ maxTrailerDrain - drained := Nat.min_le_left _ _
    have hroom : call.point.room = maxTrailerDrain - drained := by rw [hpoint]; rfl
    split at h
    · cases h
    rename_i hread
    split at h
    · rename_i hnone
      cases h
      rw [hgoto, hnone]
      exact Nat.zero_le _
    · cases h
      rw [hgoto, hroom, drainPoint]
      split
      · simp only [CallPoint.room]
        omega
      · simp only [CallPoint.room]
        omega
  · cases h

theorem room_step (h : step seams t act = some t') :
    t'.room i + act.trailerBytes i ≤ t.room i := by
  obtain ⟨provider, request, rfl, rfl⟩ | ⟨j, call, hact, hcall, hstep, hcase⟩ := step_cases h
  · show room _ i ≤ _
    rw [room, List.getElem?_append]
    split
    · exact Nat.le_refl _
    · rename_i hge
      rw [room, List.getElem?_eq_none (Nat.le_of_not_lt hge)]
      cases hlast : ([⟨provider, request, .called⟩] : List (Call κ))[i - t.calls.length]? with
      | none => exact Nat.le_refl _
      | some call =>
        obtain rfl := List.mem_singleton.mp (List.mem_of_getElem? hlast)
        exact Nat.le_refl _
  · by_cases hij : j = i
    · subst hij
      obtain ⟨point, hcalls, -, hroom⟩ := hcase.moves
      have hcall' : t'.calls[j]? = some { call with point } := by
        rw [hcalls, calls_goto hcall, if_pos rfl]
      have hafter : t'.room j = point.room := room_of_call hcall'
      cases act with
      | drain k n =>
        cases hact
        simpa [TransportAct.trailerBytes] using room_drain hcall hstep
      | _ =>
        rw [hafter, room_of_call hcall]
        exact hroom
    · obtain ⟨point, hcalls, -⟩ := hcase.moves
      have hcost : act.trailerBytes i = 0 := by
        cases act with
        | drain k n =>
          cases hact
          exact if_neg hij
        | _ => rfl
      have hsame : t'.room i = t.room i := by
        rw [room, hcalls, calls_goto hcall, if_neg hij, room]
      rw [hcost, hsame]
      exact Nat.le_refl _

/-- However much a peer sends after the last frame of a range, a call reads no more of it than
the bound. -/
theorem trailer_bounded (seams : TransportSeams κ Asm) (acts : List (TransportAct κ))
    (t : NatRangeTransport κ) (i : Nat) (hrun : run (step seams) new acts = some t) :
    (acts.map (TransportAct.trailerBytes i)).sum ≤ maxTrailerDrain := by
  have hpaid := budget (I := fun _ => True) (fun t => t.room i) (fun _ => 0)
    (TransportAct.trailerBytes i) (fun t act t' _ hstep => ⟨trivial, room_step hstep⟩)
    trivial hrun
  have hnew : (new : NatRangeTransport κ).room i = maxTrailerDrain := rfl
  rw [hnew] at hpaid
  omega

/-- A range of two bytes, and two reads of the trailer that follows it. -/
def trailingCall : List (TransportAct Unit) :=
  [.call paddedProvider (.fetchRange smallRangeRequest), .lookUp 0, .dial 0 (.ok ()), .insert 0,
    .lock 0, .answer 0 .stream, .read 0 [.ok smallFirstFrame, .ok smallSecondFrame],
    .drain 0 4096, .drain 0 7, .drain 0 0]

theorem trailer_bounded_trailing :
    (trailingCall.map (TransportAct.trailerBytes 0)).sum ≤ maxTrailerDrain := by
  have hruns : (run (step smallTransportSeams) new trailingCall).isSome := by decide +kernel
  obtain ⟨t, hrun⟩ := Option.isSome_iff_exists.mp hruns
  exact trailer_bounded smallTransportSeams trailingCall t 0 hrun

end NatRangeTransport

end DigDownload
