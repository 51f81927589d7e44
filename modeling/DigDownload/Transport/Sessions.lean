import DigDownload.Transport.Pool

/-!
# Whose session it is

A session is dialled for one provider and pinned to its peer id, and it stays with the calls of
that provider. It is known to the call that dialled it alone until it comes into the pool, which
it does at most once, so that a session that was evicted is never handed out again.
-/

namespace DigDownload

open Runs

namespace NatRangeTransport

variable {κ Asm : Type} {seams : TransportSeams κ Asm} {t t' t₁ t₂ : NatRangeTransport κ}
  {i j s : Nat} {call call' : Call κ} {act : TransportAct κ} {acts : List (TransportAct κ)}
  {point : CallPoint} {key : String} {holder : Option Nat}

/-! ## Reading a transport -/

/-- What a session was dialled as. -/
def target? (t : NatRangeTransport κ) (s : Nat) : Option PeerTarget :=
  (t.sessions[s]?).map PooledConn.target

/-- The call that has the lock of a session. -/
def lock? (t : NatRangeTransport κ) (s : Nat) : Option Nat :=
  (t.sessions[s]?).bind PooledConn.lockedBy

/-- The `i`-th call is one of the provider `key` and has the session. -/
def Has (t : NatRangeTransport κ) (i : Nat) (key : String) (s : Nat) : Prop :=
  ∃ call, t.calls[i]? = some call ∧ call.key = key ∧ call.point.session? = some s

theorem calls_goto (hcall : t.calls[i]? = some call) :
    (t.goto i point).calls[j]? = if i = j then some { call with point } else t.calls[j]? :=
  getElem?_modify_of_eq _ hcall

@[simp] theorem target?_goto : (t.goto i point).target? s = t.target? s := rfl

@[simp] theorem lock?_goto : (t.goto i point).lock? s = t.lock? s := rfl

@[simp] theorem target?_setLock : (t.setLock j holder).target? s = t.target? s := by
  rw [target?, setLock, List.getElem?_modify, target?]
  cases t.sessions[s]? with
  | none => rfl
  | some session =>
    by_cases h : j = s <;> simp [h]

theorem lock?_setLock_ne (h : j ≠ s) : (t.setLock j holder).lock? s = t.lock? s := by
  rw [lock?, setLock, List.getElem?_modify, lock?]
  cases t.sessions[s]? <;> simp [h]

theorem lock?_setLock_self (h : (t.target? s).isSome) : (t.setLock s holder).lock? s = holder := by
  rw [target?, Option.isSome_map] at h
  obtain ⟨session, hsession⟩ := Option.isSome_iff_exists.mp h
  simp [lock?, setLock, hsession]

theorem lock?_setLock_none : (t.setLock s none).lock? s = none := by
  rw [lock?, setLock, List.getElem?_modify]
  cases t.sessions[s]? <;> simp

/-! ## One provider to a session -/

/-- The session was dialled as a target of the peer that the key names. -/
def PinnedTo (seams : TransportSeams κ Asm) (t : NatRangeTransport κ) (s : Nat) (key : String) :
    Prop :=
  ∃ target, t.target? s = some target ∧ seams.providerPeerId key = some target.peerId

/-- What every step keeps of the sessions: `calls` and `pool` say whose they are, `targets` whom
a call goes on to dial, `alone` that one provider has each of them, and `own` that nobody else
has one which is not in the pool yet. -/
structure Pinned (seams : TransportSeams κ Asm) (t : NatRangeTransport κ) : Prop where
  calls : ∀ i key s, t.Has i key s → t.PinnedTo seams s key
  pool : ∀ key s, t.pool key = some s → t.PinnedTo seams s key
  targets : ∀ (i : Nat) (call : Call κ) (target : String × PeerTarget)
    (rest : List (String × PeerTarget)) (last : Option String), t.calls[i]? = some call →
    call.point = .dialing target rest last →
    ∀ next ∈ target :: rest, seams.providerPeerId call.key = some next.2.peerId
  alone : ∀ i j key key' s, t.Has i key s → t.Has j key' s → key = key'
  shared : ∀ i key key' s, t.Has i key s → t.pool key' = some s → key = key'
  pooled : ∀ key key' s, t.pool key = some s → t.pool key' = some s → key = key'
  own : ∀ (i : Nat) (call : Call κ) (s : Nat), t.calls[i]? = some call → call.point = .dialed s →
    (∀ key, t.pool key ≠ some s) ∧ ∀ j key, t.Has j key s → j = i

/-- Whoever has a session after a call went to a point had it before, or is that call. -/
theorem has_goto (hcall : t.calls[i]? = some call) :
    (t.goto i point).Has j key s ↔
      if i = j then call.key = key ∧ point.session? = some s else t.Has j key s := by
  rw [Has, calls_goto hcall]
  split
  · constructor
    · rintro ⟨_, hpoint, hkey, hsession⟩
      cases hpoint
      exact ⟨hkey, hsession⟩
    · rintro ⟨hkey, hsession⟩
      exact ⟨_, rfl, hkey, hsession⟩
  · exact Iff.rfl

theorem has_of_goto (hcall : t.calls[i]? = some call) (h : (t.goto i point).Has j key s) :
    t.Has j key s ∨ j = i ∧ key = call.key ∧ point.session? = some s := by
  rw [has_goto hcall] at h
  split at h
  · rename_i hij
    exact .inr ⟨hij.symm, h.1.symm, h.2⟩
  · exact .inl h

/-- A call that goes on with its session, or to its end, has what it had. -/
theorem has_of_goto_kept (hcall : t.calls[i]? = some call)
    (hkept : ∀ s, point.session? = some s → call.point.session? = some s)
    (h : (t.goto i point).Has j key s) : t.Has j key s := by
  obtain h | ⟨rfl, rfl, hpoint⟩ := has_of_goto hcall h
  · exact h
  · exact ⟨call, hcall, rfl, hkept s hpoint⟩

theorem session?_of_isOver (h : point.isOver = true) : point.session? = none := by
  cases point with
  | returned result => rfl
  | dropped => rfl
  | _ => cases h

/-- The session is the one that a step of the call has dialled. -/
def JustDialled (t t' : NatRangeTransport κ) (call : Call κ) (s : Nat) : Prop :=
  s = t.sessions.length ∧ ∃ target rest last,
    call.point = .dialing target rest last ∧ t'.target? s = some target.2

theorem justDialled {target : String × PeerTarget} {rest : List (String × PeerTarget)}
    {last : Option String} (hfrom : call.point = .dialing target rest last) :
    JustDialled t { t.goto i (.dialed t.sessions.length) with
      sessions := t.sessions ++ [⟨target.2, none⟩] } call t.sessions.length := by
  refine ⟨rfl, target, rest, last, hfrom, ?_⟩
  show Option.map _ ((t.sessions ++ [_])[_]?) = _
  rw [List.getElem?_concat_length]
  rfl

/-- How a call comes to have a session: it had it, it dialled it, or it found it in the pool. -/
theorem CallStep.has (h : CallStep seams t i call act t') (hcall : t.calls[i]? = some call)
    (hhas : t'.Has j key s) :
    t.Has j key s ∨ j = i ∧ key = call.key ∧
      (JustDialled t t' call s ∨ t.pool call.key = some s) := by
  cases h with
  | returns hgoing hheld hover hblames =>
    refine .inl (has_of_goto_kept hcall (fun s hs => ?_) hhas)
    rw [session?_of_isOver hover] at hs
    cases hs
  | dials hfrom => exact .inl (has_of_goto_kept hcall (fun s hs => by cases hs) hhas)
  | dialled hfrom =>
    obtain h | ⟨hj, hkey, hpoint⟩ := has_of_goto hcall hhas
    · exact .inl h
    · cases hpoint
      exact .inr ⟨hj, hkey, .inl (justDialled hfrom)⟩
  | joins hfrom hpool =>
    obtain h | ⟨hj, hkey, hpoint⟩ := has_of_goto hcall hhas
    · exact .inl h
    · cases hpoint
      exact .inr ⟨hj, hkey, .inr hpool⟩
  | inserts hfrom hpool =>
    refine .inl (has_of_goto_kept hcall (fun s hs => ?_) hhas)
    rw [hfrom]
    exact hs
  | locks hfrom hfree =>
    refine .inl (has_of_goto_kept hcall (fun s hs => ?_) hhas)
    rw [hfrom]
    exact hs
  | unlocks hfrom hto hblames =>
    refine .inl (has_of_goto_kept hcall (fun s hs => ?_) hhas)
    rw [hfrom]
    obtain hover | ⟨rfl, -⟩ | ⟨e, rfl⟩ := hto
    · rw [session?_of_isOver hover] at hs
      cases hs
    · exact hs
    · exact hs
  | evicts hfrom => exact .inl (has_of_goto_kept hcall (fun s hs => by cases hs) hhas)
  | drains hfrom hmore =>
    refine .inl (has_of_goto_kept hcall (fun s hs => ?_) hhas)
    obtain hpoint | ⟨fetched', drained', hpoint, -⟩ := hfrom
    · rw [hpoint]
      exact hs
    · rw [hpoint]
      exact hs

/-- A session comes into the pool from the call that dialled it. -/
theorem CallStep.pool (h : CallStep seams t i call act t') (hpool : t'.pool key = some s) :
    t.pool key = some s ∨ key = call.key ∧ call.point = .dialed s ∧ t.pool call.key = none ∧
      t'.calls = (t.goto i (.connected s)).calls := by
  cases h with
  | @inserts _ own hfrom hnone =>
    by_cases hkey : key = call.key
    · subst hkey
      obtain rfl : own = s := by simpa using hpool
      exact .inr ⟨rfl, hfrom, hnone, rfl⟩
    · exact .inl (by simpa [hkey] using hpool)
  | evicts hfrom =>
    by_cases hkey : key = call.key
    · subst hkey
      simp at hpool
    · exact .inl (by simpa [hkey] using hpool)
  | _ => exact .inl hpool

/-- A session stays what it was dialled as. -/
theorem CallStep.target (h : CallStep seams t i call act t') {target : PeerTarget}
    (htarget : t.target? s = some target) : t'.target? s = some target := by
  cases h with
  | dialled hfrom =>
    obtain ⟨session, hsession, rfl⟩ := Option.map_eq_some_iff.mp htarget
    obtain ⟨hlt, -⟩ := List.getElem?_eq_some_iff.mp hsession
    show Option.map _ ((t.sessions ++ [_])[s]?) = _
    rw [List.getElem?_append_left hlt, hsession]
    rfl
  | locks hfrom hfree => rw [target?_goto, target?_setLock, htarget]
  | unlocks hfrom hto hblames => rw [target?_goto, target?_setLock, htarget]
  | _ => exact htarget

theorem PinnedTo.callStep (hpinned : t.PinnedTo seams s key)
    (h : CallStep seams t i call act t') : t'.PinnedTo seams s key := by
  obtain ⟨target, htarget, hpeer⟩ := hpinned
  exact ⟨target, h.target htarget, hpeer⟩

/-- A call that stands at a fresh session has just dialled it, or stood there. -/
theorem CallStep.dialed (h : CallStep seams t i call act t') (hcall : t.calls[i]? = some call)
    (hcall' : t'.calls[j]? = some call') (hpoint : call'.point = .dialed s) :
    t.calls[j]? = some call' ∨ j = i ∧ call'.key = call.key ∧ JustDialled t t' call s := by
  have hgoto : ∀ {point : CallPoint}, (t.goto i point).calls[j]? = some call' →
      point ≠ .dialed s → t.calls[j]? = some call' := by
    intro point hgoto hne
    rw [calls_goto hcall] at hgoto
    split at hgoto
    · cases hgoto
      exact absurd hpoint hne
    · exact hgoto
  cases h with
  | returns hgoing hheld hover hblames =>
    refine .inl (hgoto hcall' fun hdialed => ?_)
    rw [hdialed] at hover
    cases hover
  | dials hfrom => exact .inl (hgoto hcall' (by simp))
  | @dialled _ target rest last hfrom =>
    have hcalls : (t.goto i (.dialed t.sessions.length)).calls[j]? = some call' := hcall'
    rw [calls_goto hcall] at hcalls
    split at hcalls
    · rename_i hij
      cases hcalls
      cases hpoint
      exact .inr ⟨hij.symm, rfl, justDialled hfrom⟩
    · exact .inl hcalls
  | joins hfrom hpool => exact .inl (hgoto hcall' (by simp))
  | inserts hfrom hpool => exact .inl (hgoto hcall' (by simp))
  | locks hfrom hfree => exact .inl (hgoto hcall' (by simp))
  | unlocks hfrom hto hblames =>
    refine .inl (hgoto hcall' fun hdialed => ?_)
    rw [hdialed] at hto
    simp [CallPoint.isOver] at hto
  | evicts hfrom => exact .inl (hgoto hcall' (by simp))
  | drains hfrom hmore => exact .inl (hgoto hcall' (by simp))

/-- Whom a call goes on to dial it had on its list, or it has just made the list. -/
theorem CallStep.dialing (h : CallStep seams t i call act t') (hcall : t.calls[i]? = some call)
    {target : String × PeerTarget} {rest : List (String × PeerTarget)} {last : Option String}
    (hcall' : t'.calls[j]? = some call') (hpoint : call'.point = .dialing target rest last) :
    t.calls[j]? = some call' ∨
      call'.key = call.key ∧
        (seams.targets call.provider = .ok (target :: rest) ∨
          ∃ first last', call.point = .dialing first (target :: rest) last') := by
  have hgoto : ∀ {point : CallPoint}, (t.goto i point).calls[j]? = some call' →
      point ≠ .dialing target rest last → t.calls[j]? = some call' := by
    intro point hgoto hne
    rw [calls_goto hcall] at hgoto
    split at hgoto
    · cases hgoto
      exact absurd hpoint hne
    · exact hgoto
  cases h with
  | returns hgoing hheld hover hblames =>
    refine .inl (hgoto hcall' fun hdialing => ?_)
    rw [hdialing] at hover
    cases hover
  | dials hfrom =>
    rw [calls_goto hcall] at hcall'
    split at hcall'
    · cases hcall'
      cases hpoint
      exact .inr ⟨rfl, hfrom.imp And.right id⟩
    · exact .inl hcall'
  | unlocks hfrom hto hblames =>
    refine .inl (hgoto hcall' fun hdialing => ?_)
    rw [hdialing] at hto
    simp [CallPoint.isOver] at hto
  | dialled hfrom => exact .inl (hgoto hcall' (by simp))
  | joins hfrom hpool => exact .inl (hgoto hcall' (by simp))
  | inserts hfrom hpool => exact .inl (hgoto hcall' (by simp))
  | locks hfrom hfree => exact .inl (hgoto hcall' (by simp))
  | evicts hfrom => exact .inl (hgoto hcall' (by simp))
  | drains hfrom hmore => exact .inl (hgoto hcall' (by simp))

/-- Every target of a provider carries the peer id that its key names. -/
theorem peerId_of_targets {provider : ProviderCandidates κ} {targets : List (String × PeerTarget)}
    (h : seams.targets provider = .ok targets) {target : String × PeerTarget}
    (hmem : target ∈ targets) :
    seams.providerPeerId provider.providerPeerId = some target.2.peerId := by
  obtain ⟨peerId, hpeer, rfl⟩ := providerDialTargets_eq_ok h
  rw [hpeer]
  obtain hmem | hmem := List.mem_append.mp hmem
  · obtain ⟨candidate, -, hdial⟩ := List.mem_filterMap.mp hmem
    rw [dialTarget] at hdial
    split at hdial
    · cases hdial
      rfl
    · cases hdial
  · rw [List.mem_singleton.mp hmem]
    rfl

/-! ## What every step keeps -/

theorem pinned_new : (new : NatRangeTransport κ).Pinned seams where
  calls i key s h := by obtain ⟨call, hcall, -⟩ := h; cases hcall
  pool key s h := by cases h
  targets i call target rest last h := by cases h
  alone i j key key' s h := by obtain ⟨call, hcall, -⟩ := h; cases hcall
  shared i key key' s h := by obtain ⟨call, hcall, -⟩ := h; cases hcall
  pooled key key' s h := by cases h
  own i call s h := by cases h

/-- A new call has no session. -/
theorem has_of_call {provider : ProviderCandidates κ} {request : PeerRequest}
    (h : ({ t with calls := t.calls ++ [⟨provider, request, .called⟩] } :
      NatRangeTransport κ).Has j key s) : t.Has j key s := by
  obtain ⟨call', hcall', hkey, hsession⟩ := h
  have hconcat : (t.calls ++ [⟨provider, request, .called⟩])[j]? = some call' := hcall'
  rw [List.getElem?_append] at hconcat
  split at hconcat
  · exact ⟨call', hconcat, hkey, hsession⟩
  · obtain rfl := List.mem_singleton.mp (List.mem_of_getElem? hconcat)
    cases hsession

theorem Pinned.newCall (h : t.Pinned seams) (provider : ProviderCandidates κ)
    (request : PeerRequest) :
    ({ t with calls := t.calls ++ [⟨provider, request, .called⟩] } :
      NatRangeTransport κ).Pinned seams where
  calls i key s hhas := h.calls i key s (has_of_call hhas)
  pool := h.pool
  targets i call target rest last hcall hpoint := by
    obtain hcall | ⟨rfl, -⟩ := getElem?_concat_cases hcall
    · exact h.targets i call target rest last hcall hpoint
    · cases hpoint
  alone i j key key' s hi hj := h.alone i j key key' s (has_of_call hi) (has_of_call hj)
  shared i key key' s hi hpool := h.shared i key key' s (has_of_call hi) hpool
  pooled := h.pooled
  own i call s hcall hpoint := by
    obtain hcall | ⟨rfl, -⟩ := getElem?_concat_cases hcall
    · obtain ⟨hpool, halone⟩ := h.own i call s hcall hpoint
      exact ⟨hpool, fun j key hj => halone j key (has_of_call hj)⟩
    · cases hpoint

/-- A session that somebody has, or the pool, was dialled. -/
theorem PinnedTo.lt (h : t.PinnedTo seams s key) : s < t.sessions.length := by
  obtain ⟨target, htarget, -⟩ := h
  obtain ⟨session, hsession, -⟩ := Option.map_eq_some_iff.mp htarget
  exact (List.getElem?_eq_some_iff.mp hsession).1

theorem Pinned.callStep (h : t.Pinned seams) (hcall : t.calls[i]? = some call)
    (hstep : CallStep seams t i call act t') : t'.Pinned seams := by
  -- the session that was dialled last is nobody's but its caller's
  have hfresh : ∀ j key, ¬ t.Has j key t.sessions.length := fun j key hj =>
    Nat.lt_irrefl _ (h.calls _ _ _ hj).lt
  have hunpooled : ∀ key, t.pool key ≠ some t.sessions.length := fun key hpool =>
    Nat.lt_irrefl _ (h.pool _ _ hpool).lt
  have hdialed : ∀ {s}, call.point = .dialed s → t.Has i call.key s := fun hpoint =>
    ⟨call, hcall, rfl, by rw [hpoint]; rfl⟩
  constructor
  case calls =>
    intro j key s hhas
    obtain hhas | ⟨rfl, rfl, ⟨-, target, rest, last, hpoint, htarget⟩ | hpool⟩ :=
      hstep.has hcall hhas
    · exact (h.calls j key s hhas).callStep hstep
    · exact ⟨_, htarget, h.targets _ _ _ _ _ hcall hpoint _ List.mem_cons_self⟩
    · exact (h.pool _ s hpool).callStep hstep
  case pool =>
    intro key s hpool
    obtain hpool | ⟨rfl, hpoint, -⟩ := hstep.pool hpool
    · exact (h.pool key s hpool).callStep hstep
    · exact (h.calls _ _ _ (hdialed hpoint)).callStep hstep
  case targets =>
    intro j call' target rest last hcall' hpoint next hnext
    obtain hold | ⟨hkey, htargets | ⟨first, last', hpoint'⟩⟩ := hstep.dialing hcall hcall' hpoint
    · exact h.targets j call' target rest last hold hpoint next hnext
    · rw [hkey]
      exact peerId_of_targets htargets hnext
    · rw [hkey]
      exact h.targets _ _ _ _ _ hcall hpoint' next (List.mem_cons_of_mem _ hnext)
  case alone =>
    intro j₁ j₂ key key' s h₁ h₂
    obtain h₁ | ⟨rfl, rfl, hnew₁⟩ := hstep.has hcall h₁
    · obtain h₂ | ⟨rfl, rfl, ⟨rfl, -⟩ | hpool⟩ := hstep.has hcall h₂
      · exact h.alone _ _ _ _ _ h₁ h₂
      · exact absurd h₁ (hfresh _ _)
      · exact h.shared _ _ _ _ h₁ hpool
    · obtain h₂ | ⟨rfl, rfl, -⟩ := hstep.has hcall h₂
      · obtain ⟨rfl, -⟩ | hpool := hnew₁
        · exact absurd h₂ (hfresh _ _)
        · exact (h.shared _ _ _ _ h₂ hpool).symm
      · rfl
  case shared =>
    intro j key key' s hhas hpool
    obtain hhas | ⟨rfl, rfl, ⟨rfl, -⟩ | hpool'⟩ := hstep.has hcall hhas
    · obtain hpool | ⟨rfl, hpoint, -⟩ := hstep.pool hpool
      · exact h.shared _ _ _ _ hhas hpool
      · exact h.alone _ _ _ _ _ hhas (hdialed hpoint)
    · obtain hpool | ⟨rfl, hpoint, -⟩ := hstep.pool hpool
      · exact absurd hpool (hunpooled _)
      · rfl
    · obtain hpool | ⟨rfl, -⟩ := hstep.pool hpool
      · exact h.pooled _ _ _ hpool' hpool
      · rfl
  case pooled =>
    intro key key' s h₁ h₂
    obtain h₁ | ⟨rfl, hpoint, -⟩ := hstep.pool h₁
    · obtain h₂ | ⟨rfl, hpoint, -⟩ := hstep.pool h₂
      · exact h.pooled _ _ _ h₁ h₂
      · exact absurd h₁ ((h.own _ _ _ hcall hpoint).1 _)
    · obtain h₂ | ⟨rfl, -⟩ := hstep.pool h₂
      · exact absurd h₂ ((h.own _ _ _ hcall hpoint).1 _)
      · rfl
  case own =>
    intro j call' s hcall' hpoint
    obtain hold | ⟨rfl, -, rfl, -⟩ := hstep.dialed hcall hcall' hpoint
    · have hj : t.Has j call'.key s := ⟨call', hold, rfl, by rw [hpoint]; rfl⟩
      obtain ⟨hpool, halone⟩ := h.own j call' s hold hpoint
      refine ⟨fun key hpool' => ?_, fun j' key hj' => ?_⟩
      · obtain hpool' | ⟨rfl, hfrom, -, hcalls⟩ := hstep.pool hpool'
        · exact hpool key hpool'
        · obtain rfl := halone i _ (hdialed hfrom)
          rw [hcalls, calls_goto hcall, if_pos rfl] at hcall'
          cases hcall'
          cases hpoint
      · obtain hj' | ⟨rfl, rfl, ⟨rfl, -⟩ | hpool'⟩ := hstep.has hcall hj'
        · exact halone j' key hj'
        · exact absurd hj (hfresh _ _)
        · exact absurd hpool' (hpool _)
    · refine ⟨fun key hpool' => ?_, fun j' key hj' => ?_⟩
      · obtain hpool' | ⟨rfl, hfrom, -⟩ := hstep.pool hpool'
        · exact hunpooled key hpool'
        · exact hfresh _ _ (hdialed hfrom)
      · obtain hj' | ⟨rfl, -⟩ := hstep.has hcall hj'
        · exact absurd hj' (hfresh _ _)
        · rfl

theorem pinned_step (h : t.Pinned seams) (hstep : step seams t act = some t') :
    t'.Pinned seams := by
  obtain ⟨provider, request, rfl, rfl⟩ | ⟨i, call, -, hcall, -, hcase⟩ := step_cases hstep
  · exact h.newCall provider request
  · exact h.callStep hcall hcase

theorem pinned_run (hrun : run (step seams) new acts = some t) : t.Pinned seams :=
  invariant (fun _ _ _ h hstep => pinned_step h hstep) pinned_new hrun

/-! ## One request at a time -/

/-- Exactly the call whose request is out over a session has its lock. -/
structure Locked (t : NatRangeTransport κ) : Prop where
  holds : ∀ (i : Nat) (call : Call κ) (s : Nat), t.calls[i]? = some call →
    call.point = .asking s → t.lock? s = some i
  held : ∀ s i, t.lock? s = some i → ∃ call, t.calls[i]? = some call ∧ call.point = .asking s

theorem locked_new : (new : NatRangeTransport κ).Locked where
  holds i call s h := by cases h
  held s i h := by cases h

theorem Locked.newCall (h : t.Locked) (provider : ProviderCandidates κ) (request : PeerRequest) :
    ({ t with calls := t.calls ++ [⟨provider, request, .called⟩] } :
      NatRangeTransport κ).Locked where
  holds i call s hcall hpoint := by
    obtain hcall | ⟨rfl, -⟩ := getElem?_concat_cases hcall
    · exact h.holds i call s hcall hpoint
    · cases hpoint
  held s i hlock := by
    obtain ⟨call, hcall, hpoint⟩ := h.held s i hlock
    obtain ⟨hlt, -⟩ := List.getElem?_eq_some_iff.mp hcall
    exact ⟨call, (List.getElem?_append_left hlt).trans hcall, hpoint⟩

/-- A call that neither had a lock nor gets one goes to a point. -/
theorem Locked.goto (h : t.Locked) (hcall : t.calls[i]? = some call)
    (hbefore : ∀ s, call.point ≠ .asking s) (hafter : ∀ s, point ≠ .asking s) :
    (t.goto i point).Locked where
  holds j call' s hcall' hpoint := by
    rw [calls_goto hcall] at hcall'
    split at hcall'
    · cases hcall'
      exact absurd hpoint (hafter s)
    · exact h.holds j call' s hcall' hpoint
  held s j hlock := by
    obtain ⟨call', hcall', hpoint⟩ := h.held s j hlock
    refine ⟨call', ?_, hpoint⟩
    rw [calls_goto hcall, if_neg, hcall']
    rintro rfl
    rw [hcall] at hcall'
    cases hcall'
    exact hbefore s hpoint

theorem Locked.locks (h : t.Locked) (hcall : t.calls[i]? = some call)
    (hpoint : call.point = .connected s) (htarget : (t.target? s).isSome)
    (hfree : t.lock? s = none) : ((t.setLock s (some i)).goto i (.asking s)).Locked where
  holds j call' s' hcall' hpoint' := by
    have hcall₁ : (t.setLock s (some i)).calls[i]? = some call := hcall
    rw [calls_goto hcall₁] at hcall'
    split at hcall'
    · rename_i hij
      cases hcall'
      cases hpoint'
      rw [lock?_goto, lock?_setLock_self htarget, hij]
    · have hold := h.holds j call' s' hcall' hpoint'
      rw [lock?_goto, lock?_setLock_ne, hold]
      rintro rfl
      rw [hfree] at hold
      cases hold
  held s' j hlock := by
    by_cases hs : s = s'
    · subst hs
      rw [lock?_goto, lock?_setLock_self htarget] at hlock
      cases hlock
      exact ⟨_, (calls_goto hcall).trans (if_pos rfl), rfl⟩
    · rw [lock?_goto, lock?_setLock_ne hs] at hlock
      obtain ⟨call', hcall', hpoint'⟩ := h.held s' j hlock
      refine ⟨call', (calls_goto hcall).trans ?_, hpoint'⟩
      rw [if_neg]
      · exact hcall'
      rintro rfl
      rw [hcall] at hcall'
      cases hcall'
      rw [hpoint] at hpoint'
      cases hpoint'

theorem Locked.unlocks (h : t.Locked) (hcall : t.calls[i]? = some call)
    (hpoint : call.point = .asking s) (hafter : ∀ s, point ≠ .asking s) :
    ((t.setLock s none).goto i point).Locked where
  holds j call' s' hcall' hpoint' := by
    have hcall₁ : (t.setLock s none).calls[i]? = some call := hcall
    rw [calls_goto hcall₁] at hcall'
    split at hcall'
    · cases hcall'
      exact absurd hpoint' (hafter s')
    · rename_i hij
      have hold := h.holds j call' s' hcall' hpoint'
      rw [lock?_goto, lock?_setLock_ne, hold]
      rintro rfl
      rw [h.holds i call s hcall hpoint] at hold
      exact hij (Option.some.inj hold)
  held s' j hlock := by
    by_cases hs : s = s'
    · subst hs
      rw [lock?_goto, lock?_setLock_none] at hlock
      cases hlock
    · rw [lock?_goto, lock?_setLock_ne hs] at hlock
      obtain ⟨call', hcall', hpoint'⟩ := h.held s' j hlock
      refine ⟨call', (calls_goto hcall).trans ?_, hpoint'⟩
      rw [if_neg]
      · exact hcall'
      rintro rfl
      rw [hcall] at hcall'
      cases hcall'
      rw [hpoint] at hpoint'
      cases hpoint'
      exact hs rfl

/-- A session that was just dialled is nobody's to wait for. -/
theorem lock?_concat (target : PeerTarget) :
    ({ t with sessions := t.sessions ++ [⟨target, none⟩] } : NatRangeTransport κ).lock? s
      = t.lock? s := by
  rw [lock?, lock?]
  show ((t.sessions ++ [_])[s]?).bind _ = _
  rw [List.getElem?_append]
  split
  · rfl
  · rename_i hge
    rw [List.getElem?_eq_none (Nat.le_of_not_lt hge)]
    cases hlast : ([⟨target, none⟩] : List PooledConn)[s - t.sessions.length]? with
    | none => rfl
    | some session =>
      rw [List.mem_singleton.mp (List.mem_of_getElem? hlast)]
      rfl

theorem Locked.callStep (h : t.Locked) (hpinned : t.Pinned seams)
    (hcall : t.calls[i]? = some call) (hstep : CallStep seams t i call act t') : t'.Locked := by
  cases hstep with
  | returns hgoing hheld hover hblames =>
    exact h.goto hcall hheld fun s hs => by rw [hs] at hover; cases hover
  | dials hfrom =>
    refine h.goto hcall (fun s hs => ?_) fun s hs => by cases hs
    rw [hs] at hfrom
    simp at hfrom
  | dialled hfrom =>
    have hgoto : (t.goto i (.dialed t.sessions.length)).Locked :=
      h.goto hcall (fun s hs => by rw [hs] at hfrom; cases hfrom) fun s hs => by cases hs
    exact ⟨fun j call' s hcall' hpoint =>
        (lock?_concat _).trans (hgoto.holds j call' s hcall' hpoint),
      fun s j hlock => hgoto.held s j ((lock?_concat _).symm.trans hlock)⟩
  | joins hfrom hpool =>
    refine h.goto hcall (fun s hs => ?_) fun s hs => by cases hs
    rw [hs] at hfrom
    simp at hfrom
  | @inserts _ own hfrom hpool =>
    have hgoto : (t.goto i (.connected own)).Locked :=
      h.goto hcall (fun s hs => by rw [hs] at hfrom; cases hfrom) fun s hs => by cases hs
    exact ⟨hgoto.holds, hgoto.held⟩
  | locks hfrom hfree =>
    obtain ⟨target, htarget, -⟩ :=
      hpinned.calls i call.key _ ⟨call, hcall, rfl, by rw [hfrom]; rfl⟩
    exact h.locks hcall hfrom (by rw [htarget]; rfl) hfree
  | unlocks hfrom hto hblames =>
    refine h.unlocks hcall hfrom fun s hs => ?_
    rw [hs] at hto
    simp [CallPoint.isOver] at hto
  | @evicts _ _ e hfrom =>
    have hgoto : (t.goto i (.returned (.error e))).Locked :=
      h.goto hcall (fun s hs => by rw [hs] at hfrom; cases hfrom) fun s hs => by cases hs
    exact ⟨hgoto.holds, hgoto.held⟩
  | drains hfrom hmore =>
    refine h.goto hcall (fun s hs => ?_) fun s hs => by cases hs
    rw [hs] at hfrom
    simp at hfrom

theorem locked_run (hrun : run (step seams) new acts = some t) : t.Locked := by
  have hinv : t.Pinned seams ∧ t.Locked := by
    refine invariant (I := fun t => t.Pinned seams ∧ t.Locked) (fun t₀ act t₁ h hstep => ?_)
      ⟨pinned_new, locked_new⟩ hrun
    refine ⟨pinned_step h.1 hstep, ?_⟩
    obtain ⟨provider, request, rfl, rfl⟩ | ⟨i, call, -, hcall, -, hcase⟩ := step_cases hstep
    · exact h.2.newCall provider request
    · exact h.2.callStep h.1 hcall hcase
  exact hinv.2

end NatRangeTransport

end DigDownload
