import DigDownload.Transport.Sessions

/-!
# What becomes of a request

A request reaches the holder that was asked, over the one session that the pool has for it, or
fails with an error that blames that holder and that a download survives. A session that was
evicted is not used for another request.
-/

namespace DigDownload

open Runs

namespace NatRangeTransport

variable {κ Asm : Type} {seams : TransportSeams κ Asm} {t t' t₁ t₂ : NatRangeTransport κ}
  {i j s : Nat} {call call' : Call κ} {act : TransportAct κ}
  {acts before after : List (TransportAct κ)}
  {point : CallPoint} {key : String}

/-! ## Whom it reaches -/

/-- Whatever has a session of a provider has one that was dialled as a target of its peer id,
no two providers share a session, and no two calls hold the lock of one at a time: under it they
query, or open a stream, whose ranges are read after it is released. -/
structure ReachesProvider (seams : TransportSeams κ Asm) (t : NatRangeTransport κ) : Prop where
  pinned : ∀ i key s, t.Has i key s → t.PinnedTo seams s key
  pooled : ∀ key s, t.pool key = some s → t.PinnedTo seams s key
  alone : ∀ i j key key' s, t.Has i key s → t.Has j key' s → key = key'
  exclusive : ∀ (i j : Nat) (call call' : Call κ) (s : Nat), t.calls[i]? = some call →
    t.calls[j]? = some call' → call.point = .asking s → call'.point = .asking s → i = j

/-- Whatever the order of the steps of its calls, a transport sends each request to the
provider that was asked. -/
theorem reachesProvider_run (seams : TransportSeams κ Asm) (acts : List (TransportAct κ))
    (t : NatRangeTransport κ) (hrun : run (step seams) new acts = some t) :
    t.ReachesProvider seams := by
  have hpinned := pinned_run hrun
  have hlocked := locked_run hrun
  constructor
  case pinned => exact hpinned.calls
  case pooled => exact hpinned.pool
  case alone => exact hpinned.alone
  case exclusive =>
    intro i j call call' s hcall hcall' hpoint hpoint'
    have hi := hlocked.holds i call s hcall hpoint
    rw [hlocked.holds j call' s hcall' hpoint'] at hi
    exact (Option.some.inj hi).symm

/-- Two calls that race for a session. -/
theorem reachesProvider_racing :
    ∃ t, run (step smallTransportSeams) new racingCalls = some t ∧
      t.ReachesProvider smallTransportSeams := by
  have hruns : (run (step smallTransportSeams) new racingCalls).isSome := by decide +kernel
  obtain ⟨t, hrun⟩ := Option.isSome_iff_exists.mp hruns
  exact ⟨t, hrun, reachesProvider_run smallTransportSeams racingCalls t hrun⟩

/-! ## A session that was evicted -/

/-- The session is out of the pool and of the hands of whoever could put it there; those who
have it had it in `t`. -/
structure Retired (t : NatRangeTransport κ) (s : Nat) (t' : NatRangeTransport κ) : Prop where
  pool : ∀ key, t'.pool key ≠ some s
  undialed : ∀ (j : Nat) (call : Call κ), t'.calls[j]? = some call → call.point ≠ .dialed s
  had : ∀ j key, t'.Has j key s → t.Has j key s
  dialled : s < t'.sessions.length

theorem CallStep.sessions_length (h : CallStep seams t i call act t') :
    t.sessions.length ≤ t'.sessions.length := by
  cases h with
  | dialled hfrom =>
    show _ ≤ (t.sessions ++ [_]).length
    rw [List.length_append]
    exact Nat.le_add_right _ _
  | locks hfrom hfree => exact (List.length_modify ..).symm.le
  | unlocks hfrom hto hblames => exact (List.length_modify ..).symm.le
  | _ => exact Nat.le_refl _

theorem Retired.step (h : Retired t₁ s t) (hstep : step seams t act = some t') :
    Retired t₁ s t' := by
  obtain ⟨provider, request, rfl, rfl⟩ | ⟨i, call, -, hcall, -, hcase⟩ := step_cases hstep
  · refine ⟨h.pool, fun j call hcall hpoint => ?_, fun j key hj => h.had j key (has_of_call hj),
      h.dialled⟩
    obtain hcall | ⟨rfl, -⟩ := getElem?_concat_cases hcall
    · exact h.undialed j call hcall hpoint
    · cases hpoint
  · constructor
    case pool =>
      intro key hpool
      obtain hpool | ⟨rfl, hpoint, -⟩ := hcase.pool hpool
      · exact h.pool key hpool
      · exact h.undialed i call hcall hpoint
    case undialed =>
      intro j call' hcall' hpoint
      obtain hold | ⟨-, -, rfl, -⟩ := hcase.dialed hcall hcall' hpoint
      · exact h.undialed j call' hold hpoint
      · exact Nat.lt_irrefl _ h.dialled
    case had =>
      intro j key hj
      obtain hj | ⟨-, -, ⟨rfl, -⟩ | hpool⟩ := hcase.has hcall hj
      · exact h.had j key hj
      · exact absurd h.dialled (Nat.lt_irrefl _)
      · exact absurd hpool (h.pool _)
    case dialled => exact Nat.lt_of_lt_of_le h.dialled hcase.sessions_length

/-- The eviction itself takes the session out of the pool. -/
theorem retired_of_evict (hpinned : t.Pinned seams) (hcall : t.calls[i]? = some call)
    {e : DownloadError} (hpoint : call.point = .failed s e)
    (hevict : step seams t (.evict i) = some t₁) : Retired t s t₁ := by
  have hhas : t.Has i call.key s := ⟨call, hcall, rfl, by rw [hpoint]; rfl⟩
  have ht₁ : t₁ = { t.goto i (.returned (.error e)) with
      pool := Function.update t.pool call.key none } := by
    have hstep : ((t.calls[i]?).bind fun call => stepCall seams t i call (.evict i)) = some t₁ :=
      hevict
    rw [hcall, Option.bind_some, stepCall, hpoint] at hstep
    exact (Option.some.inj hstep).symm
  subst ht₁
  constructor
  case pool =>
    intro key hpool
    by_cases hkey : key = call.key
    · subst hkey
      simp at hpool
    · have hold : t.pool key = some s := by simpa [hkey] using hpool
      exact hkey (hpinned.shared _ _ _ _ hhas hold).symm
  case undialed =>
    intro j call' hcall' hdialed
    rw [calls_goto hcall] at hcall'
    split at hcall'
    · cases hcall'
      cases hdialed
    · rename_i hij
      exact hij ((hpinned.own j call' s hcall' hdialed).2 i _ hhas)
  case had => exact fun j key hj => has_of_goto_kept hcall (fun s hs => by cases hs) hj
  case dialled => exact (hpinned.calls _ _ _ hhas).lt

/-- Once the failure of a session has evicted it, the pool never hands it out again: in
whatever state the calls go on to, only those have the session that had it then. -/
theorem evicted_never_handed_out (seams : TransportSeams κ Asm)
    (before after : List (TransportAct κ)) (t t₁ t₂ : NatRangeTransport κ) (i s : Nat)
    (call : Call κ) (e : DownloadError) (hbefore : run (step seams) new before = some t)
    (hcall : t.calls[i]? = some call) (hpoint : call.point = .failed s e)
    (hevict : step seams t (.evict i) = some t₁) (hafter : run (step seams) t₁ after = some t₂) :
    (∀ key, t₂.pool key ≠ some s) ∧ ∀ j key, t₂.Has j key s → t.Has j key s := by
  have hretired : Retired t s t₂ :=
    invariant (fun _ _ _ h hstep => h.step hstep)
      (retired_of_evict (pinned_run hbefore) hcall hpoint hevict) hafter
  exact ⟨hretired.pool, hretired.had⟩

/-- A session that was evicted, and another that is dialled after it. -/
theorem evicted_failing : ∃ t t₁ t₂,
    run (step smallTransportSeams) new failingCall = some t ∧
      step smallTransportSeams t (.evict 0) = some t₁ ∧
      run (step smallTransportSeams) t₁ [.call paddedProvider (.getAvailability []), .lookUp 1,
        .dial 1 (.ok ()), .insert 1] = some t₂ ∧
      (∀ key, t₂.pool key ≠ some 0) ∧ ∀ j key, t₂.Has j key 0 → t.Has j key 0 := by
  have hruns : (run (step smallTransportSeams) new failingCall).isSome := by decide +kernel
  have hcalls : ∀ t ∈ run (step smallTransportSeams) new failingCall, t.calls[0]? = some
      ⟨paddedProvider, .getAvailability [], .failed 0 (.transport holderA "reset")⟩ := by
    decide +kernel
  have hevicts : ∀ t ∈ run (step smallTransportSeams) new failingCall,
      (step smallTransportSeams t (.evict 0)).isSome := by decide +kernel
  have hredials : ∀ t ∈ run (step smallTransportSeams) new failingCall,
      ∀ t₁ ∈ step smallTransportSeams t (.evict 0),
        (run (step smallTransportSeams) t₁ [.call paddedProvider (.getAvailability []), .lookUp 1,
          .dial 1 (.ok ()), .insert 1]).isSome := by decide +kernel
  obtain ⟨t, hrun⟩ := Option.isSome_iff_exists.mp hruns
  obtain ⟨t₁, hevict⟩ := Option.isSome_iff_exists.mp (hevicts t hrun)
  obtain ⟨t₂, hafter⟩ := Option.isSome_iff_exists.mp (hredials t hrun t₁ hevict)
  exact ⟨t, t₁, t₂, hrun, hevict, hafter,
    evicted_never_handed_out smallTransportSeams failingCall _ t t₁ t₂ 0 0 _ _ hrun
      (hcalls t hrun) rfl hevict hafter⟩

/-! ## One session for a provider -/

/-- The action does not evict a session of the provider. -/
def SparesKey (key : String) (t : NatRangeTransport κ) (act : TransportAct κ) : Prop :=
  ∀ (i : Nat) (call : Call κ), act = .evict i → t.calls[i]? = some call → call.key ≠ key

/-- The `i`-th call is one of the provider `key`, and has the session for its request. -/
def Uses (t : NatRangeTransport κ) (i : Nat) (key : String) (s : Nat) : Prop :=
  ∃ call ∈ t.calls[i]?, call.key = key ∧ call.point.session? = some s ∧ call.point ≠ .dialed s

instance : Decidable (t.Uses i key s) :=
  inferInstanceAs (Decidable (∃ call ∈ t.calls[i]?, _))

/-- Every call of the provider that is past its dial has the session of the pool. -/
def SharesPool (key : String) (t : NatRangeTransport κ) : Prop :=
  ∀ i s, t.Uses i key s → t.pool key = some s

/-- The pool keeps a session until it is evicted. -/
theorem CallStep.pool_kept (h : CallStep seams t i call act t')
    (hspares : ∀ j, act = .evict j → call.key ≠ key) (hpool : t.pool key = some s) :
    t'.pool key = some s := by
  cases h with
  | inserts hfrom hnone =>
    have hkey : key ≠ call.key := by
      rintro rfl
      rw [hnone] at hpool
      cases hpool
    simpa [hkey] using hpool
  | evicts hfrom =>
    have hkey : key ≠ call.key := (hspares _ rfl).symm
    simpa [hkey] using hpool
  | _ => exact hpool

/-- A call comes past its dial with the session of the pool. -/
theorem CallStep.uses (h : CallStep seams t i call act t') (hcall : t.calls[i]? = some call)
    (huses : t'.Uses j key s) : t.Uses j key s ∨ t'.pool key = some s := by
  obtain ⟨call', hcall', hkey, hs, hjoined⟩ := huses
  have hgoto : ∀ {point : CallPoint}, (t.goto i point).calls[j]? = some call' →
      (point.session? = some s → call.point.session? = some s ∧ call.point ≠ .dialed s) →
      t.Uses j key s := by
    intro point hgoto hkept
    rw [calls_goto hcall] at hgoto
    split at hgoto
    · rename_i hij
      subst hij
      cases hgoto
      exact ⟨call, hcall, hkey, hkept hs⟩
    · exact ⟨call', hgoto, hkey, hs, hjoined⟩
  cases h with
  | returns hgoing hheld hover hblames =>
    refine .inl (hgoto hcall' fun hpoint => ?_)
    rw [session?_of_isOver hover] at hpoint
    cases hpoint
  | dials hfrom => exact .inl (hgoto hcall' fun hpoint => by cases hpoint)
  | dialled hfrom =>
    have hcalls : (t.goto i (.dialed t.sessions.length)).calls[j]? = some call' := hcall'
    rw [calls_goto hcall] at hcalls
    split at hcalls
    · cases hcalls
      cases hs
      exact absurd rfl hjoined
    · exact .inl ⟨call', hcalls, hkey, hs, hjoined⟩
  | joins hfrom hpool =>
    rw [calls_goto hcall] at hcall'
    split at hcall'
    · cases hcall'
      cases hs
      exact .inr (hkey ▸ hpool)
    · exact .inl ⟨call', hcall', hkey, hs, hjoined⟩
  | @inserts _ own hfrom hpool =>
    have hcalls : (t.goto i (.connected own)).calls[j]? = some call' := hcall'
    rw [calls_goto hcall] at hcalls
    split at hcalls
    · cases hcalls
      cases hs
      subst hkey
      exact .inr (by simp [Call.key])
    · exact .inl ⟨call', hcalls, hkey, hs, hjoined⟩
  | locks hfrom hfree =>
    refine .inl (hgoto hcall' fun hpoint => ?_)
    rw [hfrom]
    exact ⟨hpoint, by simp⟩
  | unlocks hfrom hto hblames =>
    refine .inl (hgoto hcall' fun hpoint => ?_)
    rw [hfrom]
    obtain hover | ⟨rfl, -⟩ | ⟨e, rfl⟩ := hto
    · rw [session?_of_isOver hover] at hpoint
      cases hpoint
    · exact ⟨hpoint, by simp⟩
    · exact ⟨hpoint, by simp⟩
  | evicts hfrom => exact .inl (hgoto hcall' fun hpoint => by cases hpoint)
  | drains hfrom hmore =>
    refine .inl (hgoto hcall' fun hpoint => ?_)
    obtain hfrom | ⟨fetched', drained', hfrom, -⟩ := hfrom
    · rw [hfrom]
      exact ⟨hpoint, by simp⟩
    · rw [hfrom]
      exact ⟨hpoint, by simp⟩

theorem SharesPool.step (h : SharesPool key t) (hspares : SparesKey key t act)
    (hstep : step seams t act = some t') : SharesPool key t' := by
  obtain ⟨provider, request, rfl, rfl⟩ | ⟨i, call, hact, hcall, -, hcase⟩ := step_cases hstep
  · intro j s huses
    obtain ⟨call, hcall, hkey, hs, hjoined⟩ := huses
    obtain hcall | ⟨rfl, -⟩ := getElem?_concat_cases hcall
    · exact h j s ⟨call, hcall, hkey, hs, hjoined⟩
    · cases hs
  · intro j s huses
    obtain hold | hpool := hcase.uses hcall huses
    · refine hcase.pool_kept (fun k hk => ?_) (h j s hold)
      subst hk
      cases hact
      exact hspares _ call rfl hcall
    · exact hpool

/-- Until a session of a provider is evicted, all the calls of the provider that are past their
dials use one session, however many of them dialled at the same time. -/
theorem one_session_for_a_provider (seams : TransportSeams κ Asm) (key : String)
    (acts : List (TransportAct κ)) (t : NatRangeTransport κ) (i j s s' : Nat)
    (hrun : run (step seams) new acts = some t)
    (hspares : Along (step seams) (SparesKey key) new acts) (hi : t.Uses i key s)
    (hj : t.Uses j key s') : s = s' := by
  have hshares : SharesPool key t := by
    refine invariant_along (fun _ _ _ h hspares hstep => h.step hspares hstep) ?_ hspares hrun
    rintro i s ⟨call, hcall, -⟩
    cases hcall
  have hpool := hshares i s hi
  rw [hshares j s' hj] at hpool
  exact (Option.some.inj hpool).symm

/-- Two calls that dialled at the same time. -/
theorem one_session_racing :
    ∃ t, run (step smallTransportSeams) new racingCalls = some t ∧
      ∀ s s', t.Uses 0 holderA s → t.Uses 1 holderA s' → s = s' := by
  have hruns : (run (step smallTransportSeams) new racingCalls).isSome := by decide +kernel
  have hspares : ∀ act ∈ racingCalls, ∀ t, SparesKey holderA t act := by
    intro act hact t i call hevict
    subst hevict
    simp [racingCalls] at hact
  obtain ⟨t, hrun⟩ := Option.isSome_iff_exists.mp hruns
  exact ⟨t, hrun, fun s s' => one_session_for_a_provider smallTransportSeams holderA racingCalls t
    0 1 s s' hrun (along_of_forall hspares)⟩

/-! ## Whom an error blames -/

/-- Each call that has failed blames its own provider. -/
def BlamesProviders (t : NatRangeTransport κ) : Prop :=
  ∀ (i : Nat) (call : Call κ), t.calls[i]? = some call → call.point.Blames call.key

theorem BlamesProviders.callStep (hblames : t.BlamesProviders) (hcall : t.calls[i]? = some call)
    (h : CallStep seams t i call act t') : t'.BlamesProviders := by
  intro j call' hcall'
  have hgoto : ∀ {point : CallPoint}, (t.goto i point).calls[j]? = some call' →
      point.Blames call.key → call'.point.Blames call'.key := by
    intro point hgoto hpoint
    rw [calls_goto hcall] at hgoto
    split at hgoto
    · cases hgoto
      exact hpoint
    · exact hblames j call' hgoto
  cases h with
  | returns hgoing hheld hover hpoint => exact hgoto hcall' hpoint
  | unlocks hfrom hto hpoint => exact hgoto hcall' hpoint
  | evicts hfrom =>
    refine hgoto hcall' ?_
    have := hblames i call hcall
    rw [hfrom] at this
    exact this
  | _ => exact hgoto hcall' trivial

/-- Whatever a call fails with, it is an error that a download survives, and it names the
provider that was asked. -/
theorem transport_blames (seams : TransportSeams κ Asm) (acts : List (TransportAct κ))
    (t : NatRangeTransport κ) (i : Nat) (call : Call κ) (e : DownloadError)
    (hrun : run (step seams) new acts = some t) (hcall : t.calls[i]? = some call)
    (hfails : call.point = .returned (.error e)) : e.Blames call.key := by
  have hblames : t.BlamesProviders := by
    refine invariant (fun t act t' h hstep => ?_) (fun j call hcall => by cases hcall) hrun
    obtain ⟨provider, request, rfl, rfl⟩ | ⟨i, call, -, hcall, -, hcase⟩ := step_cases hstep
    · intro j call hcall
      obtain hcall | ⟨rfl, -⟩ := getElem?_concat_cases hcall
      · exact h j call hcall
      · trivial
    · exact h.callStep hcall hcase
  have := hblames i call hcall
  rw [hfails] at this
  exact this

/-- A call whose request failed. -/
theorem transport_blames_failing :
    ∃ t, run (step smallTransportSeams) new (failingCall ++ [.evict 0]) = some t ∧
      (DownloadError.transport holderA "reset").Blames holderA := by
  have hruns : (run (step smallTransportSeams) new (failingCall ++ [.evict 0])).isSome := by
    decide +kernel
  have hcalls : ∀ t ∈ run (step smallTransportSeams) new (failingCall ++ [.evict 0]),
      t.calls[0]? = some ⟨paddedProvider, .getAvailability [],
        .returned (.error (.transport holderA "reset"))⟩ := by decide +kernel
  obtain ⟨t, hrun⟩ := Option.isSome_iff_exists.mp hruns
  exact ⟨t, hrun, transport_blames smallTransportSeams _ t 0 _ _ hrun (hcalls t hrun) rfl⟩

end NatRangeTransport

end DigDownload
