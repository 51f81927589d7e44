import DigDownload.Lib.Past
import DigDownload.Storage

/-!
# What the calls of a run do

One lemma for each call to the sink and to the state store: whatever the host does,
the call ends in one of the listed ways. The proofs about the downloaders use these
lemmas and never unfold a call. On a sound host each call ends in the one way that
is not a failure.
-/

namespace DigDownload

open Slices Prog Past

variable {Ask Own ε α : Type}

/-! ## The outcomes of each call -/

section Outcomes

variable {host : Host} {w : World Ask Own}

/-- What a read that succeeds has read, and what allowed it. -/
theorem Sink.read_ok {s : Sink} {offset len : Nat} {bytes : Bytes}
    (h : s.read offset len = .ok bytes) :
    bytes = slice s.staged offset len ∧ offset + len ≤ s.staged.length ∧
      offset + len ≤ u64Max ∧ s.supportsReadBack = true := by
  unfold Sink.read readBackBounds at h
  cases hadd : checkedAdd offset len with
  | none => simp [hadd] at h
  | some stop =>
    obtain ⟨hfits, rfl⟩ := checkedAdd_eq_some.mp hadd
    simp only [hadd] at h
    split at h
    · cases h
    rename_i hsup
    split at h
    · cases h
    rename_i hlen
    cases h
    exact ⟨rfl, Nat.le_of_not_lt hlen, hfits, by simpa using hsup⟩

/-- A read within what is staged succeeds. -/
theorem Sink.read_of_le {s : Sink} {offset len : Nat} (hsup : s.supportsReadBack = true)
    (hlen : offset + len ≤ s.staged.length) (hfits : offset + len ≤ u64Max) :
    s.read offset len = .ok (slice s.staged offset len) := by
  simp [Sink.read, readBackBounds, checkedAdd_of_le hfits, hsup, hlen]

/-- A write lands whole, or fails with some first part of it landed. -/
theorem wp_sinkWriteAt {offset : Nat} {bytes : Bytes} {Q : Unit → World Ask Own → Prop}
    {E : DownloadError → World Ask Own → Prop}
    (hok : offset + bytes.length ≤ u64Max →
      Q () ({ w with sink := w.sink.write offset bytes }.note (.writeAt offset bytes true)))
    (herr : ∀ e n, E e ({ w with sink := w.sink.write offset (bytes.take n) }.note
      (.writeAt offset (bytes.take n) false))) :
    wp (sinkWriteAt host offset bytes) Q E w := by
  unfold wp sinkWriteAt readBackBounds
  cases hadd : checkedAdd offset bytes.length with
  | none => exact herr _ 0
  | some stop =>
    cases hw : host.writeAt w.tick with
    | none => exact hok (checkedAdd_eq_some.mp hadd).1
    | some f => exact herr f.2 f.1

/-- A read changes nothing, and what it returns is what is staged there. -/
theorem wp_sinkReadAt {offset len : Nat} {Q : Bytes → World Ask Own → Prop}
    {E : DownloadError → World Ask Own → Prop}
    (hok : ∀ bytes, w.sink.read offset len = .ok bytes →
      Q bytes (w.note (.readAt offset len (some bytes))))
    (herr : ∀ e, E e (w.note (.readAt offset len none))) :
    wp (sinkReadAt host offset len) Q E w := by
  unfold wp sinkReadAt
  cases hf : host.readAt w.tick offset len with
  | some e => exact herr e
  | none =>
    cases hr : w.sink.read offset len with
    | ok bytes => exact hok bytes hr
    | error e => exact herr e

/-- A truncation fails exactly when the host says so. -/
theorem wp_sinkTruncate_cases {len : Nat} {Q : Unit → World Ask Own → Prop}
    {E : DownloadError → World Ask Own → Prop}
    (hok : host.truncate w.tick = none →
      Q () ({ w with sink := w.sink.shorten len }.note (.truncate len true)))
    (herr : ∀ e, host.truncate w.tick = some e → E e (w.note (.truncate len false))) :
    wp (sinkTruncate host len) Q E w := by
  unfold wp sinkTruncate
  cases hf : host.truncate w.tick with
  | some e => exact herr e hf
  | none => exact hok hf

theorem wp_sinkTruncate {len : Nat} {Q : Unit → World Ask Own → Prop}
    {E : DownloadError → World Ask Own → Prop}
    (hok : Q () ({ w with sink := w.sink.shorten len }.note (.truncate len true)))
    (herr : ∀ e, E e (w.note (.truncate len false))) :
    wp (sinkTruncate host len) Q E w :=
  wp_sinkTruncate_cases (fun _ => hok) fun e _ => herr e

/-- The staged bytes become the next artifact, or the host refuses. -/
theorem wp_sinkFinalize {Q : Unit → World Ask Own → Prop}
    {E : DownloadError → World Ask Own → Prop}
    (hok : Q () ({ w with sink := w.sink.promote }.note (.finalize true)))
    (herr : ∀ e, E e (w.note (.finalize false))) :
    wp (sinkFinalize host) Q E w := by
  unfold wp sinkFinalize
  cases hf : host.finalize w.tick with
  | some e => exact herr e
  | none => exact hok

/-- Loading a checkpoint fails exactly when the host says so. -/
theorem wp_storeLoad_cases {key : String} {Q : Option DownloadState → World Ask Own → Prop}
    {E : DownloadError → World Ask Own → Prop}
    (hok : host.load w.tick = none → Q (w.store.checkpoints key) (w.note (.load key true)))
    (herr : ∀ e, host.load w.tick = some e → E e (w.note (.load key false))) :
    wp (storeLoad host key) Q E w := by
  unfold wp storeLoad
  cases hf : host.load w.tick with
  | some e => exact herr e hf
  | none => exact hok hf

/-- A load returns the checkpoint as it is, or fails. -/
theorem wp_storeLoad {key : String} {Q : Option DownloadState → World Ask Own → Prop}
    {E : DownloadError → World Ask Own → Prop}
    (hok : Q (w.store.checkpoints key) (w.note (.load key true)))
    (herr : ∀ e, E e (w.note (.load key false))) :
    wp (storeLoad host key) Q E w :=
  wp_storeLoad_cases (fun _ => hok) fun e _ => herr e

/-- A save replaces the checkpoint of its key, or fails and leaves it. -/
theorem wp_storeSave {state : DownloadState} {Q : Unit → World Ask Own → Prop}
    {E : DownloadError → World Ask Own → Prop}
    (hok : Q () ({ w with store := w.store.put state.key (some state) }.note (.save state true)))
    (herr : ∀ e, E e (w.note (.save state false))) :
    wp (storeSave host state) Q E w := by
  unfold wp storeSave
  cases hf : host.save w.tick with
  | some e => exact herr e
  | none => exact hok

/-- A clear removes the checkpoint of its key, or fails and leaves it. -/
theorem wp_storeClear {key : String} {Q : Unit → World Ask Own → Prop}
    {E : DownloadError → World Ask Own → Prop}
    (hok : Q () ({ w with store := w.store.put key none }.note (.clear key true)))
    (herr : ∀ e, E e (w.note (.clear key false))) :
    wp (storeClear host key) Q E w := by
  unfold wp storeClear
  cases hf : host.clear w.tick with
  | some e => exact herr e
  | none => exact hok

/-- A verdict changes the verdicts of the store and nothing else that persists. -/
theorem wp_storeRecordBadDescriptor {key peer : String} {Q : Unit → World Ask Own → Prop}
    {E : DownloadError → World Ask Own → Prop}
    (hok : ∀ verdicts, Q () ({ w with store := { w.store with verdicts } }.note
      (.recordBadDescriptor key peer true)))
    (herr : ∀ e, E e (w.note (.recordBadDescriptor key peer false))) :
    wp (storeRecordBadDescriptor host key peer) Q E w := by
  unfold wp storeRecordBadDescriptor
  cases hf : host.recordBadDescriptor w.tick with
  | some e => exact herr e
  | none => exact hok _

theorem wp_storeBadDescriptorPeers {key : String} {Q : List String → World Ask Own → Prop}
    {E : DownloadError → World Ask Own → Prop}
    (hok : Q (livePeers (w.store.verdicts key) (host.unixNow w.tick))
      (w.note (.badDescriptorPeers key true)))
    (herr : ∀ e, E e (w.note (.badDescriptorPeers key false))) :
    wp (storeBadDescriptorPeers host key) Q E w := by
  unfold wp storeBadDescriptorPeers
  cases hf : host.badDescriptorPeers w.tick with
  | some e => exact herr e
  | none => exact hok

@[simp] theorem wp_ignoringFailure {m : RunM Ask Own Unit} {Q : Unit → World Ask Own → Prop}
    {E : ε → World Ask Own → Prop} :
    wp (ignoringFailure m) Q E w ↔ wp m (fun _ => Q ()) (fun _ => Q ()) w := by
  unfold ignoringFailure
  rw [wp_handle]
  rfl

/-- Promotion: it returns only when exactly the verified prefix has been promoted, and a
refusal leaves the artifacts as they were. -/
theorem wp_promoteVerified {len : Nat} {Q : Unit → World Ask Own → Prop}
    {E : DownloadError → World Ask Own → Prop}
    (hok : ∀ reads, len ≤ w.sink.staged.length → w.sink.supportsReadBack = true →
      (∀ e ∈ reads, ∃ off n b, e = Effect.readAt off n b) →
      Q () { w with
        sink := (w.sink.shorten len).promote
        trace := w.trace ++ [.truncate len true] ++ reads ++ [.finalize true] })
    (herr : ∀ e w', w'.store = w.store → w'.own = w.own → w'.sink.artifacts = w.sink.artifacts →
      (w'.trace = w.trace ++ [.truncate len false] ∨ ∃ reads, ∃ fin ⊆ [Effect.finalize false],
        (∀ e ∈ reads, ∃ off n b, e = Effect.readAt off n b) ∧
        w'.trace = w.trace ++ [.truncate len true] ++ reads ++ fin) → E e w') :
    wp (promoteVerified host len) Q E w := by
  unfold promoteVerified
  rw [wp_bind]
  refine wp_sinkTruncate ?_ (fun e => herr e _ rfl rfl rfl (Or.inl rfl))
  rw [wp_bind, wp_read]
  split
  · exact herr _ _ rfl rfl rfl (Or.inr ⟨[], [], by simp, by simp, by simp⟩)
  rename_i hsup
  have hsup' : w.sink.supportsReadBack = true := by simpa [Sink.shorten] using hsup
  -- the probe past the end and the promotion, after the reads made so far
  have htail : ∀ (reads : List (Effect Ask)) (w₁ : World Ask Own), len ≤ w.sink.staged.length →
      (∀ e ∈ reads, ∃ off n b, e = Effect.readAt off n b) →
      w₁ = { w with
        sink := w.sink.shorten len, trace := w.trace ++ [.truncate len true] ++ reads } →
      wp (promoteVerified.promoteUnlessLonger host len) Q E w₁ := by
    rintro reads w₁ hlen hreads rfl
    unfold promoteVerified.promoteUnlessLonger
    rw [wp_handle]
    refine wp_sinkReadAt (fun bytes _ => ?_) (fun e => ?_)
    · rw [wp_fail]
      refine herr _ _ rfl rfl rfl (Or.inr ⟨reads ++ [.readAt len 1 (some bytes)], [], by simp,
        ?_, by simp⟩)
      simpa [or_imp, forall_and] using hreads
    · refine wp_sinkFinalize ?_ (fun e => ?_)
      · have := hok (reads ++ [.readAt len 1 none]) hlen hsup'
          (by simpa [or_imp, forall_and] using hreads)
        simpa [World.note] using this
      · refine herr _ _ rfl rfl rfl (Or.inr ⟨reads ++ [.readAt len 1 none], [.finalize false],
          by simp, ?_, by simp [World.note]⟩)
        simpa [or_imp, forall_and] using hreads
  split
  · rename_i hpos
    rw [wp_handle]
    refine wp_sinkReadAt (fun bytes hread => ?_) (fun e => ?_)
    · obtain ⟨-, hlen, -, -⟩ := Sink.read_ok hread
      refine htail [.readAt (len - 1) 1 (some bytes)] _ ?_ (by simp) (by simp [World.note])
      simp only [World.note_sink, Sink.shorten, List.length_take] at hlen
      omega
    · rw [wp_fail]
      exact herr _ _ rfl rfl rfl (Or.inr ⟨[.readAt (len - 1) 1 none], [], by simp, by simp,
        by simp [World.note]⟩)
  · rename_i hzero
    refine htail [] _ (by omega) (by simp) (by simp [World.note])

end Outcomes

/-! ## What an effect does to what persists -/

namespace Effect

/-- The staging area and the artifacts after an effect. -/
def onSink : Effect Ask → Sink → Sink
  | .writeAt offset landed _, s => s.write offset landed
  | .truncate len true, s => s.shorten len
  | .finalize true, s => s.promote
  | _, s => s

/-- The checkpoints after an effect. -/
def onCheckpoints : Effect Ask → (String → Option DownloadState) → String → Option DownloadState
  | .save state true, checkpoints => Function.update checkpoints state.key (some state)
  | .clear key true, checkpoints => Function.update checkpoints key none
  | _, checkpoints => checkpoints

/-- An effect that changes neither. -/
def Silent : Effect Ask → Prop
  | .writeAt _ _ _ | .truncate _ true | .finalize true | .save _ true | .clear _ true => False
  | _ => True

/-- A silent effect leaves the staging area. -/
theorem Silent.onSink {e : Effect Ask} (h : e.Silent) (s : Sink) : e.onSink s = s := by
  unfold Effect.onSink
  split
  · exact h.elim
  · exact h.elim
  · exact h.elim
  · rfl

/-- A silent effect leaves the checkpoints. -/
theorem Silent.onCheckpoints {e : Effect Ask} (h : e.Silent)
    (checkpoints : String → Option DownloadState) : e.onCheckpoints checkpoints = checkpoints := by
  unfold Effect.onCheckpoints
  split
  · exact h.elim
  · exact h.elim
  · rfl

end Effect

/-- The staging area and the artifacts after a list of effects. -/
def replaySink (s : Sink) (log : List (Effect Ask)) : Sink := log.foldl (fun s e => e.onSink s) s

/-- The checkpoints after a list of effects. -/
def replayCheckpoints (checkpoints : String → Option DownloadState) (log : List (Effect Ask)) :
    String → Option DownloadState := log.foldl (fun c e => e.onCheckpoints c) checkpoints

section Replay

variable {s : Sink} {checkpoints : String → Option DownloadState} {log log' : List (Effect Ask)}

@[simp] theorem replaySink_nil : replaySink s ([] : List (Effect Ask)) = s := rfl

@[simp] theorem replaySink_append :
    replaySink s (log ++ log') = replaySink (replaySink s log) log' := List.foldl_append

@[simp] theorem replaySink_singleton (e : Effect Ask) : replaySink s [e] = e.onSink s := rfl

@[simp] theorem replayCheckpoints_nil :
    replayCheckpoints checkpoints ([] : List (Effect Ask)) = checkpoints := rfl

@[simp] theorem replayCheckpoints_append :
    replayCheckpoints checkpoints (log ++ log')
      = replayCheckpoints (replayCheckpoints checkpoints log) log' := List.foldl_append

@[simp] theorem replayCheckpoints_singleton (e : Effect Ask) :
    replayCheckpoints checkpoints [e] = e.onCheckpoints checkpoints := rfl

end Replay

/-- `w'` is `w` after some more effects, which account for all that persists. -/
def Replays (w w' : World Ask Own) : Prop :=
  ∃ seg, w'.trace = w.trace ++ seg ∧ w'.sink = replaySink w.sink seg ∧
    w'.store.checkpoints = replayCheckpoints w.store.checkpoints seg

instance : Std.Refl (@Replays Ask Own) := ⟨fun _ => ⟨[], by simp⟩⟩

instance : IsTrans (World Ask Own) Replays := ⟨by
  rintro a b c ⟨s, hs, hsink, hstore⟩ ⟨t, ht, hsink', hstore'⟩
  exact ⟨s ++ t, by simp [ht, hs], by simp [hsink', hsink], by simp [hstore', hstore]⟩⟩

/-! ## The kinds of effects a program has -/

/-- `w'` is `w` after some more effects, all of kind `K`. -/
def Appends (K : Effect Ask → Prop) (w w' : World Ask Own) : Prop :=
  ∃ seg, w'.trace = w.trace ++ seg ∧ ∀ e ∈ seg, K e

section Appends

variable {K K' : Effect Ask → Prop}

instance : Std.Refl (@Appends Ask Own K) := ⟨fun w => ⟨[], by simp, by simp⟩⟩

instance : IsTrans (World Ask Own) (Appends K) := ⟨by
  rintro a b c ⟨s, hs, hks⟩ ⟨t, ht, hkt⟩
  exact ⟨s ++ t, by rw [ht, hs, List.append_assoc], by simpa [or_imp, forall_and] using ⟨hks, hkt⟩⟩⟩

/-- What is appended may be described more loosely. -/
theorem Appends.mono {w w' : World Ask Own} (h : Appends K w w') (hK : ∀ e, K e → K' e) :
    Appends K' w w' := by
  obtain ⟨seg, hseg, hk⟩ := h
  exact ⟨seg, hseg, fun e he => hK e (hk e he)⟩

/-- A program all of whose effects are of kind `K`. -/
abbrev Emits (K : Effect Ask → Prop) (m : Prog (World Ask Own) ε α) : Prop := Steps (Appends K) m

theorem Emits.mono {m : Prog (World Ask Own) ε α} (h : Emits K m) (hK : ∀ e, K e → K' e) :
    Emits K' m := fun w => (h w).mono hK

/-- A relation to the state at the start is a postcondition of it. -/
theorem steps_of_wp {R : World Ask Own → World Ask Own → Prop} {m : Prog (World Ask Own) ε α}
    (h : ∀ w, wp m (fun _ => R w) (fun _ => R w) w) : Steps R m := fun w => wp_same.mp (h w)

/-- `R` relates the states around every effect of kind `K`, whatever it does to the
verdicts. -/
def ClosedUnder (K : Effect Ask → Prop) (R : World Ask Own → World Ask Own → Prop) : Prop :=
  ∀ w (store : StateStore) e, K e → store.checkpoints = e.onCheckpoints w.store.checkpoints →
    R w ({ w with sink := e.onSink w.sink, store }.note e)

theorem ClosedUnder.mono {R : World Ask Own → World Ask Own → Prop} (h : ClosedUnder K' R)
    (hK : ∀ e, K e → K' e) : ClosedUnder K R := fun w store e he => h w store e (hK e he)

theorem closedUnder_appends : ClosedUnder K (@Appends Ask Own K) := fun _ _ e he _ =>
  ⟨[e], rfl, by simpa using he⟩

theorem closedUnder_replays : ClosedUnder K (@Replays Ask Own) := fun _ _ e _ hc =>
  ⟨[e], rfl, rfl, hc⟩

section Calls

variable {host : Host} {R : World Ask Own → World Ask Own → Prop}

/-- An effect that changes neither the sink nor the store. -/
theorem ClosedUnder.note (hR : ClosedUnder K R) (w : World Ask Own) {e : Effect Ask} (he : K e)
    (hs : e.Silent) : R w (w.note e) := by
  have h := hR w w.store e he (hs.onCheckpoints _).symm
  rwa [hs.onSink] at h

theorem steps_sinkWriteAt (hR : ClosedUnder K R) {offset : Nat} {bytes : Bytes}
    (h : ∀ landed ok, K (.writeAt offset landed ok)) :
    Steps R (sinkWriteAt host offset bytes : RunM Ask Own Unit) :=
  steps_of_wp fun w => wp_sinkWriteAt (fun _ => hR w w.store _ (h _ _) rfl)
    (fun _ _ => hR w w.store _ (h _ _) rfl)

theorem steps_sinkReadAt (hR : ClosedUnder K R) {offset len : Nat}
    (h : ∀ answer, K (.readAt offset len answer)) :
    Steps R (sinkReadAt host offset len : RunM Ask Own Bytes) :=
  steps_of_wp fun w => wp_sinkReadAt (fun _ _ => hR.note w (h _) trivial)
    (fun _ => hR.note w (h _) trivial)

theorem steps_sinkTruncate (hR : ClosedUnder K R) {len : Nat} (h : ∀ ok, K (.truncate len ok)) :
    Steps R (sinkTruncate host len : RunM Ask Own Unit) :=
  steps_of_wp fun w => wp_sinkTruncate (hR w w.store _ (h true) rfl) (fun _ => hR.note w (h _) trivial)

theorem steps_sinkFinalize (hR : ClosedUnder K R) (h : ∀ ok, K (.finalize ok)) :
    Steps R (sinkFinalize host : RunM Ask Own Unit) :=
  steps_of_wp fun w => wp_sinkFinalize (hR w w.store _ (h true) rfl) (fun _ => hR.note w (h _) trivial)

theorem steps_storeLoad (hR : ClosedUnder K R) {key : String} (h : ∀ ok, K (.load key ok)) :
    Steps R (storeLoad host key : RunM Ask Own _) :=
  steps_of_wp fun w => wp_storeLoad (hR.note w (h _) trivial) (fun _ => hR.note w (h _) trivial)

theorem steps_storeSave (hR : ClosedUnder K R) {state : DownloadState}
    (h : ∀ ok, K (.save state ok)) : Steps R (storeSave host state : RunM Ask Own Unit) :=
  steps_of_wp fun w => wp_storeSave (hR w _ _ (h true) rfl) (fun _ => hR.note w (h _) trivial)

theorem steps_storeClear (hR : ClosedUnder K R) {key : String} (h : ∀ ok, K (.clear key ok)) :
    Steps R (storeClear host key : RunM Ask Own Unit) :=
  steps_of_wp fun w => wp_storeClear (hR w _ _ (h true) rfl) (fun _ => hR.note w (h _) trivial)

theorem steps_storeRecordBadDescriptor (hR : ClosedUnder K R) {key peer : String}
    (h : ∀ ok, K (.recordBadDescriptor key peer ok)) :
    Steps R (storeRecordBadDescriptor host key peer : RunM Ask Own Unit) :=
  steps_of_wp fun w => wp_storeRecordBadDescriptor (fun _ => hR w _ _ (h _) rfl)
    (fun _ => hR.note w (h _) trivial)

theorem steps_storeBadDescriptorPeers (hR : ClosedUnder K R) {key : String}
    (h : ∀ ok, K (.badDescriptorPeers key ok)) :
    Steps R (storeBadDescriptorPeers host key : RunM Ask Own _) :=
  steps_of_wp fun w => wp_storeBadDescriptorPeers (hR.note w (h _) trivial)
    (fun _ => hR.note w (h _) trivial)

theorem steps_ignoringFailure [Std.Refl R] [IsTrans (World Ask Own) R] {m : RunM Ask Own Unit}
    (h : Steps R m) : Steps R (ignoringFailure m : Prog (World Ask Own) ε Unit) :=
  Steps.handle h fun _ => Steps.pure _

/-- A promotion cuts the staging area and finalizes it, and nothing else. -/
theorem steps_promoteVerified [Std.Refl R] [IsTrans (World Ask Own) R] (hR : ClosedUnder K R)
    {len : Nat} (ht : ∀ ok, K (.truncate len ok))
    (hr : ∀ off n answer, K (.readAt off n answer)) (hf : ∀ ok, K (.finalize ok)) :
    Steps R (promoteVerified host len : RunM Ask Own Unit) := by
  have htail : Steps R (promoteVerified.promoteUnlessLonger host len : RunM Ask Own Unit) :=
    Steps.handle (steps_sinkReadAt hR (hr _ _)) fun r => by
      cases r with
      | ok bytes => exact Steps.fail _
      | error e => exact steps_sinkFinalize hR hf
  unfold promoteVerified
  refine Steps.bind (steps_sinkTruncate hR ht) fun _ => Steps.bind Steps.read fun w => ?_
  split
  · exact Steps.fail _
  split
  · refine Steps.handle (steps_sinkReadAt hR (hr _ _)) fun r => ?_
    cases r with
    | ok bytes => exact htail
    | error e => exact Steps.fail _
  · exact htail

end Calls

/-- `w'` is `w` after some more effects of kind `K`, none of which touched what persists. -/
structure Quiet (K : Effect Ask → Prop) (w w' : World Ask Own) : Prop where
  sink : w'.sink = w.sink
  store : w'.store = w.store
  appends : Appends K w w'

instance : Std.Refl (@Quiet Ask Own K) := ⟨fun w => ⟨rfl, rfl, Std.Refl.refl w⟩⟩

instance : IsTrans (World Ask Own) (Quiet K) :=
  ⟨fun _ _ _ h h' => ⟨h'.sink.trans h.sink, h'.store.trans h.store,
    IsTrans.trans _ _ _ h.appends h'.appends⟩⟩

theorem Quiet.mono {w w' : World Ask Own} (h : Quiet K w w') (hK : ∀ e, K e → K' e) :
    Quiet K' w w' := ⟨h.sink, h.store, h.appends.mono hK⟩

/-- An effect that is noted and changes nothing. -/
theorem Quiet.note {w : World Ask Own} {e : Effect Ask} (he : K e) : Quiet K w (w.note e) :=
  ⟨rfl, rfl, [e], rfl, by simpa using he⟩

/-- `w'` is `w` after some more effects, each of which meets `P` given the trace before it. -/
def AppendsEach (P : List (Effect Ask) → Effect Ask → Prop) (w w' : World Ask Own) : Prop :=
  ∃ seg, w'.trace = w.trace ++ seg ∧ AtEach (fun before => P (w.trace ++ before)) seg

section AppendsEach

variable {P : List (Effect Ask) → Effect Ask → Prop} {w w' : World Ask Own}

instance : Std.Refl (@AppendsEach Ask Own P) := ⟨fun _ => ⟨[], by simp, atEach_nil⟩⟩

instance : IsTrans (World Ask Own) (AppendsEach P) := ⟨by
  rintro a b c ⟨s, hs, hP⟩ ⟨t, ht, hP'⟩
  refine ⟨s ++ t, by rw [ht, hs, List.append_assoc], atEach_append.mpr ⟨hP, ?_⟩⟩
  rw [hs] at hP'
  simpa only [List.append_assoc] using hP'⟩

theorem AppendsEach.of_appends (h : Appends K w w') (hK : ∀ e, K e → ∀ before, P before e) :
    AppendsEach P w w' := by
  obtain ⟨seg, hseg, hk⟩ := h
  exact ⟨seg, hseg, atEach_of_forall fun e he before => hK e (hk e he) _⟩

theorem AppendsEach.note {e : Effect Ask} (h : P w.trace e) : AppendsEach P w (w.note e) :=
  ⟨[e], rfl, atEach_singleton.mpr (by simpa using h)⟩

/-- What holds at each effect of the log goes on to hold as the log grows. -/
theorem AppendsEach.atEach (h : AppendsEach P w w') (hw : AtEach P w.trace) :
    AtEach P w'.trace := by
  obtain ⟨seg, hseg, hP⟩ := h
  rw [hseg]
  exact atEach_append.mpr ⟨hw, hP⟩

end AppendsEach

end Appends

/-! ## A sound host -/

/-- No read of the staging area fails of itself. -/
def Host.ReadsBack (host : Host) : Prop := ∀ t off len, host.readAt t off len = none

/-- No call to the sink or the state store fails. -/
structure Host.Sound (host : Host) : Prop where
  writeAt : ∀ t, host.writeAt t = none
  readAt : host.ReadsBack
  truncate : ∀ t, host.truncate t = none
  finalize : ∀ t, host.finalize t = none
  load : ∀ t, host.load t = none
  save : ∀ t, host.save t = none
  clear : ∀ t, host.clear t = none

theorem Host.healthy_sound : Host.healthy.Sound :=
  ⟨fun _ => rfl, fun _ _ _ => rfl, fun _ => rfl, fun _ => rfl, fun _ => rfl, fun _ => rfl,
    fun _ => rfl⟩

section Sound

variable {host : Host} {w : World Ask Own}

/-- On a sound host a write within the bounds lands whole. -/
theorem wp_sinkWriteAt_sound (hs : host.Sound) {offset : Nat} {bytes : Bytes}
    {Q : Unit → World Ask Own → Prop} {E : DownloadError → World Ask Own → Prop}
    (hfits : offset + bytes.length ≤ u64Max)
    (hok : Q () ({ w with sink := w.sink.write offset bytes }.note (.writeAt offset bytes true))) :
    wp (sinkWriteAt host offset bytes) Q E w := by
  simpa [wp, sinkWriteAt, readBackBounds, checkedAdd_of_le hfits, hs.writeAt] using hok

/-- On a host that reads back a read is what is staged. -/
theorem wp_sinkReadAt_sound (hreads : host.ReadsBack) {offset len : Nat}
    {Q : Bytes → World Ask Own → Prop} {E : DownloadError → World Ask Own → Prop}
    (hok : ∀ bytes, w.sink.read offset len = .ok bytes →
      Q bytes (w.note (.readAt offset len (some bytes))))
    (herr : ∀ e, w.sink.read offset len = .error e → E e (w.note (.readAt offset len none))) :
    wp (sinkReadAt host offset len) Q E w := by
  unfold wp sinkReadAt
  rw [hreads]
  cases hr : w.sink.read offset len with
  | ok bytes => exact hok bytes hr
  | error e => exact herr e hr

theorem wp_sinkTruncate_sound (hs : host.Sound) {len : Nat} {Q : Unit → World Ask Own → Prop}
    {E : DownloadError → World Ask Own → Prop}
    (hok : Q () ({ w with sink := w.sink.shorten len }.note (.truncate len true))) :
    wp (sinkTruncate host len) Q E w :=
  wp_sinkTruncate_cases (fun _ => hok) fun e he => by simp [hs.truncate] at he

theorem wp_sinkFinalize_sound (hs : host.Sound) {Q : Unit → World Ask Own → Prop}
    {E : DownloadError → World Ask Own → Prop}
    (hok : Q () ({ w with sink := w.sink.promote }.note (.finalize true))) :
    wp (sinkFinalize host) Q E w := by
  simpa [wp, sinkFinalize, hs.finalize] using hok

theorem wp_storeLoad_sound (hs : host.Sound) {key : String}
    {Q : Option DownloadState → World Ask Own → Prop}
    {E : DownloadError → World Ask Own → Prop}
    (hok : Q (w.store.checkpoints key) (w.note (.load key true))) :
    wp (storeLoad host key) Q E w :=
  wp_storeLoad_cases (fun _ => hok) fun e he => by simp [hs.load] at he

/-- On a sound host a save succeeds. -/
theorem wp_storeSave_sound (hs : host.Sound) {state : DownloadState}
    {Q : Unit → World Ask Own → Prop} {E : DownloadError → World Ask Own → Prop}
    (hok : Q () ({ w with store := w.store.put state.key (some state) }.note (.save state true))) :
    wp (storeSave host state) Q E w := by
  simpa [wp, storeSave, hs.save] using hok

theorem wp_storeClear_sound (hs : host.Sound) {key : String} {Q : Unit → World Ask Own → Prop}
    {E : DownloadError → World Ask Own → Prop}
    (hok : Q () ({ w with store := w.store.put key none }.note (.clear key true))) :
    wp (storeClear host key) Q E w := by
  simpa [wp, storeClear, hs.clear] using hok

/-- A read past what is staged is refused. -/
theorem Sink.read_past_end {s : Sink} {offset len : Nat} (h : s.staged.length < offset + len)
    {bytes : Bytes} : s.read offset len ≠ .ok bytes := by
  intro hr
  have := (Sink.read_ok hr).2.1
  omega

/-- On a sound host a staging area that covers the verified length is promoted: it is cut
to that length, and the two probes agree. -/
theorem wp_promoteVerified_sound (hs : host.Sound) {len : Nat}
    (hsup : w.sink.supportsReadBack = true) (hlen : len ≤ w.sink.staged.length)
    (hfits : len ≤ u64Max) {Q : Unit → World Ask Own → Prop}
    {E : DownloadError → World Ask Own → Prop}
    (hok : ∀ w', w'.store = w.store → w'.own = w.own →
      w'.sink = (w.sink.shorten len).promote → Q () w') :
    wp (promoteVerified host len) Q E w := by
  have htail : ∀ w₁ : World Ask Own, w₁.store = w.store → w₁.own = w.own →
      w₁.sink = w.sink.shorten len →
      wp (promoteVerified.promoteUnlessLonger host len) Q E w₁ := by
    intro w₁ hstore hown hsink
    unfold promoteVerified.promoteUnlessLonger
    rw [wp_handle]
    refine wp_sinkReadAt_sound hs.readAt (fun bytes hread => ?_) (fun e _ => ?_)
    · refine absurd hread (Sink.read_past_end ?_)
      rw [hsink]
      simp only [Sink.shorten, List.length_take]
      omega
    · exact wp_sinkFinalize_sound hs (hok _ hstore hown (by simp [hsink]))
  unfold promoteVerified
  rw [wp_bind]
  refine wp_sinkTruncate_sound hs ?_
  rw [wp_bind, wp_read]
  split
  · rename_i hno
    simp [Sink.shorten, hsup] at hno
  split
  · rename_i hpos
    rw [wp_handle]
    refine wp_sinkReadAt_sound hs.readAt (fun bytes _ => htail _ rfl rfl rfl) (fun e hread => ?_)
    have hlen' : len - 1 + 1 ≤ (w.sink.shorten len).staged.length := by
      simp only [Sink.shorten, List.length_take]
      omega
    have hsup' : (w.sink.shorten len).supportsReadBack = true := hsup
    rw [World.note_sink, Sink.read_of_le hsup' hlen' (by omega)] at hread
    cases hread
  · exact htail _ rfl rfl rfl

end Sound

end DigDownload
