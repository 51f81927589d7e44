import DigDownload.Calls
import DigDownload.Sinks.Impl

/-!
# The proof before a promotion

`promote_verified` shortens the staging area to the verified length and then proves its
length from both sides with two reads of one byte. Over every sink that reads truthfully it
finalizes exactly the staging areas that hold as many bytes as were verified, whatever the
sink does when it is told to shorten itself.
-/

namespace DigDownload

open Slices Prog

namespace SinkImpl

variable {σ : Type}

/-- Promote the staging area of a sink. -/
def promoteVerified (S : SinkImpl σ) (verifiedLen : Nat) : Prog σ DownloadError Unit := do
  S.truncate verifiedLen
  let s ← Prog.read
  if S.supportsReadBack s = false then
    Prog.fail (.verify (.metadata (s!"this sink cannot read back its staging area, so a " ++
      s!"promotion of {verifiedLen} verified byte(s) cannot be proven to be the verified " ++
      "artifact; refusing to promote")))
  else if 0 < verifiedLen then
    Prog.handle (S.readAt (verifiedLen - 1) 1) fun
      | .error _ => Prog.fail (.verify (.metadata (s!"staging area is SHORTER than the " ++
          s!"verified length {verifiedLen}; refusing to promote a partial artifact as the " ++
          "verified one")))
      | .ok _ => promoteUnlessLonger
  else
    promoteUnlessLonger
where
  promoteUnlessLonger : Prog σ DownloadError Unit :=
    Prog.handle (S.readAt verifiedLen 1) fun
      | .ok _ => Prog.fail (.verify (.metadata (s!"staging area holds bytes past the verified " ++
          s!"length {verifiedLen}; refusing to promote an artifact that is not the verified one")))
      | .error _ => S.finalize

/-- The sink with its calls of `finalize` counted. -/
def counting (S : SinkImpl σ) : SinkImpl (σ × Nat) where
  writeAt offset bytes := onFst (S.writeAt offset bytes)
  finalize := fun s => ((S.finalize s.1).1, ((S.finalize s.1).2, s.2 + 1))
  truncate len := onFst (S.truncate len)
  supportsReadBack s := S.supportsReadBack s.1
  readAt offset len := onFst (S.readAt offset len)

/-- In the states `V` the sink reads its staged bytes truthfully, and `truncate` shortens
them to no less than it is told to, or leaves them, whether it fails or not. -/
structure Truthful (S : SinkImpl σ) (V : σ → Prop) (staged : σ → Bytes) : Prop where
  truncate : ∀ len s, V s → V (S.truncate len s).2 ∧
    ∃ n, len ≤ n ∧ staged (S.truncate len s).2 = (staged s).take n
  reads : ∀ offset len s, V s → V (S.readAt offset len s).2 ∧
    staged (S.readAt offset len s).2 = staged s
  readAt : ∀ offset len s, V s → S.supportsReadBack s = true → 0 < len → ∀ bytes,
    (S.readAt offset len s).1 = .ok bytes ↔
      offset + len ≤ (staged s).length ∧ bytes = slice (staged s) offset len
  supports : ∀ offset len s, V s →
    S.supportsReadBack (S.readAt offset len s).2 = S.supportsReadBack s

section Truthful

variable {S : SinkImpl σ} {V : σ → Prop} {staged : σ → Bytes} {s s' : σ} {offset len : Nat}

/-- A read says whether its window is staged. -/
theorem Truthful.isOk_iff (h : S.Truthful V staged) (hs : V s)
    (hsup : S.supportsReadBack s = true) (hlen : 0 < len) :
    (∃ bytes, (S.readAt offset len s).1 = .ok bytes) ↔ offset + len ≤ (staged s).length := by
  constructor
  · intro ⟨bytes, hbytes⟩
    exact ((h.readAt offset len s hs hsup hlen bytes).mp hbytes).1
  · intro hle
    exact ⟨_, (h.readAt offset len s hs hsup hlen _).mpr ⟨hle, rfl⟩⟩

theorem Truthful.read_of_le (h : S.Truthful V staged) (hs : V s)
    (hsup : S.supportsReadBack s = true) (hlen : 0 < len)
    (hle : offset + len ≤ (staged s).length) :
    ∃ bytes s', S.readAt offset len s = (.ok bytes, s') ∧ V s' ∧ staged s' = staged s ∧
      S.supportsReadBack s' = true := by
  obtain ⟨bytes, hbytes⟩ := (h.isOk_iff hs hsup hlen).mpr hle
  exact ⟨bytes, _, Prod.ext hbytes rfl, (h.reads offset len s hs).1, (h.reads offset len s hs).2,
    (h.supports offset len s hs).trans hsup⟩

theorem Truthful.read_of_lt (h : S.Truthful V staged) (hs : V s)
    (hsup : S.supportsReadBack s = true) (hlen : 0 < len)
    (hlt : (staged s).length < offset + len) :
    ∃ e s', S.readAt offset len s = (.error e, s') ∧ V s' ∧ staged s' = staged s := by
  cases hr : S.readAt offset len s with
  | mk answer s' =>
    have hkept := h.reads offset len s hs
    rw [hr] at hkept
    cases answer with
    | error e => exact ⟨e, s', rfl, hkept⟩
    | ok bytes =>
      have hle := (h.isOk_iff hs hsup hlen).mp ⟨bytes, congrArg Prod.fst hr⟩
      exact absurd hle (Nat.not_le.mpr hlt)

/-- Counting the calls does not change what a sink reports. -/
theorem Truthful.counting (h : S.Truthful V staged) (n : Nat) :
    S.counting.Truthful (fun s => V s.1 ∧ s.2 = n) (fun s => staged s.1) where
  truncate len s hs := ⟨⟨(h.truncate len s.1 hs.1).1, hs.2⟩, (h.truncate len s.1 hs.1).2⟩
  reads offset len s hs := ⟨⟨(h.reads offset len s.1 hs.1).1, hs.2⟩, (h.reads offset len s.1 hs.1).2⟩
  readAt offset len s hs := h.readAt offset len s.1 hs.1
  supports offset len s hs := h.supports offset len s.1 hs.1

end Truthful

/-! ## The ways a promotion ends -/

/-- The staging area was shortened, can be read back, and holds `len` bytes. -/
def ExactlyStaged (S : SinkImpl σ) (staged : σ → Bytes) (len : Nat) (s : σ) : Prop :=
  (S.truncate len s).1 = .ok () ∧ S.supportsReadBack (S.truncate len s).2 = true ∧
    (staged (S.truncate len s).2).length = len

section Endings

variable {S : SinkImpl σ} {V : σ → Prop} {staged : σ → Bytes} {s : σ} {len : Nat}
  {Q : Unit → σ → Prop} {E : DownloadError → σ → Prop}

/-- The probe of the byte past the end. -/
theorem wp_promoteUnlessLonger (h : S.Truthful V staged) (hs : V s)
    (hsup : S.supportsReadBack s = true)
    (hlonger : len < (staged s).length → ∀ e s', V s' → staged s' = staged s → E e s')
    (hexact : (staged s).length ≤ len → ∀ s', V s' → staged s' = staged s →
      wp S.finalize Q E s') :
    wp (promoteVerified.promoteUnlessLonger S len) Q E s := by
  rw [promoteVerified.promoteUnlessLonger, wp_handle]
  by_cases hle : len + 1 ≤ (staged s).length
  · obtain ⟨bytes, s', hread, hv, hstaged, -⟩ := h.read_of_le hs hsup Nat.one_pos hle
    rw [wp_of_run_ok hread]
    exact hlonger hle _ s' hv hstaged
  · obtain ⟨e, s', hread, hv, hstaged⟩ := h.read_of_lt hs hsup Nat.one_pos (Nat.lt_of_not_le hle)
    rw [wp_of_run_error hread]
    exact hexact (Nat.le_of_lt_succ (Nat.lt_of_not_le hle)) s' hv hstaged

/-- A promotion finalizes the staging area if it holds exactly the verified bytes, and is
refused otherwise; the probes leave it as `truncate` left it. -/
theorem wp_promoteVerified (h : S.Truthful V staged) (hs : V s)
    (hrefused : ¬ S.ExactlyStaged staged len s → ∀ e s', V s' →
      staged s' = staged (S.truncate len s).2 → E e s')
    (hproven : S.ExactlyStaged staged len s → ∀ s', V s' →
      staged s' = staged (S.truncate len s).2 → wp S.finalize Q E s') :
    wp (S.promoteVerified len) Q E s := by
  obtain ⟨hv, -⟩ := h.truncate len s hs
  cases htr : S.truncate len s with
  | mk answer s₁ =>
    rw [ExactlyStaged, htr] at hrefused hproven
    rw [htr] at hv
    rw [promoteVerified, wp_bind]
    cases answer with
    | error e =>
      rw [wp_of_run_error htr]
      exact hrefused (fun hexact => by cases hexact.1) e s₁ hv rfl
    | ok =>
      rw [wp_of_run_ok htr, wp_bind, wp_read]
      split
      · rename_i hsup
        exact hrefused (fun hexact => by simp [hsup] at hexact) _ s₁ hv rfl
      rename_i hsup
      have hsup' : S.supportsReadBack s₁ = true := by simpa using hsup
      -- the second probe, in a state the first one may have left
      have hprobe : len ≤ (staged s₁).length → ∀ s₂, V s₂ → staged s₂ = staged s₁ →
          S.supportsReadBack s₂ = true →
          wp (promoteVerified.promoteUnlessLonger S len) Q E s₂ := by
        intro hlen s₂ hv₂ hstaged₂ hsup₂
        apply wp_promoteUnlessLonger h hv₂ hsup₂
        · intro hlt e s' hv' hstaged'
          rw [hstaged₂] at hlt
          exact hrefused (fun hexact => Nat.ne_of_gt hlt hexact.2.2) e s' hv'
            (hstaged'.trans hstaged₂)
        · intro hle s' hv' hstaged'
          rw [hstaged₂] at hle
          exact hproven ⟨rfl, hsup', Nat.le_antisymm hle hlen⟩ s' hv' (hstaged'.trans hstaged₂)
      split
      · rename_i hpos
        rw [wp_handle]
        by_cases hle : len - 1 + 1 ≤ (staged s₁).length
        · obtain ⟨bytes, s₂, hread, hv₂, hstaged₂, hsup₂⟩ := h.read_of_le hv hsup' Nat.one_pos hle
          rw [wp_of_run_ok hread]
          exact hprobe (by omega) s₂ hv₂ hstaged₂ hsup₂
        · obtain ⟨e, s₂, hread, hv₂, hstaged₂⟩ := h.read_of_lt hv hsup' Nat.one_pos
            (Nat.lt_of_not_le hle)
          rw [wp_of_run_error hread]
          refine hrefused (fun hexact => hle ?_) _ s₂ hv₂ hstaged₂
          rw [Nat.sub_add_cancel hpos]
          exact Nat.le_of_eq hexact.2.2.symm
      · exact hprobe (by omega) s₁ hv rfl hsup'

/-- A promotion is a call of `finalize` or a refusal. -/
def Ends (S : SinkImpl σ) (V : σ → Prop) (staged : σ → Bytes) (len : Nat) (s : σ)
    (answer : Except DownloadError Unit) (t : σ) : Prop :=
  (S.ExactlyStaged staged len s → ∃ s', V s' ∧ staged s' = staged (S.truncate len s).2 ∧
    (answer, t) = S.finalize s') ∧
  (¬ S.ExactlyStaged staged len s → (∃ e, answer = .error e) ∧ V t ∧
    staged t = staged (S.truncate len s).2)

theorem promoteVerified_ends (h : S.Truthful V staged) (hs : V s) :
    S.Ends V staged len s (S.promoteVerified len s).1 (S.promoteVerified len s).2 := by
  have hwp : wp (S.promoteVerified len) (fun a => S.Ends V staged len s (.ok a))
      (fun e => S.Ends V staged len s (.error e)) s := by
    apply wp_promoteVerified h hs
    · intro hnot e s' hv hstaged
      exact ⟨fun hexact => absurd hexact hnot, fun _ => ⟨⟨e, rfl⟩, hv, hstaged⟩⟩
    · intro hexact s' hv hstaged
      have hfin : S.Ends V staged len s (S.finalize s').1 (S.finalize s').2 :=
        ⟨fun _ => ⟨s', hv, hstaged, rfl⟩, fun hnot => absurd hexact hnot⟩
      exact wp_outcome.mpr hfin
  exact wp_outcome.mp hwp

end Endings

end SinkImpl

/-! ## The sinks that are promoted -/

open SinkImpl

theorem inMemorySink_truthful : inMemorySink.Truthful (fun _ => True) Inner.buf where
  truncate len _ _ := ⟨trivial, len, Nat.le_refl _, InMemorySink.buf_truncate.2⟩
  reads _ _ _ _ := ⟨trivial, congrArg Inner.buf InMemorySink.readAt_inner⟩
  readAt offset len inner _ _ _ bytes := by
    show (InMemorySink.readAt offset len inner).1 = .ok bytes ↔ _
    cases Nat.lt_or_ge inner.buf.length (offset + len) with
    | inl hlt =>
      obtain ⟨e, hread⟩ := InMemorySink.readAt_of_lt hlt
      simp [hread, Nat.not_le.mpr hlt]
    | inr hle => simp [InMemorySink.readAt_of_le hle, hle, eq_comm]
  supports _ _ _ _ := rfl

theorem fileSink_truthful : fileSink.Truthful (fun _ => True) SinkFiles.staged where
  truncate len _ _ := ⟨trivial, len, Nat.le_refl _, FileSink.staged_truncate.2⟩
  reads offset len files _ := ⟨trivial, congrArg SinkFiles.staged FileSink.readAt_files⟩
  readAt offset len files _ _ hlen bytes := by
    show (FileSink.readAt offset len files).1 = .ok bytes ↔ _
    cases Nat.lt_or_ge files.staged.length (offset + len) with
    | inl hlt =>
      obtain ⟨e, hread⟩ := FileSink.readAt_of_lt hlt hlen
      simp [hread, Nat.not_le.mpr hlt]
    | inr hle => simp [FileSink.readAt_of_le hlen hle, hle, eq_comm]
  supports _ _ _ _ := rfl

/-- The calls of a run to its sink. -/
def hostSink {Ask Own : Type} (host : Host) : SinkImpl (World Ask Own) where
  writeAt := sinkWriteAt host
  finalize := sinkFinalize host
  truncate := sinkTruncate host
  supportsReadBack w := w.sink.supportsReadBack
  readAt := sinkReadAt host

/-- Both downloaders promote what they downloaded this way. -/
theorem hostSink_promoteVerified {Ask Own : Type} (host : Host) (len : Nat) :
    (hostSink host : SinkImpl (World Ask Own)).promoteVerified len = promoteVerified host len := rfl

theorem hostSink_truthful {Ask Own : Type} {host : Host} (hreads : host.ReadsBack) :
    (hostSink host : SinkImpl (World Ask Own)).Truthful
      (fun w => w.sink.staged.length ≤ u64Max) (fun w => w.sink.staged) where
  truncate len w hw := by
    show (sinkTruncate host len w).2.sink.staged.length ≤ u64Max ∧
      ∃ n, len ≤ n ∧ (sinkTruncate host len w).2.sink.staged = w.sink.staged.take n
    rw [sinkTruncate]
    cases host.truncate w.tick with
    | none => exact ⟨(List.length_take_le' len _).trans hw, len, Nat.le_refl _, rfl⟩
    | some e =>
      refine ⟨hw, max len w.sink.staged.length, Nat.le_max_left _ _, ?_⟩
      exact (List.take_of_length_le (Nat.le_max_right _ _)).symm
  reads offset len w hw := by
    have hsink : (sinkReadAt host offset len w).2.sink = w.sink := by
      rw [sinkReadAt]
      split <;> rfl
    show (sinkReadAt host offset len w).2.sink.staged.length ≤ u64Max ∧
      (sinkReadAt host offset len w).2.sink.staged = w.sink.staged
    rw [hsink]
    exact ⟨hw, rfl⟩
  readAt offset len w hw hsup _ bytes := by
    show (sinkReadAt host offset len w).1 = .ok bytes ↔
      offset + len ≤ w.sink.staged.length ∧ bytes = slice w.sink.staged offset len
    rw [sinkReadAt, hreads]
    constructor
    · intro h
      cases hr : w.sink.read offset len with
      | error e =>
        rw [hr] at h
        cases h
      | ok b =>
        rw [hr] at h
        cases h
        exact ⟨(Sink.read_ok hr).2.1, (Sink.read_ok hr).1⟩
    · intro h
      rw [Sink.read_of_le hsup h.1 (h.1.trans hw), h.2]
  supports offset len w _ := by
    show (sinkReadAt host offset len w).2.sink.supportsReadBack = w.sink.supportsReadBack
    rw [sinkReadAt]
    split <;> rfl

/-! ## The promotion with its calls of `finalize` -/

namespace SinkImpl

variable {σ : Type}

/-- What a promotion ends with, the state it leaves, and how often it called `finalize`. -/
def promoting (S : SinkImpl σ) (len : Nat) (s : σ) : Except DownloadError Unit × σ × Nat :=
  S.counting.promoteVerified len (s, 0)

/-- Counting the calls changes nothing else. -/
theorem promoting_eq (S : SinkImpl σ) (len : Nat) (s : σ) :
    ((S.promoting len s).1, (S.promoting len s).2.1) = S.promoteVerified len s := by
  have hlonger : ∀ s₁, ((promoteVerified.promoteUnlessLonger S.counting len (s₁, 0)).1,
      (promoteVerified.promoteUnlessLonger S.counting len (s₁, 0)).2.1)
        = promoteVerified.promoteUnlessLonger S len s₁ := by
    intro s₁
    cases hr : S.readAt len 1 s₁ with
    | mk answer s₂ =>
      have hr' : S.counting.readAt len 1 (s₁, 0) = (answer, (s₂, 0)) := by
        show ((S.readAt len 1 s₁).1, ((S.readAt len 1 s₁).2, 0)) = _
        rw [hr]
      rw [promoteVerified.promoteUnlessLonger, promoteVerified.promoteUnlessLonger,
        handle_of_run hr, handle_of_run hr']
      cases answer <;> rfl
  cases htr : S.truncate len s with
  | mk answer s₁ =>
    have htr' : S.counting.truncate len (s, 0) = (answer, (s₁, 0)) := by
      show ((S.truncate len s).1, ((S.truncate len s).2, 0)) = _
      rw [htr]
    rw [promoting, promoteVerified, promoteVerified]
    cases answer with
    | error e => rw [bind_of_error htr, bind_of_error htr']
    | ok =>
      have hread : (Prog.read : Prog σ DownloadError σ) s₁ = (.ok s₁, s₁) := rfl
      have hread' : (Prog.read : Prog (σ × Nat) DownloadError _) (s₁, 0) = (.ok (s₁, 0), (s₁, 0)) :=
        rfl
      rw [bind_of_ok htr, bind_of_ok htr', bind_of_ok hread, bind_of_ok hread']
      have hsup : S.counting.supportsReadBack (s₁, 0) = S.supportsReadBack s₁ := rfl
      rw [hsup]
      cases S.supportsReadBack s₁ with
      | false => rfl
      | true =>
        by_cases hpos : 0 < len
        · simp only [if_neg (Bool.noConfusion : ¬ true = false), if_pos hpos]
          cases hr : S.readAt (len - 1) 1 s₁ with
          | mk answer s₂ =>
            have hr' : S.counting.readAt (len - 1) 1 (s₁, 0) = (answer, (s₂, 0)) := by
              show ((S.readAt (len - 1) 1 s₁).1, ((S.readAt (len - 1) 1 s₁).2, 0)) = _
              rw [hr]
            rw [handle_of_run hr, handle_of_run hr']
            cases answer with
            | error e => rfl
            | ok bytes => exact hlonger s₂
        · simp only [if_neg (Bool.noConfusion : ¬ true = false), if_neg hpos]
          exact hlonger s₁

/-- A promotion calls `finalize` exactly when the staging area was shortened, can be read
back, and then holds as many bytes as were verified, and it does so on those bytes. In every
other case it is an error, and the bytes below the verified length are what they were. -/
theorem promoteVerified_finalizes_iff {S : SinkImpl σ} {V : σ → Prop} {staged : σ → Bytes}
    {s : σ} (h : S.Truthful V staged) (hs : V s) (len : Nat) :
    S.promoteVerified len s = ((S.promoting len s).1, (S.promoting len s).2.1) ∧
      ((S.promoting len s).2.2 = 1 ↔ S.ExactlyStaged staged len s) ∧
      (S.ExactlyStaged staged len s → ∃ s', V s' ∧ staged s' = (staged s).take len ∧
        S.promoteVerified len s = S.finalize s') ∧
      (¬ S.ExactlyStaged staged len s → (S.promoting len s).2.2 = 0 ∧
        (∃ e, (S.promoteVerified len s).1 = .error e) ∧
        (staged (S.promoteVerified len s).2).take len = (staged s).take len) := by
  obtain ⟨-, n, hn, hcut⟩ := h.truncate len s hs
  have heq := S.promoting_eq len s
  have hkept : (staged (S.truncate len s).2).take len = (staged s).take len := by
    rw [hcut, List.take_take, Nat.min_eq_left hn]
  have hends : S.counting.Ends (fun s => V s.1 ∧ s.2 = 0) (fun s => staged s.1) len (s, 0)
      (S.promoting len s).1 (S.promoting len s).2 :=
    promoteVerified_ends (h.counting 0) ⟨hs, rfl⟩
  obtain ⟨hcalls, hrefuses⟩ := hends
  by_cases hexact : S.ExactlyStaged staged len s
  · obtain ⟨⟨s', k⟩, ⟨hv, rfl⟩, hstaged, hrun⟩ := hcalls hexact
    have hrun' : S.promoting len s = S.counting.finalize (s', 0) := hrun
    rw [hrun'] at heq ⊢
    refine ⟨heq.symm, ⟨fun _ => hexact, fun _ => rfl⟩, fun _ => ⟨s', hv, ?_, heq.symm⟩,
      fun hnot => absurd hexact hnot⟩
    have hfinal : staged s' = staged (S.truncate len s).2 := hstaged
    rw [hfinal, ← hkept, List.take_of_length_le (Nat.le_of_eq hexact.2.2)]
  · obtain ⟨⟨e, he⟩, ⟨hv, hcount⟩, hstaged⟩ := hrefuses hexact
    have hzero : (S.promoting len s).2.2 = 0 := hcount
    refine ⟨heq.symm, ⟨fun hone => ?_, fun h => absurd h hexact⟩, fun h => absurd h hexact,
      fun _ => ⟨hzero, ?_, ?_⟩⟩
    · rw [hzero] at hone
      cases hone
    · rw [← heq]
      exact ⟨e, he⟩
    · rw [← heq, ← hkept]
      exact congrArg (List.take len) hstaged

/-- Two of three bytes are promoted, four are not. -/
theorem promoteVerified_finalizes_iff_small :
    (inMemorySink.promoting 2 ⟨[97, 98, 99], false, by decide⟩).2.2 = 1 ∧
      (inMemorySink.promoting 4 ⟨[97, 98, 99], false, by decide⟩).2.2 = 0 := by
  constructor
  · exact (promoteVerified_finalizes_iff inMemorySink_truthful trivial 2).2.1.mpr ⟨rfl, rfl, rfl⟩
  · refine ((promoteVerified_finalizes_iff inMemorySink_truthful trivial 4).2.2.2 ?_).1
    intro hexact
    exact absurd hexact.2.2 (by decide)

end SinkImpl

end DigDownload
