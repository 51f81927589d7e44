import Mathlib.Data.List.Basic

/-!
# Reading a stream until it is enough

A reader takes the items of a stream one by one. Every item makes it fail, stop or read on;
it also stops when the stream ends. The rules say what holds of the items that were read,
and when a reader comes to its end.
-/

namespace Feed

variable {α β σ ε : Type}

/-- A step that succeeds, followed by another. -/
theorem except_bind_eq_ok {m : Except ε α} {f : α → Except ε β} {b : β} :
    (m >>= f) = .ok b ↔ ∃ a, m = .ok a ∧ f a = .ok b := by
  cases m with
  | error e =>
    constructor
    · intro h
      cases h
    · rintro ⟨a, ha, -⟩
      cases ha
  | ok a =>
    constructor
    · exact fun h => ⟨a, rfl, h⟩
    · rintro ⟨a', ha', h⟩
      cases ha'
      exact h

/-- What a reader makes of an item: it has enough, or it reads on. -/
inductive Flow (σ : Type) where
  | stop (s : σ)
  | next (s : σ)

/-- The state after an item. -/
def Flow.state : Flow σ → σ
  | .stop s => s
  | .next s => s

/-- Read a stream: the state that is reached, and what was not read. -/
def feed (step : σ → α → Except ε (Flow σ)) : σ → List α → Except ε σ × List α
  | s, [] => (.ok s, [])
  | s, a :: rest =>
      match step s a with
      | .error e => (.error e, rest)
      | .ok (.stop s') => (.ok s', rest)
      | .ok (.next s') => feed step s' rest

section Rules

variable {step : σ → α → Except ε (Flow σ)} {s : σ} {a : α} {rest : List α}

@[simp] theorem feed_nil : feed step s [] = (.ok s, []) := rfl

theorem feed_cons_of_error {e : ε} (h : step s a = .error e) :
    feed step s (a :: rest) = (.error e, rest) := by
  simp [feed, h]

theorem feed_cons_of_stop {s' : σ} (h : step s a = .ok (.stop s')) :
    feed step s (a :: rest) = (.ok s', rest) := by
  simp [feed, h]

theorem feed_cons_of_next {s' : σ} (h : step s a = .ok (.next s')) :
    feed step s (a :: rest) = feed step s' rest := by
  simp [feed, h]

/-- At least one item is read, if there is one. -/
theorem feed_rest_length (items : List α) :
    ∀ s : σ, (feed step s items).2.length ≤ items.length - 1 := by
  induction items with
  | nil => exact fun s => Nat.le_refl 0
  | cons a rest ih =>
    intro s
    cases hflow : step s a with
    | error e =>
      rw [feed_cons_of_error hflow]
      exact Nat.le_refl _
    | ok flow =>
      cases flow with
      | stop s₁ =>
        rw [feed_cons_of_stop hflow]
        exact Nat.le_refl _
      | next s₁ =>
        rw [feed_cons_of_next hflow]
        exact Nat.le_trans (ih s₁) (Nat.sub_le _ _)

/-- An error of a reader is one of its steps. -/
theorem feed_error {e : ε} (items : List α) :
    ∀ s : σ, (feed step s items).1 = .error e → ∃ s' a, step s' a = .error e := by
  induction items with
  | nil => exact fun s h => by cases h
  | cons a rest ih =>
    intro s h
    cases hflow : step s a with
    | error e' =>
      rw [feed_cons_of_error hflow] at h
      cases h
      exact ⟨s, a, hflow⟩
    | ok flow =>
      cases flow with
      | stop s₁ =>
        rw [feed_cons_of_stop hflow] at h
        cases h
      | next s₁ =>
        rw [feed_cons_of_next hflow] at h
        exact ih s₁ h

/-- What every item keeps, given what was read before it, holds of all that was read. -/
theorem feed_keeps {I : List α → σ → Prop}
    (hstep : ∀ past s a flow, I past s → step s a = .ok flow → I (past ++ [a]) flow.state)
    (items : List α) : ∀ (past : List α) (s : σ), I past s →
      ∃ consumed, items = consumed ++ (feed step s items).2 ∧
        ∀ s', (feed step s items).1 = .ok s' → I (past ++ consumed) s' := by
  induction items with
  | nil =>
    intro past s hs
    refine ⟨[], rfl, fun s' h => ?_⟩
    cases h
    simpa using hs
  | cons a rest ih =>
    intro past s hs
    cases hflow : step s a with
    | error e =>
      rw [feed_cons_of_error hflow]
      exact ⟨[a], rfl, fun s' h => by cases h⟩
    | ok flow =>
      have hkept := hstep past s a flow hs hflow
      cases flow with
      | stop s₁ =>
        rw [feed_cons_of_stop hflow]
        refine ⟨[a], rfl, fun s' h => ?_⟩
        cases h
        exact hkept
      | next s₁ =>
        obtain ⟨consumed, hitems, hlast⟩ := ih (past ++ [a]) s₁ hkept
        rw [feed_cons_of_next hflow]
        refine ⟨a :: consumed, by rw [List.cons_append, ← hitems], fun s' h => ?_⟩
        have := hlast s' h
        rwa [List.append_assoc, List.singleton_append] at this

/-- A reader that reads on or stops in order at every item comes to its end. -/
theorem feed_completes {J : List α → List α → σ → Prop} {Q : σ → Prop}
    (hstep : ∀ past a rest s, J past (a :: rest) s →
      (∃ s', step s a = .ok (.next s') ∧ J (past ++ [a]) rest s') ∨
        ∃ s', step s a = .ok (.stop s') ∧ Q s')
    (hend : ∀ past s, J past [] s → Q s) (items : List α) :
    ∀ (past : List α) (s : σ), J past items s → ∃ s', (feed step s items).1 = .ok s' ∧ Q s' := by
  induction items with
  | nil => exact fun past s hs => ⟨s, rfl, hend past s hs⟩
  | cons a rest ih =>
    intro past s hs
    cases hstep past a rest s hs with
    | inl hnext =>
      obtain ⟨s₁, hflow, hs₁⟩ := hnext
      rw [feed_cons_of_next hflow]
      exact ih (past ++ [a]) s₁ hs₁
    | inr hstop =>
      obtain ⟨s₁, hflow, hs₁⟩ := hstop
      rw [feed_cons_of_stop hflow]
      exact ⟨s₁, rfl, hs₁⟩

/-- A reader whose every item that it reads on after lowers a measure stops, on an endless
stream, after no more items than the measure says; what follows them is not looked at. -/
theorem feed_stops {μ : σ → Nat} {I : σ → Prop}
    (hnext : ∀ s a s', I s → step s a = .ok (.next s') → I s' ∧ μ s' < μ s) (bound : Nat) :
    ∀ (s : σ) (stream : Nat → α), I s → μ s ≤ bound → ∃ n ≤ bound + 1, ∃ result, ∀ more,
      feed step s ((List.range n).map stream ++ more) = (result, more) := by
  induction bound with
  | zero =>
    intro s stream hs hbound
    refine ⟨1, Nat.le_refl _, ?_⟩
    cases hflow : step s (stream 0) with
    | error e => exact ⟨.error e, fun more => feed_cons_of_error hflow⟩
    | ok flow =>
      cases flow with
      | stop s₁ => exact ⟨.ok s₁, fun more => feed_cons_of_stop hflow⟩
      | next s₁ =>
        have := (hnext s _ s₁ hs hflow).2
        omega
  | succ bound ih =>
    intro s stream hs hbound
    cases hflow : step s (stream 0) with
    | error e => exact ⟨1, by omega, .error e, fun more => feed_cons_of_error hflow⟩
    | ok flow =>
      cases flow with
      | stop s₁ => exact ⟨1, by omega, .ok s₁, fun more => feed_cons_of_stop hflow⟩
      | next s₁ =>
        obtain ⟨hs₁, hlt⟩ := hnext s _ s₁ hs hflow
        obtain ⟨n, hn, result, hrest⟩ := ih s₁ (fun k => stream (k + 1)) hs₁ (by omega)
        refine ⟨n + 1, by omega, result, fun more => ?_⟩
        rw [List.range_succ_eq_map, List.map_cons, List.map_map, List.cons_append,
          feed_cons_of_next hflow]
        exact hrest more

/-- The states that a reader passes through. -/
inductive Reached (step : σ → α → Except ε (Flow σ)) (s₀ : σ) : σ → Prop where
  | start : Reached step s₀ s₀
  | take {s : σ} {a : α} {flow : Flow σ} (hreached : Reached step s₀ s)
      (htake : step s a = .ok flow) : Reached step s₀ flow.state

/-- What every item keeps holds of every state. -/
theorem Reached.keeps {I : σ → Prop} {s₀ : σ} (hstart : I s₀)
    (hstep : ∀ s a flow, I s → step s a = .ok flow → I flow.state) (h : Reached step s₀ s) :
    I s := by
  induction h with
  | start => exact hstart
  | take _ htake ih => exact hstep _ _ _ ih htake

end Rules

end Feed
