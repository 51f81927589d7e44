import Mathlib.Logic.Relation
import Mathlib.Order.Defs.PartialOrder

/-!
# Programs with state and failure

A program reads and updates a state and either returns a value or stops with an
error; the state it leaves is there in both cases. This is the shape of an
`async fn` that returns a `Result` and has side effects: the effects made before
an early return are not undone.

Two kinds of facts are proved about such programs. `wp m Q E s` says that `m`,
started in `s`, ends in `Q` if it returns and in `E` if it fails. `Steps R m`
says that `m` moves the state along the relation `R` however it ends.
-/

/-- A program over states `σ` that returns an `α` or fails with an `ε`. -/
def Prog (σ ε α : Type) : Type := σ → Except ε α × σ

namespace Prog

variable {σ ε ε' α β : Type}

/-! ## The operations -/

/-- Return a value, leaving the state alone. -/
protected def pure (a : α) : Prog σ ε α := fun s => (.ok a, s)

/-- Run `m`, then `k` on its value; a failure of `m` skips `k`. -/
protected def bind (m : Prog σ ε α) (k : α → Prog σ ε β) : Prog σ ε β := fun s =>
  match m s with
  | (.ok a, s') => k a s'
  | (.error e, s') => (.error e, s')

instance : Monad (Prog σ ε) where
  pure := Prog.pure
  bind := Prog.bind

theorem bind_pure (m : Prog σ ε α) : Prog.bind m Prog.pure = m := by
  funext s
  dsimp only [Prog.bind, Prog.pure]
  cases m s with
  | mk r s' => cases r <;> rfl

theorem bind_assoc {γ : Type} (m : Prog σ ε α) (f : α → Prog σ ε β) (g : β → Prog σ ε γ) :
    Prog.bind (Prog.bind m f) g = Prog.bind m fun a => Prog.bind (f a) g := by
  funext s
  dsimp only [Prog.bind]
  cases m s with
  | mk r s' => cases r <;> rfl

instance : LawfulMonad (Prog σ ε) := LawfulMonad.mk' _ bind_pure (fun _ _ => rfl) bind_assoc

/-- Stop with an error. -/
def fail (e : ε) : Prog σ ε α := fun s => (.error e, s)

/-- Read the state. -/
def read : Prog σ ε σ := fun s => (.ok s, s)

/-- Update the state. -/
def update (f : σ → σ) : Prog σ ε Unit := fun s => (.ok (), f s)

/-- Return or fail with an outcome computed elsewhere. -/
def ofExcept (r : Except ε α) : Prog σ ε α := fun s => (r, s)

/-- Run `m` and pass its outcome, return or failure, to `k`. -/
def handle (m : Prog σ ε α) (k : Except ε α → Prog σ ε' β) : Prog σ ε' β := fun s =>
  match m s with
  | (r, s') => k r s'

/-- Run `m` and hand its outcome over as a value, so that a failure can be inspected. -/
def attempt (m : Prog σ ε α) : Prog σ ε' (Except ε α) := handle m pure

/-- Run `m` on the first part of a state and leave the rest alone. -/
def onFst {κ : Type} (m : Prog σ ε α) : Prog (σ × κ) ε α := fun s =>
  ((m s.1).1, ((m s.1).2, s.2))

/-! ## Outcomes -/

/-- `m`, started in `s`, ends in `Q` if it returns and in `E` if it fails. -/
def wp (m : Prog σ ε α) (Q : α → σ → Prop) (E : ε → σ → Prop) (s : σ) : Prop :=
  match m s with
  | (.ok a, s') => Q a s'
  | (.error e, s') => E e s'

section Rules

variable {Q Q' : α → σ → Prop} {E E' : ε → σ → Prop} {s : σ}

@[simp] theorem wp_pure (a : α) : wp (pure a : Prog σ ε α) Q E s ↔ Q a s := Iff.rfl

@[simp] theorem wp_fail (e : ε) : wp (fail e : Prog σ ε α) Q E s ↔ E e s := Iff.rfl

@[simp] theorem wp_read {Q : σ → σ → Prop} : wp (read : Prog σ ε σ) Q E s ↔ Q s s := Iff.rfl

@[simp] theorem wp_update (f : σ → σ) {Q : Unit → σ → Prop} :
    wp (update f : Prog σ ε Unit) Q E s ↔ Q () (f s) := Iff.rfl

@[simp] theorem wp_ofExcept_ok (a : α) :
    wp (ofExcept (.ok a) : Prog σ ε α) Q E s ↔ Q a s := Iff.rfl

@[simp] theorem wp_ofExcept_error (e : ε) :
    wp (ofExcept (.error e) : Prog σ ε α) Q E s ↔ E e s := Iff.rfl

@[simp] theorem wp_bind (m : Prog σ ε α) (k : α → Prog σ ε β) {Q : β → σ → Prop} :
    wp (m >>= k) Q E s ↔ wp m (fun a => wp (k a) Q E) E s := by
  show wp (Prog.bind m k) Q E s ↔ _
  unfold wp Prog.bind
  cases m s with
  | mk r s' => cases r <;> rfl

@[simp] theorem wp_handle (m : Prog σ ε α) (k : Except ε α → Prog σ ε' β)
    {Q : β → σ → Prop} {E : ε' → σ → Prop} :
    wp (handle m k) Q E s
      ↔ wp m (fun a => wp (k (.ok a)) Q E) (fun e => wp (k (.error e)) Q E) s := by
  dsimp only [handle, wp]
  cases m s with
  | mk r s' => cases r <;> rfl

@[simp] theorem wp_attempt (m : Prog σ ε α) {Q : Except ε α → σ → Prop} {E : ε' → σ → Prop} :
    wp (attempt m) Q E s ↔ wp m (fun a => Q (.ok a)) (fun e => Q (.error e)) s :=
  wp_handle m pure

/-- The rule of consequence. -/
theorem wp.mono {m : Prog σ ε α} (h : wp m Q E s) (hQ : ∀ a s', Q a s' → Q' a s')
    (hE : ∀ e s', E e s' → E' e s') : wp m Q' E' s := by
  unfold wp at *
  cases hm : m s with
  | mk r s' =>
    rw [hm] at h
    cases r with
    | ok a => exact hQ a s' h
    | error e => exact hE e s' h

theorem wp.and {m : Prog σ ε α} (h : wp m Q E s) (h' : wp m Q' E' s) :
    wp m (fun a t => Q a t ∧ Q' a t) (fun e t => E e t ∧ E' e t) s := by
  unfold wp at *
  cases hm : m s with
  | mk r s' =>
    rw [hm] at h h'
    cases r with
    | ok a => exact ⟨h, h'⟩
    | error e => exact ⟨h, h'⟩

theorem wp_of_forall {m : Prog σ ε α} (hQ : ∀ a s', Q a s') (hE : ∀ e s', E e s') :
    wp m Q E s := by
  unfold wp
  cases m s with
  | mk r s' =>
    cases r with
    | ok a => exact hQ a s'
    | error e => exact hE e s'

/-- What an outcome says about a run that returned. -/
theorem wp.ok {m : Prog σ ε α} (h : wp m Q E s) {a : α} (hm : (m s).1 = .ok a) :
    Q a (m s).2 := by
  unfold wp at h
  cases hr : m s with
  | mk r s' =>
    rw [hr] at h hm
    cases hm
    exact h

/-- What an outcome says about a run that failed. -/
theorem wp.error {m : Prog σ ε α} (h : wp m Q E s) {e : ε} (hm : (m s).1 = .error e) :
    E e (m s).2 := by
  unfold wp at h
  cases hr : m s with
  | mk r s' =>
    rw [hr] at h hm
    cases hm
    exact h

/-- A run that cannot fail returns. -/
theorem wp.exists_ok {m : Prog σ ε α} (h : wp m Q (fun _ _ => False) s) :
    ∃ a, (m s).1 = .ok a ∧ Q a (m s).2 := by
  unfold wp at h
  cases hr : m s with
  | mk r s' =>
    rw [hr] at h
    cases r with
    | ok a => exact ⟨a, rfl, h⟩
    | error e => exact h.elim

/-- Conversely, an outcome is read off the pair a run ends with. -/
theorem wp_iff {m : Prog σ ε α} :
    wp m Q E s ↔ (∀ a, (m s).1 = .ok a → Q a (m s).2) ∧ ∀ e, (m s).1 = .error e → E e (m s).2 := by
  refine ⟨fun h => ⟨fun a => h.ok, fun e => h.error⟩, fun ⟨hQ, hE⟩ => ?_⟩
  unfold wp
  cases hr : m s with
  | mk r s' =>
    rw [hr] at hQ hE
    cases r with
    | ok a => exact hQ a rfl
    | error e => exact hE e rfl

/-- What holds however a run ends holds of the state it leaves. -/
theorem wp_same {m : Prog σ ε α} {P : σ → Prop} :
    wp m (fun _ => P) (fun _ => P) s ↔ P (m s).2 := by
  unfold wp
  cases m s with
  | mk r s' => cases r <;> rfl

/-- An outcome stated about the pair a run ends with. -/
theorem wp_outcome {m : Prog σ ε α} {R : Except ε α → σ → Prop} :
    wp m (fun a => R (.ok a)) (fun e => R (.error e)) s ↔ R (m s).1 (m s).2 := by
  unfold wp
  cases m s with
  | mk r s' => cases r <;> rfl

end Rules

/-! ## Runs taken apart -/

section Inversion

variable {s s' : σ}

theorem bind_eq_error {m : Prog σ ε α} {k : α → Prog σ ε β} {e : ε} :
    (m >>= k) s = (.error e, s') ↔
      m s = (.error e, s') ∨ ∃ a s₁, m s = (.ok a, s₁) ∧ k a s₁ = (.error e, s') := by
  show Prog.bind m k s = _ ↔ _
  unfold Prog.bind
  cases m s with
  | mk r s₁ => cases r <;> simp [and_assoc]

theorem bind_of_ok {m : Prog σ ε α} {k : α → Prog σ ε β} {a : α} (h : m s = (.ok a, s')) :
    (m >>= k) s = k a s' := by
  show Prog.bind m k s = _
  unfold Prog.bind
  rw [h]

/-- What follows depends on the states only through the run. -/
theorem bind_of_same {m : Prog σ ε α} {k : α → Prog σ ε β} (h : m s' = m s) :
    (m >>= k) s' = (m >>= k) s := by
  show Prog.bind m k s' = Prog.bind m k s
  unfold Prog.bind
  rw [h]

theorem bind_of_error {m : Prog σ ε α} {k : α → Prog σ ε β} {e : ε} (h : m s = (.error e, s')) :
    (m >>= k) s = (.error e, s') := by
  show Prog.bind m k s = _
  unfold Prog.bind
  rw [h]

theorem handle_of_run {m : Prog σ ε α} {k : Except ε α → Prog σ ε' β} {r : Except ε α}
    (h : m s = (r, s')) : handle m k s = k r s' := by
  dsimp only [handle]
  rw [h]

theorem attempt_of_run {m : Prog σ ε α} {r : Except ε α} (h : m s = (r, s')) :
    (attempt m : Prog σ ε' (Except ε α)) s = (.ok r, s') := handle_of_run h

theorem attempt_of_same {m : Prog σ ε α} (h : m s' = m s) :
    (attempt m : Prog σ ε' (Except ε α)) s' = (attempt m : Prog σ ε' (Except ε α)) s := by
  dsimp only [attempt, handle]
  rw [h]

/-- The outcome of a run that is known. -/
theorem wp_of_run_ok {m : Prog σ ε α} {a : α} {Q : α → σ → Prop} {E : ε → σ → Prop}
    (h : m s = (.ok a, s')) : wp m Q E s ↔ Q a s' := by
  unfold wp
  rw [h]

theorem wp_of_run_error {m : Prog σ ε α} {e : ε} {Q : α → σ → Prop} {E : ε → σ → Prop}
    (h : m s = (.error e, s')) : wp m Q E s ↔ E e s' := by
  unfold wp
  rw [h]

/-- A run that cannot return fails. -/
theorem wp.exists_error {m : Prog σ ε α} {E : ε → σ → Prop}
    (h : wp m (fun _ _ => False) E s) : ∃ e, (m s).1 = .error e ∧ E e (m s).2 := by
  cases hr : m s with
  | mk r s' =>
    cases r with
    | ok a => exact ((wp_of_run_ok hr).mp h).elim
    | error e => exact ⟨e, rfl, (wp_of_run_error hr).mp h⟩

end Inversion

/-! ## Loops -/

/-- A counting loop: an invariant that turn `n` carries from `n` to `n + 1` holds at the
end, and what every turn keeps when it fails holds of a loop that fails. -/
theorem wp_foldlM_range {f : β → Nat → Prog σ ε β} {I : Nat → β → σ → Prop} {E : ε → σ → Prop}
    {b : β} {s : σ} (h : I 0 b s) :
    ∀ N, (∀ n < N, ∀ b s, I n b s → wp (f b n) (I (n + 1)) E s) →
      wp ((List.range N).foldlM f b) (I N) E s
  | 0, _ => by simpa using h
  | N + 1, step => by
      rw [List.range_succ, List.foldlM_append, wp_bind]
      refine (wp_foldlM_range h N fun n hn => step n (Nat.lt_succ_of_lt hn)).mono
        (fun b' s' h' => ?_) (fun _ _ h' => h')
      simpa using step N (Nat.lt_succ_self N) b' s' h'

/-! ## How a program moves the state -/

/-- However `m` ends, the state it leaves is related to the one it started from. -/
def Steps (R : σ → σ → Prop) (m : Prog σ ε α) : Prop := ∀ s, R s (m s).2

section Steps

variable {R : σ → σ → Prop}

theorem Steps.pure [Std.Refl R] (a : α) : Steps R (pure a : Prog σ ε α) :=
  fun s => Std.Refl.refl s

theorem Steps.fail [Std.Refl R] (e : ε) : Steps R (fail e : Prog σ ε α) :=
  fun s => Std.Refl.refl s

theorem Steps.read [Std.Refl R] : Steps R (read : Prog σ ε σ) := fun s => Std.Refl.refl s

theorem Steps.ofExcept [Std.Refl R] (r : Except ε α) : Steps R (ofExcept r : Prog σ ε α) :=
  fun s => Std.Refl.refl s

theorem Steps.update {f : σ → σ} (h : ∀ s, R s (f s)) :
    Steps R (update f : Prog σ ε Unit) := h

theorem Steps.bind [IsTrans σ R] {m : Prog σ ε α} {k : α → Prog σ ε β} (hm : Steps R m)
    (hk : ∀ a, Steps R (k a)) : Steps R (m >>= k) := by
  intro s
  show R s (Prog.bind m k s).2
  have h := hm s
  unfold Prog.bind
  cases hr : m s with
  | mk r s' =>
    rw [hr] at h
    cases r with
    | ok a => exact IsTrans.trans _ _ _ h (hk a s')
    | error e => exact h

theorem Steps.handle [IsTrans σ R] {m : Prog σ ε α} {k : Except ε α → Prog σ ε' β}
    (hm : Steps R m) (hk : ∀ r, Steps R (k r)) : Steps R (handle m k) := by
  intro s
  have h := hm s
  unfold Prog.handle
  exact IsTrans.trans _ _ _ h (hk _ _)

theorem Steps.attempt {m : Prog σ ε α} (hm : Steps R m) :
    Steps R (attempt m : Prog σ ε' (Except ε α)) := fun s => hm s

theorem Steps.mono {R' : σ → σ → Prop} {m : Prog σ ε α} (hm : Steps R m)
    (h : ∀ s s', R s s' → R' s s') : Steps R' m := fun s => h _ _ (hm s)

theorem Steps.foldlM [Std.Refl R] [IsTrans σ R] {γ : Type} {f : β → γ → Prog σ ε β}
    (hf : ∀ b c, Steps R (f b c)) : ∀ (l : List γ) (b : β), Steps R (l.foldlM f b)
  | [], b => Steps.pure b
  | c :: l, b => by
      rw [List.foldlM_cons]
      exact Steps.bind (hf b c) fun b' => Steps.foldlM hf l b'

/-- Steps as an outcome: the form the outcome rules combine with. -/
theorem Steps.wp {m : Prog σ ε α} (hm : Steps R m) (s : σ) :
    wp m (fun _ => R s) (fun _ => R s) s :=
  wp_iff.mpr ⟨fun _ _ => hm s, fun _ _ => hm s⟩

end Steps

/-! ## Programs that move the state by so much -/

/-- A relation by grades. Standing still takes none, one after the other takes both, and what
moves the state by less moves it by no more than more. -/
structure Graded {κ : Type} [Zero κ] [Add κ] (R : κ → σ → σ → Prop) : Prop where
  refl : ∀ s, R 0 s s
  trans : ∀ {a b s s' s''}, R a s s' → R b s' s'' → R (a + b) s s''
  weaken : ∀ {a s s'} b, R a s s' → R (a + b) s s'

section Graded

variable {κ : Type} [Zero κ] [Add κ] {R : κ → σ → σ → Prop} {a b : κ}

theorem Graded.bind (hR : Graded R) {m : Prog σ ε α} {k : α → Prog σ ε β} (hm : Steps (R a) m)
    (hk : ∀ x, Steps (R b) (k x)) : Steps (R (a + b)) (m >>= k) := by
  intro s
  show R (a + b) s (Prog.bind m k s).2
  have h := hm s
  unfold Prog.bind
  cases hr : m s with
  | mk r s' =>
    rw [hr] at h
    cases r with
    | ok x => exact hR.trans h (hk x s')
    | error e => exact hR.weaken b h

theorem Graded.handle (hR : Graded R) {m : Prog σ ε α} {k : Except ε α → Prog σ ε' β}
    (hm : Steps (R a) m) (hk : ∀ r, Steps (R b) (k r)) : Steps (R (a + b)) (handle m k) := by
  intro s
  have h := hm s
  unfold Prog.handle
  exact hR.trans h (hk _ _)

end Graded

/-! ## Runs that end alike -/

/-- Started in related states, `m` ends the same way and leaves related states. -/
def Respects (R : σ → σ → Prop) (m : Prog σ ε α) : Prop :=
  ∀ s s', R s s' → (m s).1 = (m s').1 ∧ R (m s).2 (m s').2

section Respects

variable {R : σ → σ → Prop}

theorem Respects.pure (a : α) : Respects R (pure a : Prog σ ε α) := fun _ _ h => ⟨rfl, h⟩

theorem Respects.fail (e : ε) : Respects R (fail e : Prog σ ε α) := fun _ _ h => ⟨rfl, h⟩

theorem Respects.update {f : σ → σ} (h : ∀ s s', R s s' → R (f s) (f s')) :
    Respects R (update f : Prog σ ε Unit) := fun s s' hs => ⟨rfl, h s s' hs⟩

theorem Respects.bind {m : Prog σ ε α} {k : α → Prog σ ε β} (hm : Respects R m)
    (hk : ∀ a, Respects R (k a)) : Respects R (m >>= k) := by
  intro s s' hs
  obtain ⟨hanswer, hstate⟩ := hm s s' hs
  show (Prog.bind m k s).1 = (Prog.bind m k s').1 ∧ R (Prog.bind m k s).2 (Prog.bind m k s').2
  unfold Prog.bind
  cases hr : m s with
  | mk r s₁ =>
    cases hr' : m s' with
    | mk r' s₁' =>
      rw [hr, hr'] at hanswer hstate
      cases hanswer
      cases r with
      | ok a => exact hk a s₁ s₁' hstate
      | error e => exact ⟨rfl, hstate⟩

/-- What is read may differ, as long as what is done then does not. -/
theorem Respects.read_bind {k : σ → Prog σ ε β} (hsame : ∀ s s', R s s' → k s' = k s)
    (hk : ∀ s s', R s s' → Respects R (k s)) : Respects R (Prog.read >>= k) := by
  intro s s' hs
  show (k s s).1 = (k s' s').1 ∧ R (k s s).2 (k s' s').2
  rw [hsame s s' hs]
  exact hk s s' hs s s' hs

theorem Respects.handle {m : Prog σ ε α} {k : Except ε α → Prog σ ε' β} (hm : Respects R m)
    (hk : ∀ r, Respects R (k r)) : Respects R (handle m k) := by
  intro s s' hs
  obtain ⟨hanswer, hstate⟩ := hm s s' hs
  unfold Prog.handle
  cases hr : m s with
  | mk r s₁ =>
    cases hr' : m s' with
    | mk r' s₁' =>
      rw [hr, hr'] at hanswer hstate
      cases hanswer
      exact hk r s₁ s₁' hstate

theorem Respects.attempt {m : Prog σ ε α} (hm : Respects R m) :
    Respects R (attempt m : Prog σ ε' (Except ε α)) := Respects.handle hm Respects.pure

end Respects

/-! ## Programs that are given more to go on -/

/-- `m'` carries on where `m` stops with `e`: it does the same as `m`, or `m` stops and
leaves a state that is related to the one `m'` leaves. -/
def CarriesOn (R : σ → σ → Prop) (e : ε) (m m' : Prog σ ε α) : Prop :=
  ∀ s, m' s = m s ∨ (m s).1 = .error e ∧ R (m s).2 (m' s).2

section CarriesOn

variable {R : σ → σ → Prop} {e : ε}

theorem CarriesOn.refl (m : Prog σ ε α) : CarriesOn R e m m := fun _ => Or.inl rfl

/-- What is done with nothing more to go on is to stop. -/
theorem CarriesOn.of_steps {m : Prog σ ε α} (hm : Steps R m) : CarriesOn R e (fail e) m :=
  fun s => Or.inr ⟨rfl, hm s⟩

theorem CarriesOn.bind_right {m : Prog σ ε α} {k k' : α → Prog σ ε β}
    (h : ∀ a, CarriesOn R e (k a) (k' a)) : CarriesOn R e (m >>= k) (m >>= k') := by
  intro s
  show Prog.bind m k' s = Prog.bind m k s ∨ (Prog.bind m k s).1 = .error e ∧
    R (Prog.bind m k s).2 (Prog.bind m k' s).2
  unfold Prog.bind
  cases m s with
  | mk r s' =>
    cases r with
    | ok a => exact h a s'
    | error e' => exact Or.inl rfl

theorem CarriesOn.bind_left [IsTrans σ R] {m m' : Prog σ ε α} {k : α → Prog σ ε β}
    (h : CarriesOn R e m m') (hk : ∀ a, Steps R (k a)) : CarriesOn R e (m >>= k) (m' >>= k) := by
  intro s
  show Prog.bind m' k s = Prog.bind m k s ∨ (Prog.bind m k s).1 = .error e ∧
    R (Prog.bind m k s).2 (Prog.bind m' k s).2
  unfold Prog.bind
  cases h s with
  | inl heq =>
    rw [heq]
    exact Or.inl rfl
  | inr hstop =>
    obtain ⟨he, hR⟩ := hstop
    cases hr : m s with
    | mk r s₁ =>
      rw [hr] at he hR
      cases he
      refine Or.inr ⟨rfl, ?_⟩
      cases hr' : m' s with
      | mk r' s₂ =>
        rw [hr'] at hR
        cases r' with
        | ok a => exact IsTrans.trans _ _ _ hR (hk a s₂)
        | error e' => exact hR

end CarriesOn

end Prog
