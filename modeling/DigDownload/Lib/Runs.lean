import Mathlib.Algebra.GroupWithZero.Nat
import Mathlib.Data.List.Basic

/-!
# Runs of a machine

A machine takes its actions one at a time, and an action that is not enabled in a state
has no step from it. `run step s as` is the state after the actions `as`. `Along step G s as`
says that each action of a run meets `G` in the state it is taken from. What every step
preserves, every run preserves.
-/

namespace Runs

variable {σ α : Type} (step : σ → α → Option σ)

/-- The state after a run, or none when one of its actions was not enabled. -/
def run : σ → List α → Option σ
  | s, [] => some s
  | s, a :: as => (step s a).bind fun s' => run s' as

/-- Each action of the run meets `G` in the state it is taken from. -/
def Along (G : σ → α → Prop) : σ → List α → Prop
  | _, [] => True
  | s, a :: as => G s a ∧ ∀ s', step s a = some s' → Along G s' as

section

variable {step}
variable {s t : σ} {a : α} {as bs : List α} {G P : σ → α → Prop} {I J : σ → Prop}

@[simp] theorem run_nil : run step s [] = some s := rfl

theorem run_cons_eq_some :
    run step s (a :: as) = some t ↔ ∃ s', step s a = some s' ∧ run step s' as = some t := by
  rw [run, Option.bind_eq_some_iff]

theorem run_cons (h : step s a = some t) : run step s (a :: as) = run step t as := by
  rw [run, h, Option.bind_some]

theorem run_append : run step s (as ++ bs) = (run step s as).bind fun t => run step t bs := by
  induction as generalizing s with
  | nil => rfl
  | cons a as ih =>
    rw [List.cons_append, run, run, Option.bind_assoc]
    exact congrArg _ (funext fun _ => ih)

theorem run_append_eq_some {u : σ} :
    run step s (as ++ bs) = some u ↔ ∃ t, run step s as = some t ∧ run step t bs = some u := by
  rw [run_append, Option.bind_eq_some_iff]

@[simp] theorem along_nil : Along step G s [] := trivial

theorem along_cons :
    Along step G s (a :: as) ↔ G s a ∧ ∀ s', step s a = some s' → Along step G s' as := Iff.rfl

/-- Along a machine whose actions are all enabled. -/
theorem along_cons_total {f : σ → α → σ} :
    Along (fun s a => some (f s a)) G s (a :: as) ↔
      G s a ∧ Along (fun s a => some (f s a)) G (f s a) as := by
  rw [along_cons]
  exact and_congr_right fun _ => ⟨fun h => h _ rfl, fun h s' hs' => Option.some.inj hs' ▸ h⟩

theorem along_append :
    Along step G s (as ++ bs) ↔
      Along step G s as ∧ ∀ t, run step s as = some t → Along step G t bs := by
  induction as generalizing s with
  | nil => simp
  | cons a as ih =>
    rw [List.cons_append, along_cons, along_cons, and_assoc]
    refine and_congr_right fun _ => ?_
    constructor
    · intro h
      refine ⟨fun s' hs' => (ih.mp (h s' hs')).1, fun t ht => ?_⟩
      obtain ⟨s', hs', ht⟩ := run_cons_eq_some.mp ht
      exact (ih.mp (h s' hs')).2 t ht
    · intro h s' hs'
      exact ih.mpr ⟨h.1 s' hs', fun t ht => h.2 t (run_cons_eq_some.mpr ⟨s', hs', ht⟩)⟩

theorem along_of_forall (h : ∀ a ∈ as, ∀ s, G s a) : Along step G s as := by
  induction as generalizing s with
  | nil => trivial
  | cons a as ih =>
    refine ⟨h a List.mem_cons_self s, fun s' _ => ih fun b hb => h b ?_⟩
    exact List.mem_cons_of_mem a hb

/-- What each step meeting `G` preserves holds at the end of a run along `G`. -/
theorem invariant_along (hstep : ∀ s a s', I s → G s a → step s a = some s' → I s')
    (hs : I s) (hG : Along step G s as) (h : run step s as = some t) : I t := by
  induction as generalizing s with
  | nil =>
    cases h
    exact hs
  | cons a as ih =>
    obtain ⟨s', hs', hrest⟩ := run_cons_eq_some.mp h
    exact ih (hstep s a s' hs hG.1 hs') (hG.2 s' hs') hrest

/-- What each step preserves holds at the end of a run. -/
theorem invariant (hstep : ∀ s a s', I s → step s a = some s' → I s') (hs : I s)
    (h : run step s as = some t) : I t := by
  induction as generalizing s with
  | nil =>
    cases h
    exact hs
  | cons a as ih =>
    obtain ⟨s', hs', hrest⟩ := run_cons_eq_some.mp h
    exact ih (hstep s a s' hs hs') hrest

/-- What each step preserves of the state and the actions before it holds at the end of a run. -/
theorem invariant_past {K : List α → σ → Prop}
    (hstep : ∀ past s a s', K past s → step s a = some s' → K (past ++ [a]) s') {past : List α}
    (hs : K past s) (h : run step s as = some t) : K (past ++ as) t := by
  induction as generalizing s past with
  | nil =>
    cases h
    rwa [List.append_nil]
  | cons a as ih =>
    obtain ⟨s', hs', hrest⟩ := run_cons_eq_some.mp h
    have := ih (hstep past s a s' hs hs') hrest
    rwa [List.append_assoc, List.singleton_append] at this

/-- Where every step pays its cost out of what is left and what it is granted, a run costs no
more than what was left at its start and what it was granted. -/
theorem budget (left granted : σ → Nat) (cost : α → Nat)
    (hstep : ∀ s a s', I s → step s a = some s' →
      I s' ∧ left s' + cost a + granted s ≤ left s + granted s') (hs : I s)
    (h : run step s as = some t) :
    left t + (as.map cost).sum + granted s ≤ left s + granted t := by
  induction as generalizing s with
  | nil =>
    cases h
    exact Nat.le_refl _
  | cons a as ih =>
    obtain ⟨s', hs', hrest⟩ := run_cons_eq_some.mp h
    obtain ⟨hkept, hpaid⟩ := hstep s a s' hs hs'
    have hpaid' := ih hkept hrest
    rw [List.map_cons, List.sum_cons]
    omega

/-- What an invariant gives of each step that is taken holds along a run. -/
theorem along_of_run (hstep : ∀ s a s', I s → step s a = some s' → I s' ∧ G s a) (hs : I s)
    (h : run step s as = some t) : Along step G s as := by
  induction as generalizing s with
  | nil => trivial
  | cons a as ih =>
    obtain ⟨s', hs', hrest⟩ := run_cons_eq_some.mp h
    refine ⟨(hstep s a s' hs hs').2, fun s'' hs'' => ?_⟩
    rw [hs', Option.some.injEq] at hs''
    exact hs'' ▸ ih (hstep s a s' hs hs').1 hrest

/-- An invariant of the steps meeting `G` gives its consequence at each step. -/
theorem along_of_invariant (hstep : ∀ s a s', I s → G s a → step s a = some s' → I s')
    (hP : ∀ s a, I s → G s a → P s a) (hs : I s) (hG : Along step G s as) :
    Along step P s as := by
  induction as generalizing s with
  | nil => trivial
  | cons a as ih =>
    exact ⟨hP s a hs hG.1, fun s' hs' => ih (hstep s a s' hs hG.1 hs') (hG.2 s' hs')⟩

end

/-! ## What a run shows -/

section Shown

variable {β : Type} (look : σ → α → List β)

/-- What the actions of a run show, each in the state it is taken from. -/
def shown : σ → List α → List β
  | _, [] => []
  | s, a :: as => look s a ++ (step s a).elim [] fun s' => shown s' as

variable {step look} {s t : σ} {as : List α} {K : List β → σ → Prop}

/-- What each step preserves of the state and of what was seen before holds at the end of a
run. -/
theorem invariant_shown
    (hstep : ∀ seen s a s', K seen s → step s a = some s' → K (seen ++ look s a) s')
    {seen : List β} (hs : K seen s) (h : run step s as = some t) :
    K (seen ++ shown step look s as) t := by
  induction as generalizing s seen with
  | nil =>
    cases h
    rwa [shown, List.append_nil]
  | cons a as ih =>
    obtain ⟨s', hs', hrest⟩ := run_cons_eq_some.mp h
    have := ih (hstep seen s a s' hs hs') hrest
    rwa [shown, hs', Option.elim_some, ← List.append_assoc]

end Shown

/-! ## Machines of several parties -/

section Parties

variable {β : Type} {l : List β} {i j : Nat} {b : β}

/-- One party moves, and the others stay where they are. -/
theorem getElem?_modify_of_eq (f : β → β) (h : l[i]? = some b) :
    (l.modify i f)[j]? = if i = j then some (f b) else l[j]? := by
  rw [List.getElem?_modify]
  split
  · rename_i hij
    subst hij
    rw [h]
    rfl
  · cases l[j]? <;> rfl

/-- What the parties have together changes by what the one that moves gains or loses. -/
theorem sum_map_modify (μ : β → Nat) (f : β → β) (l : List β) :
    ∀ {i : Nat}, l[i]? = some b → ((l.modify i f).map μ).sum + μ b = (l.map μ).sum + μ (f b) := by
  induction l with
  | nil => exact fun h => by cases h
  | cons c l ih =>
    intro i h
    cases i with
    | zero =>
      cases h
      simp only [List.modify_zero_cons, List.map_cons, List.sum_cons]
      omega
    | succ i =>
      have := ih (i := i) (by simpa using h)
      simp only [List.modify_succ_cons, List.map_cons, List.sum_cons]
      omega

/-- The parties after a new one are those before, and it. -/
theorem getElem?_concat_cases {c : β} (h : (l ++ [b])[j]? = some c) :
    l[j]? = some c ∨ c = b ∧ j = l.length := by
  rw [List.getElem?_append] at h
  split at h
  · exact .inl h
  · rename_i hge
    obtain ⟨hlt, -⟩ := List.getElem?_eq_some_iff.mp h
    rw [List.length_singleton] at hlt
    exact .inr ⟨List.mem_singleton.mp (List.mem_of_getElem? h), by omega⟩

end Parties

end Runs
