import Mathlib.Data.List.Induction

/-!
# Logs and what they say about the past

A log is a list of events, the latest last. `AtEach P log` says that every event of
the log meets a condition that looks at what came before it. `Since i s b log` says
that something was set up, by an event that `s` accepts or before the log began, and
that no event since then has broken it. Both are read off the log event by event.
-/

namespace Past

variable {α : Type}

/-! ## Splitting a log at an event -/

/-- An event of a log that was extended is one of the old or one of the new events. -/
theorem append_eq_append_cons_iff {l r before after : List α} {e : α} :
    l ++ r = before ++ e :: after ↔
      (∃ rest, l = before ++ e :: rest ∧ after = rest ++ r) ∨
        ∃ front, r = front ++ e :: after ∧ before = l ++ front := by
  constructor
  · intro h
    rcases List.append_eq_append_iff.mp h with ⟨front, hbefore, hr⟩ | ⟨rest, hl, hrest⟩
    · exact Or.inr ⟨front, hr, hbefore⟩
    · cases rest with
      | nil => exact Or.inr ⟨[], by simpa using hrest.symm, by simpa using hl.symm⟩
      | cons e' rest =>
        rw [List.cons_append, List.cons.injEq] at hrest
        exact Or.inl ⟨rest, by rw [hl, hrest.1], hrest.2⟩
  · rintro (⟨rest, rfl, rfl⟩ | ⟨front, rfl, rfl⟩) <;> simp

/-! ## Every event -/

/-- Every event of the log meets `P` given what came before it. -/
def AtEach (P : List α → α → Prop) (log : List α) : Prop :=
  ∀ before e after, log = before ++ e :: after → P before e

section AtEach

variable {P Q : List α → α → Prop} {log seg : List α} {e : α}

theorem atEach_nil : AtEach P [] := by
  intro before e after h
  simp at h

theorem atEach_append :
    AtEach P (log ++ seg) ↔ AtEach P log ∧ AtEach (fun before => P (log ++ before)) seg := by
  constructor
  · intro h
    refine ⟨fun before e after hlog => ?_, fun before e after hseg => ?_⟩
    · exact h before e (after ++ seg) (by rw [hlog, List.append_assoc, List.cons_append])
    · exact h (log ++ before) e after (by rw [hseg, List.append_assoc])
  · rintro ⟨hlog, hseg⟩ before e after h
    rcases append_eq_append_cons_iff.mp h with ⟨rest, hl, -⟩ | ⟨front, hr, rfl⟩
    · exact hlog before e rest hl
    · exact hseg front e after hr

theorem atEach_singleton : AtEach P [e] ↔ P [] e := by
  constructor
  · exact fun h => h [] e [] rfl
  · intro h before e' after heq
    cases before with
    | nil =>
      rw [List.nil_append, List.cons.injEq] at heq
      exact heq.1 ▸ h
    | cons b before => simp at heq

theorem atEach_concat : AtEach P (log ++ [e]) ↔ AtEach P log ∧ P log e := by
  rw [atEach_append, atEach_singleton, List.append_nil]

theorem AtEach.mono (h : AtEach P log) (hPQ : ∀ before e, P before e → Q before e) :
    AtEach Q log := fun before e after hlog => hPQ before e (h before e after hlog)

/-- A condition that every event of a kind meets holds of a log of that kind. -/
theorem atEach_of_forall (h : ∀ e ∈ log, ∀ before, P before e) : AtEach P log := by
  intro before e after hlog
  exact h e (by rw [hlog]; simp) before

theorem AtEach.take (h : AtEach P log) (n : Nat) : AtEach P (log.take n) := by
  rw [← List.take_append_drop n log] at h
  exact (atEach_append.mp h).1

/-- The same by position. -/
theorem atEach_iff_getElem : AtEach P log ↔ ∀ n (h : n < log.length), P (log.take n) log[n] := by
  constructor
  · intro h n hn
    refine h (log.take n) log[n] (log.drop (n + 1)) ?_
    rw [← List.drop_eq_getElem_cons hn, List.take_append_drop]
  · rintro h before e after rfl
    have hn : before.length < (before ++ e :: after).length := by simp
    simpa using h before.length hn

instance [∀ before e, Decidable (P before e)] : Decidable (AtEach P log) :=
  decidable_of_iff (∀ n : Fin log.length, P (log.take n) log[n])
    (by rw [atEach_iff_getElem]; exact ⟨fun h n hn => h ⟨n, hn⟩, fun h n => h n n.isLt⟩)

end AtEach

/-! ## Since then -/

/-- Set up at some point, and not broken since. -/
def Since (initially : Prop) (sets breaks : α → Prop) (log : List α) : Prop :=
  ∃ before middle, log = before ++ middle ∧
    ((before = [] ∧ initially) ∨ ∃ earlier e, before = earlier ++ [e] ∧ sets e) ∧
    ∀ e ∈ middle, ¬ breaks e

section Since

variable {initially : Prop} {sets breaks : α → Prop} {log seg : List α} {e : α}

@[simp] theorem since_nil : Since initially sets breaks [] ↔ initially := by
  constructor
  · rintro ⟨before, middle, h, hset, -⟩
    obtain ⟨rfl, rfl⟩ := List.append_eq_nil_iff.mp h.symm
    rcases hset with ⟨-, hi⟩ | ⟨earlier, e, hearlier, -⟩
    · exact hi
    · simp at hearlier
  · exact fun hi => ⟨[], [], rfl, Or.inl ⟨rfl, hi⟩, by simp⟩

@[simp] theorem since_concat :
    Since initially sets breaks (log ++ [e]) ↔
      sets e ∨ (Since initially sets breaks log ∧ ¬ breaks e) := by
  constructor
  · rintro ⟨before, middle, h, hset, hmiddle⟩
    rcases List.eq_nil_or_concat middle with rfl | ⟨middle, e', rfl⟩
    · rw [List.append_nil] at h
      rcases hset with ⟨rfl, -⟩ | ⟨earlier, e', rfl, hsets⟩
      · simp at h
      · obtain ⟨-, he⟩ := List.append_inj' h rfl
        cases he
        exact Or.inl hsets
    · rw [List.concat_eq_append] at h hmiddle
      rw [← List.append_assoc] at h
      obtain ⟨rfl, he⟩ := List.append_inj' h rfl
      cases he
      exact Or.inr ⟨⟨before, middle, rfl, hset, fun x hx => hmiddle x (by simp [hx])⟩,
        hmiddle e (by simp)⟩
  · rintro (hsets | ⟨⟨before, middle, rfl, hset, hmiddle⟩, hbreak⟩)
    · exact ⟨log ++ [e], [], by simp, Or.inr ⟨log, e, rfl, hsets⟩, by simp⟩
    · refine ⟨before, middle ++ [e], by simp, hset, fun x hx => ?_⟩
      rcases List.mem_append.mp hx with hx | hx
      · exact hmiddle x hx
      · exact List.mem_singleton.mp hx ▸ hbreak

/-- A stretch of the log that sets nothing up can only break. -/
theorem Since.of_append (h : Since initially sets breaks (log ++ seg)) :
    (∀ e ∈ seg, ¬ sets e) → Since initially sets breaks log ∧ ∀ e ∈ seg, ¬ breaks e := by
  induction seg using List.reverseRecOn with
  | nil => exact fun _ => ⟨by simpa using h, by simp⟩
  | append_singleton seg e ih =>
    intro hseg
    rw [← List.append_assoc, since_concat] at h
    obtain ⟨hlog, hbreak⟩ := h.resolve_left (hseg e (by simp))
    obtain ⟨hlog, hrest⟩ := ih hlog fun x hx => hseg x (by simp [hx])
    refine ⟨hlog, fun x hx => ?_⟩
    rcases List.mem_append.mp hx with hx | hx
    · exact hrest x hx
    · exact List.mem_singleton.mp hx ▸ hbreak

end Since

end Past
