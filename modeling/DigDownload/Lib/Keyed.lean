import Mathlib.Data.Finset.Card

/-!
# Lists that learn by key

A list learns a batch by appending the entries whose keys it did not hold, all of them, so that a
key that the batch repeats is repeated. What a list has learned from a sequence of batches holds
each key once exactly when it did at first and no batch repeats a key that was new.
-/

namespace Keyed

variable {α κ : Type} [DecidableEq κ] (key : α → κ)

/-- Each key occurs once. -/
def Distinct (l : List α) : Prop := (l.map key).Nodup

/-- The entries of a batch with keys that are not known. -/
def unknown (known batch : List α) : List α :=
  batch.filter fun a => !(known.map key).contains (key a)

/-- The list after a batch. -/
def learn (known batch : List α) : List α := known ++ unknown key known batch

/-- No batch repeats a key that is new when the batch comes. -/
def NewOnce : List α → List (List α) → Prop
  | _, [] => True
  | known, batch :: batches =>
      Distinct key (unknown key known batch) ∧ NewOnce (learn key known batch) batches

instance (l : List α) : Decidable (Distinct key l) := inferInstanceAs (Decidable (l.map key).Nodup)

section

variable {key} {known batch : List α} {batches : List (List α)}

theorem unknown_nil_left : unknown key [] batch = batch := by simp [unknown]

theorem learn_nil_right : learn key known [] = known := List.append_nil known

theorem learn_nil_left : learn key [] batch = batch := unknown_nil_left

omit [DecidableEq κ] in
theorem distinct_append :
    Distinct key (known ++ batch) ↔
      Distinct key known ∧ Distinct key batch ∧ ∀ a ∈ batch, key a ∉ known.map key := by
  rw [Distinct, List.map_append, List.nodup_append']
  constructor
  · rintro ⟨hknown, hbatch, hapart⟩
    exact ⟨hknown, hbatch, fun a ha hmem => hapart hmem (List.mem_map_of_mem ha)⟩
  · rintro ⟨hknown, hbatch, hapart⟩
    refine ⟨hknown, hbatch, ?_⟩
    intro k hk hnew
    obtain ⟨a, ha, rfl⟩ := List.mem_map.mp hnew
    exact hapart a ha hk

theorem distinct_learn :
    Distinct key (learn key known batch) ↔
      Distinct key known ∧ Distinct key (unknown key known batch) := by
  have hnew : ∀ a ∈ unknown key known batch, key a ∉ known.map key := by
    intro a ha
    have hnot := (List.mem_filter.mp ha).2
    rwa [Bool.not_eq_true', List.contains_eq_mem, decide_eq_false_iff_not] at hnot
  rw [learn, distinct_append]
  exact ⟨fun h => ⟨h.1, h.2.1⟩, fun h => ⟨h.1, h.2, hnew⟩⟩

/-- What was learned from a sequence of batches. -/
theorem distinct_foldl_learn :
    Distinct key (batches.foldl (learn key) known) ↔
      Distinct key known ∧ NewOnce key known batches := by
  induction batches generalizing known with
  | nil => exact (and_true _).symm.to_iff
  | cons batch batches ih => rw [List.foldl_cons, ih, distinct_learn, and_assoc, NewOnce]

/-- Learning keeps what is known, in its order. -/
theorem prefix_foldl_learn : known <+: batches.foldl (learn key) known := by
  induction batches generalizing known with
  | nil => exact List.prefix_rfl
  | cons batch batches ih => exact (List.prefix_append known _).trans ih

/-- The new keys of a batch are as many as the new entries exactly when none is repeated. -/
theorem length_unknown_eq_card :
    (unknown key known batch).length =
        ((batch.map key).toFinset \ (known.map key).toFinset).card ↔
      Distinct key (unknown key known batch) := by
  have hkeys : (batch.map key).toFinset \ (known.map key).toFinset =
      ((unknown key known batch).map key).toFinset := by
    ext k
    simp only [Finset.mem_sdiff, List.mem_toFinset, List.mem_map, unknown, List.mem_filter,
      Bool.not_eq_true', List.contains_eq_mem, decide_eq_false_iff_not]
    constructor
    · rintro ⟨⟨a, ha, rfl⟩, hnot⟩
      exact ⟨a, ⟨ha, hnot⟩, rfl⟩
    · rintro ⟨a, ⟨ha, hnot⟩, rfl⟩
      exact ⟨⟨a, ha, rfl⟩, hnot⟩
  have hlen : (unknown key known batch).length =
      Multiset.card (((unknown key known batch).map key : List κ) : Multiset κ) := by simp
  rw [hkeys, hlen, eq_comm]
  exact Multiset.toFinset_card_eq_card_iff_nodup

end

end Keyed
