import Mathlib.Data.List.Sort

/-!
# Stable sorting by a key

`sortByKey key l` holds the entries of `l` in the order of their keys, and the entries of one key
in the order they had. Cut to its first `n` entries, it holds an entry of a key exactly when the
list has one and fewer than `n` entries of smaller keys.
-/

namespace Sorting

variable {α κ : Type} [LinearOrder κ] (key : α → κ)

/-- The list in the order of its keys, stably. -/
def sortByKey (l : List α) : List α := l.insertionSort fun a b => key a ≤ key b

section

variable {key} {l : List α} {k : κ} {n : Nat}

theorem perm_sortByKey : (sortByKey key l).Perm l := List.perm_insertionSort _ l

theorem mem_sortByKey {a : α} : a ∈ sortByKey key l ↔ a ∈ l := perm_sortByKey.mem_iff

theorem pairwise_sortByKey : (sortByKey key l).Pairwise fun a b => key a ≤ key b := by
  have htotal : Std.Total fun a b : α => key a ≤ key b := ⟨fun a b => le_total (key a) (key b)⟩
  have htrans : IsTrans α fun a b => key a ≤ key b := ⟨fun _ _ _ => le_trans⟩
  exact List.pairwise_insertionSort _ l

/-- The entries of one key keep their order. -/
theorem filter_sortByKey :
    ((sortByKey key l).filter fun a => key a = k) = l.filter fun a => key a = k := by
  have hequal : (l.filter fun a => key a = k).Pairwise fun a b => key a ≤ key b := by
    refine List.pairwise_filter.mpr (List.pairwise_of_forall fun a b ha hb => ?_)
    rw [of_decide_eq_true ha, of_decide_eq_true hb]
  have hsub := (List.sublist_insertionSort hequal List.filter_sublist).filter fun a => key a = k
  rw [List.filter_filter] at hsub
  simp only [Bool.and_self] at hsub
  exact (hsub.eq_of_length (perm_sortByKey.filter _).length_eq.symm).symm

/-- A list in the order of its keys has the smaller keys first. -/
theorem filter_lt_append_filter_le {s : List α} (hs : s.Pairwise fun a b => key a ≤ key b) :
    (s.filter fun a => key a < k) ++ (s.filter fun a => k ≤ key a) = s := by
  induction hs with
  | nil => rfl
  | @cons a s hle hs ih =>
    cases lt_or_ge (key a) k with
    | inl hlt =>
      rw [List.filter_cons_of_pos (by simpa using hlt),
        List.filter_cons_of_neg (by simpa using hlt), List.cons_append, ih]
    | inr hge =>
      -- no smaller key follows
      have hnone : (s.filter fun a => key a < k) = [] := by
        refine List.filter_eq_nil_iff.mpr fun b hb hlt => ?_
        exact absurd (hge.trans (hle b hb)) (not_le.mpr (of_decide_eq_true hlt))
      rw [List.filter_cons_of_neg (by simpa using hge),
        List.filter_cons_of_pos (by simpa using hge), hnone, List.nil_append]
      rw [hnone, List.nil_append] at ih
      rw [ih]

/-- What a cut keeps of one key is the beginning of what the list has of it. -/
theorem filter_take_prefix :
    (((sortByKey key l).take n).filter fun a => key a = k) <+: l.filter fun a => key a = k := by
  rw [← filter_sortByKey (l := l)]
  exact (List.take_prefix n _).filter _

/-- A cut keeps an entry of a key that the list has unless smaller keys fill it. -/
theorem exists_mem_take_sortByKey (hmem : ∃ a ∈ l, key a = k) :
    (∃ a ∈ (sortByKey key l).take n, key a = k) ↔ (l.filter fun a => key a < k).length < n := by
  have hsorted : (sortByKey key l).Pairwise fun a b => key a ≤ key b := pairwise_sortByKey
  have hsplit := filter_lt_append_filter_le (k := k) hsorted
  have hlen : ((sortByKey key l).filter fun a => key a < k).length =
      (l.filter fun a => key a < k).length := (perm_sortByKey.filter _).length_eq
  rw [← hlen]
  constructor
  · rintro ⟨a, ha, hkey⟩
    by_contra hfull
    rw [← hsplit, List.take_append_of_le_length (not_lt.mp hfull)] at ha
    have hlt := (List.mem_filter.mp (List.mem_of_mem_take ha)).2
    exact absurd (of_decide_eq_true hlt) (not_lt.mpr hkey.ge)
  · intro hroom
    obtain ⟨a, ha, hkey⟩ := hmem
    have hrest : a ∈ (sortByKey key l).filter fun a => k ≤ key a :=
      List.mem_filter.mpr ⟨mem_sortByKey.mpr ha, by simpa using hkey.ge⟩
    cases hlist : (sortByKey key l).filter fun a => k ≤ key a with
    | nil =>
      rw [hlist] at hrest
      cases hrest
    | cons b rest =>
      -- the first of the others has the key, for none of them has a smaller one than `a`
      have hb : b ∈ (sortByKey key l).filter fun a => k ≤ key a := hlist ▸ List.mem_cons_self
      have hordered : (b :: rest).Pairwise fun a b => key a ≤ key b := hlist ▸ hsorted.filter _
      have hle : key b ≤ k := by
        rw [hlist] at hrest
        cases hrest with
        | head => exact hkey.le
        | tail _ hmem => exact hkey ▸ (List.pairwise_cons.mp hordered).1 a hmem
      refine ⟨b, ?_, le_antisymm hle (of_decide_eq_true (List.mem_filter.mp hb).2)⟩
      rw [← hsplit, hlist, List.take_append]
      refine List.mem_append_right _ ?_
      obtain ⟨room, hroom⟩ := Nat.exists_eq_add_of_lt hroom
      rw [show n - ((sortByKey key l).filter fun a => key a < k).length = room + 1 by omega]
      exact List.mem_cons_self

end

end Sorting
