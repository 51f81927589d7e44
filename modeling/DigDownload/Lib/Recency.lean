import Mathlib.Data.Finset.Card
import Mathlib.Data.List.Induction
import Mathlib.Data.List.Nodup

/-!
# Bounded lists in order of latest use

An entry is put at the back of a list. The entries that are stale by then go, so does an
older entry of the same key, and what exceeds the cap is dropped from the front. The list
that a run of puts leaves holds each key at most once, in the order of the latest puts,
and an entry has gone only for one of these three reasons.
-/

namespace Recency

variable {α κ : Type}

/-- An entry to put in, and which entries are stale at that moment. -/
structure Put (α : Type) where
  entry : α
  stale : α → Bool

/-- The latest put of the key `k` is the one at `n`. -/
def Latest (key : α → κ) (run : List (Put α)) (n : Nat) (k : κ) : Prop :=
  (∃ p, run[n]? = some p ∧ key p.entry = k) ∧
    ∀ m p, n < m → run[m]? = some p → key p.entry ≠ k

/-- The list holds entries of the run by the latest put of their key, in that order. -/
structure Ordered (key : α → κ) (run : List (Put α)) (l : List α) : Prop where
  latest : ∀ a ∈ l, ∃ n p, run[n]? = some p ∧ p.entry = a ∧ Latest key run n (key a)
  nodup : (l.map key).Nodup
  sorted : l.Pairwise fun a b =>
    ∀ m n, Latest key run m (key a) → Latest key run n (key b) → m < n

variable {key : α → κ} {cap : Nat} {run before later : List (Put α)} {p q : Put α}
variable {l l' : List α} {a : α} {k : κ} {n m : Nat}

/-! ## The latest put of a key -/

theorem Latest.unique (hn : Latest key run n k) (hm : Latest key run m k) : n = m := by
  obtain ⟨⟨p, hp, hpk⟩, hafter⟩ := hn
  obtain ⟨⟨q, hq, hqk⟩, hafter'⟩ := hm
  rcases Nat.lt_trichotomy n m with h | h | h
  · exact absurd hqk (hafter m q h hq)
  · exact h
  · exact absurd hpk (hafter' n p h hp)

theorem latest_concat_self : Latest key (run ++ [p]) run.length (key p.entry) := by
  constructor
  · exact ⟨p, by simp, rfl⟩
  · intro m q hm hq
    rw [List.getElem?_append_right (Nat.le_of_lt hm), List.getElem?_eq_none] at hq
    · cases hq
    · simp
      omega

theorem latest_concat_of_ne (hk : key p.entry ≠ k) :
    Latest key (run ++ [p]) n k ↔ Latest key run n k := by
  constructor
  · intro h
    obtain ⟨⟨q, hq, hqk⟩, hafter⟩ := h
    have hlt : n < run.length := by
      by_contra hge
      rw [List.getElem?_append_right (by omega)] at hq
      have hmem := List.mem_of_getElem? hq
      rw [List.mem_singleton.mp hmem] at hqk
      exact hk hqk
    constructor
    · exact ⟨q, by rwa [List.getElem?_append_left hlt] at hq, hqk⟩
    · intro m q' hm hq'
      have hmlt := (List.getElem?_eq_some_iff.mp hq').1
      exact hafter m q' hm (by rwa [List.getElem?_append_left hmlt])
  · intro h
    obtain ⟨⟨q, hq, hqk⟩, hafter⟩ := h
    have hlt := (List.getElem?_eq_some_iff.mp hq).1
    constructor
    · exact ⟨q, by rwa [List.getElem?_append_left hlt], hqk⟩
    · intro m q' hm hq'
      rcases Nat.lt_or_ge m run.length with hmlt | hmge
      · exact hafter m q' hm (by rwa [List.getElem?_append_left hmlt] at hq')
      · rw [List.getElem?_append_right hmge] at hq'
        have hmem := List.mem_of_getElem? hq'
        rw [List.mem_singleton.mp hmem]
        exact hk

/-- Where the key of a put does not come again, that put is its latest. -/
theorem latest_of_not_later (hlater : ∀ q ∈ later, key q.entry ≠ key p.entry) :
    Latest key (before ++ p :: later) before.length (key p.entry) := by
  constructor
  · exact ⟨p, by simp, rfl⟩
  · intro m q hm hq
    rw [List.getElem?_append_right (by omega)] at hq
    obtain ⟨d, hd⟩ : ∃ d, m - before.length = d + 1 := ⟨m - before.length - 1, by omega⟩
    rw [hd, List.getElem?_cons_succ] at hq
    exact hlater q (List.mem_of_getElem? hq)

/-- A key whose latest put is after `before` and `p` was put later. -/
theorem Latest.mem_later (h : Latest key (before ++ p :: later) n k) (hn : before.length < n) :
    k ∈ later.map fun q => key q.entry := by
  obtain ⟨⟨q, hq, rfl⟩, -⟩ := h
  rw [List.getElem?_append_right (by omega)] at hq
  obtain ⟨d, hd⟩ : ∃ d, n - before.length = d + 1 := ⟨n - before.length - 1, by omega⟩
  rw [hd, List.getElem?_cons_succ] at hq
  exact List.mem_map_of_mem (List.mem_of_getElem? hq)

/-! ## One put -/

theorem Ordered.sublist (h : Ordered key run l) (hl : l'.Sublist l) : Ordered key run l' where
  latest a ha := h.latest a (hl.subset ha)
  nodup := h.nodup.sublist (hl.map key)
  sorted := h.sorted.sublist hl

variable [DecidableEq κ]

/-- What a put leaves before the cap is applied. -/
def joined (key : α → κ) (l : List α) (p : Put α) : List α :=
  (l.filter fun a => !p.stale a && key a != key p.entry) ++ [p.entry]

def put (key : α → κ) (cap : Nat) (l : List α) (p : Put α) : List α :=
  (joined key l p).drop ((joined key l p).length - cap)

/-- The list after a run of puts. -/
def puts (key : α → κ) (cap : Nat) (run : List (Put α)) : List α := run.foldl (put key cap) []

theorem mem_joined : a ∈ joined key l p ↔
    (a ∈ l ∧ p.stale a = false ∧ key a ≠ key p.entry) ∨ a = p.entry := by
  simp [joined]

theorem nodup_joined (h : (l.map key).Nodup) : ((joined key l p).map key).Nodup := by
  rw [joined, List.map_append, List.nodup_append]
  refine ⟨h.sublist (List.filter_sublist.map key), by simp, ?_⟩
  intro k hk k' hk' he
  obtain ⟨a, ha, rfl⟩ := List.mem_map.mp hk
  rw [List.map_singleton, List.mem_singleton] at hk'
  simp only [List.mem_filter, Bool.and_eq_true, bne_iff_ne] at ha
  exact ha.2.2 (he.trans hk')

/-- The entry that is put in goes behind all that stay. -/
theorem Ordered.joined (h : Ordered key run l) :
    Ordered key (run ++ [p]) (joined key l p) := by
  have hkept : (l.filter fun a => !p.stale a && key a != key p.entry).Sublist l :=
    List.filter_sublist
  have hother : ∀ a ∈ l.filter (fun a => !p.stale a && key a != key p.entry),
      key p.entry ≠ key a := by
    intro a ha
    simp only [List.mem_filter, Bool.and_eq_true, bne_iff_ne] at ha
    exact fun he => ha.2.2 he.symm
  have hlatest := (h.sublist hkept).latest
  constructor
  case latest =>
    intro a ha
    rcases List.mem_append.mp ha with hold | hnew
    · obtain ⟨n, q, hq, hqa, hn⟩ := hlatest a hold
      have hlt := (List.getElem?_eq_some_iff.mp hq).1
      exact ⟨n, q, by rwa [List.getElem?_append_left hlt], hqa,
        (latest_concat_of_ne (hother a hold)).mpr hn⟩
    · rw [List.mem_singleton.mp hnew]
      exact ⟨run.length, p, by simp, rfl, latest_concat_self⟩
  case nodup => exact nodup_joined h.nodup
  case sorted =>
    show List.Pairwise _ (_ ++ [p.entry])
    rw [List.pairwise_append]
    refine ⟨?_, by simp, ?_⟩
    · refine (h.sublist hkept).sorted.imp_of_mem ?_
      intro a b ha hb hab m n hm hn
      exact hab m n ((latest_concat_of_ne (hother a ha)).mp hm)
        ((latest_concat_of_ne (hother b hb)).mp hn)
    · intro a ha b hb m n hm hn
      obtain ⟨i, q, hq, -, hi⟩ := hlatest a ha
      rw [List.mem_singleton.mp hb] at hn
      rw [hn.unique latest_concat_self,
        ((latest_concat_of_ne (hother a ha)).mp hm).unique hi]
      exact (List.getElem?_eq_some_iff.mp hq).1

theorem put_sublist : (put key cap l p).Sublist (joined key l p) := List.drop_sublist _ _

theorem Ordered.put (h : Ordered key run l) : Ordered key (run ++ [p]) (put key cap l p) :=
  h.joined.sublist put_sublist

theorem length_put_le : (put key cap l p).length ≤ cap := by
  rw [put, List.length_drop]
  omega

/-- What was put in last is there as long as the list may hold anything. -/
theorem entry_mem_put (hcap : 0 < cap) : p.entry ∈ put key cap l p := by
  rw [put, joined, List.drop_append_of_le_length]
  · simp
  · rw [List.length_append, List.length_singleton]
    omega

/-- What a put drops from the front has a full list of entries behind it. -/
theorem mem_put_or_behind (ha : a ∈ joined key l p) :
    a ∈ put key cap l p ∨
      ∃ front back, joined key l p = front ++ a :: back ∧ cap ≤ back.length := by
  obtain ⟨front, back, hsplit⟩ := List.append_of_mem ha
  rcases Nat.lt_or_ge front.length ((joined key l p).length - cap) with hlt | hge
  · refine Or.inr ⟨front, back, hsplit, ?_⟩
    rw [hsplit, List.length_append, List.length_cons] at hlt
    omega
  · left
    rw [put, List.mem_iff_getElem?]
    refine ⟨front.length - ((joined key l p).length - cap), ?_⟩
    rw [List.getElem?_drop, Nat.add_sub_cancel' hge, hsplit]
    simp

/-! ## Runs of puts -/

@[simp] theorem puts_nil : puts key cap [] = [] := rfl

theorem puts_concat : puts key cap (run ++ [p]) = put key cap (puts key cap run) p := by
  rw [puts, List.foldl_append]
  rfl

theorem ordered_puts : Ordered key run (puts key cap run) := by
  induction run using List.reverseRecOn with
  | nil => exact ⟨by simp, by simp, by simp⟩
  | append_singleton run p ih =>
    rw [puts_concat]
    exact ih.put

theorem length_puts_le : (puts key cap run).length ≤ cap := by
  cases run using List.reverseRecOn with
  | nil => simp
  | append_singleton run p =>
    rw [puts_concat]
    exact length_put_le

/-- Entries behind one that is the latest of its key have been put since, under as many
other keys. -/
theorem Ordered.length_behind_le (h : Ordered key (before ++ p :: later) l)
    (hlater : ∀ q ∈ later, key q.entry ≠ key p.entry) {front back : List α}
    (hl : l = front ++ p.entry :: back) :
    back.length ≤ ((later.map fun q => key q.entry).toFinset.erase (key p.entry)).card := by
  have htail : Ordered key (before ++ p :: later) (p.entry :: back) :=
    h.sublist (hl ▸ List.sublist_append_right _ _)
  have hnodup : (key p.entry :: back.map key).Nodup := htail.nodup
  have hsub : (back.map key).toFinset ⊆
      (later.map fun q => key q.entry).toFinset.erase (key p.entry) := by
    intro k hk
    obtain ⟨b, hb, rfl⟩ := List.mem_map.mp (List.mem_toFinset.mp hk)
    obtain ⟨n, q, -, -, hn⟩ := htail.latest b (List.mem_cons_of_mem _ hb)
    have hlt := (List.pairwise_cons.mp htail.sorted).1 b hb _ _
      (latest_of_not_later hlater) hn
    rw [Finset.mem_erase, List.mem_toFinset]
    constructor
    · intro he
      exact (List.nodup_cons.mp hnodup).1 (he ▸ List.mem_map_of_mem hb)
    · exact hn.mem_later hlt
  calc back.length = (back.map key).toFinset.card := by
        rw [List.toFinset_card_of_nodup (List.nodup_cons.mp hnodup).2, List.length_map]
    _ ≤ _ := Finset.card_le_card hsub

/-- An entry stays until a later put finds it stale or has its key, or a full list of other
keys was put since. -/
theorem mem_puts_or (key : α → κ) (cap : Nat) (before : List (Put α)) (p : Put α)
    (later : List (Put α)) :
    p.entry ∈ puts key cap (before ++ p :: later) ∨
      (∃ q ∈ later, q.stale p.entry ∨ key q.entry = key p.entry) ∨
      cap ≤ ((later.map fun q => key q.entry).toFinset.erase (key p.entry)).card := by
  induction later using List.reverseRecOn with
  | nil =>
    rw [puts_concat]
    have hlast : p.entry ∈ joined key (puts key cap before) p := mem_joined.mpr (Or.inr rfl)
    rcases mem_put_or_behind hlast with hmem | hbehind
    · exact Or.inl hmem
    · obtain ⟨front, back, hsplit, hcap⟩ := hbehind
      have hle := ordered_puts.joined.length_behind_le (by simp) hsplit
      exact Or.inr (Or.inr (hcap.trans hle))
  | append_singleton later q ih =>
    rcases ih with hmem | ⟨r, hr, hgone⟩ | hfull
    · by_cases hgone : ∃ r ∈ later ++ [q], r.stale p.entry ∨ key r.entry = key p.entry
      · exact Or.inr (Or.inl hgone)
      · push Not at hgone
        have hq := hgone q (by simp)
        have hrun : before ++ p :: (later ++ [q]) = (before ++ p :: later) ++ [q] := by simp
        have hkept : p.entry ∈ joined key (puts key cap (before ++ p :: later)) q :=
          mem_joined.mpr (Or.inl ⟨hmem, by simpa using hq.1, fun he => hq.2 he.symm⟩)
        rcases mem_put_or_behind hkept with hstays | hbehind
        · exact Or.inl (by rwa [hrun, puts_concat])
        · obtain ⟨front, back, hsplit, hcap⟩ := hbehind
          have hordered : Ordered key (before ++ p :: (later ++ [q]))
              (joined key (puts key cap (before ++ p :: later)) q) := hrun ▸ ordered_puts.joined
          have hle := hordered.length_behind_le (fun r hr => (hgone r hr).2) hsplit
          exact Or.inr (Or.inr (hcap.trans hle))
    · exact Or.inr (Or.inl ⟨r, List.mem_append_left _ hr, hgone⟩)
    · refine Or.inr (Or.inr (hfull.trans (Finset.card_le_card ?_)))
      refine Finset.erase_subset_erase _ fun k hk => ?_
      rw [List.mem_toFinset, List.map_append] at *
      exact List.mem_append_left _ hk

end Recency
