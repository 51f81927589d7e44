import Mathlib.Data.Finset.Card
import DigDownload.Module.Pull

/-!
# The attempts as a game of elimination

When every holder always behaves in the same way, a pull is a game: the first holder
that is not excluded and answers is tried, and it ends the game or is eliminated. The
game is played for a bounded number of turns. Remembered verdicts exclude holders until
nobody else is left. This module says in closed form when the game is won.
-/

namespace DigDownload

/-- What asking a holder for a descriptor leads to: no descriptor, a module, an
elimination, or the end of the pull. -/
inductive HolderKind where
  | mute
  | good
  | demotable
  | fatal
  deriving DecidableEq, Repr

/-- The ids of the located holders, in order. -/
def holderIds (located : List ProviderRecord) : List String := located.map (·.providerPeerId)

/-- The holders that are not excluded and give some answer, in order. -/
def answering (kind : String → HolderKind) (excluded ids : List String) : List String :=
  ids.filter fun p => p ∉ excluded ∧ kind p ≠ .mute

/-- The holders that are not excluded, and those that are. -/
def outside (excluded ids : List String) : Finset String := (ids.filter (· ∉ excluded)).toFinset

def within (excluded ids : List String) : List String := ids.filter (· ∈ excluded)

/-- The game, with `left` turns to go after this one. -/
def play (kind : String → HolderKind) (located : List ProviderRecord) :
    Nat → DescriptorExclusions → Bool
  | 0, x =>
      match answering kind (x.settle located).excluded (holderIds located) with
      | [] => false
      | p :: _ => kind p = .good
  | left + 1, x =>
      match answering kind (x.settle located).excluded (holderIds located) with
      | [] => false
      | p :: _ =>
          match kind p with
          | .good => true
          | .demotable => play kind located left ((x.settle located).demote p)
          | _ => false

/-! ## Reaching a good holder -/

/-- The first holder of the list that is not demotable is good, and fewer than `budget`
demotable ones stand before it. -/
def Reaches (kind : String → HolderKind) (budget : Nat) (ids : List String) : Prop :=
  ∃ front q back, ids = front ++ q :: back ∧ (∀ p ∈ front, kind p = .demotable) ∧
    kind q = .good ∧ front.toFinset.card < budget

section Reaches

variable {kind : String → HolderKind} {budget : Nat} {ids : List String} {p : String}

@[simp] theorem not_reaches_zero : ¬ Reaches kind 0 ids := by
  rintro ⟨front, q, back, -, -, -, hlt⟩
  exact Nat.not_lt_zero _ hlt

@[simp] theorem not_reaches_nil : ¬ Reaches kind budget [] := by
  rintro ⟨front, q, back, h, -⟩
  simp at h

theorem reaches_cons_good (hp : kind p = .good) : Reaches kind (budget + 1) (p :: ids) :=
  ⟨[], p, ids, rfl, by simp, hp, by simp⟩

/-- The first holder decides unless it is demotable. -/
theorem kind_of_reaches_cons (h : Reaches kind budget (p :: ids)) :
    kind p = .good ∨ kind p = .demotable := by
  obtain ⟨front, q, back, heq, hfront, hq, -⟩ := h
  cases front with
  | nil =>
    rw [List.nil_append, List.cons.injEq] at heq
    exact Or.inl (heq.1 ▸ hq)
  | cons p' front =>
    rw [List.cons_append, List.cons.injEq] at heq
    exact Or.inr (heq.1 ▸ hfront p' List.mem_cons_self)

/-- A demotable holder is eliminated, wherever it occurs, at the price of one turn. -/
theorem reaches_cons_demotable (hp : kind p = .demotable) :
    Reaches kind (budget + 1) (p :: ids) ↔ Reaches kind budget (ids.filter (· ≠ p)) := by
  constructor
  · rintro ⟨front, q, back, heq, hfront, hq, hlt⟩
    cases front with
    | nil =>
      rw [List.nil_append, List.cons.injEq] at heq
      rw [heq.1, hq] at hp
      cases hp
    | cons p' front =>
      rw [List.cons_append, List.cons.injEq] at heq
      obtain ⟨rfl, rfl⟩ := heq
      have hne : q ≠ p := by
        rintro rfl
        rw [hq] at hp
        cases hp
      refine ⟨front.filter (· ≠ p), q, back.filter (· ≠ p), by simp [hne], fun x hx => ?_, hq, ?_⟩
      · exact hfront x (List.mem_cons_of_mem _ (List.mem_of_mem_filter hx))
      · have hsub : insert p (front.filter (· ≠ p)).toFinset ⊆ (p :: front).toFinset := by
          intro x hx
          simp only [Finset.mem_insert, List.mem_toFinset, List.mem_filter] at hx
          simp only [List.mem_toFinset, List.mem_cons]
          exact hx.imp_right fun h => h.1
        have hcard := Finset.card_le_card hsub
        rw [Finset.card_insert_of_notMem (by simp)] at hcard
        omega
  · rintro ⟨front, q, back, heq, hfront, hq, hlt⟩
    obtain ⟨front', rest, rfl, rfl, hrest⟩ := List.filter_eq_append_iff.mp heq
    obtain ⟨skipped, back', rfl, hskipped, -, rfl⟩ := List.filter_eq_cons_iff.mp hrest
    have hskip : ∀ x ∈ skipped, x = p := fun x hx => by simpa using hskipped x hx
    refine ⟨p :: (front' ++ skipped), q, back', by simp, fun x hx => ?_, hq, ?_⟩
    · rcases List.mem_cons.mp hx with rfl | hx
      · exact hp
      rcases List.mem_append.mp hx with hx | hx
      · by_cases hxp : x = p
        · rw [hxp, hp]
        · exact hfront x (List.mem_filter.mpr ⟨hx, by simpa using hxp⟩)
      · rw [hskip x hx, hp]
    · have hsub : (p :: (front' ++ skipped)).toFinset
          ⊆ insert p (front'.filter (· ≠ p)).toFinset := by
        intro x hx
        simp only [List.mem_toFinset, List.mem_cons, List.mem_append] at hx
        simp only [Finset.mem_insert, List.mem_toFinset, List.mem_filter]
        rcases hx with hx | hx | hx
        · exact Or.inl hx
        · by_cases hxp : x = p
          · exact Or.inl hxp
          · exact Or.inr ⟨hx, by simpa using hxp⟩
        · exact Or.inl (hskip x hx)
      have hcard := Finset.card_le_card hsub
      have hinsert := Finset.card_insert_le p (front'.filter (· ≠ p)).toFinset
      omega

/-- Excluding the first holder that answers removes it from those that answer. -/
theorem answering_concat {excluded rest : List String}
    (h : answering kind excluded ids = p :: rest) :
    answering kind (excluded ++ [p]) ids = rest.filter (· ≠ p) := by
  have hfilter : answering kind (excluded ++ [p]) ids
      = (answering kind excluded ids).filter (· ≠ p) := by
    unfold answering
    rw [List.filter_filter]
    refine List.filter_congr fun x _ => ?_
    by_cases hx : x = p <;> simp [hx]
  rw [hfilter, h, List.filter_cons]
  simp

theorem mem_answering {excluded : List String} :
    p ∈ answering kind excluded ids ↔ p ∈ ids ∧ p ∉ excluded ∧ kind p ≠ .mute := by
  simp [answering]

theorem answering_congr {excluded excluded' : List String}
    (h : ∀ q, q ∈ excluded ↔ q ∈ excluded') :
    answering kind excluded ids = answering kind excluded' ids := by
  refine List.filter_congr fun q _ => ?_
  simp [h]

/-- A holder that is not excluded answers if it is demotable. -/
theorem answering_ne_nil {excluded : List String} (hp : p ∈ ids) (hx : p ∉ excluded)
    (hall : ∀ p ∈ ids, p ∉ excluded → kind p = .demotable) :
    answering kind excluded ids ≠ [] := by
  refine List.ne_nil_of_mem (mem_answering.mpr ⟨hp, hx, ?_⟩)
  rw [hall p hp hx]
  decide

theorem mem_outside {excluded : List String} :
    p ∈ outside excluded ids ↔ p ∈ ids ∧ p ∉ excluded := by
  simp [outside]

theorem mem_outside_of_answering {excluded rest : List String}
    (h : answering kind excluded ids = p :: rest) : p ∈ outside excluded ids := by
  have hp : p ∈ answering kind excluded ids := by
    rw [h]
    exact List.mem_cons_self
  exact mem_outside.mpr ⟨(mem_answering.mp hp).1, (mem_answering.mp hp).2.1⟩

theorem outside_congr {excluded excluded' : List String}
    (h : ∀ q, q ∈ excluded ↔ q ∈ excluded') : outside excluded ids = outside excluded' ids := by
  ext q
  simp [mem_outside, h]

theorem outside_concat {excluded : List String} :
    outside (excluded ++ [p]) ids = (outside excluded ids).erase p := by
  ext q
  simp only [mem_outside, List.mem_append, List.mem_singleton, Finset.mem_erase]
  tauto

end Reaches

/-! ## One turn -/

namespace DescriptorExclusions

variable {x : DescriptorExclusions} {located : List ProviderRecord}

theorem usableHolders_eq_zero :
    x.usableHolders located = 0 ↔ ∀ p ∈ holderIds located, p ∈ x.excluded := by
  simp [usableHolders, holderIds]

theorem excluded_of_forgetful (h : x.trustsMemory = false) : x.excluded = x.demotedHere := by
  simp [excluded, h]

theorem excluded_of_trusting (h : x.trustsMemory = true) :
    x.excluded = x.demotedHere ++ x.remembered := by
  simp [excluded, h]

/-- Dropping the memory twice is dropping it once. -/
theorem settle_of_forgetful (h : x.trustsMemory = false) : x.settle located = x := by
  unfold settle stopTrustingMemory
  split
  · rw [← h]
  · rfl

theorem settle_of_usable {p : String} (hp : p ∈ holderIds located) (hx : p ∉ x.excluded) :
    x.settle located = x := by
  unfold settle
  rw [if_neg]
  exact fun h => hx (usableHolders_eq_zero.mp h p hp)

theorem settle_of_none (h : ∀ p ∈ holderIds located, p ∈ x.excluded) :
    x.settle located = { x with trustsMemory := false } := by
  unfold settle
  rw [if_pos (usableHolders_eq_zero.mpr h)]
  rfl

theorem settle_settle : (x.settle located).settle located = x.settle located := by
  by_cases h : ∀ p ∈ holderIds located, p ∈ x.excluded
  · rw [settle_of_none h]
    exact settle_of_forgetful rfl
  · obtain ⟨p, hp, hx⟩ : ∃ p ∈ holderIds located, p ∉ x.excluded := by simpa using h
    rw [settle_of_usable hp hx, settle_of_usable hp hx]

end DescriptorExclusions

section Play

variable {kind : String → HolderKind} {located : List ProviderRecord} {left : Nat}
  {x : DescriptorExclusions} {p : String} {rest : List String}

theorem play_nil (h : answering kind (x.settle located).excluded (holderIds located) = []) :
    play kind located left x = false := by
  cases left <;> simp [play, h]

theorem play_cons
    (h : answering kind (x.settle located).excluded (holderIds located) = p :: rest) :
    play kind located left x = true ↔ kind p = .good ∨
      kind p = .demotable ∧ ∃ n, left = n + 1 ∧
        play kind located n ((x.settle located).demote p) = true := by
  cases left with
  | zero => simp [play, h]
  | succ n =>
    simp only [play, h]
    cases hk : kind p <;> simp

theorem play_of_fatal
    (h : answering kind (x.settle located).excluded (holderIds located) = p :: rest)
    (hp : kind p = .fatal) : play kind located left x = false := by
  have hplay : play kind located left x = true ↔ _ := play_cons h
  simpa [hp] using not_congr hplay

theorem play_settle : play kind located left (x.settle located) = play kind located left x := by
  cases left <;> simp [play, DescriptorExclusions.settle_settle]

/-- Eliminating the first holder goes on with the game, unless nobody is left. -/
theorem play_demotable
    (h : answering kind (x.settle located).excluded (holderIds located) = p :: rest)
    (hp : kind p = .demotable) :
    play kind located (left + 1) x
      = (!(((x.settle located).demote p).usableHolders located = 0 &&
          !((x.settle located).demote p).trustsMemory) &&
        play kind located left ((x.settle located).demote p)) := by
  have hnext : play kind located (left + 1) x
      = play kind located left ((x.settle located).demote p) := by
    simp only [play, h, hp]
  rw [hnext]
  by_cases hnone : ((x.settle located).demote p).usableHolders located = 0 ∧
      ((x.settle located).demote p).trustsMemory = false
  · have hlost : play kind located left ((x.settle located).demote p) = false := by
      refine play_nil ?_
      rw [DescriptorExclusions.settle_of_forgetful hnone.2, List.eq_nil_iff_forall_not_mem]
      intro q hq
      exact (mem_answering.mp hq).2.1
        (DescriptorExclusions.usableHolders_eq_zero.mp hnone.1 q (mem_answering.mp hq).1)
    simp [hlost]
  · have hleft : (decide (((x.settle located).demote p).usableHolders located = 0) &&
        !((x.settle located).demote p).trustsMemory) = false := by
      simpa using hnone
    simp [hleft]

/-! ## When the game is won -/

/-- Without a memory to honour, the game is won when a good holder is reached. -/
theorem play_of_forgetful (h : x.trustsMemory = false) :
    play kind located left x = true ↔
      Reaches kind (left + 1) (answering kind x.demotedHere (holderIds located)) := by
  induction left generalizing x with
  | zero =>
    have hx : x.settle located = x := DescriptorExclusions.settle_of_forgetful h
    cases ha : answering kind x.demotedHere (holderIds located) with
    | nil =>
      have ha' : answering kind (x.settle located).excluded (holderIds located) = [] := by
        rw [hx, DescriptorExclusions.excluded_of_forgetful h, ha]
      simp [play_nil ha']
    | cons p rest =>
      have ha' : answering kind (x.settle located).excluded (holderIds located) = p :: rest := by
        rw [hx, DescriptorExclusions.excluded_of_forgetful h, ha]
      rw [play_cons ha']
      constructor
      · rintro (hp | ⟨-, n, hn, -⟩)
        · exact reaches_cons_good hp
        · simp at hn
      · intro hr
        rcases kind_of_reaches_cons hr with hp | hp
        · exact Or.inl hp
        · simp [reaches_cons_demotable hp] at hr
  | succ left ih =>
    have hx : x.settle located = x := DescriptorExclusions.settle_of_forgetful h
    cases ha : answering kind x.demotedHere (holderIds located) with
    | nil =>
      have ha' : answering kind (x.settle located).excluded (holderIds located) = [] := by
        rw [hx, DescriptorExclusions.excluded_of_forgetful h, ha]
      simp [play_nil ha']
    | cons p rest =>
      have ha' : answering kind (x.settle located).excluded (holderIds located) = p :: rest := by
        rw [hx, DescriptorExclusions.excluded_of_forgetful h, ha]
      have hdemote : (x.demote p).trustsMemory = false := h
      rw [play_cons ha', hx]
      constructor
      · rintro (hp | ⟨hp, n, hn, hplay⟩)
        · exact reaches_cons_good hp
        · obtain rfl : left = n := by omega
          rw [ih hdemote] at hplay
          rw [reaches_cons_demotable hp, ← answering_concat ha]
          exact hplay
      · intro hr
        rcases kind_of_reaches_cons hr with hp | hp
        · exact Or.inl hp
        · rw [reaches_cons_demotable hp, ← answering_concat ha] at hr
          exact Or.inr ⟨hp, left, rfl, (ih hdemote).mpr hr⟩

/-- Once nobody is left, the game goes on without the memory. -/
theorem play_of_none_usable (h : ∀ p ∈ holderIds located, p ∈ x.excluded) :
    play kind located left x = true ↔
      Reaches kind (left + 1) (answering kind x.demotedHere (holderIds located)) := by
  have hx := DescriptorExclusions.settle_of_none h
  have hforgetful : (x.settle located).trustsMemory = false := by rw [hx]
  rw [← play_settle, play_of_forgetful hforgetful, hx]

/-- When the game is won from a state that honours a memory: a good holder is reached among
those not excluded, or all of those are eliminated first and a good one is reached among
the remembered in the turns that are left. -/
def Serves (kind : String → HolderKind) (turns : Nat) (ids demoted remembered : List String) :
    Prop :=
  Reaches kind turns (answering kind (demoted ++ remembered) ids) ∨
    (∀ p ∈ ids, p ∉ demoted ++ remembered → kind p = .demotable) ∧
      Reaches kind (turns - (outside (demoted ++ remembered) ids).card)
        (answering kind demoted (within remembered ids))

section Serves

variable {turns : Nat} {ids demoted remembered : List String}

theorem serves_of_none_outside (h : ∀ p ∈ ids, p ∈ demoted ++ remembered) :
    Serves kind turns ids demoted remembered ↔ Reaches kind turns (answering kind demoted ids) := by
  have hempty : answering kind (demoted ++ remembered) ids = [] := by
    rw [List.eq_nil_iff_forall_not_mem]
    exact fun p hp => (mem_answering.mp hp).2.1 (h p (mem_answering.mp hp).1)
  have hcard : (outside (demoted ++ remembered) ids).card = 0 := by
    rw [Finset.card_eq_zero, Finset.eq_empty_iff_forall_notMem]
    exact fun p hp => (mem_outside.mp hp).2 (h p (mem_outside.mp hp).1)
  have hsame : answering kind demoted (within remembered ids) = answering kind demoted ids := by
    unfold answering within
    rw [List.filter_filter]
    refine List.filter_congr fun p hp => ?_
    rcases List.mem_append.mp (h p hp) with hmem | hmem <;> simp [hmem]
  unfold Serves
  rw [hempty, hcard, hsame]
  simp only [not_reaches_nil, false_or, Nat.sub_zero, and_iff_right_iff_imp]
  exact fun _ p hp hpx => absurd (h p hp) hpx

theorem serves_of_no_memory :
    Serves kind turns ids demoted [] ↔ Reaches kind turns (answering kind demoted ids) := by
  have hwithin : within [] ids = [] := by simp [within]
  unfold Serves
  simp [hwithin, answering]

/-- A holder that is usable, but none that answers: the game is stuck. -/
theorem not_serves_of_stuck (hp : p ∈ outside (demoted ++ remembered) ids)
    (h : answering kind (demoted ++ remembered) ids = []) :
    ¬ Serves kind turns ids demoted remembered := by
  unfold Serves
  rw [h]
  rintro (hr | ⟨hall, -⟩)
  · exact not_reaches_nil hr
  · exact answering_ne_nil (mem_outside.mp hp).1 (mem_outside.mp hp).2 hall h

theorem serves_cons_good (h : answering kind (demoted ++ remembered) ids = p :: rest)
    (hp : kind p = .good) : Serves kind (turns + 1) ids demoted remembered := by
  refine Or.inl ?_
  rw [h]
  exact reaches_cons_good hp

theorem kind_of_serves_cons (h : answering kind (demoted ++ remembered) ids = p :: rest)
    (hs : Serves kind turns ids demoted remembered) : kind p = .good ∨ kind p = .demotable := by
  have hp := mem_outside.mp (mem_outside_of_answering h)
  rcases hs with hr | ⟨hall, -⟩
  · rw [h] at hr
    exact kind_of_reaches_cons hr
  · exact Or.inr (hall p hp.1 hp.2)

/-- Eliminating the first holder that answers costs a turn and changes nothing else. -/
theorem serves_cons_demotable (h : answering kind (demoted ++ remembered) ids = p :: rest)
    (hp : kind p = .demotable) :
    Serves kind (turns + 1) ids demoted remembered ↔
      Serves kind turns ids (demoted ++ [p]) remembered := by
  have hout := mem_outside_of_answering h
  have hperm : ∀ q, q ∈ (demoted ++ [p]) ++ remembered ↔ q ∈ (demoted ++ remembered) ++ [p] := by
    intro q
    simp only [List.mem_append]
    tauto
  have hall : (∀ q ∈ ids, q ∉ demoted ++ remembered → kind q = .demotable) ↔
      ∀ q ∈ ids, q ∉ (demoted ++ remembered) ++ [p] → kind q = .demotable := by
    refine forall₂_congr fun q _ => ?_
    by_cases hqp : q = p
    · simp [hqp, hp]
    · simp [hqp]
  have hwithin : answering kind (demoted ++ [p]) (within remembered ids)
      = answering kind demoted (within remembered ids) := by
    refine List.filter_congr fun q hq => ?_
    have hrem : q ∈ remembered := by simpa using (List.mem_filter.mp hq).2
    have hne : q ≠ p := by
      rintro rfl
      exact (mem_outside.mp hout).2 (List.mem_append_right _ hrem)
    simp [hne]
  have hcard := Finset.card_erase_add_one hout
  have hturns : turns + 1 - (outside (demoted ++ remembered) ids).card
      = turns - ((outside (demoted ++ remembered) ids).erase p).card := by omega
  unfold Serves
  simp only [hperm]
  rw [answering_congr hperm, answering_concat h, outside_congr hperm, outside_concat, hwithin,
    hturns, ← hall, h, reaches_cons_demotable hp]

theorem not_serves_one_demotable (h : answering kind (demoted ++ remembered) ids = p :: rest)
    (hp : kind p = .demotable) : ¬ Serves kind 1 ids demoted remembered := by
  rw [serves_cons_demotable h hp]
  simp [Serves]

end Serves

/-- With a memory to honour, the game is won in the two ways described. -/
theorem play_of_trusting (h : x.trustsMemory = true) :
    play kind located left x = true ↔
      Serves kind (left + 1) (holderIds located) x.demotedHere x.remembered := by
  have hex := DescriptorExclusions.excluded_of_trusting h
  induction left generalizing x with
  | zero =>
    by_cases hnone : ∀ p ∈ holderIds located, p ∈ x.demotedHere ++ x.remembered
    · rw [serves_of_none_outside hnone]
      exact play_of_none_usable (hex ▸ hnone)
    obtain ⟨q, hq, hqx⟩ : ∃ p ∈ holderIds located, p ∉ x.demotedHere ++ x.remembered := by
      simpa using hnone
    have hx : x.settle located = x := DescriptorExclusions.settle_of_usable hq (by rwa [hex])
    cases ha : answering kind (x.demotedHere ++ x.remembered) (holderIds located) with
    | nil =>
      rw [play_nil (by rw [hx, hex, ha])]
      simpa using not_serves_of_stuck (mem_outside.mpr ⟨hq, hqx⟩) ha
    | cons p rest =>
      rw [play_cons (by rw [hx, hex, ha])]
      constructor
      · rintro (hp | ⟨-, n, hn, -⟩)
        · exact serves_cons_good ha hp
        · simp at hn
      · intro hs
        rcases kind_of_serves_cons ha hs with hp | hp
        · exact Or.inl hp
        · exact absurd hs (not_serves_one_demotable ha hp)
  | succ left ih =>
    by_cases hnone : ∀ p ∈ holderIds located, p ∈ x.demotedHere ++ x.remembered
    · rw [serves_of_none_outside hnone]
      exact play_of_none_usable (hex ▸ hnone)
    obtain ⟨q, hq, hqx⟩ : ∃ p ∈ holderIds located, p ∉ x.demotedHere ++ x.remembered := by
      simpa using hnone
    have hx : x.settle located = x := DescriptorExclusions.settle_of_usable hq (by rwa [hex])
    cases ha : answering kind (x.demotedHere ++ x.remembered) (holderIds located) with
    | nil =>
      rw [play_nil (by rw [hx, hex, ha])]
      simpa using not_serves_of_stuck (mem_outside.mpr ⟨hq, hqx⟩) ha
    | cons p rest =>
      have hdemote : (x.demote p).trustsMemory = true := h
      have hnext := ih hdemote (DescriptorExclusions.excluded_of_trusting hdemote)
      rw [play_cons (by rw [hx, hex, ha]), hx]
      constructor
      · rintro (hp | ⟨hp, n, hn, hplay⟩)
        · exact serves_cons_good ha hp
        · obtain rfl : left = n := by omega
          exact (serves_cons_demotable ha hp).mpr (hnext.mp hplay)
      · intro hs
        rcases kind_of_serves_cons ha hs with hp | hp
        · exact Or.inl hp
        · exact Or.inr ⟨hp, left, rfl, hnext.mpr ((serves_cons_demotable ha hp).mp hs)⟩

/-- The game that starts with a given memory. -/
theorem play_new (remembered : List String) :
    play kind located left (DescriptorExclusions.new remembered) = true ↔
      Serves kind (left + 1) (holderIds located) [] remembered := by
  cases remembered with
  | nil =>
    rw [serves_of_no_memory]
    exact play_of_forgetful rfl
  | cons v vs => exact play_of_trusting rfl

end Play

end DigDownload
