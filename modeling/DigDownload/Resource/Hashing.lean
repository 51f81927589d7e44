import DigDownload.Resource.Verify

/-!
# The running hash of a resource

Ranges are fed to the hash in the order in which they arrive. A range that arrives ahead is
kept until the hash has come up to it. Whatever the order, the hash has read a prefix of
the staging area that ends where a range begins, and once every range was fed it has read
all of them.
-/

namespace DigDownload

open Tiling Slices

namespace ResourceHasher

/-- The hasher has read nothing but `staged`: a prefix of it, and pieces of it. -/
structure Reads (h : ResourceHasher) (staged : Bytes) : Prop where
  frontier : h.nextOffset ≤ staged.length
  absorbed : h.absorbed = staged.take h.nextOffset
  pending : ∀ o b, h.pending.lookup o = some b → b = slice staged o b.length

/-- The hasher has been fed the spans that `fed` names, of those that `lens` cuts `staged`
into: it has read on to the beginning of a span, and holds what was fed beyond that. -/
structure Follows (h : ResourceHasher) (lens : List Nat) (fed : Nat → Prop) (staged : Bytes) :
    Prop where
  reads : h.Reads staged
  boundary : ∃ j ≤ lens.length, h.nextOffset = start lens j
  frontier : ∀ i < lens.length, ¬ fed i → h.nextOffset ≤ start lens i
  pending : ∀ o b, h.pending.lookup o = some b →
    ∃ i, ∃ hi : i < lens.length, fed i ∧ o = start lens i ∧ b.length = lens[i]
  held : ∀ (i : Nat) (hi : i < lens.length), fed i →
    start lens i + lens[i] ≤ h.nextOffset ∨ (h.pending.lookup (start lens i)).isSome

/-- Only the last span can be empty. -/
def OnlyLastEmpty (lens : List Nat) : Prop :=
  ∀ (j : Nat) (hj : j + 1 < lens.length), 0 < lens[j]

/-- Where a span begins, none before it does. -/
theorem OnlyLastEmpty.start_lt {lens : List Nat} (h : OnlyLastEmpty lens) {i j : Nat} (hij : i < j)
    (hj : j < lens.length) : start lens i < start lens j := by
  have hi : i < lens.length := Nat.lt_trans hij hj
  have hpos := h i (Nat.lt_of_le_of_lt hij hj)
  have hend := span_end_le hi hij
  omega

theorem OnlyLastEmpty.start_inj {lens : List Nat} (h : OnlyLastEmpty lens) {i j : Nat}
    (hi : i < lens.length) (hj : j < lens.length) (heq : start lens i = start lens j) : i = j := by
  rcases Nat.lt_trichotomy i j with hlt | rfl | hlt
  · exact absurd heq (Nat.ne_of_lt (h.start_lt hlt hj))
  · rfl
  · exact absurd heq.symm (Nat.ne_of_lt (h.start_lt hlt hi))

section Follows

variable {h : ResourceHasher} {lens : List Nat} {fed fed' : Nat → Prop} {staged bytes : Bytes}
  {i fuel : Nat}

theorem Reads.new (staged : Bytes) : ResourceHasher.new.Reads staged :=
  ⟨Nat.zero_le _, by simp [ResourceHasher.new], fun o b hb => by simp [ResourceHasher.new] at hb⟩

theorem Follows.new (lens : List Nat) (hfed : ∀ i, ¬ fed i) (staged : Bytes) :
    ResourceHasher.new.Follows lens fed staged :=
  ⟨.new staged, ⟨0, Nat.zero_le _, rfl⟩, fun i _ _ => Nat.zero_le _,
    fun o b hb => by simp [ResourceHasher.new] at hb, fun i _ hi => absurd hi (hfed i)⟩

theorem Follows.congr (hf : h.Follows lens fed staged)
    (hsame : ∀ i < lens.length, (fed' i ↔ fed i)) : h.Follows lens fed' staged := by
  refine ⟨hf.reads, hf.boundary, fun i hi hunfed => hf.frontier i hi ?_, fun o b hb => ?_,
    fun i hi hfed => hf.held i hi ((hsame i hi).mp hfed)⟩
  · exact fun hfed => hunfed ((hsame i hi).mpr hfed)
  · obtain ⟨i, hi, hfed, ho, hlen⟩ := hf.pending o b hb
    exact ⟨i, hi, (hsame i hi).mpr hfed, ho, hlen⟩

/-- Absorbing the piece at the frontier. -/
theorem Follows.absorb (hf : h.Follows lens fed staged) (hlast : OnlyLastEmpty lens)
    (hfits : lens.sum ≤ u64Max) {chunk : Bytes} (hlookup : h.pending.lookup h.nextOffset = some chunk) :
    Follows {
      absorbed := h.absorbed ++ chunk
      nextOffset := saturatingAdd h.nextOffset chunk.length
      pending := h.pending.erase h.nextOffset } lens fed staged := by
  obtain ⟨k, hk, hfed, hstart, hlen⟩ := hf.pending _ _ hlookup
  have hend : start lens (k + 1) = h.nextOffset + chunk.length := by
    rw [start_succ hk, ← hstart, hlen]
  have hsat : saturatingAdd h.nextOffset chunk.length = start lens (k + 1) := by
    have hle := start_le_sum lens (k + 1)
    unfold saturatingAdd
    omega
  have hchunk := hf.reads.pending _ _ hlookup
  have hpast : h.nextOffset ≤ start lens (k + 1) := by omega
  rw [hsat]
  refine ⟨⟨?_, ?_, fun o b hb => ?_⟩, ⟨k + 1, hk, rfl⟩, fun i hi hunfed => ?_, fun o b hb => ?_,
    fun i hi hfed' => ?_⟩
  · have hlength := congrArg List.length hchunk
    rw [length_slice] at hlength
    have hfrontier := hf.reads.frontier
    dsimp only
    omega
  · dsimp only
    rw [hend, take_add_slice, ← hchunk, hf.reads.absorbed]
  · have ho : o ≠ h.nextOffset := by
      rintro rfl
      rw [AList.lookup_erase] at hb
      cases hb
    rw [AList.lookup_erase_ne ho] at hb
    exact hf.reads.pending o b hb
  · -- a span that was not fed lies beyond the one that is absorbed
    dsimp only
    have hbefore := hf.frontier i hi hunfed
    rcases Nat.lt_trichotomy i k with hlt | rfl | hlt
    · have hlt' := hlast.start_lt hlt hk
      omega
    · exact absurd hfed hunfed
    · exact start_mono hlt
  · have ho : o ≠ h.nextOffset := by
      rintro rfl
      rw [AList.lookup_erase] at hb
      cases hb
    rw [AList.lookup_erase_ne ho] at hb
    exact hf.pending o b hb
  · dsimp only
    cases hf.held i hi hfed' with
    | inl hconsumed => exact Or.inl (Nat.le_trans hconsumed hpast)
    | inr hheld =>
      by_cases ho : start lens i = h.nextOffset
      · obtain rfl : i = k := hlast.start_inj hi hk (ho.trans hstart)
        exact Or.inl (Nat.le_of_eq (start_succ hi).symm)
      · rw [AList.lookup_erase_ne ho]
        exact Or.inr hheld

theorem Follows.drain (hf : h.Follows lens fed staged) (hlast : OnlyLastEmpty lens)
    (hfits : lens.sum ≤ u64Max) : (drain fuel h).Follows lens fed staged := by
  induction fuel generalizing h with
  | zero => exact hf
  | succ fuel ih =>
    rw [ResourceHasher.drain]
    cases hlookup : h.pending.lookup h.nextOffset with
    | none => exact hf
    | some chunk => exact ih (hf.absorb hlast hfits hlookup)

theorem length_entries (a : AList fun _ : Nat => Bytes) : a.entries.length = a.keys.length :=
  (List.length_map _).symm

/-- Draining stops where nothing is held. -/
theorem lookup_drain (hfuel : h.pending.entries.length ≤ fuel) :
    (ResourceHasher.drain fuel h).pending.lookup (ResourceHasher.drain fuel h).nextOffset = none := by
  induction fuel generalizing h with
  | zero =>
    rw [ResourceHasher.drain, AList.lookup_eq_none, AList.mem_keys]
    intro hmem
    have hpos := List.length_pos_of_mem hmem
    rw [← length_entries] at hpos
    omega
  | succ fuel ih =>
    rw [ResourceHasher.drain]
    cases hlookup : h.pending.lookup h.nextOffset with
    | none => exact hlookup
    | some chunk =>
      have hmem : h.nextOffset ∈ h.pending.keys := by
        rw [← AList.mem_keys, ← AList.lookup_isSome, hlookup]
        rfl
      refine ih ?_
      rw [length_entries] at hfuel ⊢
      rw [AList.keys_erase, List.length_erase_of_mem hmem]
      omega

/-- Holding a span. -/
theorem Follows.hold (hf : h.Follows lens fed staged) (hlast : OnlyLastEmpty lens)
    (hi : i < lens.length) (hlen : bytes.length = lens[i])
    (hbytes : bytes = slice staged (start lens i) bytes.length) :
    ({ h with pending := h.pending.insert (start lens i) bytes } : ResourceHasher).Follows lens
      (fun k => fed k ∨ k = i) staged := by
  refine ⟨⟨hf.reads.frontier, hf.reads.absorbed, fun o b hb => ?_⟩, hf.boundary,
    fun k hk hunfed' => hf.frontier k hk fun h => hunfed' (Or.inl h), fun o b hb => ?_,
    fun k hk hfed => ?_⟩
  · by_cases ho : o = start lens i
    · subst ho
      rw [AList.lookup_insert, Option.some.injEq] at hb
      exact hb ▸ hbytes
    · rw [AList.lookup_insert_ne ho] at hb
      exact hf.reads.pending o b hb
  · by_cases ho : o = start lens i
    · subst ho
      rw [AList.lookup_insert, Option.some.injEq] at hb
      exact ⟨i, hi, Or.inr rfl, rfl, hb ▸ hlen⟩
    · rw [AList.lookup_insert_ne ho] at hb
      obtain ⟨k, hk, hfed, hstart, hlen'⟩ := hf.pending o b hb
      exact ⟨k, hk, Or.inl hfed, hstart, hlen'⟩
  · by_cases hk' : k = i
    · subst hk'
      right
      rw [AList.lookup_insert]
      rfl
    · cases hf.held k hk (hfed.resolve_right hk') with
      | inl hconsumed => exact Or.inl hconsumed
      | inr hheld =>
        have hne : start lens k ≠ start lens i := fun heq => hk' (hlast.start_inj hk hi heq)
        rw [AList.lookup_insert_ne hne]
        exact Or.inr hheld

/-- A span that lies at or beyond the frontier is held, and what has become contiguous is
absorbed. -/
theorem Follows.insert (hf : h.Follows lens fed staged) (hlast : OnlyLastEmpty lens)
    (hfits : lens.sum ≤ u64Max) (hi : i < lens.length) (hahead : h.nextOffset ≤ start lens i)
    (hlen : bytes.length = lens[i]) (hbytes : bytes = slice staged (start lens i) bytes.length) :
    (h.feed (start lens i) bytes).Follows lens (fun k => fed k ∨ k = i) staged ∧
      (h.feed (start lens i) bytes).pending.lookup (h.feed (start lens i) bytes).nextOffset
        = none := by
  rw [ResourceHasher.feed, if_neg (Nat.not_lt.mpr hahead)]
  exact ⟨(hf.hold hlast hi hlen hbytes).drain hlast hfits, lookup_drain (Nat.le_refl _)⟩

/-- Feeding a span that was not fed. -/
theorem Follows.feed (hf : h.Follows lens fed staged) (hlast : OnlyLastEmpty lens)
    (hfits : lens.sum ≤ u64Max) (hi : i < lens.length) (hunfed : ¬ fed i)
    (hlen : bytes.length = lens[i]) (hbytes : bytes = slice staged (start lens i) bytes.length) :
    (h.feed (start lens i) bytes).Follows lens (fun k => fed k ∨ k = i) staged ∧
      (h.feed (start lens i) bytes).pending.lookup (h.feed (start lens i) bytes).nextOffset
        = none :=
  hf.insert hlast hfits hi (hf.frontier i hi hunfed) hlen hbytes

/-- Feeding a span, whether or not it was fed before: behind the frontier it is ignored. -/
theorem Follows.refeed (hf : h.Follows lens fed staged) (hlast : OnlyLastEmpty lens)
    (hfits : lens.sum ≤ u64Max) (hdrained : h.pending.lookup h.nextOffset = none)
    (hi : i < lens.length) (hlen : bytes.length = lens[i])
    (hbytes : bytes = slice staged (start lens i) bytes.length) :
    (h.feed (start lens i) bytes).Follows lens (fun k => fed k ∨ k = i) staged ∧
      (h.feed (start lens i) bytes).pending.lookup (h.feed (start lens i) bytes).nextOffset
        = none := by
  by_cases hbehind : start lens i < h.nextOffset
  · have hfed : fed i := not_not.mp fun hunfed => Nat.not_le.mpr hbehind (hf.frontier i hi hunfed)
    rw [ResourceHasher.feed, if_pos hbehind]
    refine ⟨hf.congr fun k _ => ?_, hdrained⟩
    constructor
    · intro h
      cases h with
      | inl h => exact h
      | inr h => exact h ▸ hfed
    · exact Or.inl
  · exact hf.insert hlast hfits hi (Nat.le_of_not_lt hbehind) hlen hbytes

/-- Writing a span that was not fed leaves alone what was read, and what is held. -/
theorem Follows.write (hf : h.Follows lens fed staged) (hi : i < lens.length) (hunfed : ¬ fed i)
    (hlen : bytes.length = lens[i]) :
    h.Follows lens fed (overwrite 0 staged (start lens i) bytes) := by
  have hfrontier := hf.frontier i hi hunfed
  refine ⟨⟨?_, ?_, fun o b hb => ?_⟩, hf.boundary, hf.frontier, hf.pending, hf.held⟩
  · exact Nat.le_trans hf.reads.frontier (le_length_overwrite ..)
  · rw [take_overwrite 0 bytes hfrontier hf.reads.frontier]
    exact hf.reads.absorbed
  · obtain ⟨k, hk, hfed, rfl, hlen'⟩ := hf.pending o b hb
    have hpiece := hf.reads.pending _ _ hb
    by_cases hempty : b = []
    · rw [hempty]
      rfl
    have hpos : 0 < b.length := List.length_pos_iff.mpr hempty
    have hend : start lens k + b.length ≤ staged.length := by
      have hlength := congrArg List.length hpiece
      rw [length_slice] at hlength
      omega
    have hne : k ≠ i := by
      rintro rfl
      exact hunfed hfed
    rw [slice_overwrite_disjoint 0 bytes ?_ hend]
    · exact hpiece
    · have hdisjoint := spans_disjoint hk hi hne
      rwa [← hlen, ← hlen'] at hdisjoint

/-- A hasher that was fed every span, and holds nothing at its frontier, has read them all. -/
theorem Follows.complete (hf : h.Follows lens fed staged) (hlast : OnlyLastEmpty lens)
    (hall : ∀ i < lens.length, fed i) (hdrained : h.pending.lookup h.nextOffset = none) :
    h.nextOffset = lens.sum := by
  obtain ⟨j, hj, hstart⟩ := hf.boundary
  rcases Nat.lt_or_eq_of_le hj with hlt | rfl
  · cases hf.held j hlt (hall j hlt) with
    | inl hconsumed =>
      -- only the last span can be empty
      have hend : j + 1 = lens.length := by
        by_contra hne
        have hpos := hlast j (by omega)
        omega
      have hsum := start_succ hlt
      rw [hend, start_length] at hsum
      omega
    | inr hheld =>
      rw [← hstart, hdrained] at hheld
      cases hheld
  · rw [hstart, start_length]

/-- Nothing is held behind the frontier. -/
def NothingBehind (h : ResourceHasher) : Prop :=
  ∀ o b, h.pending.lookup o = some b → h.nextOffset ≤ o

theorem NothingBehind.new : ResourceHasher.new.NothingBehind :=
  fun o b hb => by simp [ResourceHasher.new] at hb

theorem NothingBehind.drain (ha : h.NothingBehind) (hf : h.Follows lens fed staged)
    (hlast : OnlyLastEmpty lens) (hfits : lens.sum ≤ u64Max) :
    (ResourceHasher.drain fuel h).NothingBehind := by
  induction fuel generalizing h with
  | zero => exact ha
  | succ fuel ih =>
    rw [ResourceHasher.drain]
    cases hlookup : h.pending.lookup h.nextOffset with
    | none => exact ha
    | some chunk =>
      refine ih ?_ (hf.absorb hlast hfits hlookup)
      obtain ⟨k, hk, -, hstart, hlen⟩ := hf.pending _ _ hlookup
      have hend : start lens (k + 1) = h.nextOffset + chunk.length := by
        rw [start_succ hk, ← hstart, hlen]
      intro o b hb
      have ho : o ≠ h.nextOffset := by
        rintro rfl
        rw [AList.lookup_erase] at hb
        cases hb
      rw [AList.lookup_erase_ne ho] at hb
      have hahead := ha o b hb
      obtain ⟨i, hi, -, rfl, -⟩ := hf.pending o b hb
      have hki : k < i := by
        by_contra hik
        have hmono : start lens i ≤ start lens k := start_mono (Nat.le_of_not_lt hik)
        omega
      have hpast : start lens (k + 1) ≤ start lens i := start_mono hki
      exact Nat.le_trans (Nat.min_le_left _ _) (hend ▸ hpast)

theorem NothingBehind.feed (ha : h.NothingBehind) (hf : h.Follows lens fed staged)
    (hlast : OnlyLastEmpty lens) (hfits : lens.sum ≤ u64Max) (hi : i < lens.length)
    (hlen : bytes.length = lens[i]) (hbytes : bytes = slice staged (start lens i) bytes.length) :
    (h.feed (start lens i) bytes).NothingBehind := by
  rw [ResourceHasher.feed]
  split
  · exact ha
  · rename_i hahead
    refine NothingBehind.drain ?_ (hf.hold hlast hi hlen hbytes) hlast hfits
    intro o b hb
    by_cases ho : o = start lens i
    · rw [ho]
      exact Nat.le_of_not_lt hahead
    · rw [AList.lookup_insert_ne ho] at hb
      exact ha o b hb

/-- A hasher that has read every span holds nothing. -/
theorem Follows.pending_eq_empty (hf : h.Follows lens fed staged) (ha : h.NothingBehind)
    (hdrained : h.pending.lookup h.nextOffset = none) (hread : h.nextOffset = lens.sum) :
    h.pending = ∅ := by
  have hnone : ∀ o, h.pending.lookup o = none := by
    intro o
    cases hlookup : h.pending.lookup o with
    | none => rfl
    | some b =>
      have hahead := ha o b hlookup
      obtain ⟨i, hi, -, rfl, -⟩ := hf.pending o b hlookup
      have hle := start_le_sum lens i
      have hfrontier : start lens i = h.nextOffset := by omega
      rw [hfrontier, hdrained] at hlookup
      cases hlookup
  have hkeys : h.pending.keys = [] := by
    rw [List.eq_nil_iff_forall_not_mem]
    intro o ho
    exact AList.lookup_eq_none.mp (hnone o) (AList.mem_keys.mpr ho)
  exact AList.ext (List.map_eq_nil_iff.mp hkeys)

end Follows

end ResourceHasher

/-! ## The spans of a plan -/

theorem planRanges_onlyLastEmpty (l : ChunkLayout) (window : Nat) :
    ResourceHasher.OnlyLastEmpty (rangeLens (planRanges l window)) := by
  intro j hj
  have hj' : j + 1 < (planRanges l window).length := by simpa [rangeLens] using hj
  simpa [rangeLens] using (planRanges_consecutive l window).length_pos j (Nat.lt_of_succ_lt hj') hj'

/-- Where the range of an index lies among the spans of a plan. -/
theorem planRanges_span {l : ChunkLayout} {window i : Nat} {range : Range}
    (h : (planRanges l window)[i]? = some range) :
    ∃ hi : i < (rangeLens (planRanges l window)).length,
      range.offset = start (rangeLens (planRanges l window)) i ∧
        range.length = (rangeLens (planRanges l window))[i] ∧ range.index = i := by
  obtain ⟨hi, rfl⟩ := List.getElem?_eq_some_iff.mp h
  exact ⟨by simpa [rangeLens] using hi, planRanges_offset hi, by simp [rangeLens], planRanges_index hi⟩

end DigDownload
