import Mathlib.Data.Int.CardIntervalMod
import DigDownload.Resource.Filling

/-!
# The default selector

`NullSelector` orders all the candidates it is asked about, and begins with another one in every
pass of whatever download asks. It meets what is asked of a selector, so that every pass of every
run under it asks live sources only and hands out all it can. A download that has the selector to
itself gives each candidate its turn at every place; one that shares it with others may not.
-/

namespace DigDownload

open Slices

/-! ## The selector -/

/-- How many passes the selector has ordered, as far as its cursor holds. -/
structure NullSelector where
  cursor : Nat
  deriving DecidableEq, Repr

/-- The cursor is a machine word, and wraps. -/
def cursorValues : Nat := 2 ^ 64

namespace NullSelector

/-- The plan for a request, and the selector after it. -/
def select (s : NullSelector) (req : SelectRequest) : SelectPlan × NullSelector :=
  if req.candidates.length = 0 then ({ ordered := [], assignments := [] }, s)
  else (nullSelect s.cursor req, { cursor := (s.cursor + 1) % cursorValues })

/-- The plans for the requests of all the downloads that share the selector, as they come. -/
def selects : NullSelector → List SelectRequest → List SelectPlan
  | _, [] => []
  | s, req :: reqs => (s.select req).1 :: (s.select req).2.selects reqs

variable {s : NullSelector} {req : SelectRequest} {reqs : List SelectRequest} {n p : Nat}

theorem select_fst (s : NullSelector) (req : SelectRequest) :
    (s.select req).1 = nullSelect s.cursor req := by
  rw [select]
  split
  · rename_i hempty
    rw [nullSelect, List.length_eq_zero_iff.mp hempty, List.map_nil, List.rotate_nil]
  · rfl

/-- While the cursor does not wrap, it counts the plans. -/
theorem getElem?_selects (hne : ∀ req ∈ reqs, req.candidates ≠ []) :
    ∀ {s : NullSelector} {p : Nat}, s.cursor + reqs.length ≤ cursorValues →
      (s.selects reqs)[p]? = (reqs[p]?).map (nullSelect (s.cursor + p)) := by
  induction reqs with
  | nil => exact fun _ => rfl
  | cons req reqs ih =>
    intro s p hwrap
    rw [List.length_cons] at hwrap
    cases p with
    | zero => simp [selects, select_fst]
    | succ p =>
      have hnext : (s.select req).2 = { cursor := (s.cursor + 1) % cursorValues } := by
        rw [select, if_neg fun hempty =>
          hne req List.mem_cons_self (List.length_eq_zero_iff.mp hempty)]
      rw [selects, hnext, List.getElem?_cons_succ, List.getElem?_cons_succ]
      cases reqs with
      | nil => rfl
      | cons next reqs =>
        rw [List.length_cons] at hwrap
        have hcursor : (s.cursor + 1) % cursorValues = s.cursor + 1 :=
          Nat.mod_eq_of_lt (by omega)
        rw [hcursor, ih fun req hreq => hne req (List.mem_cons_of_mem _ hreq)]
        · rw [Nat.add_assoc, Nat.add_comm 1 p]
        · show s.cursor + 1 + (next :: reqs).length ≤ cursorValues
          rw [List.length_cons]
          omega

/-! ## In a run -/

end NullSelector

/-- The selector of the world is the default one, whatever other downloads ask it in between. -/
def RoundRobin (seams : ResourceSeams) : Prop :=
  ∀ t req, ∃ s : NullSelector, seams.select t req = (s.select req).1

section Run

variable {seams : ResourceSeams}

theorem RoundRobin.chooses (h : RoundRobin seams) : ChoosesCandidates seams where
  ordered t req peer hpeer := by
    obtain ⟨s, hs⟩ := h t req
    rw [hs, NullSelector.select_fst, nullSelect, List.mem_rotate] at hpeer
    exact List.mem_map.mp hpeer
  pinned t req pin hpin := by
    obtain ⟨s, hs⟩ := h t req
    rw [hs, NullSelector.select_fst] at hpin
    cases hpin

theorem RoundRobin.pinsOrdered (h : RoundRobin seams) (key : String) (w : JobWorld) :
    w.own.PinsOrdered seams.config (passPlan seams key w) := by
  intro range peer _ _ hpin
  obtain ⟨s, hs⟩ := h (w.tick + 1) (w.own.selectRequest key (seams.now w.tick))
  rw [SelectPlan.pin, passPlan, hs, NullSelector.select_fst] at hpin
  cases hpin

/-- Under the default selector every pass, from whatever state, asks live sources only, each only
while it is below its cap, and hands out all it can. -/
theorem round_robin_passes (seams : ResourceSeams) (key : String) (h : RoundRobin seams)
    (w w' : JobWorld) (hrun : fill seams key w = (.ok (), w')) :
    IssuesLive (passPlan seams key w) (seams.now w.tick) w.own w'.own ∧
      IssuesWithRoom seams.config w.own w'.own ∧
      w'.own.WorkConserved seams.config (passPlan seams key w) := by
  have hfilled := (Prog.wp_of_run_ok hrun).mp (wp_fill_filled seams key w)
  exact ⟨hfilled.issuesLive (h.chooses.keepsToLive _ w), hfilled.issuesWithRoom,
    hfilled.workConserved (h.pinsOrdered _ w)⟩

theorem round_robin_passes_small :
    IssuesLive (passPlan slowLocatorSeams (downloadKey slowLocatorSeams smallTarget) slowPass)
        (slowLocatorSeams.now slowPass.tick) slowPass.own
        (fill slowLocatorSeams (downloadKey slowLocatorSeams smallTarget) slowPass).2.own ∧
      IssuesWithRoom slowLocatorSeams.config slowPass.own
        (fill slowLocatorSeams (downloadKey slowLocatorSeams smallTarget) slowPass).2.own ∧
      (fill slowLocatorSeams (downloadKey slowLocatorSeams smallTarget) slowPass).2.own.WorkConserved
        slowLocatorSeams.config
        (passPlan slowLocatorSeams (downloadKey slowLocatorSeams smallTarget) slowPass) :=
  round_robin_passes slowLocatorSeams _ (fun t req => ⟨⟨t⟩, (NullSelector.select_fst ⟨t⟩ req).symm⟩)
    _ _ fill_slowPass

end Run

/-! ## Whose turn it is -/

namespace NullSelector

variable {s : NullSelector} {req : SelectRequest} {reqs : List SelectRequest}

/-- The candidates of a request, by their ids. -/
def peers (cands : List CandidateRef) : List String := cands.map (·.peerId)

/-- The plan at a position of the cursor has a candidate at a place when the two add up to where
the candidate stands, around the end of the list. -/
theorem ordered_eq_iff {cands : List CandidateRef} (hnodup : (peers cands).Nodup)
    (hreq : req.candidates = cands) (cursor : Nat) {place k : Nat} (hplace : place < cands.length)
    (hk : k < cands.length) :
    (nullSelect cursor req).ordered[place]? = some cands[k].peerId ↔
      (place + cursor) % cands.length = k := by
  have hlength : (peers cands).length = cands.length := List.length_map _
  have hk' : k < (peers cands).length := hlength.symm ▸ hk
  have hpeer : cands[k].peerId = (peers cands)[k] := (List.getElem_map _).symm
  have hmod : (place + cursor) % cands.length < (peers cands).length :=
    hlength.symm ▸ Nat.mod_lt _ (Nat.zero_lt_of_lt hk)
  rw [nullSelect, hreq]
  show ((peers cands).rotate cursor)[place]? = _ ↔ _
  rw [List.getElem?_rotate (hlength.symm ▸ hplace), hlength, List.getElem?_eq_getElem hmod, hpeer,
    Option.some_inj, hnodup.getElem_inj_iff]

/-! ### One download -/

/-- Around the end of the list, a place is reached by the passes of one residue. -/
theorem add_mod_eq_iff {n place c j k : Nat} (hk : k < n) :
    (place + (c + j)) % n = k ↔ j ≡ k + (n - (place + c) % n) [MOD n] := by
  have hr : (place + c) % n < n := Nat.mod_lt _ (Nat.zero_lt_of_lt hk)
  have hback : k + (n - (place + c) % n) + (place + c) % n = k + n := by omega
  rw [← Nat.add_assoc, ← Nat.mod_add_mod]
  constructor
  · intro h
    refine Nat.ModEq.add_right_cancel' ((place + c) % n) ?_
    rw [hback, Nat.ModEq, Nat.add_comm j, h, Nat.add_mod_right, Nat.mod_eq_of_lt hk]
  · intro h
    have := h.add_right ((place + c) % n)
    rw [hback, Nat.ModEq, Nat.add_mod_right, Nat.mod_eq_of_lt hk, Nat.add_comm j] at this
    exact this

theorem count_place {n place c k m : Nat} (hk : k < n) :
    m / n ≤ Nat.count (fun j => (place + (c + j)) % n = k) m ∧
      Nat.count (fun j => (place + (c + j)) % n = k) m ≤ m / n + 1 := by
  have hcount : Nat.count (fun j => (place + (c + j)) % n = k) m
      = Nat.count (· ≡ k + (n - (place + c) % n) [MOD n]) m := by
    rw [Nat.count_eq_card_filter_range, Nat.count_eq_card_filter_range]
    exact congrArg _ (Finset.filter_congr fun j _ => add_mod_eq_iff hk)
  rw [hcount, Nat.count_modEq_card _ (Nat.zero_lt_of_lt hk)]
  split
  · exact ⟨Nat.le_add_right _ _, Nat.le_refl _⟩
  · exact ⟨Nat.le_refl _, Nat.le_add_right _ _⟩

/-- The plans that a download gets which has the selector to itself. -/
theorem selects_eq_map (hne : ∀ req ∈ reqs, req.candidates ≠ [])
    (hwrap : s.cursor + reqs.length ≤ cursorValues) {cands : List CandidateRef}
    (hreqs : ∀ req ∈ reqs, req.candidates = cands) (contentKey : String) (needed inflight : Nat) :
    (s.selects reqs) = (List.range reqs.length).map fun j =>
      nullSelect (s.cursor + j) ⟨contentKey, cands, needed, inflight⟩ := by
  refine List.ext_getElem? fun j => ?_
  rw [getElem?_selects hne hwrap, List.getElem?_map]
  cases hreq : reqs[j]? with
  | none =>
    rw [List.getElem?_eq_none (by simpa using hreq)]
    rfl
  | some req =>
    have hj := (List.getElem?_eq_some_iff.mp hreq).1
    rw [List.getElem?_range hj, Option.map_some, Option.map_some, nullSelect, nullSelect,
      hreqs req (List.mem_of_getElem? hreq)]

/-- A download that has the selector to itself gives every candidate every place equally often,
but for one pass. -/
theorem null_selector_fair (s : NullSelector) (reqs : List SelectRequest)
    (cands : List CandidateRef) (hnodup : (peers cands).Nodup)
    (hreqs : ∀ req ∈ reqs, req.candidates = cands) (hwrap : s.cursor + reqs.length ≤ cursorValues)
    (place k : Nat) (hplace : place < cands.length) (hk : k < cands.length) :
    reqs.length / cands.length
        ≤ (s.selects reqs).countP (fun plan => plan.ordered[place]? = some cands[k].peerId) ∧
      (s.selects reqs).countP (fun plan => plan.ordered[place]? = some cands[k].peerId)
        ≤ reqs.length / cands.length + 1 := by
  have hne : ∀ req ∈ reqs, req.candidates ≠ [] := by
    intro req hreq hempty
    rw [hreqs req hreq] at hempty
    rw [hempty] at hk
    exact absurd hk (Nat.not_lt_zero _)
  have hcount : (s.selects reqs).countP (fun plan => plan.ordered[place]? = some cands[k].peerId)
      = Nat.count (fun j => (place + (s.cursor + j)) % cands.length = k) reqs.length := by
    rw [selects_eq_map hne hwrap hreqs "" 0 0, List.countP_map, Nat.count]
    refine List.countP_congr fun j _ => ?_
    simp only [Function.comp_apply, decide_eq_true_eq]
    exact ordered_eq_iff hnodup rfl _ hplace hk
  rw [hcount]
  exact count_place hk

/-- A pass over two holders. -/
def twoHolders : SelectRequest where
  contentKey := "small"
  candidates := [⟨holderA, [], none⟩, ⟨holderB, [], none⟩]
  rangesNeeded := 1
  inflight := 0

theorem null_selector_fair_twoHolders :
    3 / 2 ≤ (selects ⟨0⟩ [twoHolders, twoHolders, twoHolders]).countP
        (fun plan => plan.ordered[0]? = some holderB) ∧
      (selects ⟨0⟩ [twoHolders, twoHolders, twoHolders]).countP
        (fun plan => plan.ordered[0]? = some holderB) ≤ 3 / 2 + 1 :=
  null_selector_fair ⟨0⟩ [twoHolders, twoHolders, twoHolders] twoHolders.candidates (by decide)
    (by simp) (by decide) 0 1 (by decide) (by decide)

/-! ### Downloads that take turns -/

/-- A step around a circle comes to the places that are a multiple of the common divisor away. -/
theorem exists_turn_iff {n d c k passes : Nat} (hn : 0 < n) (hpasses : n ≤ passes) :
    (∃ j < passes, c + d * j ≡ k [MOD n]) ↔ k ≡ c [MOD Nat.gcd d n] := by
  constructor
  · rintro ⟨j, -, hj⟩
    have hmod : c + d * j ≡ k [MOD Nat.gcd d n] := hj.of_dvd (Nat.gcd_dvd_right d n)
    have hturn : d * j ≡ 0 [MOD Nat.gcd d n] :=
      (Nat.modEq_zero_iff_dvd).mpr (Dvd.dvd.mul_right (Nat.gcd_dvd_left d n) j)
    exact (hmod.symm.trans (hturn.add_left c))
  · intro h
    obtain ⟨q, hq⟩ := Nat.modEq_iff_dvd.mp h.symm
    have hbezout := Nat.gcd_eq_gcd_ab d n
    have hn' : (n : Int) ≠ 0 := Int.natCast_ne_zero.mpr (Nat.ne_of_gt hn)
    have hj : (((Nat.gcdA d n * q % n).toNat : Nat) : Int) = Nat.gcdA d n * q % n :=
      Int.toNat_of_nonneg (Int.emod_nonneg _ hn')
    refine ⟨(Nat.gcdA d n * q % n).toNat, ?_, Nat.modEq_iff_dvd.mpr ?_⟩
    · have hlt := Int.emod_lt_of_pos (Nat.gcdA d n * q) (Int.natCast_pos.mpr hn)
      omega
    · refine ⟨Nat.gcdB d n * q + d * (Nat.gcdA d n * q / n), ?_⟩
      rw [Nat.cast_add, Nat.cast_mul, hj, Int.emod_def, ← sub_sub, hq, hbezout]
      ring

/-- Where downloads take turns on one selector, each with candidates of its own and the cursor not
wrapping, one of `n` candidates whose passes are `d` plans apart puts first those candidates that
stand a multiple of the common divisor of `d` and `n` from where it began, and no others, however
many passes it makes. -/
theorem null_selector_turns (s : NullSelector) (reqs : List SelectRequest)
    (cands : List CandidateRef) (i d k passes : Nat) (hne : ∀ req ∈ reqs, req.candidates ≠ [])
    (hwrap : s.cursor + reqs.length ≤ cursorValues) (hnodup : (peers cands).Nodup)
    (hturns : ∀ j < passes, ∃ req, reqs[i + d * j]? = some req ∧ req.candidates = cands)
    (hpasses : cands.length ≤ passes) (hk : k < cands.length) :
    (∃ j < passes, ∃ plan, (s.selects reqs)[i + d * j]? = some plan ∧
      plan.ordered[0]? = some cands[k].peerId) ↔
      k ≡ s.cursor + i [MOD Nat.gcd d cands.length] := by
  have hn : 0 < cands.length := Nat.zero_lt_of_lt hk
  rw [← exists_turn_iff hn hpasses]
  refine exists_congr fun j => and_congr_right fun hj => ?_
  obtain ⟨req, hreq, hcands⟩ := hturns j hj
  rw [getElem?_selects hne hwrap, hreq, Option.map_some]
  have hplan := ordered_eq_iff hnodup hcands (s.cursor + (i + d * j)) hn hk
  rw [Nat.zero_add, ← Nat.add_assoc] at hplan
  have hmod : (s.cursor + i + d * j) % cands.length = k ↔
      s.cursor + i + d * j ≡ k [MOD cands.length] := by
    rw [Nat.ModEq, Nat.mod_eq_of_lt hk]
  rw [← hmod, ← hplan]
  simp [Nat.add_assoc]

/-- Of two downloads that take turns, each with two holders, the first never begins with the
second of its own. -/
theorem null_selector_turns_twoHolders :
    (∃ j < 2, ∃ plan, (selects ⟨0⟩ [twoHolders, twoHolders, twoHolders])[0 + 2 * j]? = some plan ∧
      plan.ordered[0]? = some holderB) ↔ 1 ≡ 0 + 0 [MOD Nat.gcd 2 2] := by
  have hturns : ∀ j < 2, ∃ req, [twoHolders, twoHolders, twoHolders][0 + 2 * j]? = some req ∧
      req.candidates = twoHolders.candidates := by
    intro j hj
    cases j with
    | zero => exact ⟨twoHolders, rfl, rfl⟩
    | succ j =>
      obtain rfl : j = 0 := by omega
      exact ⟨twoHolders, rfl, rfl⟩
  exact null_selector_turns ⟨0⟩ [twoHolders, twoHolders, twoHolders] twoHolders.candidates 0 2 1 2
    (by simp [twoHolders]) (by decide) (by decide) hturns (by decide) (by decide)

end NullSelector

end DigDownload
