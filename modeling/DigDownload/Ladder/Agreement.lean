import DigDownload.Ladder.Resolver

/-!
# Everybody reads from one node

Whatever the order in which the callers of a resolver come, wait, probe and are dropped, all of
them get one node: the one that the ladder of a single caller leads to. One caller probes at a
time, nobody probes once the node is known, and somebody else takes over from a prober that was
dropped.
-/

namespace DigDownload

open Runs

/-! ## Probes and their answers -/
/-- What the action tells the `i`-th caller about the rung that it probes. -/
def ResolverAct.answer? (i : Nat) : ResolverAct → Option Bool
  | .answer j up => if j = i then some up else none
  | _ => none

/-- What the probes of the `i`-th caller said. -/
def probeAnswers (i : Nat) (acts : List ResolverAct) : List Bool :=
  acts.filterMap (ResolverAct.answer? i)

theorem probeAnswers_concat (i : Nat) (past : List ResolverAct) (act : ResolverAct) :
    probeAnswers i (past ++ [act]) = probeAnswers i past ++ (act.answer? i).toList := by
  rw [probeAnswers, List.filterMap_append, probeAnswers]
  cases h : act.answer? i <;> simp [h]

/-- A rung that did not answer is passed. -/
theorem climb_failed {probe : Nat → Bool} (failed rest : List LocalRung) :
    ∀ n, (∀ k < failed.length, probe (n + k) = false) →
      climb probe n (failed ++ rest) = climb probe (n + failed.length) rest := by
  induction failed with
  | nil => exact fun n _ => rfl
  | cons rung failed ih =>
    intro n h
    have hhead : probe n = false := h 0 (Nat.succ_pos _)
    have htail : ∀ k < failed.length, probe (n + 1 + k) = false := by
      intro k hk
      rw [Nat.add_assoc, Nat.add_comm 1 k]
      exact h (k + 1) (Nat.succ_lt_succ hk)
    rw [List.cons_append, climb, hhead, if_neg Bool.false_ne_true, ih (n + 1) htail,
      List.length_cons, Nat.add_assoc, Nat.add_comm 1]

/-- What the probes said, read by their number. -/
def probeOf (said : List Bool) (n : Nat) : Bool := said.getD n false

theorem climb_of_answers {failed rest : List LocalRung} {said : List Bool}
    (hsaid : said = List.replicate failed.length false) (last : Bool) :
    climb (probeOf (said ++ [last])) 0 (failed ++ rest)
      = climb (probeOf (said ++ [last])) failed.length rest ∧
      probeOf (said ++ [last]) failed.length = last := by
  subst hsaid
  constructor
  · rw [climb_failed failed rest 0, Nat.zero_add]
    intro k hk
    rw [Nat.zero_add, probeOf, List.getD_eq_getElem?_getD,
      List.getElem?_append_left (by simpa using hk), List.getElem?_replicate, if_pos hk]
    rfl
  · simp [probeOf, List.getD_eq_getElem?_getD]

/-! ## What every step keeps -/

/-- What the probes of a caller said, and which went out, fit the point where it stands. -/
def ResolverCall.Fits (call : ResolverCall) (said : List Bool) (probes : List String) : Prop :=
  match call.point with
  | .waiting => said = [] ∧ probes = []
  | .probing rung rest => call.overrides.resolve = none ∧ ∃ failed,
      call.localRungs = failed ++ rung :: rest ∧ said = List.replicate failed.length false ∧
        probes = (failed ++ [rung]).map LocalRung.url
  | .returned _ | .dropped => probes <+: call.localRungs.map LocalRung.url

/-- A caller has probed rungs of its own, in their order. -/
theorem ResolverCall.Fits.probes {call : ResolverCall} {said : List Bool} {probes : List String}
    (h : call.Fits said probes) : probes <+: call.localRungs.map LocalRung.url := by
  rw [Fits] at h
  split at h
  · rw [h.2]
    exact List.nil_prefix
  · rename_i rung rest hpoint
    obtain ⟨-, failed, hrungs, -, rfl⟩ := h
    exact ⟨rest.map LocalRung.url, by simp [hrungs]⟩
  · exact h
  · exact h

namespace CachedResolver

variable {t t' : CachedResolver} {i j : Nat} {call call' : ResolverCall} {act : ResolverAct}
  {acts past : List ResolverAct} {point : ResolverPoint} {node : ResolvedNode}
  {rung : LocalRung} {rest : List LocalRung}

/-- The urls that were probed for a caller. -/
def probedBy (t : CachedResolver) (i : Nat) : List String :=
  t.probed.filterMap fun probe => if probe.1 = i then some probe.2 else none

def IsProbing (t : CachedResolver) (i : Nat) : Prop :=
  ∃ call rung rest, t.calls[i]? = some call ∧ call.point = .probing rung rest

def IsDropped (t : CachedResolver) (i : Nat) : Prop :=
  ∃ call, t.calls[i]? = some call ∧ call.point = .dropped

/-- The ladder of some caller has led to the node. -/
def ResolvedBy (past : List ResolverAct) (t : CachedResolver) (node : ResolvedNode) : Prop :=
  ∃ i call, t.calls[i]? = some call ∧ call.point = .returned node ∧
    node = resolveNode call.overrides call.localRungs (probeOf (probeAnswers i past))

/-- The callers, the cell and the probes after some actions. -/
structure Resolving (past : List ResolverAct) (t : CachedResolver) : Prop where
  fits : ∀ (i : Nat) (call : ResolverCall), t.calls[i]? = some call →
    call.Fits (probeAnswers i past) (t.probedBy i)
  absent : ∀ i, t.calls.length ≤ i → probeAnswers i past = [] ∧ t.probedBy i = []
  prober : ∀ i, t.initializer = some i ↔ t.IsProbing i
  cached : ∀ node, t.cached = some node → t.initializer = none ∧ t.ResolvedBy past node
  returned : ∀ (i : Nat) (call : ResolverCall) (node : ResolvedNode), t.calls[i]? = some call →
    call.point = .returned node → t.cached = some node
  relayed : t.probed.Pairwise fun first later => first.1 = later.1 ∨ t.IsDropped first.1

theorem resolving_new : new.Resolving [] where
  fits i call h := by cases h
  absent i h := ⟨rfl, rfl⟩
  prober i := by
    constructor
    · intro h
      cases h
    · rintro ⟨call, rung, rest, h, -⟩
      cases h
  cached node h := by cases h
  returned i call node h := by cases h
  relayed := List.Pairwise.nil

theorem calls_goto (hcall : t.calls[i]? = some call) :
    (t.goto i point).calls[j]? = if i = j then some { call with point } else t.calls[j]? :=
  getElem?_modify_of_eq _ hcall

theorem isProbing_goto (hcall : t.calls[i]? = some call) :
    (t.goto i point).IsProbing j ↔
      if i = j then ∃ rung rest, point = .probing rung rest else t.IsProbing j := by
  rw [IsProbing, calls_goto hcall]
  split
  · constructor
    · rintro ⟨_, rung, rest, hpoint, hprobing⟩
      cases hpoint
      exact ⟨rung, rest, hprobing⟩
    · rintro ⟨rung, rest, hprobing⟩
      exact ⟨_, rung, rest, rfl, hprobing⟩
  · exact Iff.rfl

/-- A caller that was dropped stays dropped. -/
theorem IsDropped.goto (h : t.IsDropped j) (hcall : t.calls[i]? = some call)
    (hgoing : call.point ≠ .dropped) : (t.goto i point).IsDropped j := by
  obtain ⟨call', hcall', hpoint⟩ := h
  refine ⟨call', ?_, hpoint⟩
  rw [calls_goto hcall, if_neg, hcall']
  rintro rfl
  rw [hcall] at hcall'
  cases hcall'
  exact hgoing hpoint

/-- An action of one caller says nothing of the probes of another. -/
theorem probeAnswers_of_ne (hact : act.caller? = some i) (hij : i ≠ j) :
    probeAnswers j (past ++ [act]) = probeAnswers j past := by
  rw [probeAnswers_concat]
  cases act with
  | answer k up =>
    cases hact
    rw [ResolverAct.answer?, if_neg hij, Option.toList_none, List.append_nil]
  | _ => exact List.append_nil _

/-- The callers that do not move fit what they did before, and the one that does the rest. -/
theorem Resolving.fits_goto (h : t.Resolving past) (t' : CachedResolver)
    (hcall : t.calls[i]? = some call)
    (hact : act.caller? = some i) (hcalls : t'.calls = (t.goto i point).calls)
    (hothers : ∀ j, i ≠ j → t'.probedBy j = t.probedBy j)
    (hown : ({ call with point } : ResolverCall).Fits (probeAnswers i (past ++ [act]))
      (t'.probedBy i)) :
    (∀ (j : Nat) (call : ResolverCall), t'.calls[j]? = some call →
      call.Fits (probeAnswers j (past ++ [act])) (t'.probedBy j)) ∧
      ∀ j, t'.calls.length ≤ j → probeAnswers j (past ++ [act]) = [] ∧ t'.probedBy j = [] := by
  constructor
  · intro j call' hcall'
    rw [hcalls, calls_goto hcall] at hcall'
    split at hcall'
    · rename_i hij
      subst hij
      cases hcall'
      exact hown
    · rename_i hij
      rw [probeAnswers_of_ne hact hij, hothers j hij]
      exact h.fits j call' hcall'
  · intro j hj
    have hlength : t'.calls.length = t.calls.length := by
      rw [hcalls]
      exact List.length_modify ..
    rw [hlength] at hj
    have hij : i ≠ j := by
      rintro rfl
      exact absurd hcall (by rw [List.getElem?_eq_none hj]; exact fun h => by cases h)
    rw [probeAnswers_of_ne hact hij, hothers j hij]
    exact h.absent j hj

theorem Resolving.prober_goto (h : t.Resolving past) (t' : CachedResolver)
    (hcall : t.calls[i]? = some call)
    (hcalls : t'.calls = (t.goto i point).calls)
    (hothers : ∀ j, i ≠ j → (t'.initializer = some j ↔ t.initializer = some j))
    (hown : t'.initializer = some i ↔ ∃ rung rest, point = .probing rung rest) :
    ∀ j, t'.initializer = some j ↔ t'.IsProbing j := by
  intro j
  have hprobing : t'.IsProbing j ↔ (t.goto i point).IsProbing j := by rw [IsProbing, hcalls]; rfl
  rw [hprobing, isProbing_goto hcall]
  split
  · rename_i hij
    subst hij
    exact hown
  · rename_i hij
    exact (hothers j hij).trans (h.prober j)

/-- A node stays resolved when a caller moves that has not returned. -/
theorem ResolvedBy.goto (h : t.ResolvedBy past node) (hcall : t.calls[i]? = some call)
    (hact : act.caller? = some i) (hgoing : call.point.isOver = false)
    (hcalls : t'.calls = (t.goto i point).calls) : t'.ResolvedBy (past ++ [act]) node := by
  obtain ⟨j, call', hcall', hpoint, hnode⟩ := h
  have hij : i ≠ j := by
    rintro rfl
    rw [hcall] at hcall'
    cases hcall'
    rw [hpoint] at hgoing
    cases hgoing
  refine ⟨j, call', ?_, hpoint, ?_⟩
  · rw [hcalls, calls_goto hcall, if_neg hij]
    exact hcall'
  · rw [probeAnswers_of_ne hact hij]
    exact hnode

/-- The node that a caller decides on is the one that its ladder leads to. -/
theorem Decides.resolveNode {said : List Bool} {probes : List String}
    (h : t.Decides i call act node) (hfits : call.Fits said probes) :
    node = resolveNode call.overrides call.localRungs
      (probeOf (said ++ (act.answer? i).toList)) := by
  cases h with
  | overridden hbegins hoverride => rw [DigDownload.resolveNode, hoverride]
  | rungless hbegins hoverride hrungs => rw [DigDownload.resolveNode, hoverride, hrungs]; rfl
  | answered hpoint =>
    rw [ResolverCall.Fits, hpoint] at hfits
    obtain ⟨hoverride, failed, hrungs, hsaid, -⟩ := hfits
    obtain ⟨hclimb, hlast⟩ := climb_of_answers hsaid true
    rw [DigDownload.resolveNode, hoverride, ResolverAct.answer?, if_pos rfl, Option.toList_some,
      hrungs, hclimb, climb, hlast, if_pos rfl]
  | exhausted hpoint =>
    rw [ResolverCall.Fits, hpoint] at hfits
    obtain ⟨hoverride, failed, hrungs, hsaid, -⟩ := hfits
    obtain ⟨hclimb, hlast⟩ := climb_of_answers hsaid false
    rw [DigDownload.resolveNode, hoverride, ResolverAct.answer?, if_pos rfl, Option.toList_some,
      hrungs, hclimb, climb, hlast, if_neg Bool.false_ne_true]
    rfl

theorem Resolving.newCall (h : t.Resolving past) (overrides : OverrideInputs)
    (localRungs : List LocalRung) :
    ({ t with calls := t.calls ++ [⟨overrides, localRungs, .waiting⟩] } : CachedResolver).Resolving
      (past ++ [.getOrResolve overrides localRungs]) := by
  have hanswers : ∀ j, probeAnswers j (past ++ [.getOrResolve overrides localRungs])
      = probeAnswers j past := fun j => (probeAnswers_concat _ _ _).trans (List.append_nil _)
  have hold : ∀ {j : Nat} {call : ResolverCall}, t.calls[j]? = some call →
      (t.calls ++ [⟨overrides, localRungs, .waiting⟩])[j]? = some call := by
    intro j call hcall
    obtain ⟨hlt, -⟩ := List.getElem?_eq_some_iff.mp hcall
    exact (List.getElem?_append_left hlt).trans hcall
  constructor
  case fits =>
    intro j call hcall
    rw [hanswers]
    obtain hcall | ⟨rfl, rfl⟩ := getElem?_concat_cases hcall
    · exact h.fits j call hcall
    · exact h.absent _ (Nat.le_refl _)
  case absent =>
    intro j hj
    rw [hanswers]
    refine h.absent j (Nat.le_trans ?_ hj)
    show t.calls.length ≤ (t.calls ++ [_]).length
    rw [List.length_append]
    exact Nat.le_add_right _ _
  case prober =>
    intro j
    rw [h.prober j]
    constructor
    · rintro ⟨call, rung, rest, hcall, hpoint⟩
      exact ⟨call, rung, rest, hold hcall, hpoint⟩
    · rintro ⟨call, rung, rest, hcall, hpoint⟩
      obtain hcall | ⟨rfl, -⟩ := getElem?_concat_cases hcall
      · exact ⟨call, rung, rest, hcall, hpoint⟩
      · cases hpoint
  case cached =>
    intro node hcached
    obtain ⟨hfree, j, call, hcall, hpoint, hnode⟩ := h.cached node hcached
    refine ⟨hfree, j, call, hold hcall, hpoint, ?_⟩
    rw [hanswers]
    exact hnode
  case returned =>
    intro j call node hcall hpoint
    obtain hcall | ⟨rfl, -⟩ := getElem?_concat_cases hcall
    · exact h.returned j call node hcall hpoint
    · cases hpoint
  case relayed =>
    refine h.relayed.imp fun hrelayed => hrelayed.imp_right ?_
    rintro ⟨call, hcall, hpoint⟩
    exact ⟨call, hold hcall, hpoint⟩

/-- A caller comes to a point without another probe, and the cell keeps what it has. -/
theorem Resolving.settles (h : t.Resolving past) (hcall : t.calls[i]? = some call)
    (hact : act.caller? = some i) (hgoing : call.point.isOver = false)
    (hover : point.isOver = true) (hreads : ∀ node, point = .returned node → t.cached = some node)
    {initializer : Option Nat} (hown : initializer ≠ some i)
    (hothers : ∀ j, i ≠ j → (initializer = some j ↔ t.initializer = some j))
    (hfree : t.cached.isSome → initializer = none) :
    ({ t.goto i point with initializer } : CachedResolver).Resolving (past ++ [act]) := by
  have hdropped : call.point ≠ .dropped := by
    intro hpoint
    rw [hpoint] at hgoing
    cases hgoing
  have hfits : ({ call with point } : ResolverCall).Fits (probeAnswers i (past ++ [act]))
      (t.probedBy i) := by
    have hprobes := (h.fits i call hcall).probes
    cases point with
    | returned node => exact hprobes
    | dropped => exact hprobes
    | _ => cases hover
  obtain ⟨hfits', habsent⟩ := h.fits_goto { t.goto i point with initializer } hcall hact
    rfl (fun _ _ => rfl) hfits
  constructor
  case fits => exact hfits'
  case absent => exact habsent
  case prober =>
    refine h.prober_goto { t.goto i point with initializer } hcall rfl hothers ?_
    constructor
    · exact fun hinit => absurd hinit hown
    · rintro ⟨rung, rest, rfl⟩
      cases hover
  case cached =>
    intro node hcached
    have hcached' : t.cached = some node := hcached
    exact ⟨hfree (by rw [hcached']; rfl),
      (h.cached node hcached').2.goto hcall hact hgoing rfl⟩
  case returned =>
    intro j call' node hcall' hpoint
    have hgoto : (t.goto i point).calls[j]? = some call' := hcall'
    rw [calls_goto hcall] at hgoto
    split at hgoto
    · cases hgoto
      exact hreads node hpoint
    · exact h.returned j call' node hgoto hpoint
  case relayed =>
    exact h.relayed.imp fun hrelayed => hrelayed.imp_right fun hd => hd.goto hcall hdropped

/-- While nobody has the node and nobody else resolves it, whoever was probed for is dropped. -/
theorem Resolving.relays (h : t.Resolving past) (huncached : t.cached = none)
    (hfree : ∀ j, t.initializer = some j → j = i) {probe : Nat × String} (hprobe : probe ∈ t.probed)
    (hne : probe.1 ≠ i) : t.IsDropped probe.1 := by
  have hprobed : t.probedBy probe.1 ≠ [] :=
    List.ne_nil_of_mem (List.mem_filterMap.mpr ⟨probe, hprobe, if_pos rfl⟩)
  cases hcall : t.calls[probe.1]? with
  | none => exact absurd (h.absent _ (List.getElem?_eq_none_iff.mp hcall)).2 hprobed
  | some call =>
    have hfits := h.fits _ call hcall
    cases hpoint : call.point with
    | waiting =>
      rw [ResolverCall.Fits, hpoint] at hfits
      exact absurd hfits.2 hprobed
    | probing rung rest =>
      exact absurd (hfree _ ((h.prober _).mpr ⟨call, rung, rest, hcall, hpoint⟩)) hne
    | returned node =>
      have := h.returned _ call node hcall hpoint
      rw [huncached] at this
      cases this
    | dropped => exact ⟨call, hcall, hpoint⟩

theorem probedBy_climbOn : (t.climbOn i (rung :: rest)).probedBy j =
    t.probedBy j ++ if i = j then [rung.url] else [] := by
  rw [probedBy, climbOn, List.filterMap_append, probedBy]
  split
  · rename_i hij
    simp [hij]
  · rename_i hij
    simp [hij]

theorem Resolving.climbs (h : t.Resolving past) (hcall : t.calls[i]? = some call)
    (hact : act.caller? = some i) (hgoing : call.point.isOver = false) (huncached : t.cached = none)
    (hfree : ∀ j, t.initializer = some j → j = i)
    (hfits : ({ call with point := .probing rung rest } : ResolverCall).Fits
      (probeAnswers i (past ++ [act])) (t.probedBy i ++ [rung.url])) :
    (t.climbOn i (rung :: rest)).Resolving (past ++ [act]) := by
  have hdropped : call.point ≠ .dropped := by
    intro hpoint
    rw [hpoint] at hgoing
    cases hgoing
  obtain ⟨hfits', habsent⟩ := h.fits_goto (t.climbOn i (rung :: rest)) hcall hact rfl
    (fun j hij => by rw [probedBy_climbOn, if_neg hij, List.append_nil])
    (by rw [probedBy_climbOn, if_pos rfl]; exact hfits)
  constructor
  case fits => exact hfits'
  case absent => exact habsent
  case prober =>
    refine h.prober_goto (t.climbOn i (rung :: rest)) hcall rfl (fun j hij => ?_) ?_
    · constructor
      · intro hinit
        exact absurd (Option.some.inj hinit) hij
      · intro hinit
        exact absurd (hfree j hinit).symm hij
    · exact ⟨fun _ => ⟨rung, rest, rfl⟩, fun _ => rfl⟩
  case cached =>
    intro node hcached
    have hcached' : t.cached = some node := hcached
    rw [huncached] at hcached'
    cases hcached'
  case returned =>
    intro j call' node hcall' hpoint
    have hgoto : (t.goto i (.probing rung rest)).calls[j]? = some call' := hcall'
    rw [calls_goto hcall] at hgoto
    split at hgoto
    · cases hgoto
      cases hpoint
    · exact h.returned j call' node hgoto hpoint
  case relayed =>
    refine List.pairwise_append.mpr ⟨?_, List.pairwise_singleton _ _,
      fun probe hprobe last hlast => ?_⟩
    · exact h.relayed.imp fun hrelayed => hrelayed.imp_right fun hd => hd.goto hcall hdropped
    · rw [List.mem_singleton.mp hlast]
      by_cases hne : probe.1 = i
      · exact .inl hne
      · exact .inr ((h.relays huncached hfree hprobe hne).goto hcall hdropped)

theorem Resolving.finishes (h : t.Resolving past) (hcall : t.calls[i]? = some call)
    (hact : act.caller? = some i) (hgoing : call.point.isOver = false) (huncached : t.cached = none)
    (hfree : ∀ j, t.initializer = some j → j = i) (hdecides : t.Decides i call act node) :
    (t.finish i node).Resolving (past ++ [act]) := by
  have hdropped : call.point ≠ .dropped := by
    intro hpoint
    rw [hpoint] at hgoing
    cases hgoing
  have hfits := h.fits i call hcall
  obtain ⟨hfits', habsent⟩ := h.fits_goto (t.finish i node) hcall hact rfl (fun _ _ => rfl)
    hfits.probes
  constructor
  case fits => exact hfits'
  case absent => exact habsent
  case prober =>
    refine h.prober_goto (t.finish i node) hcall rfl (fun j hij => ?_) ?_
    · constructor
      · intro hinit
        cases hinit
      · intro hinit
        exact absurd (hfree j hinit).symm hij
    · constructor
      · intro hinit
        cases hinit
      · rintro ⟨rung, rest, hpoint⟩
        cases hpoint
  case cached =>
    intro node' hcached
    cases hcached
    refine ⟨rfl, i, { call with point := .returned node }, ?_, rfl, ?_⟩
    · exact (calls_goto hcall).trans (if_pos rfl)
    · rw [probeAnswers_concat]
      exact hdecides.resolveNode hfits
  case returned =>
    intro j call' node' hcall' hpoint
    have hgoto : (t.goto i (.returned node)).calls[j]? = some call' := hcall'
    rw [calls_goto hcall] at hgoto
    split at hgoto
    · cases hgoto
      cases hpoint
      rfl
    · have := h.returned j call' node' hgoto hpoint
      rw [huncached] at this
      cases this
  case relayed =>
    exact h.relayed.imp fun hrelayed => hrelayed.imp_right fun hd => hd.goto hcall hdropped

/-- The initializer has the cell to itself. -/
theorem Resolving.alone (h : t.Resolving past) (hcall : t.calls[i]? = some call)
    (hpoint : call.point = .probing rung rest) :
    t.cached = none ∧ ∀ j, t.initializer = some j → j = i := by
  have hinit : t.initializer = some i := (h.prober i).mpr ⟨call, rung, rest, hcall, hpoint⟩
  constructor
  · cases hcached : t.cached with
    | none => rfl
    | some node =>
      rw [(h.cached node hcached).1] at hinit
      cases hinit
  · intro j hj
    rw [hinit] at hj
    exact (Option.some.inj hj).symm

theorem Begins.alone (h : t.Begins i call act) :
    call.point.isOver = false ∧ t.cached = none ∧ ∀ j, t.initializer = some j → j = i := by
  refine ⟨by rw [h.waiting]; rfl, h.uncached, fun j hj => ?_⟩
  rw [h.free] at hj
  cases hj

theorem Decides.alone (h : t.Decides i call act node) (hresolving : t.Resolving past)
    (hcall : t.calls[i]? = some call) :
    call.point.isOver = false ∧ t.cached = none ∧ ∀ j, t.initializer = some j → j = i := by
  cases h with
  | overridden hbegins hoverride => exact hbegins.alone
  | rungless hbegins hoverride hrungs => exact hbegins.alone
  | answered hpoint => exact ⟨by rw [hpoint]; rfl, hresolving.alone hcall hpoint⟩
  | exhausted hpoint => exact ⟨by rw [hpoint]; rfl, hresolving.alone hcall hpoint⟩

theorem Resolving.callStep (h : t.Resolving past) (hcall : t.calls[i]? = some call)
    (hact : act.caller? = some i) (hstep : CallStep t i call act t') :
    t'.Resolving (past ++ [act]) := by
  have hfits := h.fits i call hcall
  cases hstep with
  | reads hpoint hcached =>
    have hfree := (h.cached _ hcached).1
    refine h.settles hcall hact (by rw [hpoint]; rfl) rfl (fun node hnode => ?_) ?_
      (fun _ _ => Iff.rfl) fun _ => hfree
    · cases hnode
      exact hcached
    · rw [hfree]
      simp
  | begins hbegins hoverride hrungs =>
    obtain ⟨hgoing, huncached, hfree⟩ := hbegins.alone
    refine h.climbs hcall hact hgoing huncached hfree ?_
    rw [ResolverCall.Fits, hbegins.waiting] at hfits
    rw [probeAnswers_concat, hbegins.act, hfits.1, hfits.2]
    exact ⟨hoverride, [], hrungs, rfl, rfl⟩
  | @climbs prev rung rest hpoint =>
    obtain ⟨huncached, hfree⟩ := h.alone hcall hpoint
    refine h.climbs hcall hact (by rw [hpoint]; rfl) huncached hfree ?_
    rw [ResolverCall.Fits, hpoint] at hfits
    obtain ⟨hoverride, failed, hrungs, hsaid, hprobes⟩ := hfits
    refine ⟨hoverride, failed ++ [prev], ?_, ?_, ?_⟩
    · rw [List.append_assoc, List.singleton_append]
      exact hrungs
    · rw [probeAnswers_concat, hsaid, ResolverAct.answer?, if_pos rfl, Option.toList_some,
        List.length_append, List.length_singleton, List.replicate_succ']
    · rw [hprobes, List.map_append, List.map_append, List.map_append]
      rfl
  | finishes hdecides =>
    obtain ⟨hgoing, huncached, hfree⟩ := hdecides.alone h hcall
    exact h.finishes hcall hact hgoing huncached hfree hdecides
  | leaves hpoint =>
    refine h.settles hcall hact (by rw [hpoint]; rfl) rfl (fun node hnode => by cases hnode) ?_
      (fun _ _ => Iff.rfl) fun hcached => ?_
    · intro hinit
      obtain ⟨call', rung, rest, hcall', hpoint'⟩ := (h.prober i).mp hinit
      rw [hcall] at hcall'
      cases hcall'
      rw [hpoint] at hpoint'
      cases hpoint'
    · obtain ⟨node, hnode⟩ := Option.isSome_iff_exists.mp hcached
      exact (h.cached node hnode).1
  | abandons hpoint =>
    obtain ⟨huncached, hfree⟩ := h.alone hcall hpoint
    refine h.settles hcall hact (by rw [hpoint]; rfl) rfl (fun node hnode => by cases hnode)
      (by simp) (fun j hij => ?_) fun _ => rfl
    constructor
    · intro hinit
      cases hinit
    · exact fun hinit => absurd (hfree j hinit).symm hij

theorem Resolving.keeps (h : t.Resolving past) (hstep : step t act = some t') :
    t'.Resolving (past ++ [act]) := by
  obtain ⟨overrides, localRungs, rfl, rfl⟩ | ⟨i, call, hact, hcall, hcase⟩ := step_cases hstep
  · exact h.newCall overrides localRungs
  · exact h.callStep hcall hact hcase

theorem resolving_run (hrun : run step new acts = some t) : t.Resolving acts := by
  have hpast : Resolving ([] ++ acts) t :=
    invariant_past (fun _ _ _ _ h hstep => Resolving.keeps h hstep) resolving_new hrun
  rwa [List.nil_append] at hpast

/-! ## One node -/

/-- An address does not end with a slash. -/
def Unslashed (url : String) : Prop := ∀ h : url.toList ≠ [], url.toList.getLast h ≠ '/'

theorem unslashed_trimEndSlashes (url : String) : Unslashed (trimEndSlashes url) := by
  intro h
  simp only [trimEndSlashes, String.toList_ofList] at h ⊢
  simpa using List.rdropWhile_last_not (· = '/') url.toList h

theorem unslashed_publicGateway : Unslashed publicGateway.baseUrl := by
  rw [Unslashed]
  decide +kernel

theorem unslashed_climb (probe : Nat → Bool) (rungs : List LocalRung) :
    ∀ n, Unslashed (climb probe n rungs).baseUrl := by
  induction rungs with
  | nil => exact fun n => unslashed_publicGateway
  | cons rung rest ih =>
    intro n
    rw [climb]
    split
    · exact unslashed_trimEndSlashes _
    · exact ih (n + 1)

theorem unslashed_resolveNode (overrides : OverrideInputs) (rungs : List LocalRung)
    (probe : Nat → Bool) : Unslashed (DigDownload.resolveNode overrides rungs probe).baseUrl := by
  rw [DigDownload.resolveNode]
  split
  · exact unslashed_trimEndSlashes _
  · exact unslashed_climb _ _ _

/-- Every caller that returned got the node of the cell, to which the ladder of a single caller
led by what its own probes said, and whose address does not end with a slash. -/
structure Agrees (acts : List ResolverAct) (t : CachedResolver) : Prop where
  returned : ∀ (i : Nat) (call : ResolverCall) (node : ResolvedNode), t.calls[i]? = some call →
    call.point = .returned node → t.cached = some node
  resolved : ∀ node, t.cached = some node → t.ResolvedBy acts node
  unslashed : ∀ node, t.cached = some node → Unslashed node.baseUrl

/-- However its callers race and whichever of them are dropped, a resolver gives all of them one
node. -/
theorem resolver_agrees (acts : List ResolverAct) (t : CachedResolver)
    (hrun : run step new acts = some t) : t.Agrees acts := by
  have h := resolving_run hrun
  constructor
  case returned => exact h.returned
  case resolved => exact fun node hcached => (h.cached node hcached).2
  case unslashed =>
    intro node hcached
    obtain ⟨-, i, call, -, -, rfl⟩ := h.cached node hcached
    exact unslashed_resolveNode _ _ _

/-- The first prober is dropped, the second finds that only the loopback node answers, and the
third gets the node of the second. -/
def racedResolver : List ResolverAct :=
  [.getOrResolve ⟨none, none, none⟩ (localUrls defaultLocalNodePort),
    .getOrResolve ⟨none, none, none⟩ (localUrls defaultLocalNodePort),
    .getOrResolve ⟨some "http://other/", none, none⟩ [], .enter 0, .answer 0 false, .drop 0,
    .enter 1, .answer 1 false, .answer 1 false, .answer 1 true, .enter 2]

theorem resolver_agrees_raced :
    ∃ t, run step new racedResolver = some t ∧ t.Agrees racedResolver := by
  have hruns : (run step new racedResolver).isSome := by decide +kernel
  obtain ⟨t, hrun⟩ := Option.isSome_iff_exists.mp hruns
  exact ⟨t, hrun, resolver_agrees racedResolver t hrun⟩

/-! ## One prober -/

/-- One caller probes at a time, and none once the node is known; each probes its own rungs in
their order, and only after the callers before it were dropped. -/
structure ProbesAlone (t : CachedResolver) : Prop where
  alone : ∀ i j, t.IsProbing i → t.IsProbing j → i = j
  done : t.cached.isSome → ∀ i, ¬ t.IsProbing i
  ordered : ∀ (i : Nat) (call : ResolverCall), t.calls[i]? = some call →
    t.probedBy i <+: call.localRungs.map LocalRung.url
  relayed : t.probed.Pairwise fun first later => first.1 = later.1 ∨ t.IsDropped first.1

/-- The cell and the probes of a resolver that has the node stay as they are. -/
theorem Resolving.cached_kept (h : t.Resolving past) (hcached : t.cached = some node)
    (hstep : step t act = some t') : t'.cached = some node ∧ t'.probed = t.probed := by
  have hstill : ∀ {i : Nat} {call : ResolverCall}, t.calls[i]? = some call →
      ∀ {rung rest}, call.point ≠ .probing rung rest := by
    intro i call hcall rung rest hpoint
    have huncached := (h.alone hcall hpoint).1
    rw [hcached] at huncached
    cases huncached
  have hbegun : ∀ {i : Nat} {call : ResolverCall}, ¬ t.Begins i call act := by
    intro i call hbegins
    have := hbegins.uncached
    rw [hcached] at this
    cases this
  obtain ⟨overrides, localRungs, rfl, rfl⟩ | ⟨i, call, hact, hcall, hcase⟩ := step_cases hstep
  · exact ⟨hcached, rfl⟩
  · cases hcase with
    | reads hpoint hnode => exact ⟨hcached, rfl⟩
    | begins hbegins hoverride hrungs => exact absurd hbegins hbegun
    | climbs hpoint => exact absurd hpoint (hstill hcall)
    | finishes hdecides =>
      have huncached := (hdecides.alone h hcall).2.1
      rw [hcached] at huncached
      cases huncached
    | leaves hpoint => exact ⟨hcached, rfl⟩
    | abandons hpoint => exact absurd hpoint (hstill hcall)

/-- The ladder is climbed by one caller at a time, and once: a resolver that has the node keeps
it, and sends no probe any more. -/
theorem resolver_probes_once (acts after : List ResolverAct) (t t' : CachedResolver)
    (hrun : run step new acts = some t) (hafter : run step t after = some t') :
    t.ProbesAlone ∧
      ∀ node, t.cached = some node → t'.cached = some node ∧ t'.probed = t.probed := by
  have h := resolving_run hrun
  refine ⟨⟨fun i j hi hj => ?_, fun hcached i hi => ?_,
    fun i call hcall => (h.fits i call hcall).probes,
    h.relayed⟩, fun node hcached => ?_⟩
  · have hi := (h.prober i).mpr hi
    rw [(h.prober j).mpr hj] at hi
    exact (Option.some.inj hi).symm
  · obtain ⟨node, hnode⟩ := Option.isSome_iff_exists.mp hcached
    have hinit := (h.prober i).mpr hi
    rw [(h.cached node hnode).1] at hinit
    cases hinit
  · have hkept : ∃ past, t'.Resolving past ∧ t'.cached = some node ∧ t'.probed = t.probed := by
      refine invariant (I := fun u => ∃ past, u.Resolving past ∧ u.cached = some node ∧
        u.probed = t.probed) ?_ ⟨acts, h, hcached, rfl⟩ hafter
      rintro u act u' ⟨past, hu, hnode, hprobed⟩ hstep
      obtain ⟨hnode', hprobed'⟩ := hu.cached_kept hnode hstep
      refine ⟨past ++ [act], ?_, hnode', hprobed'.trans hprobed⟩
      exact hu.keeps hstep
    obtain ⟨past, -, hkept⟩ := hkept
    exact hkept

/-- A caller that comes when the others have gone. -/
def lateCaller : List ResolverAct :=
  [.getOrResolve ⟨none, none, none⟩ (localUrls defaultLocalNodePort), .enter 3]

theorem resolver_probes_once_raced : ∃ t t', run step new racedResolver = some t ∧
    run step t lateCaller = some t' ∧ t.ProbesAlone ∧
    ∀ node, t.cached = some node → t'.cached = some node ∧ t'.probed = t.probed := by
  have hruns : (run step new racedResolver).isSome := by decide +kernel
  have hlate : ∀ t ∈ run step new racedResolver, (run step t lateCaller).isSome := by
    decide +kernel
  obtain ⟨t, hrun⟩ := Option.isSome_iff_exists.mp hruns
  obtain ⟨t', hafter⟩ := Option.isSome_iff_exists.mp (hlate t hrun)
  exact ⟨t, t', hrun, hafter, resolver_probes_once racedResolver lateCaller t t' hrun hafter⟩

/-! ## Every caller gets it -/

/-- The caller can take a step without being dropped, or waits for the one that resolves the
node, which can. -/
def CanGoOn (t : CachedResolver) (i : Nat) : Prop :=
  ∃ act t', step t act = some t' ∧ (∀ j, act ≠ .drop j) ∧
    (act.caller? = some i ∨ ∃ j, act.caller? = some j ∧ t.initializer = some j ∧ t.IsProbing j)

theorem step_of_caller (hact : act.caller? = some i) (hcall : t.calls[i]? = some call)
    (h : (stepCall t i call act).isSome) : ∃ t', step t act = some t' := by
  obtain ⟨t', ht'⟩ := Option.isSome_iff_exists.mp h
  refine ⟨t', ?_⟩
  have hbind : (act.caller?.bind fun i => (t.calls[i]?).bind fun call => stepCall t i call act)
      = some t' := by
    rw [hact, Option.bind_some, hcall, Option.bind_some, ht']
  cases act with
  | getOrResolve overrides localRungs => cases hact
  | _ => exact hbind

theorem step_answer (hcall : t.calls[i]? = some call) (hpoint : call.point = .probing rung rest) :
    ∃ t', step t (.answer i true) = some t' :=
  step_of_caller rfl hcall (by simp [stepCall, hpoint])

theorem Resolving.canGoOn (h : t.Resolving past) (hcall : t.calls[i]? = some call)
    (hgoing : call.point.isOver = false) : t.CanGoOn i := by
  cases hpoint : call.point with
  | waiting =>
    cases hcached : t.cached with
    | some node =>
      obtain ⟨t', hstep⟩ :=
        step_of_caller (show (ResolverAct.enter i).caller? = some i from rfl) hcall
        (by simp [stepCall, hpoint, hcached])
      exact ⟨_, t', hstep, by simp, .inl rfl⟩
    | none =>
      cases hinit : t.initializer with
      | none =>
        obtain ⟨t', hstep⟩ :=
          step_of_caller (show (ResolverAct.enter i).caller? = some i from rfl) hcall
          (by simp [stepCall, hpoint, hcached, hinit])
        exact ⟨_, t', hstep, by simp, .inl rfl⟩
      | some j =>
        obtain ⟨call', rung, rest, hcall', hpoint'⟩ := (h.prober j).mp hinit
        obtain ⟨t', hstep⟩ := step_answer hcall' hpoint'
        exact ⟨_, t', hstep, by simp, .inr ⟨j, rfl, hinit, call', rung, rest, hcall', hpoint'⟩⟩
  | probing rung rest =>
    obtain ⟨t', hstep⟩ := step_answer hcall hpoint
    exact ⟨_, t', hstep, by simp, .inl rfl⟩
  | returned node =>
    rw [hpoint] at hgoing
    cases hgoing
  | dropped =>
    rw [hpoint] at hgoing
    cases hgoing

/-- How many steps a caller still takes, at the most. -/
def rank (call : ResolverCall) : Nat :=
  match call.point with
  | .waiting => call.localRungs.length + 1
  | .probing _ rest => rest.length + 1
  | .returned _ | .dropped => 0

theorem CallStep.rank (h : CallStep t i call act t') : ∃ point : ResolverPoint,
    t'.calls = (t.goto i point).calls ∧
      CachedResolver.rank { call with point } + 1 ≤ CachedResolver.rank call := by
  cases h with
  | reads hpoint hcached => exact ⟨_, rfl, by simp [CachedResolver.rank, hpoint]⟩
  | begins hbegins hoverride hrungs =>
    exact ⟨_, rfl, by simp [CachedResolver.rank, hbegins.waiting, hrungs]⟩
  | climbs hpoint => exact ⟨_, rfl, by simp [CachedResolver.rank, hpoint]⟩
  | finishes hdecides =>
    refine ⟨_, rfl, ?_⟩
    cases hdecides with
    | overridden hbegins hoverride => simp [CachedResolver.rank, hbegins.waiting]
    | rungless hbegins hoverride hrungs => simp [CachedResolver.rank, hbegins.waiting]
    | answered hpoint => simp [CachedResolver.rank, hpoint]
    | exhausted hpoint => simp [CachedResolver.rank, hpoint]
  | leaves hpoint => exact ⟨_, rfl, by simp [CachedResolver.rank, hpoint]⟩
  | abandons hpoint => exact ⟨_, rfl, by simp [CachedResolver.rank, hpoint]⟩

/-- The rungs of all the callers, and one step for each of them to begin. -/
def allowance (t : CachedResolver) : Nat :=
  (t.calls.map fun call => call.localRungs.length + 1).sum

theorem rank_step (h : step t act = some t') :
    (t'.calls.map rank).sum + act.caller?.toList.length + t.allowance
      ≤ (t.calls.map rank).sum + t'.allowance := by
  obtain ⟨overrides, localRungs, rfl, rfl⟩ | ⟨i, call, hact, hcall, hcase⟩ := step_cases h
  · simp only [allowance, ResolverAct.caller?, List.map_append, List.sum_append, List.map_cons,
      List.map_nil, List.sum_singleton, Option.toList_none, List.length_nil, rank]
    omega
  · obtain ⟨point, hcalls, hrank⟩ := hcase.rank
    have hranks := sum_map_modify rank (fun call => { call with point }) t.calls hcall
    have hcalls' : t'.calls = t.calls.modify i fun call => { call with point } := hcalls
    have hallowed : t'.allowance = t.allowance := by
      rw [allowance, hcalls']
      exact Nat.add_right_cancel (sum_map_modify (fun call : ResolverCall =>
        call.localRungs.length + 1) (fun call => { call with point }) t.calls hcall)
    rw [hact, hallowed, hcalls', Option.toList_some, List.length_singleton]
    omega

/-- No caller waits forever: the callers take a bounded number of steps in all, and as long as
one is not over, it or the one that resolves the node for it can go on, whoever was dropped. -/
theorem resolver_calls_end (acts : List ResolverAct) (t : CachedResolver)
    (hrun : run step new acts = some t) :
    (acts.filterMap ResolverAct.caller?).length ≤ t.allowance ∧
      ∀ (i : Nat) (call : ResolverCall), t.calls[i]? = some call → call.point.isOver = false →
        t.CanGoOn i := by
  refine ⟨?_, fun i call hcall hgoing => (resolving_run hrun).canGoOn hcall hgoing⟩
  have hpaid := budget (I := fun _ => True) (fun t => (t.calls.map rank).sum) allowance
    (fun act => act.caller?.toList.length) (fun t act t' _ hstep => ⟨trivial, rank_step hstep⟩)
    trivial hrun
  have hsteps : (acts.filterMap ResolverAct.caller?).length
      = (acts.map fun act => act.caller?.toList.length).sum := by
    rw [List.filterMap_eq_flatMap_toList, List.length_flatMap]
  have hnew : ((new.calls).map rank).sum = 0 := rfl
  rw [hnew] at hpaid
  omega

theorem resolver_calls_end_raced : ∃ t, run step new racedResolver = some t ∧
    (racedResolver.filterMap ResolverAct.caller?).length ≤ t.allowance ∧
      ∀ (i : Nat) (call : ResolverCall), t.calls[i]? = some call → call.point.isOver = false →
        t.CanGoOn i := by
  have hruns : (run step new racedResolver).isSome := by decide +kernel
  obtain ⟨t, hrun⟩ := Option.isSome_iff_exists.mp hruns
  exact ⟨t, hrun, resolver_calls_end racedResolver t hrun⟩

end CachedResolver

end DigDownload
