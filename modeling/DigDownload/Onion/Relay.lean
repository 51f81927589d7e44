import DigDownload.Resource.Onion
import DigDownload.Lib.Runs

/-!
# Relaying other people's streams

What a hop decides about an inbound transfer, and what its decisions add up to. The window of
bytes is the caller's: it hands what is left of it to each decision and takes the admitted bytes
off it. The hop budget travels in the request, and each hop that carries forwards one less.
-/

namespace DigDownload

/-- The per-stream ceiling of a node that sets none: one range window. -/
def defaultMaxBytesPerStream : Nat := 16 * 1024 * 1024

/-- A node that carries nothing for anyone else. -/
def StreamRelayConfig.default : StreamRelayConfig where
  enabled := false
  relaysAsksOnly := true
  maxBytesPerStream := defaultMaxBytesPerStream

/-- A hop's decision about an inbound transfer. -/
inductive StreamRelayDecision where
  | carry (hopsRemaining byteCeiling : Nat)
  | refuse (refusal : StreamRelayRefusal)
  deriving DecidableEq, Repr

/-- An inbound transfer as a hop received it. A field that could not be read is none. -/
structure InboundStream where
  hopsRemaining : Option Nat
  declaredLen : Option Nat
  deriving DecidableEq, Repr

/-- Decide whether this hop carries an inbound transfer. -/
def decideRelayStream (config : StreamRelayConfig) (inbound : InboundStream)
    (relayBytesAvailable : Nat) : StreamRelayDecision :=
  if !config.enabled then .refuse .disabled
  else if config.relaysAsksOnly then .refuse .asksOnly
  else
    match inbound.hopsRemaining with
    | none => .refuse .unreadableHopBudget
    | some hopsRemaining =>
        if hopsRemaining = 0 then .refuse .hopBudgetSpent
        else
          match inbound.declaredLen with
          | none => .refuse .unreadableLength
          | some declared =>
              if config.maxBytesPerStream < declared then
                .refuse (.streamTooLarge declared config.maxBytesPerStream)
              else if relayBytesAvailable < declared then
                .refuse (.relayByteBudgetSpent declared relayBytesAvailable)
              else .carry (hopsRemaining - 1) declared

section Decision

variable {config : StreamRelayConfig} {inbound : InboundStream} {available : Nat}

/-- What is carried: the declared length, which fits under the ceiling and into the window, with
one less than the budget it came with. -/
theorem decideRelayStream_eq_carry {hopsRemaining byteCeiling : Nat} :
    decideRelayStream config inbound available = .carry hopsRemaining byteCeiling ↔
      config.enabled = true ∧ config.relaysAsksOnly = false ∧
        inbound.hopsRemaining = some (hopsRemaining + 1) ∧
        inbound.declaredLen = some byteCeiling ∧
        byteCeiling ≤ config.maxBytesPerStream ∧ byteCeiling ≤ available := by
  cases henabled : config.enabled with
  | false => simp [decideRelayStream, henabled]
  | true =>
    cases hasks : config.relaysAsksOnly with
    | true => simp [decideRelayStream, henabled, hasks]
    | false =>
      cases hhops : inbound.hopsRemaining with
      | none => simp [decideRelayStream, henabled, hasks, hhops]
      | some hops =>
        cases hops with
        | zero => simp [decideRelayStream, henabled, hasks, hhops]
        | succ hops =>
          cases hlen : inbound.declaredLen with
          | none => simp [decideRelayStream, henabled, hasks, hhops, hlen]
          | some declared =>
            simp only [decideRelayStream, henabled, hasks, hhops, hlen]
            grind

/-- A node left at its default carries nothing, whatever is left of its window. -/
theorem decideRelayStream_default :
    decideRelayStream .default inbound available = .refuse .disabled := by
  simp [decideRelayStream, StreamRelayConfig.default]

end Decision

/-! ## The window -/

/-- A transfer that was carried, with what was decided about it. -/
structure Carried where
  inbound : InboundStream
  hopsRemaining : Nat
  byteCeiling : Nat
  deriving DecidableEq, Repr

/-- What the policy admits, and no more than the transfer declared about itself. -/
structure Carried.Admitted (config : StreamRelayConfig) (c : Carried) : Prop where
  enabled : config.enabled = true
  relays : config.relaysAsksOnly = false
  hops : c.inbound.hopsRemaining = some (c.hopsRemaining + 1)
  declared : c.inbound.declaredLen = some c.byteCeiling
  ceiling : c.byteCeiling ≤ config.maxBytesPerStream

/-- The bytes of the transfers carried. -/
def bytesCarried (carried : List Carried) : Nat := (carried.map Carried.byteCeiling).sum

/-- The window of a caller: what is left of it, and the transfers carried out of it. -/
structure RelayWindow where
  available : Nat
  carried : List Carried
  deriving DecidableEq, Repr

/-- The caller has an inbound stream decided, and takes what is carried off its window. -/
def RelayWindow.inbound (config : StreamRelayConfig) (w : RelayWindow) (inbound : InboundStream) :
    Option RelayWindow :=
  match decideRelayStream config inbound w.available with
  | .carry hopsRemaining byteCeiling =>
      (checkedSub w.available byteCeiling).map fun left =>
        { available := left, carried := w.carried ++ [⟨inbound, hopsRemaining, byteCeiling⟩] }
  | .refuse _ => some w

section Window

variable (config : StreamRelayConfig) (w : RelayWindow)

/-- One stream: the window is left alone, or an admitted length that fits is taken off it. -/
theorem inbound_cases (inbound : InboundStream) :
    w.inbound config inbound = some w ∨
      ∃ c : Carried, c.inbound = inbound ∧ c.Admitted config ∧ c.byteCeiling ≤ w.available ∧
        w.inbound config inbound =
          some { available := w.available - c.byteCeiling, carried := w.carried ++ [c] } := by
  cases hdecide : decideRelayStream config inbound w.available with
  | refuse refusal =>
    left
    simp only [RelayWindow.inbound, hdecide]
  | carry hopsRemaining byteCeiling =>
    right
    obtain ⟨henabled, hrelays, hhops, hlen, hceiling, hfits⟩ :=
      decideRelayStream_eq_carry.mp hdecide
    refine ⟨⟨inbound, hopsRemaining, byteCeiling⟩, rfl,
      ⟨henabled, hrelays, hhops, hlen, hceiling⟩, hfits, ?_⟩
    simp only [RelayWindow.inbound, hdecide, checkedSub_of_le hfits, Option.map_some]

/-- Any number of streams: some of them are carried, in their order, and what is left of the
window is what they leave. -/
theorem run_inbound (streams : List InboundStream) :
    ∃ left taken,
      Runs.run (RelayWindow.inbound config) w streams = some ⟨left, w.carried ++ taken⟩ ∧
        left + bytesCarried taken = w.available ∧
        (taken.map Carried.inbound).Sublist streams ∧ ∀ c ∈ taken, c.Admitted config := by
  induction streams generalizing w with
  | nil => exact ⟨w.available, [], by simp, by simp [bytesCarried], by simp, by simp⟩
  | cons inbound streams ih =>
    cases inbound_cases config w inbound with
    | inl hsame =>
      obtain ⟨left, taken, hrun, hsum, hsub, hadmitted⟩ := ih w
      exact ⟨left, taken, by rw [Runs.run_cons hsame, hrun], hsum, hsub.cons _, hadmitted⟩
    | inr hcarried =>
      obtain ⟨c, rfl, hc, hfits, hstep⟩ := hcarried
      obtain ⟨left, taken, hrun, hsum, hsub, hadmitted⟩ :=
        ih ⟨w.available - c.byteCeiling, w.carried ++ [c]⟩
      have hsum' : left + bytesCarried (c :: taken) = w.available := by
        simp only [bytesCarried, List.map_cons, List.sum_cons] at hsum ⊢
        omega
      refine ⟨left, c :: taken, ?_, hsum', hsub.cons_cons _, ?_⟩
      · rw [Runs.run_cons hstep, hrun, List.append_assoc, List.singleton_append]
      · intro other hother
        cases hother with
        | head => exact hc
        | tail _ hmem => exact hadmitted other hmem

end Window

/-! ## Chains of hops -/

/-- A hop of a chain: its policy, what is left of its window, and the length it declares onward
for the bytes it carries. -/
structure RelayHop where
  config : StreamRelayConfig
  relayBytesAvailable : Nat
  declares : Nat → Option Nat

/-- The hops of a chain that carry a stream, each forwarding the budget it decided on. -/
def carriers : List RelayHop → InboundStream → List RelayHop
  | [], _ => []
  | hop :: rest, inbound =>
      match decideRelayStream hop.config inbound hop.relayBytesAvailable with
      | .carry hopsRemaining byteCeiling =>
          hop :: carriers rest ⟨some hopsRemaining, hop.declares byteCeiling⟩
      | .refuse _ => []

/-- A budget is a bound on the hops that carry, and an unreadable one is carried by none. -/
theorem length_carriers_le (hops : List RelayHop) (inbound : InboundStream) :
    (carriers hops inbound).length ≤ inbound.hopsRemaining.getD 0 := by
  induction hops generalizing inbound with
  | nil => exact Nat.zero_le _
  | cons hop rest ih =>
    cases hdecide : decideRelayStream hop.config inbound hop.relayBytesAvailable with
    | refuse refusal =>
      simp only [carriers, hdecide, List.length_nil, Nat.zero_le]
    | carry hopsRemaining byteCeiling =>
      have hbudget := (decideRelayStream_eq_carry.mp hdecide).2.2.1
      have hrest := ih ⟨some hopsRemaining, hop.declares byteCeiling⟩
      rw [hbudget]
      simp only [carriers, hdecide, List.length_cons]
      exact Nat.succ_le_succ hrest

/-- A window after a run of streams: nothing is lost or made up between what is left and what was
carried, and all that was carried are streams of the run which the policy admits. -/
structure RelayWindow.Accounts (config : StreamRelayConfig) (window : Nat)
    (streams : List InboundStream) (w : RelayWindow) : Prop where
  total : w.available + bytesCarried w.carried = window
  within : bytesCarried w.carried ≤ window
  among : (w.carried.map Carried.inbound).Sublist streams
  admitted : ∀ c ∈ w.carried, c.Admitted config

/-- No subtraction from a window underflows and its accounts hold after every run of streams; and
on every chain of hops a stream is carried by at most as many as its budget says. -/
theorem relay_accounts :
    (∀ (config : StreamRelayConfig) (window : Nat) (streams : List InboundStream),
      ∃ w, Runs.run (RelayWindow.inbound config) ⟨window, []⟩ streams = some w ∧
        w.Accounts config window streams) ∧
    ∀ (hops : List RelayHop) (h : Nat) (declaredLen : Option Nat),
      (carriers hops ⟨some h, declaredLen⟩).length ≤ h := by
  constructor
  · intro config window streams
    obtain ⟨left, taken, hrun, hsum, hsub, hadmitted⟩ := run_inbound config ⟨window, []⟩ streams
    rw [List.nil_append] at hrun
    have hwithin : bytesCarried taken ≤ window := by
      change left + bytesCarried taken = window at hsum
      omega
    exact ⟨⟨left, taken⟩, hrun, hsum, hwithin, hsub, hadmitted⟩
  · intro hops h declaredLen
    exact length_carriers_le hops ⟨some h, declaredLen⟩

end DigDownload
