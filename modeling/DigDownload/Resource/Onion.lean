import DigDownload.Resource.Job

/-!
# Onion mode

A node carries its own and other people's transfers over hops as far as its policy allows. A
transport in onion mode asks a holder through the hops, or refuses to ask for a reason of the
policy, which is no statement about the content.
-/

namespace DigDownload

/-- Why a hop does not carry a transfer, or a requestor does not start one. -/
inductive StreamRelayRefusal where
  | disabled
  | asksOnly
  | unreadableHopBudget
  | hopBudgetSpent
  | unreadableLength
  | streamTooLarge (declared ceiling : Nat)
  | relayByteBudgetSpent (declared available : Nat)
  deriving DecidableEq, Repr

def StreamRelayRefusal.display : StreamRelayRefusal → String
  | .disabled => "onion mode is disabled on this node"
  | .asksOnly => "this node relays asks but not streams"
  | .unreadableHopBudget => "the stream's hop budget could not be read"
  | .hopBudgetSpent => "the stream's hop budget is exhausted"
  | .unreadableLength => "the stream declared no readable length"
  | .streamTooLarge declared ceiling =>
      s!"the stream is larger than this node will relay ({declared} > {ceiling} bytes)"
  | .relayByteBudgetSpent declared available =>
      s!"the relay byte allowance is spent ({declared} needed, {available} left)"

/-- The policy of a node for carrying transfers, its own and other people's. -/
structure StreamRelayConfig where
  enabled : Bool
  relaysAsksOnly : Bool
  maxBytesPerStream : Nat
  deriving DecidableEq, Repr

/-- Refuse to originate anything while onion mode is off. -/
def requireEnabled (config : StreamRelayConfig) : Except DownloadError Unit :=
  if config.enabled then .ok () else .error (.state StreamRelayRefusal.disabled.display)

/-- The seams with an `OnionRangeTransport` as their transport; what the holders answer through
its channel is what they answer to the seams. -/
def ResourceSeams.overOnion (seams : ResourceSeams) (config : StreamRelayConfig) : ResourceSeams :=
  { seams with
    queryAvailability := fun t p item =>
      match requireEnabled config with
      | .error e => .error e
      | .ok () => seams.queryAvailability t p item
    fetchRange := fun t p req =>
      match requireEnabled config with
      | .error e => some (.error e)
      | .ok () =>
          if config.maxBytesPerStream < req.length then
            some (.error (.state
              (StreamRelayRefusal.streamTooLarge req.length config.maxBytesPerStream).display))
          else
            seams.fetchRange t p req }

end DigDownload
