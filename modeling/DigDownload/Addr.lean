import DigDownload.Lib.Sorting
import DigDownload.Basic

/-!
# Candidate addresses

A provider record lists candidates, each with a host text, a port and a kind. A host is an IP
literal, which is parsed and given the port; it is never put together with the port as text and
parsed back. The candidates of a kind that can be dialled are tried IPv6 first, then IPv4, then
those whose host is no literal, as far as a cap on their number goes.
-/

namespace DigDownload

open Sorting

/-! ## IP literals -/

structure Ipv4Addr where
  a : UInt8
  b : UInt8
  c : UInt8
  d : UInt8
  deriving DecidableEq, Repr

structure Ipv6Addr where
  segments : List UInt16
  length_eq : segments.length = 8
  deriving DecidableEq, Repr

inductive IpAddr where
  | v4 (addr : Ipv4Addr)
  | v6 (addr : Ipv6Addr)
  deriving DecidableEq, Repr

/-- `char::to_digit`. -/
def toDigit (radix : Nat) (c : Char) : Option Nat :=
  let value :=
    if '0' ≤ c ∧ c ≤ '9' then c.toNat - '0'.toNat
    else if 'a' ≤ c ∧ c ≤ 'z' then c.toNat - 'a'.toNat + 10
    else if 'A' ≤ c ∧ c ≤ 'Z' then c.toNat - 'A'.toNat + 10
    else radix
  if value < radix then some value else none

/-- The digits that a text begins with, and the rest of it. -/
def readDigits (radix : Nat) : List Char → List Nat × List Char
  | [] => ([], [])
  | c :: cs =>
      match toDigit radix c with
      | some digit => (digit :: (readDigits radix cs).1, (readDigits radix cs).2)
      | none => ([], c :: cs)

/-- A number of at most `maxDigits` digits and no more than `max`. -/
def readNumber (radix maxDigits max : Nat) (allowZeroPrefix : Bool) (cs : List Char) :
    Option (Nat × List Char) :=
  let (digits, rest) := readDigits radix cs
  let n := digits.foldl (fun n digit => n * radix + digit) 0
  if maxDigits < digits.length then none
  else if digits.length = 0 then none
  else if !allowZeroPrefix && digits.head? = some 0 && 1 < digits.length then none
  else if max < n then none
  else some (n, rest)

/-- A separator, except before the first item. -/
def readSeparator (sep : Char) (first : Bool) (cs : List Char) : Option (List Char) :=
  match first, cs with
  | true, cs => some cs
  | false, c :: cs => if c = sep then some cs else none
  | false, [] => none

def readIpv4Addr (cs : List Char) : Option (Ipv4Addr × List Char) := do
  let (a, cs) ← readNumber 10 3 255 false cs
  let (b, cs) ← readSeparator '.' false cs >>= readNumber 10 3 255 false
  let (c, cs) ← readSeparator '.' false cs >>= readNumber 10 3 255 false
  let (d, cs) ← readSeparator '.' false cs >>= readNumber 10 3 255 false
  return (⟨UInt8.ofNat a, UInt8.ofNat b, UInt8.ofNat c, UInt8.ofNat d⟩, cs)

/-- Up to `left` groups separated by colons, and whether the last two of them were an embedded
IPv4 address, for which there must be room. -/
def readGroups (first : Bool) : Nat → List Char → List UInt16 × Bool × List Char
  | 0, cs => ([], false, cs)
  | left + 1, cs =>
      let embedded :=
        if 0 < left then readSeparator ':' first cs >>= readIpv4Addr else none
      match embedded with
      | some (v4, rest) =>
          ([v4.a.toUInt16 * 256 + v4.b.toUInt16, v4.c.toUInt16 * 256 + v4.d.toUInt16], true, rest)
      | none =>
          match readSeparator ':' first cs >>= readNumber 16 4 65535 true with
          | none => ([], false, cs)
          | some (group, rest) =>
              let (groups, v4, rest) := readGroups false left rest
              (UInt16.ofNat group :: groups, v4, rest)

theorem length_readGroups_le (first : Bool) (left : Nat) (cs : List Char) :
    (readGroups first left cs).1.length ≤ left := by
  induction left generalizing first cs with
  | zero => exact Nat.le_refl 0
  | succ left ih =>
    rw [readGroups]
    cases hembedded : if 0 < left then readSeparator ':' first cs >>= readIpv4Addr else none with
    | some v4 =>
      have hroom : 0 < left := by
        by_contra hfull
        rw [if_neg hfull] at hembedded
        cases hembedded
      exact Nat.succ_le_succ hroom
    | none =>
      dsimp only
      split
      · exact Nat.zero_le _
      · exact Nat.succ_le_succ (ih _ _)

/-- All eight groups, or those up to `::` and those after it with zeros between them. -/
def readIpv6Groups (cs : List Char) : Option (List UInt16 × List Char) :=
  let (head, v4, rest) := readGroups true 8 cs
  if head.length = 8 then some (head, rest)
  else if v4 then none
  else
    match rest with
    | ':' :: ':' :: rest =>
        let (tail, _, rest) := readGroups true (7 - head.length) rest
        some (head ++ List.replicate (8 - tail.length - head.length) 0 ++ tail, rest)
    | _ => none

theorem length_of_readIpv6Groups {cs rest : List Char} {groups : List UInt16}
    (h : readIpv6Groups cs = some (groups, rest)) : groups.length = 8 := by
  have hhead := length_readGroups_le true 8 cs
  simp only [readIpv6Groups] at h
  split at h
  · rename_i height
    cases h
    exact height
  · rename_i hshort
    split at h
    · cases h
    · split at h
      · rename_i rest' _
        cases h
        have htail := length_readGroups_le true (7 - (readGroups true 8 cs).1.length) rest'
        simp only [List.length_append, List.length_replicate]
        omega
      · cases h

def readIpv6Addr (cs : List Char) : Option (Ipv6Addr × List Char) :=
  match h : readIpv6Groups cs with
  | some (groups, rest) => some (⟨groups, length_of_readIpv6Groups h⟩, rest)
  | none => none

def readIpAddr (cs : List Char) : Option (IpAddr × List Char) :=
  match readIpv4Addr cs with
  | some (v4, rest) => some (.v4 v4, rest)
  | none => (readIpv6Addr cs).map fun (v6, rest) => (.v6 v6, rest)

/-- `IpAddr::from_str`: the whole text is an address. -/
def IpAddr.fromStr (s : String) : Option IpAddr :=
  match readIpAddr s.toList with
  | some (ip, []) => some ip
  | _ => none

def Ipv4Addr.display (addr : Ipv4Addr) : String := s!"{addr.a}.{addr.b}.{addr.c}.{addr.d}"

/-- The address that `::ffff:` and four octets stand for. -/
def Ipv6Addr.toIpv4Mapped (addr : Ipv6Addr) : Option Ipv4Addr :=
  match addr.segments with
  | [0, 0, 0, 0, 0, 65535, hi, lo] =>
      some ⟨(hi / 256).toUInt8, hi.toUInt8, (lo / 256).toUInt8, lo.toUInt8⟩
  | _ => none

/-- The zeros that a list begins with. -/
def leadingZeros (segments : List UInt16) : Nat := (segments.takeWhile (· = 0)).length

/-- Where the first of the longest runs of zeros starts, and its length. -/
def longestZeros (segments : List UInt16) : Nat × Nat :=
  (List.range segments.length).foldl
    (fun longest start =>
      let len := leadingZeros (segments.drop start)
      if longest.2 < len then (start, len) else longest)
    (0, 0)

def displaySegments (segments : List UInt16) : String :=
  ":".intercalate (segments.map fun segment => String.ofList (Nat.toDigits 16 segment.toNat))

def Ipv6Addr.display (addr : Ipv6Addr) : String :=
  match addr.toIpv4Mapped with
  | some v4 => "::ffff:" ++ v4.display
  | none =>
      let (start, len) := longestZeros addr.segments
      if 1 < len then
        displaySegments (addr.segments.take start) ++ "::" ++
          displaySegments (addr.segments.drop (start + len))
      else displaySegments addr.segments

/-- An address with a port. -/
structure SocketAddr where
  ip : IpAddr
  port : UInt16
  deriving DecidableEq, Repr

/-- As text, with brackets around an IPv6 literal. -/
def SocketAddr.display (socket : SocketAddr) : String :=
  match socket.ip with
  | .v4 addr => s!"{addr.display}:{socket.port}"
  | .v6 addr => s!"[{addr.display}]:{socket.port}"

/-! ## Candidates -/

/-- Upper bound on the candidates tried for a provider. -/
def maxDialCandidates : Nat := 4

/-- Why a candidate is not turned into a socket address. -/
inductive AddrError where
  | notAnIpLiteral (host : String)
  deriving DecidableEq, Repr

/-- A candidate of a record, whose kind says whether it can be dialled at all. -/
structure CandidateAddr (κ : Type) where
  host : String
  port : UInt16
  kind : κ
  deriving DecidableEq, Repr

/-- A provider record as the table of holders has it. -/
structure ProviderCandidates (κ : Type) where
  providerPeerId : String
  addresses : List (CandidateAddr κ)
  deriving DecidableEq, Repr

section Candidates

variable {κ : Type}

/-- Resolve one candidate. -/
def candidateSocket (addr : CandidateAddr κ) : Except AddrError SocketAddr :=
  match IpAddr.fromStr addr.host with
  | none => .error (.notAnIpLiteral addr.host)
  | some ip => .ok ⟨ip, addr.port⟩

/-- Render a candidate. What is no literal is shown as it is. -/
def CandidateAddr.display (addr : CandidateAddr κ) : String :=
  match candidateSocket addr with
  | .ok socket => socket.display
  | .error _ => s!"{addr.host}:{addr.port}"

/-- The record as the selection sees it, with its candidates rendered. -/
def ProviderCandidates.record (provider : ProviderCandidates κ) : ProviderRecord where
  providerPeerId := provider.providerPeerId
  addresses := provider.addresses.map CandidateAddr.display

/-- The rank of a candidate in the dial order. -/
def dialRank (addr : CandidateAddr κ) : Nat :=
  match candidateSocket addr with
  | .ok ⟨.v6 _, _⟩ => 0
  | .ok ⟨.v4 _, _⟩ => 1
  | .error _ => 2

variable (isDialable : κ → Bool)

/-- The candidates of the record that can be dialled, in its order. -/
def ProviderCandidates.dialable (provider : ProviderCandidates κ) : List (CandidateAddr κ) :=
  provider.addresses.filter fun addr => isDialable addr.kind

/-- The provider's candidates in dial order. -/
def dialCandidates (provider : ProviderCandidates κ) : List (CandidateAddr κ) :=
  (sortByKey dialRank (provider.dialable isDialable)).take maxDialCandidates

/-- A way to reach a peer: at a socket address, or by its identity through relays only. -/
inductive PeerTarget where
  | withAddr (peerId : Bytes32) (socket : SocketAddr) (networkId : String)
  | relayOnly (peerId : Bytes32) (networkId : String)
  deriving DecidableEq

/-- A candidate as a target, unless it is unresolvable. -/
def dialTarget (peerId : Bytes32) (networkId : String) (candidate : CandidateAddr κ) :
    Option (String × PeerTarget) :=
  match candidateSocket candidate with
  | .ok socket => some (socket.display, PeerTarget.withAddr peerId socket networkId)
  | .error _ => none

/-- Every way to reach a provider, in dial order, each with the text a failed dial names it by. -/
def providerDialTargets (providerPeerId : String → Option Bytes32) (networkId : String)
    (provider : ProviderCandidates κ) : Except DownloadError (List (String × PeerTarget)) :=
  match providerPeerId provider.providerPeerId with
  | none => .error (.transport provider.providerPeerId "malformed provider peer_id")
  | some peerId =>
      .ok ((dialCandidates isDialable provider).filterMap (dialTarget peerId networkId) ++
        [("relay-only", PeerTarget.relayOnly peerId networkId)])

end Candidates

/-! ## The order -/

/-- A host that is an IPv6 literal. -/
def CandidateAddr.isIpv6 {κ : Type} (addr : CandidateAddr κ) : Bool :=
  match IpAddr.fromStr addr.host with
  | some (.v6 _) => true
  | _ => false

/-- A host that is an IPv4 literal. -/
def CandidateAddr.isIpv4 {κ : Type} (addr : CandidateAddr κ) : Bool :=
  match IpAddr.fromStr addr.host with
  | some (.v4 _) => true
  | _ => false

def PeerTarget.isIpv4 : PeerTarget → Bool
  | .withAddr _ ⟨.v4 _, _⟩ _ => true
  | _ => false

section Order

variable {κ : Type} {addr : CandidateAddr κ}

theorem dialRank_lt_one : dialRank addr < 1 ↔ addr.isIpv6 = true := by
  cases hip : IpAddr.fromStr addr.host with
  | none => simp [dialRank, candidateSocket, CandidateAddr.isIpv6, hip]
  | some ip => cases ip <;> simp [dialRank, candidateSocket, CandidateAddr.isIpv6, hip]

theorem dialRank_eq_one : dialRank addr = 1 ↔ addr.isIpv4 = true := by
  cases hip : IpAddr.fromStr addr.host with
  | none => simp [dialRank, candidateSocket, CandidateAddr.isIpv4, hip]
  | some ip => cases ip <;> simp [dialRank, candidateSocket, CandidateAddr.isIpv4, hip]

variable {isDialable : κ → Bool} {providerPeerId : String → Option Bytes32} {networkId : String}
variable {provider : ProviderCandidates κ} {targets : List (String × PeerTarget)}

/-- The record has an IPv4 literal that can be dialled. -/
def ProviderCandidates.HasIpv4 (isDialable : κ → Bool) (provider : ProviderCandidates κ) : Prop :=
  ∃ addr ∈ provider.addresses, isDialable addr.kind = true ∧ addr.isIpv4 = true

theorem hasIpv4_iff :
    provider.HasIpv4 isDialable ↔ ∃ addr ∈ provider.dialable isDialable, dialRank addr = 1 := by
  simp only [ProviderCandidates.HasIpv4, ProviderCandidates.dialable, List.mem_filter,
    dialRank_eq_one, and_assoc]

/-- An IPv4 literal is among those tried unless IPv6 literals fill the cap. -/
theorem exists_isIpv4_mem_dialCandidates (h : provider.HasIpv4 isDialable) :
    (∃ addr ∈ dialCandidates isDialable provider, addr.isIpv4 = true) ↔
      ((provider.dialable isDialable).filter CandidateAddr.isIpv6).length < maxDialCandidates := by
  have hcut := exists_mem_take_sortByKey (n := maxDialCandidates) (hasIpv4_iff.mp h)
  simp only [dialRank_eq_one, dialRank_lt_one, Bool.decide_eq_true] at hcut
  exact hcut

/-- What is dialled: the resolvable ones of the candidates, and last the relays. -/
theorem providerDialTargets_eq_ok
    (h : providerDialTargets isDialable providerPeerId networkId provider = .ok targets) :
    ∃ peerId, providerPeerId provider.providerPeerId = some peerId ∧
      targets = (dialCandidates isDialable provider).filterMap (dialTarget peerId networkId) ++
        [("relay-only", PeerTarget.relayOnly peerId networkId)] := by
  rw [providerDialTargets] at h
  split at h
  · cases h
  · rename_i peerId hpeer
    cases h
    exact ⟨peerId, hpeer, rfl⟩

/-- An IPv4 literal among the candidates is among the targets. -/
theorem exists_isIpv4_mem_targets
    (h : providerDialTargets isDialable providerPeerId networkId provider = .ok targets)
    (hmem : ∃ addr ∈ dialCandidates isDialable provider, addr.isIpv4 = true) :
    ∃ target ∈ targets, target.2.isIpv4 = true := by
  obtain ⟨peerId, -, rfl⟩ := providerDialTargets_eq_ok h
  obtain ⟨addr, haddr, hipv4⟩ := hmem
  rw [CandidateAddr.isIpv4] at hipv4
  split at hipv4
  · rename_i v4 hip
    refine ⟨(SocketAddr.display ⟨.v4 v4, addr.port⟩,
      .withAddr peerId ⟨.v4 v4, addr.port⟩ networkId), List.mem_append_left _
        (List.mem_filterMap.mpr ⟨addr, haddr, ?_⟩), rfl⟩
    simp only [dialTarget, candidateSocket, hip]
  · cases hipv4

/-- The order and the bound of a dial list, and that it falls back to IPv4: whatever else the
record holds, a literal of it that can be dialled is tried, and dialled. -/
structure FallsBack (isDialable : κ → Bool) (providerPeerId : String → Option Bytes32)
    (networkId : String) (provider : ProviderCandidates κ) : Prop where
  sorted : (dialCandidates isDialable provider).Pairwise fun a b => dialRank a ≤ dialRank b
  recordOrder : ∀ rank,
    ((dialCandidates isDialable provider).filter fun addr => dialRank addr = rank) <+:
      (provider.dialable isDialable).filter fun addr => dialRank addr = rank
  bounded : (dialCandidates isDialable provider).length ≤ maxDialCandidates
  dialable : ∀ addr ∈ dialCandidates isDialable provider,
    addr ∈ provider.addresses ∧ isDialable addr.kind = true
  ipv4 : provider.HasIpv4 isDialable →
    ∃ addr ∈ dialCandidates isDialable provider, addr.isIpv4 = true
  target : provider.HasIpv4 isDialable →
    ∀ targets, providerDialTargets isDialable providerPeerId networkId provider = .ok targets →
      ∃ target ∈ targets, target.2.isIpv4 = true

/-- The dial list is in order and bounded for every record; it falls back to IPv4 exactly when
fewer IPv6 literals than the cap can be dialled, or there is no IPv4 literal to fall back to. -/
theorem fallsBack_iff (isDialable : κ → Bool) (providerPeerId : String → Option Bytes32)
    (networkId : String) (provider : ProviderCandidates κ) :
    FallsBack isDialable providerPeerId networkId provider ↔
      (provider.HasIpv4 isDialable →
        ((provider.dialable isDialable).filter CandidateAddr.isIpv6).length <
          maxDialCandidates) := by
  constructor
  · intro h hipv4
    exact (exists_isIpv4_mem_dialCandidates hipv4).mp (h.ipv4 hipv4)
  · intro h
    have htried : provider.HasIpv4 isDialable →
        ∃ addr ∈ dialCandidates isDialable provider, addr.isIpv4 = true :=
      fun hipv4 => (exists_isIpv4_mem_dialCandidates hipv4).mpr (h hipv4)
    constructor
    case sorted => exact pairwise_sortByKey.sublist (List.take_sublist _ _)
    case recordOrder => exact fun rank => filter_take_prefix
    case bounded => exact List.length_take_le _ _
    case dialable =>
      intro addr haddr
      exact List.mem_filter.mp (mem_sortByKey.mp (List.mem_of_mem_take haddr))
    case ipv4 => exact htried
    case target =>
      intro hipv4 targets htargets
      exact exists_isIpv4_mem_targets htargets (htried hipv4)

end Order

/-- Four IPv6 literals before an IPv4 one, all of a kind that can be dialled. -/
def paddedProvider : ProviderCandidates Unit where
  providerPeerId := holderA
  addresses :=
    [⟨"2001:db8::1", 9444, ()⟩, ⟨"2001:db8::2", 9444, ()⟩, ⟨"2001:db8::3", 9444, ()⟩,
      ⟨"2001:db8::4", 9444, ()⟩, ⟨"10.0.0.1", 9444, ()⟩]

/-- Four IPv6 literals hide an IPv4 one. -/
theorem not_fallsBack_padded :
    ¬ FallsBack (fun _ => true) hex32 "DIG_MAINNET" paddedProvider := by
  intro h
  have hipv4 : paddedProvider.HasIpv4 fun _ => true :=
    ⟨⟨"10.0.0.1", 9444, ()⟩, by decide +kernel, rfl, by decide +kernel⟩
  have htried := h.ipv4 hipv4
  revert htried
  decide +kernel

end DigDownload
