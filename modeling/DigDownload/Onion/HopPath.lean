import DigDownload.Identifiers

/-!
# Hop paths

An ordered list of hops, entry first, on which a transfer is carried. The constructor refuses an
empty list, one that is too long and one that holds the same text twice, so that a path cannot
be without hops or name a hop twice in the same spelling. Texts are what it compares: two
spellings of one identity are two hops to it.
-/

namespace DigDownload

/-- The longest hop path. -/
def maxHopPath : Nat := 8

/-- Why a hop path is not usable. -/
inductive HopPathError where
  | empty
  | duplicateHop (hop : String)
  | tooLong (len : Nat)
  deriving DecidableEq, Repr

def HopPathError.display : HopPathError → String
  | .empty => "an onion hop path must contain at least one hop"
  | .duplicateHop hop => s!"hop {hop} appears more than once in the path"
  | .tooLong len => s!"an onion hop path may not exceed {maxHopPath} hops (got {len})"

/-- A hop path that is refused is an error of the state. -/
def DownloadError.ofHopPathError (e : HopPathError) : DownloadError := .state e.display

/-- A validated hop path. -/
structure HopPath where
  hops : List String
  ne_nil : hops ≠ []
  length_le : hops.length ≤ maxHopPath
  nodup : hops.Nodup

/-- The first hop that stands among the ones before it. -/
def firstRepeat (before : List String) : List String → Option String
  | [] => none
  | hop :: rest => if hop ∈ before then some hop else firstRepeat (before ++ [hop]) rest

theorem firstRepeat_eq_none {before hops : List String} :
    firstRepeat before hops = none ↔ hops.Nodup ∧ ∀ hop ∈ hops, hop ∉ before := by
  induction hops generalizing before with
  | nil => simp [firstRepeat]
  | cons hop rest ih =>
    rw [firstRepeat]
    split
    · rename_i hmem
      simp [hmem]
    · rename_i hfresh
      rw [ih, List.nodup_cons]
      constructor
      · intro h
        obtain ⟨hnodup, hnot⟩ := h
        refine ⟨⟨fun hmem => hnot hop hmem (by simp), hnodup⟩, fun other hother => ?_⟩
        cases hother with
        | head => exact hfresh
        | tail _ hmem => exact fun hbefore => hnot other hmem (by simp [hbefore])
      · intro h
        obtain ⟨⟨hnotin, hnodup⟩, hnot⟩ := h
        refine ⟨hnodup, fun other hother hbefore => ?_⟩
        cases List.mem_append.mp hbefore with
        | inl hbefore => exact hnot other (List.mem_cons_of_mem hop hother) hbefore
        | inr heq => exact hnotin (List.mem_singleton.mp heq ▸ hother)

/-- `HopPath::try_new`. -/
def HopPath.tryNew (hops : List String) : Except HopPathError HopPath :=
  if hne : hops = [] then .error .empty
  else if hlen : maxHopPath < hops.length then .error (.tooLong hops.length)
  else
    match hrepeat : firstRepeat [] hops with
    | some hop => .error (.duplicateHop hop)
    | none => .ok ⟨hops, hne, Nat.le_of_not_lt hlen, (firstRepeat_eq_none.mp hrepeat).1⟩

section Construction

variable {hops : List String} {path : HopPath}

/-- What is accepted: the list itself, if it is neither empty nor too long and holds no text
twice. -/
theorem tryNew_eq_ok :
    HopPath.tryNew hops = .ok path ↔
      path.hops = hops ∧ hops ≠ [] ∧ hops.length ≤ maxHopPath ∧ hops.Nodup := by
  unfold HopPath.tryNew
  constructor
  · intro h
    split at h
    · cases h
    rename_i hne
    split at h
    · cases h
    rename_i hlen
    split at h
    · cases h
    · rename_i hrepeat
      cases h
      exact ⟨rfl, hne, Nat.le_of_not_lt hlen, (firstRepeat_eq_none.mp hrepeat).1⟩
  · rintro ⟨rfl, hne, hlen, hnodup⟩
    have hrepeat : firstRepeat [] path.hops = none := firstRepeat_eq_none.mpr ⟨hnodup, by simp⟩
    rw [dif_neg hne, dif_neg (Nat.not_lt.mpr hlen)]
    split
    · rename_i hop hrepeat'
      rw [hrepeat] at hrepeat'
      cases hrepeat'
    · rfl

end Construction

/-! ## Identities -/

/-- The peer that an entry of a path denotes: 64 hexadecimal digits, in any letter case. -/
def hopIdentity (hop : String) : Option Bytes32 := if IsHex64 hop then hex32 hop else none

/-- Two spellings of one identity. -/
def Respelled (s t : String) : Prop :=
  IsHex64 s ∧ IsHex64 t ∧ s ≠ t ∧ toAsciiLowercase s = toAsciiLowercase t

/-- No two entries denote one peer. -/
def DistinctPeers (hops : List String) : Prop :=
  hops.Pairwise fun s t => ∀ peer, hopIdentity s = some peer → hopIdentity t ≠ some peer

/-- An accepted path is neither empty nor too long, and its entries denote different peers; and
a list of different ids in lower case that is neither empty nor too long is accepted. -/
def ValidatesPeers (hops : List String) : Prop :=
  (∀ path, HopPath.tryNew hops = .ok path →
      1 ≤ path.hops.length ∧ path.hops.length ≤ maxHopPath ∧ DistinctPeers path.hops) ∧
    ((∀ hop ∈ hops, IsHex64 hop ∧ toAsciiLowercase hop = hop) → hops.Nodup →
      1 ≤ hops.length → hops.length ≤ maxHopPath → ∃ path, HopPath.tryNew hops = .ok path)

section Identities

variable {hops : List String} {s t : String}

/-- Two different texts denote one peer exactly when they are two spellings of it. -/
theorem respelled_iff (h : s ≠ t) :
    Respelled s t ↔ ∃ peer, hopIdentity s = some peer ∧ hopIdentity t = some peer := by
  unfold hopIdentity
  constructor
  · rintro ⟨hs, ht, -, hlower⟩
    obtain ⟨peer, hpeer, -⟩ := hex32_of_isHex64 hs
    rw [if_pos hs, if_pos ht, ← (hex32_eq_iff hs ht).mpr hlower]
    exact ⟨peer, hpeer, hpeer⟩
  · rintro ⟨peer, hpeer, hpeer'⟩
    split at hpeer
    · rename_i hs
      split at hpeer'
      · rename_i ht
        exact ⟨hs, ht, h, (hex32_eq_iff hs ht).mp (hpeer.trans hpeer'.symm)⟩
      · cases hpeer'
    · cases hpeer

theorem distinctPeers_iff (h : hops.Nodup) :
    DistinctPeers hops ↔ hops.Pairwise fun s t => ¬ Respelled s t := by
  unfold DistinctPeers
  constructor
  · intro hdistinct
    refine (h.and hdistinct).imp fun {s t} hst hrespelled => ?_
    obtain ⟨peer, hpeer, hpeer'⟩ := (respelled_iff hst.1).mp hrespelled
    exact hst.2 peer hpeer hpeer'
  · intro hspelled
    refine (h.and hspelled).imp fun {s t} hst peer hpeer hpeer' => ?_
    exact hst.2 ((respelled_iff hst.1).mpr ⟨peer, hpeer, hpeer'⟩)

/-- The constructor keeps two peers apart exactly where it refuses the list for another reason,
or the list holds no two spellings of one id. -/
theorem validatesPeers_iff (hops : List String) :
    ValidatesPeers hops ↔ hops = [] ∨ maxHopPath < hops.length ∨ ¬ hops.Nodup ∨
      hops.Pairwise fun s t => ¬ Respelled s t := by
  have haccepts : (∀ hop ∈ hops, IsHex64 hop ∧ toAsciiLowercase hop = hop) → hops.Nodup →
      1 ≤ hops.length → hops.length ≤ maxHopPath → ∃ path, HopPath.tryNew hops = .ok path := by
    intro _ hnodup hone hlen
    have hne : hops ≠ [] := List.ne_nil_of_length_pos hone
    exact ⟨⟨hops, hne, hlen, hnodup⟩, tryNew_eq_ok.mpr ⟨rfl, hne, hlen, hnodup⟩⟩
  constructor
  · rintro ⟨hpath, -⟩
    by_cases hne : hops = []
    · exact Or.inl hne
    by_cases hlen : maxHopPath < hops.length
    · exact Or.inr (Or.inl hlen)
    by_cases hnodup : hops.Nodup
    · have hle := Nat.le_of_not_lt hlen
      obtain ⟨-, -, hdistinct⟩ :=
        hpath ⟨hops, hne, hle, hnodup⟩ (tryNew_eq_ok.mpr ⟨rfl, hne, hle, hnodup⟩)
      exact Or.inr (Or.inr (Or.inr ((distinctPeers_iff hnodup).mp hdistinct)))
    · exact Or.inr (Or.inr (Or.inl hnodup))
  · intro h
    refine ⟨fun path hok => ?_, haccepts⟩
    obtain ⟨hhops, hne, hlen, hnodup⟩ := tryNew_eq_ok.mp hok
    rw [hhops]
    refine ⟨List.length_pos_of_ne_nil hne, hlen, (distinctPeers_iff hnodup).mpr ?_⟩
    rcases h with hnil | hlong | hrepeats | hspelled
    · exact absurd hnil hne
    · exact absurd hlen (Nat.not_le.mpr hlong)
    · exact absurd hnodup hrepeats
    · exact hspelled

end Identities

/-- `holderA` in capital letters. -/
def holderUpperA : String := "AAAAAAAAAAAAAAAAAAAAAAAAAAAAAAAAAAAAAAAAAAAAAAAAAAAAAAAAAAAAAAAA"

/-- A path on which one peer stands twice, once in capital letters. -/
theorem not_validatesPeers_respelled : ¬ ValidatesPeers [holderA, holderUpperA] := by
  rintro ⟨hpath, -⟩
  have hnodup : [holderA, holderUpperA].Nodup := by simp [holderA, holderUpperA]
  obtain ⟨-, -, hdistinct⟩ := hpath ⟨[holderA, holderUpperA], by simp, by decide, hnodup⟩
    (tryNew_eq_ok.mpr ⟨rfl, by simp, by decide, hnodup⟩)
  have hidentity : hopIdentity holderA = hopIdentity holderUpperA := by decide +kernel
  obtain ⟨peer, hpeer⟩ : ∃ peer, hopIdentity holderA = some peer :=
    Option.isSome_iff_exists.mp (by decide +kernel)
  exact (List.pairwise_pair.mp hdistinct) peer hpeer (hidentity ▸ hpeer)

end DigDownload
