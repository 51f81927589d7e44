import DigDownload.Lib.Tiling
import DigDownload.Error

/-!
# Numbers, bytes and identifiers

`u64` values are natural numbers; the checked and saturating additions of the
source are partial and clamped additions on them. A content id names a store, one
generation of it, or one resource of a generation.
-/

namespace DigDownload

abbrev Bytes := List UInt8

/-! ## Machine arithmetic -/

def u64Max : Nat := 2 ^ 64 - 1

/-- `u64::checked_add`. -/
def checkedAdd (a b : Nat) : Option Nat := if a + b ≤ u64Max then some (a + b) else none

/-- `u64::saturating_add`. -/
def saturatingAdd (a b : Nat) : Nat := min (a + b) u64Max

theorem checkedAdd_eq_some {a b c : Nat} :
    checkedAdd a b = some c ↔ a + b ≤ u64Max ∧ c = a + b := by
  unfold checkedAdd
  by_cases h : a + b ≤ u64Max
  · simp [h, eq_comm]
  · simp [h]

theorem checkedAdd_of_le {a b : Nat} (h : a + b ≤ u64Max) : checkedAdd a b = some (a + b) :=
  if_pos h

/-- The checked running sum of a list of lengths, as a fold of `checked_add`. -/
def checkedSum (lens : List Nat) : Option Nat := lens.foldlM checkedAdd 0

theorem foldlM_checkedAdd {lens : List Nat} {acc total : Nat}
    (h : lens.foldlM checkedAdd acc = some total) :
    total = acc + lens.sum ∧ (lens ≠ [] → total ≤ u64Max) := by
  induction lens generalizing acc with
  | nil => simpa [eq_comm] using h
  | cons len rest ih =>
    rw [List.foldlM_cons, Option.bind_eq_bind, Option.bind_eq_some_iff] at h
    obtain ⟨acc', hacc, hrest⟩ := h
    obtain ⟨hle, rfl⟩ := checkedAdd_eq_some.mp hacc
    obtain ⟨htotal, hbound⟩ := ih hrest
    refine ⟨by rw [htotal, List.sum_cons, Nat.add_assoc], fun _ => ?_⟩
    cases rest with
    | nil => simpa [htotal] using hle
    | cons len' rest' => exact hbound (by simp)

theorem foldlM_checkedAdd_of_le {lens : List Nat} {acc : Nat} (h : acc + lens.sum ≤ u64Max) :
    lens.foldlM checkedAdd acc = some (acc + lens.sum) := by
  induction lens generalizing acc with
  | nil => rfl
  | cons len rest ih =>
    rw [List.sum_cons, ← Nat.add_assoc] at h
    rw [List.foldlM_cons, checkedAdd_of_le (Nat.le_trans (Nat.le_add_right _ _) h), List.sum_cons,
      ← Nat.add_assoc]
    exact ih h

/-- A checked sum that succeeds is the sum. -/
theorem checkedSum_eq_some {lens : List Nat} {total : Nat} :
    checkedSum lens = some total ↔ lens.sum ≤ u64Max ∧ total = lens.sum := by
  constructor
  · intro h
    obtain ⟨htotal, hbound⟩ := foldlM_checkedAdd h
    rw [Nat.zero_add] at htotal
    cases lens with
    | nil => exact ⟨Nat.zero_le _, htotal⟩
    | cons len rest => exact ⟨htotal ▸ hbound (by simp), htotal⟩
  · rintro ⟨hle, rfl⟩
    have hle' : 0 + lens.sum ≤ u64Max := by rwa [Nat.zero_add]
    rw [checkedSum, foldlM_checkedAdd_of_le hle', Nat.zero_add]

/-- `a - b`, which stops the program below zero. -/
def checkedSub (a b : Nat) : Option Nat := if b ≤ a then some (a - b) else none

/-- `bytes[a..b]`, which stops the program outside the slice. -/
def checkedSlice (bytes : Bytes) (a b : Nat) : Option Bytes :=
  if a ≤ b ∧ b ≤ bytes.length then some (Slices.slice bytes a (b - a)) else none

/-- `buf[a..b].copy_from_slice(source)`, which stops the program outside the buffer, and where
the lengths differ. -/
def checkedCopy (buf : Bytes) (a b : Nat) (source : Bytes) : Option Bytes :=
  if a ≤ b ∧ b ≤ buf.length ∧ source.length = b - a then
    some (buf.take a ++ source ++ buf.drop b)
  else none

theorem checkedSub_of_le {a b : Nat} (h : b ≤ a) : checkedSub a b = some (a - b) := if_pos h

theorem checkedSlice_of_le {bytes : Bytes} {a n : Nat} (h : a + n ≤ bytes.length) :
    checkedSlice bytes a (a + n) = some (Slices.slice bytes a n) := by
  rw [checkedSlice, if_pos ⟨Nat.le_add_right a n, h⟩, Nat.add_sub_cancel_left]

theorem checkedCopy_of_le {buf source : Bytes} {a : Nat} (h : a + source.length ≤ buf.length) :
    checkedCopy buf a (a + source.length) source
      = some (buf.take a ++ source ++ buf.drop (a + source.length)) := by
  rw [checkedCopy, if_pos ⟨Nat.le_add_right _ _, h, (Nat.add_sub_cancel_left ..).symm⟩]

/-! ## Hexadecimal -/

/-- `char::from_digit` for a hexadecimal digit. -/
def hexDigit (n : Nat) : Char := Char.ofNat (if n < 10 then 48 + n else 87 + n)

/-- Lower-case hexadecimal, two digits a byte. -/
def hexOf (digest : Bytes) : String :=
  String.ofList (digest.flatMap fun b => [hexDigit (b.toNat / 16), hexDigit (b.toNat % 16)])

/-- The value of one hexadecimal digit, given as an ASCII byte. -/
def hexValue (b : UInt8) : Option UInt8 :=
  if 48 ≤ b ∧ b ≤ 57 then some (b - 48)
  else if 97 ≤ b ∧ b ≤ 102 then some (b - 87)
  else if 65 ≤ b ∧ b ≤ 70 then some (b - 55)
  else none

/-- `u8::from_str_radix` on two ASCII bytes. A leading plus sign is accepted. -/
def fromStrRadix16 (hi lo : UInt8) : Option UInt8 := do
  let l ← hexValue lo
  if hi = 43 then some l else
  let h ← hexValue hi
  some (16 * h + l)

/-- A 32-byte value. -/
abbrev Bytes32 := { b : Bytes // b.length = 32 }

/-- Decode the bytes of a hexadecimal text pair by pair. -/
def hexPairs : List UInt8 → Option Bytes
  | hi :: lo :: rest => do
      let b ← fromStrRadix16 hi lo
      let bs ← hexPairs rest
      some (b :: bs)
  | [] => some []
  | [_] => none

/-- Decode a text of 64 hexadecimal digits. -/
def hex32 (s : String) : Option Bytes32 := do
  let bytes ← hexPairs s.toByteArray.data.toList
  if h : bytes.length = 32 then some ⟨bytes, h⟩ else none

/-! ## Content ids and holders -/

/-- What a download asks the network for. -/
inductive ContentId where
  | store (storeId : Bytes32)
  | root (storeId root : Bytes32)
  | resource (storeId root retrievalKey : Bytes32)
  deriving DecidableEq

/-- A located holder. Its id is free text off the wire, and so are its addresses. -/
structure ProviderRecord where
  providerPeerId : String
  addresses : List String
  deriving DecidableEq, Repr

/-! ## A small example

Three bytes and two holders, on which the theorems of this development are instantiated. -/

/-- SHA-256 of some short byte strings. -/
def smallDigests : List (Bytes × Bytes) :=
  [([],
     [227, 176, 196, 66, 152, 252, 28, 20, 154, 251, 244, 200, 153, 111, 185, 36, 39, 174,
      65, 228, 100, 155, 147, 76, 164, 149, 153, 27, 120, 82, 184, 85]),
   ([1],
     [75, 245, 18, 47, 52, 69, 84, 197, 59, 222, 46, 187, 140, 210, 183, 227, 209, 96, 10,
      214, 49, 195, 133, 165, 215, 204, 226, 60, 119, 133, 69, 154]),
   ([2],
     [219, 193, 180, 201, 0, 255, 228, 141, 87, 91, 93, 165, 198, 56, 4, 1, 37, 246, 93,
      176, 254, 62, 36, 73, 75, 118, 234, 152, 100, 87, 217, 134]),
   ([3],
     [8, 79, 237, 8, 185, 120, 175, 77, 125, 25, 106, 116, 70, 168, 107, 88, 0, 158, 99,
      107, 97, 29, 177, 98, 17, 182, 90, 154, 173, 255, 41, 197]),
   ([1, 2],
     [161, 40, 113, 254, 226, 16, 251, 134, 25, 41, 30, 174, 161, 148, 88, 28, 189, 37, 49,
      228, 178, 55, 89, 210, 37, 246, 128, 105, 35, 246, 50, 34]),
   ([2, 3],
     [238, 144, 64, 246, 92, 52, 24, 85, 224, 112, 255, 67, 142, 176, 234, 157, 91, 131,
      27, 42, 44, 39, 15, 183, 239, 89, 45, 117, 4, 8, 227, 179]),
   ([1, 2, 3],
     [3, 144, 88, 198, 242, 192, 203, 73, 44, 83, 59, 10, 77, 20, 239, 119, 204, 15, 120,
      171, 204, 206, 213, 40, 125, 132, 161, 162, 1, 28, 251, 129]),
   ([0],
     [110, 52, 11, 156, 255, 179, 122, 152, 156, 165, 68, 230, 187, 120, 10, 44, 120, 144,
      29, 63, 179, 55, 56, 118, 133, 17, 163, 6, 23, 175, 160, 29]),
   ([9],
     [43, 76, 52, 47, 84, 51, 235, 229, 145, 161, 218, 119, 224, 19, 209, 183, 36, 117, 86,
      45, 72, 87, 141, 202, 139, 132, 186, 198, 101, 28, 60, 185])]

def smallSha256 (bytes : Bytes) : Bytes := (smallDigests.lookup bytes).getD []

/-- Among the tabled byte strings nothing collides. -/
theorem smallSha256_inj {a b : Bytes} (ha : smallSha256 a ≠ [])
    (h : hexOf (smallSha256 a) = hexOf (smallSha256 b)) : a = b := by
  have htable : ∀ p ∈ smallDigests, ∀ q ∈ smallDigests, hexOf p.2 = hexOf q.2 → p.1 = q.1 := by
    decide +kernel
  have hne : ∀ p ∈ smallDigests, hexOf p.2 ≠ hexOf [] := by decide +kernel
  have hmem : ∀ {x d}, smallDigests.lookup x = some d → (x, d) ∈ smallDigests := by
    intro x d hx
    obtain ⟨l, r, hsplit, -⟩ := List.lookup_eq_some_iff.mp hx
    simp [hsplit]
  unfold smallSha256 at ha h
  cases hla : smallDigests.lookup a with
  | none => simp [hla] at ha
  | some d =>
    cases hlb : smallDigests.lookup b with
    | none => exact absurd (by simpa [hla, hlb] using h) (hne _ (hmem hla))
    | some d' => exact htable _ (hmem hla) _ (hmem hlb) (by simpa [hla, hlb] using h)

def holderA : String := "aaaaaaaaaaaaaaaaaaaaaaaaaaaaaaaaaaaaaaaaaaaaaaaaaaaaaaaaaaaaaaaa"

def holderB : String := "bbbbbbbbbbbbbbbbbbbbbbbbbbbbbbbbbbbbbbbbbbbbbbbbbbbbbbbbbbbbbbbb"

end DigDownload
