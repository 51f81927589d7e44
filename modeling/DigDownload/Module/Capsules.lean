import DigDownload.Identifiers
import DigDownload.Module.Pull

/-!
# The ids of a capsule

`hex32` cuts a text of 64 bytes into 32 slices of two bytes. A slice that ends inside of a
character stops the program, and a slice of a plus sign and a digit is a byte to
`u8::from_str_radix`. The texts on which the parser keeps to its grammar, 64 hexadecimal
digits, are those without either.
-/

namespace DigDownload

/-! ## The parser, slice by slice -/

/-- `str::is_char_boundary`. -/
def isCharBoundary (text : Bytes) (k : Nat) : Bool :=
  k == 0 || k == text.length || text[k]?.any fun b => b.toNat < 128 || 192 ≤ b.toNat

/-- `&s[a..b]`, which stops the program where a character is cut. -/
def strSlice (text : Bytes) (a b : Nat) : Option Bytes :=
  if a ≤ b ∧ isCharBoundary text a = true ∧ isCharBoundary text b = true then
    some (Slices.slice text a (b - a))
  else none

/-- `u8::from_str_radix` on a slice of two bytes. -/
def readPair : Bytes → Option UInt8
  | [hi, lo] => fromStrRadix16 hi lo
  | _ => none

/-- The loop of `hex32` over the `n` last bytes of its answer, from the `i`-th byte on. It stops
the program, or it answers with the bytes or that there are none. -/
def hex32From (text : Bytes) : Nat → Nat → Option (Option Bytes)
  | 0, _ => some (some [])
  | n + 1, i =>
      match strSlice text (i * 2) (i * 2 + 2) with
      | none => none
      | some pair =>
          match readPair pair with
          | none => some none
          | some b => (hex32From text n (i + 1)).map (Option.map (b :: ·))

/-- `hex32`. -/
def hex32Checked (s : String) : Option (Option Bytes32) :=
  if s.utf8ByteSize = 64 then
    (hex32From (Texts.bytes s) 32 0).map fun out => out.bind fun bytes =>
      if h : bytes.length = 32 then some ⟨bytes, h⟩ else none
  else some none

/-- `module_content_id`. -/
def moduleContentIdChecked (storeId root : String) : Option (Option ContentId) :=
  match hex32Checked storeId with
  | none => none
  | some none => some none
  | some (some store) =>
      match hex32Checked root with
      | none => none
      | some none => some none
      | some (some generation) => some (some (.root store generation))

/-! ## What the parser takes -/

/-- A hexadecimal digit as a byte. -/
def IsHexByte (b : UInt8) : Prop := 48 ≤ b ∧ b ≤ 57 ∨ 97 ≤ b ∧ b ≤ 102 ∨ 65 ≤ b ∧ b ≤ 70

instance (b : UInt8) : Decidable (IsHexByte b) :=
  inferInstanceAs (Decidable (48 ≤ b ∧ b ≤ 57 ∨ 97 ≤ b ∧ b ≤ 102 ∨ 65 ≤ b ∧ b ≤ 70))

/-- The `j`-th pair of bytes is two digits, or a plus sign and a digit. -/
def PairReads (text : Bytes) (j : Nat) : Prop :=
  ∃ hi lo, text[2 * j]? = some hi ∧ text[2 * j + 1]? = some lo ∧
    (hi = 43 ∨ IsHexByte hi) ∧ IsHexByte lo

/-- From the `i`-th on, all 32 pairs are read. -/
def ReadsFrom (text : Bytes) (i : Nat) : Prop := ∀ j, i ≤ j → j < 32 → PairReads text j

/-- After pairs that are read, from the `i`-th on, comes one that ends inside of a character. -/
def CutFrom (text : Bytes) (i : Nat) : Prop :=
  ∃ k, i ≤ k ∧ k < 32 ∧ (∀ j, i ≤ j → j < k → PairReads text j) ∧
    isCharBoundary text (2 * k + 2) = false

/-- A text of 64 bytes that the parser reads to its end. -/
def Reads (s : String) : Prop := s.utf8ByteSize = 64 ∧ ReadsFrom (Texts.bytes s) 0

/-- A text of 64 bytes in which the parser comes to a pair that ends inside of a character. -/
def Cut (s : String) : Prop := s.utf8ByteSize = 64 ∧ CutFrom (Texts.bytes s) 0

section Parser

variable {text : Bytes} {n i j : Nat} {hi lo : UInt8}

theorem hexValue_isSome {b : UInt8} : (hexValue b).isSome = true ↔ IsHexByte b := by
  unfold hexValue IsHexByte
  split
  · simp [*]
  split
  · simp [*]
  split
  · simp [*]
  · simp [*]

theorem fromStrRadix16_isSome :
    (fromStrRadix16 hi lo).isSome = true ↔ (hi = 43 ∨ IsHexByte hi) ∧ IsHexByte lo := by
  rw [← hexValue_isSome, ← hexValue_isSome]
  unfold fromStrRadix16
  cases hexValue lo with
  | none => simp
  | some l =>
    by_cases hplus : hi = 43
    · simp [hplus]
    · cases hexValue hi with
      | none => simp [hplus]
      | some h => simp [hplus]

/-- What a text of 64 bytes holds from a pair on. -/
theorem drop_pair (hlen : text.length = 64) (h : i < 32) :
    ∃ hi lo, text[2 * i]? = some hi ∧ text[2 * i + 1]? = some lo ∧
      text.drop (2 * i) = hi :: lo :: text.drop (2 * (i + 1)) := by
  have h₁ : 2 * i < text.length := by omega
  have h₂ : 2 * i + 1 < text.length := by omega
  refine ⟨text[2 * i], text[2 * i + 1], List.getElem?_eq_getElem h₁, List.getElem?_eq_getElem h₂,
    ?_⟩
  rw [List.drop_eq_getElem_cons h₁, List.drop_eq_getElem_cons h₂]
  rfl

/-- What the loop of the parser comes to from a pair on. -/
inductive Outcome (text : Bytes) (i : Nat) : Option (Option Bytes) → Prop where
  | cut : CutFrom text i → Outcome text i none
  | reads {out : Bytes} : ReadsFrom text i → hexPairs (text.drop (2 * i)) = some out →
      Outcome text i (some (some out))
  | refused : ¬ CutFrom text i → ¬ ReadsFrom text i → hexPairs (text.drop (2 * i)) = none →
      Outcome text i (some none)

theorem CutFrom.pair (h : PairReads text i) (hcut : CutFrom text (i + 1)) : CutFrom text i := by
  obtain ⟨k, hik, hk, hreads, hinside⟩ := hcut
  refine ⟨k, Nat.le_of_succ_le hik, hk, fun j hij hjk => ?_, hinside⟩
  cases Nat.eq_or_lt_of_le hij with
  | inl heq => exact heq ▸ h
  | inr hlt => exact hreads j hlt hjk

/-- A pair that ends between two characters is not the one that is cut. -/
theorem CutFrom.tail (hb : isCharBoundary text (2 * i + 2) = true) (hcut : CutFrom text i) :
    PairReads text i ∧ CutFrom text (i + 1) := by
  obtain ⟨k, hik, hk, hreads, hinside⟩ := hcut
  cases Nat.eq_or_lt_of_le hik with
  | inl heq =>
    subst heq
    rw [hb] at hinside
    cases hinside
  | inr hlt =>
    exact ⟨hreads i (Nat.le_refl i) hlt,
      ⟨k, hlt, hk, fun j hij hjk => hreads j (Nat.le_of_succ_le hij) hjk, hinside⟩⟩

theorem readsFrom_succ (h : PairReads text i) : ReadsFrom text i ↔ ReadsFrom text (i + 1) := by
  constructor
  · intro hreads j hij hj
    exact hreads j (Nat.le_of_succ_le hij) hj
  · intro hreads j hij hj
    cases Nat.eq_or_lt_of_le hij with
    | inl heq => exact heq ▸ h
    | inr hlt => exact hreads j hlt hj

/-- The loop stops the program at a pair that is cut, and reads the rest as pairs. -/
theorem hex32From_outcome (hlen : text.length = 64) (hn : i + n = 32)
    (hb : isCharBoundary text (2 * i) = true) : Outcome text i (hex32From text n i) := by
  induction n generalizing i with
  | zero =>
    have hi : i = 32 := hn
    subst hi
    refine .reads (fun j hij hj => absurd hj (Nat.not_lt.mpr hij)) ?_
    rw [List.drop_eq_nil_of_le (by omega)]
    rfl
  | succ n ih =>
    have hi : i < 32 := by omega
    obtain ⟨hi', lo, hhi, hlo, hdrop⟩ := drop_pair hlen hi
    rw [hex32From, strSlice, Nat.mul_comm i 2]
    cases hnext : isCharBoundary text (2 * i + 2) with
    | false =>
      simp only [Bool.false_eq_true, and_false, if_false]
      exact .cut ⟨i, Nat.le_refl i, hi, fun j hij hji => absurd hij (Nat.not_le.mpr hji), hnext⟩
    | true =>
      rw [if_pos ⟨Nat.le_add_right _ _, hb, rfl⟩]
      have hslice : Slices.slice text (2 * i) (2 * i + 2 - 2 * i) = [hi', lo] := by
        rw [Slices.slice, hdrop, Nat.add_sub_cancel_left]
        rfl
      rw [hslice]
      dsimp only [readPair]
      cases hpair : fromStrRadix16 hi' lo with
      | none =>
        have hnot : ¬ PairReads text i := by
          rintro ⟨hi'', lo', hhi', hlo', hread⟩
          rw [hhi, Option.some.injEq] at hhi'
          rw [hlo, Option.some.injEq] at hlo'
          subst hhi' hlo'
          have hsome := fromStrRadix16_isSome.mpr hread
          rw [hpair] at hsome
          cases hsome
        refine .refused (fun hcut => hnot (hcut.tail hnext).1)
          (fun hreads => hnot (hreads i (Nat.le_refl i) hi)) ?_
        rw [hdrop]
        simp [hexPairs, hpair]
      | some b =>
        have hread : PairReads text i :=
          ⟨hi', lo, hhi, hlo, fromStrRadix16_isSome.mp (by rw [hpair]; rfl)⟩
        have hrest : Outcome text (i + 1) (hex32From text n (i + 1)) := ih (by omega) hnext
        generalize hex32From text n (i + 1) = r at hrest
        cases hrest with
        | cut hcut => exact .cut (hcut.pair hread)
        | @reads out hreads hout =>
          refine .reads ((readsFrom_succ hread).mpr hreads) ?_
          rw [hdrop]
          simp [hexPairs, hpair, hout]
        | refused hcut hreads hout =>
          refine .refused (fun h => hcut (h.tail hnext).2)
            (fun h => hreads ((readsFrom_succ hread).mp h)) ?_
          rw [hdrop]
          simp [hexPairs, hpair, hout]

end Parser

/-! ## Which texts are read -/

theorem isHexByte_of_isAsciiHexdigit {c : Char} (h : isAsciiHexdigit c = true) :
    IsHexByte (UInt8.ofNat c.toNat) :=
  Texts.ascii_forall (P := fun c => isAsciiHexdigit c = true → IsHexByte (UInt8.ofNat c.toNat))
    (by decide +kernel) (lt_of_isAsciiHexdigit h) h

theorem isAsciiHexdigit_of_isHexByte {c : Char} (hc : c.toNat < 128)
    (h : IsHexByte (UInt8.ofNat c.toNat)) : isAsciiHexdigit c = true :=
  Texts.ascii_forall (P := fun c => IsHexByte (UInt8.ofNat c.toNat) → isAsciiHexdigit c = true)
    (by decide +kernel) hc h

theorem eq_plus_of_byte {c : Char} (hc : c.toNat < 128) (h : UInt8.ofNat c.toNat = 43) : c = '+' :=
  Texts.ascii_forall (P := fun c => UInt8.ofNat c.toNat = 43 → c = '+') (by decide +kernel) hc h

theorem IsHexByte.lt {b : UInt8} (h : IsHexByte b) : b.toNat < 128 := by
  simp only [IsHexByte, UInt8.le_iff_toNat_le] at h
  have hnine : (57 : UInt8).toNat = 57 := rfl
  have hf : (102 : UInt8).toNat = 102 := rfl
  have hF : (70 : UInt8).toNat = 70 := rfl
  omega

/-- A pair that is read starts on a plus sign or a digit. -/
theorem PairReads.lt {text : Bytes} {j : Nat} (h : PairReads text j) {hi : UInt8}
    (hhi : text[2 * j]? = some hi) : hi.toNat < 128 := by
  obtain ⟨hi', lo, hhi', -, hfirst, -⟩ := h
  rw [hhi, Option.some.injEq] at hhi'
  subst hhi'
  cases hfirst with
  | inl hplus =>
    subst hplus
    decide
  | inr hdigit => exact hdigit.lt

/-- In a text that is read nothing is cut. -/
theorem ReadsFrom.not_cut {text : Bytes} (hlen : text.length = 64) (h : ReadsFrom text 0) :
    ¬ CutFrom text 0 := by
  rintro ⟨k, -, hk, -, hinside⟩
  rw [isCharBoundary] at hinside
  by_cases hlast : k = 31
  · subst hlast
    simp [hlen] at hinside
  · obtain ⟨hi, lo, hhi, -, -⟩ := drop_pair hlen (i := k + 1) (by omega)
    have hlt := (h (k + 1) (Nat.zero_le _) (by omega)).lt hhi
    rw [show 2 * (k + 1) = 2 * k + 2 by omega] at hhi
    rw [hhi] at hinside
    simp at hinside
    omega

/-- 64 digits are what the parser reads, but for the plus signs. -/
theorem isHex64_iff {s : String} : IsHex64 s ↔ Reads s ∧ '+' ∉ s.toList := by
  constructor
  · intro h
    refine ⟨⟨utf8ByteSize_of_isHex64 h, fun j _ hj => ?_⟩, fun hplus => ?_⟩
    · have hpair : ∀ m < 64, ∃ b, (Texts.bytes s)[m]? = some b ∧ IsHexByte b := by
        intro m hm
        have hm' : m < s.toList.length := by rw [h.1]; exact hm
        refine ⟨UInt8.ofNat (s.toList[m]).toNat, ?_,
          isHexByte_of_isAsciiHexdigit (h.2 _ (List.getElem_mem hm'))⟩
        rw [bytes_of_isHex64 h, List.getElem?_map, List.getElem?_eq_getElem hm', Option.map_some]
      obtain ⟨hi, hhi, hhi'⟩ := hpair (2 * j) (by omega)
      obtain ⟨lo, hlo, hlo'⟩ := hpair (2 * j + 1) (by omega)
      exact ⟨hi, lo, hhi, hlo, Or.inr hhi', hlo'⟩
    · have hdigit := h.2 _ hplus
      revert hdigit
      decide
  · rintro ⟨⟨hsize, hreads⟩, hplus⟩
    have hbyte : ∀ b ∈ Texts.bytes s, b = 43 ∨ IsHexByte b := by
      intro b hb
      obtain ⟨m, hm, rfl⟩ := List.mem_iff_getElem.mp hb
      have hm' : m < 64 := by rw [← hsize, ← Texts.length_bytes]; exact hm
      obtain ⟨hi, lo, hhi, hlo, hfirst, hsecond⟩ := hreads (m / 2) (Nat.zero_le _) (by omega)
      rcases Nat.mod_two_eq_zero_or_one m with heven | hodd
      · rw [show 2 * (m / 2) = m by omega, List.getElem?_eq_getElem hm, Option.some.injEq] at hhi
        exact hhi ▸ hfirst
      · rw [show 2 * (m / 2) + 1 = m by omega, List.getElem?_eq_getElem hm, Option.some.injEq]
          at hlo
        exact Or.inr (hlo ▸ hsecond)
    have hascii : ∀ c ∈ s.toList, c.toNat < 128 := Texts.ascii_of_bytes fun b hb => by
      cases hbyte b hb with
      | inl heq =>
        subst heq
        decide
      | inr hdigit => exact hdigit.lt
    have hbytes := Texts.bytes_of_ascii hascii
    constructor
    · rw [← hsize, ← Texts.length_bytes, hbytes, List.length_map]
    · intro c hc
      have hmem : UInt8.ofNat c.toNat ∈ Texts.bytes s := by
        rw [hbytes]
        exact List.mem_map_of_mem hc
      cases hbyte _ hmem with
      | inl heq => exact absurd (eq_plus_of_byte (hascii c hc) heq ▸ hc) hplus
      | inr hdigit => exact isAsciiHexdigit_of_isHexByte (hascii c hc) hdigit

/-! ## What the parser answers -/

theorem length_of_hexPairs : ∀ {text out : Bytes}, hexPairs text = some out →
    text.length = 2 * out.length
  | [], out, h => by
    simp only [hexPairs, Option.some.injEq] at h
    rw [← h]
    rfl
  | [_], _, h => by simp [hexPairs] at h
  | hi :: lo :: rest, out, h => by
    simp only [hexPairs, Option.bind_eq_bind, Option.bind_eq_some_iff, Option.some.injEq] at h
    obtain ⟨b, -, bs, hbs, rfl⟩ := h
    simp only [List.length_cons, length_of_hexPairs hbs]
    omega

/-- What the parser comes to on a text. -/
inductive Parse (s : String) : Option (Option Bytes32) → Prop where
  | cut : Cut s → Parse s none
  | reads {id : Bytes32} : Reads s → ¬ Cut s → hex32 s = some id → Parse s (some (some id))
  | refused : ¬ Cut s → ¬ Reads s → hex32 s = none → Parse s (some none)

theorem hex32Checked_parse (s : String) : Parse s (hex32Checked s) := by
  unfold hex32Checked
  split
  · rename_i hsize
    have hlen : (Texts.bytes s).length = 64 := by rw [Texts.length_bytes, hsize]
    have hdrop : hexPairs ((Texts.bytes s).drop (2 * 0)) = hexPairs s.toByteArray.data.toList := rfl
    have hout := hex32From_outcome hlen (n := 32) (Nat.zero_add 32) rfl
    generalize hex32From (Texts.bytes s) 32 0 = r at hout
    cases hout with
    | cut hcut => exact .cut ⟨hsize, hcut⟩
    | @reads out hreads hpairs =>
      rw [hdrop] at hpairs
      have hlen' : out.length = 32 := by
        have htwice := length_of_hexPairs hpairs
        rw [show s.toByteArray.data.toList = Texts.bytes s from rfl, hlen] at htwice
        omega
      simp only [Option.map_some, Option.bind_some, dif_pos hlen']
      exact .reads ⟨hsize, hreads⟩ (fun hcut => hreads.not_cut hlen hcut.2)
        (by simp [hex32, hpairs, hlen'])
    | refused hcut hreads hpairs =>
      rw [hdrop] at hpairs
      exact .refused (fun h => hcut h.2) (fun h => hreads h.2) (by simp [hex32, hpairs])
  · rename_i hsize
    refine .refused (fun h => hsize h.1) (fun h => hsize h.1) ?_
    cases hpairs : hexPairs s.toByteArray.data.toList with
    | none => simp [hex32, hpairs]
    | some out =>
      have htwice := length_of_hexPairs hpairs
      rw [show s.toByteArray.data.toList = Texts.bytes s from rfl, Texts.length_bytes] at htwice
      have hlen' : out.length ≠ 32 := by omega
      simp [hex32, hpairs, hlen']

/-! ## The grammar of the parser -/

/-- `module_content_id` answers as it documents: with a content id on two texts of 64 digits
each, which are the ids of it in lower case, and with none on any other two. -/
def ReadsExactly (storeId root : String) : Prop :=
  ∃ answer, moduleContentIdChecked storeId root = some answer ∧
    (answer.isSome = true ↔ IsHex64 storeId ∧ IsHex64 root) ∧
    ∀ content, answer = some content → ∃ a b, content = .root a b ∧
      hexOf a = toAsciiLowercase storeId ∧ hexOf b = toAsciiLowercase root

section Exact

variable {storeId root : String}

/-- The pull goes on with what the parser answers. -/
theorem moduleContentId_of_checked {answer : Option ContentId}
    (h : moduleContentIdChecked storeId root = some answer) :
    moduleContentId ⟨storeId, root⟩ = answer := by
  rw [moduleContentIdChecked] at h
  have hstore := hex32Checked_parse storeId
  generalize hex32Checked storeId = r at h hstore
  cases hstore with
  | cut => cases h
  | refused hcut hreads hnone =>
    cases h
    simp [moduleContentId, hnone]
  | @reads id hreads hcut hid =>
    dsimp only at h
    have hroot := hex32Checked_parse root
    generalize hex32Checked root = r at h hroot
    cases hroot with
    | cut => cases h
    | refused hcut hreads hnone =>
      cases h
      simp [moduleContentId, hid, hnone]
    | @reads id' hreads' hcut' hid' =>
      cases h
      simp [moduleContentId, hid, hid']

/-- What two texts that are read come to. -/
theorem readsExactly_of_reads {a b : Bytes32} (hstore : Reads storeId) (hroot : Reads root)
    (ha : hex32 storeId = some a) (hb : hex32 root = some b)
    (h : moduleContentIdChecked storeId root = some (some (.root a b))) :
    ReadsExactly storeId root ↔ '+' ∉ storeId.toList ∧ '+' ∉ root.toList := by
  constructor
  · rintro ⟨answer, hanswer, hexact, -⟩
    rw [h, Option.some.injEq] at hanswer
    obtain ⟨hs, hr⟩ := hexact.mp (by rw [← hanswer]; rfl)
    exact ⟨(isHex64_iff.mp hs).2, (isHex64_iff.mp hr).2⟩
  · rintro ⟨hs, hr⟩
    have hs' := isHex64_iff.mpr ⟨hstore, hs⟩
    have hr' := isHex64_iff.mpr ⟨hroot, hr⟩
    refine ⟨_, h, iff_of_true rfl ⟨hs', hr'⟩, fun content hcontent => ?_⟩
    cases hcontent
    obtain ⟨a', ha', hlower⟩ := hex32_of_isHex64 hs'
    obtain ⟨b', hb', hlower'⟩ := hex32_of_isHex64 hr'
    rw [ha, Option.some.injEq] at ha'
    rw [hb, Option.some.injEq] at hb'
    exact ⟨a, b, rfl, ha' ▸ hlower, hb' ▸ hlower'⟩

/-- A text that is not read is not 64 digits. -/
theorem not_isHex64_of_not_reads {s : String} (h : ¬ Reads s) : ¬ IsHex64 s := fun hs =>
  h (isHex64_iff.mp hs).1

/-- The parser keeps to its grammar exactly on the texts that it comes to no cut character in,
and that hold no plus sign if it reads both. -/
theorem readsExactly_iff (storeId root : String) :
    ReadsExactly storeId root ↔
      ¬ Cut storeId ∧ (Reads storeId → ¬ Cut root ∧
        (Reads root → '+' ∉ storeId.toList ∧ '+' ∉ root.toList)) := by
  obtain ⟨r, hr⟩ : ∃ r, hex32Checked storeId = r := ⟨_, rfl⟩
  have hstore := hex32Checked_parse storeId
  rw [hr] at hstore
  cases hstore with
  | cut hcut =>
    refine iff_of_false ?_ fun h => h.1 hcut
    rintro ⟨answer, hanswer, -⟩
    simp [moduleContentIdChecked, hr] at hanswer
  | refused hcut hreads =>
    refine iff_of_true ⟨none, by rw [moduleContentIdChecked, hr], ?_, fun content h => by cases h⟩
      ⟨hcut, fun h => absurd h hreads⟩
    exact iff_of_false (by simp) fun h => not_isHex64_of_not_reads hreads h.1
  | @reads id hreads hcut hid =>
    obtain ⟨r', hr'⟩ : ∃ r', hex32Checked root = r' := ⟨_, rfl⟩
    have hroot := hex32Checked_parse root
    rw [hr'] at hroot
    cases hroot with
    | cut hcut' =>
      refine iff_of_false ?_ fun h => (h.2 hreads).1 hcut'
      rintro ⟨answer, hanswer, -⟩
      simp [moduleContentIdChecked, hr, hr'] at hanswer
    | refused hcut' hreads' =>
      have hnone : moduleContentIdChecked storeId root = some none := by
        simp only [moduleContentIdChecked, hr, hr']
      refine iff_of_true ⟨none, hnone, ?_, fun content h => by cases h⟩
        ⟨hcut, fun _ => ⟨hcut', fun h => absurd h hreads'⟩⟩
      exact iff_of_false (by simp) fun h => not_isHex64_of_not_reads hreads' h.2
    | @reads id' hreads' hcut' hid' =>
      have hsome : moduleContentIdChecked storeId root = some (some (.root id id')) := by
        simp only [moduleContentIdChecked, hr, hr']
      rw [readsExactly_of_reads hreads hreads' hid hid' hsome]
      constructor
      · intro hplus
        exact ⟨hcut, fun _ => ⟨hcut', fun _ => hplus⟩⟩
      · intro h
        exact (h.2 hreads).2 hreads'

end Exact

/-- A plus sign and a digit, 32 times. -/
def plusId : String := String.ofList (List.replicate 32 ['+', 'a']).flatten

/-- A digit, a letter of two bytes and 61 more digits. -/
def cutId : String := String.ofList ('a' :: 'é' :: List.replicate 61 'a')

/-- Plus signs are read as digits, and a letter across two slices stops the program. -/
theorem not_readsExactly_plus_cut :
    ¬ ReadsExactly plusId holderA ∧ ¬ ReadsExactly cutId holderA := by
  have hplus : (moduleContentIdChecked plusId holderA).map Option.isSome = some true := by
    decide +kernel
  have hcut : moduleContentIdChecked cutId holderA = none := by decide +kernel
  constructor
  · rintro ⟨answer, hanswer, hexact, -⟩
    rw [hanswer, Option.map_some, Option.some.injEq] at hplus
    exact absurd (hexact.mp hplus).1 (by decide +kernel)
  · rintro ⟨answer, hanswer, -⟩
    rw [hcut] at hanswer
    cases hanswer

end DigDownload
