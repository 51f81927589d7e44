import DigDownload.Lib.Texts
import DigDownload.Basic

/-!
# Identifiers

An identity is 32 bytes and is written as 64 hexadecimal digits, in either letter case. Writing
what was read gives the lower case of the text, so that two texts name the same identity exactly
when they differ in letter case only.
-/

namespace DigDownload

open Texts (Every)

/-- 64 hexadecimal digits. -/
def IsHex64 (s : String) : Prop := s.toList.length = 64 ∧ Every (isAsciiHexdigit ·) s

instance (s : String) : Decidable (IsHex64 s) :=
  inferInstanceAs (Decidable (s.toList.length = 64 ∧ Every (isAsciiHexdigit ·) s))

/-- `str::to_ascii_lowercase`. -/
def toAsciiLowercase (s : String) : String := String.ofList (s.toList.map Char.toLower)

/-! ## Digits -/

theorem lt_of_isAsciiHexdigit {c : Char} (h : isAsciiHexdigit c = true) : c.toNat < 128 := by
  simp only [isAsciiHexdigit, Char.isDigit, Bool.or_eq_true, Bool.and_eq_true, decide_eq_true_eq,
    Char.le_def, UInt32.le_iff_toNat_le, ge_iff_le] at h
  have hval : c.toNat = c.val.toNat := rfl
  have hnine : ('9' : Char).val.toNat = 57 := rfl
  have hf : ('f' : Char).val.toNat = 102 := rfl
  have hF : ('F' : Char).val.toNat = 70 := rfl
  omega

/-- A digit is read as its value, which is written as the digit in lower case. -/
theorem hexValue_of_isAsciiHexdigit {c : Char} (h : isAsciiHexdigit c = true) :
    ∃ v, hexValue (UInt8.ofNat c.toNat) = some v ∧ v.toNat < 16 ∧ hexDigit v.toNat = c.toLower := by
  obtain ⟨v, hv, hdigit⟩ := Texts.ascii_forall (P := fun c => isAsciiHexdigit c = true →
      ∃ v : Fin 16, hexValue (UInt8.ofNat c.toNat) = some (UInt8.ofNat v) ∧
        hexDigit v = c.toLower)
    (by decide +kernel) (lt_of_isAsciiHexdigit h) h
  have hlt : (UInt8.ofNat v.val).toNat = v.val := by
    have := v.isLt
    simp only [UInt8.toNat_ofNat']
    omega
  refine ⟨UInt8.ofNat v.val, hv, ?_, ?_⟩
  · rw [hlt]
    exact v.isLt
  · rw [hlt]
    exact hdigit

/-- A plus sign is no digit. -/
theorem ne_plus_of_isAsciiHexdigit {c : Char} (h : isAsciiHexdigit c = true) :
    UInt8.ofNat c.toNat ≠ 43 :=
  Texts.ascii_forall (P := fun c => isAsciiHexdigit c = true → UInt8.ofNat c.toNat ≠ 43)
    (by decide +kernel) (lt_of_isAsciiHexdigit h) h

/-- Two digits are read as a byte, which is written as the digits in lower case. -/
theorem fromStrRadix16_of_isAsciiHexdigit {hi lo : Char} (hhi : isAsciiHexdigit hi = true)
    (hlo : isAsciiHexdigit lo = true) :
    ∃ b, fromStrRadix16 (UInt8.ofNat hi.toNat) (UInt8.ofNat lo.toNat) = some b ∧
      [hexDigit (b.toNat / 16), hexDigit (b.toNat % 16)] = [hi.toLower, lo.toLower] := by
  obtain ⟨h, hh, hhlt, hhdigit⟩ := hexValue_of_isAsciiHexdigit hhi
  obtain ⟨l, hl, hllt, hldigit⟩ := hexValue_of_isAsciiHexdigit hlo
  refine ⟨16 * h + l, ?_, ?_⟩
  · simp [fromStrRadix16, hh, hl, ne_plus_of_isAsciiHexdigit hhi]
  · have hbyte : (16 * h + l).toNat = 16 * h.toNat + l.toNat := by
      rw [UInt8.toNat_add, UInt8.toNat_mul, show (16 : UInt8).toNat = 16 from rfl]
      omega
    rw [hbyte, show (16 * h.toNat + l.toNat) / 16 = h.toNat by omega,
      show (16 * h.toNat + l.toNat) % 16 = l.toNat by omega, hhdigit, hldigit]

/-- A text of digits is read pair by pair, and what was read is written as the text in lower
case. -/
theorem hexPairs_of_isAsciiHexdigit : ∀ {cs : List Char}, cs.length % 2 = 0 →
    (∀ c ∈ cs, isAsciiHexdigit c = true) →
    ∃ out, hexPairs (cs.map fun c => UInt8.ofNat c.toNat) = some out ∧
      2 * out.length = cs.length ∧ hexOf out = String.ofList (cs.map Char.toLower)
  | [], _, _ => ⟨[], rfl, rfl, rfl⟩
  | [_], heven, _ => absurd heven (by simp)
  | hi :: lo :: rest, heven, hall => by
    have heven' : rest.length % 2 = 0 := by
      simp only [List.length_cons] at heven
      omega
    obtain ⟨b, hb, hdigits⟩ :=
      fromStrRadix16_of_isAsciiHexdigit (hall hi (by simp)) (hall lo (by simp))
    obtain ⟨out, hout, hlen, hlower⟩ := hexPairs_of_isAsciiHexdigit heven'
      fun c hc => hall c (List.mem_cons_of_mem _ (List.mem_cons_of_mem _ hc))
    refine ⟨b :: out, by simp [hexPairs, hb, hout], by simp only [List.length_cons]; omega, ?_⟩
    rw [hexOf, String.ofList_inj] at hlower ⊢
    rw [List.flatMap_cons, hdigits, hlower]
    rfl

/-! ## Identities -/

theorem bytes_of_isHex64 {s : String} (h : IsHex64 s) :
    Texts.bytes s = s.toList.map fun c => UInt8.ofNat c.toNat :=
  Texts.bytes_of_ascii fun c hc => lt_of_isAsciiHexdigit (h.2 c hc)

/-- 64 digits are 64 bytes. -/
theorem utf8ByteSize_of_isHex64 {s : String} (h : IsHex64 s) : s.utf8ByteSize = 64 := by
  rw [← Texts.length_bytes, bytes_of_isHex64 h, List.length_map, h.1]

/-- 64 digits are an identity, and it is written as they are in lower case. -/
theorem hex32_of_isHex64 {s : String} (h : IsHex64 s) :
    ∃ id, hex32 s = some id ∧ hexOf id = toAsciiLowercase s := by
  obtain ⟨out, hout, hlen, hlower⟩ := hexPairs_of_isAsciiHexdigit (by rw [h.1]) h.2
  rw [h.1] at hlen
  have hbytes : hexPairs s.toByteArray.data.toList = some out := by
    rw [show s.toByteArray.data.toList = Texts.bytes s from rfl, bytes_of_isHex64 h, hout]
  have hlen' : out.length = 32 := by omega
  exact ⟨⟨out, hlen'⟩, by simp [hex32, hbytes, hlen'], hlower⟩

/-- Bytes are written in one way. -/
theorem hexOf_inj : ∀ {a b : Bytes}, hexOf a = hexOf b → a = b
  | [], [], _ => rfl
  | [], _ :: _, h => by simp [hexOf] at h
  | _ :: _, [], h => by simp [hexOf] at h
  | x :: xs, y :: ys, h => by
    rw [hexOf, hexOf, String.ofList_inj] at h
    simp only [List.flatMap_cons, List.cons_append, List.nil_append, List.cons.injEq] at h
    obtain ⟨hhi, hlo, hrest⟩ := h
    have hdigit : ∀ m < 16, ∀ n < 16, hexDigit m = hexDigit n → m = n := by decide +kernel
    have hx := x.toNat_lt
    have hy := y.toNat_lt
    have hdiv := hdigit _ (by omega) _ (by omega) hhi
    have hmod := hdigit _ (by omega) _ (by omega) hlo
    have hxy : x = y := UInt8.toNat_inj.mp (by omega)
    have hrest' : xs = ys := hexOf_inj (by rw [hexOf, hexOf, hrest])
    rw [hxy, hrest']

/-- Two texts of 64 digits name one identity exactly when they differ in letter case only. -/
theorem hex32_eq_iff {s t : String} (hs : IsHex64 s) (ht : IsHex64 t) :
    hex32 s = hex32 t ↔ toAsciiLowercase s = toAsciiLowercase t := by
  obtain ⟨a, ha, hsa⟩ := hex32_of_isHex64 hs
  obtain ⟨b, hb, htb⟩ := hex32_of_isHex64 ht
  rw [ha, hb, ← hsa, ← htb, Option.some.injEq]
  constructor
  · intro hab
    rw [hab]
  · intro hab
    exact Subtype.ext (hexOf_inj hab)

end DigDownload
