import Mathlib.Algebra.GroupWithZero.Nat
import Mathlib.Data.List.Basic

/-!
# Texts

A text is a list of characters and, encoded, a list of bytes. An ASCII character is one byte
and any other character has no byte below 128, so that what is ASCII about the one list is
ASCII about the other. A condition on characters and a bound on bytes are read off the parts
a text is put together from: a concatenation, a list of characters, a number.
-/

namespace Texts

/-! ## The bytes of a text -/

/-- The bytes of a text in UTF-8. -/
def bytes (s : String) : List UInt8 := s.toByteArray.data.toList

theorem bytes_eq (s : String) : bytes s = s.toList.flatMap String.utf8EncodeChar := by
  rw [bytes, ← String.utf8Encode_toList]
  simp [List.utf8Encode]

@[simp] theorem length_bytes (s : String) : (bytes s).length = s.utf8ByteSize := by
  rw [bytes, ← String.size_toByteArray]
  rfl

/-- What holds of the 128 ASCII characters. -/
theorem ascii_forall {P : Char → Prop} (h : ∀ n < 128, P (Char.ofNat n)) {c : Char}
    (hc : c.toNat < 128) : P c := by
  have hP := h c.toNat hc
  rwa [Char.ofNat_toNat] at hP

theorem utf8EncodeChar_of_lt {c : Char} (h : c.toNat < 128) :
    String.utf8EncodeChar c = [UInt8.ofNat c.toNat] := by
  unfold String.utf8EncodeChar
  rw [if_pos (show c.val.toNat ≤ 127 from Nat.le_of_lt_succ h)]
  rfl

theorem le_of_mem_utf8EncodeChar {c : Char} (h : 128 ≤ c.toNat) {b : UInt8}
    (hb : b ∈ String.utf8EncodeChar c) : 128 ≤ b.toNat := by
  have hval : c.val.toNat = c.toNat := rfl
  unfold String.utf8EncodeChar at hb
  simp only [hval] at hb
  split at hb
  · omega
  split at hb
  · simp at hb
    rcases hb with rfl | rfl <;> simp <;> omega
  split at hb
  · simp at hb
    rcases hb with rfl | rfl | rfl <;> simp <;> omega
  · simp at hb
    rcases hb with rfl | rfl | rfl | rfl <;> simp <;> omega

theorem flatMap_utf8EncodeChar {cs : List Char} (h : ∀ c ∈ cs, c.toNat < 128) :
    cs.flatMap String.utf8EncodeChar = cs.map fun c => UInt8.ofNat c.toNat := by
  induction cs with
  | nil => rfl
  | cons c cs ih =>
    rw [List.flatMap_cons, List.map_cons, utf8EncodeChar_of_lt (h c List.mem_cons_self),
      ih fun d hd => h d (List.mem_cons_of_mem c hd)]
    rfl

/-- The bytes of an ASCII text are its characters. -/
theorem bytes_of_ascii {s : String} (h : ∀ c ∈ s.toList, c.toNat < 128) :
    bytes s = s.toList.map fun c => UInt8.ofNat c.toNat := by
  rw [bytes_eq, flatMap_utf8EncodeChar h]

/-- A text of ASCII bytes is an ASCII text. -/
theorem ascii_of_bytes {s : String} (h : ∀ b ∈ bytes s, b.toNat < 128) :
    ∀ c ∈ s.toList, c.toNat < 128 := by
  intro c hc
  refine Nat.lt_of_not_le fun hle => ?_
  have hne : String.utf8EncodeChar c ≠ [] := String.utf8EncodeChar_ne_nil
  obtain ⟨b, hb⟩ := List.exists_mem_of_ne_nil _ hne
  have hmem : b ∈ bytes s := by
    rw [bytes_eq]
    exact List.mem_flatMap.mpr ⟨c, hc, hb⟩
  exact absurd (h b hmem) (Nat.not_lt.mpr (le_of_mem_utf8EncodeChar hle hb))

/-! ## Conditions on every character -/

/-- Every character of a text meets a condition. -/
def Every (P : Char → Prop) (s : String) : Prop := ∀ c ∈ s.toList, P c

instance {P : Char → Prop} [DecidablePred P] (s : String) : Decidable (Every P s) :=
  List.decidableBAll P s.toList

section Every

variable {P Q : Char → Prop} {s t : String} {n : Nat}

@[simp] theorem every_append : Every P (s ++ t) ↔ Every P s ∧ Every P t := by
  simp [Every, or_imp, forall_and]

@[simp] theorem every_ofList {cs : List Char} : Every P (String.ofList cs) ↔ ∀ c ∈ cs, P c := by
  simp [Every]

theorem Every.mono (h : Every P s) (hPQ : ∀ c, P c → Q c) : Every Q s :=
  fun c hc => hPQ c (h c hc)

/-- A number is written in decimal digits. -/
theorem every_toString (h : ∀ c : Char, c.isDigit = true → P c) : Every P (toString n) := by
  intro c hc
  rw [Nat.toString_eq_ofList_toDigits, String.toList_ofList] at hc
  exact h c (Nat.isDigit_of_mem_toDigits (by decide) (by decide) hc)

end Every

/-- The digits of a number in a base up to sixteen. -/
theorem exists_digit_of_mem_toDigits {b n : Nat} (hb : 1 < b) {c : Char}
    (hc : c ∈ Nat.toDigits b n) : ∃ d < b, c = Nat.digitChar d := by
  induction n using Nat.strongRecOn with
  | ind n ih =>
    rw [Nat.toDigits_eq_if hb] at hc
    split at hc
    · rename_i hlt
      exact ⟨n, hlt, List.mem_singleton.mp hc⟩
    · rename_i hle
      rcases List.mem_append.mp hc with hmem | hmem
      · exact ih (n / b) (Nat.div_lt_self (by omega) hb) hmem
      · exact ⟨n % b, Nat.mod_lt n (by omega), List.mem_singleton.mp hmem⟩

/-! ## The size of a text -/

theorem utf8ByteSize_ofList (cs : List Char) :
    (String.ofList cs).utf8ByteSize = (cs.map Char.utf8Size).sum := by
  rw [← length_bytes, bytes_eq, String.toList_ofList, List.length_flatMap]
  simp

/-- A text of ASCII characters has as many bytes as characters. -/
theorem utf8ByteSize_ofList_of_ascii {cs : List Char} (h : ∀ c ∈ cs, c.toNat < 128) :
    (String.ofList cs).utf8ByteSize = cs.length := by
  rw [← length_bytes, bytes_of_ascii (by simpa using h)]
  simp

/-- A number below `10 ^ k` is written in `k` digits at most. -/
theorem utf8ByteSize_toString_le {n k : Nat} (hk : 0 < k) (h : n < 10 ^ k) :
    (toString n).utf8ByteSize ≤ k := by
  rw [Nat.toString_eq_ofList_toDigits, utf8ByteSize_ofList_of_ascii fun c hc => ?_]
  · exact (Nat.length_toDigits_le_iff (by decide) hk).mpr h
  · obtain ⟨d, hd, rfl⟩ := exists_digit_of_mem_toDigits (by decide) hc
    exact (by decide : ∀ d < 10, (Nat.digitChar d).toNat < 128) d hd

/-! ## Literals

A literal is the text of a list of characters by `rfl`. What is said of it is decided on the list,
where evaluating the text would encode its characters and decode them again.
-/

section Literals

variable {P : Char → Prop} [DecidablePred P] {s : String} {n : Nat} {cs : List Char}

theorem every_literal (hs : s = String.ofList cs) (h : cs.all (fun c => decide (P c)) = true) :
    Every P s := by
  rw [hs, every_ofList]
  intro c hc
  exact of_decide_eq_true (List.all_eq_true.mp h c hc)

theorem every_literal_size (hs : s = String.ofList cs)
    (h : cs.all (fun c => decide (P c)) = true) (hn : (cs.map Char.utf8Size).sum = n) :
    Every P s ∧ s.utf8ByteSize = n := by
  refine ⟨every_literal hs h, ?_⟩
  rw [hs, utf8ByteSize_ofList]
  exact hn

theorem length_literal (hs : s = String.ofList cs) : s.toList.length = cs.length := by
  rw [hs, String.toList_ofList]

end Literals

end Texts
