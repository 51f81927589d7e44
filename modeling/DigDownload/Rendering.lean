import DigDownload.Onion.HopPath

/-!
# How errors are shown

An error is shown by `Display` and by `Debug`, which wraps it. What is shown is to be one line of
a bounded length that reads in the order it is written and names peers in their canonical form
only. What came from a peer is escaped character by character, except that the line and the
paragraph separator pass; a reason of the state store or of the sink is shown as it came, and so
is the hop of a path that is refused.
-/

namespace DigDownload

open Texts (Every every_append every_ofList every_literal every_literal_size length_literal)

/-- `Debug` of an error. -/
def DownloadError.debug (e : DownloadError) : String := "DownloadError(" ++ e.display ++ ")"

theorem DownloadError.debug_eq (e : DownloadError) :
    e.debug = "DownloadError(" ++ e.display ++ ")" := rfl

/-- The line separator and the paragraph separator. -/
def isLineSeparator (c : Char) : Bool := c.toNat = 0x2028 || c.toNat = 0x2029

/-- A character that neither ends a line nor reorders it. -/
def Plain (c : Char) : Prop :=
  isControl c = false ∧ isBidiControl c = false ∧ isLineSeparator c = false

instance (c : Char) : Decidable (Plain c) :=
  inferInstanceAs (Decidable (isControl c = false ∧ isBidiControl c = false ∧
    isLineSeparator c = false))

/-- The two forms in which a peer id may be shown: 64 lower-case digits, or the sentinel. -/
def IsShownId (x : String) : Prop :=
  IsHex64 x ∧ toAsciiLowercase x = x ∨ x = "<non-canonical-peer-id>"

/-! ## Escaped characters -/

section Escaping

variable {c : Char} {cs : List Char} {n : Nat}

theorem plain_digitChar {d : Nat} (h : d < 16) : Plain (Nat.digitChar d) :=
  (by decide +kernel : ∀ d < 16, Plain (Nat.digitChar d)) d h

/-- What is escaped lies below the code points of four hexadecimal digits. -/
theorem toNat_lt_of_escaped (h : (isControl c || isBidiControl c) = true) : c.toNat < 16 ^ 4 := by
  simp only [isControl, isBidiControl, Bool.or_eq_true, Bool.and_eq_true, decide_eq_true_eq] at h
  omega

/-- An escaped character is written in at most eight ASCII characters, all of them plain. -/
theorem escapeDebug_spec (h : (isControl c || isBidiControl c) = true) :
    (∀ d ∈ escapeDebug c, Plain d ∧ d.toNat < 128) ∧ (escapeDebug c).length ≤ 8 := by
  have hdigits : (Nat.toDigits 16 c.toNat).length ≤ 4 :=
    (Nat.length_toDigits_le_iff (by decide) (by decide)).mpr (toNat_lt_of_escaped h)
  unfold escapeDebug
  split
  · exact ⟨every_ofList.mp (by decide), by decide⟩
  split
  · exact ⟨every_ofList.mp (by decide), by decide⟩
  split
  · exact ⟨every_ofList.mp (by decide), by decide⟩
  split
  · exact ⟨every_ofList.mp (by decide), by decide⟩
  · constructor
    · intro d hd
      rcases List.mem_append.mp hd with hd | hd
      · rcases List.mem_append.mp hd with hd | hd
        · exact every_ofList.mp (by decide :
            Every (fun d => Plain d ∧ d.toNat < 128) (String.ofList ['\\', 'u', '\x7b'])) d hd
        · obtain ⟨v, hv, rfl⟩ := Texts.exists_digit_of_mem_toDigits (by decide) hd
          exact ⟨plain_digitChar hv,
            (by decide +kernel : ∀ v < 16, (Nat.digitChar v).toNat < 128) v hv⟩
      · exact every_ofList.mp (by decide :
          Every (fun d => Plain d ∧ d.toNat < 128) (String.ofList ['\x7d'])) d hd
    · simp only [List.length_append, List.length_cons, List.length_nil]
      omega

theorem truncated_spec : Every Plain "…<truncated>" ∧ "…<truncated>".utf8ByteSize = 14 :=
  every_literal_size rfl (by decide) (by decide)

theorem sanitizeChars_nil (n : Nat) : sanitizeChars n [] = [] := by
  cases n with
  | zero => rfl
  | succ n => rfl

theorem sanitizeChars_zero (c : Char) (cs : List Char) :
    sanitizeChars 0 (c :: cs) = "…<truncated>".toList := rfl

theorem sanitizeChars_succ (n : Nat) (c : Char) (cs : List Char) :
    sanitizeChars (n + 1) (c :: cs) =
      (if isControl c || isBidiControl c then escapeDebug c else [c]) ++ sanitizeChars n cs := rfl

/-- The shown characters are plain, except for the separators among the characters shown. -/
theorem plain_sanitizeChars :
    (∀ d ∈ sanitizeChars n cs, Plain d) ↔ ∀ d ∈ cs.take n, isLineSeparator d = false := by
  induction cs generalizing n with
  | nil => simp [sanitizeChars_nil]
  | cons c rest ih =>
    cases n with
    | zero =>
      rw [sanitizeChars_zero]
      exact iff_of_true truncated_spec.1 (by simp)
    | succ n =>
      rw [sanitizeChars_succ, List.take_succ_cons, List.forall_mem_cons, ← ih]
      simp only [List.mem_append, or_imp, forall_and]
      refine and_congr_left fun _ => ?_
      split
      · rename_i hescaped
        refine iff_of_true (fun d hd => ((escapeDebug_spec hescaped).1 d hd).1) ?_
        simp only [isControl, isBidiControl, Bool.or_eq_true, Bool.and_eq_true, decide_eq_true_eq]
          at hescaped
        simp only [isLineSeparator, Bool.or_eq_false_iff, decide_eq_false_iff_not]
        omega
      · rename_i hshown
        rw [Bool.not_eq_true, Bool.or_eq_false_iff] at hshown
        constructor
        · intro hplain
          exact (hplain c List.mem_cons_self).2.2
        · intro hseparator d hd
          rw [List.mem_singleton.mp hd]
          exact ⟨hshown.1, hshown.2, hseparator⟩

/-- A shown character takes eight bytes at most. -/
theorem size_sanitizeChars : ((sanitizeChars n cs).map Char.utf8Size).sum ≤ 8 * n + 14 := by
  induction cs generalizing n with
  | nil => simp [sanitizeChars_nil]
  | cons c rest ih =>
    cases n with
    | zero =>
      rw [sanitizeChars_zero, ← Texts.utf8ByteSize_ofList, String.ofList_toList]
      exact Nat.le_of_eq truncated_spec.2
    | succ n =>
      rw [sanitizeChars_succ, List.map_append, List.sum_append]
      have hrest := ih (n := n)
      have hfirst : ((if (isControl c || isBidiControl c) = true then escapeDebug c else [c]).map
          Char.utf8Size).sum ≤ 8 := by
        split
        · rename_i hescaped
          obtain ⟨hall, hlen⟩ := escapeDebug_spec hescaped
          rw [← Texts.utf8ByteSize_ofList, Texts.utf8ByteSize_ofList_of_ascii fun d hd =>
            (hall d hd).2]
          exact hlen
        · have hle := c.utf8Size_le_four
          simp only [List.map_cons, List.map_nil, List.sum_cons, List.sum_nil]
          omega
      omega

end Escaping

/-! ## Shown texts and ids -/

/-- No separator among the characters of a text that are shown. -/
def Unseparated (maxChars : Nat) (text : String) : Prop :=
  ∀ c ∈ text.toList.take maxChars, isLineSeparator c = false

section Shown

variable {text value : String} {maxChars : Nat}

theorem every_sanitizeUntrustedText :
    Every Plain (sanitizeUntrustedText text maxChars) ↔ Unseparated maxChars text := by
  rw [sanitizeUntrustedText, every_ofList, plain_sanitizeChars]
  rfl

theorem size_sanitizeUntrustedText (text : String) (maxChars : Nat) :
    (sanitizeUntrustedText text maxChars).utf8ByteSize ≤ 8 * maxChars + 14 := by
  rw [sanitizeUntrustedText, Texts.utf8ByteSize_ofList]
  exact size_sanitizeChars

theorem plain_of_isAsciiHexdigit {c : Char} (h : isAsciiHexdigit c = true) : Plain c :=
  Texts.ascii_forall (P := fun c => isAsciiHexdigit c = true → Plain c) (by decide +kernel)
    (lt_of_isAsciiHexdigit h) h

theorem toLower_of_isAsciiHexdigit {c : Char} (h : isAsciiHexdigit c = true) :
    isAsciiHexdigit c.toLower = true ∧ c.toLower.toLower = c.toLower :=
  Texts.ascii_forall (P := fun c => isAsciiHexdigit c = true →
      isAsciiHexdigit c.toLower = true ∧ c.toLower.toLower = c.toLower)
    (by decide +kernel) (lt_of_isAsciiHexdigit h) h

theorem isShownId_toAsciiLowercase (h : IsHex64 value) : IsShownId (toAsciiLowercase value) := by
  refine Or.inl ⟨⟨?_, ?_⟩, ?_⟩
  · rw [toAsciiLowercase, String.toList_ofList, List.length_map, h.1]
  · rw [toAsciiLowercase, every_ofList]
    intro c hc
    obtain ⟨d, hd, rfl⟩ := List.mem_map.mp hc
    exact (toLower_of_isAsciiHexdigit (h.2 d hd)).1
  · rw [toAsciiLowercase, toAsciiLowercase, String.toList_ofList, String.ofList_inj, List.map_map]
    exact List.map_congr_left fun d hd => (toLower_of_isAsciiHexdigit (h.2 d hd)).2

/-- The id of a peer is shown in one of the two forms. -/
theorem isShownId_hex64OrSentinel (value : String) :
    IsShownId (hex64OrSentinel value "peer-id") := by
  unfold hex64OrSentinel
  split
  · rename_i h
    have hall : ∀ c ∈ value.toList, isAsciiHexdigit c = true := List.all_eq_true.mp h.2
    refine isShownId_toAsciiLowercase ⟨?_, hall⟩
    have hsize := Texts.utf8ByteSize_ofList_of_ascii
      fun c hc => lt_of_isAsciiHexdigit (hall c hc)
    rw [String.ofList_toList] at hsize
    exact hsize.symm.trans h.1
  · exact Or.inr rfl

theorem sentinel_spec : Every Plain "<non-canonical-peer-id>" ∧
    "<non-canonical-peer-id>".utf8ByteSize = 23 :=
  every_literal_size rfl (by decide) (by decide)

theorem IsShownId.plain {x : String} (h : IsShownId x) : Every Plain x := by
  cases h with
  | inl h => exact h.1.2.mono fun c hc => plain_of_isAsciiHexdigit hc
  | inr h =>
    rw [h]
    exact sentinel_spec.1

theorem IsShownId.size_le {x : String} (h : IsShownId x) : x.utf8ByteSize ≤ 64 := by
  cases h with
  | inl h => exact Nat.le_of_eq (utf8ByteSize_of_isHex64 h.1)
  | inr h =>
    rw [h, sentinel_spec.2]
    decide

theorem plain_toString (n : Nat) : Every Plain (toString n) :=
  Texts.every_toString fun c hc => plain_of_isAsciiHexdigit (by simp [isAsciiHexdigit, hc])

/-- A 64-bit number is written in twenty digits. -/
theorem size_toString {n : Nat} (h : n ≤ u64Max) : (toString n).utf8ByteSize ≤ 20 :=
  Texts.utf8ByteSize_toString_le (by decide) (by unfold u64Max at h; omega)

end Shown

/-! ## Which errors are shown as one bounded line -/

/-- Where an error names a peer: the texts that are shown before and after the id. -/
inductive NamesPeer : DownloadError → String → String → Prop where
  | transport (provider reason : String) :
      NamesPeer (.transport provider reason) "transport error from provider "
        (": " ++ sanitizeUntrustedText reason maxErrorReasonChars)
  | timeout (provider : String) :
      NamesPeer (.timeout provider) "range fetch from provider " " timed out"
  | pagedPrologueUnsupported (provider : String) (chunkCount delivered : Nat) :
      NamesPeer (.pagedPrologueUnsupported provider chunkCount delivered) "provider "
        (s!" served a {chunkCount}-entry chunk_lens " ++
          s!"paged prologue that ended incomplete ({delivered} of {chunkCount} entries)")
  | hop (hop : String) :
      NamesPeer (.ofHopPathError (.duplicateHop hop)) "state store error: hop "
        " appears more than once in the path"

/-- An error is shown, either way, as one line of at most `bound` bytes, with peers named in
their canonical form. -/
structure Rendered (bound : Nat) (e : DownloadError) : Prop where
  line : Every Plain e.display ∧ Every Plain e.debug
  size : e.display.utf8ByteSize ≤ bound ∧ e.debug.utf8ByteSize ≤ bound
  peers : ∀ front back, NamesPeer e front back →
    ∃ shown, IsShownId shown ∧ e.display = front ++ shown ++ back

/-- The counts of an error are those of 64-bit fields. -/
def DownloadError.Counted : DownloadError → Prop
  | .noProviders needed => needed ≤ u64Max
  | .metadataProbeFailed _ holders _ => holders ≤ u64Max
  | .pagedPrologueUnsupported _ chunkCount delivered =>
      chunkCount ≤ u64Max ∧ delivered ≤ u64Max
  | _ => True

/-- No separator among the characters of a wrapped failure that are shown; the bound on a reason
counts the text before it. -/
def VerifyError.Unseparated : VerifyError → Prop
  | .metadata reason => DigDownload.Unseparated (maxErrorReasonChars - 54) reason
  | .alignment reason => DigDownload.Unseparated (maxErrorReasonChars - 28) reason
  | .missingMetadata what => DigDownload.Unseparated (maxErrorReasonChars - 46) what
  | _ => True

/-- The texts of an error are fit to be shown as the code shows them. -/
def DownloadError.Presentable (bound : Nat) : DownloadError → Prop
  | .transport _ reason => Unseparated maxErrorReasonChars reason
  | .verify e => e.Unseparated
  | .notFound content => Unseparated maxErrorContextChars content
  | .metadataProbeFailed content _ reasons => Unseparated maxErrorContextChars content ∧
      Unseparated maxErrorReasonChars (String.intercalate "; " reasons)
  | .state reason => Every Plain reason ∧ reason.utf8ByteSize + 34 ≤ bound ∧
      ∀ hop, reason = (HopPathError.duplicateHop hop).display → IsShownId hop
  | .sink reason => Every Plain reason ∧ reason.utf8ByteSize + 33 ≤ bound
  | _ => True

/-- The size of the longest error whose texts are all escaped and bounded. -/
def maxRenderedBytes : Nat := 37008

section Rendering

variable {e : DownloadError} {bound n : Nat} {s t : String}

theorem every_debug : Every Plain e.debug ↔ Every Plain e.display := by
  have hfront : Every Plain "DownloadError(" := every_literal rfl (by decide)
  have hback : Every Plain ")" := every_literal rfl (by decide)
  simp [DownloadError.debug_eq, hfront, hback]

theorem size_debug : e.debug.utf8ByteSize = e.display.utf8ByteSize + 15 := by
  have hfront : Every Plain "DownloadError(" ∧ "DownloadError(".utf8ByteSize = 14 :=
    every_literal_size rfl (by decide) (by decide)
  have hback : Every Plain ")" ∧ ")".utf8ByteSize = 1 :=
    every_literal_size rfl (by decide) (by decide)
  rw [DownloadError.debug_eq, String.utf8ByteSize_append, String.utf8ByteSize_append, hfront.2,
    hback.2]
  omega

/-- What `Display` shows decides about both. -/
theorem rendered_iff :
    Rendered bound e ↔ Every Plain e.display ∧ e.display.utf8ByteSize + 15 ≤ bound ∧
      ∀ front back, NamesPeer e front back →
        ∃ shown, IsShownId shown ∧ e.display = front ++ shown ++ back := by
  constructor
  · intro h
    exact ⟨h.line.1, size_debug (e := e) ▸ h.size.2, h.peers⟩
  · intro h
    obtain ⟨hline, hsize, hpeers⟩ := h
    exact ⟨⟨hline, every_debug.mpr hline⟩, ⟨by omega, by rw [size_debug]; exact hsize⟩, hpeers⟩

/-- An error that names no peer, or names it by `hex64OrSentinel`. -/
theorem rendered_iff_of_peers (hsize : e.display.utf8ByteSize + 15 ≤ bound)
    (hpeers : ∀ front back, NamesPeer e front back →
      ∃ shown, IsShownId shown ∧ e.display = front ++ shown ++ back) :
    Rendered bound e ↔ Every Plain e.display := by
  rw [rendered_iff]
  exact ⟨fun h => h.1, fun h => ⟨h, hsize, hpeers⟩⟩

theorem unseparated_of_every (h : Every Plain s) : Unseparated n s := fun c hc =>
  (h c (List.mem_of_mem_take hc)).2.2

theorem unseparated_append :
    Unseparated n (s ++ t) ↔ Unseparated n s ∧ Unseparated (n - s.toList.length) t := by
  simp only [Unseparated, String.toList_append, List.take_append, List.mem_append, or_imp,
    forall_and]

/-- A wrapped failure is quoted after a text of the code's own. -/
theorem unseparated_quoted (text : String) (hfront : Every Plain s) (hback : Every Plain t) :
    Unseparated n (s ++ text ++ t) ↔ Unseparated (n - s.toList.length) text := by
  rw [unseparated_append, unseparated_append]
  constructor
  · intro h
    exact h.1.2
  · intro h
    exact ⟨⟨unseparated_of_every hfront, h⟩, unseparated_of_every hback⟩

theorem unseparated_verify (v : VerifyError) :
    Unseparated maxErrorReasonChars v.display ↔ v.Unseparated := by
  cases v with
  | length expected actual =>
    refine iff_of_true (unseparated_of_every ?_) trivial
    show Every Plain ("range length mismatch: expected " ++ toString expected ++
      " bytes for chunks, got " ++ toString actual)
    have h₁ : Every Plain "range length mismatch: expected " := every_literal rfl (by decide)
    have h₂ : Every Plain " bytes for chunks, got " := every_literal rfl (by decide)
    simp only [every_append, h₁, h₂, plain_toString, and_self]
  | metadata reason =>
    have h := unseparated_quoted (n := maxErrorReasonChars) reason
      (s := "range metadata mismatch with the resource commitment: ") (t := "")
      (every_literal rfl (by decide)) (every_literal rfl (by decide))
    have hlen : "range metadata mismatch with the resource commitment: ".toList.length = 54 :=
      length_literal rfl
    rw [String.append_empty, hlen] at h
    exact h
  | alignment reason =>
    have h := unseparated_quoted (n := maxErrorReasonChars) reason
      (s := "range is not chunk-aligned: ") (t := "") (every_literal rfl (by decide))
      (every_literal rfl (by decide))
    have hlen : "range is not chunk-aligned: ".toList.length = 28 := length_literal rfl
    rw [String.append_empty, hlen] at h
    exact h
  | root =>
    refine iff_of_true (unseparated_of_every ?_) trivial
    show Every Plain "resource does not verify against the chain-anchored root"
    exact every_literal rfl (by decide)
  | missingMetadata what =>
    have h := unseparated_quoted (n := maxErrorReasonChars) what
      (s := "first frame is missing verification metadata (") (t := ")")
      (every_literal rfl (by decide)) (every_literal rfl (by decide))
    have hlen : "first frame is missing verification metadata (".toList.length = 46 :=
      length_literal rfl
    rw [hlen] at h
    exact h

end Rendering

/-! ## Each error -/

section Variants

variable {bound : Nat} (hbound : maxRenderedBytes ≤ bound)

include hbound

theorem rendered_transport (provider reason : String) :
    Rendered bound (.transport provider reason) ↔ Unseparated maxErrorReasonChars reason := by
  have hid := isShownId_hex64OrSentinel provider
  have hreason := size_sanitizeUntrustedText reason maxErrorReasonChars
  have hfront : Every Plain "transport error from provider " ∧
    "transport error from provider ".utf8ByteSize = 30 :=
      every_literal_size rfl (by decide) (by decide)
  have hcolon : Every Plain ": " ∧ ": ".utf8ByteSize = 2 :=
    every_literal_size rfl (by decide) (by decide)
  have hdisplay : (DownloadError.transport provider reason).display =
    "transport error from provider " ++ hex64OrSentinel provider "peer-id" ++ ": " ++
      sanitizeUntrustedText reason maxErrorReasonChars := rfl
  rw [rendered_iff_of_peers, hdisplay]
  · simp only [every_append, hfront.1, hcolon.1, hid.plain, and_self, true_and,
      every_sanitizeUntrustedText]
  · have hle := hid.size_le
    rw [hdisplay]
    simp only [String.utf8ByteSize_append, hfront.2, hcolon.2]
    simp only [maxErrorReasonChars, maxRenderedBytes] at *
    omega
  · intro front back hnames
    cases hnames with
    | transport => exact ⟨_, hid, by rw [hdisplay, String.append_assoc]⟩

theorem rendered_timeout (provider : String) : Rendered bound (.timeout provider) := by
  have hid := isShownId_hex64OrSentinel provider
  have hfront : Every Plain "range fetch from provider " ∧
    "range fetch from provider ".utf8ByteSize = 26 := every_literal_size rfl (by decide) (by decide)
  have hback : Every Plain " timed out" ∧ " timed out".utf8ByteSize = 10 :=
    every_literal_size rfl (by decide) (by decide)
  have hdisplay : (DownloadError.timeout provider).display =
    "range fetch from provider " ++ hex64OrSentinel provider "peer-id" ++ " timed out" := rfl
  rw [rendered_iff_of_peers, hdisplay]
  · simp only [every_append, hfront.1, hback.1, hid.plain, and_self]
  · have hle := hid.size_le
    rw [hdisplay]
    simp only [String.utf8ByteSize_append, hfront.2, hback.2]
    simp only [maxRenderedBytes] at *
    omega
  · intro front back hnames
    cases hnames with
    | timeout => exact ⟨_, hid, rfl⟩

theorem rendered_verify (v : VerifyError) : Rendered bound (.verify v) ↔ v.Unseparated := by
  have hquoted := size_sanitizeUntrustedText v.display maxErrorReasonChars
  have hfront : Every Plain "integrity failure: " ∧ "integrity failure: ".utf8ByteSize = 19 := 
    every_literal_size rfl (by decide) (by decide)
  have hdisplay : (DownloadError.verify v).display =
    "integrity failure: " ++ sanitizeUntrustedText v.display maxErrorReasonChars := rfl
  rw [rendered_iff_of_peers, hdisplay, ← unseparated_verify]
  · simp only [every_append, hfront.1, true_and, every_sanitizeUntrustedText]
  · rw [hdisplay]
    simp only [String.utf8ByteSize_append, hfront.2]
    simp only [maxErrorReasonChars, maxRenderedBytes] at *
    omega
  · intro front back hnames
    cases hnames

theorem rendered_noProviders {needed : Nat} (h : needed ≤ u64Max) :
    Rendered bound (.noProviders needed) := by
  have hfront : Every Plain "no providers left holding the content (needed " ∧
    "no providers left holding the content (needed ".utf8ByteSize = 46 :=
      every_literal_size rfl (by decide) (by decide)
  have hback : Every Plain " more range(s))" ∧ " more range(s))".utf8ByteSize = 15 :=
    every_literal_size rfl (by decide) (by decide)
  have hdisplay : (DownloadError.noProviders needed).display =
    "no providers left holding the content (needed " ++ toString needed ++ " more range(s))" := rfl
  rw [rendered_iff_of_peers, hdisplay]
  · simp only [every_append, hfront.1, hback.1, plain_toString, and_self]
  · have hle := size_toString h
    rw [hdisplay]
    simp only [String.utf8ByteSize_append, hfront.2, hback.2]
    simp only [maxRenderedBytes] at *
    omega
  · intro front back hnames
    cases hnames

theorem rendered_notFound (content : String) :
    Rendered bound (.notFound content) ↔ Unseparated maxErrorContextChars content := by
  have hcontent := size_sanitizeUntrustedText content maxErrorContextChars
  have hfront : Every Plain "content not found: " ∧ "content not found: ".utf8ByteSize = 19 := 
    every_literal_size rfl (by decide) (by decide)
  have hdisplay : (DownloadError.notFound content).display =
    "content not found: " ++ sanitizeUntrustedText content maxErrorContextChars := rfl
  rw [rendered_iff_of_peers, hdisplay]
  · simp only [every_append, hfront.1, true_and, every_sanitizeUntrustedText]
  · rw [hdisplay]
    simp only [String.utf8ByteSize_append, hfront.2]
    simp only [maxErrorContextChars, maxRenderedBytes] at *
    omega
  · intro front back hnames
    cases hnames

theorem rendered_metadataProbeFailed {holders : Nat} (h : holders ≤ u64Max) (content : String)
    (reasons : List String) :
    Rendered bound (.metadataProbeFailed content holders reasons) ↔
      Unseparated maxErrorContextChars content ∧
        Unseparated maxErrorReasonChars (String.intercalate "; " reasons) := by
  have hcontent := size_sanitizeUntrustedText content maxErrorContextChars
  have hreasons := size_sanitizeUntrustedText (String.intercalate "; " reasons) maxErrorReasonChars
  have hfront : Every Plain "no confirmed holder could seed the resource layout for " ∧
    "no confirmed holder could seed the resource layout for ".utf8ByteSize = 55 :=
      every_literal_size rfl (by decide) (by decide)
  have hprobed : Every Plain " — probed " ∧ " — probed ".utf8ByteSize = 12 :=
    every_literal_size rfl (by decide) (by decide)
  have hfailed : Every Plain ", all failed: " ∧ ", all failed: ".utf8ByteSize = 14 :=
    every_literal_size rfl (by decide) (by decide)
  have hdisplay : (DownloadError.metadataProbeFailed content holders reasons).display =
    "no confirmed holder could seed the resource layout for " ++
      sanitizeUntrustedText content maxErrorContextChars ++
      (" — probed " ++ toString holders ++ ", all failed: ") ++
      sanitizeUntrustedText (String.intercalate "; " reasons) maxErrorReasonChars := rfl
  rw [rendered_iff_of_peers, hdisplay]
  · simp only [every_append, hfront.1, hprobed.1, hfailed.1, plain_toString, true_and,
      and_true, every_sanitizeUntrustedText]
  · have hle := size_toString h
    rw [hdisplay]
    simp only [String.utf8ByteSize_append, hfront.2, hprobed.2, hfailed.2]
    simp only [maxErrorContextChars, maxErrorReasonChars, maxRenderedBytes] at *
    omega
  · intro front back hnames
    cases hnames

theorem rendered_pagedPrologueUnsupported {chunkCount delivered : Nat} (h : chunkCount ≤ u64Max)
    (h' : delivered ≤ u64Max) (provider : String) :
    Rendered bound (.pagedPrologueUnsupported provider chunkCount delivered) := by
  have hid := isShownId_hex64OrSentinel provider
  have hfront : Every Plain "provider " ∧ "provider ".utf8ByteSize = 9 :=
    every_literal_size rfl (by decide) (by decide)
  have hserved : Every Plain " served a " ∧ " served a ".utf8ByteSize = 10 :=
    every_literal_size rfl (by decide) (by decide)
  have hentry : Every Plain "-entry chunk_lens " ∧ "-entry chunk_lens ".utf8ByteSize = 18 := 
    every_literal_size rfl (by decide) (by decide)
  have hended : Every Plain "paged prologue that ended incomplete (" ∧
    "paged prologue that ended incomplete (".utf8ByteSize = 38 :=
      every_literal_size rfl (by decide) (by decide)
  have hof : Every Plain " of " ∧ " of ".utf8ByteSize = 4 :=
    every_literal_size rfl (by decide) (by decide)
  have hback : Every Plain " entries)" ∧ " entries)".utf8ByteSize = 9 :=
    every_literal_size rfl (by decide) (by decide)
  have hdisplay : (DownloadError.pagedPrologueUnsupported provider chunkCount delivered).display =
    "provider " ++ hex64OrSentinel provider "peer-id" ++
      (" served a " ++ toString chunkCount ++ "-entry chunk_lens ") ++
      ("paged prologue that ended incomplete (" ++ toString delivered ++ " of " ++
        toString chunkCount ++ " entries)") := rfl
  rw [rendered_iff_of_peers, hdisplay]
  · simp only [every_append, hfront.1, hserved.1, hentry.1, hended.1, hof.1, hback.1,
      plain_toString, hid.plain, and_self]
  · have hle := hid.size_le
    have hcount := size_toString h
    have hdelivered := size_toString h'
    rw [hdisplay]
    simp only [String.utf8ByteSize_append, hfront.2, hserved.2, hentry.2, hended.2, hof.2, hback.2]
    simp only [maxRenderedBytes] at *
    omega
  · intro front back hnames
    cases hnames with
    | pagedPrologueUnsupported =>
      refine ⟨_, hid, ?_⟩
      rw [hdisplay, String.append_assoc]
      rfl

/-- An error without a text of its own. -/
theorem rendered_fixed {e : DownloadError} {n : Nat} (shown : String)
    (hdisplay : e.display = shown) (hshown : Every Plain shown ∧ shown.utf8ByteSize = n)
    (hn : n ≤ 128) (hpeers : ∀ front back, ¬ NamesPeer e front back) :
    Rendered bound e := by
  rw [rendered_iff_of_peers, hdisplay]
  · exact hshown.1
  · rw [hdisplay, hshown.2]
    simp only [maxRenderedBytes] at *
    omega
  · intro front back hnames
    exact absurd hnames (hpeers front back)

end Variants

section State

variable {bound : Nat} {reason front back : String}

/-- A reason of the state store names a peer when it is that of a refused path. -/
theorem namesPeer_state :
    NamesPeer (.state reason) front back ↔
      ∃ hop, reason = (HopPathError.duplicateHop hop).display ∧ front = "state store error: hop " ∧
        back = " appears more than once in the path" := by
  constructor
  · intro h
    generalize he : DownloadError.state reason = e at h
    cases h with
    | transport => cases he
    | timeout => cases he
    | pagedPrologueUnsupported => cases he
    | hop hop => exact ⟨hop, DownloadError.state.inj he, rfl, rfl⟩
  · rintro ⟨hop, rfl, rfl, rfl⟩
    exact .hop hop

/-- The hop of a refused path stands in the error as it came. -/
theorem display_hop_eq {hop shown : String} :
    (DownloadError.state (HopPathError.duplicateHop hop).display).display =
        "state store error: hop " ++ shown ++ " appears more than once in the path" ↔
      hop = shown := by
  have hdisplay : (DownloadError.state (HopPathError.duplicateHop hop).display).display =
    "state store error: " ++ ("hop " ++ hop ++ " appears more than once in the path") := rfl
  have hfront : "state store error: hop " = "state store error: " ++ "hop " := by decide +kernel
  rw [hdisplay, hfront]
  simp only [String.append_assoc, String.append_right_inj, String.append_left_inj]

theorem rendered_state :
    Rendered bound (.state reason) ↔ Every Plain reason ∧ reason.utf8ByteSize + 34 ≤ bound ∧
      ∀ hop, reason = (HopPathError.duplicateHop hop).display → IsShownId hop := by
  have hfront : Every Plain "state store error: " ∧ "state store error: ".utf8ByteSize = 19 := 
    every_literal_size rfl (by decide) (by decide)
  have hdisplay : (DownloadError.state reason).display = "state store error: " ++ reason := rfl
  rw [rendered_iff]
  refine and_congr ?_ (and_congr ?_ ?_)
  · rw [hdisplay, every_append]
    exact and_iff_right hfront.1
  · rw [hdisplay, String.utf8ByteSize_append, hfront.2]
    omega
  · constructor
    · intro h hop hreason
      obtain ⟨shown, hshown, heq⟩ := h _ _ (namesPeer_state.mpr ⟨hop, hreason, rfl, rfl⟩)
      rw [hreason, display_hop_eq] at heq
      exact heq ▸ hshown
    · intro h front back hnames
      obtain ⟨hop, hreason, rfl, rfl⟩ := namesPeer_state.mp hnames
      refine ⟨hop, h hop hreason, ?_⟩
      rw [hreason]
      exact display_hop_eq.mpr rfl

theorem rendered_sink :
    Rendered bound (.sink reason) ↔ Every Plain reason ∧ reason.utf8ByteSize + 33 ≤ bound := by
  have hfront : Every Plain "sink write error: " ∧ "sink write error: ".utf8ByteSize = 18 := 
    every_literal_size rfl (by decide) (by decide)
  have hdisplay : (DownloadError.sink reason).display = "sink write error: " ++ reason := rfl
  rw [rendered_iff, hdisplay, every_append, String.utf8ByteSize_append, hfront.2]
  constructor
  · intro h
    exact ⟨h.1.2, by omega⟩
  · intro h
    refine ⟨⟨hfront.1, h.1⟩, by omega, fun front back hnames => ?_⟩
    cases hnames

end State

/-- An error is shown as one bounded line exactly when no separator is among the foreign
characters it shows, and a reason of the state store or the sink is such a line to begin with. -/
theorem rendered_iff_presentable {bound : Nat} (hbound : maxRenderedBytes ≤ bound)
    {e : DownloadError} (hcounted : e.Counted) : Rendered bound e ↔ e.Presentable bound := by
  cases e with
  | transport provider reason => exact rendered_transport hbound provider reason
  | timeout provider => exact iff_of_true (rendered_timeout hbound provider) trivial
  | verify v => exact rendered_verify hbound v
  | noProviders needed => exact iff_of_true (rendered_noProviders hbound hcounted) trivial
  | notFound content => exact rendered_notFound hbound content
  | metadataProbeFailed content holders reasons =>
    exact rendered_metadataProbeFailed hbound hcounted content reasons
  | pagedPrologueUnsupported provider chunkCount delivered =>
    exact iff_of_true
      (rendered_pagedPrologueUnsupported hbound hcounted.1 hcounted.2 provider) trivial
  | cancelled =>
    exact iff_of_true (rendered_fixed hbound "download cancelled" rfl
      (every_literal_size rfl (by decide) rfl) (by decide) fun _ _ h => by cases h) trivial
  | state reason => exact rendered_state
  | sink reason => exact rendered_sink
  | notDownloadable =>
    have hfront : Every Plain "content id is not directly downloadable (needs a root/capsule or " ∧
        "content id is not directly downloadable (needs a root/capsule or ".utf8ByteSize = 65 :=
      every_literal_size rfl (by decide) (by decide)
    have hback : Every Plain "resource, got a bare store id)" ∧
        "resource, got a bare store id)".utf8ByteSize = 30 :=
      every_literal_size rfl (by decide) (by decide)
    refine iff_of_true (rendered_fixed hbound
      ("content id is not directly downloadable (needs a root/capsule or " ++
        "resource, got a bare store id)") rfl ⟨every_append.mpr ⟨hfront.1, hback.1⟩, ?_⟩
      (by decide : 95 ≤ 128) fun _ _ h => by cases h) trivial
    rw [String.utf8ByteSize_append, hfront.2, hback.2]
  | taskEnded =>
    exact iff_of_true (rendered_fixed hbound "download task ended without a result" rfl
      (every_literal_size rfl (by decide) rfl) (by decide) fun _ _ h => by cases h) trivial

/-- A foreign reason of two lines is shown as one. -/
theorem rendered_transport_lines :
    maxRenderedBytes ≤ 65536 ∧ (DownloadError.transport holderA "refused\n[FATAL] forged").Counted ∧
      Rendered 65536 (.transport holderA "refused\n[FATAL] forged") := by
  refine ⟨by decide, trivial, ?_⟩
  refine (rendered_iff_presentable (e := .transport holderA "refused\n[FATAL] forged") (by decide)
    trivial).mpr ?_
  show ∀ c ∈ "refused\n[FATAL] forged".toList.take 512, isLineSeparator c = false
  refine every_ofList.mp ?_
  decide

/-- A hop that holds two lines. -/
def forgedHop : String := "hop\n[FATAL] forged"

/-- A path that names a hop of two lines twice is refused with an error of two lines, and a
foreign reason keeps its line separators. -/
theorem not_rendered_hop_separator :
    (∃ e, HopPath.tryNew [forgedHop, forgedHop] = .error e ∧
      ∀ bound, ¬ Rendered bound (.ofHopPathError e)) ∧
    ∀ bound, ¬ Rendered bound (.transport holderA (String.singleton (Char.ofNat 0x2028))) := by
  constructor
  · refine ⟨.duplicateHop forgedHop, rfl, fun bound h => ?_⟩
    have hplain : Every Plain forgedHop := ((rendered_state.mp h).2.2 forgedHop rfl).plain
    have hline : isControl '\n' = false := (hplain '\n' (by decide)).1
    cases hline
  · intro bound h
    have hreason : Every Plain (sanitizeUntrustedText (String.singleton (Char.ofNat 0x2028))
        maxErrorReasonChars) := (every_append.mp h.line.1).2
    have hline : isLineSeparator (Char.ofNat 0x2028) = false :=
      every_sanitizeUntrustedText.mp hreason _ (by decide)
    cases hline

end DigDownload
