import Mathlib.Data.List.Basic

/-!
# Errors

The two error types of the crate, the texts they are shown with, and which of
them a download survives. Text that came from a peer is never shown as it came:
an identifier is replaced by a sentinel unless it is 64 hex digits, and free text
is escaped and bounded.
-/

namespace DigDownload

/-- The bound on a foreign error reason when it is shown. -/
def maxErrorReasonChars : Nat := 512

/-- The bound on a failure context, such as a list of per-holder reasons. -/
def maxErrorContextChars : Nat := 4096

/-! ## Showing untrusted text -/

/-- `char::is_ascii_hexdigit`. -/
def isAsciiHexdigit (c : Char) : Bool := c.isDigit || ('a' ≤ c && c ≤ 'f') || ('A' ≤ c && c ≤ 'F')

/-- The value itself, in lower case, if it is 64 hex digits; otherwise a sentinel. -/
def hex64OrSentinel (value label : String) : String :=
  if value.utf8ByteSize = 64 ∧ value.toList.all isAsciiHexdigit then
    String.ofList (value.toList.map Char.toLower)
  else
    s!"<non-canonical-{label}>"

/-- `char::is_control`: the Unicode category `Cc`. -/
def isControl (c : Char) : Bool := c.toNat < 0x20 || (0x7f ≤ c.toNat && c.toNat < 0xa0)

/-- The bidirectional-formatting characters, which reorder the text around them. -/
def isBidiControl (c : Char) : Bool :=
  c.toNat = 0x200e || c.toNat = 0x200f || c.toNat = 0x061c ||
    (0x202a ≤ c.toNat && c.toNat ≤ 0x202e) || (0x2066 ≤ c.toNat && c.toNat ≤ 0x2069)

/-- `char::escape_debug` on the characters `sanitizeUntrustedText` gives it. -/
def escapeDebug (c : Char) : List Char :=
  if c = '\x00' then ['\\', '0']
  else if c = '\t' then ['\\', 't']
  else if c = '\r' then ['\\', 'r']
  else if c = '\n' then ['\\', 'n']
  else ['\\', 'u', '\x7b'] ++ Nat.toDigits 16 c.toNat ++ ['\x7d']

/-- The characters of a foreign text that are shown, `budget` of them at most. -/
def sanitizeChars : Nat → List Char → List Char
  | _, [] => []
  | 0, _ :: _ => "…<truncated>".toList
  | budget + 1, c :: cs =>
      (if isControl c || isBidiControl c then escapeDebug c else [c]) ++ sanitizeChars budget cs

/-- Free foreign text made safe to show: escaped, on one line, and bounded. -/
def sanitizeUntrustedText (text : String) (maxChars : Nat) : String :=
  String.ofList (sanitizeChars maxChars text.toList)

/-! ## The error types -/

/-- Why a fetched range or a reassembled resource failed integrity. -/
inductive VerifyError where
  | length (expected actual : Nat)
  | metadata (reason : String)
  | alignment (reason : String)
  | root
  | missingMetadata (what : String)
  deriving DecidableEq, Repr

def VerifyError.display : VerifyError → String
  | .length expected actual =>
      s!"range length mismatch: expected {expected} bytes for chunks, got {actual}"
  | .metadata reason => s!"range metadata mismatch with the resource commitment: {reason}"
  | .alignment reason => s!"range is not chunk-aligned: {reason}"
  | .root => "resource does not verify against the chain-anchored root"
  | .missingMetadata what => s!"first frame is missing verification metadata ({what})"

/-- An error of a download operation. -/
inductive DownloadError where
  | transport (provider reason : String)
  | timeout (provider : String)
  | verify (e : VerifyError)
  | noProviders (needed : Nat)
  | notFound (content : String)
  | metadataProbeFailed (content : String) (holders : Nat) (reasons : List String)
  | pagedPrologueUnsupported (provider : String) (chunkCount delivered : Nat)
  | cancelled
  | state (reason : String)
  | sink (reason : String)
  | notDownloadable
  | taskEnded
  deriving DecidableEq, Repr

namespace DownloadError

def display : DownloadError → String
  | transport provider reason =>
      "transport error from provider " ++ hex64OrSentinel provider "peer-id" ++ ": " ++
        sanitizeUntrustedText reason maxErrorReasonChars
  | timeout provider =>
      "range fetch from provider " ++ hex64OrSentinel provider "peer-id" ++ " timed out"
  | verify e => "integrity failure: " ++ sanitizeUntrustedText e.display maxErrorReasonChars
  | noProviders needed =>
      s!"no providers left holding the content (needed {needed} more range(s))"
  | notFound content =>
      "content not found: " ++ sanitizeUntrustedText content maxErrorContextChars
  | metadataProbeFailed content holders reasons =>
      "no confirmed holder could seed the resource layout for " ++
        sanitizeUntrustedText content maxErrorContextChars ++
        s!" — probed {holders}, all failed: " ++
        sanitizeUntrustedText (String.intercalate "; " reasons) maxErrorReasonChars
  | pagedPrologueUnsupported provider chunkCount delivered =>
      "provider " ++ hex64OrSentinel provider "peer-id" ++
        s!" served a {chunkCount}-entry chunk_lens " ++
        s!"paged prologue that ended incomplete ({delivered} of {chunkCount} entries)"
  | cancelled => "download cancelled"
  | state reason => s!"state store error: {reason}"
  | sink reason => s!"sink write error: {reason}"
  | notDownloadable => "content id is not directly downloadable (needs a root/capsule or " ++
      "resource, got a bare store id)"
  | taskEnded => "download task ended without a result"

/-- Whether the download goes on, retrying the range elsewhere. -/
def isRecoverable : DownloadError → Bool
  | transport .. | verify _ | timeout _ | pagedPrologueUnsupported .. => true
  | _ => false

/-- Stamp the peer a failure came from on an error that names none yet. -/
def attributedTo (peerId : String) : DownloadError → DownloadError
  | transport provider reason =>
      if provider = "" then transport peerId reason else transport provider reason
  | pagedPrologueUnsupported provider chunkCount delivered =>
      if provider = "" then pagedPrologueUnsupported peerId chunkCount delivered
      else pagedPrologueUnsupported provider chunkCount delivered
  | other => other

/-- Attribution says who failed, never whether the failure is final. -/
@[simp] theorem isRecoverable_attributedTo (peerId : String) (e : DownloadError) :
    (e.attributedTo peerId).isRecoverable = e.isRecoverable := by
  cases e with
  | transport provider reason =>
    simp only [attributedTo]
    split <;> rfl
  | pagedPrologueUnsupported provider chunkCount delivered =>
    simp only [attributedTo]
    split <;> rfl
  | _ => rfl

end DownloadError

end DigDownload
