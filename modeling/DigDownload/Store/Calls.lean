import DigDownload.Identifiers
import DigDownload.Reputation.Races
import DigDownload.Storage

/-!
# The calls of a state store

`InMemoryStateStore` keeps the checkpoints and the verdicts in maps by their keys.
`FileStateStore` keeps each checkpoint and each list of verdicts in a file of a directory, which
it names by the digest of the key. It reads what its files say at every call, so that a store
that is opened again is the one that was closed. What the file system refuses it, to read, to
write or to remove a file, is the error of the call; only a record that cannot be read counts as
empty.

How `serde_json` writes a value is not part of this repository; what the store relies on is that
it reads back what it wrote, and that it reads nothing from a file that was not written to its
end.
-/

namespace DigDownload

/-! ## Calls -/

/-- A call, with what the clock says when it is made. -/
inductive StoreCall where
  | load (key : String)
  | save (state : DownloadState)
  | clear (key : String)
  | recordBadDescriptor (targetKey peerId : String) (now : Nat)
  | badDescriptorPeers (targetKey : String) (now : Nat)

/-- What a call returns. -/
inductive StoreAnswer where
  | loaded (state : Option DownloadState)
  | failed (e : DownloadError)
  | done
  | peers (peers : List String)

def StoreCall.key : StoreCall → String
  | .load key | .clear key | .recordBadDescriptor key _ _ | .badDescriptorPeers key _ => key
  | .save state => state.key

/-- The verdicts of one key, after a report. -/
def StateStore.recorded (s : StateStore) (key peerId : String) (now : Nat) :
    List BadDescriptorVerdict :=
  recordVerdict (s.verdicts key) peerId now

/-- Replace the verdicts of one key. -/
def StateStore.putVerdicts (s : StateStore) (key : String) (v : List BadDescriptorVerdict) :
    StateStore :=
  { s with verdicts := Function.update s.verdicts key v }

/-- A call of `InMemoryStateStore`. -/
def StateStore.call (s : StateStore) : StoreCall → StoreAnswer × StateStore
  | .load key => (.loaded (s.checkpoints key), s)
  | .save state => (.done, s.put state.key (some state))
  | .clear key => (.done, s.put key none)
  | .recordBadDescriptor key peerId now => (.done, s.putVerdicts key (s.recorded key peerId now))
  | .badDescriptorPeers key now => (.peers (livePeers (s.verdicts key) now), s)

section Programs

variable {Ask Own : Type}

/-- A call as the downloads make it. -/
def StoreCall.program (host : Host) : StoreCall → RunM Ask Own StoreAnswer
  | .load key => do return .loaded (← storeLoad host key)
  | .save state => do
      storeSave host state
      return .done
  | .clear key => do
      storeClear host key
      return .done
  | .recordBadDescriptor key peerId _ => do
      storeRecordBadDescriptor host key peerId
      return .done
  | .badDescriptorPeers key _ => do return .peers (← storeBadDescriptorPeers host key)

/-- The clock of the host says what the call says of it. -/
def StoreCall.InTime (host : Host) (t : Nat) : StoreCall → Prop
  | .recordBadDescriptor _ _ now | .badDescriptorPeers _ now => host.unixNow t = now
  | _ => True

/-- The store of a run whose host does not fail is the one in memory. -/
theorem program_healthy (unixNow : Nat → Nat) (call : StoreCall) (w : World Ask Own)
    (htime : call.InTime { Host.healthy with unixNow } w.tick) :
    (call.program { Host.healthy with unixNow } w).1 = .ok (w.store.call call).1 ∧
      (call.program { Host.healthy with unixNow } w).2.store = (w.store.call call).2 := by
  cases call with
  | recordBadDescriptor key peerId now =>
    cases htime
    exact ⟨rfl, rfl⟩
  | badDescriptorPeers key now =>
    cases htime
    exact ⟨rfl, rfl⟩
  | _ => exact ⟨rfl, rfl⟩

end Programs

/-! ## Files -/

/-- `serde_json` on checkpoints and on lists of verdicts. -/
structure StateJson where
  toVec : DownloadState → Bytes
  fromSlice : Bytes → Except String DownloadState
  verdicts : VerdictJson

/-- The files of the directory of a store, by their names. -/
abbrev StoreFiles := String → Option Bytes

/-- What the file system refuses to a call, and why: to read its file, unless there is none; to
write it, which may have cut it off after so many bytes; or to remove it. -/
structure Disk where
  read : Option String
  write : Option (String × Option Nat)
  remove : Option String

namespace Disk

/-- Nothing is refused. -/
def working : Disk := ⟨none, none, none⟩

/-- `create_dir_all` and `std::fs::write`. -/
def writeFile (disk : Disk) (files : StoreFiles) (name : String) (bytes : Bytes) :
    StoreAnswer × StoreFiles :=
  match disk.write with
  | none => (.done, Function.update files name (some bytes))
  | some (why, none) => (.failed (.state why), files)
  | some (why, some n) =>
      (.failed (.state why), Function.update files name (some (bytes.take n)))

/-- `std::fs::remove_file`, where a file that is not there is none that has to be removed. -/
def removeFile (disk : Disk) (files : StoreFiles) (name : String) : StoreAnswer × StoreFiles :=
  match disk.remove with
  | none => (.done, Function.update files name none)
  | some why => (.failed (.state why), files)

end Disk

/-- What a store on disk is built with. -/
structure FileStateStore where
  sha256 : Bytes → Bytes
  json : StateJson

namespace FileStateStore

variable (store : FileStateStore)

def checkpointFileStem (key : String) : String := hexOf (store.sha256 (Texts.bytes key))

def fileFor (key suffix : String) : String := store.checkpointFileStem key ++ suffix

def pathFor (key : String) : String := store.fileFor key ".json"

def reputationPathFor (key : String) : String := store.fileFor key ".holders.json"

/-- The verdicts persisted for a key. A record that is absent or unreadable reads as none. -/
def readVerdicts (disk : Disk) (files : StoreFiles) (key : String) : List BadDescriptorVerdict :=
  match disk.read with
  | some _ => []
  | none => store.json.verdicts.readVerdicts (files (store.reputationPathFor key))

/-- The file that a call writes, and what it writes there. -/
def writes (disk : Disk) (files : StoreFiles) : StoreCall → Option (String × Bytes)
  | .save state => some (store.pathFor state.key, store.json.toVec state)
  | .recordBadDescriptor key peerId now => some (store.reputationPathFor key,
      store.json.verdicts.encode (recordVerdict (store.readVerdicts disk files key) peerId now))
  | .load _ | .clear _ | .badDescriptorPeers _ _ => none

def load (disk : Disk) (files : StoreFiles) (key : String) : StoreAnswer :=
  match disk.read with
  | some why => .failed (.state why)
  | none =>
      match files (store.pathFor key) with
      | some bytes =>
          match store.json.fromSlice bytes with
          | .ok state => .loaded (some state)
          | .error why => .failed (.state why)
      | none => .loaded none

def call (disk : Disk) (files : StoreFiles) : StoreCall → StoreAnswer × StoreFiles
  | .load key => (store.load disk files key, files)
  | .save state => disk.writeFile files (store.pathFor state.key) (store.json.toVec state)
  | .clear key => disk.removeFile files (store.pathFor key)
  | .recordBadDescriptor key peerId now => disk.writeFile files (store.reputationPathFor key)
      (store.json.verdicts.encode (recordVerdict (store.readVerdicts disk files key) peerId now))
  | .badDescriptorPeers key now =>
      (.peers (livePeers (store.readVerdicts disk files key) now), files)

/-- What a process leaves that ends while a call writes its file, of which `n` bytes are there. -/
def tear (disk : Disk) (files : StoreFiles) (call : StoreCall) (n : Nat) : StoreFiles :=
  match store.writes disk files call with
  | some (name, bytes) => Function.update files name (some (bytes.take n))
  | none => files

/-- A name that the store gives to some file of its own. -/
def Owns (name : String) : Prop :=
  ∃ key, name = store.pathFor key ∨ name = store.reputationPathFor key

end FileStateStore

/-! ## Names -/

theorem not_mem_hexOf (digest : Bytes) : '.' ∉ (hexOf digest).toList := by
  have hdigit : ∀ n < 16, '.' ≠ hexDigit n := by decide +kernel
  rw [hexOf, String.toList_ofList, List.mem_flatMap]
  rintro ⟨b, -, hb⟩
  have hlt := b.toNat_lt
  rw [List.mem_cons, List.mem_singleton] at hb
  obtain hb | hb := hb
  · exact hdigit _ (by omega) hb
  · exact hdigit _ (by omega) hb

namespace FileStateStore

variable {store : FileStateStore} {key key' : String}

/-- Two keys share a file only when their digests collide. -/
theorem fileFor_inj {suffix : String} (h : store.fileFor key suffix = store.fileFor key' suffix) :
    store.sha256 (Texts.bytes key) = store.sha256 (Texts.bytes key') :=
  hexOf_inj (String.append_left_inj _ |>.mp h)

/-- A checkpoint never has the name of a record. -/
theorem pathFor_ne_reputationPathFor : store.pathFor key ≠ store.reputationPathFor key' := by
  intro h
  have hlist := congrArg String.toList h
  simp only [pathFor, reputationPathFor, fileFor, String.toList_append] at hlist
  have hsuffix : ".holders.json".toList = ".holders".toList ++ ".json".toList := by decide
  rw [hsuffix, ← List.append_assoc, List.append_cancel_right_eq] at hlist
  refine not_mem_hexOf (store.sha256 (Texts.bytes key)) ?_
  rw [checkpointFileStem] at hlist
  rw [hlist]
  exact List.mem_append_right _ (by decide)

end FileStateStore

end DigDownload
