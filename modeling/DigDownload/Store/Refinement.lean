import DigDownload.Lib.Runs
import DigDownload.Store.Calls

/-!
# The store on disk keeps what the store in memory keeps

As long as the digests of the keys in use do not collide, the files of a `FileStateStore` say what
the maps of an `InMemoryStateStore` would, across every end of the process, every call that the
file system refuses, and whatever others do in the directory. A write that is cut off, by the end
of the process or by a disk that is full, leaves a checkpoint that cannot be read until it is saved
or cleared again, and a record that counts as empty; any other call that is refused changes
nothing.
-/

namespace DigDownload

open Runs

/-! ## What the store is for -/

/-- A store in memory, and the keys whose checkpoints were cut off while they were written. -/
structure CrashedStore where
  store : StateStore
  torn : Finset String

/-- What happens to a store, and in the directory where it has its files. -/
inductive StoreAct where
  /-- a call, and what the file system refuses to it -/
  | call (c : StoreCall) (disk : Disk)
  /-- the process ends while the call writes, with so many bytes in the file -/
  | crash (c : StoreCall) (disk : Disk) (n : Nat)
  /-- somebody else writes or removes a file -/
  | other (name : String) (file : Option Bytes)

/-- The key of the call. -/
def StoreAct.key? : StoreAct → Option String
  | .call c _ | .crash c _ _ => some c.key
  | .other _ _ => none

/-- Answers that agree: the text of an error of the store is not part of it. -/
def StoreAnswer.Agrees : StoreAnswer → StoreAnswer → Prop
  | .failed (.state _), .failed (.state _) => True
  | a, b => a = b

theorem StoreAnswer.Agrees.refl (a : StoreAnswer) : a.Agrees a := by
  unfold StoreAnswer.Agrees
  split
  · trivial
  · rfl

namespace CrashedStore

/-- The end of the process in the middle of a call. -/
def crash (t : CrashedStore) : StoreCall → CrashedStore
  | .save state => { t with torn := insert state.key t.torn }
  | .recordBadDescriptor key _ _ => { t with store := t.store.putVerdicts key [] }
  | .load _ | .clear _ | .badDescriptorPeers _ _ => t

/-- What a call sees of the verdicts: none where the record cannot be read. -/
def seen (t : CrashedStore) (disk : Disk) (key : String) : StateStore :=
  match disk.read with
  | none => t.store
  | some _ => t.store.putVerdicts key []

/-- A call that writes: done, refused, or cut off as by the end of the process. -/
def write (t : CrashedStore) (disk : Disk) (c : StoreCall) (done : StoreAnswer × CrashedStore) :
    StoreAnswer × CrashedStore :=
  match disk.write with
  | none => done
  | some (why, none) => (.failed (.state why), t)
  | some (why, some _) => (.failed (.state why), t.crash c)

/-- A call; a checkpoint that is saved or cleared is whole again. -/
def call (t : CrashedStore) (disk : Disk) (c : StoreCall) : StoreAnswer × CrashedStore :=
  match c with
  | .load key =>
      match disk.read with
      | some why => (.failed (.state why), t)
      | none => if key ∈ t.torn then (.failed (.state ""), t) else ((t.store.call c).1, t)
  | .save _ =>
      t.write disk c ((t.store.call c).1, ⟨(t.store.call c).2, t.torn.erase c.key⟩)
  | .clear _ =>
      match disk.remove with
      | some why => (.failed (.state why), t)
      | none => ((t.store.call c).1, ⟨(t.store.call c).2, t.torn.erase c.key⟩)
  | .recordBadDescriptor key _ _ =>
      t.write disk c
        (((t.seen disk key).call c).1, { t with store := ((t.seen disk key).call c).2 })
  | .badDescriptorPeers key _ => (((t.seen disk key).call c).1, t)

def after (t : CrashedStore) : StoreAct → CrashedStore
  | .call c disk => (t.call disk c).2
  | .crash c _ _ => t.crash c
  | .other _ _ => t

def answers : CrashedStore → List StoreAct → List StoreAnswer
  | _, [] => []
  | t, .call c disk :: acts => (t.call disk c).1 :: (t.after (.call c disk)).answers acts
  | t, act :: acts => (t.after act).answers acts

end CrashedStore

/-! ## What the files say -/

namespace StateJson

/-- What a call writes to its end reads back. -/
def ReadsWhole (json : StateJson) (seen : StateStore) : StoreCall → Prop
  | .save state => json.fromSlice (json.toVec state) = .ok state
  | .recordBadDescriptor key peerId now =>
      json.verdicts.decode (json.verdicts.encode (seen.recorded key peerId now))
        = some (seen.recorded key peerId now)
  | .load _ | .clear _ | .badDescriptorPeers _ _ => True

/-- What a call writes and is cut off does not read at all. -/
def RefusesCut (json : StateJson) (seen : StateStore) (n : Nat) : StoreCall → Prop
  | .save state => ∃ why, json.fromSlice ((json.toVec state).take n) = .error why
  | .recordBadDescriptor key peerId now =>
      json.verdicts.decode ((json.verdicts.encode (seen.recorded key peerId now)).take n) = none
  | .load _ | .clear _ | .badDescriptorPeers _ _ => True

/-- What the store relies on of `serde_json` in an act. -/
def ReadsBack (json : StateJson) (t : CrashedStore) : StoreAct → Prop
  | .call c disk =>
      match disk.write with
      | none => json.ReadsWhole (t.seen disk c.key) c
      | some (_, none) => True
      | some (_, some n) => json.RefusesCut (t.seen disk c.key) n c
  | .crash c disk n => json.RefusesCut (t.seen disk c.key) n c
  | .other _ _ => True

end StateJson

namespace FileStateStore

def after (store : FileStateStore) (files : StoreFiles) : StoreAct → StoreFiles
  | .call c disk => (store.call disk files c).2
  | .crash c disk n => store.tear disk files c n
  | .other name file => Function.update files name file

def answers (store : FileStateStore) : StoreFiles → List StoreAct → List StoreAnswer
  | _, [] => []
  | files, .call c disk :: acts =>
      (store.call disk files c).1 :: store.answers (store.after files (.call c disk)) acts
  | files, act :: acts => store.answers (store.after files act) acts

/-- A file with a checkpoint: absent, whole, or cut off. -/
def FileSays (store : FileStateStore) (file : Option Bytes) (torn : Prop)
    (checkpoint : Option DownloadState) : Prop :=
  (torn → ∃ bytes why, file = some bytes ∧ store.json.fromSlice bytes = .error why) ∧
    (¬ torn → ∀ state, checkpoint = some state →
      ∃ bytes, file = some bytes ∧ store.json.fromSlice bytes = .ok state) ∧
    (¬ torn → checkpoint = none → file = none)

/-- The files of the keys in use say what the store in memory has. -/
structure Represents (store : FileStateStore) (keys : Set String) (files : StoreFiles)
    (t : CrashedStore) : Prop where
  checkpoint : ∀ key ∈ keys,
    store.FileSays (files (store.pathFor key)) (key ∈ t.torn) (t.store.checkpoints key)
  verdicts : ∀ key ∈ keys, store.readVerdicts .working files key = t.store.verdicts key

/-- The digests of the keys in use do not collide. -/
def Separates (store : FileStateStore) (keys : Set String) : Prop :=
  ∀ key ∈ keys, ∀ key' ∈ keys,
    store.sha256 (Texts.bytes key) = store.sha256 (Texts.bytes key') → key = key'

variable {store : FileStateStore} {keys : Set String} {files : StoreFiles} {t : CrashedStore}
  {key key' name : String} {file : Option Bytes}

theorem Separates.pathFor_ne (h : store.Separates keys) (hkey : key ∈ keys) (hkey' : key' ∈ keys)
    (hne : key' ≠ key) : store.pathFor key' ≠ store.pathFor key :=
  fun heq => hne (h key' hkey' key hkey (fileFor_inj heq))

theorem Separates.reputationPathFor_ne (h : store.Separates keys) (hkey : key ∈ keys)
    (hkey' : key' ∈ keys) (hne : key' ≠ key) :
    store.reputationPathFor key' ≠ store.reputationPathFor key :=
  fun heq => hne (h key' hkey' key hkey (fileFor_inj heq))

/-- A file that is not one of the record files changes no verdicts. -/
theorem readVerdicts_update (h : store.reputationPathFor key ≠ name) :
    store.readVerdicts .working (Function.update files name file) key
      = store.readVerdicts .working files key := by
  show store.json.verdicts.readVerdicts _ = store.json.verdicts.readVerdicts _
  rw [Function.update_of_ne h]

/-- A checkpoint is written, cut off or removed. -/
theorem Represents.checkpointed (h : store.Represents keys files t) (hkeys : store.Separates keys)
    (hkey : key ∈ keys) {checkpoints : String → Option DownloadState} {torn : Finset String}
    (hcheckpoints : ∀ key' ≠ key, checkpoints key' = t.store.checkpoints key')
    (htorn : ∀ key' ≠ key, (key' ∈ torn ↔ key' ∈ t.torn))
    (hfile : store.FileSays file (key ∈ torn) (checkpoints key)) :
    store.Represents keys (Function.update files (store.pathFor key) file)
      ⟨⟨checkpoints, t.store.verdicts⟩, torn⟩ where
  checkpoint key' hkey' := by
    by_cases hne : key' = key
    · subst hne
      rw [Function.update_self]
      exact hfile
    · rw [Function.update_of_ne (hkeys.pathFor_ne hkey hkey' hne)]
      have := h.checkpoint key' hkey'
      rw [FileSays] at this ⊢
      rw [htorn key' hne]
      show _ ∧ (_ → ∀ state, checkpoints key' = _ → _) ∧ (_ → checkpoints key' = _ → _)
      rw [hcheckpoints key' hne]
      exact this
  verdicts key' hkey' := by
    rw [readVerdicts_update (Ne.symm pathFor_ne_reputationPathFor)]
    exact h.verdicts key' hkey'

/-- A record is written or cut off. -/
theorem Represents.recorded (h : store.Represents keys files t) (hkeys : store.Separates keys)
    (hkey : key ∈ keys) {verdicts : List BadDescriptorVerdict}
    (hreads : store.json.verdicts.readVerdicts file = verdicts) :
    store.Represents keys (Function.update files (store.reputationPathFor key) file)
      { t with store := t.store.putVerdicts key verdicts } where
  checkpoint key' hkey' := by
    rw [Function.update_of_ne pathFor_ne_reputationPathFor]
    exact h.checkpoint key' hkey'
  verdicts key' hkey' := by
    by_cases hne : key' = key
    · subst hne
      rw [readVerdicts, Function.update_self, hreads]
      exact (Function.update_self key' verdicts t.store.verdicts).symm
    · rw [readVerdicts_update (hkeys.reputationPathFor_ne hkey hkey' hne), h.verdicts key' hkey']
      exact (Function.update_of_ne hne verdicts t.store.verdicts).symm

theorem Represents.other (h : store.Represents keys files t) (hname : ¬ store.Owns name) :
    store.Represents keys (Function.update files name file) t where
  checkpoint key hkey := by
    rw [Function.update_of_ne fun heq => hname ⟨key, .inl heq.symm⟩]
    exact h.checkpoint key hkey
  verdicts key hkey := by
    rw [readVerdicts_update fun heq => hname ⟨key, .inr heq.symm⟩]
    exact h.verdicts key hkey

/-- A call sees the verdicts of its record, or none of them. -/
theorem Represents.seen (h : store.Represents keys files t) (hkey : key ∈ keys) (disk : Disk) :
    store.readVerdicts disk files key = (t.seen disk key).verdicts key := by
  rw [readVerdicts, CrashedStore.seen]
  cases disk.read with
  | none => exact h.verdicts key hkey
  | some why => exact (Function.update_self key [] t.store.verdicts).symm

/-- A load says what the checkpoint of its file is. -/
theorem Represents.load (h : store.Represents keys files t) (hkey : key ∈ keys) (disk : Disk) :
    (store.load disk files key).Agrees (t.call disk (.load key)).1 := by
  obtain ⟨htorn, hwhole, habsent⟩ := h.checkpoint key hkey
  rw [CrashedStore.call, FileStateStore.load]
  cases disk.read with
  | some why => exact .refl _
  | none =>
    dsimp only
    by_cases hmem : key ∈ t.torn
    · obtain ⟨bytes, why, hfile, hreads⟩ := htorn hmem
      rw [if_pos hmem, hfile]
      simp only [hreads]
      trivial
    · rw [if_neg hmem]
      show StoreAnswer.Agrees _ (.loaded (t.store.checkpoints key))
      cases hcheckpoint : t.store.checkpoints key with
      | none =>
        rw [habsent hmem hcheckpoint]
        exact rfl
      | some state =>
        obtain ⟨bytes, hfile, hreads⟩ := hwhole hmem state hcheckpoint
        rw [hfile]
        simp only [hreads]
        exact rfl

/-- A checkpoint that is written to its end, or removed, is whole again. -/
theorem Represents.put (h : store.Represents keys files t) (hkeys : store.Separates keys)
    (hkey : key ∈ keys) {checkpoint : Option DownloadState}
    (hsome : ∀ state, checkpoint = some state →
      ∃ bytes, file = some bytes ∧ store.json.fromSlice bytes = .ok state)
    (hnone : checkpoint = none → file = none) :
    store.Represents keys (Function.update files (store.pathFor key) file)
      ⟨t.store.put key checkpoint, t.torn.erase key⟩ := by
  have hself : Function.update t.store.checkpoints key checkpoint key = checkpoint :=
    Function.update_self ..
  refine h.checkpointed hkeys hkey (fun key' hne => Function.update_of_ne hne ..)
    (fun key' hne => Finset.mem_erase.trans (and_iff_right hne))
    ⟨fun hmem => absurd hmem (Finset.notMem_erase _ _), fun _ state hstate => ?_, fun _ hgone => ?_⟩
  · exact hsome state (hself.symm.trans hstate)
  · exact hnone (hself.symm.trans hgone)

/-- A report that is written to its end. -/
theorem Represents.reported (h : store.Represents keys files t) (hkeys : store.Separates keys)
    (hkey : key ∈ keys) {peerId : String} {now : Nat} (disk : Disk)
    (hreads : store.json.ReadsWhole (t.seen disk key) (.recordBadDescriptor key peerId now)) :
    store.Represents keys
      (Function.update files (store.reputationPathFor key) (some (store.json.verdicts.encode
        (recordVerdict (store.readVerdicts disk files key) peerId now))))
      { t with store := ((t.seen disk key).call (.recordBadDescriptor key peerId now)).2 } := by
  have hstore : ((t.seen disk key).call (.recordBadDescriptor key peerId now)).2
      = t.store.putVerdicts key ((t.seen disk key).recorded key peerId now) := by
    rw [CrashedStore.seen]
    cases disk.read with
    | none => rfl
    | some why =>
      show StateStore.mk _ (Function.update (Function.update _ key []) key _) = _
      rw [Function.update_idem]
      rfl
  rw [hstore]
  refine h.recorded hkeys hkey ?_
  rw [h.seen hkey disk]
  show (store.json.verdicts.decode _).getD [] = _
  exact congrArg (Option.getD · []) hreads

/-- A write that is cut off leaves what the end of the process leaves. -/
theorem Represents.tear (h : store.Represents keys files t) (hkeys : store.Separates keys)
    (c : StoreCall) (disk : Disk) (n : Nat) (hkey : c.key ∈ keys)
    (hjson : store.json.RefusesCut (t.seen disk c.key) n c) :
    store.Represents keys (store.tear disk files c n) (t.crash c) := by
  cases c with
  | save state =>
    refine h.checkpointed hkeys hkey (fun _ _ => rfl) (fun key' hne => ?_) ⟨fun _ => ?_,
      fun hwhole => ?_, fun hwhole => ?_⟩
    · exact Finset.mem_insert.trans (or_iff_right hne)
    · obtain ⟨why, hreads⟩ := hjson
      exact ⟨_, why, rfl, hreads⟩
    · exact absurd (Finset.mem_insert_self _ _) hwhole
    · exact absurd (Finset.mem_insert_self _ _) hwhole
  | recordBadDescriptor key peerId now =>
    have hseen : store.readVerdicts disk files key = (t.seen disk key).verdicts key :=
      h.seen hkey disk
    refine h.recorded hkeys hkey ?_
    rw [hseen]
    show (store.json.verdicts.decode _).getD [] = _
    exact congrArg (Option.getD · []) hjson
  | _ => exact h

/-- A call that writes answers alike whether its write is done, refused or cut off. -/
theorem Represents.write (h : store.Represents keys files t) (hkeys : store.Separates keys)
    {c : StoreCall} (hkey : c.key ∈ keys) {disk : Disk} {bytes : Bytes} {t' : CrashedStore}
    (hwrites : store.writes disk files c = some (name, bytes))
    (hjson : store.json.ReadsBack t (.call c disk))
    (hdone : store.json.ReadsWhole (t.seen disk c.key) c →
      store.Represents keys (Function.update files name (some bytes)) t') :
    (disk.writeFile files name bytes).1.Agrees (t.write disk c (.done, t')).1 ∧
      store.Represents keys (disk.writeFile files name bytes).2
        (t.write disk c (.done, t')).2 := by
  rw [Disk.writeFile, CrashedStore.write]
  unfold StateJson.ReadsBack at hjson
  match disk, hwrites, hjson, hdone with
  | ⟨_, none, _⟩, _, hjson, hdone => exact ⟨rfl, hdone hjson⟩
  | ⟨_, some (why, none), _⟩, _, _, _ => exact ⟨.refl _, h⟩
  | ⟨read, some (why, some n), remove⟩, hwrites, hjson, _ =>
    have htorn := h.tear hkeys c ⟨read, some (why, some n), remove⟩ n hkey hjson
    rw [FileStateStore.tear, hwrites] at htorn
    exact ⟨.refl _, htorn⟩

theorem Represents.call (h : store.Represents keys files t) (hkeys : store.Separates keys)
    (c : StoreCall) (disk : Disk) (hkey : c.key ∈ keys)
    (hjson : store.json.ReadsBack t (.call c disk)) :
    ((store.call disk files c).1).Agrees (t.call disk c).1 ∧
      store.Represents keys (store.call disk files c).2 (t.call disk c).2 := by
  cases c with
  | load key =>
    refine ⟨h.load hkey disk, ?_⟩
    rw [CrashedStore.call]
    split
    · exact h
    · split
      · exact h
      · exact h
  | save state =>
    refine h.write hkeys hkey rfl hjson fun hreads => h.put hkeys hkey (fun state' hstate => ?_) nofun
    cases hstate
    exact ⟨_, rfl, hreads⟩
  | clear key =>
    show (disk.removeFile files (store.pathFor key)).1.Agrees _ ∧
      store.Represents keys (disk.removeFile files (store.pathFor key)).2 _
    rw [Disk.removeFile, CrashedStore.call]
    cases disk.remove with
    | none => exact ⟨rfl, h.put hkeys hkey nofun fun _ => rfl⟩
    | some why => exact ⟨.refl _, h⟩
  | recordBadDescriptor key peerId now =>
    exact h.write hkeys hkey rfl hjson fun hreads => h.reported hkeys hkey disk hreads
  | badDescriptorPeers key now =>
    have hseen : store.readVerdicts disk files key = (t.seen disk key).verdicts key :=
      h.seen hkey disk
    refine ⟨?_, h⟩
    show StoreAnswer.peers (livePeers (store.readVerdicts disk files key) now) = _
    rw [hseen]
    rfl

/-- Whatever is called, whatever the file system refuses, whenever the process ends, and whatever
others do in the directory with files that are not the store's, a store on disk answers as the
store in memory does in which the checkpoints that were cut off are marked and the calls that were
refused are errors. -/
theorem file_store_refines (store : FileStateStore) (keys : Set String) (acts : List StoreAct)
    (files : StoreFiles) (t : CrashedStore) (hrep : store.Represents keys files t)
    (hdigests : store.Separates keys)
    (hkeys : ∀ act ∈ acts, ∀ key, act.key? = some key → key ∈ keys)
    (hothers : ∀ name file, .other name file ∈ acts → ¬ store.Owns name)
    (hjson : Along (fun t act => some (t.after act)) store.json.ReadsBack t acts) :
    List.Forall₂ StoreAnswer.Agrees (store.answers files acts) (t.answers acts) := by
  induction acts generalizing files t with
  | nil => exact .nil
  | cons act acts ih =>
    obtain ⟨hreads, hrest⟩ := hjson
    have hnext : ∀ files', store.Represents keys files' (t.after act) →
        List.Forall₂ StoreAnswer.Agrees (store.answers files' acts)
          ((t.after act).answers acts) := fun files' hrep' =>
      ih files' _ hrep' (fun act hact => hkeys act (List.mem_cons_of_mem _ hact))
        (fun name file hother => hothers name file (List.mem_cons_of_mem _ hother))
        (hrest _ rfl)
    cases act with
    | call c disk =>
      obtain ⟨hanswer, hrep'⟩ :=
        hrep.call hdigests c disk (hkeys _ List.mem_cons_self _ rfl) hreads
      exact .cons hanswer (hnext _ hrep')
    | crash c disk n =>
      exact hnext _ (hrep.tear hdigests c disk n (hkeys _ List.mem_cons_self _ rfl) hreads)
    | other name file => exact hnext _ (hrep.other (hothers name file List.mem_cons_self))

/-! ## A small store -/

/-- A checkpoint with one range done. -/
def smallState : DownloadState where
  key := "small"
  totalLength := 3
  chunkLens := [2, 1]
  root := none
  inclusionProof := none
  doneRanges := {0}

/-- The checkpoint as `serde_json` writes it. -/
def smallStateJson : Bytes :=
  asciiBytes ("\x7b\"key\":\"small\",\"total_length\":3,\"chunk_lens\":[2,1],\"root\":null," ++
    "\"inclusion_proof\":null,\"done_ranges\":[0]\x7d")

/-- `serde_json` on that checkpoint and on a few records. -/
def smallStateStore : FileStateStore where
  sha256 bytes := if bytes = asciiBytes "small" then
    [129, 219, 142, 187, 187, 198, 156, 108, 106, 212, 166, 170, 146, 183, 110, 12, 8, 175, 84, 125,
      162, 54, 185, 226, 201, 219, 225, 216, 40, 90, 129, 48] else smallSha256 bytes
  json := {
    toVec := fun state => if state = smallState then smallStateJson else []
    fromSlice := fun bytes => if bytes = smallStateJson then .ok smallState
      else .error "EOF while parsing a value at line 1 column 0"
    verdicts := twoJson }

/-- A disk that is full after three bytes. -/
def fullDisk : Disk := ⟨none, some ("No space left on device (os error 28)", some 3), none⟩

/-- A disk whose directory and files the process may neither read nor change. -/
def deniedDisk : Disk := ⟨some "Permission denied (os error 13)",
  some ("Permission denied (os error 13)", none), some "Permission denied (os error 13)"⟩

/-- A checkpoint and a report; a write that is cut off after three bytes, by a disk that is full
and by the end of the process; calls that are denied; and a new start. -/
def smallStoreActs : List StoreAct :=
  [.call (.save smallState) .working,
    .call (.recordBadDescriptor "small" somePeerId 1700000000) .working,
    .call (.load "small") .working, .call (.save smallState) fullDisk,
    .call (.load "small") .working, .call (.save smallState) .working,
    .crash (.save smallState) .working 3, .call (.load "small") deniedDisk,
    .call (.clear "small") deniedDisk, .call (.save smallState) deniedDisk,
    .call (.load "small") .working, .call (.clear "small") .working,
    .call (.load "small") .working, .call (.badDescriptorPeers "small" 1700000000) deniedDisk,
    .call (.badDescriptorPeers "small" 1700000000) .working]

theorem represents_empty (store : FileStateStore) (keys : Set String) :
    store.Represents keys (fun _ => none) ⟨emptyStore, ∅⟩ where
  checkpoint key _ := by
    refine ⟨fun hmem => absurd hmem (Finset.notMem_empty key), fun _ state hstate => ?_,
      fun _ _ => rfl⟩
    cases hstate
  verdicts key _ := rfl

theorem file_store_refines_small :
    List.Forall₂ StoreAnswer.Agrees (smallStateStore.answers (fun _ => none) smallStoreActs)
      (CrashedStore.answers ⟨emptyStore, ∅⟩ smallStoreActs) := by
  refine file_store_refines smallStateStore {"small"} smallStoreActs _ _ (represents_empty _ _)
    (fun key hkey key' hkey' _ => hkey.trans hkey'.symm) ?_ ?_ ?_
  · have hkeys : ∀ act ∈ smallStoreActs, act.key? = some "small" := by simp [smallStoreActs,
      StoreAct.key?, StoreCall.key, smallState]
    intro act hact key hkey
    rw [hkeys act hact] at hkey
    exact (Option.some.inj hkey).symm
  · intro name file hother
    simp [smallStoreActs] at hother
  · have hwhole : smallStateStore.json.fromSlice (smallStateStore.json.toVec smallState)
        = .ok smallState := by decide +kernel
    have hrecord : twoJson.decode (twoJson.encode (recordVerdict [] somePeerId 1700000000))
        = some (recordVerdict [] somePeerId 1700000000) := by decide +kernel
    have hcut : smallStateStore.json.fromSlice ((smallStateStore.json.toVec smallState).take 3)
        = .error "EOF while parsing a value at line 1 column 0" := by decide +kernel
    rw [smallStoreActs]
    refine along_cons_total.mpr ⟨hwhole, along_cons_total.mpr ⟨hrecord, along_cons_total.mpr
      ⟨trivial, along_cons_total.mpr ⟨⟨_, hcut⟩, along_cons_total.mpr ⟨trivial,
        along_cons_total.mpr ⟨hwhole, along_cons_total.mpr ⟨⟨_, hcut⟩, ?_⟩⟩⟩⟩⟩⟩⟩
    exact along_of_forall (by simp [StateJson.ReadsBack, StateJson.ReadsWhole, Disk.working,
      deniedDisk])

end FileStateStore

end DigDownload
