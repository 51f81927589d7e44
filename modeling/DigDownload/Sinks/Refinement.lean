import DigDownload.Sinks.Impl

/-!
# The staging file against the buffer

The tests of the crate reason through the sink in memory, a node stages in a file. Over any
sequence of calls the two answer alike and hold the same bytes, but for calls that no
download makes: a write of no bytes past the staged end, which grows the buffer and not the
file, and a read of no bytes where nothing is staged, which the one answers and the other
refuses.
-/

namespace DigDownload

open Slices

/-- A call to a sink. -/
inductive SinkOp where
  | writeAt (offset : Nat) (bytes : Bytes)
  | truncate (len : Nat)
  | readAt (offset len : Nat)
  deriving DecidableEq

namespace SinkOp

variable {σ : Type}

/-- A call, and what its caller sees: whether it succeeded, and the bytes of a read. -/
def perform (S : SinkImpl σ) (s : σ) : SinkOp → Option Bytes × σ
  | .writeAt offset bytes =>
      ((S.writeAt offset bytes s).1.toOption.map fun _ => [], (S.writeAt offset bytes s).2)
  | .truncate len => ((S.truncate len s).1.toOption.map fun _ => [], (S.truncate len s).2)
  | .readAt offset len => ((S.readAt offset len s).1.toOption, (S.readAt offset len s).2)

/-- A sequence of calls, with the answers. -/
def performAll (S : SinkImpl σ) : σ → List SinkOp → List (Option Bytes) × σ
  | s, [] => ([], s)
  | s, op :: ops =>
      ((op.perform S s).1 :: (performAll S (op.perform S s).2 ops).1,
        (performAll S (op.perform S s).2 ops).2)

/-- A call that ends within the positions of a file, or past all the machine can count, and
that asks for no bytes only where there is a staged byte to the left. -/
def Ordinary (files : SinkFiles) : SinkOp → Prop
  | .writeAt offset bytes =>
      u64Max < offset + bytes.length ∨
        offset + bytes.length ≤ i64Max ∧ (bytes = [] → offset ≤ files.staged.length)
  | .truncate _ => True
  | .readAt offset len =>
      len = 0 → match files.tmp with
        | none => 0 < offset
        | some file => offset ≤ file.bytes.length ∨ i64Max < offset

/-- The two sinks, told the same, answer alike and then hold the same bytes. -/
def Agree (files : SinkFiles) (inner : Inner) (op : SinkOp) : Prop :=
  (op.perform fileSink files).1 = (op.perform inMemorySink inner).1 ∧
    (op.perform fileSink files).2.staged = (op.perform inMemorySink inner).2.buf

section Agree

variable {files : SinkFiles} {inner : Inner} {offset len : Nat} {bytes : Bytes}

theorem i64Max_le_u64Max : i64Max ≤ u64Max := by decide

theorem agree_truncate (h : files.staged = inner.buf) : Agree files inner (.truncate len) := by
  obtain ⟨hfile, hfile'⟩ := @FileSink.staged_truncate files len
  obtain ⟨hbuf, hbuf'⟩ := @InMemorySink.buf_truncate inner len
  constructor
  · show (FileSink.truncate len files).1.toOption.map _
      = (InMemorySink.truncate len inner).1.toOption.map _
    rw [hfile, hbuf]
  · show (FileSink.truncate len files).2.staged = (InMemorySink.truncate len inner).2.buf
    rw [hfile', hbuf', h]

theorem agree_writeAt_iff (h : files.staged = inner.buf) :
    Agree files inner (.writeAt offset bytes) ↔ Ordinary files (.writeAt offset bytes) := by
  show ((FileSink.writeAt offset bytes files).1.toOption.map _
      = (InMemorySink.writeAt offset bytes inner).1.toOption.map _ ∧
    (FileSink.writeAt offset bytes files).2.staged
      = (InMemorySink.writeAt offset bytes inner).2.buf) ↔ _
  cases Nat.lt_or_ge u64Max (offset + bytes.length) with
  | inl hover =>
    obtain ⟨⟨e, hfile⟩, hfile'⟩ := @FileSink.writeAt_of_lt files _ _
      (Nat.lt_of_le_of_lt i64Max_le_u64Max hover)
    obtain ⟨e', hbuf⟩ := @InMemorySink.writeAt_of_lt inner _ _ hover
    rw [hfile, hfile', hbuf]
    exact ⟨fun _ => Or.inl hover, fun _ => ⟨rfl, h⟩⟩
  | inr hfits =>
    obtain ⟨hbuf, hbuf'⟩ := @InMemorySink.writeAt_of_le inner _ _ hfits
    rw [hbuf, hbuf']
    cases Nat.lt_or_ge i64Max (offset + bytes.length) with
    | inl hlong =>
      -- the buffer takes what no file can hold
      obtain ⟨⟨e, hfile⟩, -⟩ := @FileSink.writeAt_of_lt files _ _ hlong
      rw [hfile]
      constructor
      · intro hagree
        cases hagree.1
      · intro hord
        cases hord with
        | inl hover => exact absurd hover (Nat.not_lt.mpr hfits)
        | inr hshort => exact absurd hshort.1 (Nat.not_le.mpr hlong)
    | inr hshort =>
      by_cases hnil : bytes = []
      · subst hnil
        obtain ⟨hfile, hfile'⟩ := @FileSink.writeAt_nil files offset hshort
        rw [hfile, hfile', ← h]
        constructor
        · intro hagree
          exact Or.inr ⟨hshort, fun _ => (overwrite_nil_eq_iff 0 _ _).mp hagree.2.symm⟩
        · intro hord
          cases hord with
          | inl hover => exact absurd hover (Nat.not_lt.mpr hfits)
          | inr hpast =>
            exact ⟨rfl, ((overwrite_nil_eq_iff 0 _ _).mpr (hpast.2 rfl)).symm⟩
      · obtain ⟨hfile, hfile'⟩ := @FileSink.writeAt_of_le files _ _ hnil hshort
        rw [hfile, hfile', h]
        exact ⟨fun _ => Or.inr ⟨hshort, fun hnil' => absurd hnil' hnil⟩, fun _ => ⟨rfl, rfl⟩⟩

theorem agree_readAt_iff (h : files.staged = inner.buf) :
    Agree files inner (.readAt offset len) ↔ Ordinary files (.readAt offset len) := by
  -- neither sink is changed by a read
  have hkept : (InMemorySink.readAt offset len inner).2 = inner := InMemorySink.readAt_inner
  have hagree : Agree files inner (.readAt offset len) ↔
      (FileSink.readAt offset len files).1.toOption
        = (InMemorySink.readAt offset len inner).1.toOption := by
    show (_ ∧ (FileSink.readAt offset len files).2.staged
      = (InMemorySink.readAt offset len inner).2.buf) ↔ _
    rw [FileSink.readAt_files, hkept]
    exact and_iff_left h
  rw [hagree]
  cases len with
  | succ len =>
    have hlen : 0 < len + 1 := Nat.succ_pos len
    refine iff_of_true ?_ (fun hzero => absurd hzero (Nat.succ_ne_zero len))
    cases Nat.lt_or_ge inner.buf.length (offset + (len + 1)) with
    | inl hlt =>
      obtain ⟨e, hbuf⟩ := InMemorySink.readAt_of_lt hlt
      obtain ⟨e', hfile⟩ := FileSink.readAt_of_lt (h ▸ hlt) hlen
      rw [hbuf, hfile]
      rfl
    | inr hle =>
      rw [InMemorySink.readAt_of_le hle, FileSink.readAt_of_le hlen (h ▸ hle), h]
  | zero =>
    have hmem : (InMemorySink.readAt offset 0 inner).1.toOption
        = if offset ≤ inner.buf.length then some [] else none := by
      split
      · rename_i hle
        have hread : InMemorySink.readAt offset 0 inner = (.ok [], inner) :=
          InMemorySink.readAt_of_le hle
        rw [hread]
        rfl
      · rename_i hlt
        have hread : inner.buf.length < offset + 0 := Nat.lt_of_not_le hlt
        obtain ⟨e, hread⟩ := InMemorySink.readAt_of_lt hread
        rw [hread]
        rfl
    rw [hmem]
    cases htmp : files.tmp with
    | none =>
      -- the absent file is refused, the empty buffer answers at its start
      have hempty : inner.buf = [] := by
        rw [← h, SinkFiles.staged, htmp]
        rfl
      rw [FileSink.readAt_of_none htmp, hempty]
      show none = (if offset ≤ 0 then some [] else none) ↔ Ordinary files (.readAt offset 0)
      simp [Ordinary, htmp, Nat.pos_iff_ne_zero]
    | some file =>
      have hbytes : inner.buf = file.bytes := by
        rw [← h, SinkFiles.staged, htmp]
        rfl
      rw [hbytes]
      cases Nat.lt_or_ge i64Max offset with
      | inl hpast =>
        have hlt : ¬ offset ≤ file.bytes.length := fun hle =>
          Nat.not_le.mpr hpast (hle.trans file.fits)
        rw [FileSink.readAt_of_lt_i64Max htmp hpast, if_neg hlt]
        simp [Ordinary, htmp, hpast, Except.toOption]
      | inr hfits =>
        rw [FileSink.readAt_zero htmp hfits]
        show some [] = (if offset ≤ file.bytes.length then some [] else none) ↔
          Ordinary files (.readAt offset 0)
        simp [Ordinary, htmp, Nat.not_lt.mpr hfits]

/-- Two sinks that hold the same bytes agree about exactly the ordinary calls. -/
theorem agree_iff (h : files.staged = inner.buf) (op : SinkOp) :
    Agree files inner op ↔ op.Ordinary files := by
  cases op with
  | writeAt offset bytes => exact agree_writeAt_iff h
  | truncate len => exact iff_of_true (agree_truncate h) trivial
  | readAt offset len => exact agree_readAt_iff h

end Agree

/-- Every call of a sequence is ordinary where the sinks have got to. -/
def AllOrdinary : SinkFiles → List SinkOp → Prop
  | _, [] => True
  | files, op :: ops => op.Ordinary files ∧ AllOrdinary (op.perform fileSink files).2 ops

/-- The staging file holds what the buffer holds, through any ordinary calls. -/
theorem performAll_agree {files : SinkFiles} {inner : Inner} (h : files.staged = inner.buf)
    {ops : List SinkOp} (hops : AllOrdinary files ops) :
    (performAll fileSink files ops).1 = (performAll inMemorySink inner ops).1 ∧
      (performAll fileSink files ops).2.staged = (performAll inMemorySink inner ops).2.buf := by
  induction ops generalizing files inner with
  | nil => exact ⟨rfl, h⟩
  | cons op ops ih =>
    obtain ⟨hop, hrest⟩ := hops
    obtain ⟨hanswer, hstaged⟩ := (agree_iff h op).mpr hop
    obtain ⟨hanswers, hend⟩ := ih hstaged hrest
    exact ⟨congrArg₂ List.cons hanswer hanswers, hend⟩

end SinkOp

open SinkOp

/-- From a fresh start the staging file and the buffer give the same answers to any sequence
of ordinary calls and hold the same bytes after it; and no read creates the staging file. -/
theorem fileSink_refines_inMemorySink (ops : List SinkOp)
    (h : AllOrdinary FileSink.new ops) :
    (performAll fileSink FileSink.new ops).1
        = (performAll inMemorySink InMemorySink.new ops).1 ∧
      (performAll fileSink FileSink.new ops).2.staged
        = (performAll inMemorySink InMemorySink.new ops).2.buf ∧
      ∀ (files : SinkFiles) (offset len : Nat), files.tmp = none →
        (SinkOp.readAt offset len).perform fileSink files = (none, files) := by
  have hfresh : FileSink.new.staged = InMemorySink.new.buf := rfl
  obtain ⟨hanswers, hstaged⟩ := performAll_agree hfresh h
  refine ⟨hanswers, hstaged, ?_⟩
  intro files offset len htmp
  show ((FileSink.readAt offset len files).1.toOption, (FileSink.readAt offset len files).2) = _
  rw [FileSink.readAt_of_none htmp]
  rfl

/-- A write past the end, a read over the gap, a truncation, a read of no bytes. -/
theorem fileSink_refines_inMemorySink_gap :
    (performAll fileSink FileSink.new
        [.writeAt 2 [7], .readAt 0 3, .truncate 1, .readAt 1 0]).1
      = (performAll inMemorySink InMemorySink.new
        [.writeAt 2 [7], .readAt 0 3, .truncate 1, .readAt 1 0]).1 :=
  (fileSink_refines_inMemorySink [.writeAt 2 [7], .readAt 0 3, .truncate 1, .readAt 1 0]
    ⟨Or.inr ⟨by decide, fun h => absurd h (List.cons_ne_nil _ _)⟩,
      fun h => absurd h (by decide), trivial, fun _ => Or.inl (by decide), trivial⟩).1

/-- The two sinks do not agree about every sequence: not about reading nothing from an absent
file, nor about writing nothing past the end. -/
theorem fileSink_not_inMemorySink :
    ¬ (∀ ops : List SinkOp,
      (performAll fileSink FileSink.new ops).1
          = (performAll inMemorySink InMemorySink.new ops).1 ∧
        (performAll fileSink FileSink.new ops).2.staged
          = (performAll inMemorySink InMemorySink.new ops).2.buf) ∧
      (performAll fileSink FileSink.new [.readAt 0 0]).1 = [none] ∧
      (performAll inMemorySink InMemorySink.new [.readAt 0 0]).1 = [some []] ∧
      (performAll fileSink FileSink.new [.writeAt 3 []]).2.staged = [] ∧
      (performAll inMemorySink InMemorySink.new [.writeAt 3 []]).2.buf = [0, 0, 0] := by
  have hfile : (performAll fileSink FileSink.new [.readAt 0 0]).1 = [none] := by decide +kernel
  have hbuf : (performAll inMemorySink InMemorySink.new [.readAt 0 0]).1 = [some []] := by
    decide +kernel
  refine ⟨fun hall => ?_, hfile, hbuf, by decide +kernel, by decide +kernel⟩
  have heq := (hall [.readAt 0 0]).1
  rw [hfile, hbuf] at heq
  cases heq

end DigDownload
