import DigDownload.Error
import DigDownload.Lib.Runs
import Mathlib.Data.Finset.Insert
import Mathlib.Data.Finset.Erase
import Mathlib.Data.Finset.Dedup

/-!
# Staging claims and the sweep of stale staging files

A download claims its staging path in a registry that every download and every sweep
shares. The lock of the registry is held for one set operation at a time, so a claim, the
drop of a claim and the protected check of a sweep are single steps. A sweep goes through
a directory entry by entry: it lists an entry, asks the registry, looks at the age of the
file and unlinks it, and anything may happen between two of these.

The registry keeps the claims exclusive. It does not keep a sweep from unlinking a path
that was claimed after the sweep had asked for it.
-/

namespace DigDownload

open Runs

/-! ## The registry -/

/-- The staging paths of live and of paused-resumable downloads. -/
structure ActiveDownloads where
  protectedPaths : Finset String

/-- An exclusive hold on one staging path. -/
structure StagingClaim where
  path : String
  deriving DecidableEq

def ActiveDownloads.new : ActiveDownloads := ⟨∅⟩

/-- Claims the path, or none if a live download already holds it. -/
def ActiveDownloads.claim (registry : ActiveDownloads) (path : String) :
    Option (ActiveDownloads × StagingClaim) :=
  if path ∈ registry.protectedPaths then none
  else some (⟨insert path registry.protectedPaths⟩, ⟨path⟩)

def ActiveDownloads.isProtected (registry : ActiveDownloads) (path : String) : Bool :=
  path ∈ registry.protectedPaths

/-- What the drop of a claim does to the registry, on return and on unwinding alike. -/
def StagingClaim.drop (claim : StagingClaim) (registry : ActiveDownloads) : ActiveDownloads :=
  ⟨registry.protectedPaths.erase claim.path⟩

/-! ## Staging names -/

def tmpSuffix : String := ".download.tmp"

def stateSuffix : String := ".download.tmp.state"

def endsWith (s suffix : String) : Bool := suffix.toList.isSuffixOf s.toList

/-- The staging path for a final target path. -/
def stagingPathFor (finalPath : String) : String := finalPath ++ tmpSuffix

/-- The staging files among the entries of a directory, their sidecars left out. -/
def isStagingName (name : String) : Bool := endsWith name tmpSuffix && !endsWith name stateSuffix

/-- The path of an entry of a directory. -/
def entryPath (dir name : String) : String := dir ++ "/" ++ name

/-- The sidecar resume state of a staging file. -/
def sidecarStatePath (tmpPath : String) : String :=
  let base := if endsWith tmpPath tmpSuffix then
      String.ofList (tmpPath.toList.take (tmpPath.length - tmpSuffix.length))
    else tmpPath
  base ++ stateSuffix

/-- The path is the sidecar of some staging file. -/
def IsSidecar (path : String) : Prop :=
  ∃ dir name, isStagingName name = true ∧ path = sidecarStatePath (entryPath dir name)

theorem endsWith_iff {s suffix : String} : endsWith s suffix = true ↔ suffix.toList <:+ s.toList := by
  rw [endsWith, List.isSuffixOf_iff_suffix]

theorem endsWith_append (s suffix : String) : endsWith (s ++ suffix) suffix = true := by
  rw [endsWith_iff, String.toList_append]
  exact List.suffix_append _ _

/-- A staging path ends in another letter than a sidecar. -/
theorem not_endsWith_both {s : String} (htmp : endsWith s tmpSuffix = true) :
    endsWith s stateSuffix = false := by
  rw [Bool.eq_false_iff]
  intro hstate
  obtain ⟨l, hl⟩ := endsWith_iff.mp htmp
  obtain ⟨r, hr⟩ := endsWith_iff.mp hstate
  have hp : s.toList.getLast? = some 'p' := by
    rw [← hl, List.getLast?_append]
    rfl
  have he : s.toList.getLast? = some 'e' := by
    rw [← hr, List.getLast?_append]
    rfl
  rw [hp] at he
  cases he

theorem IsSidecar.endsWith {path : String} (h : IsSidecar path) :
    endsWith path stateSuffix = true := by
  obtain ⟨dir, name, -, hpath⟩ := h
  rw [hpath, sidecarStatePath]
  exact endsWith_append _ _

/-- The claim of a file-backed sink is never on the sidecar of another staging file. -/
theorem not_isSidecar_stagingPathFor (finalPath : String) :
    ¬ IsSidecar (stagingPathFor finalPath) := by
  intro h
  have hstate := h.endsWith
  rw [stagingPathFor, not_endsWith_both (endsWith_append _ _)] at hstate
  cases hstate

theorem not_isSidecar_entryPath {dir name : String} (h : isStagingName name = true) :
    ¬ IsSidecar (entryPath dir name) := by
  intro hside
  have htmp : DigDownload.endsWith (entryPath dir name) tmpSuffix = true := by
    rw [isStagingName, Bool.and_eq_true] at h
    rw [endsWith_iff, entryPath, String.toList_append]
    exact (endsWith_iff.mp h.1).trans (List.suffix_append _ _)
  have hstate := hside.endsWith
  rw [not_endsWith_both htmp] at hstate
  cases hstate

/-! ## The sweep -/

/-- What the file system says of a file, its modification time none when it cannot be read. -/
structure FileMeta where
  mtime : Option Nat

/-- Older than `ttl`. A file whose time is missing counts as stale, one from the future as fresh. -/
def isStale (file : Option FileMeta) (now ttl : Nat) : Bool :=
  match file.bind FileMeta.mtime with
  | some mtime => if mtime ≤ now then ttl ≤ now - mtime else false
  | none => true

/-- A sweeper over one directory. -/
structure TmpGc where
  dir : String
  ttl : Nat

/-- What a sweep is about to do. -/
inductive SweepPoint where
  | opening
  | scanning
  /-- to ask the registry about the entry it has listed -/
  | listed (path : String)
  /-- to look at the age of a file that was not protected when it asked -/
  | unprotected (path : String)
  /-- to unlink a file that was unprotected, and then stale -/
  | stale (path : String)
  /-- to remove the sidecar of the file it has unlinked -/
  | reaped (path : String)
  | returned (result : Except DownloadError Nat)

/-- A call of `sweep_at` under way. -/
structure Sweep where
  gc : TmpGc
  now : Nat
  removed : Nat
  point : SweepPoint

/-- What the directory or the file system answers. The name of an entry is none when it
is not valid Unicode. -/
inductive FsAnswer where
  | ok
  | entry (name : Option String)
  | ended
  | notFound
  | failed (why : String)

abbrev Files := String → Option FileMeta

def Sweep.goto (sweep : Sweep) (point : SweepPoint) : Sweep := { sweep with point := point }

/-- The next step of a sweep, with the answer of the file system to it. -/
def Sweep.step (sweep : Sweep) (registry : ActiveDownloads) (files : Files) (answer : FsAnswer) :
    Option (Files × Sweep) :=
  match sweep.point, answer with
  | .opening, .ok => some (files, sweep.goto .scanning)
  | .opening, .notFound => some (files, sweep.goto (.returned (.ok 0)))
  | .opening, .failed why => some (files, sweep.goto (.returned (.error (.state why))))
  | .scanning, .entry none => some (files, sweep)
  | .scanning, .entry (some name) =>
    if isStagingName name then some (files, sweep.goto (.listed (entryPath sweep.gc.dir name)))
    else some (files, sweep)
  | .scanning, .ended => some (files, sweep.goto (.returned (.ok sweep.removed)))
  | .scanning, .failed why => some (files, sweep.goto (.returned (.error (.state why))))
  | .listed path, .ok =>
    if registry.isProtected path then some (files, sweep.goto .scanning)
    else some (files, sweep.goto (.unprotected path))
  | .unprotected path, .ok =>
    if isStale (files path) sweep.now sweep.gc.ttl then some (files, sweep.goto (.stale path))
    else some (files, sweep.goto .scanning)
  | .stale path, .ok =>
    if (files path).isSome then
      some (Function.update files path none,
        { sweep with removed := sweep.removed + 1, point := .reaped path })
    else none
  | .stale _, .failed why => some (files, sweep.goto (.returned (.error (.state why))))
  | .reaped path, .ok =>
    if (files (sidecarStatePath path)).isSome then
      some (Function.update files (sidecarStatePath path) none, sweep.goto .scanning)
    else none
  | .reaped path, .notFound =>
    if (files (sidecarStatePath path)).isSome then none else some (files, sweep.goto .scanning)
  | .reaped _, .failed why => some (files, sweep.goto (.returned (.error (.state why))))
  | _, _ => none

/-- The file that the sweep is at. -/
def SweepPoint.path? : SweepPoint → Option String
  | .listed path | .unprotected path | .stale path | .reaped path => some path
  | .opening | .scanning | .returned _ => none

/-- The sweep stands between its protected check of the path and its unlink of it. -/
def Sweep.Condemns (sweep : Sweep) (path : String) : Prop :=
  sweep.point = .unprotected path ∨ sweep.point = .stale path

section Sweep

variable {sweep sweep' : Sweep} {registry : ActiveDownloads} {files files' : Files}
  {answer : FsAnswer} {path : String}

theorem Sweep.step_listed (hpoint : sweep.point = .listed path)
    (hfree : path ∉ registry.protectedPaths) :
    sweep.step registry files .ok = some (files, sweep.goto (.unprotected path)) := by
  simp [Sweep.step, hpoint, ActiveDownloads.isProtected, hfree]

theorem Sweep.step_unprotected (hpoint : sweep.point = .unprotected path)
    (hfile : isStale (files path) sweep.now sweep.gc.ttl = true) :
    sweep.step registry files .ok = some (files, sweep.goto (.stale path)) := by
  simp [Sweep.step, hpoint, hfile]

theorem Sweep.step_stale (hpoint : sweep.point = .stale path) (hfile : (files path).isSome = true) :
    sweep.step registry files .ok = some (Function.update files path none,
      { sweep with removed := sweep.removed + 1, point := .reaped path }) := by
  simp [Sweep.step, hpoint, hfile]

theorem Sweep.step_reaped (hpoint : sweep.point = .reaped path)
    (hfile : (files (sidecarStatePath path)).isSome = true) :
    sweep.step registry files .ok =
      some (Function.update files (sidecarStatePath path) none, sweep.goto .scanning) := by
  simp [Sweep.step, hpoint, hfile]

/-- Where one step takes a sweep. It goes through the points of one file in order, and past
the protected check only with a file that is not protected. -/
theorem Sweep.step_point (h : sweep.step registry files answer = some (files', sweep')) :
    sweep'.point.path? = none ∨
      (∃ name, isStagingName name = true ∧ sweep'.point = .listed (entryPath sweep.gc.dir name)) ∨
      (∃ path, sweep.point = .listed path ∧ path ∉ registry.protectedPaths ∧
        sweep'.point = .unprotected path) ∨
      (∃ path, sweep.point = .unprotected path ∧ sweep'.point = .stale path) ∨
      ∃ path, sweep.point = .stale path ∧ sweep'.point = .reaped path := by
  obtain ⟨gc, now, removed, point⟩ := sweep
  cases point with
  | opening | returned _ =>
    cases answer <;> simp only [Sweep.step, reduceCtorEq] at h
    all_goals cases h
    all_goals exact Or.inl rfl
  | scanning =>
    cases answer with
    | entry name =>
      cases name with
      | none =>
        cases h
        exact Or.inl rfl
      | some name =>
        simp only [Sweep.step] at h
        split at h
        · rename_i hname
          cases h
          exact Or.inr (Or.inl ⟨name, hname, rfl⟩)
        · cases h
          exact Or.inl rfl
    | _ =>
      cases h
      all_goals exact Or.inl rfl
  | listed path =>
    cases answer <;> simp only [Sweep.step, reduceCtorEq] at h
    split at h
    · cases h
      exact Or.inl rfl
    · rename_i hfree
      cases h
      refine Or.inr (Or.inr (Or.inl ⟨path, rfl, ?_, rfl⟩))
      simpa [ActiveDownloads.isProtected] using hfree
  | unprotected path =>
    cases answer <;> simp only [Sweep.step, reduceCtorEq] at h
    split at h
    · cases h
      exact Or.inr (Or.inr (Or.inr (Or.inl ⟨path, rfl, rfl⟩)))
    · cases h
      exact Or.inl rfl
  | stale path =>
    cases answer with
    | ok =>
      simp only [Sweep.step] at h
      split at h
      · cases h
        exact Or.inr (Or.inr (Or.inr (Or.inr ⟨path, rfl, rfl⟩)))
      · cases h
    | _ =>
      cases h
      all_goals exact Or.inl rfl
  | reaped path =>
    cases answer <;> simp only [Sweep.step, reduceCtorEq] at h
    all_goals try split at h
    all_goals cases h
    all_goals exact Or.inl rfl

/-- A sweep comes to condemn a path only where the registry says that it is not protected. -/
theorem Sweep.condemns_step (h : sweep.step registry files answer = some (files', sweep'))
    (hpath : sweep'.Condemns path) : sweep.Condemns path ∨ path ∉ registry.protectedPaths := by
  rw [Condemns] at hpath
  obtain hnone | ⟨name, -, hpoint⟩ | ⟨p, -, hfree, hpoint⟩ | ⟨p, hstood, hpoint⟩ |
    ⟨p, -, hpoint⟩ := step_point h
  · cases hpath with
    | inl hpath => rw [hpath] at hnone; cases hnone
    | inr hpath => rw [hpath] at hnone; cases hnone
  · simp [hpoint] at hpath
  · simp only [hpoint, SweepPoint.unprotected.injEq, reduceCtorEq, or_false] at hpath
    exact Or.inr (hpath ▸ hfree)
  · simp only [hpoint, SweepPoint.stale.injEq, reduceCtorEq, false_or] at hpath
    exact Or.inl (Or.inl (hpath ▸ hstood))
  · simp [hpoint] at hpath

/-- The files that a sweep is at are staging files. -/
theorem Sweep.staging_step (h : sweep.step registry files answer = some (files', sweep'))
    (hpath : sweep'.point.path? = some path) :
    sweep.point.path? = some path ∨
      ∃ dir name, isStagingName name = true ∧ path = entryPath dir name := by
  obtain hnone | ⟨name, hname, hpoint⟩ | ⟨p, hstood, -, hpoint⟩ | ⟨p, hstood, hpoint⟩ |
    ⟨p, hstood, hpoint⟩ := step_point h
  · rw [hnone] at hpath
    cases hpath
  · rw [hpoint] at hpath
    cases hpath
    exact Or.inr ⟨sweep.gc.dir, name, hname, rfl⟩
  all_goals
    rw [hpoint] at hpath
    rw [hstood]
    exact Or.inl hpath

end Sweep

/-! ## Downloads and sweeps over one registry -/

/-- The registry, the live claims on it, the files, and the sweeps that were started. -/
structure StagingWorld where
  registry : ActiveDownloads
  claims : List StagingClaim
  files : Files
  sweeps : List Sweep

inductive StagingAct where
  | claim (path : String)
  | drop (claim : StagingClaim)
  /-- a file is created, written to, renamed or removed by others than a sweep -/
  | write (path : String) (file : Option FileMeta)
  | start (gc : TmpGc) (now : Nat)
  | sweep (i : Nat) (answer : FsAnswer)

namespace StagingWorld

/-- No download has started and no sweep. -/
def idle (files : Files) : StagingWorld := ⟨ActiveDownloads.new, [], files, []⟩

/-- One step of one thread. A claim that is refused changes nothing. -/
def step (s : StagingWorld) : StagingAct → Option StagingWorld
  | .claim path =>
    match s.registry.claim path with
    | some (registry, claim) => some { s with registry := registry, claims := claim :: s.claims }
    | none => some s
  | .drop claim =>
    if claim ∈ s.claims then
      some { s with registry := claim.drop s.registry, claims := s.claims.erase claim }
    else none
  | .write path file => some { s with files := Function.update s.files path file }
  | .start gc now => some { s with sweeps := s.sweeps ++ [⟨gc, now, 0, .opening⟩] }
  | .sweep i answer =>
    match s.sweeps[i]? with
    | some sweep =>
      match sweep.step s.registry s.files answer with
      | some (files, sweep') => some { s with files := files, sweeps := s.sweeps.set i sweep' }
      | none => none
    | none => none

/-- The path that a step of a sweep unlinks. -/
def unlinks (s : StagingWorld) : StagingAct → Option String
  | .sweep i .ok =>
    match (s.sweeps[i]?).map Sweep.point with
    | some (.stale path) => some path
    | some (.reaped path) => some (sidecarStatePath path)
    | _ => none
  | _ => none

/-- The step unlinks no path that a live claim is on. -/
def SparesClaims (s : StagingWorld) (act : StagingAct) : Prop :=
  ∀ path, s.unlinks act = some path → ⟨path⟩ ∉ s.claims

/-- A sweep stands between its protected check of the path and its unlink of it. -/
def Condemned (s : StagingWorld) (path : String) : Prop :=
  ∃ sweep ∈ s.sweeps, sweep.Condemns path

/-- A claim that the step grants is on a path that no sweep has condemned. -/
def GrantsInTime (s : StagingWorld) (act : StagingAct) : Prop :=
  ∀ path, act = .claim path → ⟨path⟩ ∉ s.claims → ¬ s.Condemned path ∧ ¬ IsSidecar path

/-- Some run that does not drop the claim on the path goes on to unlink the path. -/
def Endangered (s : StagingWorld) (path : String) : Prop :=
  ∃ acts t act, (∀ a ∈ acts, a ≠ .drop ⟨path⟩) ∧ run step s acts = some t ∧
    (t.step act).isSome ∧ t.unlinks act = some path

/-! ## What a step keeps -/

/-- The registry protects the paths of the live claims, each held once, and the sweeps are
at staging files. -/
structure Consistent (s : StagingWorld) : Prop where
  protects : ∀ path, path ∈ s.registry.protectedPaths ↔ ⟨path⟩ ∈ s.claims
  nodup : s.claims.Nodup
  staging : ∀ sweep ∈ s.sweeps, ∀ path, sweep.point.path? = some path →
    ∃ dir name, isStagingName name = true ∧ path = entryPath dir name

section Step

variable {s s' : StagingWorld} {act : StagingAct} {path : String} {claim : StagingClaim}

/-- A claim is granted where no claim on the path is live. -/
theorem step_claim (hs : s.Consistent) (hfree : ⟨path⟩ ∉ s.claims) :
    s.step (.claim path) = some { s with
      registry := ⟨insert path s.registry.protectedPaths⟩
      claims := ⟨path⟩ :: s.claims } := by
  have hclaim : s.registry.claim path =
      some (⟨insert path s.registry.protectedPaths⟩, ⟨path⟩) := by
    rw [ActiveDownloads.claim, if_neg (fun h => hfree ((hs.protects path).mp h))]
  rw [step, hclaim]

/-- A claim is refused while another one on the path is live. -/
theorem step_claim_held (hs : s.Consistent) (hheld : ⟨path⟩ ∈ s.claims) :
    s.step (.claim path) = some s := by
  have hclaim : s.registry.claim path = none := by
    rw [ActiveDownloads.claim, if_pos ((hs.protects path).mpr hheld)]
  rw [step, hclaim]

theorem step_drop (h : s.step (.drop claim) = some s') :
    claim ∈ s.claims ∧ s' = { s with
      registry := claim.drop s.registry
      claims := s.claims.erase claim } := by
  rw [step] at h
  split at h
  · rename_i hlive
    cases h
    exact ⟨hlive, rfl⟩
  · cases h

theorem step_sweep {i : Nat} {answer : FsAnswer} (h : s.step (.sweep i answer) = some s') :
    ∃ sweep files sweep', sweep ∈ s.sweeps ∧
      sweep.step s.registry s.files answer = some (files, sweep') ∧
      s' = { s with files := files, sweeps := s.sweeps.set i sweep' } := by
  rw [step] at h
  split at h
  · rename_i sweep hi
    split at h
    · rename_i files sweep' hstep
      cases h
      exact ⟨sweep, files, sweep', List.mem_of_getElem? hi, hstep, rfl⟩
    · cases h
  · cases h

theorem consistent_idle (files : Files) : (idle files).Consistent where
  protects := fun path => by simp [idle, ActiveDownloads.new]
  nodup := List.nodup_nil
  staging := fun sweep hsweep => by simp [idle] at hsweep

theorem consistent_step (hs : s.Consistent) (h : s.step act = some s') : s'.Consistent := by
  cases act with
  | claim path =>
    by_cases hheld : ⟨path⟩ ∈ s.claims
    · rw [step_claim_held hs hheld] at h
      cases h
      exact hs
    · rw [step_claim hs hheld] at h
      cases h
      refine ⟨fun q => ?_, hs.nodup.cons hheld, hs.staging⟩
      simp [hs.protects]
  | drop claim =>
    obtain ⟨-, rfl⟩ := step_drop h
    refine ⟨fun q => ?_, hs.nodup.erase claim, hs.staging⟩
    show q ∈ s.registry.protectedPaths.erase claim.path ↔ _
    rw [Finset.mem_erase, hs.nodup.mem_erase_iff, hs.protects]
    cases claim
    simp
  | write path file =>
    cases h
    exact ⟨hs.protects, hs.nodup, hs.staging⟩
  | start gc now =>
    cases h
    refine ⟨hs.protects, hs.nodup, fun sweep hsweep path hpath => ?_⟩
    cases List.mem_append.mp hsweep with
    | inl hsweep => exact hs.staging sweep hsweep path hpath
    | inr hsweep =>
      cases List.mem_singleton.mp hsweep
      cases hpath
  | sweep i answer =>
    obtain ⟨sweep, files, sweep', hsweep, hstep, rfl⟩ := step_sweep h
    refine ⟨hs.protects, hs.nodup, fun w hw path hpath => ?_⟩
    cases List.mem_or_eq_of_mem_set hw with
    | inl hw => exact hs.staging w hw path hpath
    | inr hw =>
      rw [hw] at hpath
      cases Sweep.staging_step hstep hpath with
      | inl hbefore => exact hs.staging sweep hsweep path hbefore
      | inr hentry => exact hentry

/-- A path is condemned by a step only while no claim on it is live. -/
theorem condemned_step (hs : s.Consistent) (h : s.step act = some s') (hpath : s'.Condemned path) :
    s.Condemned path ∨ ⟨path⟩ ∉ s.claims := by
  obtain ⟨w, hw, hcond⟩ := hpath
  cases act with
  | claim q =>
    by_cases hheld : ⟨q⟩ ∈ s.claims
    · rw [step_claim_held hs hheld] at h
      cases h
      exact Or.inl ⟨w, hw, hcond⟩
    · rw [step_claim hs hheld] at h
      cases h
      exact Or.inl ⟨w, hw, hcond⟩
  | drop claim =>
    obtain ⟨-, rfl⟩ := step_drop h
    exact Or.inl ⟨w, hw, hcond⟩
  | write q file =>
    cases h
    exact Or.inl ⟨w, hw, hcond⟩
  | start gc now =>
    cases h
    cases List.mem_append.mp hw with
    | inl hw => exact Or.inl ⟨w, hw, hcond⟩
    | inr hw =>
      cases List.mem_singleton.mp hw
      simp [Sweep.Condemns] at hcond
  | sweep i answer =>
    obtain ⟨sweep, files, sweep', hsweep, hstep, rfl⟩ := step_sweep h
    cases List.mem_or_eq_of_mem_set hw with
    | inl hw => exact Or.inl ⟨w, hw, hcond⟩
    | inr hw =>
      rw [hw] at hcond
      cases Sweep.condemns_step hstep hcond with
      | inl hbefore => exact Or.inl ⟨sweep, hsweep, hbefore⟩
      | inr hfree => exact Or.inr fun hlive => hfree ((hs.protects path).mpr hlive)

/-- What a step unlinks is condemned, or the sidecar of a staging file. -/
theorem condemned_of_unlinks (hs : s.Consistent) (h : s.unlinks act = some path) :
    s.Condemned path ∨ IsSidecar path := by
  cases act with
  | sweep i answer =>
    cases answer <;> simp only [unlinks, reduceCtorEq] at h
    cases hi : s.sweeps[i]? with
    | none =>
      rw [hi] at h
      cases h
    | some sweep =>
      have hsweep : sweep ∈ s.sweeps := List.mem_of_getElem? hi
      rw [hi, Option.map_some] at h
      split at h
      · rename_i p hpoint
        cases h
        exact Or.inl ⟨sweep, hsweep, Or.inr (Option.some.inj hpoint)⟩
      · rename_i p hpoint
        cases h
        have hat : sweep.point.path? = some p := by rw [Option.some.inj hpoint]; rfl
        obtain ⟨dir, name, hname, hp⟩ := hs.staging sweep hsweep p hat
        exact Or.inr ⟨dir, name, hname, by rw [hp]⟩
      · cases h
  | _ => cases h

/-- A live claim outlives every step but its own drop. -/
theorem claims_step (hs : s.Consistent) (h : s.step act = some s') (hact : act ≠ .drop claim)
    (hlive : claim ∈ s.claims) : claim ∈ s'.claims := by
  cases act with
  | claim path =>
    by_cases hheld : ⟨path⟩ ∈ s.claims
    · rw [step_claim_held hs hheld] at h
      cases h
      exact hlive
    · rw [step_claim hs hheld] at h
      cases h
      exact List.mem_cons_of_mem _ hlive
  | drop other =>
    obtain ⟨-, rfl⟩ := step_drop h
    have hne : claim ≠ other := fun heq => hact (congrArg _ heq.symm)
    exact (List.mem_erase_of_ne hne).mpr hlive
  | write path file =>
    cases h
    exact hlive
  | start gc now =>
    cases h
    exact hlive
  | sweep i answer =>
    obtain ⟨sweep, files, sweep', -, -, rfl⟩ := step_sweep h
    exact hlive

/-- A claim that is live after a step was live before it or has been granted by it. -/
theorem mem_claims_step (hs : s.Consistent) (h : s.step act = some s') (hlive : claim ∈ s'.claims) :
    claim ∈ s.claims ∨ act = .claim claim.path ∧ claim ∉ s.claims ∧ s'.sweeps = s.sweeps := by
  cases act with
  | claim path =>
    by_cases hheld : ⟨path⟩ ∈ s.claims
    · rw [step_claim_held hs hheld] at h
      cases h
      exact Or.inl hlive
    · rw [step_claim hs hheld] at h
      cases h
      cases List.mem_cons.mp hlive with
      | inl hnew =>
        rw [hnew]
        exact Or.inr ⟨rfl, hheld, rfl⟩
      | inr hlive => exact Or.inl hlive
  | drop other =>
    obtain ⟨-, rfl⟩ := step_drop h
    exact Or.inl (List.mem_of_mem_erase hlive)
  | write path file =>
    cases h
    exact Or.inl hlive
  | start gc now =>
    cases h
    exact Or.inl hlive
  | sweep i answer =>
    obtain ⟨sweep, files, sweep', -, -, rfl⟩ := step_sweep h
    exact Or.inl hlive

/-- No live claim is on a path that a sweep has condemned. -/
def Spared (s : StagingWorld) : Prop :=
  ∀ claim ∈ s.claims, ¬ s.Condemned claim.path ∧ ¬ IsSidecar claim.path

theorem spared_step (hs : s.Consistent) (hspared : s.Spared) (hact : s.GrantsInTime act)
    (h : s.step act = some s') : s'.Spared := by
  intro claim hlive
  cases mem_claims_step hs h hlive with
  | inl hbefore =>
    refine ⟨fun hcond => ?_, (hspared claim hbefore).2⟩
    cases condemned_step hs h hcond with
    | inl hcond => exact (hspared claim hbefore).1 hcond
    | inr hfree => exact hfree hbefore
  | inr hgranted =>
    obtain ⟨hclaim, hfree, hsweeps⟩ := hgranted
    obtain ⟨hcond, hside⟩ := hact claim.path hclaim hfree
    rw [Condemned, hsweeps]
    exact ⟨hcond, hside⟩

theorem sparesClaims_of_spared (hs : s.Consistent) (hspared : s.Spared) : s.SparesClaims act := by
  intro path hunlinks hlive
  cases condemned_of_unlinks hs hunlinks with
  | inl hcond => exact (hspared _ hlive).1 hcond
  | inr hside => exact (hspared _ hlive).2 hside

end Step

/-! ## A claim that comes too late -/

section Endangered

variable {s s' : StagingWorld} {act : StagingAct} {path : String} {i : Nat} {sweep : Sweep}

theorem step_sweep_at {files : Files} {sweep' : Sweep} {answer : FsAnswer}
    (hi : s.sweeps[i]? = some sweep)
    (hstep : sweep.step s.registry s.files answer = some (files, sweep')) :
    s.step (.sweep i answer) = some { s with files := files, sweeps := s.sweeps.set i sweep' } := by
  rw [step, hi]
  show (match sweep.step s.registry s.files answer with
    | some (files, sweep') => some { s with files := files, sweeps := s.sweeps.set i sweep' }
    | none => none) = _
  rw [hstep]

theorem getElem?_set_sweep {sweep' : Sweep} (hi : s.sweeps[i]? = some sweep) :
    (s.sweeps.set i sweep')[i]? = some sweep' := by
  rw [List.getElem?_set_self (List.getElem?_eq_some_iff.mp hi).1]

theorem Endangered.of_step (act : StagingAct) (h : s.step act = some s') (hact : act ≠ .drop ⟨path⟩)
    (hs' : s'.Endangered path) : s.Endangered path := by
  obtain ⟨acts, t, last, hacts, hrun, hlast, hunlinks⟩ := hs'
  refine ⟨act :: acts, t, last, ?_, ?_, hlast, hunlinks⟩
  · intro a ha
    cases List.mem_cons.mp ha with
    | inl ha => exact ha ▸ hact
    | inr ha => exact hacts a ha
  · rw [run_cons h, hrun]

/-- Other threads may write to any file. -/
theorem Endangered.of_write (q : String) (file : Option FileMeta)
    (h : Endangered { s with files := Function.update s.files q file } path) : s.Endangered path :=
  Endangered.of_step (.write q file) rfl (by simp) h

/-- A step that unlinks the path ends the run. -/
theorem endangered_of_unlinks (act : StagingAct) (hact : (s.step act).isSome = true)
    (h : s.unlinks act = some path) :
    s.Endangered path :=
  ⟨[], s, act, by simp, rfl, hact, h⟩

theorem Endangered.of_sweep {files : Files} {sweep' : Sweep} (answer : FsAnswer)
    (hi : s.sweeps[i]? = some sweep)
    (hstep : sweep.step s.registry s.files answer = some (files, sweep'))
    (h : Endangered { s with files := files, sweeps := s.sweeps.set i sweep' } path) :
    s.Endangered path :=
  Endangered.of_step _ (step_sweep_at hi hstep) (by simp) h

theorem endangered_of_stale (hi : s.sweeps[i]? = some sweep) (hpoint : sweep.point = .stale path)
    (hfile : (s.files path).isSome = true) : s.Endangered path := by
  refine endangered_of_unlinks (.sweep i .ok) ?_ (by simp [unlinks, hi, hpoint])
  rw [step_sweep_at hi (Sweep.step_stale hpoint hfile)]
  rfl

theorem endangered_of_reaped (hi : s.sweeps[i]? = some sweep) (hpoint : sweep.point = .reaped path)
    (hfile : (s.files (sidecarStatePath path)).isSome = true) :
    s.Endangered (sidecarStatePath path) := by
  refine endangered_of_unlinks (.sweep i .ok) ?_ (by simp [unlinks, hi, hpoint])
  rw [step_sweep_at hi (Sweep.step_reaped hpoint hfile)]
  rfl

/-- A file without a readable time is stale for every sweep. -/
theorem endangered_of_unprotected (hi : s.sweeps[i]? = some sweep)
    (hpoint : sweep.point = .unprotected path) (hfile : s.files path = some ⟨none⟩) :
    s.Endangered path := by
  have hstale : isStale (s.files path) sweep.now sweep.gc.ttl = true := by rw [hfile]; rfl
  refine Endangered.of_sweep .ok hi (Sweep.step_unprotected hpoint hstale) ?_
  exact endangered_of_stale (getElem?_set_sweep hi) rfl (congrArg Option.isSome hfile)

/-- A claim on a condemned path does not stop the unlink. -/
theorem endangered_of_condemned (h : s.Condemned path) : s.Endangered path := by
  obtain ⟨sweep, hsweep, hpoint⟩ := h
  obtain ⟨i, hi⟩ := List.getElem?_of_mem hsweep
  have hfile : Function.update s.files path (some ⟨none⟩) path = some ⟨none⟩ :=
    Function.update_self ..
  refine Endangered.of_write path (some ⟨none⟩) ?_
  cases hpoint with
  | inl hpoint => exact endangered_of_unprotected hi hpoint hfile
  | inr hpoint => exact endangered_of_stale hi hpoint (congrArg Option.isSome hfile)

/-- A sweep that has unlinked a file goes on to remove its sidecar. -/
theorem sidecar_endangered_of_stale (hi : s.sweeps[i]? = some sweep)
    (hpoint : sweep.point = .stale path) (hne : sidecarStatePath path ≠ path)
    (hfile : (s.files path).isSome = true) (hside : (s.files (sidecarStatePath path)).isSome = true) :
    s.Endangered (sidecarStatePath path) := by
  refine Endangered.of_sweep .ok hi (Sweep.step_stale hpoint hfile) ?_
  refine endangered_of_reaped (getElem?_set_sweep hi) rfl ?_
  show (Function.update s.files path none (sidecarStatePath path)).isSome = true
  rw [Function.update_of_ne hne, hside]

theorem sidecar_endangered_of_listed (hi : s.sweeps[i]? = some sweep)
    (hpoint : sweep.point = .listed path) (hfree : path ∉ s.registry.protectedPaths)
    (hne : sidecarStatePath path ≠ path) : s.Endangered (sidecarStatePath path) := by
  -- the staging file is there, its time cannot be read, and so is the sidecar
  refine Endangered.of_write (sidecarStatePath path) (some ⟨none⟩) ?_
  refine Endangered.of_write path (some ⟨none⟩) ?_
  have hfile : ∀ files : Files, Function.update files path (some ⟨none⟩) path = some ⟨none⟩ :=
    fun files => Function.update_self ..
  have hside : Function.update (Function.update s.files (sidecarStatePath path) (some ⟨none⟩)) path
      (some ⟨none⟩) (sidecarStatePath path) = some ⟨none⟩ := by
    rw [Function.update_of_ne hne, Function.update_self]
  refine Endangered.of_sweep .ok hi (Sweep.step_listed hpoint hfree) ?_
  refine Endangered.of_sweep .ok (getElem?_set_sweep hi)
    (Sweep.step_unprotected rfl (congrArg (isStale · _ _) (hfile _))) ?_
  exact sidecar_endangered_of_stale (getElem?_set_sweep (getElem?_set_sweep hi)) rfl hne
    (congrArg Option.isSome (hfile _)) (congrArg Option.isSome hside)

/-- A sweep may start at any time, and lists what the directory answers. -/
theorem sidecar_endangered_of_free {dir name : String} (hname : isStagingName name = true)
    (hfree : entryPath dir name ∉ s.registry.protectedPaths) :
    s.Endangered (sidecarStatePath (entryPath dir name)) := by
  have hne : sidecarStatePath (entryPath dir name) ≠ entryPath dir name := by
    intro heq
    exact not_isSidecar_entryPath hname ⟨dir, name, hname, heq.symm⟩
  refine Endangered.of_step (.start ⟨dir, 0⟩ 0) rfl (by simp) ?_
  have hi : (s.sweeps ++ [⟨⟨dir, 0⟩, 0, 0, .opening⟩])[s.sweeps.length]? =
      some ⟨⟨dir, 0⟩, 0, 0, .opening⟩ := by
    rw [List.getElem?_append_right (Nat.le_refl _), Nat.sub_self]
    rfl
  refine Endangered.of_sweep .ok hi rfl ?_
  refine Endangered.of_sweep (.entry (some name)) (getElem?_set_sweep hi) (if_pos hname) ?_
  exact sidecar_endangered_of_listed (getElem?_set_sweep (getElem?_set_sweep hi)) rfl hfree hne

theorem endangered_of_isSidecar (hs : s.Consistent) (hside : IsSidecar path) :
    s.Endangered path := by
  obtain ⟨dir, name, hname, hpath⟩ := hside
  rw [hpath]
  by_cases hheld : ⟨entryPath dir name⟩ ∈ s.claims
  · -- a claim on the staging file itself is dropped first
    have hdrop : s.step (.drop ⟨entryPath dir name⟩) = some { s with
        registry := StagingClaim.drop ⟨entryPath dir name⟩ s.registry
        claims := s.claims.erase ⟨entryPath dir name⟩ } := by
      rw [step, if_pos hheld]
    refine Endangered.of_step _ hdrop ?_ (sidecar_endangered_of_free hname ?_)
    · intro heq
      injection heq with hclaim
      injection hclaim with heq
      exact not_isSidecar_entryPath hname ⟨dir, name, hname, heq⟩
    · exact Finset.notMem_erase _ _
  · exact sidecar_endangered_of_free hname fun h => hheld ((hs.protects _).mp h)

/-- While a claim lives that was granted on a path no sweep had condemned, the path is not
unlinked. -/
theorem not_endangered (hs : s.Consistent) (hlive : ⟨path⟩ ∈ s.claims) (hcond : ¬ s.Condemned path)
    (hside : ¬ IsSidecar path) : ¬ s.Endangered path := by
  intro h
  obtain ⟨acts, t, last, hacts, hrun, -, hunlinks⟩ := h
  have hkept : t.Consistent ∧ ⟨path⟩ ∈ t.claims ∧ ¬ t.Condemned path := by
    refine invariant_along (I := fun t => t.Consistent ∧ ⟨path⟩ ∈ t.claims ∧ ¬ t.Condemned path)
      (G := fun _ act => act ≠ .drop ⟨path⟩) ?_ ⟨hs, hlive, hcond⟩
      (along_of_forall fun a ha _ => hacts a ha) hrun
    intro s act s' hI hact hstep
    obtain ⟨hs, hlive, hcond⟩ := hI
    refine ⟨consistent_step hs hstep, claims_step hs hstep hact hlive, fun hcond' => ?_⟩
    cases condemned_step hs hstep hcond' with
    | inl h => exact hcond h
    | inr h => exact h hlive
  cases condemned_of_unlinks hkept.1 hunlinks with
  | inl h => exact hkept.2.2 h
  | inr h => exact hside h

theorem endangered_iff {s' : StagingWorld} (hs : s.Consistent) (hfree : ⟨path⟩ ∉ s.claims)
    (h : s.step (.claim path) = some s') :
    s'.Endangered path ↔ s.Condemned path ∨ IsSidecar path := by
  have hs' := consistent_step hs h
  rw [step_claim hs hfree] at h
  cases h
  constructor
  · intro hend
    by_contra hnot
    rw [not_or] at hnot
    exact not_endangered hs' List.mem_cons_self hnot.1 hnot.2 hend
  · intro hcond
    cases hcond with
    | inl hcond => exact endangered_of_condemned hcond
    | inr hside => exact endangered_of_isSidecar hs' hside

end Endangered

/-! ## Any interleaving -/

theorem consistent_run {files : Files} {acts : List StagingAct} {s : StagingWorld}
    (h : run step (idle files) acts = some s) : s.Consistent :=
  invariant (fun _ _ _ hs hstep => consistent_step hs hstep) (consistent_idle files) h

/-- In every interleaving a path has at most one live claim, a path whose claim was dropped
can be claimed again, and a claim that is granted has its path unlinked by no sweep while
it lives, unless a sweep had condemned the path by then, or the path is the sidecar of a
staging file. So a run whose claims all come in time has no claimed path unlinked. -/
theorem claims_kept_iff (files : Files) (acts : List StagingAct) (s : StagingWorld)
    (h : run step (idle files) acts = some s) :
    (∀ claim, s.claims.count claim ≤ 1) ∧
    (∀ claim s', s.step (.drop claim) = some s' → claim ∉ s'.claims) ∧
    (∀ path, ⟨path⟩ ∉ s.claims →
      ∃ s', s.step (.claim path) = some s' ∧ s'.claims = ⟨path⟩ :: s.claims ∧
        (¬ s'.Endangered path ↔ ¬ s.Condemned path ∧ ¬ IsSidecar path)) ∧
    (Along step GrantsInTime (idle files) acts → Along step SparesClaims (idle files) acts) := by
  have hs := consistent_run h
  refine ⟨fun claim => List.nodup_iff_count_le_one.mp hs.nodup claim, ?_, ?_, ?_⟩
  · intro claim s' hdrop hlive
    obtain ⟨-, rfl⟩ := step_drop hdrop
    exact hs.nodup.not_mem_erase hlive
  · intro path hfree
    refine ⟨_, step_claim hs hfree, rfl, ?_⟩
    rw [endangered_iff hs hfree (step_claim hs hfree), not_or]
  · intro hG
    have hidle : (idle files).Spared := fun claim hlive => by simp [idle] at hlive
    refine along_of_invariant (I := fun s => s.Consistent ∧ s.Spared) ?_ ?_
      ⟨consistent_idle files, hidle⟩ hG
    · intro s act s' hI hact hstep
      exact ⟨consistent_step hI.1 hstep, spared_step hI.1 hI.2 hact hstep⟩
    · exact fun s act hI _ => sparesClaims_of_spared hI.1 hI.2

/-- A download claims its staging file, and a sweep comes by. -/
theorem claims_kept_small :
    ∃ s, run step (idle fun _ => none) [.claim (stagingPathFor "d/x"), .start ⟨"d", 5⟩ 9,
        .sweep 0 .ok, .sweep 0 (.entry (some "x.download.tmp")), .sweep 0 .ok] = some s ∧
      s.claims.count ⟨stagingPathFor "d/x"⟩ ≤ 1 ∧
      Along step SparesClaims (idle fun _ => none) [.claim (stagingPathFor "d/x"),
        .start ⟨"d", 5⟩ 9, .sweep 0 .ok, .sweep 0 (.entry (some "x.download.tmp")),
        .sweep 0 .ok] := by
  have hkept := claims_kept_iff (fun _ => none) [.claim (stagingPathFor "d/x"), .start ⟨"d", 5⟩ 9,
    .sweep 0 .ok, .sweep 0 (.entry (some "x.download.tmp")), .sweep 0 .ok] _ rfl
  refine ⟨_, rfl, hkept.1 _, hkept.2.2.2 ⟨?_, fun s' _ => along_of_forall ?_⟩⟩
  · intro path hact _
    injection hact with hpath
    rw [← hpath]
    exact ⟨fun hcond => by simp [Condemned, idle] at hcond, not_isSidecar_stagingPathFor _⟩
  · intro act hmem s path hact
    rw [hact] at hmem
    simp at hmem

/-- A sweep asks for the path of a download that has not started, and unlinks it after it
has. -/
theorem claimed_path_unlinked :
    ¬ ∀ (files : Files) (acts : List StagingAct) (s : StagingWorld),
      run step (idle files) acts = some s → Along step SparesClaims (idle files) acts := by
  intro h
  have hend := h (fun path => if path = "d/x.download.tmp" then some ⟨some 0⟩ else none)
    [.start ⟨"d", 5⟩ 9, .sweep 0 .ok, .sweep 0 (.entry (some "x.download.tmp")), .sweep 0 .ok,
      .claim "d/x.download.tmp", .sweep 0 .ok, .sweep 0 .ok] _ rfl
  exact hend.2 _ rfl |>.2 _ rfl |>.2 _ rfl |>.2 _ rfl |>.2 _ rfl |>.2 _ rfl |>.1
    "d/x.download.tmp" rfl List.mem_cons_self

end StagingWorld

end DigDownload
