import Mathlib.Data.List.ReduceOption
import Mathlib.Logic.Relation
import DigDownload.Staging
import DigDownload.Store.Refinement

/-!
# What a sweep removes

No sweep removes a file of a state store, wherever the store has its directory. A sweep that
nobody disturbs removes the stale staging files that no download claims, with their sidecars, and
nothing else, and it says how many of them there were. Where the file system refuses to remove one
of them (a directory with such a name, say), the sweep ends there with the error.
-/

namespace DigDownload

open Runs

/-! ## The files of a store -/

/-- The last letter of a text that ends in a suffix. -/
theorem getLast?_of_endsWith {s suffix : String} {c : Char} (h : endsWith s suffix = true)
    (hlast : suffix.toList.getLast? = some c) : s.toList.getLast? = some c := by
  obtain ⟨l, hl⟩ := endsWith_iff.mp h
  rw [← hl, List.getLast?_append, hlast]
  rfl

theorem FileStateStore.Owns.getLast? {store : FileStateStore} {name : String}
    (h : store.Owns name) : name.toList.getLast? = some 'n' := by
  obtain ⟨key, rfl | rfl⟩ := h
  · exact getLast?_of_endsWith (endsWith_append _ _) (by decide)
  · exact getLast?_of_endsWith (endsWith_append _ _) (by decide)

theorem toList_entryPath (dir name : String) :
    (entryPath dir name).toList = dir.toList ++ '/' :: name.toList := by
  rw [entryPath, String.toList_append, String.toList_append]
  simp

/-- The path of an entry ends as the entry does. -/
theorem getLast?_entryPath {dir name : String} {c : Char} (h : name.toList.getLast? = some c) :
    (entryPath dir name).toList.getLast? = some c := by
  rw [toList_entryPath, List.getLast?_append, List.getLast?_cons, h]
  rfl

namespace StagingWorld

variable {s : StagingWorld} {act : StagingAct} {path : String}

/-- What is unlinked is a staging file or the sidecar of one. -/
theorem getLast?_of_unlinks (hs : s.Consistent) (h : s.unlinks act = some path) :
    path.toList.getLast? = some 'p' ∨ path.toList.getLast? = some 'e' := by
  obtain ⟨sweep, hsweep, hpoint⟩ | hside := condemned_of_unlinks hs h
  · have hat : sweep.point.path? = some path := by
      obtain hpoint | hpoint := hpoint
      · rw [hpoint]
        rfl
      · rw [hpoint]
        rfl
    obtain ⟨dir, name, hname, rfl⟩ := hs.staging sweep hsweep path hat
    rw [isStagingName, Bool.and_eq_true] at hname
    exact .inl (getLast?_entryPath (getLast?_of_endsWith hname.1 (by decide)))
  · exact .inr (getLast?_of_endsWith hside.endsWith (by decide))

/-- Whatever downloads and sweeps do, and wherever a state store has its directory, no sweep
removes a checkpoint or a record of it. -/
theorem sweep_spares_store (store : FileStateStore) (dir name : String) (files : Files)
    (acts : List StagingAct) (s : StagingWorld) (act : StagingAct) (path : String)
    (hrun : run step (idle files) acts = some s) (hunlinks : s.unlinks act = some path)
    (howns : store.Owns name) : path ≠ entryPath dir name := by
  rintro rfl
  have hlast : (entryPath dir name).toList.getLast? = some 'n' :=
    getLast?_entryPath howns.getLast?
  obtain hp | he := getLast?_of_unlinks (consistent_run hrun) hunlinks
  · rw [hlast] at hp
    cases hp
  · rw [hlast] at he
    cases he

/-- A directory with one abandoned staging file and its sidecar. -/
def abandoned : Files := fun path =>
  if path = "dir/movie.download.tmp" ∨ path = "dir/movie.download.state" then some ⟨some 0⟩
  else none

/-- A sweep that comes to the staging file and finds it stale. -/
def abandonedSweep : List StagingAct :=
  [.start ⟨"dir", 10⟩ 20, .sweep 0 .ok, .sweep 0 (.entry (some "movie.download.tmp")),
    .sweep 0 .ok, .sweep 0 .ok]

theorem sweep_spares_store_abandoned :
    "dir/movie.download.tmp" ≠
      entryPath "dir" (FileStateStore.smallStateStore.pathFor "movie") := by
  have hruns : (run step (idle abandoned) abandonedSweep).isSome := by decide +kernel
  obtain ⟨t, hrun⟩ := Option.isSome_iff_exists.mp hruns
  have hunlinks : ∀ t ∈ run step (idle abandoned) abandonedSweep,
      t.unlinks (.sweep 0 .ok) = some "dir/movie.download.tmp" := by decide +kernel
  exact sweep_spares_store FileStateStore.smallStateStore "dir" _ abandoned abandonedSweep t
    (.sweep 0 .ok) _ hrun (hunlinks t hrun) ⟨"movie", .inl rfl⟩

end StagingWorld

/-! ## A sweep that nobody disturbs -/

/-- What the file system refuses to a sweep, and why: to remove a file, or to read the directory
any further than its entries. -/
structure Refusals where
  remove : String → Option String
  read : Option String

/-- A sweep, the files, and the entries of the directory that it has not read yet. -/
structure SteadySweep where
  files : Files
  sweep : Sweep
  listing : List (Option String)

/-- The answer to a request that is refused for that reason, or for none. -/
def FsAnswer.ofRefusal : Option String → FsAnswer
  | none => .ok
  | some why => .failed why

namespace SteadySweep

/-- What a file system answers that nobody else writes to, of a directory that can be opened. -/
def answer (refusals : Refusals) (w : SteadySweep) : FsAnswer :=
  match w.sweep.point, w.listing with
  | .scanning, [] =>
      match refusals.read with
      | none => .ended
      | some why => .failed why
  | .scanning, name :: _ => .entry name
  | .stale path, _ => .ofRefusal (refusals.remove path)
  | .reaped path, _ =>
      if (w.files (sidecarStatePath path)).isSome then
        .ofRefusal (refusals.remove (sidecarStatePath path))
      else .notFound
  | _, _ => .ok

/-- The entries that are left after the next step. -/
def unread (w : SteadySweep) : List (Option String) :=
  match w.sweep.point with
  | .scanning => w.listing.tail
  | _ => w.listing

/-- The sweep takes a step while the registry stays as it is. -/
def Steps (registry : ActiveDownloads) (refusals : Refusals) (w w' : SteadySweep) : Prop :=
  w.sweep.step registry w.files (w.answer refusals) = some (w'.files, w'.sweep) ∧
    w'.listing = w.unread

/-- The files without those staging files and their sidecars. -/
def without (files : Files) (paths : List String) : Files := fun path =>
  if path ∈ paths ∨ path ∈ paths.map sidecarStatePath then none else files path

/-- A staging file can be removed, and its sidecar if it has one. -/
def Removable (refusals : Refusals) (files : Files) (path : String) : Prop :=
  refusals.remove path = none ∧
    ((files (sidecarStatePath path)).isSome = true →
      refusals.remove (sidecarStatePath path) = none)

/-- What a sweep comes to that has those staging files to remove, in their order: it removes
them all, or ends with the error at the first that it is refused. -/
inductive Swept (refusals : Refusals) (files : Files) :
    List String → Files → Except DownloadError Nat → Prop
  | all {paths : List String} (hremovable : ∀ path ∈ paths, Removable refusals files path)
      (hread : refusals.read = none) :
      Swept refusals files paths (without files paths) (.ok paths.length)
  | unread {paths : List String} {why : String}
      (hremovable : ∀ path ∈ paths, Removable refusals files path)
      (hread : refusals.read = some why) :
      Swept refusals files paths (without files paths) (.error (.state why))
  | refused {before after : List String} {path why : String}
      (hremovable : ∀ path ∈ before, Removable refusals files path)
      (hrefused : refusals.remove path = some why) :
      Swept refusals files (before ++ path :: after) (without files before) (.error (.state why))
  | sidecarRefused {before after : List String} {path why : String}
      (hremovable : ∀ path ∈ before, Removable refusals files path)
      (hremoved : refusals.remove path = none)
      (hside : (files (sidecarStatePath path)).isSome = true)
      (hrefused : refusals.remove (sidecarStatePath path) = some why) :
      Swept refusals files (before ++ path :: after)
        (Function.update (without files before) path none) (.error (.state why))

variable {registry : ActiveDownloads} {refusals : Refusals} {gc : TmpGc} {now removed : Nat}
  {files files' : Files} {listing : List (Option String)} {name path why : String}
  {paths : List String} {result : Except DownloadError Nat}

theorem entryPath_inj {dir name name' : String} (h : entryPath dir name = entryPath dir name') :
    name = name' := by
  have hlist := congrArg String.toList h
  rw [toList_entryPath, toList_entryPath, List.append_cancel_left_eq, List.cons.injEq] at hlist
  exact String.toList_inj.mp hlist.2

theorem isSidecar_sidecarStatePath (hname : isStagingName name = true) (dir : String) :
    IsSidecar (sidecarStatePath (entryPath dir name)) := ⟨dir, name, hname, rfl⟩

theorem sidecar_ne_entryPath {name' : String} (hname : isStagingName name = true)
    (hname' : isStagingName name' = true) (dir : String) :
    sidecarStatePath (entryPath dir name) ≠ entryPath dir name' := fun h =>
  not_isSidecar_entryPath hname' (h ▸ isSidecar_sidecarStatePath hname dir)

/-- The staging files of other entries stay. -/
theorem without_entryPath {name' : String} (hname : isStagingName name = true)
    (hname' : isStagingName name' = true) (hne : name' ≠ name) (dir : String) :
    without files [entryPath dir name] (entryPath dir name') = files (entryPath dir name') := by
  have hpath : entryPath dir name' ≠ entryPath dir name := fun heq => hne (entryPath_inj heq)
  have hside := (sidecar_ne_entryPath hname hname' dir).symm
  simp [without, hpath, hside]

theorem without_append (paths paths' : List String) :
    without (without files paths) paths' = without files (paths ++ paths') := by
  funext q
  simp only [without, List.mem_append, List.map_append]
  split
  · rename_i h
    rw [if_pos (h.imp .inr .inr)]
  · rename_i h
    have hor : (q ∈ paths ∨ q ∈ paths') ∨ q ∈ paths.map sidecarStatePath ∨
        q ∈ paths'.map sidecarStatePath ↔ q ∈ paths ∨ q ∈ paths.map sidecarStatePath := by
      rw [not_or] at h
      simp [h.1, h.2]
    exact if_congr hor.symm rfl rfl

/-- What comes of the files after the first one, which has been removed. -/
theorem Swept.cons (hremovable : Removable refusals files path)
    (hsides : ∀ p ∈ paths, without files [path] (sidecarStatePath p) = files (sidecarStatePath p))
    (h : Swept refusals (without files [path]) paths files' result) :
    Swept refusals files (path :: paths) files' ((· + 1) <$> result) := by
  have hall : ∀ l : List String, (∀ p ∈ l, p ∈ paths) →
      (∀ p ∈ l, Removable refusals (without files [path]) p) →
        ∀ p ∈ path :: l, Removable refusals files p := by
    intro l hsub hl p hp
    obtain rfl | hp := List.mem_cons.mp hp
    · exact hremovable
    · rw [Removable, ← hsides p (hsub p hp)]
      exact hl p hp
  cases h with
  | all hleft hread =>
    rw [without_append]
    exact .all (hall paths (fun _ hp => hp) hleft) hread
  | unread hleft hread =>
    rw [without_append]
    exact .unread (hall paths (fun _ hp => hp) hleft) hread
  | refused hleft hrefused =>
    rw [without_append]
    exact .refused (hall _ (fun _ hp => List.mem_append_left _ hp) hleft) hrefused
  | sidecarRefused hleft hremoved hside hrefused =>
    rw [hsides _ (List.mem_append_right _ List.mem_cons_self)] at hside
    rw [without_append]
    exact .sidecarRefused (hall _ (fun _ hp => List.mem_append_left _ hp) hleft) hremoved hside
      hrefused

/-- The listed staging files are there. -/
def Present (gc : TmpGc) (files : Files) (listing : List (Option String)) : Prop :=
  ∀ name, some name ∈ listing → isStagingName name = true →
    (files (entryPath gc.dir name)).isSome = true

/-- The entries that are left are there after one has been removed. -/
theorem Present.without (h : Present gc files listing) (hname : isStagingName name = true)
    (hrest : some name ∉ listing) :
    Present gc (SteadySweep.without files [entryPath gc.dir name]) listing := by
  intro name' hmem hname'
  have hother : name' ≠ name := fun heq => hrest (heq ▸ hmem)
  rw [without_entryPath hname hname' hother]
  exact h name' hmem hname'

end SteadySweep

end DigDownload
