import DigDownload.Module.Availability
import DigDownload.Module.Truth
import DigDownload.Resource.Holders
import DigDownload.Resource.Scheduling

/-!
# The lists of holders

A download and a pull each keep a list of the holders that they know, and it only grows. Neither
checks one answer of the locator against itself: a download appends every entry that it did not
know before, a pull starts with its first answer as it is. A peer is listed twice exactly when
such an answer names it twice; what a pull merges later is checked entry by entry.
-/

namespace DigDownload

open Prog Keyed

/-! ## What a pull learns -/

/-- The later list of a pull continues the earlier one, and repeats a peer only if that one did. -/
def Gains (w w' : PullWorld) : Prop :=
  w.own <+: w'.own ∧
    (Distinct ProviderRecord.providerPeerId w'.own ↔ Distinct ProviderRecord.providerPeerId w.own)

instance : Std.Refl Gains := ⟨fun _ => ⟨List.prefix_rfl, Iff.rfl⟩⟩

instance : IsTrans PullWorld Gains :=
  ⟨fun _ _ _ h h' => ⟨h.1.trans h'.1, h'.2.trans h.2⟩⟩

theorem prefix_mergeNewProviders (known fresh : List ProviderRecord) :
    known <+: mergeNewProviders known fresh := by
  obtain ⟨new, hmerge, -⟩ := mergeNewProviders_learnt known fresh
  rw [hmerge]
  exact List.prefix_append known new

/-- Merging repeats no peer, whatever the answer repeats. -/
theorem distinct_mergeNewProviders {known fresh : List ProviderRecord} :
    Distinct ProviderRecord.providerPeerId (mergeNewProviders known fresh) ↔
      Distinct ProviderRecord.providerPeerId known := by
  obtain ⟨new, hmerge, hlearnt⟩ := mergeNewProviders_learnt known fresh
  rw [hmerge, distinct_append]
  exact ⟨fun h => h.1, fun h => ⟨h, hlearnt.nodup, hlearnt.unknown⟩⟩

theorem closedUnderAttempts_gains (seams : ModuleSeams) : ClosedUnderAttempts seams Gains where
  effect _ _ _ _ _ := ⟨List.prefix_rfl, Iff.rfl⟩
  learn w _ _ fresh _ := ⟨prefix_mergeNewProviders w.own fresh, distinct_mergeNewProviders⟩

/-- The holders that a pull starts with: those of its first answer. -/
def firstHolders (seams : ModuleSeams) (c : Capsule) : List ProviderRecord :=
  match (moduleContentId c).map (seams.findProviders 0) with
  | some (.ok found) => found
  | _ => []

/-- Over a whole run the list of a pull continues its first answer. -/
theorem gains_download (seams : ModuleSeams) (c : Capsule) (sink : Sink) (store : StateStore) :
    Gains { PullWorld.fresh sink store with own := firstHolders seams c }
      (download seams c (PullWorld.fresh sink store)).2 := by
  -- only the list matters, so the state that it is compared with may stand for any other
  have hsame : ∀ {w w' : PullWorld}, w'.own = w.own → Gains w w' := by
    intro w w' hown
    rw [Gains, hown]
    exact ⟨List.prefix_rfl, Iff.rfl⟩
  have hfirst : ∀ {id answer}, moduleContentId c = some id →
      seams.findProviders (PullWorld.fresh sink store).tick id = answer →
      firstHolders seams c = answer.toOption.getD [] := by
    intro id answer hid hanswer
    subst hanswer
    rw [firstHolders, hid, Option.map_some]
    show _ = (seams.findProviders 0 id).toOption.getD []
    cases seams.findProviders 0 id <;> rfl
  refine wp_same.mp (wp_download_begins (fun hid => hsame ?_)
    (fun id e hid hlost => hsame (hfirst hid hlost).symm)
    (fun id hid hempty => hsame (hfirst hid hempty).symm) fun id located hid hlocated _ => ?_)
  · rw [firstHolders, hid]
    rfl
  have hattempts : Steps Gains (do
      let remembered ← rememberedVerdicts seams (moduleDownloadKey c)
      attemptLoop seams c (maxDescriptorAttempts - 1) (DescriptorExclusions.new remembered)) :=
    Steps.bind (steps_rememberedVerdicts (closedUnderAttempts_gains seams).effect _) fun _ =>
      steps_attemptLoop (closedUnderAttempts_gains seams) _ _
  have hstart : Gains { PullWorld.fresh sink store with own := firstHolders seams c }
      { (PullWorld.fresh sink store).note (.ask (.findProviders (.ok located))) with
        own := located } := hsame (hfirst hid hlocated).symm
  exact (wp_bind _ _).mp ((hattempts.wp _).mono (fun _ _ h => IsTrans.trans _ _ _ hstart h)
    (fun _ _ h => IsTrans.trans _ _ _ hstart h))

/-! ## Both lists -/

/-- The peer ids of an answer that are not known yet. -/
def newPeers (known answer : List ProviderRecord) : Finset String :=
  (answer.map (·.providerPeerId)).toFinset \ (known.map (·.providerPeerId)).toFinset

/-- What locating more holders returns. -/
theorem discoverMore_ok {seams : ResourceSeams} {content : ContentId} {w w' : JobWorld} {n : Nat}
    (h : discoverMore seams content w = (.ok n, w')) :
    Learns seams content w w' ∧
      n = (unknown ProviderRecord.providerPeerId w.own.providers
        (locatedAt seams content w.tick)).length := by
  have hwp : wp (discoverMore seams content) _ _ w := wp_discoverMore_learns w
  rw [wp, h] at hwp
  exact ⟨hwp.1, hwp.2.2⟩

/-- The list of a download holds each peer once exactly when no answer in its run names a peer
twice that it did not know, and locating more holders returns the number of the new peers exactly
when its answer is of that kind. The list of a pull holds each peer once exactly when its first
answer does. No merge removes or reorders the holders that were known. As the lists only grow,
what holds of them at the end of a run has held throughout. -/
theorem listed_once_iff (resource : ResourceSeams) (target : Target) (turns : List Turn)
    (pull : ModuleSeams) (c : Capsule) (sink : Sink) (store : StateStore) :
    let job := (downloadResource resource target turns sink store).2
    let module := (download pull c (PullWorld.fresh sink store)).2
    (Distinct ProviderRecord.providerPeerId job.own.providers ↔
      NewOnce ProviderRecord.providerPeerId [] (located resource target.content 0 job.trace)) ∧
    (∀ w n w', discoverMore resource target.content w = (.ok n, w') →
      let answer := locatedAt resource target.content w.tick
      w.own.providers <+: w'.own.providers ∧
      (n = (newPeers w.own.providers answer).card ↔
        Distinct ProviderRecord.providerPeerId
          (unknown ProviderRecord.providerPeerId w.own.providers answer))) ∧
    (Distinct ProviderRecord.providerPeerId module.own ↔
      Distinct ProviderRecord.providerPeerId (firstHolders pull c)) ∧
    ∀ known fresh, known <+: mergeNewProviders known fresh := by
  intro job module
  refine ⟨?_, ?_, (gains_download pull c sink store).2, prefix_mergeNewProviders⟩
  · have hjob : job.own.providers = learned resource target.content 0 job.trace [] :=
      providers_downloadResource resource target turns sink store
    rw [hjob, learned, distinct_foldl_learn]
    exact and_iff_right List.nodup_nil
  · intro w n w' hrun answer
    obtain ⟨hlearns, hn⟩ := discoverMore_ok hrun
    rw [hn]
    exact ⟨prefix_providers hlearns, length_unknown_eq_card⟩

/-! ## A locator that repeats itself -/

/-- The small resource with a locator that names its one holder twice, and later another one
twice. -/
def repeatingSeams : ResourceSeams :=
  { smallResourceSeams with
    findProviders := fun t _ =>
      let first : ProviderRecord := { providerPeerId := holderA, addresses := [] }
      let second : ProviderRecord := { providerPeerId := holderB, addresses := [] }
      if t < 2 then .ok [first, first] else .ok [first, second, second] }

/-- The small capsule with a locator that names its one holder twice. -/
def repeatingModuleSeams : ModuleSeams :=
  { smallSeams with
    findProviders := fun _ _ => .ok [{ providerPeerId := holderA, addresses := [] },
      { providerPeerId := holderA, addresses := [] }] }

/-- Both lists repeat the holder, and locating more holders reports two for one that is new. -/
theorem listed_twice :
    ¬ Distinct ProviderRecord.providerPeerId
      (downloadResource repeatingSeams smallTarget [] emptySink emptyStore).2.own.providers ∧
    ¬ Distinct ProviderRecord.providerPeerId
      (download repeatingModuleSeams smallCapsule (PullWorld.fresh emptySink emptyStore)).2.own ∧
    let w := loopStart repeatingSeams smallTarget emptySink emptyStore
    (discoverMore repeatingSeams smallTarget.content w).1.toOption = some 2 ∧
      (newPeers w.own.providers (locatedAt repeatingSeams smallTarget.content w.tick)).card = 1 :=
  ⟨by decide +kernel, by decide +kernel, by decide +kernel, by decide +kernel⟩

end DigDownload
