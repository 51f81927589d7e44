import Mathlib.Data.List.DropRight
import DigDownload.Lib.Runs

/-!
# Which node a client reads from

A client that was told a node reads from that one. Any other probes the nodes of its own machine
in a fixed order, and reads from the first that answers, or from the public gateway. The node is
resolved once: whoever asks for it while another caller probes waits for what that one finds, and
takes the probing over when that one is dropped.

What a probe says is part of the action that waits for it.
-/

namespace DigDownload

open Runs

/-! ## The ladder -/

/-- How the node was decided on. -/
inductive ResolvedTier where
  | override
  | digLocal
  | localhost
  | publicGateway
  deriving DecidableEq, Repr

structure ResolvedNode where
  baseUrl : String
  tier : ResolvedTier
  deriving DecidableEq, Repr

/-- A node that is probed before the gateway. -/
structure LocalRung where
  url : String
  tier : ResolvedTier
  deriving DecidableEq, Repr

/-- Where an explicit node came from. -/
inductive OverrideSource where
  | flag
  | env
  | config
  deriving DecidableEq, Repr

structure OverrideInputs where
  flag : Option String
  envVar : Option String
  configValue : Option String
  deriving DecidableEq, Repr

/-- The override of the highest precedence, with its source. -/
def OverrideInputs.resolve (overrides : OverrideInputs) : Option (String × OverrideSource) :=
  match overrides.flag with
  | some url => some (url, .flag)
  | none =>
      match overrides.envVar with
      | some url => some (url, .env)
      | none =>
          match overrides.configValue with
          | some url => some (url, .config)
          | none => none

def overrideSource (overrides : OverrideInputs) : Option OverrideSource :=
  overrides.resolve.map Prod.snd

def rpcDigNet : String := "https://rpc.dig.net"

def digLocalHost : String := "dig.local"

def defaultLocalNodePort : UInt16 := 9778

/-- The text without the slashes it ends with. -/
def trimEndSlashes (url : String) : String := String.ofList (url.toList.rdropWhile (· = '/'))

/-- The node that was decided on, at its address. -/
def resolvedAt (url : String) (tier : ResolvedTier) : ResolvedNode := ⟨trimEndSlashes url, tier⟩

/-- The final fallback, which is not probed. -/
def publicGateway : ResolvedNode := ⟨rpcDigNet, .publicGateway⟩

/-- The first rung that answers, where `probe n` says whether the `n`-th one does. -/
def climb (probe : Nat → Bool) : Nat → List LocalRung → ResolvedNode
  | _, [] => publicGateway
  | n, rung :: rest => if probe n then resolvedAt rung.url rung.tier else climb probe (n + 1) rest

def resolveNode (overrides : OverrideInputs) (localRungs : List LocalRung) (probe : Nat → Bool) :
    ResolvedNode :=
  match overrides.resolve with
  | some (url, _) => resolvedAt url .override
  | none => climb probe 0 localRungs

/-- The nodes of the machine, in the order in which they are probed. -/
def localUrls (port : UInt16) : List LocalRung :=
  [⟨s!"https://{digLocalHost}", .digLocal⟩, ⟨s!"http://{digLocalHost}", .digLocal⟩,
    ⟨s!"http://localhost:{port}", .localhost⟩]

/-! ## The cache -/

/-- Where a caller of the resolver stands. -/
inductive ResolverPoint where
  /-- the node may be resolved by now, or somebody resolves it -/
  | waiting
  /-- resolves the node: a rung is probed, and these are left -/
  | probing (rung : LocalRung) (rest : List LocalRung)
  | returned (node : ResolvedNode)
  /-- its future was dropped -/
  | dropped
  deriving DecidableEq

def ResolverPoint.isOver : ResolverPoint → Bool
  | .returned _ | .dropped => true
  | _ => false

structure ResolverCall where
  overrides : OverrideInputs
  localRungs : List LocalRung
  point : ResolverPoint
  deriving DecidableEq

/-- The cell with the node, the caller that initializes it, the callers, and every probe that
went out with the caller that it went out for. -/
structure CachedResolver where
  cached : Option ResolvedNode
  initializer : Option Nat
  calls : List ResolverCall
  probed : List (Nat × String)
  deriving DecidableEq

inductive ResolverAct where
  | getOrResolve (overrides : OverrideInputs) (localRungs : List LocalRung)
  | enter (call : Nat)
  | answer (call : Nat) (up : Bool)
  | drop (call : Nat)
  deriving DecidableEq

/-- The caller that an action is a step of. -/
def ResolverAct.caller? : ResolverAct → Option Nat
  | .getOrResolve _ _ => none
  | .enter i | .answer i _ | .drop i => some i

namespace CachedResolver

def new : CachedResolver := ⟨none, none, [], []⟩

/-- A caller goes to a point. -/
def goto (t : CachedResolver) (i : Nat) (point : ResolverPoint) : CachedResolver :=
  { t with calls := t.calls.modify i fun call => { call with point } }

/-- The initializer has the node. -/
def finish (t : CachedResolver) (i : Nat) (node : ResolvedNode) : CachedResolver :=
  { t.goto i (.returned node) with cached := some node, initializer := none }

/-- The initializer goes on to the next rung. -/
def climbOn (t : CachedResolver) (i : Nat) : List LocalRung → CachedResolver
  | [] => t.finish i publicGateway
  | rung :: rest => { t.goto i (.probing rung rest) with
      initializer := some i, probed := t.probed ++ [(i, rung.url)] }

/-- A caller begins to initialize the cell. -/
def begin (t : CachedResolver) (i : Nat) (call : ResolverCall) : CachedResolver :=
  match call.overrides.resolve with
  | some (url, _) => t.finish i (resolvedAt url .override)
  | none => t.climbOn i call.localRungs

/-- The step of a caller that stands at a point. -/
def stepCall (t : CachedResolver) (i : Nat) (call : ResolverCall) :
    ResolverAct → Option CachedResolver
  | .enter _ =>
      match call.point, t.cached, t.initializer with
      | .waiting, some node, _ => some (t.goto i (.returned node))
      | .waiting, none, none => some (t.begin i call)
      | _, _, _ => none
  | .answer _ up =>
      match call.point with
      | .probing rung rest =>
          some (if up then t.finish i (resolvedAt rung.url rung.tier) else t.climbOn i rest)
      | _ => none
  | .drop _ =>
      match call.point with
      | .waiting => some (t.goto i .dropped)
      | .probing _ _ => some { t.goto i .dropped with initializer := none }
      | .returned _ | .dropped => none
  | .getOrResolve _ _ => none

/-- A new caller, or one step of a caller. -/
def step (t : CachedResolver) : ResolverAct → Option CachedResolver
  | .getOrResolve overrides localRungs =>
      some { t with calls := t.calls ++ [⟨overrides, localRungs, .waiting⟩] }
  | act => act.caller?.bind fun i => (t.calls[i]?).bind fun call => stepCall t i call act

/-! ## What a step does -/

/-- The caller begins to initialize the cell, which nobody has or does. -/
structure Begins (t : CachedResolver) (i : Nat) (call : ResolverCall) (act : ResolverAct) :
    Prop where
  act : act = .enter i
  waiting : call.point = .waiting
  uncached : t.cached = none
  free : t.initializer = none

/-- Whether the caller has come to this node. -/
inductive Decides (t : CachedResolver) (i : Nat) (call : ResolverCall) :
    ResolverAct → ResolvedNode → Prop where
  | overridden {act : ResolverAct} {url : String} {source : OverrideSource}
      (hbegins : t.Begins i call act) (hoverride : call.overrides.resolve = some (url, source)) :
      Decides t i call act (resolvedAt url .override)
  | rungless {act : ResolverAct} (hbegins : t.Begins i call act)
      (hoverride : call.overrides.resolve = none) (hrungs : call.localRungs = []) :
      Decides t i call act publicGateway
  | answered {rung : LocalRung} {rest : List LocalRung}
      (hpoint : call.point = .probing rung rest) :
      Decides t i call (.answer i true) (resolvedAt rung.url rung.tier)
  | exhausted {rung : LocalRung} (hpoint : call.point = .probing rung []) :
      Decides t i call (.answer i false) publicGateway

/-- What one step of the `i`-th caller makes of the resolver. -/
inductive CallStep (t : CachedResolver) (i : Nat) (call : ResolverCall) :
    ResolverAct → CachedResolver → Prop where
  | reads {node : ResolvedNode} (hpoint : call.point = .waiting) (hcached : t.cached = some node) :
      CallStep t i call (.enter i) (t.goto i (.returned node))
  | begins {act : ResolverAct} {rung : LocalRung} {rest : List LocalRung}
      (hbegins : t.Begins i call act) (hoverride : call.overrides.resolve = none)
      (hrungs : call.localRungs = rung :: rest) : CallStep t i call act (t.climbOn i (rung :: rest))
  | climbs {prev rung : LocalRung} {rest : List LocalRung}
      (hpoint : call.point = .probing prev (rung :: rest)) :
      CallStep t i call (.answer i false) (t.climbOn i (rung :: rest))
  | finishes {act : ResolverAct} {node : ResolvedNode} (hdecides : t.Decides i call act node) :
      CallStep t i call act (t.finish i node)
  | leaves (hpoint : call.point = .waiting) : CallStep t i call (.drop i) (t.goto i .dropped)
  | abandons {rung : LocalRung} {rest : List LocalRung} (hpoint : call.point = .probing rung rest) :
      CallStep t i call (.drop i) { t.goto i .dropped with initializer := none }

variable {t t' : CachedResolver} {i j : Nat} {call call' : ResolverCall} {act : ResolverAct}
  {acts past : List ResolverAct} {point : ResolverPoint} {node : ResolvedNode}

theorem callStep_of_begin (hbegins : t.Begins i call act) :
    CallStep t i call act (t.begin i call) := by
  rw [begin]
  split
  · rename_i url source hoverride
    exact .finishes (.overridden hbegins hoverride)
  · rename_i hoverride
    cases hrungs : call.localRungs with
    | nil => exact .finishes (.rungless hbegins hoverride hrungs)
    | cons rung rest => exact .begins hbegins hoverride hrungs

theorem callStep_of_stepCall (hact : act.caller? = some i) (h : stepCall t i call act = some t') :
    CallStep t i call act t' := by
  cases act with
  | getOrResolve overrides localRungs => cases h
  | enter j =>
    cases hact
    simp only [stepCall] at h
    split at h
    · rename_i node hpoint hcached
      cases h
      exact .reads hpoint hcached
    · rename_i hpoint hcached hfree
      cases h
      exact callStep_of_begin ⟨rfl, hpoint, hcached, hfree⟩
    · cases h
  | answer j up =>
    cases hact
    simp only [stepCall] at h
    split at h
    · rename_i rung rest hpoint
      cases h
      cases up with
      | true => exact .finishes (.answered hpoint)
      | false =>
        cases rest with
        | nil => exact .finishes (.exhausted hpoint)
        | cons next rest => exact .climbs hpoint
    · cases h
  | drop j =>
    cases hact
    simp only [stepCall] at h
    split at h
    · rename_i hpoint
      cases h
      exact .leaves hpoint
    · rename_i rung rest hpoint
      cases h
      exact .abandons hpoint
    · cases h
    · cases h

/-- A step is a new caller, or one of the steps of a caller. -/
theorem step_cases (h : step t act = some t') :
    (∃ overrides localRungs, act = .getOrResolve overrides localRungs ∧
      t' = { t with calls := t.calls ++ [⟨overrides, localRungs, .waiting⟩] }) ∨
    ∃ i call, act.caller? = some i ∧ t.calls[i]? = some call ∧ CallStep t i call act t' := by
  have hcaller : ∀ act : ResolverAct,
      (act.caller?.bind fun i => (t.calls[i]?).bind fun call => stepCall t i call act) = some t' →
      ∃ i call, act.caller? = some i ∧ t.calls[i]? = some call ∧ CallStep t i call act t' := by
    intro act h
    obtain ⟨i, hi, h⟩ := Option.bind_eq_some_iff.mp h
    obtain ⟨call, hcall, h⟩ := Option.bind_eq_some_iff.mp h
    exact ⟨i, call, hi, hcall, callStep_of_stepCall hi h⟩
  cases act with
  | getOrResolve overrides localRungs =>
    cases h
    exact .inl ⟨_, _, rfl, rfl⟩
  | _ => exact .inr (hcaller _ h)

end CachedResolver

end DigDownload
