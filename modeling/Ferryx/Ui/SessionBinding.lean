import Ferryx.Lib.System

/-! # The binding of a pane to its session (`ui/src/state/sessionBinding.ts`)

The reducer with its timers, and a world of partitions whose sessions are created, exit and are deleted while the reducer
gets answers and events about them. What the reducer throws is an error here. -/

namespace Ferryx.Ui
open Lib

inductive BindingPhase where
  | unbound | resolving | attaching | attached | disconnected | terminated
  deriving DecidableEq, Repr

inductive TerminationKind where
  | exited | absent | ownerLost
  deriving DecidableEq, Repr

structure ExitInfo where
  exitCode : Option Int
  posixSignal : Option Int
  deriving DecidableEq, Repr

structure TrustedIdentity where
  incarnation : String
  partition : String
  createdTableRevision : Nat
  deriving DecidableEq, Repr

structure Termination where
  kind : TerminationKind
  exitInfo : Option ExitInfo
  deriving DecidableEq, Repr

def retryInitialMs : Nat := 200
def retryMaxMs : Nat := 5000
def ackTimeoutMs : Nat := 10000
def inventoryTimeoutMs : Nat := 5000

/-- The defaults are those of `unboundBinding`. -/
structure SessionBinding where
  phase : BindingPhase := .unbound
  sessionId : String := ""
  incarnation : Option String := none
  partition : Option String := none
  createdTableRevision : Option Nat := none
  adopting : Bool := false
  attachSeq : Nat := 0
  subscriptionId : Option Nat := none
  lastRequestToken : Nat := 0
  inventoryPending : Bool := false
  retryDelayMs : Nat := retryInitialMs
  hasAppliedSnapshot : Bool := false
  termination : Option Termination := none
  spawning : Bool := false
  spawnError : Option String := none
  deriving DecidableEq, Repr

def unboundBinding : SessionBinding := {}

inductive PartitionReachability where
  | reachable | unreachable | ownerDead
  deriving DecidableEq, Repr

inductive PartitionKind where
  | microhost | legacy
  deriving DecidableEq, Repr

structure InventoryEntry where
  sessionId : String
  incarnation : String
  childRunning : Bool
  createdTableRevision : Nat
  exitInfo : Option ExitInfo
  deriving DecidableEq, Repr

structure PartitionInventory where
  partition : String
  kind : PartitionKind
  reachability : PartitionReachability
  complete : Bool
  tableRevision : Nat
  entries : List InventoryEntry
  deriving DecidableEq, Repr

inductive SubscribeErrorCode where
  | sessionNotFound | staleSubscribe | limitExceeded | ownerUnreachable | slowConsumer | other
  deriving DecidableEq, Repr

inductive BindingEvent where
  | layoutLoaded (sessionId : String) (trusted : Option TrustedIdentity)
  | inventory (token : Nat) (partitions : List PartitionInventory)
  | inventoryFailed (token : Nat)
  | retryTimer
  | subscribeAck (attachSeq subscriptionId : Nat) (incarnation : String)
  | subscribeError (attachSeq : Nat) (code : SubscribeErrorCode) (current : Option Nat)
  | subscriptionError (subscriptionId : Nat) (code : SubscribeErrorCode)
  | ackTimeout (attachSeq : Nat)
  | connectionLost
  | childExited (incarnation : String) (exitInfo : Option ExitInfo)
  | exitObserved (incarnation : String) (exitInfo : ExitInfo)
  | snapshotApplied (incarnation : String)
  | ownerDead (partition : String)
  | newShell
  | spawnResult (sessionId : String) (identity : TrustedIdentity)
  | spawnFailed (message : String)
  deriving DecidableEq, Repr

inductive BindingEffect where
  | requestInventory (token : Nat)
  | armInventoryTimer (token ms : Nat)
  | subscribe (sessionId : String) (attachSeq : Nat) (incarnation partition : String)
  | armAckTimer (attachSeq ms : Nat)
  | armRetryTimer (ms : Nat)
  | persistTrustedBinding (sessionId : String) (identity : TrustedIdentity)
  | finalScreenSubscribe (sessionId incarnation partition : String)
  | spawn
  deriving DecidableEq, Repr

structure BindingStep where
  binding : SessionBinding
  effects : List BindingEffect := []
  deriving DecidableEq, Repr

namespace SessionBinding

def live (b : SessionBinding) : Bool :=
  match b.phase with
  | .resolving | .attaching | .attached | .disconnected => true
  | .unbound | .terminated => false

def trust (b : SessionBinding) (i : TrustedIdentity) : SessionBinding :=
  { b with
    adopting := false
    incarnation := some i.incarnation
    partition := some i.partition
    createdTableRevision := some i.createdTableRevision }

end SessionBinding

namespace BindingStep

def requestInventory (s : BindingStep) : BindingStep :=
  let token := s.binding.lastRequestToken + 1
  { binding := { s.binding with lastRequestToken := token, inventoryPending := true }
    effects := s.effects ++ [.requestInventory token, .armInventoryTimer token inventoryTimeoutMs] }

def armRetry (s : BindingStep) : BindingStep :=
  { binding := { s.binding with retryDelayMs := min (s.binding.retryDelayMs * 2) retryMaxMs }
    effects := s.effects ++ [.armRetryTimer s.binding.retryDelayMs] }

def resolve (s : BindingStep) : BindingStep :=
  { s with binding := { s.binding with phase := .resolving, subscriptionId := none } }.requestInventory

def attach (s : BindingStep) : Except String BindingStep :=
  match s.binding.incarnation, s.binding.partition with
  | some incarnation, some partition =>
    let attachSeq := s.binding.attachSeq + 1
    .ok
      { binding := { s.binding with phase := .attaching, attachSeq, subscriptionId := none }
        effects := s.effects ++
          [.subscribe s.binding.sessionId attachSeq incarnation partition, .armAckTimer attachSeq ackTimeoutMs] }
  | _, _ => .error "attaching requires a trusted binding"

def disconnect (s : BindingStep) : BindingStep :=
  { s with binding := { s.binding with phase := .disconnected, subscriptionId := none } }.armRetry

def terminate (s : BindingStep) (kind : TerminationKind) (exitInfo : Option ExitInfo) : BindingStep :=
  { binding := { s.binding with phase := .terminated, termination := some ⟨kind, exitInfo⟩, inventoryPending := false }
    effects := match s.binding.incarnation, s.binding.partition with
      | some incarnation, some partition =>
        if kind = .exited ∧ ¬s.binding.hasAppliedSnapshot then
          s.effects ++ [.finalScreenSubscribe s.binding.sessionId incarnation partition]
        else s.effects
      | _, _ => s.effects }

end BindingStep

def findEntries (b : SessionBinding) (partitions : List PartitionInventory) : List (PartitionInventory × InventoryEntry) :=
  partitions.flatMap fun p => (p.entries.filter fun e => e.sessionId = b.sessionId).map (p, ·)

def isSettled (p : PartitionInventory) : Bool := p.reachability = .reachable ∧ p.complete

def onOwnInventory (s : BindingStep) (partitions : List PartitionInventory) : Except String BindingStep :=
  match partitions.find? fun p => some p.partition = s.binding.partition with
  | none => .ok s.armRetry
  | some own =>
    if own.reachability = .ownerDead then .ok (s.terminate .ownerLost none)
    else if ¬isSettled own then .ok s.armRetry
    else match own.entries.find? fun e => e.sessionId = s.binding.sessionId ∧
      some e.incarnation = s.binding.incarnation with
      | some entry => if entry.childRunning then s.attach else .ok (s.terminate .exited entry.exitInfo)
      | none =>
        if own.kind = .legacy then .ok (s.terminate .absent none)
        else match s.binding.createdTableRevision with
          | some created => if own.tableRevision ≥ created then .ok (s.terminate .absent none) else .ok s.armRetry
          | none => .ok s.armRetry

def onInventory (s : BindingStep) (partitions : List PartitionInventory) : Except String BindingStep :=
  if s.binding.adopting then
    match findEntries s.binding (partitions.filter isSettled) with
    | [(p, e)] =>
      let identity : TrustedIdentity := ⟨e.incarnation, p.partition, e.createdTableRevision⟩
      onOwnInventory
        { binding := s.binding.trust identity
          effects := s.effects ++ [.persistTrustedBinding s.binding.sessionId identity] } partitions
    | hits =>
      let undecided := partitions.any fun p => !isSettled p && p.reachability ≠ .ownerDead
      if hits.length = 0 ∧ partitions.length > 0 ∧ ¬undecided then
        .ok (s.terminate (if partitions.any fun p => p.reachability = .ownerDead then .ownerLost else .absent) none)
      else .ok s.armRetry
  else onOwnInventory s partitions

def bindingReducer (b : SessionBinding) : BindingEvent → Except String BindingStep
  | .layoutLoaded sessionId trusted =>
    if b.phase ≠ .unbound then .ok ⟨b, []⟩
    else
      .ok (BindingStep.resolve
        ⟨{ b with
            sessionId
            adopting := trusted.isNone
            incarnation := trusted.map TrustedIdentity.incarnation
            partition := trusted.map TrustedIdentity.partition
            createdTableRevision := trusted.map TrustedIdentity.createdTableRevision }, []⟩)
  | .inventory token partitions =>
    if b.phase ≠ .resolving ∨ ¬b.inventoryPending ∨ token ≠ b.lastRequestToken then .ok ⟨b, []⟩
    else onInventory ⟨{ b with inventoryPending := false }, []⟩ partitions
  | .inventoryFailed token =>
    if b.phase ≠ .resolving ∨ ¬b.inventoryPending ∨ token ≠ b.lastRequestToken then .ok ⟨b, []⟩
    else .ok (BindingStep.armRetry ⟨{ b with inventoryPending := false }, []⟩)
  | .retryTimer =>
    if b.phase = .disconnected then .ok (BindingStep.resolve ⟨b, []⟩)
    else if b.phase = .resolving ∧ ¬b.inventoryPending then .ok (BindingStep.requestInventory ⟨b, []⟩)
    else .ok ⟨b, []⟩
  | .subscribeAck attachSeq subscriptionId incarnation =>
    if b.phase ≠ .attaching ∨ attachSeq ≠ b.attachSeq ∨ some incarnation ≠ b.incarnation then .ok ⟨b, []⟩
    else .ok ⟨{ b with phase := .attached, subscriptionId := some subscriptionId, retryDelayMs := retryInitialMs }, []⟩
  | .subscribeError attachSeq code current =>
    if b.phase ≠ .attaching ∨ attachSeq ≠ b.attachSeq then .ok ⟨b, []⟩
    else match code, current with
      | .sessionNotFound, _ => .ok (BindingStep.resolve ⟨b, []⟩)
      | .staleSubscribe, some current => BindingStep.attach ⟨{ b with attachSeq := max b.attachSeq current }, []⟩
      | _, _ => .ok (BindingStep.disconnect ⟨b, []⟩)
  | .subscriptionError subscriptionId _ =>
    if b.phase = .attached ∧ some subscriptionId = b.subscriptionId then .ok (BindingStep.disconnect ⟨b, []⟩)
      else .ok ⟨b, []⟩
  | .ackTimeout attachSeq =>
    if b.phase = .attaching ∧ attachSeq = b.attachSeq then .ok (BindingStep.disconnect ⟨b, []⟩) else .ok ⟨b, []⟩
  | .connectionLost =>
    if b.phase = .attaching ∨ b.phase = .attached then .ok (BindingStep.disconnect ⟨b, []⟩) else .ok ⟨b, []⟩
  | .childExited incarnation exitInfo =>
    if b.live ∧ some incarnation = b.incarnation then .ok (BindingStep.terminate ⟨b, []⟩ .exited exitInfo) else .ok ⟨b, []⟩
  | .exitObserved incarnation exitInfo =>
    if b.phase = .attached ∧ some incarnation = b.incarnation then
      .ok (BindingStep.terminate ⟨b, []⟩ .exited (some exitInfo))
    else .ok ⟨b, []⟩
  | .snapshotApplied incarnation =>
    if some incarnation = b.incarnation then .ok ⟨{ b with hasAppliedSnapshot := true }, []⟩ else .ok ⟨b, []⟩
  | .ownerDead partition =>
    if b.live ∧ some partition = b.partition then .ok (BindingStep.terminate ⟨b, []⟩ .ownerLost none) else .ok ⟨b, []⟩
  | .newShell =>
    if b.phase ≠ .terminated ∨ b.spawning then .ok ⟨b, []⟩
    else .ok ⟨{ b with spawning := true, spawnError := none }, [.spawn]⟩
  | .spawnResult sessionId identity =>
    if b.phase ≠ .terminated ∨ ¬b.spawning then .ok ⟨b, []⟩
    else
      BindingStep.attach
        ⟨{ b.trust identity with
            sessionId
            spawning := false
            termination := none
            hasAppliedSnapshot := false
            retryDelayMs := retryInitialMs }, [.persistTrustedBinding sessionId identity]⟩
  | .spawnFailed message =>
    if b.phase = .terminated ∧ b.spawning then .ok ⟨{ b with spawning := false, spawnError := some message }, []⟩
    else .ok ⟨b, []⟩

inductive BindingTimer where
  | inventory (token : Nat)
  | ack (attachSeq : Nat)
  | retry
  deriving DecidableEq, Repr

def BindingTimer.event : BindingTimer → BindingEvent
  | .inventory token => .inventoryFailed token
  | .ack attachSeq => .ackTimeout attachSeq
  | .retry => .retryTimer

def BindingEffect.timer? : BindingEffect → Option BindingTimer
  | .armInventoryTimer token _ => some (.inventory token)
  | .armAckTimer attachSeq _ => some (.ack attachSeq)
  | .armRetryTimer _ => some .retry
  | _ => none

structure TimedBinding where
  binding : SessionBinding := unboundBinding
  /-- The timers that were armed and have not fired. None is ever cancelled. -/
  outstanding : List BindingTimer := []
  emitted : List BindingEffect := []

inductive TimedAction where
  | fire (t : BindingTimer)
  | event (e : BindingEvent)

namespace TimedBinding

def event (w : TimedBinding) (e : BindingEvent) : TimedBinding :=
  match bindingReducer w.binding e with
  | .error _ => w
  | .ok s => ⟨s.binding, w.outstanding ++ s.effects.filterMap BindingEffect.timer?, w.emitted ++ s.effects⟩

def step (w : TimedBinding) : TimedAction → TimedBinding
  | .fire t => if t ∈ w.outstanding then { w with outstanding := w.outstanding.erase t }.event t.event else w
  | .event e => w.event e

def run (as : List TimedAction) : TimedBinding := as.foldl step {}

end TimedBinding

structure HostSession where
  partition : String
  sessionId : String
  incarnation : String
  createdTableRevision : Nat
  childRunning : Bool := true
  exitInfo : Option ExitInfo := none
  deleted : Bool := false
  deriving DecidableEq, Repr

def HostSession.entry (s : HostSession) : InventoryEntry :=
  ⟨s.sessionId, s.incarnation, s.childRunning, s.createdTableRevision, s.exitInfo⟩

structure Hosts where
  sessions : List HostSession
  kind : String → PartitionKind
  tableRevision : String → Nat
  dead : String → Bool

/-- What an answer says of a partition is true of `h`; it says nothing where the partition is not settled. -/
structure Reports (h : Hosts) (p : PartitionInventory) : Prop where
  ownerDead : p.reachability = .ownerDead → h.dead p.partition = true
  kind : isSettled p = true → p.kind = h.kind p.partition
  tableRevision : isSettled p = true → p.kind = .microhost → p.tableRevision = h.tableRevision p.partition
  listed : isSettled p = true → ∀ e ∈ p.entries, ∃ s ∈ h.sessions, s.partition = p.partition ∧ s.deleted = false ∧
    s.entry = e
  complete : isSettled p = true → ∀ s ∈ h.sessions, s.partition = p.partition → s.deleted = false → s.entry ∈ p.entries

structure Pane where
  hosts : Hosts
  binding : SessionBinding := unboundBinding
  /-- The states of the hosts since the last request for an inventory. -/
  since : List Hosts := []
  /-- The partitions of the last answer that was taken. -/
  listed : List String := []

inductive PaneAction where
  | create (partition sessionId incarnation : String)
  | exit (k : Nat) (exitInfo : Option ExitInfo)
  | delete (k : Nat)
  | ownerDies (partition : String)
  | event (e : BindingEvent)

namespace Hosts

def bump (h : Hosts) (partition : String) : Hosts :=
  { h with tableRevision := Function.update h.tableRevision partition (h.tableRevision partition + 1) }

def create (h : Hosts) (partition sessionId incarnation : String) : Hosts :=
  let h := h.bump partition
  { h with sessions := h.sessions ++
    [{ partition, sessionId, incarnation, createdTableRevision := h.tableRevision partition }] }

def exit (h : Hosts) (k : Nat) (exitInfo : Option ExitInfo) : Hosts :=
  match h.sessions[k]? with
  | none => h
  | some s => { h.bump s.partition with sessions := h.sessions.set k { s with childRunning := false, exitInfo } }

def delete (h : Hosts) (k : Nat) : Hosts :=
  match h.sessions[k]? with
  | none => h
  | some s => { h.bump s.partition with sessions := h.sessions.set k { s with deleted := true } }

def die (h : Hosts) (partition : String) : Hosts := { h with dead := Function.update h.dead partition true }

end Hosts

namespace Pane

def turn (w : Pane) (hosts : Hosts) : Pane := { w with hosts, since := w.since ++ [hosts] }

def takes (b : SessionBinding) (token : Nat) : Bool := b.phase = .resolving ∧ b.inventoryPending ∧
    token = b.lastRequestToken

def listedAfter (w : Pane) : BindingEvent → List String
  | .inventory token partitions => if takes w.binding token then partitions.map PartitionInventory.partition else w.listed
  | _ => w.listed

def event (w : Pane) (e : BindingEvent) : Pane :=
  match bindingReducer w.binding e with
  | .error _ => w
  | .ok s =>
    { w with
      binding := s.binding
      since := if s.binding.lastRequestToken = w.binding.lastRequestToken then w.since else [w.hosts]
      listed := w.listedAfter e }

def step (w : Pane) : PaneAction → Pane
  | .create partition sessionId incarnation => w.turn (w.hosts.create partition sessionId incarnation)
  | .exit k exitInfo => w.turn (w.hosts.exit k exitInfo)
  | .delete k => w.turn (w.hosts.delete k)
  | .ownerDies partition => w.turn (w.hosts.die partition)
  | .event e => w.event e

end Pane

def panes : System Pane PaneAction where
  init w := ∃ hosts, (hosts.sessions.map HostSession.incarnation).Nodup ∧ w = { hosts }
  step w a w' := w' = w.step a

end Ferryx.Ui
