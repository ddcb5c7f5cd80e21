import Ferryx.Pane
import Ferryx.Resize
import Ferryx.Lib.Channels
import Ferryx.Lib.System

/-! # Panes and sessions joined by connections (`session-core/tests/lease_sim.rs`)

Any number of panes and any number of sessions, each one `ResizeLease`, joined as authors and sessions are in
`Network`. The last field of `PaneNet` records the past of a run; no step reads it. -/

namespace Ferryx
open Lib Pane

inductive ToPane where
  | granted (id session epoch appliedSeq : Nat)
  | reclaimed (id : Nat) (ok : Bool) (currentEpoch appliedSeq : Nat)
  | released (id : Nat)
  | revoked (session revokedEpoch newEpoch : Nat)
  | vacated (session : Nat)
  | ack (session epoch seq : Nat)
  | staleResize (epoch seq : Nat)
  | staleLease (session epoch currentEpoch : Nat)
  | failed (id : Nat)
  deriving DecidableEq, Repr

/-- The handler of each message. A pane that is told that a lease is free does not ask of which session. -/
def PaneLease.handle (a : PaneLease) : ToPane → PaneLease
  | .granted id s epoch appliedSeq => a.onGranted id s epoch appliedSeq
  | .reclaimed id ok currentEpoch appliedSeq => a.onReclaimResult id ok currentEpoch appliedSeq
  | .released id => a.onReleased id
  | .revoked s revokedEpoch newEpoch => a.onRevoked s revokedEpoch newEpoch
  | .vacated _ => a.onVacated
  | .ack s epoch seq => a.onResizeAck s epoch seq
  | .staleResize epoch seq => a.onStaleResize epoch seq
  | .staleLease s epoch currentEpoch => a.onStaleLease s epoch currentEpoch
  | .failed id => a.onRequestFailed id

structure PaneNet (H : Type) where
  hosts : Nat → ResizeLease H
  panes : H → PaneLease
  conn : H → Nat
  toHost : H → Nat → List Pane.Out
  toPane : H → Nat → List ToPane
  grant : Nat × Nat → Option (H × Nat)

inductive PaneAction (H : Type) where
  | setPolicy (i : H) (p : Policy) (userIntent : Bool)
  | visibleApplied (i : H) (cols rows : UInt16)
  | reconnect (i : H)
  | deliverToHost (i : H) (conn : Nat) (lose fail : Bool)
  | deliverToPane (i : H) (conn : Nat)
  | requestFailed (i : H) (id : Nat)
  | retryTimer (i : H)
  | unackedTimeout (i : H)

namespace PaneNet
variable {H : Type}

def start (size : Nat → UInt16 × UInt16) : PaneNet H where
  hosts s := .new (size s).1 (size s).2
  panes _ := .new
  conn _ := 0
  toHost _ _ := []
  toPane _ _ := []
  grant _ := none

def setHost (n : PaneNet H) (s : Nat) (l : ResizeLease H) : PaneNet H := { n with hosts := Function.update n.hosts s l }

variable [DecidableEq H]

def flush (n : PaneNet H) (i : H) (a : PaneLease) : PaneNet H :=
  { n with
    panes := Function.update n.panes i { a with out := [] }
    toHost := enqueue n.toHost i (n.conn i) a.out }

def reply (n : PaneNet H) (i : H) (c : Nat) (m : ToPane) : PaneNet H := { n with toPane := enqueue n.toPane i c [m] }

def event (n : PaneNet H) (i : H) (m : ToPane) : PaneNet H := n.reply i (n.conn i) m

def vacate (n : PaneNet H) (s : Nat) (revokees : List H) : PaneNet H :=
  revokees.foldl (fun n h => n.event h (.vacated s)) n

def admitRequest (n : PaneNet H) (i : H) (c s id : Nat) (fail : Bool) (handle : PaneNet H → PaneNet H) : PaneNet H :=
  match (n.hosts s).fresh i id with
  | (_, false) => n
  | (l, true) =>
    let n := n.setHost s l
    if fail then n.reply i c (.failed id) else handle n

def handleAcquire (i : H) (c id s : Nat) (n : PaneNet H) : PaneNet H :=
  let (l, epoch, applied, revoked) := (n.hosts s).acquire i
  let n := { n.setHost s l with grant := Function.update n.grant (s, epoch) (some (i, id)) }
  let n := match revoked with
    | some (h, prevEpoch) => n.event h (.revoked s prevEpoch epoch)
    | none => n
  n.reply i c (.granted id s epoch applied.seq)

def handleReclaim (i : H) (c id s epoch : Nat) (n : PaneNet H) : PaneNet H :=
  let (l, ok, current, applied) := (n.hosts s).reclaim i epoch
  (n.setHost s l).reply i c (.reclaimed id ok current applied.seq)

def handleRelease (i : H) (c id s epoch : Nat) (n : PaneNet H) : PaneNet H :=
  let (l, _, revokees) := (n.hosts s).release i epoch
  ((n.setHost s l).vacate s revokees).reply i c (.released id)

def handleResize (i : H) (c s epoch seq : Nat) (cols rows : UInt16) (n : PaneNet H) : PaneNet H :=
  let (l, result) := (n.hosts s).resize i epoch seq cols rows
  (n.setHost s l).reply i c (match result with
    | .ok a => .ack s a.epoch a.seq
    | .error (.staleResize a) => .staleResize a.epoch a.seq
    | .error (.staleLease current) => .staleLease s epoch current)

def hostHandle (n : PaneNet H) (i : H) (c : Nat) (fail : Bool) : Pane.Out → PaneNet H
  | .acquire id s => n.admitRequest i c s id fail (handleAcquire i c id s)
  | .reclaim id s epoch => n.admitRequest i c s id fail (handleReclaim i c id s epoch)
  | .release id s epoch => n.admitRequest i c s id fail (handleRelease i c id s epoch)
  | .resize s epoch seq cols rows => n.handleResize i c s epoch seq cols rows

def deliverToHost (n : PaneNet H) (i : H) (c : Nat) (lose fail : Bool) : PaneNet H :=
  match n.toHost i c with
  | [] => n
  | m :: rest =>
    let n := { n with toHost := setAt n.toHost i c rest }
    if c ≠ n.conn i ∧ lose = true then n else n.hostHandle i c fail m

def deliverToPane (n : PaneNet H) (i : H) (c : Nat) : PaneNet H :=
  match n.toPane i c with
  | [] => n
  | m :: rest =>
    let n := { n with toPane := setAt n.toPane i c rest }
    if c ≠ n.conn i then n else n.flush i ((n.panes i).handle m)

def reconnect (n : PaneNet H) (i : H) : PaneNet H :=
  { n with conn := Function.update n.conn i (n.conn i + 1) }.flush i (n.panes i).onReconnect

def step (n : PaneNet H) : PaneAction H → PaneNet H
  | .setPolicy i p userIntent => n.flush i ((n.panes i).setPolicy p userIntent)
  | .visibleApplied i cols rows => n.flush i ((n.panes i).onVisibleApplied cols rows)
  | .reconnect i => n.reconnect i
  | .deliverToHost i c lose fail => n.deliverToHost i c lose fail
  | .deliverToPane i c => n.deliverToPane i c
  | .requestFailed i id => n.flush i ((n.panes i).onRequestFailed id)
  | .retryTimer i => n.flush i (n.panes i).onRetryTimer
  | .unackedTimeout i => n.flush i (n.panes i).onUnackedTimeout

def Silent (n : PaneNet H) : Prop := ∀ i c, n.toHost i c = [] ∧ n.toPane i c = []

end PaneNet

def paneNetwork (H : Type) [DecidableEq H] : System (PaneNet H) (PaneAction H) where
  init n := ∃ size, n = PaneNet.start size
  step n a n' := n' = n.step a

end Ferryx
