import Ferryx.Lib.Serial
import Ferryx.Lib.System
import Ferryx.Rd.Media

/-! # The queue between the receiver and the decoder (`ferryx-rd-app/src/frame_queue.rs`)

Instants and durations are numbers of nanoseconds. The jitter is a rational number where the source has a
floating-point one. The trace of events that the source records is left out. -/

namespace Ferryx.Rd
open Lib

def frameQueueCapacity : Nat := 4

structure QueuedFrame where
  frame : AssembledFrame
  received : Nat
  deriving DecidableEq, Repr

def QueuedFrame.key (f : QueuedFrame) : Bool := f.frame.header.isKeyFrame
def QueuedFrame.id (f : QueuedFrame) : UInt32 := f.frame.header.frameId

inductive PlayoutMode where
  | immediate
  | adaptive
  | latestWins
  deriving DecidableEq, Repr

structure FrameQueueConfig where
  capacity : Nat := frameQueueCapacity
  maxBacklog : Nat := frameQueueCapacity
  retainPrefix : Bool := false
  idrDefer : Nat := 0
  frameInterval : Nat := 16667000
  playout : PlayoutMode := .immediate
  deriving DecidableEq, Repr

structure NormalConfig extends FrameQueueConfig where
  capacity_pos : 0 < capacity
  capacity_le : capacity ≤ maxBacklog

namespace FrameQueueConfig

def normalized (c : FrameQueueConfig) : NormalConfig :=
  { c with
    capacity := max c.capacity 1
    maxBacklog := max c.maxBacklog (max c.capacity 1)
    capacity_pos := by omega
    capacity_le := by omega }

end FrameQueueConfig

structure FrameQueue where
  config : NormalConfig
  frames : List QueuedFrame := []
  lastFrameId : Option UInt32 := none
  recovering : Bool := false
  stopped : Bool := false
  /-- When an overload began whose request for a keyframe is deferred. -/
  pendingRequestSince : Option Nat := none
  lastArrival : Option (Nat × UInt32) := none
  jitter : ℚ := 0

inductive Take where
  | frame (f : QueuedFrame)
  | wait (duration : Nat)
  | empty
  | disconnected
  deriving DecidableEq, Repr

namespace FrameQueue

def withConfig (c : FrameQueueConfig) : FrameQueue := { config := c.normalized }

def playoutDelay (q : FrameQueue) : Nat :=
  let interval := q.config.frameInterval
  interval + (min (q.jitter * 2 * 1000000000) interval).floor.toNat

def signed (x : UInt32) : ℤ := x.toInt32.toInt

def observeArrival (q : FrameQueue) (received : Nat) (timestampMs : UInt32) : FrameQueue :=
  let jitter := match q.lastArrival with
    | none => q.jitter
    | some (prev, prevTs) =>
      let arrival : ℚ := ((received : ℤ) - (prev : ℤ)) / 1000000000
      let sent : ℚ := signed (timestampMs - prevTs) / 1000
      q.jitter + (|arrival - sent| - q.jitter) / 16
  { q with lastArrival := some (received, timestampMs), jitter }

def latestKey (frames : List QueuedFrame) : Option Nat :=
  (frames.reverse.findIdx? QueuedFrame.key).map fun k => frames.length - 1 - k

def skipToLatestKey (q : FrameQueue) : FrameQueue :=
  match latestKey q.frames with
  | some key => { q with frames := q.frames.drop key }
  | none => q

def skipStale (q : FrameQueue) : FrameQueue := if q.config.playout = .latestWins then q.skipToLatestKey else q

def take (q : FrameQueue) (now : Nat) : FrameQueue × Take :=
  let q := q.skipStale
  match q.frames with
  | [] => (q, .empty)
  | head :: rest =>
    let due := head.received + q.playoutDelay
    if q.config.playout = .adaptive ∧ q.frames.length ≤ 2 ∧ now < due then (q, .wait (due - now))
    else ({ q with frames := rest }, .frame head)

/-- One round of the loops of `recv` and `recv_timeout`, which release the lock between rounds. -/
def poll (q : FrameQueue) (now : Nat) : FrameQueue × Take := if q.stopped then (q, .disconnected) else q.take now

def reconfigure (q : FrameQueue) (c : FrameQueueConfig) : FrameQueue := { q with config := c.normalized }

def setPlayoutMode (q : FrameQueue) (mode : PlayoutMode) : FrameQueue :=
  { q with config := { q.config with playout := mode } }

def late (q : FrameQueue) (id : UInt32) : Bool := q.lastFrameId.any fun last =>
    id - last = 0 || id - last ≥ (1 : UInt32) <<< 31

def discontinuity (q : FrameQueue) (id : UInt32) : Bool := q.lastFrameId.any fun last => id - last ≠ 1

/-- The soft capacity is reached. A keyframe supersedes the backlog; another frame skips to a queued keyframe. Says whether
    the backlog is to be dropped. -/
def overflow (q : FrameQueue) (f : QueuedFrame) : FrameQueue × Bool :=
  let q := if f.key then { q with frames := [] } else q.skipToLatestKey
  if q.frames.length ≥ q.config.maxBacklog then
    if q.config.retainPrefix then
      -- The decodable prefix is kept, and this frame is lost.
      (if q.recovering then q else { q with recovering := true, pendingRequestSince := some f.received }, false)
    else (q, true)
  else (q, false)

/-- A reference is lost, and with it the frames that depend on it. Says whether to request a keyframe. -/
def dropBacklog (q : FrameQueue) (key : Bool) : FrameQueue × Bool :=
  ({ q with frames := [], recovering := true, pendingRequestSince := none }, !q.recovering && !key)

def requestDue (q : FrameQueue) (f : QueuedFrame) : Bool :=
  q.pendingRequestSince.any fun since => !f.key && decide (f.received - since ≥ q.config.idrDefer)

def makeRoom (q : FrameQueue) (f : QueuedFrame) (discontinuity : Bool) : FrameQueue × Bool :=
  let (q, drop) := if !discontinuity && q.frames.length ≥ q.config.capacity then q.overflow f else (q, discontinuity)
  if drop then q.dropBacklog f.key else (q, false)

def accept (q : FrameQueue) (f : QueuedFrame) (request : Bool) : FrameQueue × Bool :=
  let due := q.requestDue f
  let q := if due || f.key then { q with pendingRequestSince := none } else q
  if q.recovering && !f.key then (q, request || due)
  else ({ q with recovering := false, frames := q.frames ++ [f] }, request || due)

def arrived (q : FrameQueue) (f : QueuedFrame) : FrameQueue :=
  { q with lastFrameId := some f.id }.observeArrival f.received f.frame.timestampMs

def push (q : FrameQueue) (f : QueuedFrame) : FrameQueue × Except String Bool :=
  if q.stopped then (q, .error "frame queue stopped")
  else if q.late f.id then (q, .ok false)
  else
    let (q, request) := (q.arrived f).makeRoom f (q.discontinuity f.id)
    let (q, request) := q.accept f request
    (q, .ok request)

def decodeFailed (q : FrameQueue) : FrameQueue × Bool :=
  if q.stopped then (q, false)
  else match q.frames.findIdx? QueuedFrame.key with
    | some key => ({ q with frames := q.frames.drop key, recovering := false, pendingRequestSince := none }, false)
    | none =>
      -- A deferred request is due now.
      let request := !q.recovering || q.pendingRequestSince.isSome
      let pendingRequestSince := if q.recovering then none else q.pendingRequestSince
      ({ q with frames := [], recovering := true, pendingRequestSince }, request)

def stop (q : FrameQueue) : FrameQueue := { q with stopped := true, frames := [] }

end FrameQueue

inductive FrameQueueCall where
  | push (f : QueuedFrame)
  | poll (now : Nat)
  | decodeFailed
  | reconfigure (c : FrameQueueConfig)
  | setPlayoutMode (mode : PlayoutMode)
  | stop

/-- A queue and the past of the calls on it, which no call reads. -/
structure Playback where
  queue : FrameQueue
  delivered : Option UInt32 := none
  failed : Bool := false
  asked : Bool := false

namespace Playback

def called (w : Playback) (q : FrameQueue) (request : Bool) : Playback :=
  { w with queue := q, asked := q.recovering && (w.queue.recovering && w.asked || request) }

def step (w : Playback) : FrameQueueCall → Playback
  | .push f => match w.queue.push f with
    | (q, .ok request) => w.called q request
    | (q, .error _) => w.called q false
  | .poll now => match w.queue.poll now with
    | (q, .frame f) => { w with queue := q, delivered := some f.id, failed := false }
    | (q, _) => { w with queue := q }
  | .decodeFailed =>
    let (q, request) := w.queue.decodeFailed
    { w.called q request with failed := true }
  | .reconfigure c => { w with queue := w.queue.reconfigure c }
  | .setPlayoutMode mode => { w with queue := w.queue.setPlayoutMode mode }
  | .stop => { w with queue := w.queue.stop }

end Playback

def playback : System Playback FrameQueueCall where
  init w := ∃ c, w = { queue := .withConfig c }
  step w call w' := w' = w.step call

end Ferryx.Rd
