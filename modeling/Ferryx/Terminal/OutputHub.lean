import Ferryx.Terminal.RetainedHistory

/-! # The output of a session (`terminal/output_hub.rs`)

Chunks go to a recovery ring, the retained history, the mirrored screen and the subscribers. An attach returns a history and
a receiver for what is published later. -/

namespace Ferryx.Terminal

def broadcastCapacity : Nat := 64
def resizeLedgerCapacity : Nat := 4096

def resetsWholeScreen (bytes : List UInt8) : Bool :=
  [[esc] ++ ascii "c", [esc] ++ ascii "[2J", [esc] ++ ascii "[?1049h"].any (· <:+: bytes)

structure ResizePoint where
  sequence : Nat
  cols : Nat
  rows : Nat
  deriving DecidableEq

structure HistoryRange where
  cols : Option Nat
  rows : Option Nat
  start : Nat
  stop : Nat
  deriving DecidableEq

structure ReplayGap where
  requestedAfterSequence : Nat
  availableFromSequence : Nat
  deriving DecidableEq

structure OutputChunk where
  sequence : Nat
  bytes : List UInt8
  metricsReadUnixMicros : Option Nat := none
  replayGap : Option ReplayGap := none
  deriving DecidableEq

def scanModeFrom : Nat → List UInt8 → Option Bool → Option Bool
  | 0, _, last | _, [], last => last
  | fuel + 1, b :: bytes, last =>
    if [esc, '['.toUInt8, '?'.toUInt8].isPrefixOf (b :: bytes) then
      let isParam (c : UInt8) : Bool := isDigit c || c == ';'.toUInt8
      let rest := bytes.drop 2
      match rest.dropWhile isParam with
      | final :: after =>
        if final = 'h'.toUInt8 ∨ final = 'l'.toUInt8 then
          let named := ((rest.takeWhile isParam).splitOn ';'.toUInt8).contains (ascii "2004")
          scanModeFrom fuel after (if named then some (final = 'h'.toUInt8) else last)
        else scanModeFrom fuel bytes last
      | [] => scanModeFrom fuel bytes last
    else scanModeFrom fuel bytes last

def scanDecMode2004 (bytes : List UInt8) : Option Bool :=
  if bytes.contains '2'.toUInt8 then scanModeFrom bytes.length bytes none else none

structure BoundedBuffer where
  capacity : Nat
  chunks : List OutputChunk := []
  currentSize : Nat := 0
  nextSequence : Nat := 1
  bracketedPasteEnabled : Bool := false
  retained : RetainedHistory
  gapFloor : Nat := 0
  deriving DecidableEq

namespace BoundedBuffer

def withRetention (capacity : Nat) (budget : RetentionBudget) : BoundedBuffer := { capacity, retained := .new budget }

def evictChunks (capacity : Nat) : List OutputChunk → Nat → List OutputChunk × Nat
  | [], size => ([], size)
  | c :: cs, size => if capacity < size then evictChunks capacity cs (size - c.bytes.length) else (c :: cs, size)

def pushChunk (b : BoundedBuffer) (chunk : OutputChunk) : BoundedBuffer :=
  let (chunks, currentSize) := evictChunks b.capacity (b.chunks ++ [chunk]) (b.currentSize + chunk.bytes.length)
  { b with chunks, currentSize }

def pushWithReadTimestamp (b : BoundedBuffer) (bytes : List UInt8) (micros : Option Nat) :
    Option (BoundedBuffer × OutputChunk) :=
  if bytes = [] then none
  else
    let sequence := b.nextSequence
    let chunk : OutputChunk := { sequence, bytes, metricsReadUnixMicros := micros }
    let pushed := { b with
      nextSequence := sequence + 1
      bracketedPasteEnabled := (scanDecMode2004 bytes).getD b.bracketedPasteEnabled
      retained := b.retained.push sequence bytes }
    some (pushed.pushChunk chunk, chunk)

def startSequence (b : BoundedBuffer) : Option Nat := b.chunks.head?.map OutputChunk.sequence

def retainedStartSequence (b : BoundedBuffer) : Option Nat := b.retained.startSequence.or b.startSequence

def endSequence (b : BoundedBuffer) : Option Nat := b.chunks.getLast?.map OutputChunk.sequence

def bufferContainsActiveBracketedPaste (b : BoundedBuffer) : Bool :=
  b.chunks.foldl (fun active c => (scanDecMode2004 c.bytes).getD active) false

def gapAfter (b : BoundedBuffer) (first last : Option Nat) (requested : Nat) : Option ReplayGap :=
  if 0 < b.gapFloor ∧ requested < b.gapFloor then some ⟨requested, b.gapFloor⟩
  else match first with
    | some first => if requested < first - 1 ∨ last.getD 0 < requested then some ⟨requested, first⟩ else none
    | none => if 1 < b.nextSequence ∨ 0 < requested then some ⟨requested, b.nextSequence⟩ else none

abbrev Size := Option Nat × Option Nat

def advanceSize (sequence : Nat) : List ResizePoint → Size → Size × List ResizePoint
  | [], size => (size, [])
  | p :: ps, size => if p.sequence ≤ sequence then advanceSize sequence ps (some p.cols, some p.rows) else (size, p :: ps)

/-- The ranges of the items after the first one, with the range that is open at the end. -/
def rangesOf : List (Nat × List UInt8) → List ResizePoint → Size → Nat → Nat → List HistoryRange × List ResizePoint
  | [], ledger, size, start, pos =>
    let trailing := match ledger.getLast? with
      | some p => if (some p.cols, some p.rows) ≠ size then [⟨some p.cols, some p.rows, pos, pos⟩] else []
      | none => []
    (⟨size.1, size.2, start, pos⟩ :: trailing, ledger)
  | (sequence, bytes) :: items, ledger, size, start, pos =>
    let (next, ledger) := advanceSize sequence ledger size
    if next ≠ size then
      let (ranges, ledger) := rangesOf items ledger next pos (pos + bytes.length)
      (⟨size.1, size.2, start, pos⟩ :: ranges, ledger)
    else rangesOf items ledger size start (pos + bytes.length)

structure RangedHistory where
  history : List UInt8
  ranges : List HistoryRange
  startSequence : Option Nat
  endSequence : Option Nat
  gap : Option ReplayGap
  deriving DecidableEq

def snapshotAfterRangesImpl (b : BoundedBuffer) (after : Option Nat) (ledger : List ResizePoint) (fromRetained : Bool) :
    RangedHistory :=
  let first := if fromRetained then b.retainedStartSequence.map (max · b.gapFloor) else b.startSequence
  let last := b.endSequence
  let gap := after.bind (b.gapAfter first last)
  let full := after.isNone || gap.isSome
  let (items, prelude) : List (Nat × List UInt8) × List UInt8 :=
    if fromRetained && full then (b.retained.recordsWithPending b.retained.pending, b.retained.statePrelude)
    else
      ((b.chunks.filter fun c => full || after.any (· < c.sequence)).map fun c => (c.sequence, c.bytes),
        if full && b.bracketedPasteEnabled && !b.bufferContainsActiveBracketedPaste then [esc] ++ ascii "[?2004h" else [])
  if items = [] ∧ prelude = [] then
    let ranges := match ledger.getLast? with
      | some p => if after.all (· < p.sequence) then [⟨some p.cols, some p.rows, 0, 0⟩] else []
      | none => []
    ⟨[], ranges, none, last, gap⟩
  else
    let first := (items.head?.map Prod.fst).or last
    let (size, ledger) := match first with
      | some start => advanceSize start ledger (none, none)
      | none => ((none, none), ledger)
    let pos := prelude.length + (items.head?.map (·.2.length)).getD 0
    ⟨prelude ++ items.flatMap Prod.snd, (rangesOf items.tail ledger size 0 pos).1, first, last, gap⟩

def snapshotAfterRanges (b : BoundedBuffer) (after : Option Nat) (ledger : List ResizePoint) : RangedHistory :=
  b.snapshotAfterRangesImpl after ledger true

end BoundedBuffer

structure ScreenSeed where
  cols : Nat
  rows : Nat
  bytes : List UInt8
  deriving DecidableEq

/-- The mirrored screen: a terminal engine that is fed with every published chunk. -/
class ScreenMirror (σ : Type) where
  create : Nat → Nat → Option σ
  feed : σ → List UInt8 → σ
  feedReplay : σ → List UInt8 → σ
  resize : σ → Nat → Nat → σ
  isAlternateScreen : σ → Bool
  seed : σ → Option ScreenSeed

structure AttachmentSnapshot where
  historyStartSequence : Option Nat
  historyEndSequence : Option Nat
  history : List UInt8
  gap : Option ReplayGap
  historyIncomplete : Bool
  deriving DecidableEq

/-- A session hub without its channels, whose sends are returned by the operations. -/
structure SessionHub (σ : Type) where
  buffer : BoundedBuffer
  resizeLedger : List ResizePoint := []
  replayGap : Option ReplayGap := none
  gapped : Bool := false
  screen : Option σ

def gapSeam : List UInt8 :=
  ascii "\r\n\x1b[0m\x1b[33m[Ferryx: output stream gap - some terminal output was missed]\x1b[0m\r\n"

namespace SessionHub
variable {σ : Type} [ScreenMirror σ]

def register (capacity : Nat) (retention : RetentionBudget) : SessionHub σ :=
  { buffer := .withRetention capacity retention, screen := ScreenMirror.create 80 24 }

omit [ScreenMirror σ] in
/-- The field `gapped` is the `history_incomplete` of the source, which this refines. -/
def historyIncomplete (h : SessionHub σ) : Bool :=
  h.gapped && h.buffer.retainedStartSequence.all (· < h.buffer.gapFloor)

omit [ScreenMirror σ] in
def isBracketedPasteEnabled (h : SessionHub σ) : Bool := h.buffer.bracketedPasteEnabled

def screenSeed (h : SessionHub σ) : Option ScreenSeed :=
  if 0 < h.buffer.retained.imageBytes then none
  else h.screen.bind fun screen => if ScreenMirror.isAlternateScreen screen then none else ScreenMirror.seed screen

def publish (h : SessionHub σ) (bytes : List UInt8) (micros : Option Nat) : Option (SessionHub σ × OutputChunk) :=
  (h.buffer.pushWithReadTimestamp bytes micros).map fun (buffer, chunk) =>
    ({ h with
        buffer
        screen := h.screen.map (ScreenMirror.feed · chunk.bytes)
        replayGap := none
        gapped := h.gapped && !resetsWholeScreen chunk.bytes }, chunk)

/-- The subscribers get the boundary, not the seam. -/
def publishGap (h : SessionHub σ) : SessionHub σ × OutputChunk :=
  let sequence := h.buffer.nextSequence
  let gap : ReplayGap := ⟨sequence - 1, sequence + 1⟩
  let buffer := { h.buffer with
    nextSequence := sequence + 1
    gapFloor := sequence + 1
    retained := h.buffer.retained.push sequence gapSeam }
  ({ h with
      buffer := buffer.pushChunk { sequence, bytes := gapSeam }
      screen := h.screen.map (ScreenMirror.feedReplay · gapSeam)
      replayGap := some gap
      gapped := true },
    { sequence, bytes := [], replayGap := some gap })

def recordInitialSize (h : SessionHub σ) (cols rows : Nat) : SessionHub σ :=
  if h.resizeLedger = [] then
    { h with resizeLedger := [⟨0, cols, rows⟩], screen := h.screen.map (ScreenMirror.resize · cols rows) }
  else h

def recordResize (h : SessionHub σ) (cols rows : Nat) : SessionHub σ :=
  let sequence := h.buffer.nextSequence
  let ledger := if resizeLedgerCapacity ≤ h.resizeLedger.length then h.resizeLedger.drop 1 else h.resizeLedger
  { h with
    buffer := { h.buffer with nextSequence := sequence + 1, retained := h.buffer.retained.sealText }
    resizeLedger := ledger ++ [⟨sequence, cols, rows⟩]
    screen := h.screen.map (ScreenMirror.resize · cols rows) }

omit [ScreenMirror σ] in
/-- The section of an attach under the lock, in which it also subscribes. -/
def subscribeWithSequenceRanges (h : SessionHub σ) (after : Option Nat) : AttachmentSnapshot × List HistoryRange :=
  let snapshot := h.buffer.snapshotAfterRanges after h.resizeLedger
  let gap := snapshot.gap.or (h.replayGap.filter fun gap => after.any (· < gap.availableFromSequence - 1))
  (⟨snapshot.startSequence, snapshot.endSequence, snapshot.history, gap, h.historyIncomplete⟩, snapshot.ranges)

def substituteScreen (h : SessionHub σ) (after : Option Nat) (attached : AttachmentSnapshot × List HistoryRange) :
    AttachmentSnapshot × List HistoryRange :=
  let retainedLostBytes := h.buffer.retainedStartSequence.any (1 < ·)
  let isFullReplay := after.isNone || attached.1.gap.isSome
  if isFullReplay && retainedLostBytes then
    match h.screenSeed with
    | some seed => ({ attached.1 with history := seed.bytes }, [⟨some seed.cols, some seed.rows, 0, seed.bytes.length⟩])
    | none => attached
  else attached

end SessionHub

inductive HubOp where
  | publish (bytes : List UInt8) (micros : Option Nat)
  | publishGap
  | recordInitialSize (cols rows : Nat)
  | recordResize (cols rows : Nat)
  deriving DecidableEq

/-- A hub with a record of the chunks it stored and of those it sent to the subscribers. -/
structure Feed (σ : Type) where
  hub : SessionHub σ
  stored : List OutputChunk := []
  sent : List OutputChunk := []

namespace Feed
variable {σ : Type} [ScreenMirror σ]

def step (f : Feed σ) : HubOp → Feed σ
  | .publish bytes micros => match f.hub.publish bytes micros with
    | some (hub, chunk) => ⟨hub, f.stored ++ [chunk], f.sent ++ [chunk]⟩
    | none => f
  | .publishGap =>
    let (hub, boundary) := f.hub.publishGap
    ⟨hub, f.stored ++ [{ boundary with bytes := gapSeam, replayGap := none }], f.sent ++ [boundary]⟩
  | .recordInitialSize cols rows => { f with hub := f.hub.recordInitialSize cols rows }
  | .recordResize cols rows => { f with hub := f.hub.recordResize cols rows }

def run (capacity : Nat) (retention : RetentionBudget) (ops : List HubOp) : Feed σ :=
  ops.foldl step ⟨.register capacity retention, [], []⟩

end Feed
end Ferryx.Terminal
