import Ferryx.Fxsh.Wire

/-! # The payload types of FXSH (`fxsh/src/types.rs`) -/

namespace Ferryx.Fxsh
open Lib

inductive ClientKind where
  | guiWindow | remoteClient | policyDaemon
  deriving DecidableEq, Repr

def ClientKind.code : ClientKind → UInt8
  | .guiWindow => 1
  | .remoteClient => 2
  | .policyDaemon => 3

instance : Codec ClientKind := .u8Enum ClientKind.code [.guiWindow, .remoteClient, .policyDaemon]

inductive Supervisor where
  | launchd | systemd | taskScheduler
  deriving DecidableEq, Repr

def Supervisor.code : Supervisor → UInt8
  | .launchd => 1
  | .systemd => 2
  | .taskScheduler => 3

instance : Codec Supervisor := .u8Enum Supervisor.code [.launchd, .systemd, .taskScheduler]

inductive Scope where
  | input | resize
  deriving DecidableEq, Repr

def Scope.code : Scope → UInt8
  | .input => 1
  | .resize => 2

instance : Codec Scope := .u8Enum Scope.code [.input, .resize]

inductive Signal where
  | hangup | interrupt | terminate | kill
  deriving DecidableEq, Repr

def Signal.code : Signal → UInt8
  | .hangup => 1
  | .interrupt => 2
  | .terminate => 3
  | .kill => 4

instance : Codec Signal := .u8Enum Signal.code [.hangup, .interrupt, .terminate, .kill]

inductive OperationKind where
  | spawn | kill
  deriving DecidableEq, Repr

def OperationKind.code : OperationKind → UInt8
  | .spawn => 1
  | .kill => 2

instance : Codec OperationKind := .u8Enum OperationKind.code [.spawn, .kill]

inductive CursorStyle where
  | block | underline | bar
  deriving DecidableEq, Repr

def CursorStyle.code : CursorStyle → UInt8
  | .block => 0
  | .underline => 1
  | .bar => 2

instance : Codec CursorStyle := .u8Enum CursorStyle.code [.block, .underline, .bar]

inductive MouseMode where
  | off | x10 | normal | button | any
  deriving DecidableEq, Repr

def MouseMode.code : MouseMode → UInt8
  | .off => 0
  | .x10 => 1
  | .normal => 2
  | .button => 3
  | .any => 4

instance : Codec MouseMode := .u8Enum MouseMode.code [.off, .x10, .normal, .button, .any]

inductive MouseEncoding where
  | default | utf8 | sgr | urxvt | sgrPixels
  deriving DecidableEq, Repr

def MouseEncoding.code : MouseEncoding → UInt8
  | .default => 0
  | .utf8 => 1
  | .sgr => 2
  | .urxvt => 3
  | .sgrPixels => 4

instance : Codec MouseEncoding := .u8Enum MouseEncoding.code [.default, .utf8, .sgr, .urxvt, .sgrPixels]

inductive ClipboardTarget where
  | clipboard | primary
  deriving DecidableEq, Repr

def ClipboardTarget.code : ClipboardTarget → UInt8
  | .clipboard => 1
  | .primary => 2

instance : Codec ClipboardTarget := .u8Enum ClipboardTarget.code [.clipboard, .primary]

structure OperationId where
  hostInstanceId : Uuid
  opSeq : UInt64
  deriving DecidableEq

instance : Codec OperationId := .record (fun v => (v.hostInstanceId, v.opSeq)) (fun (h, o) => ⟨h, o⟩) noCheck

inductive Color where
  | default
  | indexed (i : UInt8)
  | rgb (r g b : UInt8)
  deriving DecidableEq, Repr

instance : Codec Color where
  enc
    | .default => enc (0 : UInt8)
    | .indexed i => enc (1 : UInt8) ++ enc i
    | .rgb r g b => enc (2 : UInt8) ++ enc r ++ enc g ++ enc b
  dec := do
    match ← Reader.u8 with
    | 0 => pure .default
    | 1 => do
      let i ← Reader.u8
      pure (.indexed i)
    | 2 => do
      let r ← Reader.u8
      let g ← Reader.u8
      let b ← Reader.u8
      pure (.rgb r g b)
    | _ => throw .badTag
  ok _ := true

def attrMask : UInt16 := ((1 : UInt16) <<< 11) - 1

structure Cell where
  codepoint : UInt32
  graphemeExtra : Option String
  width : UInt8
  fg : Color
  bg : Color
  underlineColor : Color
  attrs : UInt16
  hyperlinkId : UInt32
  deriving DecidableEq

namespace Cell

def check (c : Cell) : DResult Unit :=
  if 2 < c.width then .error .badEnum
  else if c.attrs &&& ~~~attrMask ≠ 0 then .error .badShape
  else if c.graphemeExtra = some "" then .error .optCondition
  else .ok ()

def blank : Cell := ⟨0, none, 1, .default, .default, .default, 0, 0⟩

end Cell

instance : Codec Cell := .record
  (fun c => (c.codepoint, c.graphemeExtra, c.width, c.fg, c.bg, c.underlineColor, c.attrs, c.hyperlinkId))
  (fun (codepoint, extra, width, fg, bg, underline, attrs, link) =>
    ⟨codepoint, extra, width, fg, bg, underline, attrs, link⟩) Cell.check

structure RowData where
  wrapped : Bool
  cells : List Cell
  deriving DecidableEq

instance : Codec RowData := .record (fun r => (r.wrapped, r.cells)) (fun (w, cs) => ⟨w, cs⟩) noCheck

structure Cursor where
  row : UInt16
  col : UInt16
  style : CursorStyle
  blinking : Bool
  visible : Bool
  deriving DecidableEq

instance : Codec Cursor := .record (fun c => (c.row, c.col, c.style, c.blinking, c.visible))
  (fun (row, col, style, blinking, visible) => ⟨row, col, style, blinking, visible⟩) noCheck

structure Palette where
  defaultFg : Color
  defaultBg : Color
  cursorColor : Option Color
  overrides : List (UInt8 × UInt8 × UInt8 × UInt8)
  deriving DecidableEq

def Palette.check (p : Palette) : DResult Unit := strictlyAscending (·.1.toNat) p.overrides

instance : Codec Palette := .record (fun p => (p.defaultFg, p.defaultBg, p.cursorColor, p.overrides))
  (fun (fg, bg, cursor, overrides) => ⟨fg, bg, cursor, overrides⟩) Palette.check

structure Hyperlink where
  id : UInt32
  uri : String
  deriving DecidableEq

def Hyperlink.check (h : Hyperlink) : DResult Unit := if h.id = 0 then .error .badShape else .ok ()

instance : Codec Hyperlink := .record (fun h => (h.id, h.uri)) (fun (id, uri) => ⟨id, uri⟩) Hyperlink.check

structure ExitInfo where
  exitCode : Option Int32
  posixSignal : Option UInt8
  deriving DecidableEq

instance : Codec ExitInfo := .record (fun e => (e.exitCode, e.posixSignal)) (fun (c, s) => ⟨c, s⟩) noCheck

def modeFlagMask : UInt32 := ((1 : UInt32) <<< 11) - 1

structure Modes where
  flags : UInt32
  mouseMode : MouseMode
  mouseEncoding : MouseEncoding
  deriving DecidableEq

def Modes.check (m : Modes) : DResult Unit := if m.flags &&& ~~~modeFlagMask ≠ 0 then .error .badShape else .ok ()

instance : Codec Modes := .record (fun m => (m.flags, m.mouseMode, m.mouseEncoding))
    (fun (f, m, e) => ⟨f, m, e⟩) Modes.check

inductive UiEventKind where
  | clipboardWrite (target : ClipboardTarget) (text : String)
  | notification (title body : String)
  | bell
  deriving DecidableEq

structure UiEvent where
  eventId : UInt64
  kind : UiEventKind
  deriving DecidableEq

namespace UiEventKind

def check : UiEventKind → DResult Unit
  | .notification title body => if 256 < title.utf8ByteSize ∨ 4096 < body.utf8ByteSize then .error .badShape else .ok ()
  | _ => .ok ()

def encKind : UiEventKind → List UInt8
  | .clipboardWrite target text => enc (1 : UInt8) ++ enc target ++ enc text
  | .notification title body => enc (2 : UInt8) ++ enc title ++ enc body
  | .bell => enc (3 : UInt8)

def decKind : Reader UiEventKind := do
  match ← Reader.u8 with
  | 1 => do
    let target ← dec
    let text ← Reader.string
    pure (.clipboardWrite target text)
  | 2 => do
    let title ← Reader.string
    let body ← Reader.string
    Decoder.check (check (.notification title body))
    pure (.notification title body)
  | 3 => pure .bell
  | _ => throw .badEnum

end UiEventKind

instance : Codec UiEvent where
  enc e := enc e.eventId ++ e.kind.encKind
  dec := do
    let eventId ← Reader.u64
    let kind ← UiEventKind.decKind
    pure ⟨eventId, kind⟩
  ok e := e.kind.check.isOk

structure Delta where
  subscriptionId : UInt64
  baseRevision : UInt64
  newRevision : UInt64
  size : Option (UInt16 × UInt16)
  cursor : Option Cursor
  modes : Option Modes
  palette : Option Palette
  title : Option String
  dirtyRows : List (UInt16 × RowData)
  hyperlinksAdded : List Hyperlink
  scrollbackAppended : List (UInt64 × RowData)
  scrollbackEvictedBefore : Option UInt64
  exitInfo : Option ExitInfo
  uiEvents : List UiEvent
  deriving DecidableEq

def Delta.check (d : Delta) : DResult Unit := do
  strictlyAscending (·.1.toNat) d.dirtyRows
  strictlyAscending (·.id.toNat) d.hyperlinksAdded
  strictlyAscending (·.1.toNat) d.scrollbackAppended

instance : Codec Delta := .record
  (fun d => (d.subscriptionId, d.baseRevision, d.newRevision, d.size, d.cursor, d.modes, d.palette, d.title, d.dirtyRows,
    d.hyperlinksAdded, d.scrollbackAppended, d.scrollbackEvictedBefore, d.exitInfo, d.uiEvents))
  (fun (sub, base, new, size, cursor, modes, palette, title, rows, links, appended, evicted, exit, events) =>
    ⟨sub, base, new, size, cursor, modes, palette, title, rows, links, appended, evicted, exit, events⟩) Delta.check

structure SBody where
  cols : UInt16
  rows : UInt16
  screen : List RowData
  cursor : Cursor
  modes : Modes
  palette : Palette
  title : String
  hyperlinks : List Hyperlink
  scrollback : List (UInt64 × RowData)
  exitInfo : Option ExitInfo
  deriving DecidableEq

def SBody.check (s : SBody) : DResult Unit := do
  if s.screen.length ≠ s.rows.toNat then throw .badShape
  let widthOk (row : RowData) : Bool := row.cells.length == s.cols.toNat
  if !s.screen.all widthOk || !s.scrollback.all (fun r => widthOk r.2) then throw .badShape
  strictlyAscending (·.id.toNat) s.hyperlinks
  strictlyAscending (·.1.toNat) s.scrollback

instance : Codec SBody := .record
  (fun s => (s.cols, s.rows, s.screen, s.cursor, s.modes, s.palette, s.title, s.hyperlinks, s.scrollback, s.exitInfo))
  (fun (cols, rows, screen, cursor, modes, palette, title, links, scrollback, exit) =>
    ⟨cols, rows, screen, cursor, modes, palette, title, links, scrollback, exit⟩) SBody.check

structure Body where
  revision : UInt64
  stateDigest : Digest
  nextUiEventId : UInt64
  uiEventGap : Bool
  state : SBody
  deriving DecidableEq

instance : Codec Body := .record (fun b => (b.revision, b.stateDigest, b.nextUiEventId, b.uiEventGap, b.state))
  (fun (revision, digest, next, gap, state) => ⟨revision, digest, next, gap, state⟩) noCheck

inductive SnapshotPayload where
  | full (body : Body)
  | chunk (index total totalLen : UInt32) (bytes : Bytes)
  deriving DecidableEq

namespace SnapshotPayload

def check : SnapshotPayload → DResult Unit
  | .full _ => .ok ()
  | .chunk index total totalLen bytes =>
    if total = 0 ∨ total ≤ index ∨ totalLen.toNat < bytes.bytes.length then .error .chunkInconsistent else .ok ()

def encPayload : SnapshotPayload → List UInt8
  | .full b => enc (0 : UInt8) ++ enc b
  | .chunk index total totalLen bytes => enc (1 : UInt8) ++ enc index ++ enc total ++ enc totalLen ++ enc bytes

def decPayload : Reader SnapshotPayload := do
  match ← Reader.u8 with
  | 0 => do
    let b ← dec
    pure (.full b)
  | 1 => do
    let index ← Reader.u32
    let total ← Reader.u32
    let totalLen ← Reader.u32
    let bytes ← dec
    Decoder.check (check (.chunk index total totalLen bytes))
    pure (.chunk index total totalLen bytes)
  | _ => throw .badTag

def ok (p : SnapshotPayload) : Bool :=
  p.check.isOk && match p with
    | .full b => Codec.ok b
    | .chunk .. => true

end SnapshotPayload

structure SnapshotFrame where
  subscriptionId : UInt64
  sessionIncarnation : Uuid
  snapshotId : UInt64
  payload : SnapshotPayload
  deriving DecidableEq

instance : Codec SnapshotFrame where
  enc f := enc f.subscriptionId ++ enc f.sessionIncarnation ++ enc f.snapshotId ++ f.payload.encPayload
  dec := do
    let subscriptionId ← Reader.u64
    let sessionIncarnation ← dec
    let snapshotId ← Reader.u64
    let payload ← SnapshotPayload.decPayload
    pure ⟨subscriptionId, sessionIncarnation, snapshotId, payload⟩
  ok f := f.payload.ok

structure SessionState where
  sessionIncarnation : Uuid
  stateRevision : UInt64
  stateDigest : Digest
  inputEpoch : UInt64
  inputAccepted : UInt64
  inputCommitted : UInt64
  resizeEpoch : UInt64
  resizeSeq : UInt64
  cols : UInt16
  rows : UInt16
  childRunning : Bool
  exitInfo : Option ExitInfo
  pendingDroppedByEpoch : List (UInt64 × UInt64)
  vtRepliesDropped : UInt64
  creationOperationId : OperationId
  deriving DecidableEq

def SessionState.check (s : SessionState) : DResult Unit :=
  if s.childRunning = s.exitInfo.isSome then .error .optCondition
  else if 128 < s.pendingDroppedByEpoch.length then .error .badShape
  else .ok ()

instance : Codec SessionState := .record
  (fun s => (s.sessionIncarnation, s.stateRevision, s.stateDigest, s.inputEpoch, s.inputAccepted, s.inputCommitted,
    s.resizeEpoch,
    s.resizeSeq, s.cols, s.rows, s.childRunning, s.exitInfo, s.pendingDroppedByEpoch, s.vtRepliesDropped,
      s.creationOperationId))
  (fun (incarnation, revision, digest, epoch, accepted, committed, rEpoch, rSeq, cols, rows, running, exit, dropped, vt,
      op) =>
    ⟨incarnation, revision, digest, epoch, accepted, committed, rEpoch, rSeq, cols, rows, running, exit, dropped, vt, op⟩)
  SessionState.check

structure SessionEntry where
  sessionId : Uuid
  sessionIncarnation : Uuid
  createdTableRevision : UInt64
  creationOperationId : OperationId
  childRunning : Bool
  exitInfo : Option ExitInfo
  deriving DecidableEq

def SessionEntry.check (s : SessionEntry) : DResult Unit :=
  if s.childRunning = s.exitInfo.isSome then .error .optCondition else .ok ()

instance : Codec SessionEntry := .record
  (fun s => (s.sessionId, s.sessionIncarnation, s.createdTableRevision, s.creationOperationId, s.childRunning, s.exitInfo))
  (fun (id, incarnation, revision, op, running, exit) => ⟨id, incarnation, revision, op, running, exit⟩) SessionEntry.check

structure SessionList where
  requestToken : Uuid × UInt64
  ownerInstanceId : Uuid
  tableRevision : UInt64
  complete : Bool
  sessions : List SessionEntry
  deriving DecidableEq

instance : Codec SessionList :=
  .record (fun s => (s.requestToken, s.ownerInstanceId, s.tableRevision, s.complete, s.sessions))
  (fun (token, owner, revision, complete, sessions) => ⟨token, owner, revision, complete, sessions⟩) noCheck

end Ferryx.Fxsh
